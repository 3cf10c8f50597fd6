import Resumable.Proofs.Lookup

namespace Resumable

open List

variable {g i : Nat} {a b c : Draft} {t : Terminator}

namespace Draft

variable {d e : Draft} {h : Option HandlerId} {k s : Nat}

/-- The open state is there, has no terminator, and is covered by the handler now set. -/
structure Ready (d : Draft) : Prop where
  open_ : ∃ st, d.states[d.current]? = some st ∧ st.exit = .unreachable ∧ st.handler = d.handler
  outer : ∀ i ∈ d.handler, i < d.handlers.length
  numbered : Numbered d.states d.handlers

/-- `d'` keeps what `d` has outside its open state, and goes on in that state or in a new one. -/
structure Extends (d d' : Draft) : Prop where
  le : d.nextId ≤ d'.nextId
  kept : ∀ s : Nat, s < d.nextId → s ≠ d.current → d'.states[s]? = d.states[s]?
  current : d'.current = d.current ∨ d.nextId ≤ d'.current
  body : ∀ st, d.states[d.current]? = some st → ∃ st', d'.states[d.current]? = some st' ∧
    st.body <+: st'.body ∧ st'.handler = st.handler
  handlers : ∀ i : Nat, i < d.handlers.length → d'.handlers[i]? = d.handlers[i]?
  handlers_le : d.handlers.length ≤ d'.handlers.length
  caught : ∀ x ∈ d.caught, x ∈ d'.caught

theorem Ready.lt (h : d.Ready) : d.current < d.nextId := by
  obtain ⟨st, hs, -⟩ := h.open_
  exact (List.getElem?_eq_some_iff.mp hs).1

theorem Ready.isOpen (h : d.Ready) : d.isOpen = true := by
  obtain ⟨st, hs, ho, -⟩ := h.open_
  simp [Draft.isOpen, hs, ho, Terminator.isUnreachable]

theorem Ready.flowTo (h : d.Ready) (s : StateId) : d.flowTo s = d.close (.goto s) := by
  simp [Draft.flowTo, h.isOpen]

namespace Extends

theorem refl (d : Draft) : Extends d d :=
  ⟨Nat.le_refl _, fun _ _ _ => rfl, .inl rfl, fun st h => ⟨st, h, prefix_refl _, rfl⟩,
    fun _ _ => rfl, Nat.le_refl _, fun _ h => h⟩

/-- The middle draft is open either in the open state of the first or in a state that the first
does not have, so what the second step changes was not kept by the first. -/
theorem trans (h : Extends a b) (h' : Extends b c) (ha : a.current < a.nextId) : Extends a c where
  le := Nat.le_trans h.le h'.le
  kept s hs hne := by
    have hb : s ≠ b.current := by
      rcases h.current with hc | hc
      · rwa [hc]
      · exact Nat.ne_of_lt (Nat.lt_of_lt_of_le hs hc)
    rw [h'.kept s (Nat.lt_of_lt_of_le hs h.le) hb, h.kept s hs hne]
  current := by
    rcases h'.current with hc | hc
    · rw [hc]
      exact h.current
    · exact .inr (Nat.le_trans h.le hc)
  body st hst := by
    obtain ⟨st₁, h₁, hp₁, hh₁⟩ := h.body st hst
    by_cases hc : b.current = a.current
    · obtain ⟨st₂, h₂, hp₂, hh₂⟩ := h'.body st₁ (by rwa [hc])
      exact ⟨st₂, by rwa [← hc], hp₁.trans hp₂, hh₂.trans hh₁⟩
    · exact ⟨st₁, by rw [h'.kept _ (Nat.lt_of_lt_of_le ha h.le) (Ne.symm hc), h₁], hp₁, hh₁⟩
  handlers i hi := by
    rw [h'.handlers i (Nat.lt_of_lt_of_le hi h.handlers_le), h.handlers i hi]
  handlers_le := Nat.le_trans h.handlers_le h'.handlers_le
  caught x hx := h'.caught x (h.caught x hx)

end Extends

/-! A draft still extends another after a change to its open state or beyond the other's states. -/

namespace Extends

variable {d e : Draft}

theorem ne_current (h : Extends d e) {s : Nat} (hs : s < d.nextId) (hne : s ≠ d.current) :
    s ≠ e.current := by
  rcases h.current with hc | hc
  · rwa [hc]
  · exact Nat.ne_of_lt (Nat.lt_of_lt_of_le hs hc)

/-- A change of the states that are open now or new is no change for `d`. -/
theorem of_states (h : Extends d e) {e' : Draft} (hle : e.nextId ≤ e'.nextId)
    (hk : ∀ s : Nat, s < d.nextId → s ≠ e.current → e'.states[s]? = e.states[s]?)
    (hb : ∀ st, e.states[e.current]? = some st → ∃ st', e'.states[e.current]? = some st' ∧
      st.body <+: st'.body ∧ st'.handler = st.handler)
    (hc : e'.current = e.current ∨ d.nextId ≤ e'.current) (hd : d.current < d.nextId)
    (hh : ∀ i : Nat, i < d.handlers.length → e'.handlers[i]? = e.handlers[i]?)
    (hl : e.handlers.length ≤ e'.handlers.length) (ht : ∀ x ∈ e.caught, x ∈ e'.caught) :
    Extends d e' where
  le := Nat.le_trans h.le hle
  kept s hs hne := by rw [hk s hs (h.ne_current hs hne), h.kept s hs hne]
  current := by
    rcases hc with hc | hc
    · rw [hc]
      exact h.current
    · exact .inr hc
  body st hst := by
    obtain ⟨st₁, h₁, hp₁, hh₁⟩ := h.body st hst
    by_cases he : e.current = d.current
    · obtain ⟨st₂, h₂, hp₂, hh₂⟩ := hb st₁ (by rwa [he])
      exact ⟨st₂, by rwa [← he], hp₁.trans hp₂, hh₂.trans hh₁⟩
    · exact ⟨st₁, by rw [hk _ hd (Ne.symm he), h₁], hp₁, hh₁⟩
  handlers i hi := by rw [hh i hi, h.handlers i hi]
  handlers_le := Nat.le_trans h.handlers_le hl
  caught x hx := ht x (h.caught x hx)

theorem close (h : Extends d e) (hd : d.current < d.nextId) (t : Terminator) :
    Extends d (e.close t) := by
  refine h.of_states (by simp [Draft.close]) ?_ ?_ (.inl rfl) hd (fun _ _ => rfl) (Nat.le_refl _)
    fun _ hx => hx
  · intro s _ hne
    exact (getElem?_setExit e e.current s t).trans (if_neg (Ne.symm hne))
  · intro st hst
    refine ⟨{ st with exit := t }, ?_, prefix_refl _, rfl⟩
    exact (getElem?_setExit e e.current e.current t).trans (by simp [hst])

theorem push (h : Extends d e) (hd : d.current < d.nextId) (s : Stmt) : Extends d (e.push s) := by
  refine h.of_states (by simp) ?_ ?_ (.inl rfl) hd (fun _ _ => rfl) (Nat.le_refl _) fun _ hx => hx
  · intro i _ hne
    exact (getElem?_push e s i).trans (if_neg (Ne.symm hne))
  · intro st hst
    refine ⟨{ st with body := st.body ++ [s] }, ?_, prefix_append _ _, rfl⟩
    exact (getElem?_push e s e.current).trans (by simp [hst])

theorem switchTo (h : Extends d e) (hd : d.current < d.nextId) {m : Nat} (hm : d.nextId ≤ m) :
    Extends d (e.switchTo m) :=
  h.of_states (Nat.le_refl _) (fun _ _ _ => rfl) (fun st hst => ⟨st, hst, prefix_refl _, rfl⟩)
    (.inr hm) hd (fun _ _ => rfl) (Nat.le_refl _) fun _ hx => hx

theorem setHandler (h : Extends d e) (o : Option HandlerId) : Extends d (e.setHandler o) :=
  ⟨h.le, h.kept, h.current, h.body, h.handlers, h.handlers_le, h.caught⟩

theorem createIn (h : Extends d e) (hd : d.current < d.nextId) (he : e.current < e.nextId)
    (o : Option HandlerId) : Extends d (e.createIn o).2 := by
  refine h.of_states (by simp) ?_ ?_ (.inl rfl) hd (fun _ _ => rfl) (Nat.le_refl _) fun _ hx => hx
  · intro s hs _
    rw [getElem?_createIn, if_neg (Nat.ne_of_lt (Nat.lt_of_lt_of_le hs h.le))]
  · intro st hst
    refine ⟨st, ?_, prefix_refl _, rfl⟩
    rw [getElem?_createIn, if_neg (Nat.ne_of_lt he), hst]

theorem extend (h : Extends d e) (hd : d.current < d.nextId) (he : e.current < e.nextId)
    (k : Nat) : Extends d (e.extend k) := by
  refine h.of_states (by simp) ?_ ?_ (.inl rfl) hd (fun _ _ => rfl) (Nat.le_refl _) fun _ hx => hx
  · intro s hs _
    have := h.le
    rw [getElem?_extend, if_neg (by omega)]
  · intro st hst
    refine ⟨st, ?_, prefix_refl _, rfl⟩
    rw [getElem?_extend, if_neg (fun h => absurd h.1 (Nat.not_le_of_lt he)), hst]

theorem addHandler (h : Extends d e) (cleanup : Option StateId) (parent : Option HandlerId) :
    Extends d (e.addHandler cleanup parent).2 where
  le := h.le
  kept := h.kept
  current := h.current
  body := h.body
  handlers i hi := by
    rw [← h.handlers i hi]
    exact getElem?_append_left (Nat.lt_of_lt_of_le hi h.handlers_le)
  handlers_le := by
    have := h.handlers_le
    simp [Draft.addHandler]
    omega
  caught := h.caught

theorem moveOn (h : Extends d e) (hd : d.current < d.nextId) (he : e.current < e.nextId)
    (k : Nat) (t : Terminator) : Extends d (e.moveOn k t) :=
  ((h.extend hd he k).close hd t).switchTo hd h.le

theorem route (h : Extends d e) (hd : d.current < d.nextId) (he : e.current < e.nextId)
    {first : Nat} (hf : d.nextId ≤ first) (last cleanup : Nat) :
    Extends d (e.route first last cleanup) := by
  refine h.of_states (nextId_le_route ..) ?_ ?_ (.inl rfl) hd (fun _ _ => rfl) (Nat.le_refl _)
    fun _ hx => hx
  · intro s hs _
    have := h.le
    rw [getElem?_route, if_pos (by omega), if_neg (by omega)]
  · intro st hst
    rw [getElem?_route, if_pos he]
    split
    · rw [hst]
      exact ⟨_, rfl, prefix_refl _, rfl⟩
    · exact ⟨st, hst, prefix_refl _, rfl⟩

theorem foldl_push (hd : d.current < d.nextId) (ss : Block) :
    ∀ {e : Draft}, Extends d e → Extends d (ss.foldl Draft.push e) := by
  induction ss with
  | nil => exact id
  | cons s ss ih => exact fun h => ih (h.push hd s)

end Extends

/-- A state covered by `h` with nothing in it yet. -/
def Blank (d : Draft) (s : Nat) (h : Option HandlerId) : Prop :=
  ∃ st, d.states[s]? = some st ∧ st.body = [] ∧ st.exit = .unreachable ∧ st.handler = h

theorem Blank.lt (hb : d.Blank s h) : s < d.nextId := by
  obtain ⟨st, hs, -⟩ := hb
  exact (List.getElem?_eq_some_iff.mp hs).1

theorem Blank.congr (hb : d.Blank s h) (he : e.states[s]? = d.states[s]?) : e.Blank s h := by
  obtain ⟨st, hs, hr⟩ := hb
  exact ⟨st, he.trans hs, hr⟩

theorem Blank.ready (hb : d.Blank d.current d.handler) (ho : ∀ i ∈ d.handler, i < d.handlers.length)
    (hn : Numbered d.states d.handlers) : d.Ready := by
  obtain ⟨st, hs, -, he, hh⟩ := hb
  exact ⟨⟨st, hs, he, hh⟩, ho, hn⟩

theorem blank_moveOn (hd : d.current < d.nextId) (t : Terminator) (hi : i < k) :
    (d.moveOn k t).Blank (d.nextId + i) d.handler := by
  refine ⟨{ id := d.nextId + i, handler := d.handler }, ?_, rfl, rfl, rfl⟩
  rw [getElem?_moveOn d k t _ hd, if_neg (Nat.ne_of_gt (Nat.lt_add_right i hd)),
    if_pos ⟨Nat.le_add_right _ _, Nat.add_lt_add_left hi _⟩]

theorem Ready.moveOn (h : d.Ready) (hk : 0 < k) (t : Terminator) : (d.moveOn k t).Ready :=
  Blank.ready (blank_moveOn h.lt t hk) h.outer (h.numbered.moveOn k t)

theorem Ready.lt_moveOn (hd : d.Ready) (k : Nat) (t : Terminator) :
    d.current < (d.moveOn k t).nextId := by
  rw [nextId_moveOn]
  exact Nat.lt_add_right k hd.lt

theorem Ready.ne_moveOn (hd : d.Ready) (k : Nat) (t : Terminator) :
    d.current ≠ (d.moveOn k t).current :=
  Nat.ne_of_lt hd.lt

theorem Ready.push (h : d.Ready) (s : Stmt) : (d.push s).Ready := by
  obtain ⟨st, hs, he, hh⟩ := h.open_
  refine ⟨⟨{ st with body := st.body ++ [s] }, ?_, he, hh⟩, h.outer, h.numbered.push s⟩
  exact (getElem?_push d s d.current).trans (by simp [hs])

end Draft

namespace Splitting

variable {d d' e : Draft} {k s : Nat} {cleanup : Option StateId} {e' : Expr} {o : Option HandlerId}

open Draft

/-! Guarded blocks. -/

theorem extends_openBlock (hd : d.Ready) (k : Nat) (cleanup : Option StateId) :
    Extends d (openBlock k cleanup d) := by
  have h₁ : Extends d ((d.extend k).addHandler cleanup d.handler).2 :=
    ((Extends.refl d).extend hd.lt hd.lt k).addHandler cleanup d.handler
  have hlt : ((d.extend k).addHandler cleanup d.handler).2.current <
      ((d.extend k).addHandler cleanup d.handler).2.nextId := Nat.lt_of_lt_of_le hd.lt h₁.le
  refine (((h₁.createIn hd.lt hlt _).close hd.lt _).switchTo hd.lt ?_).setHandler _
  exact h₁.le

theorem ready_openBlock (hd : d.Ready) (k : Nat) (cleanup : Option StateId) :
    (openBlock k cleanup d).Ready := by
  refine Blank.ready ⟨{ id := d.nextId + k, handler := some d.handlers.length }, ?_, rfl, rfl, rfl⟩
    ?_ (hd.numbered.openBlock hd.outer k cleanup)
  · rw [current_openBlock, getElem?_openBlock d k cleanup _ hd.lt,
      if_neg (Nat.ne_of_gt (Nat.lt_add_right k hd.lt)), if_neg (by omega), if_pos rfl]
  · simp [handler_openBlock, handlers_openBlock]

theorem blank_openBlock (hd : d.Ready) (cleanup : Option StateId) (hi : i < k) :
    (openBlock k cleanup d).Blank (d.nextId + i) d.handler := by
  refine ⟨{ id := d.nextId + i, handler := d.handler }, ?_, rfl, rfl, rfl⟩
  rw [getElem?_openBlock d k cleanup _ hd.lt, if_neg (Nat.ne_of_gt (Nat.lt_add_right i hd.lt)),
    if_pos ⟨Nat.le_add_right _ _, Nat.add_lt_add_left hi _⟩]

theorem blank_after (hd : d.Ready) (cleanup : Option StateId) (hk : 0 < k) :
    (openBlock k cleanup d).Blank d.nextId d.handler :=
  blank_openBlock (i := 0) hd cleanup hk

theorem extends_openClause (h : Extends d e) (hd : d.current < d.nextId) (he : e.current < e.nextId)
    (hg : d.handlers.length ≤ g) (x : Option String) (cleanup : Option StateId)
    (outer : Option HandlerId) : Extends d (openClause g x cleanup outer e) := by
  rw [openClause_eq]
  have h₁ := (h.createIn hd he (around cleanup outer e)).switchTo hd h.le
  refine ⟨h₁.le, h₁.kept, h₁.current, h₁.body, ?_, ?_, ?_⟩
  · intro i hi
    have := h.handlers_le
    rw [← h.handlers i hi]
    simp [clauseHandlers, show g ≠ i by omega, getElem?_append_left (Nat.lt_of_lt_of_le hi this)]
  · have := h.handlers_le
    simp only [length_clauseHandlers]
    omega
  · intro y hy
    exact mem_append_left _ (h.caught y hy)

theorem ready_openClause (g : HandlerId) (x : Option String) (cleanup : Option StateId)
    {outer : Option HandlerId} (ho : ∀ i ∈ outer, i < d.handlers.length)
    (hn : Numbered d.states d.handlers) : (openClause g x cleanup outer d).Ready := by
  have hn' := hn.openClause g x cleanup ho
  rw [openClause_eq] at hn' ⊢
  refine Blank.ready ⟨{ id := d.nextId, handler := around cleanup outer d }, ?_, rfl, rfl, rfl⟩
    ?_ hn'
  · exact (getElem?_createIn d _ d.nextId).trans (if_pos rfl)
  · intro i hi
    simp only [length_clauseHandlers]
    cases cleanup with
    | none => exact Nat.lt_add_right _ (ho i hi)
    | some c =>
      obtain rfl : d.handlers.length = i := by simpa [around] using hi
      simp

theorem extends_closeCleaned (h : Extends d e) (hd : d.current < d.nextId)
    (he : d.nextId + 1 < e.nextId) (cleanup : Block) : Extends d (closeCleaned d cleanup e) := by
  rw [closeCleaned_eq]
  have h₁ : Extends d (fillState d cleanup e) :=
    (Extends.foldl_push hd cleanup
      ((h.setHandler d.handler).switchTo hd (Nat.le_succ _))).close hd _
  have hlt : (fillState d cleanup e).current < (fillState d cleanup e).nextId := by
    rw [nextId_fillState, current_fillState]
    exact he
  exact (h₁.route hd hlt (Nat.le_add_right _ _) _ _).switchTo hd (Nat.le_refl _)

/-- Neither the cleanup nor the routes touch the state where control goes on. -/
theorem blank_closeCleaned {cleanup : Block} {h : Option HandlerId} (hb : e.Blank d.nextId h) :
    (closeCleaned d cleanup e).Blank d.nextId h := by
  refine hb.congr ?_
  have hs : (closeCleaned d cleanup e).states[d.nextId]? = ((fillState d cleanup e).route
    (d.nextId + 2) e.nextId (d.nextId + 1)).states[d.nextId]? := rfl
  rw [hs, getElem?_route, nextId_fillState, if_pos hb.lt, if_neg (by omega), getElem?_fillState,
    if_neg (by omega)]

/-- `d'` extends `d` and is ready for more. -/
structure Goes (d d' : Draft) : Prop extends Extends d d' where
  ready : d'.Ready

theorem Goes.trans (h : Goes a b) (h' : Goes b c) (ha : a.Ready) : Goes a c :=
  ⟨h.toExtends.trans h'.toExtends ha.lt, h'.ready⟩

theorem goes_moveOn (hd : d.Ready) (hk : 0 < k) (t : Terminator) : Goes d (d.moveOn k t) :=
  ⟨(Extends.refl d).moveOn hd.lt hd.lt k t, hd.moveOn hk t⟩

theorem goes_push (hd : d.Ready) (s : Stmt) : Goes d (d.push s) :=
  ⟨(Extends.refl d).push hd.lt s, hd.push s⟩

theorem goes_pause (hd : d.Ready) (p : Pause) : Goes d (d.pause p) := by
  rw [pause_eq]
  exact goes_moveOn hd Nat.one_pos _

theorem goes_leave (hd : d.Ready) (t : Terminator) : Goes d (d.leave t) := by
  rw [leave_eq _ _ hd.lt]
  exact goes_moveOn hd Nat.one_pos _

theorem goes_openBlock (hd : d.Ready) (k : Nat) (cleanup : Option StateId) :
    Goes d (openBlock k cleanup d) :=
  ⟨extends_openBlock hd k cleanup, ready_openBlock hd k cleanup⟩

theorem Takes.goes {e : Expr} (h : Takes e e' d d') (hd : d.Ready) : Goes d d' := by
  cases h with
  | whole _ => exact ⟨.refl d, hd⟩
  | await m _ => exact goes_pause hd _

theorem Takes.handler {e : Expr} (h : Takes e e' d d') : d'.handler = d.handler := by
  cases h <;> rfl

theorem goes_openHead (hd : d.Ready) : Goes d (openHead d).2 := by
  unfold openHead
  split
  · exact ⟨.refl d, hd⟩
  · exact goes_moveOn hd Nat.one_pos _

theorem handler_openHead (d : Draft) : (openHead d).2.handler = d.handler := by
  unfold openHead
  split <;> rfl

/-! The end of a block: the open state goes on to some other. -/

theorem getElem?_flowTo (hd : d.Ready) (x : StateId) (s : Nat) :
    (d.flowTo x).states[s]? = if s = d.current
      then d.states[s]?.map fun st => { st with exit := .goto x } else d.states[s]? := by
  rw [hd.flowTo]
  refine (getElem?_setExit d d.current s _).trans ?_
  by_cases h : s = d.current
  · rw [if_pos h, if_pos h.symm]
  · rw [if_neg h, if_neg (Ne.symm h)]

theorem Goes.flowTo (h : Goes d e) (hd : d.Ready) (x : StateId) : Extends d (e.flowTo x) := by
  rw [h.ready.flowTo]
  exact h.close hd.lt _

/-- What stood outside of a block when it was entered stands there when it has been left. -/
theorem Goes.kept_flow {e' : Draft} (h : Goes e e') (x : StateId) (hs : s < e.nextId)
    (hne : s ≠ e.current) : (e'.flowTo x).states[s]? = e.states[s]? := by
  rw [getElem?_flowTo h.ready, if_neg (h.ne_current hs hne), h.kept s hs hne]

theorem Goes.blank {e' : Draft} (h : Goes e e') (hb : e.Blank s o) (hne : s ≠ e.current)
    (x : StateId) : (e'.flowTo x).Blank s o :=
  hb.congr (h.kept_flow x hb.lt hne)

/-- The block between `e` and `e'` is over and goes on to `x`; in `f`, splitting is back in a
state `m` that was there when the block began. -/
structure Back (e e' : Draft) (x : StateId) (m : Nat) (f : Draft) : Prop where
  goes : Goes e e'
  states : f.states = (e'.flowTo x).states
  handlers : f.handlers = e'.handlers
  caught : f.caught = e'.caught
  current : f.current = m
  lt : m < e.nextId
  ne : m ≠ e.current

namespace Back

variable {d e e' f : Draft} {x : StateId} {m : Nat}

theorem switchTo (h : Goes e e') (x : StateId) {m : Nat} (hlt : m < e.nextId)
    (hne : m ≠ e.current) : Back e e' x m ((e'.flowTo x).switchTo m) :=
  ⟨h, rfl, handlers_flowTo .., caught_flowTo .., rfl, hlt, hne⟩

theorem setHandler (h : Goes e e') (x : StateId) {m : Nat} (hlt : m < e.nextId)
    (hne : m ≠ e.current) (o : Option HandlerId) :
    Back e e' x m (((e'.flowTo x).setHandler o).switchTo m) :=
  ⟨h, rfl, handlers_flowTo .., caught_flowTo .., rfl, hlt, hne⟩

section

variable (h : Back e e' x m f)
include h

theorem nextId_eq : f.nextId = e'.nextId := by
  show f.states.length = _
  rw [h.states]
  exact nextId_flowTo ..

theorem kept {s : Nat} (hs : s < e.nextId) (hne : s ≠ e.current) : f.states[s]? = e.states[s]? := by
  rw [h.states, h.goes.kept_flow x hs hne]

theorem blank {s : Nat} {o : Option HandlerId} (hb : e.Blank s o)
    (hne : s ≠ e.current) : f.Blank s o :=
  hb.congr (h.kept hb.lt hne)

/-- If the state was left blank for this, the whole excursion extends the draft before it. -/
theorem goes_from (hd : d.Ready) (hde : Goes d e) (hm : d.nextId ≤ m)
    (hb : e.Blank m d.handler) (hh : f.handler = d.handler) : Goes d f := by
  have hx := (hde.trans h.goes hd).flowTo hd x
  have hf : Extends d f :=
    ⟨by rw [h.nextId_eq, ← nextId_flowTo e' x]; exact hx.le,
      fun s => by rw [h.states]; exact hx.kept s,
      .inr (by rw [h.current]; exact hm), fun st => by rw [h.states]; exact hx.body st,
      fun i => by rw [h.handlers, ← handlers_flowTo e' x]; exact hx.handlers i,
      by rw [h.handlers, ← handlers_flowTo e' x]; exact hx.handlers_le,
      fun y => by rw [h.caught, ← caught_flowTo e' x]; exact hx.caught y⟩
  refine ⟨hf, Blank.ready ?_ ?_ ?_⟩
  · rw [h.current, hh]
    exact h.blank hb h.ne
  · rw [hh]
    exact fun i hi => Nat.lt_of_lt_of_le (hd.outer i hi) hf.handlers_le
  · rw [h.states, h.handlers, ← handlers_flowTo e' x]
    exact h.goes.ready.numbered.flowTo x

end

/-- One of the states made when splitting moved on is returned to. -/
theorem of_moveOn {k : Nat} (h : Goes (d.moveOn k t) e') (x : StateId) (hi : 0 < i) (hk : i < k) :
    Back (d.moveOn k t) e' x (d.nextId + i) ((e'.flowTo x).switchTo (d.nextId + i)) :=
  .switchTo h x (by rw [nextId_moveOn]; exact Nat.add_lt_add_left hk _)
    (Nat.ne_of_gt (Nat.lt_add_of_pos_right hi))

theorem goes_of_moveOn (hd : d.Ready) {k : Nat} (h : Goes (d.moveOn k t) e')
    (hh : e'.handler = d.handler) (x : StateId) (hi : 0 < i) (hk : i < k) :
    Goes d ((e'.flowTo x).switchTo (d.nextId + i)) :=
  (of_moveOn h x hi hk).goes_from hd (goes_moveOn hd (Nat.lt_trans hi hk) t) (Nat.le_add_right ..)
    (blank_moveOn hd.lt t hk) ((handler_flowTo ..).trans hh)

end Back

theorem goes_openClause (h : Goes d e) (hd : d.Ready) (x : Option String) (cleanup : Option StateId)
    (after : StateId) :
    Goes d (openClause d.handlers.length x cleanup d.handler (e.flowTo after)) := by
  have hx := h.flowTo hd after
  refine ⟨extends_openClause hx hd.lt ?_ (Nat.le_refl _) x cleanup d.handler,
    ready_openClause _ x cleanup (fun i hi => Nat.lt_of_lt_of_le (hd.outer i hi) hx.handlers_le)
      (h.ready.numbered.flowTo after)⟩
  rw [nextId_flowTo, current_flowTo]
  exact h.ready.lt

theorem blank_openClause (hb : d.Blank s o) (g : HandlerId) (x : Option String)
    (cleanup : Option StateId) (outer : Option HandlerId) :
    (openClause g x cleanup outer d).Blank s o := by
  rw [openClause_eq]
  exact hb.congr ((getElem?_createIn d _ s).trans (if_neg (Nat.ne_of_lt hb.lt)))

/-- A guarded block has the states outside of it and its first state. -/
theorem Goes.lt_of_openBlock (h : Goes (openBlock k cleanup d) e) : d.nextId + k < e.nextId := by
  have := h.le
  rw [nextId_openBlock] at this
  omega

theorem ne_current_openClause (h : Goes (openBlock k cleanup d) e) (x : Option String)
    (after : StateId) :
    d.nextId ≠ (openClause d.handlers.length x cleanup d.handler (e.flowTo after)).current := by
  rw [current_openClause, nextId_flowTo]
  exact Nat.ne_of_lt (Nat.lt_of_le_of_lt (Nat.le_add_right _ k) h.lt_of_openBlock)

theorem ne_current_openBlock (d : Draft) (cleanup : Option StateId) (hk : 0 < k) :
    d.nextId ≠ (openBlock k cleanup d).current := by
  rw [current_openBlock]
  exact Nat.ne_of_lt (Nat.lt_add_of_pos_right hk)

theorem goes_closeCleaned (h : Goes d e) (hd : d.Ready) (he : d.nextId + 1 < e.nextId)
    (hb : (e.flowTo d.nextId).Blank d.nextId d.handler) (cleanup : Block) :
    Goes d (closeCleaned d cleanup (e.flowTo d.nextId)) := by
  have hx : Extends d (closeCleaned d cleanup (e.flowTo d.nextId)) :=
    extends_closeCleaned (h.flowTo hd d.nextId) hd.lt (by rwa [nextId_flowTo]) cleanup
  refine ⟨hx, Blank.ready ?_ ?_ ((h.ready.numbered.flowTo _).closeCleaned d cleanup)⟩
  · rw [handler_closeCleaned]
    exact blank_closeCleaned hb
  · rw [handler_closeCleaned]
    exact fun i hi => Nat.lt_of_lt_of_le (hd.outer i hi) hx.handlers_le

/-- Splitting a block leaves the rest of the table alone, and stops in a state that is open and
covered by the same handler as the one it began in. -/
theorem Splits.goes {kind : Kind} {loops : List LoopEnds} {ss : Block}
    (h : Splits kind loops ss d d') (hd : d.Ready) : Goes d d' ∧ d'.handler = d.handler := by
  induction h with
  | nil loops d => exact ⟨⟨.refl d, hd⟩, rfl⟩
  | flat hs rest ih =>
    obtain ⟨hg, hh⟩ := ih (goes_push hd _).ready
    exact ⟨(goes_push hd _).trans hg hd, hh⟩
  | @receive _ _ e s' _ _ _ hr he rest ih =>
    have h₁ := goes_pause hd (.await e)
    have h₂ := h₁.trans (goes_push h₁.ready s') hd
    obtain ⟨hg, hh⟩ := ih h₂.ready
    exact ⟨h₂.trans hg hd, hh⟩
  | yield he rest ih =>
    obtain ⟨hg, hh⟩ := ih (goes_pause hd _).ready
    exact ⟨(goes_pause hd _).trans hg hd, hh⟩
  | leave hl rest ih =>
    obtain ⟨hg, hh⟩ := ih (goes_leave hd _).ready
    exact ⟨(goes_leave hd _).trans hg hd, hh⟩
  | @value _ _ _ e' _ _ _ _ hk he rest ih =>
    have h₁ := he.goes hd
    have h₂ := h₁.trans (goes_leave h₁.ready (.ret (some e') (some returnState))) hd
    obtain ⟨hg, hh⟩ := ih h₂.ready
    exact ⟨h₂.trans hg hd, hh.trans he.handler⟩
  | @when _ _ _ t' _ _ d d₁ d₂ _ _ ht yes rest ihy ih =>
    have h₁ := ht.goes hd
    obtain ⟨hy, hhy⟩ := ihy (h₁.ready.moveOn Nat.two_pos _)
    have hb := Back.goes_of_moveOn h₁.ready hy hhy (d₁.nextId + 1) Nat.one_pos Nat.one_lt_two
    obtain ⟨hg, hh⟩ := ih hb.ready
    exact ⟨(h₁.trans hb hd).trans hg hd,
      hh.trans ((handler_flowTo ..).trans (hhy.trans ht.handler))⟩
  | @either _ _ _ t' _ _ _ d d₁ d₂ d₃ _ _ ht yes no rest ihy ihn ih =>
    have h₁ := ht.goes hd
    obtain ⟨hy, hhy⟩ := ihy (h₁.ready.moveOn (Nat.succ_pos 2) _)
    have hm := Back.of_moveOn hy (d₁.nextId + 2) Nat.one_pos (by omega)
    have hb := Back.goes_of_moveOn h₁.ready hy hhy (d₁.nextId + 2) Nat.one_pos (by omega)
    obtain ⟨hn, hhn⟩ := ihn hb.ready
    have hhb := hhn.trans ((handler_flowTo ..).trans hhy)
    have hbl := hm.blank (blank_moveOn h₁.ready.lt _ (by omega : 2 < 3))
      (Nat.ne_of_gt (Nat.lt_add_of_pos_right Nat.two_pos))
    have hc := (Back.switchTo hn (d₁.nextId + 2) hbl.lt (Nat.succ_ne_self _)).goes_from h₁.ready hb
      (Nat.le_add_right ..) hbl ((handler_flowTo ..).trans hhb)
    obtain ⟨hg, hh⟩ := ih hc.ready
    exact ⟨(h₁.trans hc hd).trans hg hd,
      hh.trans ((handler_flowTo ..).trans (hhb.trans ht.handler))⟩
  | @loop _ _ _ t' _ _ d d₁ d₂ _ _ ht body rest ihb ih =>
    have h₀ := goes_openHead hd
    have h₁ := h₀.trans (ht.goes h₀.ready) hd
    obtain ⟨hy, hhy⟩ := ihb (h₁.ready.moveOn Nat.two_pos _)
    have hb := Back.goes_of_moveOn h₁.ready hy hhy (openHead d).1 Nat.one_pos Nat.one_lt_two
    obtain ⟨hg, hh⟩ := ih hb.ready
    exact ⟨(h₁.trans hb hd).trans hg hd, hh.trans ((handler_flowTo ..).trans
      (hhy.trans (ht.handler.trans (handler_openHead d))))⟩
  | group _ hg body rest ihb ih =>
    obtain ⟨h₁, hh₁⟩ := ihb hd
    obtain ⟨h₂, hh₂⟩ := ih h₁.ready
    exact ⟨h₁.trans h₂ hd, hh₂.trans hh₁⟩
  | @caught _ _ _ x _ _ d d₁ d₂ _ _ body clause rest ihb ihc ih =>
    have h₁ := goes_openBlock hd 1 none
    obtain ⟨h₂, -⟩ := ihb h₁.ready
    have h₃ := goes_openClause (h₁.trans h₂ hd) hd x none d.nextId
    obtain ⟨h₄, -⟩ := ihc h₃.ready
    have hb := h₂.blank (blank_after hd none Nat.one_pos)
      (ne_current_openBlock d none Nat.one_pos) d.nextId
    have hc := blank_openClause hb d.handlers.length x none d.handler
    have h₅ := (Back.setHandler h₄ d.nextId hc.lt (ne_current_openClause h₂ x d.nextId)
      d.handler).goes_from hd h₃ (Nat.le_refl _) hc rfl
    obtain ⟨hg, hh⟩ := ih h₅.ready
    exact ⟨h₅.trans hg hd, hh⟩
  | @cleaned _ _ _ fb _ d d₁ _ _ hf body rest ihb ih =>
    have h₁ := goes_openBlock hd 2 (some (d.nextId + 1))
    obtain ⟨h₂, -⟩ := ihb h₁.ready
    have hb := h₂.blank (blank_after hd _ Nat.two_pos) (ne_current_openBlock d _ Nat.two_pos)
      d.nextId
    have h₃ := goes_closeCleaned (h₁.trans h₂ hd) hd (Nat.lt_of_succ_lt h₂.lt_of_openBlock) hb fb
    obtain ⟨hg, hh⟩ := ih h₃.ready
    exact ⟨h₃.trans hg hd, hh.trans (handler_closeCleaned ..)⟩
  | @both _ _ _ x _ fb _ d d₁ d₂ _ _ hf body clause rest ihb ihc ih =>
    have h₁ := goes_openBlock hd 2 (some (d.nextId + 1))
    obtain ⟨h₂, -⟩ := ihb h₁.ready
    have hb := h₂.blank (blank_after hd _ Nat.two_pos) (ne_current_openBlock d _ Nat.two_pos)
      d.nextId
    have h₃ := goes_openClause (h₁.trans h₂ hd) hd x (some (d.nextId + 1)) d.nextId
    obtain ⟨h₄, -⟩ := ihc h₃.ready
    have hlt : d.nextId + 1 < d₂.nextId := by
      have := h₄.le
      have := h₂.lt_of_openBlock
      rw [nextId_openClause, nextId_flowTo] at *
      omega
    have h₅ := goes_closeCleaned (h₃.trans h₄ hd) hd hlt
      (h₄.blank (blank_openClause hb ..) (ne_current_openClause h₂ x d.nextId) d.nextId) fb
    obtain ⟨hg, hh⟩ := ih h₅.ready
    exact ⟨h₅.trans hg hd, hh.trans (handler_closeCleaned ..)⟩

end Splitting

end Resumable

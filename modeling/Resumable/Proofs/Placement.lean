import Resumable.Proofs.Layout
import Resumable.Proofs.Routes

namespace Resumable

open List

namespace Terminator

theorem mapExits_id (t : Terminator) : t.mapExits id = t := by
  cases t <;> simp [mapExits]

theorem mapExits_mapExits (f g : StateId → StateId) (t : Terminator) :
    (t.mapExits g).mapExits f = t.mapExits (f ∘ g) := by
  cases t <;> simp [mapExits]

theorem exits_mapExits (f : StateId → StateId) (t : Terminator) :
    (t.mapExits f).exits = t.exits.map f := by
  cases t with
  | ret v t => cases t <;> rfl
  | _ => simp [mapExits, exits, successors]

end Terminator

/-- The place of the next statement. -/
def Draft.point (d : Draft) : Point :=
  ⟨d.current, d.states[d.current]?.elim 0 (·.body.length)⟩

theorem Draft.point_eq {d : Draft} {st : State} (h : d.states[d.current]? = some st) :
    d.point = ⟨d.current, st.body.length⟩ := by
  simp [Draft.point, h]

theorem Draft.Blank.point {d : Draft} {h : Option HandlerId} (hb : d.Blank d.current h) :
    d.point = ⟨d.current, 0⟩ := by
  obtain ⟨st, hs, he, -⟩ := hb
  simp [Draft.point, hs, he]

/-- A return to a state that only finishes has become one that finishes at once. -/
def Table.settle (T : Table) : Terminator → Terminator
  | .ret v (some t) => if Reduce.onlyCompletes T.states t then .ret v none else .ret v (some t)
  | t => t

/-- A state in its final form, when `φ` says where its exits lead in the end. -/
def Table.finish (T : Table) (φ : StateId → StateId) (st : State) : State :=
  { st with exit := T.settle (st.exit.mapExits φ) }

namespace Splitting

open Draft Layout

/-- The states that belong to what is split between `d` and `d'`. -/
def Owned (d d' : Draft) (s : Nat) : Prop :=
  s = d.current ∨ d.nextId ≤ s ∧ s < d'.nextId

/-- If `x` is where a jump of some kind leads at first, `J` knows where it leads in the end. -/
structure Leads (T : Table) (φ : StateId → StateId) (J : Targets) (loops : List LoopEnds)
    (x : StateId) : Prop where
  brk : ∀ l ∈ loops.head?, l.exit = x → J.brk = some (φ x)
  cont : ∀ l ∈ loops.head?, l.head = x → J.cont = some (φ x)
  ret : x = returnState →
    J.ret = some (if Reduce.onlyCompletes T.states (φ x) then none else some (φ x))

/-- What is split between `d` and `d'` stands in the table, with its exits sent on by `φ` and the
targets of its jumps in `J`. The state that is open at the end may have got longer. -/
structure Fits (T : Table) (φ : StateId → StateId) (J : Targets) (loops : List LoopEnds)
    (d d' : Draft) : Prop where
  states : ∀ s : Nat, Owned d d' s → s ≠ d'.current →
    T.states[s]? = d'.states[s]?.map (T.finish φ)
  here : ∀ st, d'.states[d'.current]? = some st → ∃ st', T.states[d'.current]? = some st' ∧
    st.body <+: st'.body ∧ st'.handler = st.handler
  fixed : ∀ s : Nat, Owned d d' s → φ s = s
  handlers : ∀ i : Nat, d.handlers.length ≤ i → i < d'.handlers.length →
    T.handlers[i]? = d'.handlers[i]?
  caught : ∀ x ∈ d'.caught, x ∈ T.caught
  jumps : ∀ s : Nat, Owned d d' s → s ≠ d'.current → ∀ st, d'.states[s]? = some st →
    ∀ x ∈ st.exit.exits, Leads T φ J loops x
  finishes : Reduce.onlyCompletes T.states (φ returnState) = true → φ returnState = returnState

variable {T : Table} {φ : StateId → StateId} {J : Targets} {loops : List LoopEnds}
  {d d' e e' f : Draft}
variable {i k s : Nat} {cleanup : Option StateId} {t : Terminator} {x : Option String}
  {after : StateId} {g : HandlerId} {h outer : Option HandlerId} {st : State}

theorem Goes.owned (h : Goes d e) (hs : s < d'.nextId) (ho : s = e.current ∨ e.nextId ≤ s) :
    Owned d d' s := by
  have hle := h.le
  rcases ho with rfl | ho
  · rcases h.current with hc | hc
    · exact .inl hc
    · exact .inr ⟨hc, hs⟩
  · exact .inr ⟨Nat.le_trans hle ho, hs⟩

section

variable (hf : Fits T φ J loops d d')
include hf

/-- What is left of a block fits if the whole does. -/
theorem Fits.rest (h : Goes d e) (h' : Goes e d') : Fits T φ J loops e d' := by
  have ho : ∀ s, Owned e d' s → Owned d d' s := by
    intro s hs
    rcases hs with rfl | ⟨hs, hlt⟩
    · exact h.owned (Nat.lt_of_lt_of_le h.ready.lt h'.le) (.inl rfl)
    · exact h.owned hlt (.inr hs)
  exact ⟨fun s hs => hf.states s (ho s hs), hf.here, fun s hs => hf.fixed s (ho s hs),
    fun i hi => hf.handlers i (Nat.le_trans h.handlers_le hi), hf.caught,
    fun s hs => hf.jumps s (ho s hs), hf.finishes⟩

/-- What has been split of a block fits if the whole does. -/
theorem Fits.first (h : Goes d e) (h' : Goes e d') (hd : d.Ready) : Fits T φ J loops d e := by
  have ho : ∀ s, Owned d e s → Owned d d' s := fun s hs =>
    hs.imp id fun hs => ⟨hs.1, Nat.lt_of_lt_of_le hs.2 h'.le⟩
  have hlt : ∀ s, Owned d e s → s < e.nextId := by
    intro s hs
    rcases hs with rfl | hs
    · exact Nat.lt_of_lt_of_le hd.lt h.le
    · exact hs.2
  have hk : ∀ s, Owned d e s → s ≠ e.current → d'.states[s]? = e.states[s]? :=
    fun s hs hne => h'.kept s (hlt s hs) hne
  refine ⟨?_, ?_, fun s hs => hf.fixed s (ho s hs), ?_, fun x hx => hf.caught x (h'.caught x hx),
    ?_, hf.finishes⟩
  · intro s hs hne
    rw [hf.states s (ho s hs) (h'.ne_current (hlt s hs) hne), hk s hs hne]
  · intro st hst
    by_cases hc : e.current = d'.current
    · obtain ⟨st₁, h₁, hp₁, hh₁⟩ := h'.body st hst
      obtain ⟨st₂, h₂, hp₂, hh₂⟩ := hf.here st₁ (hc ▸ h₁)
      exact ⟨st₂, hc ▸ h₂, hp₁.trans hp₂, hh₂.trans hh₁⟩
    · obtain ⟨st₁, h₁, hp₁, hh₁⟩ := h'.body st hst
      refine ⟨T.finish φ st₁, ?_, hp₁, hh₁⟩
      have hoc : Owned d e e.current := h.current.imp id fun hc => ⟨hc, h.ready.lt⟩
      rw [hf.states _ (ho _ hoc) hc, h₁]
      rfl
  · intro i hi hlt
    rw [hf.handlers i hi (Nat.lt_of_lt_of_le hlt h'.handlers_le), h'.handlers i hlt]
  · intro s hs hne st hst
    exact hf.jumps s (ho s hs) (h'.ne_current (hlt s hs) hne) st ((hk s hs hne).trans hst)

/-- A state that is closed when the rest of the block is split is finished as it is then. -/
theorem Fits.state (h' : Goes e d') (hs : s < e.nextId)
    (hne : s ≠ e.current) (ho : s = d.current ∨ d.nextId ≤ s) :
    T.states[s]? = e.states[s]?.map (T.finish φ) := by
  have hlt := Nat.lt_of_lt_of_le hs h'.le
  rw [hf.states s (ho.imp id fun h => ⟨h, hlt⟩) (h'.ne_current hs hne), h'.kept s hs hne]

theorem Fits.covered (h' : Goes e d')
    (ho : s = d.current ∨ d.nextId ≤ s) (hst : e.states[s]? = some st) :
    ∃ st', T.states[s]? = some st' ∧ st.body <+: st'.body ∧ st'.handler = st.handler := by
  have hs : s < e.nextId := (List.getElem?_eq_some_iff.mp hst).1
  by_cases hne : s = e.current
  · subst hne
    obtain ⟨st₁, h₁, hp₁, hh₁⟩ := h'.body st hst
    by_cases hc : e.current = d'.current
    · obtain ⟨st₂, h₂, hp₂, hh₂⟩ := hf.here st₁ (hc ▸ h₁)
      exact ⟨st₂, hc ▸ h₂, hp₁.trans hp₂, hh₂.trans hh₁⟩
    · have hlt := Nat.lt_of_lt_of_le hs h'.le
      refine ⟨T.finish φ st₁, ?_, hp₁, hh₁⟩
      rw [hf.states _ (ho.imp id fun h => ⟨h, hlt⟩) hc, h₁]
      rfl
  · refine ⟨T.finish φ st, ?_, prefix_refl _, rfl⟩
    rw [hf.state h' hs hne ho, hst]
    rfl

theorem Fits.covered_blank (h' : Goes e d')
    (ho : s = d.current ∨ d.nextId ≤ s) (hb : e.Blank s h) : Covered T s h := by
  obtain ⟨st, hst, -, -, hh⟩ := hb
  obtain ⟨st', hs, -, he⟩ := hf.covered h' ho hst
  exact ⟨st', hs, he.trans hh⟩

/-- A state closed by `t` ends so in the table. -/
theorem Fits.ends (h' : Goes e d') (hs : s < e.nextId)
    (hne : s ≠ e.current) (ho : s = d.current ∨ d.nextId ≤ s)
    (hst : e.states[s]? = some { st with exit := t }) :
    Ends T ⟨s, st.body.length⟩ (T.settle (t.mapExits φ)) := by
  refine ⟨T.finish φ { st with exit := t }, ?_, rfl, rfl⟩
  rw [hf.state h' hs hne ho, hst]
  rfl

end

/-! The pieces of a block. -/

theorem Fits.at_point (hf : Fits T φ J loops d d') (hd : d.Ready) (s : Stmt)
    (h' : Goes (d.push s) d') : At T d.point s := by
  obtain ⟨st, hst, -⟩ := hd.open_
  have hp : (d.push s).states[d.current]? = some { st with body := st.body ++ [s] } := by
    rw [getElem?_push, if_pos rfl, hst]
    rfl
  obtain ⟨st', hs, ⟨more, hm⟩, -⟩ := hf.covered h' (.inl rfl) hp
  refine ⟨st', by rwa [point_eq hst], ?_⟩
  rw [point_eq hst, ← hm]
  simp

theorem point_push (hd : d.Ready) (s : Stmt) :
    (d.push s).point = ⟨d.point.state, d.point.done + 1⟩ := by
  obtain ⟨st, hst, -⟩ := hd.open_
  have hp : (d.push s).states[(d.push s).current]? = some { st with body := st.body ++ [s] } := by
    show (d.push s).states[d.current]? = _
    rw [getElem?_push, if_pos rfl, hst]
    rfl
  rw [point_eq hp, point_eq hst]
  simp [Draft.push]

theorem point_moveOn (hd : d.current < d.nextId) (hk : 0 < k) (t : Terminator) :
    (d.moveOn k t).point = ⟨d.nextId, 0⟩ :=
  Blank.point (h := d.handler) (blank_moveOn hd t hk)

section

variable (hf : Fits T φ J loops d d')
include hf

/-- The open state is closed by `t` when splitting moves on, and stays so while `e` is made. -/
theorem Fits.ends_moveOn (hd : d.Ready)
    (hk : e.states[d.current]? = (d.moveOn k t).states[d.current]?) (hlt : d.current < e.nextId)
    (hne : d.current ≠ e.current) (h' : Goes e d') : Ends T d.point (T.settle (t.mapExits φ)) := by
  obtain ⟨st, hst, -⟩ := hd.open_
  rw [point_eq hst]
  refine hf.ends h' hlt hne (.inl rfl) ?_
  rw [hk, getElem?_moveOn d k t _ hd.lt, if_pos rfl, hst]
  rfl

theorem Fits.ends_moved (hd : d.Ready) (h' : Goes (d.moveOn k t) d') :
    Ends T d.point (T.settle (t.mapExits φ)) := by
  refine hf.ends_moveOn hd rfl ?_ ?_ h'
  · rw [nextId_moveOn]
    exact Nat.lt_add_right k hd.lt
  · exact Nat.ne_of_lt hd.lt

theorem Fits.fixed_new (hs : d.nextId ≤ s) (hlt : s < d'.nextId) : φ s = s :=
  hf.fixed s (.inr ⟨hs, hlt⟩)

theorem Fits.suspends (hd : d.Ready) (p : Pause)
    (h' : Goes (d.pause p) d') :
    Ends T d.point (.suspend p d.nextId) ∧ Covered T d.nextId d.handler := by
  rw [pause_eq] at h'
  have hlt : d.nextId < d'.nextId := by
    have := h'.le
    rw [nextId_moveOn] at this
    omega
  have he := hf.ends_moved hd h'
  simp only [Terminator.mapExits, Table.settle, hf.fixed_new (Nat.le_refl _) hlt] at he
  exact ⟨he, hf.covered_blank h' (.inr (Nat.le_refl _)) (blank_moveOn hd.lt _ Nat.one_pos)⟩

theorem Fits.taken (hd : d.Ready) {x x' : Expr}
    (ht : Takes x x' d e) (h' : Goes e d') :
    Taken T d.handler x x' d.point e.point d.nextId e.nextId := by
  cases ht with
  | whole hx => exact .whole hx
  | await m hx =>
    obtain ⟨he, hc⟩ := hf.suspends hd _ h'
    rw [pause_eq, point_moveOn hd.lt Nat.one_pos, nextId_moveOn]
    exact .await m hx he hc

end

theorem openHead_eq (d : Draft) : (openHead d).1 = d.current ∨ d.nextId ≤ (openHead d).1 := by
  unfold openHead
  split
  · exact .inl rfl
  · exact .inr (Nat.le_refl _)

theorem openHead_lt (hd : d.Ready) : (openHead d).1 < (openHead d).2.nextId := by
  unfold openHead
  split
  · exact hd.lt
  · simp

theorem Fits.heads (hf : Fits T φ J loops d d') (hd : d.Ready) (h' : Goes (openHead d).2 d') :
    Heads T d.handler d.point (openHead d).1 d.nextId (openHead d).2.nextId ∧
      (openHead d).2.point = ⟨(openHead d).1, 0⟩ := by
  unfold openHead at h' ⊢
  split at h'
  · rename_i hb
    obtain ⟨st, hst, -⟩ := hd.open_
    have he : st.exit.isUnreachable = true ∧ st.body = [] := by
      simpa [Draft.isBlank, hst] using hb
    rw [if_pos hb, point_eq hst, he.2]
    exact ⟨.here _ _, rfl⟩
  · rename_i hb
    have hlt : d.nextId < d'.nextId := by
      have := h'.le
      rw [nextId_moveOn] at this
      omega
    have he := hf.ends_moved hd h'
    simp only [Terminator.mapExits, Table.settle, hf.fixed_new (Nat.le_refl _) hlt] at he
    rw [if_neg hb]
    refine ⟨?_, point_moveOn hd.lt Nat.one_pos _⟩
    simp only [nextId_moveOn]
    exact .new he (hf.covered_blank h' (.inr (Nat.le_refl _)) (blank_moveOn hd.lt _ Nat.one_pos))

theorem settle_ret (T : Table) (v : Option Expr) (x : StateId) :
    T.settle (.ret v (some x)) =
      .ret v (if Reduce.onlyCompletes T.states x then none else some x) := by
  by_cases h : Reduce.onlyCompletes T.states x <;> simp [Table.settle, h]

theorem Fits.leads (hf : Fits T φ J loops d d') (hd : d.Ready) (h' : Goes (d.moveOn k t) d') :
    ∀ x ∈ t.exits, Leads T φ J loops x := by
  obtain ⟨st, hst, -⟩ := hd.open_
  have hlt : d.current < (d.moveOn k t).nextId := by
    rw [nextId_moveOn]
    exact Nat.lt_add_right k hd.lt
  have hne : d.current ≠ (d.moveOn k t).current := Nat.ne_of_lt hd.lt
  refine hf.jumps d.current (.inl rfl) (h'.ne_current hlt hne) { st with exit := t } ?_
  rw [h'.kept _ hlt hne, getElem?_moveOn d k t _ hd.lt, if_pos rfl, hst]
  rfl

theorem Fits.jumps_of_leaves (hf : Fits T φ J loops d d') (hd : d.Ready) {s : Stmt}
    (hl : Leaves loops s t) (h' : Goes (d.moveOn 1 t) d') :
    Jumps J s (T.settle (t.mapExits φ)) := by
  have hx := hf.leads hd h'
  cases hl with
  | yieldBreak _ m =>
    simp only [Terminator.mapExits, Option.map_some, settle_ret]
    exact .yieldBreak m ((hx _ (by simp [Terminator.exits, Terminator.successors])).ret rfl)
  | ret _ m =>
    simp only [Terminator.mapExits, Option.map_some, settle_ret]
    exact .ret m ((hx _ (by simp [Terminator.exits, Terminator.successors])).ret rfl)
  | brk l loops m =>
    exact .brk m ((hx _ (by simp [Terminator.exits, Terminator.successors])).brk l rfl rfl)
  | cont l loops m =>
    exact .cont m ((hx _ (by simp [Terminator.exits, Terminator.successors])).cont l rfl rfl)

/-- What was split between `e` and `e'` and then went on to `x` is still there in `f`, but for
its exits, which `ψ` sends on. -/
structure Kept (ψ : StateId → StateId) (e e' : Draft) (x : StateId) (f : Draft) : Prop where
  goes : Goes e e'
  le : e'.nextId ≤ f.nextId
  current : ∀ s, Owned e e' s → s ≠ f.current
  states : ∀ s : Nat, Owned e e' s → f.states[s]? =
    (e'.flowTo x).states[s]?.map fun st => { st with exit := st.exit.mapExits ψ }
  handlers : ∀ i : Nat, e.handlers.length ≤ i → i < e'.handlers.length →
    f.handlers[i]? = e'.handlers[i]?
  caught : ∀ y ∈ e'.caught, y ∈ f.caught

namespace Kept

variable {ψ : StateId → StateId} {x : StateId} {J' : Targets} {loops' : List LoopEnds}

theorem owned_current (h : Kept ψ e e' x f) : Owned e e' e'.current := by
  rcases h.goes.current with hc | hc
  · exact .inl hc
  · exact .inr ⟨hc, h.goes.ready.lt⟩

theorem lt (h : Kept ψ e e' x f) (he : e.Ready) {s : Nat} (hs : Owned e e' s) : s < f.nextId := by
  refine Nat.lt_of_lt_of_le ?_ h.le
  rcases hs with rfl | hs
  · exact Nat.lt_of_lt_of_le he.lt h.goes.le
  · exact hs.2

theorem owned (h : Kept ψ e e' x f) (hde : Goes d e) (h' : Goes f d') {s : Nat}
    (hs : Owned e e' s) : Owned d d' s :=
  hde.owned (Nat.lt_of_lt_of_le (h.lt hde.ready hs) h'.le) (hs.imp id And.left)

theorem fits (h : Kept ψ e e' x f) (hf : Fits T φ J loops d d') (hde : Goes d e) (h' : Goes f d')
    (hψ : ∀ s : Nat, Owned e e' s → ψ s = s)
    (hj : ∀ s : Nat, Owned e e' s → s ≠ e'.current → ∀ st, e'.states[s]? = some st →
      ∀ y ∈ st.exit.exits, Leads T (φ ∘ ψ) J' loops' y)
    (hr : Reduce.onlyCompletes T.states (φ (ψ returnState)) = true →
      φ (ψ returnState) = returnState) : Fits T (φ ∘ ψ) J' loops' e e' := by
  have ho : ∀ s, Owned e e' s → s = d.current ∨ d.nextId ≤ s :=
    fun s hs => (h.owned hde h' hs).imp id And.left
  refine ⟨?_, ?_, ?_, ?_, ?_, hj, hr⟩
  · intro s hs hne
    rw [hf.state h' (h.lt hde.ready hs) (h.current s hs) (ho s hs), h.states s hs,
      getElem?_flowTo h.goes.ready, if_neg hne, Option.map_map]
    congr 1
    funext st
    simp [Table.finish, Terminator.mapExits_mapExits]
  · intro st hst
    have hs := h.states _ h.owned_current
    rw [getElem?_flowTo h.goes.ready, if_pos rfl, hst] at hs
    obtain ⟨st', hs', hb, hh⟩ := hf.covered h' (ho _ h.owned_current) hs
    exact ⟨st', hs', hb, hh⟩
  · intro s hs
    have := hf.fixed s (h.owned hde h' hs)
    simp [hψ s hs, this]
  · intro i hge hi
    have hfi := h.handlers i hge hi
    have hfl : i < f.handlers.length := by
      rw [getElem?_eq_getElem hi] at hfi
      exact (List.getElem?_eq_some_iff.mp hfi).1
    rw [← hfi, ← h'.handlers i hfl]
    exact hf.handlers i (Nat.le_trans hde.handlers_le hge) (Nat.lt_of_lt_of_le hfl h'.handlers_le)
  · intro y hy
    exact hf.caught y (h'.caught y (h.caught y hy))

theorem fits_same (h : Kept id e e' x f) (hf : Fits T φ J loops d d') (hde : Goes d e)
    (h' : Goes f d') (hj : ∀ x, Leads T φ J loops x → Leads T φ J' loops' x) :
    Fits T φ J' loops' e e' := by
  refine h.fits hf hde h' (fun _ _ => rfl) ?_ hf.finishes
  intro s hs hne st hst y hy
  have hlt := h.lt hde.ready hs
  refine hj y (hf.jumps s (h.owned hde h' hs) (h'.ne_current hlt (h.current s hs)) st ?_ y hy)
  rw [h'.kept s hlt (h.current s hs), h.states s hs, getElem?_flowTo h.goes.ready, if_neg hne, hst]
  simp [Terminator.mapExits_id]

theorem ends (h : Kept ψ e e' x f) (hf : Fits T φ J loops d d') (hde : Goes d e) (h' : Goes f d')
    {y : StateId} (hy : φ (ψ x) = y) : Ends T e'.point (.goto y) := by
  subst hy
  obtain ⟨st, hst, -⟩ := h.goes.ready.open_
  have hs := h.states _ h.owned_current
  rw [getElem?_flowTo h.goes.ready, if_pos rfl, hst] at hs
  rw [point_eq hst]
  exact hf.ends h' (h.lt hde.ready h.owned_current) (h.current _ h.owned_current)
    ((h.owned hde h' h.owned_current).imp id And.left) hs

end Kept

namespace Back

variable {x : StateId} {m : Nat}

/-- The states of the excursion are kept, also while another block is split after it. -/
theorem kept_later (hb : Back e e' x m f) {f' : Draft} (hle : f.nextId ≤ f'.nextId)
    (hcur : f'.current < e.nextId) (hne : f'.current ≠ e.current)
    (hs : ∀ s : Nat, s < f.nextId → s ≠ m → f'.states[s]? = f.states[s]?)
    (hh : ∀ i : Nat, i < f.handlers.length → f'.handlers[i]? = f.handlers[i]?)
    (ht : ∀ y ∈ f.caught, y ∈ f'.caught) (he : e.Ready) : Kept id e e' x f' := by
  have hout : ∀ {s m : Nat}, Owned e e' s → m < e.nextId → m ≠ e.current → s ≠ m := by
    intro s m hos hlt hme
    rcases hos with rfl | hos
    · exact Ne.symm hme
    · exact Nat.ne_of_gt (Nat.lt_of_lt_of_le hlt hos.1)
  refine ⟨hb.goes, hb.nextId_eq ▸ hle, fun s hos => hout hos hcur hne, ?_, ?_, ?_⟩
  · intro s hos
    have hlt : s < f.nextId := by
      rw [hb.nextId_eq]
      rcases hos with rfl | hos
      · exact Nat.lt_of_lt_of_le he.lt hb.goes.le
      · exact hos.2
    rw [hs s hlt (hout hos hb.lt hb.ne), hb.states]
    simp [Terminator.mapExits_id]
  · intro i _ hi
    rw [hh i (by rwa [hb.handlers]), hb.handlers]
  · intro y hy
    exact ht y (hb.caught ▸ hy)

theorem kept_now (hb : Back e e' x m f) (he : e.Ready) : Kept id e e' x f :=
  hb.kept_later (Nat.le_refl _) (hb.current ▸ hb.lt) (hb.current ▸ hb.ne) (fun _ _ _ => rfl)
    (fun _ _ => rfl) (fun _ hy => hy) he

theorem kept_twice (hb : Back e e' x m f) {e'' f' : Draft} {y : StateId} {n : Nat}
    (hb' : Back f e'' y n f') (hlt : n < e.nextId) (hne : n ≠ e.current) (he : e.Ready) :
    Kept id e e' x f' := by
  refine hb.kept_later (hb'.nextId_eq ▸ hb'.goes.le) (hb'.current ▸ hlt) (hb'.current ▸ hne)
    ?_ ?_ ?_ he
  · intro s hs hsm
    exact hb'.kept hs (hb.current ▸ hsm)
  · intro i hi
    rw [hb'.handlers, hb'.goes.handlers i hi]
  · intro z hz
    rw [hb'.caught]
    exact hb'.goes.caught z hz

theorem point_eq_zero (hb : Back e e' x m f) {o : Option HandlerId} (hbl : e.Blank m o) :
    f.point = ⟨m, 0⟩ := by
  have hf : f.Blank f.current o := by
    rw [hb.current]
    exact hb.blank hbl hb.ne
  rw [hf.point, hb.current]

end Back

/-- The targets of jumps are states made before. -/
structure Known (loops : List LoopEnds) (d : Draft) : Prop where
  ret : returnState < d.nextId
  loop : ∀ l ∈ loops.head?, l.head < d.nextId ∧ l.exit < d.nextId

theorem Known.mono (h : Known loops d) (hle : d.nextId ≤ e.nextId) : Known loops e :=
  ⟨Nat.lt_of_lt_of_le h.ret hle, fun l hl =>
    ⟨Nat.lt_of_lt_of_le (h.loop l hl).1 hle, Nat.lt_of_lt_of_le (h.loop l hl).2 hle⟩⟩

/-- The open state ends with a test, whose two ways are new states. -/
theorem Fits.ends_test (hf : Fits T φ J loops d d') (hd : d.Ready) (hk : 2 ≤ k) {t : Expr}
    (hs : f.states[d.current]? =
      (d.moveOn k (.branch t d.nextId (d.nextId + 1))).states[d.current]?)
    (hle : d.nextId + k ≤ f.nextId) (hcur : d.nextId ≤ f.current) (h' : Goes f d') :
    Ends T d.point (.branch t d.nextId (d.nextId + 1)) := by
  have hlt := h'.le
  have hp := hf.ends_moveOn hd hs (Nat.lt_of_lt_of_le (Nat.lt_add_right k hd.lt) hle)
    (Nat.ne_of_lt (Nat.lt_of_lt_of_le hd.lt hcur)) h'
  simpa only [Terminator.mapExits, Table.settle, hf.fixed_new (Nat.le_refl _) (by omega),
    hf.fixed_new (Nat.le_succ _) (by omega)] using hp

/-- The first way of a test is entered, and left for one of the states made with it. -/
theorem Back.test (hf : Fits T φ J loops d d') (hd : d.Ready) {t : Expr} {x : StateId}
    (hb : Back (d.moveOn k (.branch t d.nextId (d.nextId + 1))) e x (d.nextId + i) f) (hk : 2 ≤ k)
    (h' : Goes f d') : Ends T d.point (.branch t d.nextId (d.nextId + 1)) := by
  refine hf.ends_test hd hk (hb.kept (hd.lt_moveOn _ _) (hd.ne_moveOn _ _)) ?_ ?_ h'
  · have := hb.goes.le
    rwa [nextId_moveOn, ← hb.nextId_eq] at this
  · rw [hb.current]
    exact Nat.le_add_right ..

theorem Back.lt_nextId {x : StateId} {m : Nat} (hb : Back (d.moveOn k t) e x m f) (h' : Goes f d') :
    d.nextId + k ≤ d'.nextId := by
  have := hb.goes.le
  rw [nextId_moveOn, ← hb.nextId_eq] at this
  exact Nat.le_trans this h'.le

/-! Routes through a cleanup. -/

theorem not_onlyCompletes_of_route {c s t : StateId} (hr : IsRoute T h c s t) :
    Reduce.onlyCompletes T.states s = false := by
  obtain ⟨st, hst, -, he, -⟩ := hr
  simp [Reduce.onlyCompletes, hst, he, Terminator.isComplete]

theorem mem_exits_settle {y : StateId} (hy : y ∈ t.exits)
    (hn : Reduce.onlyCompletes T.states y = false) : y ∈ (T.settle t).exits := by
  match t, hy with
  | .ret v (some x), hy =>
    obtain rfl : y = x := by simpa [Terminator.exits, Terminator.successors] using hy
    simpa [settle_ret, hn] using hy
  | .ret v none, hy | .goto _, hy | .branch .., hy | .suspend .., hy | .enter .., hy
  | .endCleanup, hy | .complete, hy | .unreachable, hy => exact hy

/-- Every exit out of the block has become a route in the table. -/
theorem Fits.route {cleanup : Block} (hf : Fits T φ J loops d d') (hlt : d.nextId < e.nextId)
    (h' : Goes (closeCleaned d cleanup (e.flowTo d.nextId)) d') {x : StateId}
    (hx : x ∈ routed d cleanup e) : ∃ r : Nat, routing d cleanup e x = r ∧ φ r = r ∧
      e.nextId ≤ r ∧ r < (closeCleaned d cleanup (e.flowTo d.nextId)).nextId ∧
      IsRoute T d.handler (d.nextId + 1) r (φ x) ∧ Leads T φ J loops x := by
  obtain ⟨j, hj, hr⟩ := redirect_of_mem hx
  rw [nextId_fillState, nextId_flowTo] at hr
  have hst := @getElem?_closeCleaned_route d e cleanup j
  rw [show (routed d cleanup e)[j]? = some x from hj] at hst
  have hlt' := (List.getElem?_eq_some_iff.mp hst).1
  have hne : e.nextId + j ≠ (closeCleaned d cleanup (e.flowTo d.nextId)).current :=
    Nat.ne_of_gt (show d.nextId < e.nextId + j by omega)
  have hown : Owned d d' (e.nextId + j) := .inr ⟨by omega, Nat.lt_of_lt_of_le hlt' h'.le⟩
  refine ⟨e.nextId + j, hr, hf.fixed _ hown, Nat.le_add_right .., hlt', ?_, ?_⟩
  · refine ⟨T.finish φ
      { id := e.nextId + j, exit := .enter (d.nextId + 1) x, handler := d.handler },
      ?_, rfl, rfl, rfl⟩
    rw [hf.state h' hlt' hne (.inr (by omega)), hst]
    rfl
  · refine hf.jumps _ hown (h'.ne_current hlt' hne) _ ((h'.kept _ hlt' hne).trans hst) x ?_
    simp [Terminator.exits]

/-- Where the jumps inside of a guarded block lead: to the routes for them. -/
def insideTargets (φ : StateId → StateId) (loops : List LoopEnds) (d : Draft) (cleanup : Block)
    (e : Draft) : Targets where
  brk := loops.head?.bind fun l =>
    if l.exit ∈ routed d cleanup e then some (φ (routing d cleanup e l.exit)) else none
  cont := loops.head?.bind fun l =>
    if l.head ∈ routed d cleanup e then some (φ (routing d cleanup e l.head)) else none
  ret := if returnState ∈ routed d cleanup e then some (some (φ (routing d cleanup e returnState)))
    else none

theorem Fits.routed {cleanup : Block} (hf : Fits T φ J loops d d') (h : d.nextId < e.nextId)
    (h' : Goes (closeCleaned d cleanup (e.flowTo d.nextId)) d') :
    Routed T d.handler (d.nextId + 1) (d.nextId + 2) (insideTargets φ loops d cleanup e) J
      e.nextId (closeCleaned d cleanup (e.flowTo d.nextId)).nextId := by
  refine ⟨?_, ?_, ?_, ?_, ?_⟩
  · rw [nextId_closeCleaned]
    exact Nat.le_add_right ..
  · intro s hs
    obtain ⟨l, hl, hs⟩ := Option.bind_eq_some_iff.mp hs
    split at hs
    · rename_i hm
      obtain ⟨r, hr, hφ, hge, hlt, hroute, hlead⟩ := hf.route h h' hm
      rw [hr, hφ] at hs
      obtain rfl := Option.some.inj hs
      exact ⟨hge, hlt, _, hlead.brk l hl rfl, hroute⟩
    · cases hs
  · intro s hs
    obtain ⟨l, hl, hs⟩ := Option.bind_eq_some_iff.mp hs
    split at hs
    · rename_i hm
      obtain ⟨r, hr, hφ, hge, hlt, hroute, hlead⟩ := hf.route h h' hm
      rw [hr, hφ] at hs
      obtain rfl := Option.some.inj hs
      exact ⟨hge, hlt, _, hlead.cont l hl rfl, hroute⟩
    · cases hs
  · intro y hy
    simp only [insideTargets] at hy
    split at hy
    · rename_i hm
      obtain ⟨r, hr, hφ, hge, hlt, hroute, hlead⟩ := hf.route h h' hm
      rw [hr, hφ] at hy
      obtain rfl := Option.some.inj hy
      refine ⟨r, _, rfl, hge, hlt, hlead.ret rfl, ?_⟩
      split
      · rename_i hc
        rwa [hf.finishes hc] at hroute
      · exact hroute
    · cases hy
  · intro r hge hlt
    have hlen := nextId_closeCleaned d cleanup e
    obtain ⟨x, hx⟩ : ∃ x, (Splitting.routed d cleanup e)[r - e.nextId]? = some x :=
      ⟨_, getElem?_eq_getElem (by omega)⟩
    obtain ⟨-, s, st, hfs, hls, hst, hxs⟩ := mem_outsideExits.mp (mem_of_getElem? hx)
    rw [getElem?_fillState, if_neg (by omega)] at hst
    have hr : routing d cleanup e x = r := by
      have := redirect_getElem? hx
      rw [nextId_fillState, nextId_flowTo] at this
      exact this.trans (show e.nextId + (r - e.nextId) = r by omega)
    obtain ⟨r', hr', hφ, -, -, hroute, -⟩ := hf.route h h' (mem_of_getElem? hx)
    obtain rfl : r = r' := hr.symm.trans hr'
    refine ⟨s, T.finish φ { st with exit := st.exit.mapExits (routing d cleanup e) }, hfs, hls,
      ?_, ?_⟩
    · rw [hf.state h' (by omega) (Nat.ne_of_gt (show d.nextId < s by omega)) (.inr (by omega)),
        getElem?_closeCleaned hfs hls, hst]
      rfl
    · refine mem_exits_settle ?_ (not_onlyCompletes_of_route hroute)
      rw [Terminator.exits_mapExits, Terminator.exits_mapExits]
      exact mem_map.mpr ⟨r, mem_map.mpr ⟨x, hxs, hr⟩, hφ⟩

theorem Known.leads_inside {cleanup : Block} (hk : Known loops d) (hf : Fits T φ J loops d d')
    (hlt : d.nextId < e.nextId) (h' : Goes (closeCleaned d cleanup (e.flowTo d.nextId)) d')
    (hfs : d.nextId + 2 ≤ s) (hls : s < e.nextId) (hst : (e.flowTo d.nextId).states[s]? = some st)
    {x : StateId} (hx : x ∈ st.exit.exits) :
    Leads T (φ ∘ routing d cleanup e) (insideTargets φ loops d cleanup e) loops x := by
  have hmem : x < d.nextId → x ∈ Splitting.routed d cleanup e := by
    intro hout
    refine mem_outsideExits.mpr ⟨?_, s, st, hfs, hls, ?_, hx⟩
    · exact fun hin => absurd hin.1 (Nat.not_le_of_lt (Nat.lt_add_right 2 hout))
    · rw [getElem?_fillState, if_neg (by omega), hst]
  refine ⟨?_, ?_, ?_⟩
  · rintro l hl rfl
    simp only [insideTargets, Option.mem_def.mp hl, Option.bind_some,
      if_pos (hmem (hk.loop l hl).2)]
    rfl
  · rintro l hl rfl
    simp only [insideTargets, Option.mem_def.mp hl, Option.bind_some,
      if_pos (hmem (hk.loop l hl).1)]
    rfl
  · rintro rfl
    obtain ⟨r, hr, hφ, -, -, hroute, -⟩ := hf.route hlt h' (hmem hk.ret)
    have hn := not_onlyCompletes_of_route hroute
    simp only [insideTargets, if_pos (hmem hk.ret), Function.comp, hr, hφ, hn]
    rfl

theorem Fits.finishes_inside {cleanup : Block} (hf : Fits T φ J loops d d')
    (hlt : d.nextId < e.nextId) (h' : Goes (closeCleaned d cleanup (e.flowTo d.nextId)) d')
    (hc : Reduce.onlyCompletes T.states (φ (routing d cleanup e returnState)) = true) :
    φ (routing d cleanup e returnState) = returnState := by
  by_cases hm : returnState ∈ Splitting.routed d cleanup e
  · obtain ⟨r, hr, hφ, -, -, hroute, -⟩ := hf.route hlt h' hm
    rw [hr, hφ, not_onlyCompletes_of_route hroute] at hc
    cases hc
  · have hr : routing d cleanup e returnState = returnState := redirect_of_not_mem hm
    rw [hr] at hc ⊢
    exact hf.finishes hc

/-! Guarded blocks. -/

theorem Fits.handler (hf : Fits T φ J loops d d') (h' : Goes f d') (hi : d.handlers.length ≤ i)
    (hlt : i < f.handlers.length) : T.handlers[i]? = f.handlers[i]? := by
  rw [hf.handlers i hi (Nat.lt_of_lt_of_le hlt h'.handlers_le), h'.handlers i hlt]

theorem owned_openBlock (h : Goes (openBlock k cleanup d) e)
    (hs : Owned (openBlock k cleanup d) e s) : d.nextId + k ≤ s ∧ s < e.nextId := by
  rcases hs with rfl | hs
  · rw [current_openBlock]
    exact ⟨Nat.le_refl _, h.lt_of_openBlock⟩
  · rw [nextId_openBlock] at hs
    omega

section

variable (g : HandlerId) (x : Option String) (cleanup : Option StateId) (outer : Option HandlerId)
  (d : Draft)

theorem getElem?_openClause (hs : s < d.nextId) :
    (openClause g x cleanup outer d).states[s]? = d.states[s]? := by
  rw [openClause_eq]
  exact (getElem?_createIn d _ s).trans (if_neg (Nat.ne_of_lt hs))

theorem handlers_openClause :
    (openClause g x cleanup outer d).handlers = clauseHandlers g x cleanup outer d := by
  rw [openClause_eq]

end

/-- All that was there when a clause was opened is there when it has been split. -/
theorem Goes.states_clause (h : Goes (openClause g x cleanup outer d) e) (after : StateId)
    (hs : s < d.nextId) : (e.flowTo after).states[s]? = d.states[s]? := by
  have hlt : s < (openClause g x cleanup outer d).nextId := by
    rw [nextId_openClause]
    exact Nat.lt_succ_of_lt hs
  have hne : s ≠ (openClause g x cleanup outer d).current := by
    rw [current_openClause]
    exact Nat.ne_of_lt hs
  rw [h.kept_flow after hlt hne, getElem?_openClause _ _ _ _ _ hs]

theorem Goes.handlers_clause (h : Goes (openClause g x cleanup outer d) e)
    (hi : i < (clauseHandlers g x cleanup outer d).length) :
    e.handlers[i]? = (clauseHandlers g x cleanup outer d)[i]? := by
  rw [h.handlers i (by rwa [handlers_openClause]), handlers_openClause]

theorem getElem?_clauseHandlers {g : Nat} (x : Option String) (cleanup : Option StateId)
    (outer : Option HandlerId) (hi : i < d.handlers.length) :
    (clauseHandlers g x cleanup outer d)[i]? = d.handlers[i]?.map fun h =>
      if g = i then { h with clause := some { entry := d.nextId, binding := x } } else h := by
  by_cases hg : g = i
  · simp [clauseHandlers, getElem?_append_left hi, hg]
  · simp [clauseHandlers, getElem?_append_left hi, hg]

theorem handlers_closeCleaned (d : Draft) (cleanup : Block) (e : Draft) :
    (closeCleaned d cleanup (e.flowTo d.nextId)).handlers = e.handlers := by
  have hs : (closeCleaned d cleanup (e.flowTo d.nextId)).handlers =
    (fillState d cleanup (e.flowTo d.nextId)).handlers := rfl
  rw [hs, fillState, foldl_push_eq]
  exact handlers_flowTo ..

theorem caught_closeCleaned (d : Draft) (cleanup : Block) (e : Draft) :
    (closeCleaned d cleanup (e.flowTo d.nextId)).caught = e.caught := by
  have hs : (closeCleaned d cleanup (e.flowTo d.nextId)).caught =
    (fillState d cleanup (e.flowTo d.nextId)).caught := rfl
  rw [hs, fillState, foldl_push_eq]
  exact caught_flowTo ..

/-- What is split between `c` and `e` is part of a guarded block that begins at `d` and is over
at `f`. -/
structure Inside (d c e f : Draft) : Prop where
  goes : Goes c e
  le : e.nextId ≤ f.nextId
  within : ∀ s, Owned c e s → d.nextId + 2 ≤ s ∧ s < f.nextId
  states : ∀ s : Nat, Owned c e s →
    (f.flowTo d.nextId).states[s]? = (e.flowTo d.nextId).states[s]?
  handlers : ∀ i : Nat, c.handlers.length ≤ i → i < e.handlers.length →
    f.handlers[i]? = e.handlers[i]?
  caught : ∀ y ∈ e.caught, y ∈ f.caught

namespace Inside

variable {c : Draft}

theorem kept (h : Inside d c e f) (cleanup : Block) :
    Kept (routing d cleanup f) c e d.nextId (closeCleaned d cleanup (f.flowTo d.nextId)) := by
  refine ⟨h.goes, ?_, ?_, ?_, ?_, ?_⟩
  · rw [nextId_closeCleaned]
    exact Nat.le_add_right_of_le h.le
  · intro s hs
    exact Nat.ne_of_gt (show d.nextId < s by have := (h.within s hs).1; omega)
  · intro s hs
    rw [getElem?_closeCleaned (h.within s hs).1 (h.within s hs).2, h.states s hs]
  · intro i hge hlt
    rw [handlers_closeCleaned, h.handlers i hge hlt]
  · rw [caught_closeCleaned]
    exact h.caught

theorem fits {cleanup : Block} (h : Inside d c e f) (hf : Fits T φ J loops d d')
    (hk : Known loops d) (hc : Goes d c) (hlt : d.nextId < f.nextId)
    (h' : Goes (closeCleaned d cleanup (f.flowTo d.nextId)) d') :
    Fits T (φ ∘ routing d cleanup f) (insideTargets φ loops d cleanup f) loops c e := by
  refine (h.kept cleanup).fits hf hc h' ?_ ?_ (hf.finishes_inside hlt h')
  · intro s hs
    exact redirect_inside (h.within s hs).1 (h.within s hs).2
  · intro s hs hne st hst x hx
    refine hk.leads_inside hf hlt h' (h.within s hs).1 (h.within s hs).2 ?_ hx
    rw [h.states s hs, getElem?_flowTo h.goes.ready, if_neg hne, hst]

/-- It ends on the route to where control goes on after the block. -/
theorem ends {cleanup : Block} (h : Inside d c e f) (hf : Fits T φ J loops d d')
    (hc : Goes d c) (h' : Goes (closeCleaned d cleanup (f.flowTo d.nextId)) d') {r : StateId}
    (hr : routing d cleanup f d.nextId = r) (hφ : φ r = r) : Ends T e.point (.goto r) :=
  (h.kept cleanup).ends hf hc h' (by rw [hr, hφ])

end Inside

/-- Control goes on after a guarded block through its cleanup. -/
theorem Fits.route_after {cleanup : Block} (hf : Fits T φ J loops d d')
    (hlt : d.nextId + 2 < e.nextId) (he : e.Ready) (hcur : d.nextId + 2 ≤ e.current)
    (h' : Goes (closeCleaned d cleanup (e.flowTo d.nextId)) d') :
    ∃ r : Nat, routing d cleanup e d.nextId = r ∧ φ r = r ∧ e.nextId ≤ r ∧
      r < (closeCleaned d cleanup (e.flowTo d.nextId)).nextId ∧
      IsRoute T d.handler (d.nextId + 1) r d.nextId := by
  obtain ⟨st, hst, -⟩ := he.open_
  have hm : d.nextId ∈ Splitting.routed d cleanup e := by
    refine mem_outsideExits.mpr ⟨by omega, e.current, { st with exit := .goto d.nextId }, hcur,
      he.lt, ?_, ?_⟩
    · rw [getElem?_fillState, if_neg (Nat.ne_of_gt hcur), getElem?_flowTo he, if_pos rfl, hst]
      rfl
    · simp [Terminator.exits, Terminator.successors]
  obtain ⟨r, hr, hφ, hge, hlt', hroute, -⟩ := hf.route (by omega) h' hm
  have hle := h'.le
  rw [hf.fixed_new (Nat.le_refl _) (by omega)] at hroute
  exact ⟨r, hr, hφ, hge, hlt', hroute⟩

theorem Fits.isCleanup {cleanup : Block} (hf : Fits T φ J loops d d')
    (hb : (e.flowTo d.nextId).Blank (d.nextId + 1) d.handler)
    (h' : Goes (closeCleaned d cleanup (e.flowTo d.nextId)) d') :
    IsCleanup T d.handler (d.nextId + 1) cleanup := by
  obtain ⟨st, hst, hbody, hexit, hh⟩ := @getElem?_closeCleaned_cleanup d e cleanup d.handler hb
  refine ⟨T.finish φ st, ?_, hbody,
    by simp [Table.finish, hexit, Terminator.mapExits, Table.settle], hh⟩
  rw [hf.state h' (List.getElem?_eq_some_iff.mp hst).1 (Nat.succ_ne_self d.nextId)
    (.inr (Nat.le_succ _)), hst]
  rfl

theorem point_closeCleaned {cleanup : Block} (hb : (e.flowTo d.nextId).Blank d.nextId h) :
    (closeCleaned d cleanup (e.flowTo d.nextId)).point = ⟨d.nextId, 0⟩ :=
  Blank.point (d := closeCleaned d cleanup (e.flowTo d.nextId)) (blank_closeCleaned hb)

theorem guard_openBlock (h : Goes (openBlock k cleanup d) e) :
    d.handlers.length < e.handlers.length ∧ e.handlers[d.handlers.length]? =
      some { id := d.handlers.length, cleanup, parent := d.handler } := by
  have hlt : d.handlers.length < (openBlock k cleanup d).handlers.length := by
    simp [handlers_openBlock]
  refine ⟨Nat.lt_of_lt_of_le hlt h.handlers_le, ?_⟩
  rw [h.handlers _ hlt, handlers_openBlock]
  simp

theorem guard_clause (h : Goes (openBlock k cleanup d) e)
    (h' : Goes (openClause d.handlers.length x cleanup d.handler (e.flowTo after)) f) :
    d.handlers.length < f.handlers.length ∧ f.handlers[d.handlers.length]? =
      some { id := d.handlers.length, clause := some { entry := e.nextId, binding := x }, cleanup,
             parent := d.handler } := by
  obtain ⟨hlt, hg⟩ := guard_openBlock h
  have hlen := length_clauseHandlers d.handlers.length x cleanup d.handler (e.flowTo after)
  have hle := h'.handlers_le
  rw [handlers_openClause, hlen] at hle
  rw [handlers_flowTo] at hlen hle
  refine ⟨by omega, ?_⟩
  rw [h'.handlers_clause (by omega), getElem?_clauseHandlers _ _ _ (by rwa [handlers_flowTo]),
    handlers_flowTo, nextId_flowTo, hg]
  simp

theorem guard_around {cleanup : StateId} (h : Goes (openBlock k (some cleanup) d) e)
    (h' : Goes (openClause d.handlers.length x (some cleanup) d.handler (e.flowTo after)) f) :
    e.handlers.length < f.handlers.length ∧ f.handlers[e.handlers.length]? =
      some { id := e.handlers.length, cleanup := some cleanup, parent := d.handler } := by
  have hlt := (guard_openBlock h).1
  have hlen := length_clauseHandlers d.handlers.length x (some cleanup) d.handler (e.flowTo after)
  have hle := h'.handlers_le
  rw [handlers_openClause, hlen] at hle
  rw [handlers_flowTo] at hlen hle
  simp only [Option.toList_some, length_singleton] at hlen hle
  refine ⟨by omega, ?_⟩
  rw [h'.handlers_clause (by omega)]
  simp [clauseHandlers, handlers_flowTo, Nat.ne_of_lt hlt]

/-- What the state before a guarded block has become is not changed inside of the block. -/
theorem Goes.entry_kept (hd : d.Ready) (h : Goes (openBlock k cleanup d) e) (x : StateId) :
    (e.flowTo x).states[d.current]? = (openBlock k cleanup d).states[d.current]? := by
  refine h.kept_flow x ?_ ?_
  · rw [nextId_openBlock]
    exact Nat.lt_add_right 1 (Nat.lt_add_right k hd.lt)
  · rw [current_openBlock]
    exact Nat.ne_of_lt (Nat.lt_add_right k hd.lt)

theorem blank_blockEntry (hd : d.Ready) (k : Nat) (cleanup : Option StateId) :
    (openBlock k cleanup d).Blank (d.nextId + k) (some d.handlers.length) := by
  refine ⟨{ id := d.nextId + k, handler := some d.handlers.length }, ?_, rfl, rfl, rfl⟩
  rw [getElem?_openBlock d k cleanup _ hd.lt, if_neg (Nat.ne_of_gt (Nat.lt_add_right k hd.lt)),
    if_neg (by omega), if_pos rfl]

/-- The state before a guarded block goes on to the first state of the block. -/
theorem Fits.ends_openBlock (hf : Fits T φ J loops d d') (hd : d.Ready) {c : Option StateId}
    (hs : f.states[d.current]? = (openBlock k c d).states[d.current]?)
    (hle : d.nextId + k < f.nextId) (hcur : d.nextId ≤ f.current) (h' : Goes f d') :
    Ends T d.point (.goto (d.nextId + k)) := by
  obtain ⟨st, hst, -⟩ := hd.open_
  rw [getElem?_openBlock d k c _ hd.lt, if_pos rfl, hst] at hs
  have hlt := h'.le
  have he := hf.ends h' (List.getElem?_eq_some_iff.mp hs).1
    (Nat.ne_of_lt (Nat.lt_of_lt_of_le hd.lt hcur)) (.inl rfl) hs
  simpa only [point_eq hst, Terminator.mapExits, Table.settle,
    hf.fixed_new (Nat.le_add_right d.nextId k) (by omega)] using he

theorem point_openBlock (hd : d.Ready) (k : Nat) (cleanup : Option StateId) :
    (openBlock k cleanup d).point = ⟨d.nextId + k, 0⟩ := by
  have hb := blank_blockEntry hd k cleanup
  rw [← current_openBlock k cleanup d] at hb
  rw [hb.point, current_openBlock]

section

variable (g : HandlerId) (x : Option String) (cleanup : Option StateId) (outer : Option HandlerId)
  (d : Draft)

theorem blank_clauseEntry :
    (openClause g x cleanup outer d).Blank d.nextId (around cleanup outer d) := by
  rw [openClause_eq]
  exact ⟨{ id := d.nextId, handler := around cleanup outer d },
    (getElem?_createIn d _ d.nextId).trans (if_pos rfl), rfl, rfl, rfl⟩

theorem point_openClause : (openClause g x cleanup outer d).point = ⟨d.nextId, 0⟩ := by
  have hb := blank_clauseEntry g x cleanup outer d
  rw [← current_openClause g x cleanup outer d] at hb
  rw [hb.point, current_openClause]

theorem handler_openClause : (openClause g x cleanup outer d).handler = around cleanup outer d := by
  rw [openClause_eq]

theorem caught_openClause : ∀ y ∈ x, y ∈ (openClause g x cleanup outer d).caught := by
  rw [openClause_eq]
  intro y hy
  exact mem_append_right _ (Option.mem_toList.mpr hy)

end

/-- The handlers made inside of a guarded block are not touched by its clause. -/
theorem Goes.handlers_body
    (h : Goes (openClause d.handlers.length x cleanup d.handler (e.flowTo after)) f)
    (hge : (openBlock k cleanup d).handlers.length ≤ i) (hi : i < e.handlers.length) :
    f.handlers[i]? = e.handlers[i]? := by
  have hlt : i <
      (clauseHandlers d.handlers.length x cleanup d.handler (e.flowTo after)).length := by
    rw [length_clauseHandlers, handlers_flowTo]
    exact Nat.lt_add_right _ hi
  simp only [handlers_openBlock, length_append, length_singleton] at hge
  rw [h.handlers_clause hlt, getElem?_clauseHandlers _ _ _ (by rwa [handlers_flowTo]),
    handlers_flowTo]
  simp [show d.handlers.length ≠ i by omega]

theorem Goes.caught_body (h : Goes (openClause g x cleanup outer (e.flowTo after)) f) :
    ∀ y ∈ e.caught, y ∈ f.caught := by
  intro y hy
  refine h.caught y ?_
  rw [openClause_eq, caught_flowTo]
  exact mem_append_left _ hy

/-- A body that is split and fits is laid out. -/
theorem Splits.laid {kind : Kind} {ss : Block} (h : Splits kind loops ss d d') (hd : d.Ready)
    (hk : Known loops d) (hf : Fits T φ J loops d d') :
    Laid T d.handler J ss d.point d'.point d.nextId d'.nextId := by
  induction h generalizing φ J with
  | nil loops d => exact .nil ..
  | @flat loops s ss d d' hs rest ih =>
    have h₁ := goes_push hd s
    obtain ⟨hg, -⟩ := rest.goes h₁.ready
    have hl := ih h₁.ready (hk.mono h₁.le) (hf.rest h₁ hg)
    rw [point_push hd, nextId_push] at hl
    exact .flat hs (hf.at_point hd s hg) hl
  | @receive loops s e s' ss d d' hr he rest ih =>
    have h₁ := goes_pause hd (.await e)
    have h₂ := goes_push h₁.ready s'
    obtain ⟨hg, -⟩ := rest.goes h₂.ready
    have hl := ih h₂.ready ((hk.mono h₁.le).mono h₂.le) (hf.rest (h₁.trans h₂ hd) hg)
    have ha := (hf.rest h₁ (h₂.trans hg h₁.ready)).at_point h₁.ready s' hg
    obtain ⟨hs, hc⟩ := hf.suspends hd (.await e) (h₂.trans hg h₁.ready)
    rw [point_push h₁.ready, nextId_push, pause_eq, point_moveOn hd.lt Nat.one_pos,
      nextId_moveOn] at hl
    rw [pause_eq, point_moveOn hd.lt Nat.one_pos] at ha
    exact .receive hr he hs hc ha hl
  | @yield loops m e ss d d' he rest ih =>
    have h₁ := goes_pause hd (.yield e)
    obtain ⟨hg, -⟩ := rest.goes h₁.ready
    have hl := ih h₁.ready (hk.mono h₁.le) (hf.rest h₁ hg)
    obtain ⟨hs, hc⟩ := hf.suspends hd (.yield e) hg
    rw [pause_eq, point_moveOn hd.lt Nat.one_pos, nextId_moveOn] at hl
    exact .yield he hs hc hl
  | @leave loops s t ss d d' hl rest ih =>
    have h₁ := goes_leave hd t
    obtain ⟨hg, -⟩ := rest.goes h₁.ready
    have hlaid := ih h₁.ready (hk.mono h₁.le) (hf.rest h₁ hg)
    rw [leave_eq d t hd.lt] at hg hlaid
    rw [point_moveOn hd.lt Nat.one_pos, nextId_moveOn] at hlaid
    exact .leave (hf.jumps_of_leaves hd hl hg) (hf.ends_moved hd hg)
      (hf.covered_blank hg (.inr (Nat.le_refl _)) (blank_moveOn hd.lt _ Nat.one_pos)) hlaid
  | @value loops m e e' ss d d₁ d' hkind he rest ih =>
    have h₁ := he.goes hd
    have h₂ := goes_leave h₁.ready (.ret (some e') (some returnState))
    obtain ⟨hg, -⟩ := rest.goes h₂.ready
    have hl := ih h₂.ready ((hk.mono h₁.le).mono h₂.le) (hf.rest (h₁.trans h₂ hd) hg)
    rw [leave_eq _ _ h₁.ready.lt] at h₂ hg hl
    have hf₁ := hf.rest h₁ (h₂.trans hg h₁.ready)
    have hr := (hf₁.leads h₁.ready hg returnState
      (by simp [Terminator.exits, Terminator.successors])).ret rfl
    have hp := hf₁.ends_moved h₁.ready hg
    rw [point_moveOn h₁.ready.lt Nat.one_pos, nextId_moveOn] at hl
    simp only [Terminator.mapExits, Option.map_some, settle_ret] at hp
    have hc := hf₁.covered_blank hg (.inr (Nat.le_refl _))
      (blank_moveOn h₁.ready.lt (.ret (some e') (some returnState)) Nat.one_pos)
    rw [show (d₁.moveOn 1 (.ret (some e') (some returnState))).handler =
      d.handler from he.handler] at hl
    rw [he.handler] at hc
    exact .value (hf.taken hd he (h₂.trans hg h₁.ready)) hr hp hc hl
  | @when loops m t t' a ss d d₁ d₂ d' _ ht yes rest ihy ih =>
    let test := Terminator.branch t' d₁.nextId (d₁.nextId + 1)
    have h₁ := ht.goes hd
    have hm := goes_moveOn h₁.ready Nat.two_pos test
    obtain ⟨hy, hhy⟩ := yes.goes hm.ready
    have hback := Back.of_moveOn hy (d₁.nextId + 1) Nat.one_pos Nat.one_lt_two
    have hb := Back.goes_of_moveOn h₁.ready hy hhy (d₁.nextId + 1) Nat.one_pos Nat.one_lt_two
    obtain ⟨hg, -⟩ := rest.goes hb.ready
    have hf₁ := hf.rest h₁ (hb.trans hg h₁.ready)
    have hlt := hback.lt_nextId hg
    have hbl := blank_moveOn h₁.ready.lt test Nat.one_lt_two
    have hkept := hback.kept_now hm.ready
    have hfy := hkept.fits_same hf₁ hm hg fun _ h => h
    have hly := ihy hm.ready ((hk.mono h₁.le).mono hm.le) hfy
    have hl := ih hb.ready ((hk.mono h₁.le).mono hb.le) (hf₁.rest hb hg)
    rw [point_moveOn h₁.ready.lt Nat.two_pos, nextId_moveOn] at hly
    rw [hback.point_eq_zero hbl, hback.nextId_eq] at hl
    rw [show ((d₂.flowTo (d₁.nextId + 1)).switchTo (d₁.nextId + 1)).handler = d₁.handler from
      (handler_flowTo ..).trans hhy] at hl
    rw [← ht.handler]
    refine .when (ht.handler ▸ hf.taken hd ht (hb.trans hg h₁.ready))
      (hback.test hf₁ h₁.ready (Nat.le_refl 2) hg) ?_ ?_ hly ?_ hl
    · exact hfy.covered_blank hy (.inl rfl) (blank_moveOn h₁.ready.lt test Nat.two_pos)
    · exact hf₁.covered_blank hg (.inr (Nat.le_succ _)) (hback.blank hbl (Nat.succ_ne_self _))
    · exact hkept.ends hf₁ hm hg (hf₁.fixed_new (Nat.le_succ _) hlt)
  | @either loops m t t' a b ss d d₁ d₂ d₃ d' _ ht yes no rest ihy ihn ih =>
    let test := Terminator.branch t' d₁.nextId (d₁.nextId + 1)
    have h₁ := ht.goes hd
    have hm := goes_moveOn h₁.ready (Nat.succ_pos 2) test
    obtain ⟨hy, hhy⟩ := yes.goes hm.ready
    have hby := Back.of_moveOn hy (d₁.nextId + 2) Nat.one_pos (by omega)
    have hgy := Back.goes_of_moveOn h₁.ready hy hhy (d₁.nextId + 2) Nat.one_pos (by omega)
    obtain ⟨hn, hhn⟩ := no.goes hgy.ready
    have hbl := hby.blank (blank_moveOn h₁.ready.lt test (by omega : 2 < 3))
      (Nat.ne_of_gt (Nat.lt_add_of_pos_right Nat.two_pos))
    have hbn := Back.switchTo hn (d₁.nextId + 2) hbl.lt (Nat.succ_ne_self _)
    have hhb := hhn.trans ((handler_flowTo ..).trans hhy)
    have hgn := hbn.goes_from h₁.ready hgy (Nat.le_add_right ..) hbl ((handler_flowTo ..).trans hhb)
    obtain ⟨hg, -⟩ := rest.goes hgn.ready
    have hf₁ := hf.rest h₁ (hgn.trans hg h₁.ready)
    have hle : d₁.nextId + 3 ≤ ((d₃.flowTo (d₁.nextId + 2)).switchTo (d₁.nextId + 2)).nextId := by
      have h₂ := hby.nextId_eq ▸ hby.goes.le
      rw [nextId_moveOn] at h₂
      exact hbn.nextId_eq ▸ Nat.le_trans h₂ hbn.goes.le
    have hky := hby.kept_twice hbn (by rw [nextId_moveOn]; omega)
      (Nat.ne_of_gt (Nat.lt_add_of_pos_right Nat.two_pos)) hm.ready
    have hkn := hbn.kept_now hgy.ready
    have hfy := hky.fits_same hf₁ hm hg fun _ h => h
    have hfn := hkn.fits_same hf₁ hgy hg fun _ h => h
    have hly := ihy hm.ready ((hk.mono h₁.le).mono hm.le) hfy
    have hln := ihn hgy.ready ((hk.mono h₁.le).mono hgy.le) hfn
    have hl := ih hgn.ready ((hk.mono h₁.le).mono hgn.le) (hf₁.rest hgn hg)
    have hbl₁ := blank_moveOn h₁.ready.lt test (by omega : 1 < 3)
    rw [point_moveOn h₁.ready.lt (Nat.succ_pos 2), nextId_moveOn] at hly
    rw [hby.point_eq_zero hbl₁, hby.nextId_eq] at hln
    rw [hbn.point_eq_zero hbl, hbn.nextId_eq] at hl
    rw [show ((d₂.flowTo (d₁.nextId + 2)).switchTo (d₁.nextId + 1)).handler = d₁.handler from
      (handler_flowTo ..).trans hhy] at hln
    rw [show ((d₃.flowTo (d₁.nextId + 2)).switchTo (d₁.nextId + 2)).handler = d₁.handler from
      (handler_flowTo ..).trans hhb] at hl
    have hx : φ (d₁.nextId + 2) = d₁.nextId + 2 := hf₁.fixed_new (Nat.le_add_right ..)
      (Nat.le_trans hle hg.le)
    rw [← ht.handler]
    refine .either (ht.handler ▸ hf.taken hd ht (hgn.trans hg h₁.ready)) ?_ ?_ ?_ ?_ hly
      (hky.ends hf₁ hm hg hx) hln (hkn.ends hf₁ hgy hg hx) hl
    · refine hf₁.ends_test h₁.ready (Nat.le_succ 2) ?_ hle (Nat.le_add_right ..) hg
      exact (hbn.kept (Nat.lt_of_lt_of_le h₁.ready.lt hgy.le)
        (Nat.ne_of_lt (Nat.lt_add_right 1 h₁.ready.lt))).trans
        (hby.kept (h₁.ready.lt_moveOn 3 test) (h₁.ready.ne_moveOn 3 test))
    · exact hfy.covered_blank hy (.inl rfl) (blank_moveOn h₁.ready.lt test (Nat.succ_pos 2))
    · exact hfn.covered_blank hn (.inl rfl) (hby.blank hbl₁ (Nat.succ_ne_self _))
    · exact hf₁.covered_blank hg (.inr (Nat.le_add_right ..)) (hbn.blank hbl (Nat.succ_ne_self _))
  | @loop loops m t t' b ss d d₁ d₂ d' _ ht body rest ihb ih =>
    let test := Terminator.branch t' d₁.nextId (d₁.nextId + 1)
    have h₀ := goes_openHead hd
    have ht₁ := ht.goes h₀.ready
    have h₁ := h₀.trans ht₁ hd
    have hm := goes_moveOn h₁.ready Nat.two_pos test
    obtain ⟨hy, hhy⟩ := body.goes hm.ready
    have hback := Back.of_moveOn hy (openHead d).1 Nat.one_pos Nat.one_lt_two
    have hb := Back.goes_of_moveOn h₁.ready hy hhy (openHead d).1 Nat.one_pos Nat.one_lt_two
    obtain ⟨hg, -⟩ := rest.goes hb.ready
    have hrest := hb.trans hg h₁.ready
    have hf₁ := hf.rest h₁ hrest
    have hlt := hback.lt_nextId hg
    have hbl := blank_moveOn h₁.ready.lt test Nat.one_lt_two
    obtain ⟨hheads, hpoint⟩ := hf.heads hd (ht₁.trans hrest h₀.ready)
    have hkept := hback.kept_now hm.ready
    have hlth : (openHead d).1 < d₁.nextId := Nat.lt_of_lt_of_le (openHead_lt hd) ht₁.le
    have hhead : φ (openHead d).1 = (openHead d).1 :=
      hf.fixed _ ((openHead_eq d).imp id fun h => ⟨h, Nat.lt_of_lt_of_le hlth hrest.le⟩)
    have hfy : Fits T φ { J with brk := some (d₁.nextId + 1), cont := some (openHead d).1 }
        (⟨(openHead d).1, d₁.nextId + 1⟩ :: loops) (d₁.moveOn 2 test) d₂ := by
      refine hkept.fits_same hf₁ hm hg fun x hx => ⟨?_, ?_, hx.ret⟩
      · rintro l ⟨⟩ rfl
        rw [hf₁.fixed_new (Nat.le_succ _) hlt]
      · rintro l ⟨⟩ rfl
        rw [hhead]
    have hknown : Known (⟨(openHead d).1, d₁.nextId + 1⟩ :: loops) (d₁.moveOn 2 test) := by
      refine ⟨((hk.mono h₁.le).mono hm.le).ret, ?_⟩
      rintro l ⟨⟩
      rw [nextId_moveOn]
      exact ⟨Nat.lt_add_right 2 hlth, Nat.lt_succ_self _⟩
    have hly := ihb hm.ready hknown hfy
    have hl := ih hb.ready ((hk.mono h₁.le).mono hb.le) (hf₁.rest hb hg)
    rw [point_moveOn h₁.ready.lt Nat.two_pos, nextId_moveOn] at hly
    rw [hback.point_eq_zero hbl, hback.nextId_eq] at hl
    have hh : d₁.handler = d.handler := ht.handler.trans (handler_openHead d)
    rw [show ((d₂.flowTo (openHead d).1).switchTo (d₁.nextId + 1)).handler = d₁.handler from
      (handler_flowTo ..).trans hhy] at hl
    have htaken := (hf.rest h₀ (ht₁.trans hrest h₀.ready)).taken h₀.ready ht hrest
    rw [hpoint, handler_openHead, ← hh] at htaken
    rw [← hh]
    refine .loop (hh ▸ hheads) htaken (hback.test hf₁ h₁.ready (Nat.le_refl 2) hg) ?_ ?_ hly
      (hkept.ends hf₁ hm hg hhead) hl
    · exact hfy.covered_blank hy (.inl rfl) (blank_moveOn h₁.ready.lt test Nat.two_pos)
    · exact hf₁.covered_blank hg (.inr (Nat.le_succ _)) (hback.blank hbl (Nat.succ_ne_self _))
  | @group loops s b ss d d₁ d' _ hgr body rest ihb ih =>
    obtain ⟨h₁, hh₁⟩ := body.goes hd
    obtain ⟨hg, -⟩ := rest.goes h₁.ready
    have hl := ih h₁.ready (hk.mono h₁.le) (hf.rest h₁ hg)
    rw [hh₁] at hl
    exact .group hgr (ihb hd hk (hf.first h₁ hg hd)) hl
  | @caught loops m b x cb ss d d₁ d₂ d' _ body clause rest ihb ihc ih =>
    have h₁ := goes_openBlock hd 1 none
    obtain ⟨h₂, -⟩ := body.goes h₁.ready
    have h₃ := goes_openClause (h₁.trans h₂ hd) hd x none d.nextId
    obtain ⟨h₄, -⟩ := clause.goes h₃.ready
    have hbl := blank_openClause (h₂.blank (blank_after hd none Nat.one_pos)
      (ne_current_openBlock d none Nat.one_pos) d.nextId) d.handlers.length x none d.handler
    have hback := Back.setHandler h₄ d.nextId hbl.lt (ne_current_openClause h₂ x d.nextId) d.handler
    have h₅ := hback.goes_from hd h₃ (Nat.le_refl _) hbl rfl
    obtain ⟨hg, -⟩ := rest.goes h₅.ready
    have hlt := h₂.lt_of_openBlock
    have hle : d₁.nextId + 1 ≤ d₂.nextId := by
      have := h₄.le
      rwa [nextId_openClause, nextId_flowTo] at this
    have hkb : Kept id (openBlock 1 none d) d₁ d.nextId
        (((d₂.flowTo d.nextId).setHandler d.handler).switchTo d.nextId) := by
      refine ⟨h₂, ?_, ?_, ?_, ?_, ?_⟩
      · rw [hback.nextId_eq]
        omega
      · intro s hs
        exact Nat.ne_of_gt (owned_openBlock h₂ hs).1
      · intro s hs
        rw [hback.states, h₄.states_clause d.nextId
          (by rw [nextId_flowTo]; exact (owned_openBlock h₂ hs).2)]
        simp [Terminator.mapExits_id]
      · intro i hge hi
        rw [hback.handlers, h₄.handlers_body hge hi]
      · rw [hback.caught]
        exact h₄.caught_body
    have hkc := hback.kept_now h₃.ready
    have hfb := hkb.fits_same hf h₁ hg fun _ h => h
    have hfc := hkc.fits_same hf h₃ hg fun _ h => h
    have hlb := ihb h₁.ready (hk.mono h₁.le) hfb
    have hlc := ihc h₃.ready (hk.mono h₃.le) hfc
    have hl := ih h₅.ready (hk.mono h₅.le) (hf.rest h₅ hg)
    rw [point_openBlock hd, nextId_openBlock, handler_openBlock] at hlb
    rw [point_openClause, nextId_openClause, nextId_flowTo, handler_openClause] at hlc
    rw [hback.point_eq_zero hbl, hback.nextId_eq] at hl
    have hafter : φ d.nextId = d.nextId :=
      hf.fixed_new (Nat.le_refl _) (Nat.lt_of_lt_of_le (by omega) (hback.nextId_eq ▸ hg.le))
    have hc := hfc.covered_blank h₄ (.inl (current_openClause ..).symm) (blank_clauseEntry ..)
    rw [nextId_flowTo] at hc
    refine .caught (g := d.handlers.length) ⟨hd.outer, ?_⟩ ?_ ?_ ?_ ?_ hlb
      (hkb.ends hf h₁ hg hafter) hc hlc (hkc.ends hf h₃ hg hafter) hl
    · obtain ⟨hlt, hguard⟩ := guard_clause h₂ h₄
      rw [hf.handler hg (Nat.le_refl _) (by rwa [hback.handlers]), hback.handlers, hguard]
      rfl
    · intro y hy
      exact hf.caught y (hg.caught y
        (hback.caught ▸ h₄.caught y (caught_openClause _ _ _ _ _ y hy)))
    · exact hf.covered_blank hg (.inr (Nat.le_refl _))
        (hback.blank hbl (ne_current_openClause h₂ x d.nextId))
    · refine hf.ends_openBlock hd (k := 1) (c := none) ?_ ?_ (Nat.le_refl _) hg
      · rw [hback.states, h₄.states_clause d.nextId
          (by rw [nextId_flowTo]; exact Nat.lt_trans hd.lt (by omega)), h₂.entry_kept hd]
      · rw [hback.nextId_eq]
        omega
    · exact hfb.covered_blank h₂ (.inl (current_openBlock ..).symm) (blank_blockEntry hd 1 none)
  | @cleaned loops m b fb ss d d₁ d' _ hfc body rest ihb ih =>
    have h₁ := goes_openBlock hd 2 (some (d.nextId + 1))
    obtain ⟨h₂, -⟩ := body.goes h₁.ready
    have hlt := h₂.lt_of_openBlock
    have hbl := h₂.blank (blank_after hd _ Nat.two_pos) (ne_current_openBlock d _ Nat.two_pos)
      d.nextId
    have h₃ := goes_closeCleaned (h₁.trans h₂ hd) hd (by omega) hbl fb
    obtain ⟨hg, -⟩ := rest.goes h₃.ready
    have hin : Inside d (openBlock 2 (some (d.nextId + 1)) d) d₁ d₁ :=
      ⟨h₂, Nat.le_refl _, fun s hs => owned_openBlock h₂ hs, fun _ _ => rfl, fun _ _ _ => rfl,
        fun _ hy => hy⟩
    have hfb := hin.fits hf hk h₁ (by omega) hg
    have hlb := ihb h₁.ready (hk.mono h₁.le) hfb
    have hl := ih h₃.ready (hk.mono h₃.le) (hf.rest h₃ hg)
    have hcur : d.nextId + 2 ≤ d₁.current := by
      have := h₂.current
      rw [current_openBlock, nextId_openBlock] at this
      unfold StateId at *
      omega
    obtain ⟨r, hr, hφ, hge, hlr, hroute⟩ := hf.route_after hlt h₂.ready hcur hg
    have hblc := h₂.blank (blank_openBlock hd (some (d.nextId + 1)) Nat.one_lt_two)
      (by rw [current_openBlock]; omega) d.nextId
    rw [point_openBlock hd, nextId_openBlock, handler_openBlock] at hlb
    rw [point_closeCleaned hbl, handler_closeCleaned] at hl
    refine .cleaned (g := d.handlers.length) hfc ⟨hd.outer, ?_⟩ ?_ (hf.isCleanup hblc hg) ?_ ?_ hlb
      (hin.ends hf h₁ hg hr hφ) ⟨hge, hlr, hroute⟩ (hf.routed (by omega) hg) hl
    · obtain ⟨hgl, hguard⟩ := guard_openBlock h₂
      rw [hf.handler hg (Nat.le_refl _) (by rwa [handlers_closeCleaned]), handlers_closeCleaned,
        hguard]
      rfl
    · exact hf.covered_blank hg (.inr (Nat.le_refl _)) (blank_closeCleaned hbl)
    · refine hf.ends_openBlock hd (k := 2) (c := some (d.nextId + 1)) ?_ ?_ (Nat.le_refl _) hg
      · rw [getElem?_closeCleaned_of_lt hd.lt (by omega), h₂.entry_kept hd]
      · rw [nextId_closeCleaned]
        omega
    · exact hfb.covered_blank h₂ (.inl (current_openBlock ..).symm) (blank_blockEntry hd 2 _)
  | @both loops m b x cb fb ss d d₁ d₂ d' _ hfc body clause rest ihb ihc ih =>
    have h₁ := goes_openBlock hd 2 (some (d.nextId + 1))
    obtain ⟨h₂, -⟩ := body.goes h₁.ready
    have h₃ := goes_openClause (h₁.trans h₂ hd) hd x (some (d.nextId + 1)) d.nextId
    obtain ⟨h₄, -⟩ := clause.goes h₃.ready
    have hlt₁ := h₂.lt_of_openBlock
    have hle : d₁.nextId + 1 ≤ d₂.nextId := by
      have := h₄.le
      rwa [nextId_openClause, nextId_flowTo] at this
    have hbl₁ := h₂.blank (blank_after hd _ Nat.two_pos) (ne_current_openBlock d _ Nat.two_pos)
      d.nextId
    have hbl := h₄.blank (blank_openClause hbl₁ d.handlers.length x (some (d.nextId + 1)) d.handler)
      (ne_current_openClause h₂ x d.nextId) d.nextId
    have h₅ := goes_closeCleaned (h₃.trans h₄ hd) hd (by omega) hbl fb
    obtain ⟨hg, -⟩ := rest.goes h₅.ready
    have hinb : Inside d (openBlock 2 (some (d.nextId + 1)) d) d₁ d₂ := by
      refine ⟨h₂, by omega, ?_, ?_, fun i => h₄.handlers_body, h₄.caught_body⟩
      · intro s hs
        have := owned_openBlock h₂ hs
        omega
      · intro s hs
        exact h₄.states_clause d.nextId (by rw [nextId_flowTo]; exact (owned_openBlock h₂ hs).2)
    have hinc : Inside d (openClause d.handlers.length x (some (d.nextId + 1)) d.handler
        (d₁.flowTo d.nextId)) d₂ d₂ := by
      refine ⟨h₄, Nat.le_refl _, ?_, fun _ _ => rfl, fun _ _ _ => rfl, fun _ hy => hy⟩
      intro s hs
      rcases hs with rfl | hs
      · rw [current_openClause, nextId_flowTo]
        omega
      · rw [nextId_openClause, nextId_flowTo] at hs
        omega
    have hfb := hinb.fits hf hk h₁ (by omega) hg
    have hfcl := hinc.fits hf hk h₃ (by omega) hg
    have hlb := ihb h₁.ready (hk.mono h₁.le) hfb
    have hlc := ihc h₃.ready (hk.mono h₃.le) hfcl
    have hl := ih h₅.ready (hk.mono h₅.le) (hf.rest h₅ hg)
    have hcur : d.nextId + 2 ≤ d₂.current := by
      have := h₄.current
      rw [current_openClause, nextId_openClause, nextId_flowTo] at this
      unfold StateId at *
      omega
    obtain ⟨r, hr, hφ, hge, hlr, hroute⟩ := hf.route_after (by omega) h₄.ready hcur hg
    have hblc := h₄.blank (blank_openClause (h₂.blank
      (blank_openBlock hd (some (d.nextId + 1)) Nat.one_lt_two) (by rw [current_openBlock]; omega)
      d.nextId) d.handlers.length x (some (d.nextId + 1)) d.handler)
      (by rw [current_openClause, nextId_flowTo]; omega) d.nextId
    rw [point_openBlock hd, nextId_openBlock, handler_openBlock] at hlb
    rw [point_openClause, nextId_openClause, nextId_flowTo, handler_openClause] at hlc
    rw [point_closeCleaned hbl, handler_closeCleaned] at hl
    have hentry := hfcl.covered_blank h₄ (.inl (current_openClause ..).symm) (blank_clauseEntry ..)
    simp only [around, Option.isSome_some, if_true, handlers_flowTo] at hlc hentry
    rw [nextId_flowTo] at hentry
    obtain ⟨hgl, hguard⟩ := guard_clause h₂ h₄
    obtain ⟨hkl, haround⟩ := guard_around h₂ h₄
    have hgk := (guard_openBlock h₂).1
    refine .both (g := d.handlers.length) (k := d₁.handlers.length) hfc ⟨hd.outer, ?_⟩ ?_ ⟨?_, ?_⟩
      ?_ (hf.isCleanup hblc hg) ?_ ?_ hlb (hinb.ends hf h₁ hg hr hφ) hentry hlc
      (hinc.ends hf h₃ hg hr hφ) ⟨hge, hlr, hroute⟩ (hf.routed (by omega) hg) hl
    · rw [hf.handler hg (Nat.le_refl _) (by rwa [handlers_closeCleaned]), handlers_closeCleaned,
        hguard]
      rfl
    · intro y hy
      refine hf.caught y (hg.caught y ?_)
      rw [caught_closeCleaned]
      exact h₄.caught y (caught_openClause _ _ _ _ _ y hy)
    · exact fun i hi => Nat.lt_trans (hd.outer i hi) hgk
    · rw [hf.handler hg (Nat.le_of_lt hgk) (by rwa [handlers_closeCleaned]), handlers_closeCleaned,
        haround]
      rfl
    · exact hf.covered_blank hg (.inr (Nat.le_refl _)) (blank_closeCleaned hbl)
    · refine hf.ends_openBlock hd (k := 2) (c := some (d.nextId + 1)) ?_ ?_ (Nat.le_refl _) hg
      · rw [getElem?_closeCleaned_of_lt hd.lt (by omega), h₄.states_clause d.nextId
          (by rw [nextId_flowTo]; exact Nat.lt_trans hd.lt (by omega)), h₂.entry_kept hd]
      · rw [nextId_closeCleaned]
        omega
    · exact hfb.covered_blank h₂ (.inl (current_openBlock ..).symm) (blank_blockEntry hd 2 _)

end Splitting

end Resumable

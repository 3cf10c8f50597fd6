import Resumable.Proofs.Conservation
import Resumable.Proofs.Contents
import Resumable.Proofs.Disposal
import Resumable.Proofs.Routes

namespace Resumable

open List Stmt

variable {t : Terminator} {first k s u : Nat} {e : Expr} {kind : Kind} {st st' : State}
  {loops : List LoopEnds} {p : Pause} {body : Block} {d₁ : Draft} {x : StateId}

mutual

/-- How often an expression asks for what an await brought, lambdas included. -/
def Expr.resumes : Expr → Nat
  | .resume _ => 1
  | .binary _ _ l r => l.resumes + r.resumes
  | .unary _ _ e | .await _ e => e.resumes
  | .call _ c es => c.resumes + Expr.resumesIn es
  | .lambda _ _ b => Stmt.resumesIn b
  | .unit _ | .bool .. | .int .. | .str .. | .var .. | .captured .. => 0

def Expr.resumesIn : List Expr → Nat
  | [] => 0
  | e :: es => e.resumes + Expr.resumesIn es

def Stmt.resumes : Stmt → Nat
  | .bind _ _ e | .assign _ _ e | .store _ _ e | .eval _ e | .throw _ e | .yield _ e
  | .ret _ (some e) => e.resumes
  | .cond _ t a b => t.resumes + Stmt.resumesIn a + Stmt.resumesIn b
  | .loop _ t b => t.resumes + Stmt.resumesIn b
  | .attempt _ b c f => Stmt.resumesIn b + Stmt.clauseResumes c + Stmt.cleanupResumes f
  | .block _ b => Stmt.resumesIn b
  | .ret _ none | .yieldBreak _ | .brk _ | .cont _ => 0

def Stmt.clauseResumes : Option Catch → Nat
  | none => 0
  | some (.mk _ b) => Stmt.resumesIn b

def Stmt.cleanupResumes : Option (List Stmt) → Nat
  | none => 0
  | some b => Stmt.resumesIn b

def Stmt.resumesIn : List Stmt → Nat
  | [] => 0
  | s :: ss => s.resumes + Stmt.resumesIn ss

end

def Terminator.resumes (t : Terminator) : Nat :=
  t.expr?.elim 0 Expr.resumes

def State.resumes (st : State) : Nat :=
  Stmt.resumesIn st.body + st.exit.resumes

theorem Stmt.resumesIn_append (ss ts : Block) :
    Stmt.resumesIn (ss ++ ts) = Stmt.resumesIn ss + Stmt.resumesIn ts := by
  induction ss with
  | nil => simp [resumesIn]
  | cons s ss ih =>
    simp only [cons_append, resumesIn, ih]
    omega

theorem Terminator.mem_successors_of_mem_exits (h : x ∈ t.exits) : x ∈ t.successors := by
  cases t with
  | enter f y =>
    cases mem_singleton.mp h
    exact mem_cons_of_mem _ (mem_singleton_self _)
  | _ => exact h

/-- After a redirection, control goes where it went before or where an exit is sent. -/
theorem Terminator.mem_successors_mapExits {f : StateId → StateId} {s : StateId}
    (h : s ∈ (t.mapExits f).successors) : s ∈ t.successors ∨ ∃ x ∈ t.exits, s = f x := by
  cases t with
  | enter c y =>
    simp only [mapExits, successors, mem_cons, not_mem_nil, or_false] at h
    rcases h with rfl | rfl
    · exact .inl (mem_cons_self ..)
    · exact .inr ⟨y, mem_singleton_self _, rfl⟩
  | ret v y =>
    obtain ⟨x, hx, rfl⟩ := Option.map_eq_some_iff.mp (Option.mem_toList.mp h)
    exact .inr ⟨x, Option.mem_toList.mpr hx, rfl⟩
  | goto y | suspend p y =>
    exact .inr ⟨y, mem_singleton_self _, mem_singleton.mp h⟩
  | branch e y n =>
    simp only [mapExits, successors, mem_cons, not_mem_nil, or_false] at h
    rcases h with rfl | rfl
    · exact .inr ⟨y, mem_cons_self .., rfl⟩
    · exact .inr ⟨n, mem_cons_of_mem _ (mem_singleton_self _), rfl⟩
  | endCleanup | complete | unreachable => cases h

theorem Terminator.ne_suspend (h : t.pause? = none) (p : Pause) (s : StateId) :
    t ≠ .suspend p s := by
  rintro rfl
  cases h

/-- Where a handler leads. -/
def Handler.targets (h : Handler) : List StateId :=
  h.clause.toList.map (·.entry) ++ h.cleanup.toList

namespace Reception

/-- The state `u` awaits something, and goes on in `s` when it has come. -/
def AwaitedBy (states : List State) (u s : Nat) : Prop :=
  ∃ st e, states[u]? = some st ∧ st.exit = .suspend (.await e) s

/-- Control can go from `u` to `s`. -/
def Edge (states : List State) (u s : Nat) : Prop :=
  ∃ st, states[u]? = some st ∧ s ∈ st.exit.successors

/-- A state of the table where no await goes on. -/
def Free (states : List State) (s : Nat) : Prop :=
  s < states.length ∧ ∀ u, ¬ AwaitedBy states u s

/-- The outcome of an await is received by the state after it, which control comes to from nowhere
else. The state `due`, if there is one, has yet to get the statement or test that does it. -/
structure Delivers (states : List State) (handlers : List Handler) (due : Option Nat) : Prop where
  known : ∀ u s, Edge states u s → s < states.length
  sole : ∀ u v s, AwaitedBy states u s → Edge states v s → v = u
  handled : ∀ h ∈ handlers, ∀ s ∈ h.targets, Free states s
  onward : ∀ (u : Nat) (st : State) p s, states[u]? = some st → st.exit = .suspend p s → u < s
  quiet : ∀ (s : Nat) st, states[s]? = some st → Free states s → st.resumes = 0
  once : ∀ u s st, AwaitedBy states u s → due ≠ some s → states[s]? = some st →
    st.resumes = 1 ∧ st.receives = true
  owed : ∀ s ∈ due, (∃ u, AwaitedBy states u s) ∧
    ∃ st, states[s]? = some st ∧ st.body = [] ∧ st.exit = .unreachable

variable {states states' : List State} {handlers handlers' : List Handler} {due : Option Nat}

theorem AwaitedBy.edge (h : AwaitedBy states u s) : Edge states u s := by
  obtain ⟨st, e, hst, hx⟩ := h
  exact ⟨st, hst, by simp [hx, Terminator.successors]⟩

theorem not_awaitedBy_of_le (h : Delivers states handlers due) (hs : states.length ≤ s) (u : Nat) :
    ¬ AwaitedBy states u s :=
  fun ha => Nat.not_lt_of_le hs (h.known u s ha.edge)

/-- A table with the same awaits, in which the new edges and handlers lead to states without one.
What each state receives stays the same, but that the state `due` gets what it has to. -/
theorem Delivers.of_edges (h : Delivers states handlers due)
    (hle : states.length ≤ states'.length)
    (hawaits : ∀ u s, AwaitedBy states' u s ↔ AwaitedBy states u s)
    (hedge : ∀ v s, Edge states' v s → Edge states v s ∨
      s < states'.length ∧ ∀ u, ¬ AwaitedBy states u s)
    (hhandled : ∀ h ∈ handlers', ∀ s ∈ h.targets,
      s < states'.length ∧ ∀ u, ¬ AwaitedBy states u s)
    (honward : ∀ (u : Nat) (st : State) p s, states'[u]? = some st → st.exit = .suspend p s → u < s)
    (hold : ∀ (s : Nat) (st' : State), s < states.length → states'[s]? = some st' → due ≠ some s →
      ∃ st, states[s]? = some st ∧ st'.resumes = st.resumes ∧
        (st.receives = true → st'.receives = true))
    (hnew : ∀ (s : Nat) (st' : State), states.length ≤ s → states'[s]? = some st' → st'.resumes = 0)
    (hdue : ∀ s ∈ due, ∀ st', states'[s]? = some st' → st'.resumes = 1 ∧ st'.receives = true) :
    Delivers states' handlers' none := by
  refine ⟨?_, ?_, ?_, honward, ?_, ?_, nofun⟩
  · intro u s hl
    rcases hedge u s hl with hl | hl
    · exact Nat.lt_of_lt_of_le (h.known u s hl) hle
    · exact hl.1
  · intro u v s ha hl
    have ha := (hawaits u s).mp ha
    rcases hedge v s hl with hl | hl
    · exact h.sole u v s ha hl
    · exact absurd ha (hl.2 u)
  · intro g hg s hs
    obtain ⟨hlt, hfree⟩ := hhandled g hg s hs
    exact ⟨hlt, fun u ha => hfree u ((hawaits u s).mp ha)⟩
  · intro s st' hst' hs
    have hs' : ∀ u, ¬ AwaitedBy states u s := fun u ha => hs.2 u ((hawaits u s).mpr ha)
    rcases Nat.lt_or_ge s states.length with hlt | hge
    · have hnd : due ≠ some s := by
        intro hd
        obtain ⟨⟨u, ha⟩, -⟩ := h.owed s hd
        exact hs' u ha
      obtain ⟨st, hst, he, -⟩ := hold s st' hlt hst' hnd
      rw [he, h.quiet s st hst ⟨hlt, hs'⟩]
    · exact hnew s st' hge hst'
  · intro u s st' ha _ hst'
    have ha := (hawaits u s).mp ha
    by_cases hd : due = some s
    · exact hdue s hd st' hst'
    · obtain ⟨st, hst, he, hr⟩ := hold s st' (h.known u s ha.edge) hst' hd
      obtain ⟨hone, hrec⟩ := h.once u s st ha hd hst
      exact ⟨he.trans hone, hr hrec⟩

/-- A state with statements keeps its first when it gets another or a terminator. -/
theorem receives_grow (hopen : st.exit = .unreachable) (hbody : st.body <+: st'.body)
    (h : st.receives = true) : st'.receives = true := by
  obtain ⟨ss, hss⟩ := hbody
  unfold State.receives at h ⊢
  rw [← hss]
  cases hb : st.body with
  | nil =>
    rw [hb, hopen] at h
    cases h
  | cons s rest =>
    rw [hb] at h
    exact h

/-- All that is awaited in the second table is received, and no await goes on in a state that was
free in the first. -/
structure Hands (states states' : List State) (handlers' : List Handler) : Prop where
  delivers : Delivers states' handlers' none
  free : ∀ s, Free states s → Free states' s

theorem Hands.trans {a b c : List State} {hb hc : List Handler} (h : Hands a b hb)
    (h' : Hands b c hc) : Hands a c hc :=
  ⟨h'.delivers, fun s hs => h'.free s (h.free s hs)⟩

/-- A free state of a table, or one of the `k` states after it. -/
def Lies (states : List State) (k s : Nat) : Prop :=
  Free states s ∨ states.length ≤ s ∧ s < states.length + k

theorem Lies.not_awaitedBy (hs : Lies states k s) (h : Delivers states handlers due) :
    s < states.length + k ∧ ∀ u, ¬ AwaitedBy states u s := by
  rcases hs with hs | hs
  · exact ⟨Nat.lt_add_right k hs.1, hs.2⟩
  · exact ⟨hs.2, not_awaitedBy_of_le h hs.1⟩

/-- The open state `c` is changed, and `k` blank states are added. -/
theorem Delivers.change (h : Delivers states handlers due) {c : Nat} (hst : states[c]? = some st)
    (hopen : st.exit = .unreachable) (hst' : states'[c]? = some st') (hbody : st.body <+: st'.body)
    (hlen : states'.length = states.length + k)
    (hold : ∀ i : Nat, i < states.length → i ≠ c → states'[i]? = states[i]?)
    (hnew : ∀ (i : Nat) (x : State), states.length ≤ i → i < states.length + k →
      states'[i]? = some x → x.body = [] ∧ x.exit = .unreachable)
    (hhandled : ∀ h ∈ handlers', ∀ s ∈ h.targets, Lies states k s)
    (hsucc : ∀ s ∈ st'.exit.successors, Lies states k s)
    (hawait : ∀ e s, st'.exit ≠ .suspend (.await e) s)
    (honward : ∀ p s, st'.exit = .suspend p s → c < s)
    (hdue : due = none ∧ st'.resumes = st.resumes ∨
      due = some c ∧ st'.resumes = 1 ∧ st'.receives = true) :
    Hands states states' handlers' ∧ ∀ i < k, Free states' (states.length + i) := by
  have hlies : ∀ s, Lies states k s → s < states'.length ∧ ∀ u, ¬ AwaitedBy states u s :=
    fun s hs => hlen ▸ hs.not_awaitedBy h
  have hcases : ∀ (i : Nat) (x : State), states'[i]? = some x → i = c ∧ x = st' ∨
      i ≠ c ∧ states[i]? = some x ∨ states.length ≤ i ∧ x.body = [] ∧ x.exit = .unreachable := by
    intro i x hx
    by_cases hi : i = c
    · subst hi
      exact .inl ⟨rfl, Option.some.inj (hx.symm.trans hst')⟩
    · rcases Nat.lt_or_ge i states.length with hilt | hge
      · exact .inr (.inl ⟨hi, (hold i hilt hi).symm.trans hx⟩)
      · have hilt := (List.getElem?_eq_some_iff.mp hx).1
        exact .inr (.inr ⟨hge, hnew i x hge (hlen ▸ hilt) hx⟩)
  have hback : ∀ u s, AwaitedBy states' u s → AwaitedBy states u s := by
    intro u s ha
    obtain ⟨x, e, hx, he⟩ := ha
    rcases hcases u x hx with ⟨-, rfl⟩ | ⟨-, hx⟩ | ⟨-, -, hu⟩
    · exact absurd he (hawait e s)
    · exact ⟨x, e, hx, he⟩
    · rw [hu] at he
      cases he
  have hdel : Delivers states' handlers' none := by
    refine h.of_edges (hlen ▸ Nat.le_add_right ..) ?_ ?_ ?_ ?_ ?_ ?_ ?_
    · intro u s
      refine ⟨hback u s, fun ha => ?_⟩
      obtain ⟨x, e, hx, he⟩ := ha
      have hu : u ≠ c := by
        rintro rfl
        cases hst.symm.trans hx
        rw [hopen] at he
        cases he
      exact ⟨x, e, (hold u (List.getElem?_eq_some_iff.mp hx).1 hu).trans hx, he⟩
    · intro v s hl
      obtain ⟨x, hx, hs⟩ := hl
      rcases hcases v x hx with ⟨-, rfl⟩ | ⟨-, hx⟩ | ⟨-, -, hu⟩
      · exact .inr (hlies s (hsucc s hs))
      · exact .inl ⟨x, hx, hs⟩
      · rw [hu] at hs
        cases hs
    · exact fun g hg s hs => hlies s (hhandled g hg s hs)
    · intro u x p s hx he
      rcases hcases u x hx with ⟨rfl, rfl⟩ | ⟨-, hx⟩ | ⟨-, -, hu⟩
      · exact honward p s he
      · exact h.onward u x p s hx he
      · rw [hu] at he
        cases he
    · intro s x hs hx hnd
      rcases hcases s x hx with ⟨rfl, rfl⟩ | ⟨-, hx⟩ | ⟨hge, -⟩
      · rcases hdue with ⟨-, hsame⟩ | ⟨hd, -⟩
        · exact ⟨st, hst, hsame, receives_grow hopen hbody⟩
        · exact absurd hd hnd
      · exact ⟨x, hx, rfl, id⟩
      · exact absurd hs (Nat.not_lt_of_le hge)
    · intro s x hs hx
      rcases hcases s x hx with ⟨rfl, -⟩ | ⟨-, hx⟩ | ⟨-, hb, hu⟩
      · exact absurd (List.getElem?_eq_some_iff.mp hst).1 (Nat.not_lt_of_le hs)
      · exact absurd (List.getElem?_eq_some_iff.mp hx).1 (Nat.not_lt_of_le hs)
      · rw [State.resumes, hb, hu]
        rfl
    · intro s hs x hx
      rcases hdue with ⟨hd, -⟩ | ⟨hd, hone⟩
      · rw [hd] at hs
        cases hs
      · cases hs.symm.trans hd
        cases hx.symm.trans hst'
        exact hone
  have hfree : ∀ s, Lies states k s → Free states' s :=
    fun s hs => ⟨(hlies s hs).1, fun u ha => (hlies s hs).2 u (hback u s ha)⟩
  exact ⟨⟨hdel, fun s hs => hfree s (.inl hs)⟩,
    fun i hi => hfree _ (.inr ⟨Nat.le_add_right .., Nat.add_lt_add_left hi _⟩)⟩

end Reception

namespace Splitting

open Draft Reception

variable {states : List State} {d : Draft} {due : Option Nat}

theorem hands_push (h : Delivers d.states d.handlers due) (hd : d.Ready) {s : Stmt}
    (hs : due = none ∧ s.resumes = 0 ∨ due = some d.current ∧ s.resumes = 1 ∧ s.receives = true) :
    Hands d.states (d.push s).states d.handlers := by
  obtain ⟨st, hst, hopen, -⟩ := hd.open_
  have hat : (d.push s).states[d.current]? = some { st with body := st.body ++ [s] } := by
    rw [getElem?_push, if_pos rfl, hst]
    rfl
  have hcount : ({ st with body := st.body ++ [s] } : State).resumes = st.resumes + s.resumes := by
    simp only [State.resumes, resumesIn_append, resumesIn]
    omega
  refine (h.change (k := 0) hst hopen hat (prefix_append ..) (nextId_push d s) ?_ ?_ ?_
    (by simp [hopen, Terminator.successors]) (by simp [hopen]) (by simp [hopen]) ?_).1
  · intro i _ hi
    exact (getElem?_push d s i).trans (if_neg (Ne.symm hi))
  · intro i x hge hlt
    exact absurd hlt (Nat.not_lt_of_le hge)
  · exact fun g hg x hx => .inl (h.handled g hg x hx)
  · rcases hs with ⟨hnone, hs⟩ | ⟨hsome, hs, hrec⟩
    · exact .inl ⟨hnone, by rw [hcount, hs, Nat.add_zero]⟩
    · obtain ⟨-, st', hst', hb, -⟩ := h.owed d.current hsome
      cases hst.symm.trans hst'
      refine .inr ⟨hsome, ?_, ?_⟩
      · simp [hs, State.resumes, hb, hopen, resumesIn, Terminator.resumes,
          Terminator.expr?]
      · simpa [State.receives, hb] using hrec

/-- The open state is left for new ones, or for states where no await goes on. -/
theorem hands_moveOn (h : Delivers d.states d.handlers due) (hd : d.Ready) (k : Nat)
    (hsucc : ∀ s ∈ t.successors, Lies d.states k s) (hawait : ∀ e s, t ≠ .suspend (.await e) s)
    (honward : ∀ p s, t = .suspend p s → d.nextId ≤ s)
    (hdue : due = none ∧ t.resumes = 0 ∨ due = some d.current ∧ ∃ m, t.expr? = some (.resume m)) :
    Hands d.states (d.moveOn k t).states d.handlers ∧
      ∀ i < k, Free (d.moveOn k t).states (d.nextId + i) := by
  obtain ⟨st, hst, hopen, -⟩ := hd.open_
  have hat : (d.moveOn k t).states[d.current]? = some { st with exit := t } := by
    rw [getElem?_moveOn d k t _ hd.lt, if_pos rfl, hst]
    rfl
  refine h.change hst hopen hat (prefix_refl _) (nextId_moveOn d k t) ?_ ?_ ?_ hsucc hawait
    ?_ ?_
  · intro i hlt hi
    rw [getElem?_moveOn d k t _ hd.lt, if_neg hi, if_neg fun hge => Nat.not_lt_of_le hge.1 hlt]
  · intro i x hge hlt hx
    rw [getElem?_moveOn d k t _ hd.lt, if_neg (Nat.ne_of_gt (Nat.lt_of_lt_of_le hd.lt hge)),
      if_pos ⟨hge, hlt⟩] at hx
    cases hx
    exact ⟨rfl, rfl⟩
  · exact fun g hg s hs => .inl (h.handled g hg s hs)
  · exact fun p s hp => Nat.lt_of_lt_of_le hd.lt (honward p s hp)
  · rcases hdue with ⟨hnone, ht⟩ | ⟨hsome, m, ht⟩
    · refine .inl ⟨hnone, ?_⟩
      simp only [State.resumes, ht, hopen]
      rfl
    · obtain ⟨-, st', hst', hb, -⟩ := h.owed d.current hsome
      cases hst.symm.trans hst'
      refine .inr ⟨hsome, ?_, ?_⟩
      · simp [State.resumes, hb, resumesIn, Terminator.resumes, ht, Expr.resumes]
      · simp [State.receives, hb, ht, Expr.isResume]

theorem states_moveOn_zero (d : Draft) (t : Terminator) :
    (d.moveOn 0 t).states = (d.close t).states := by
  simp [moveOn, extend, close, setExit, switchTo]

theorem hands_flowTo (h : Delivers d.states d.handlers none) (hd : d.Ready) (hx : Free d.states x) :
    Hands d.states (d.flowTo x).states (d.flowTo x).handlers := by
  rw [handlers_flowTo, hd.flowTo, ← states_moveOn_zero]
  refine (hands_moveOn (t := .goto x) h hd 0 ?_ nofun nofun (.inl ⟨rfl, rfl⟩)).1
  intro s hs
  cases mem_singleton.mp hs
  exact .inl hx

/-- A guarded block is entered; its cleanup, if it has one, is one of the states outside of it. -/
theorem hands_openBlock (h : Delivers d.states d.handlers none) (hd : d.Ready) (k : Nat)
    (cleanup : Option StateId) (hc : ∀ s ∈ cleanup, Lies d.states k s) :
    Hands d.states (openBlock k cleanup d).states (openBlock k cleanup d).handlers ∧
      ∀ i < k, Free (openBlock k cleanup d).states (d.nextId + i) := by
  obtain ⟨st, hst, hopen, -⟩ := hd.open_
  have hat : (openBlock k cleanup d).states[d.current]? =
      some { st with exit := .goto (d.nextId + k) } := by
    rw [getElem?_openBlock d k cleanup _ hd.lt, if_pos rfl, hst]
    rfl
  have hmono : ∀ s, Lies d.states k s → Lies d.states (k + 1) s :=
    fun s hs => hs.imp_right fun hs => ⟨hs.1, Nat.lt_succ_of_lt hs.2⟩
  suffices hchange :
      Hands d.states (openBlock k cleanup d).states (openBlock k cleanup d).handlers ∧
      ∀ i < k + 1, Free (openBlock k cleanup d).states (d.nextId + i) from
    ⟨hchange.1, fun i hi => hchange.2 i (Nat.lt_succ_of_lt hi)⟩
  refine h.change hst hopen hat (prefix_refl _) (nextId_openBlock k cleanup d) ?_ ?_ ?_ ?_
    nofun nofun (.inl ⟨rfl, ?_⟩)
  · intro i hlt hi
    have hlt : i < d.nextId := hlt
    rw [getElem?_openBlock d k cleanup _ hd.lt, if_neg hi, if_neg (by omega), if_neg (by omega)]
  · intro i x hge hlt hx
    have hge : d.nextId ≤ i := hge
    have hlt : i < d.nextId + (k + 1) := hlt
    rw [getElem?_openBlock d k cleanup _ hd.lt,
      if_neg (Nat.ne_of_gt (Nat.lt_of_lt_of_le hd.lt hge))] at hx
    by_cases hk : i < d.nextId + k
    · rw [if_pos ⟨hge, hk⟩] at hx
      cases hx
      exact ⟨rfl, rfl⟩
    · rw [if_neg (by omega), if_pos (by omega)] at hx
      cases hx
      exact ⟨rfl, rfl⟩
  · intro g hg s hs
    rw [handlers_openBlock] at hg
    rcases mem_append.mp hg with hg | hg
    · exact .inl (h.handled g hg s hs)
    · cases mem_singleton.mp hg
      apply hmono s
      apply hc s
      simpa [Handler.targets] using hs
  · intro s hs
    cases mem_singleton.mp hs
    exact .inr ⟨Nat.le_add_right .., Nat.lt_succ_self _⟩
  · simp only [State.resumes, hopen]
    rfl

theorem lies_clauseHandlers (h : ∀ g ∈ d.handlers, ∀ s ∈ g.targets, Free states s)
    (hn : states.length = d.nextId) {cleanup : Option StateId}
    (hc : ∀ s ∈ cleanup, Free states s) (g : HandlerId) (x : Option String)
    (outer : Option HandlerId) :
    ∀ f ∈ clauseHandlers g x cleanup outer d, ∀ s ∈ f.targets, Lies states 1 s := by
  intro f hf s hs
  obtain ⟨i, hi⟩ := mem_iff_getElem?.mp hf
  rw [clauseHandlers, getElem?_modify] at hi
  obtain ⟨old, hold, rfl⟩ := Option.map_eq_some_iff.mp hi
  have hfree : ∀ y ∈ old.targets, Free states y := by
    intro y hy
    rcases mem_append.mp (mem_of_getElem? hold) with hmem | hmem
    · exact h old hmem y hy
    · obtain ⟨c, hcm, rfl⟩ := mem_map.mp hmem
      obtain rfl : y = c := by simpa [Handler.targets] using hy
      exact hc y (Option.mem_toList.mp hcm)
  split at hs
  · rcases mem_append.mp hs with hs | hs
    · cases mem_singleton.mp hs
      exact .inr ⟨Nat.le_of_eq hn, hn ▸ Nat.lt_succ_self _⟩
    · exact .inl (hfree s (mem_append_right _ hs))
  · exact .inl (hfree s hs)

section

variable (h : Delivers d.states d.handlers none)
include h

/-- A block is over, and the clause that takes its faults begins. -/
theorem hands_openClause (hd : d.Ready) {after : StateId}
    (ha : Free d.states after) (cleanup : Option StateId) (hc : ∀ s ∈ cleanup, Free d.states s)
    (g : HandlerId) (x : Option String) (outer : Option HandlerId) :
    Hands d.states (openClause g x cleanup outer (d.flowTo after)).states
      (openClause g x cleanup outer (d.flowTo after)).handlers := by
  obtain ⟨st, hst, hopen, -⟩ := hd.open_
  rw [openClause_eq]
  have hget : ∀ i : Nat,
      ((d.flowTo after).createIn (around cleanup outer (d.flowTo after))).2.states[i]? =
        if i = d.states.length
          then some { id := d.nextId, handler := around cleanup outer (d.flowTo after) }
        else if i = d.current then d.states[i]?.map fun st => { st with exit := .goto after }
        else d.states[i]? := by
    intro i
    rw [getElem?_createIn, getElem?_flowTo hd, nextId_flowTo]
    rfl
  have hat : ((d.flowTo after).createIn
      (around cleanup outer (d.flowTo after))).2.states[d.current]? =
        some { st with exit := .goto after } := by
    have hlt : d.current < d.states.length := hd.lt
    rw [hget, if_neg (Nat.ne_of_lt hlt), if_pos rfl, hst]
    rfl
  refine (h.change (k := 1) hst hopen hat (prefix_refl _) ?_ ?_ ?_ ?_ ?_ nofun nofun
    (.inl ⟨rfl, ?_⟩)).1
  · exact (nextId_createIn ..).trans (congrArg (· + 1) (nextId_flowTo d after))
  · intro i hlt hi
    rw [hget, if_neg (Nat.ne_of_lt hlt), if_neg hi]
  · intro i y hge hlt hy
    rw [hget, if_pos (Nat.le_antisymm (Nat.le_of_lt_succ hlt) hge)] at hy
    cases hy
    exact ⟨rfl, rfl⟩
  · exact lies_clauseHandlers (handlers_flowTo d after ▸ h.handled) (nextId_flowTo d after).symm hc
      g x outer
  · intro s hs
    cases mem_singleton.mp hs
    exact .inl ha
  · simp only [State.resumes, hopen]
    rfl

/-- An exit is sent through a cleanup only if no await goes on at its end. -/
theorem free_of_mem_outsideExits {x : Nat}
    (hx : x ∈ d.outsideExits first d.nextId) : Free d.states x := by
  obtain ⟨hout, v, st, hf, -, hst, hx⟩ := mem_outsideExits.mp hx
  have hedge : Edge d.states v x := ⟨st, hst, Terminator.mem_successors_of_mem_exits hx⟩
  have hlt : x < d.nextId := h.known v x hedge
  refine ⟨hlt, fun u ha => hout ⟨?_, hlt⟩⟩
  obtain rfl := h.sole u v x ha hedge
  obtain ⟨st', e, hst', he⟩ := ha
  exact Nat.le_trans hf (Nat.le_of_lt (h.onward v st' _ x hst' he))

/-- A pause inside a stretch goes on inside of it. -/
theorem redirect_onward {r : Nat} (hu : first ≤ u)
    (hst : d.states[u]? = some st) (hx : st.exit = .suspend p r) :
    d.redirect first d.nextId r = r := by
  apply redirect_inside
  · exact Nat.le_trans hu (Nat.le_of_lt (h.onward u st p r hst hx))
  · exact h.known u r ⟨st, hst, by simp [hx, Terminator.successors]⟩

/-- The exits of a stretch of states are sent through a cleanup. -/
theorem hands_route (first : Nat) {cleanup : StateId}
    (hc : Free d.states cleanup) :
    Hands d.states (d.route first d.nextId cleanup).states d.handlers := by
  have hle : d.states.length ≤ (d.route first d.nextId cleanup).states.length :=
    nextId_le_route ..
  -- A state of the new table is an old one, perhaps with other exits, or a route.
  have hcases : ∀ (i : Nat) (x : State), (d.route first d.nextId cleanup).states[i]? = some x →
      (∃ st, d.states[i]? = some st ∧ (x = st ∨ first ≤ i ∧
        x = { st with exit := st.exit.mapExits (d.redirect first d.nextId) })) ∨
      d.nextId ≤ i ∧ ∃ y, y ∈ d.outsideExits first d.nextId ∧
        x = { id := i, exit := .enter cleanup y, handler := d.handler } := by
    intro i x hx
    rw [getElem?_route] at hx
    split at hx
    · split at hx
      · next hin =>
        obtain ⟨st, hst, rfl⟩ := Option.map_eq_some_iff.mp hx
        exact .inl ⟨st, hst, .inr ⟨hin.1, rfl⟩⟩
      · exact .inl ⟨x, hx, .inl rfl⟩
    · next hge =>
      obtain ⟨y, hy, rfl⟩ := Option.map_eq_some_iff.mp hx
      exact .inr ⟨Nat.le_of_not_lt hge, y, mem_of_getElem? hy, rfl⟩
  have hsuspend : ∀ (u : Nat) (x : State) p r,
      (d.route first d.nextId cleanup).states[u]? = some x → x.exit = .suspend p r →
        ∃ st, d.states[u]? = some st ∧ st.exit = .suspend p r := by
    intro u x p r hx he
    rcases hcases u x hx with ⟨st, hst, rfl | ⟨hu, rfl⟩⟩ | ⟨-, y, -, rfl⟩
    · exact ⟨x, hst, he⟩
    · refine ⟨st, hst, ?_⟩
      cases hexit : st.exit with
      | suspend p' r' =>
        rw [hexit] at he
        simp only [Terminator.mapExits, redirect_onward h hu hst hexit] at he
        exact he
      | _ =>
        rw [hexit] at he
        cases he
    · cases he
  have hback : ∀ u s, AwaitedBy (d.route first d.nextId cleanup).states u s →
      AwaitedBy d.states u s := by
    intro u s ha
    obtain ⟨x, e, hx, he⟩ := ha
    obtain ⟨st, hst, he⟩ := hsuspend u x _ s hx he
    exact ⟨st, e, hst, he⟩
  refine ⟨h.of_edges hle ?_ ?_ ?_ ?_ ?_ ?_ (by rintro _ ⟨⟩),
    fun s hs => ⟨Nat.lt_of_lt_of_le hs.1 hle, fun u ha => hs.2 u (hback u s ha)⟩⟩
  · intro u s
    refine ⟨hback u s, fun ha => ?_⟩
    obtain ⟨st, e, hst, he⟩ := ha
    have hlt : u < d.nextId := (List.getElem?_eq_some_iff.mp hst).1
    by_cases hu : first ≤ u
    · refine ⟨{ st with exit := st.exit.mapExits (d.redirect first d.nextId) }, e, ?_, ?_⟩
      · rw [getElem?_route, if_pos hlt, if_pos ⟨hu, hlt⟩, hst]
        rfl
      · simp only [he, Terminator.mapExits, redirect_onward h hu hst he]
    · refine ⟨st, e, ?_, he⟩
      rw [getElem?_route, if_pos hlt, if_neg fun hin => hu hin.1, hst]
  · intro v s hs
    obtain ⟨x, hx, hs⟩ := hs
    have hvlt := (List.getElem?_eq_some_iff.mp hx).1
    rcases hcases v x hx with ⟨st, hst, rfl | ⟨hv, rfl⟩⟩ | ⟨-, y, hy, rfl⟩
    · exact .inl ⟨x, hst, hs⟩
    · rcases Terminator.mem_successors_mapExits hs with hs | ⟨y, hy, rfl⟩
      · exact .inl ⟨st, hst, hs⟩
      · by_cases hout : y ∈ d.outsideExits first d.nextId
        · obtain ⟨j, hj, he⟩ := redirect_of_mem hout
          refine .inr ⟨?_, ?_⟩
          · have hlt := (List.getElem?_eq_some_iff.mp hj).1
            rw [he, states_route, length_append, length_mapIdx, length_mapIdx]
            exact Nat.add_lt_add_left hlt _
          · exact not_awaitedBy_of_le h (he ▸ Nat.le_add_right ..)
        · rw [redirect_of_not_mem hout]
          exact .inl ⟨st, hst, Terminator.mem_successors_of_mem_exits hy⟩
    · refine .inr ?_
      simp only [Terminator.successors, mem_cons, not_mem_nil, or_false] at hs
      have hfree : Free d.states s := by
        rcases hs with rfl | rfl
        · exact hc
        · exact free_of_mem_outsideExits h hy
      exact ⟨Nat.lt_of_lt_of_le hfree.1 hle, hfree.2⟩
  · intro g hg s hs
    obtain ⟨hlt, hfree⟩ := h.handled g hg s hs
    exact ⟨Nat.lt_of_lt_of_le hlt hle, hfree⟩
  · intro u x p s hx he
    obtain ⟨st, hst, he⟩ := hsuspend u x p s hx he
    exact h.onward u st p s hst he
  · intro s x hs hx _
    rcases hcases s x hx with ⟨st, hst, rfl | ⟨-, rfl⟩⟩ | ⟨hge, -⟩
    · exact ⟨x, hst, rfl, id⟩
    · refine ⟨st, hst, ?_, ?_⟩
      · simp only [State.resumes, Terminator.resumes, expr?_mapExits]
      · intro hr
        simpa only [State.receives, expr?_mapExits] using hr
    · exact absurd hs (Nat.not_lt_of_le hge)
  · intro s x hs hx
    rcases hcases s x hx with ⟨st, hst, -⟩ | ⟨-, y, -, rfl⟩
    · exact absurd (List.getElem?_eq_some_iff.mp hst).1 (Nat.not_lt_of_le hs)
    · rfl

end

/-- The cleanup of a guarded block is filled in, and the exits of the block are sent through it. -/
theorem hands_closeCleaned {e : Draft} (h : Delivers e.states e.handlers none)
    {o : Option HandlerId} (hb : e.Blank (d.nextId + 1) o) (hfree : Free e.states (d.nextId + 1))
    {cleanup : Block} (hs : Stmt.resumesIn cleanup = 0) :
    Hands e.states (closeCleaned d cleanup e).states (closeCleaned d cleanup e).handlers := by
  obtain ⟨st, hst, -, hopen, -⟩ := hb
  have hhandlers : (fillState d cleanup e).handlers = e.handlers := by
    rw [fillState, foldl_push_eq]
    rfl
  have hat : (fillState d cleanup e).states[d.nextId + 1]? =
      some { st with body := st.body ++ cleanup, exit := .endCleanup } := by
    rw [getElem?_fillState, if_pos rfl, hst]
    rfl
  have hfill : Hands e.states (fillState d cleanup e).states (fillState d cleanup e).handlers := by
    refine (h.change (k := 0) hst hopen hat (prefix_append ..) (nextId_fillState d cleanup e)
      ?_ ?_ ?_ (by rintro _ ⟨⟩) (by rintro _ _ ⟨⟩) (by rintro _ _ ⟨⟩) (.inl ⟨rfl, ?_⟩)).1
    · intro i _ hi
      rw [getElem?_fillState, if_neg hi]
    · intro i x hge hlt
      exact absurd hlt (Nat.not_lt_of_le hge)
    · rw [hhandlers]
      exact fun g hg s hx => .inl (h.handled g hg s hx)
    · simp only [State.resumes, resumesIn_append, hs, hopen]
      rfl
  have hroute := hands_route hfill.delivers (d.nextId + 2) (hfill.free _ hfree)
  rw [nextId_fillState] at hroute
  exact ⟨hroute.delivers, fun s hx => hroute.free s (hfill.free s hx)⟩

/-! The pause of an await. -/

theorem getElem?_pause (hd : d.Ready) (p : Pause) (i : Nat) : (d.pause p).states[i]? =
    if i = d.current then d.states[i]?.map fun st => { st with exit := .suspend p d.nextId }
    else if i = d.nextId then some { id := i, handler := d.handler } else d.states[i]? := by
  have hiff : d.nextId ≤ i ∧ i < d.nextId + 1 ↔ i = d.nextId := by omega
  rw [pause_eq, getElem?_moveOn _ _ _ _ hd.lt]
  simp only [hiff]

/-- A state after the pause is the one that was open, the one that is open now, or an old one. -/
theorem pause_cases (hd : d.Ready) (hst : d.states[d.current]? = some st) {i : Nat} {x : State}
    (hx : (d.pause p).states[i]? = some x) :
    i = d.current ∧ x = { st with exit := .suspend p d.nextId } ∨
      i = d.nextId ∧ x.exit = .unreachable ∨ i ≠ d.current ∧ d.states[i]? = some x := by
  rw [getElem?_pause hd] at hx
  split at hx
  · next hi =>
    rw [hi, hst] at hx
    exact .inl ⟨hi, (Option.some.inj hx).symm⟩
  · next hi =>
    split at hx
    · next hn =>
      cases hx
      exact .inr (.inl ⟨hn, rfl⟩)
    · exact .inr (.inr ⟨hi, hx⟩)

theorem edge_pause (hd : d.Ready) (h : Edge (d.pause p).states u s) :
    Edge d.states u s ∨ u = d.current ∧ s = d.nextId := by
  obtain ⟨st, hst, -⟩ := hd.open_
  obtain ⟨x, hx, hs⟩ := h
  rcases pause_cases hd hst hx with ⟨hu, rfl⟩ | ⟨-, hu⟩ | ⟨-, hx⟩
  · exact .inr ⟨hu, mem_singleton.mp hs⟩
  · rw [hu] at hs
    cases hs
  · exact .inl ⟨x, hx, hs⟩

theorem awaitedBy_pause (hd : d.Ready) (e : Expr) (u s : Nat) :
    AwaitedBy (d.pause (.await e)).states u s ↔
      AwaitedBy d.states u s ∨ u = d.current ∧ s = d.nextId := by
  obtain ⟨st, hst, hopen, -⟩ := hd.open_
  constructor
  · intro h
    obtain ⟨x, e', hx, he⟩ := h
    rcases pause_cases hd hst hx with ⟨hu, rfl⟩ | ⟨-, hu⟩ | ⟨-, hx⟩
    · cases he
      exact .inr ⟨hu, rfl⟩
    · rw [hu] at he
      cases he
    · exact .inl ⟨x, e', hx, he⟩
  · intro h
    rcases h with ⟨x, e', hx, he⟩ | ⟨rfl, rfl⟩
    · refine ⟨x, e', ?_, he⟩
      have hu : u ≠ d.current := by
        rintro rfl
        cases hst.symm.trans hx
        rw [hopen] at he
        cases he
      have hlt : u < d.nextId := (List.getElem?_eq_some_iff.mp hx).1
      rw [getElem?_pause hd, if_neg hu, if_neg (Nat.ne_of_lt hlt), hx]
    · refine ⟨{ st with exit := .suspend (.await e) d.nextId }, e, ?_, rfl⟩
      rw [getElem?_pause hd, if_pos rfl, hst]
      rfl

/-- After the pause of an await, the state that is open has yet to receive its outcome. -/
theorem delivers_pause (h : Delivers d.states d.handlers none) (hd : d.Ready) (he : e.resumes = 0) :
    Delivers (d.pause (.await e)).states d.handlers (some d.nextId) ∧
      ∀ s, Free d.states s → Free (d.pause (.await e)).states s := by
  obtain ⟨st, hst, hopen, -⟩ := hd.open_
  have hlen : (d.pause (.await e)).states.length = d.nextId + 1 := by
    rw [pause_eq]
    exact nextId_moveOn ..
  have hfree : ∀ s, Free d.states s → Free (d.pause (.await e)).states s := by
    intro s hs
    refine ⟨hlen ▸ Nat.lt_succ_of_lt hs.1, fun u ha => ?_⟩
    rcases (awaitedBy_pause hd e u s).mp ha with ha | ⟨-, rfl⟩
    · exact hs.2 u ha
    · exact Nat.lt_irrefl _ hs.1
  have hsame : ({ st with exit := .suspend (.await e) d.nextId } : State).resumes = st.resumes := by
    simp [State.resumes, Terminator.resumes, Terminator.expr?, hopen, he]
  refine ⟨⟨?_, ?_, ?_, ?_, ?_, ?_, ?_⟩, hfree⟩
  · intro u s hs
    rcases edge_pause hd hs with hs | ⟨-, rfl⟩
    · exact hlen ▸ Nat.lt_succ_of_lt (h.known u s hs)
    · exact hlen ▸ Nat.lt_succ_self _
  · intro u v s ha hs
    rcases (awaitedBy_pause hd e u s).mp ha with ha | ⟨hu, hs'⟩
    · rcases edge_pause hd hs with hs | ⟨-, hs'⟩
      · exact h.sole u v s ha hs
      · exact absurd (h.known u s ha.edge) (hs' ▸ Nat.lt_irrefl _)
    · rcases edge_pause hd hs with hs | ⟨hv, -⟩
      · exact absurd (h.known v s hs) (hs' ▸ Nat.lt_irrefl _)
      · exact hv.trans hu.symm
  · exact fun g hg s hs => hfree s (h.handled g hg s hs)
  · intro u x p s hx hexit
    rcases pause_cases hd hst hx with ⟨hu, rfl⟩ | ⟨-, hu⟩ | ⟨-, hx⟩
    · cases hexit
      exact hu ▸ hd.lt
    · rw [hu] at hexit
      cases hexit
    · exact h.onward u x p s hx hexit
  · intro s x hx hs
    have hold : ∀ u, ¬ AwaitedBy d.states u s :=
      fun u ha => hs.2 u ((awaitedBy_pause hd e u s).mpr (.inl ha))
    rcases pause_cases hd hst hx with ⟨rfl, rfl⟩ | ⟨rfl, -⟩ | ⟨-, hx⟩
    · rw [hsame, h.quiet _ st hst ⟨hd.lt, hold⟩]
    · exact absurd ((awaitedBy_pause hd e d.current d.nextId).mpr (.inr ⟨rfl, rfl⟩)) (hs.2 _)
    · exact h.quiet s x hx ⟨(List.getElem?_eq_some_iff.mp hx).1, hold⟩
  · intro u s x ha hne hx
    rcases (awaitedBy_pause hd e u s).mp ha with ha | ⟨-, rfl⟩
    · rcases pause_cases hd hst hx with ⟨rfl, rfl⟩ | ⟨rfl, -⟩ | ⟨-, hx⟩
      · obtain ⟨hone, hrec⟩ := h.once u _ st ha (by simp) hst
        exact ⟨hsame.trans hone, receives_grow hopen (prefix_refl _) hrec⟩
      · exact absurd rfl hne
      · exact h.once u s x ha (by simp) hx
    · exact absurd rfl hne
  · intro s hs
    cases hs
    refine ⟨⟨d.current, (awaitedBy_pause hd e _ _).mpr (.inr ⟨rfl, rfl⟩)⟩,
      { id := d.nextId, handler := d.handler }, ?_, rfl, rfl⟩
    rw [getElem?_pause hd, if_neg (Nat.ne_of_gt hd.lt), if_pos rfl]

theorem Receives.hands {s s' : Stmt} (hr : Receives s e s') (hs : s.resumes = 0)
    (h : Delivers d.states d.handlers none) (hd : d.Ready) :
    Hands d.states ((d.pause (.await e)).push s').states d.handlers := by
  have he : e.resumes = 0 := by cases hr <;> exact hs
  have hs' : s'.resumes = 1 ∧ s'.receives = true := by cases hr <;> exact ⟨rfl, rfl⟩
  obtain ⟨hpause, hfree⟩ := delivers_pause h hd he
  have hpush := hands_push hpause (goes_pause hd (.await e)).ready (.inr ⟨rfl, hs'⟩)
  exact ⟨hpush.delivers, fun x hx => hpush.free x (hfree x hx)⟩

/-- The open state is left by what an expression of the source has become. -/
theorem Takes.hands {e' : Expr} (ht : Takes e e' d d₁) (he : e.resumes = 0)
    (h : Delivers d.states d.handlers none) (hd : d.Ready) (k : Nat) (hx : t.expr? = some e')
    (hp : t.pause? = none)
    (hsucc : ∀ s ∈ t.successors, Free d.states s ∨ d₁.nextId ≤ s ∧ s < d₁.nextId + k) :
    Hands d.states (d₁.moveOn k t).states d₁.handlers ∧
      ∀ i < k, Free (d₁.moveOn k t).states (d₁.nextId + i) := by
  have hpause := Terminator.ne_suspend hp
  cases ht with
  | whole _ =>
    exact hands_moveOn h hd k hsucc (fun e => hpause _) (fun p s hs => absurd hs (hpause p s))
      (.inl ⟨rfl, by simp [Terminator.resumes, hx, he]⟩)
  | @await o _ m _ =>
    obtain ⟨hdel, hfree⟩ := delivers_pause (e := o) h hd he
    obtain ⟨hmove, hnew⟩ := hands_moveOn hdel (goes_pause hd _).ready k
      (fun s hs => (hsucc s hs).imp_left (hfree s)) (fun e => hpause _)
      (fun p s hs => absurd hs (hpause p s)) (.inr ⟨rfl, _, hx⟩)
    exact ⟨⟨hmove.delivers, fun s hs => hmove.free s (hfree s hs)⟩, hnew⟩

/-- Where the jumps out of a block lead. -/
def JumpsTo (loops : List LoopEnds) (s : StateId) : Prop :=
  s = returnState ∨ ∃ l ∈ loops, s = l.head ∨ s = l.exit

theorem Leaves.jumpsTo {s : Stmt} (h : Leaves loops s t) : ∀ x ∈ t.successors, JumpsTo loops x := by
  intro x hx
  cases h with
  | yieldBreak | ret =>
    cases mem_singleton.mp hx
    exact .inl rfl
  | brk l loops =>
    cases mem_singleton.mp hx
    exact .inr ⟨l, mem_cons_self .., .inr rfl⟩
  | cont l loops =>
    cases mem_singleton.mp hx
    exact .inr ⟨l, mem_cons_self .., .inl rfl⟩

theorem Leaves.quiet {s : Stmt} (h : Leaves loops s t) : t.pause? = none ∧ t.resumes = 0 := by
  cases h <;> exact ⟨rfl, rfl⟩

/-- A blank open state is free: where an await goes on, its outcome has been received. -/
theorem free_of_isBlank (h : Delivers d.states d.handlers none) (hd : d.Ready)
    (hb : d.isBlank = true) : Free d.states d.current := by
  obtain ⟨st, hst, hopen, -⟩ := hd.open_
  have hbody : st.body = [] := by
    simp only [Draft.isBlank, hst, Option.any_some, Bool.and_eq_true] at hb
    exact isEmpty_iff.mp hb.2
  refine ⟨hd.lt, fun u ha => ?_⟩
  obtain ⟨-, hrec⟩ := h.once u d.current st ha (by rintro ⟨⟩) hst
  rw [State.receives, hbody, hopen] at hrec
  cases hrec

theorem hands_openHead (h : Delivers d.states d.handlers none) (hd : d.Ready) :
    Hands d.states (openHead d).2.states (openHead d).2.handlers ∧
      Free (openHead d).2.states (openHead d).1 := by
  unfold openHead
  split
  · next hb => exact ⟨⟨h, fun s hs => hs⟩, free_of_isBlank h hd hb⟩
  · obtain ⟨hmove, hnew⟩ := hands_moveOn (t := .goto d.nextId) h hd 1 (by
      intro s hs
      cases mem_singleton.mp hs
      exact .inr ⟨Nat.le_refl _, Nat.lt_succ_self _⟩) nofun nofun (.inl ⟨rfl, rfl⟩)
    exact ⟨hmove, hnew 0 Nat.one_pos⟩

/-- A test leads to the first two of the states that are made for it. -/
theorem lies_branch (k : Nat) :
    ∀ s ∈ (Terminator.branch e d₁.nextId (d₁.nextId + 1)).successors,
      Free d.states s ∨ d₁.nextId ≤ s ∧ s < d₁.nextId + (k + 2) := by
  intro s hs
  simp only [Terminator.successors, mem_cons, not_mem_nil, or_false] at hs
  rcases hs with rfl | rfl
  · exact .inr ⟨Nat.le_refl _, Nat.lt_add_of_pos_right (Nat.succ_pos _)⟩
  · exact .inr ⟨Nat.le_add_right .., Nat.add_lt_add_left (by omega) _⟩

/-- The cleanup of a block is the second of the states that are made before it. -/
theorem lies_cleanup (d : Draft) : ∀ s ∈ some (d.nextId + 1), Lies d.states 2 s := by
  intro s hs
  cases hs
  exact .inr ⟨Nat.le_succ _, Nat.lt_succ_self _⟩

/-- Splitting a block of the source keeps awaits and receptions together. -/
theorem Splits.hands {ss : Block} {d d' : Draft} (h : Splits kind loops ss d d') (hd : d.Ready)
    (hs : Stmt.resumesIn ss = 0) (hdel : Delivers d.states d.handlers none)
    (hends : ∀ s, JumpsTo loops s → Free d.states s) : Hands d.states d'.states d'.handlers := by
  induction h with
  | nil => exact ⟨hdel, fun _ hs => hs⟩
  | @flat loops s ss d d' hf rest ih =>
    simp only [resumesIn, Nat.add_eq_zero_iff] at hs
    have h₁ := hands_push hdel hd (.inl ⟨rfl, hs.1⟩)
    exact h₁.trans (ih (goes_push hd s).ready hs.2 h₁.delivers fun x hx => h₁.free x (hends x hx))
  | @receive loops s e s' ss d d' hr he rest ih =>
    simp only [resumesIn, Nat.add_eq_zero_iff] at hs
    have hready := (goes_push (goes_pause hd (.await e)).ready s').ready
    have h₁ := hr.hands hs.1 hdel hd
    exact h₁.trans (ih hready hs.2 h₁.delivers fun x hx => h₁.free x (hends x hx))
  | @yield loops m e ss d d' he rest ih =>
    simp only [resumesIn, Nat.add_eq_zero_iff] at hs
    have h₁ : Hands d.states (d.pause (.yield e)).states d.handlers := by
      rw [pause_eq]
      refine (hands_moveOn (t := .suspend (.yield e) d.nextId) hdel hd 1 ?_ nofun ?_
        (.inl ⟨rfl, hs.1⟩)).1
      · intro x hx
        cases mem_singleton.mp hx
        exact .inr ⟨Nat.le_refl _, Nat.lt_succ_self _⟩
      · rintro p s ⟨⟩
        exact Nat.le_refl _
    exact h₁.trans (ih (goes_pause hd _).ready hs.2 h₁.delivers
      fun x hx => h₁.free x (hends x hx))
  | @leave loops s t ss d d' hl rest ih =>
    simp only [resumesIn, Nat.add_eq_zero_iff] at hs
    have h₁ : Hands d.states (d.leave t).states d.handlers := by
      rw [leave_eq d t hd.lt]
      have hpause := Terminator.ne_suspend hl.quiet.1
      exact (hands_moveOn hdel hd 1 (fun x hx => .inl (hends x (hl.jumpsTo x hx)))
        (fun e => hpause _) (fun p s hp => absurd hp (hpause p s)) (.inl ⟨rfl, hl.quiet.2⟩)).1
    exact h₁.trans (ih (goes_leave hd t).ready hs.2 h₁.delivers
      fun x hx => h₁.free x (hends x hx))
  | @value loops m e e' ss d d₁ d' hk he rest ih =>
    simp only [resumesIn, resumes, Nat.add_eq_zero_iff] at hs
    have hready := (he.goes hd).ready
    have h₁ : Hands d.states (d₁.leave (.ret (some e') (some returnState))).states d₁.handlers := by
      rw [leave_eq _ _ hready.lt]
      refine (he.hands hs.1 hdel hd 1 rfl rfl ?_).1
      intro x hx
      cases mem_singleton.mp hx
      exact .inl (hends _ (.inl rfl))
    exact h₁.trans (ih (goes_leave hready _).ready hs.2 h₁.delivers
      fun x hx => h₁.free x (hends x hx))
  | @when loops m t t' a ss d d₁ d₂ d' hn ht yes rest ihy ih =>
    simp only [resumesIn, resumes, Nat.add_eq_zero_iff] at hs
    have hready := (ht.goes hd).ready
    have hm := hready.moveOn Nat.two_pos (.branch t' d₁.nextId (d₁.nextId + 1))
    obtain ⟨hy, hhy⟩ := yes.goes hm
    have hb := Back.goes_of_moveOn hready hy hhy (d₁.nextId + 1) Nat.one_pos Nat.one_lt_two
    obtain ⟨h₁, hnew⟩ := ht.hands (t := .branch t' d₁.nextId (d₁.nextId + 1)) hs.1.1.1 hdel hd 2
      rfl rfl (lies_branch 0)
    have h₂ := ihy hm hs.1.1.2 h₁.delivers fun x hx => h₁.free x (hends x hx)
    have h₃ := hands_flowTo h₂.delivers hy.ready (h₂.free _ (hnew 1 Nat.one_lt_two))
    have h₄ := (h₁.trans h₂).trans h₃
    exact h₄.trans (ih hb.ready hs.2 h₄.delivers fun x hx => h₄.free x (hends x hx))
  | @either loops m t t' a b ss d d₁ d₂ d₃ d' hn ht yes no rest ihy ihn ih =>
    simp only [resumesIn, resumes, Nat.add_eq_zero_iff] at hs
    have hready := (ht.goes hd).ready
    have hm := hready.moveOn (Nat.succ_pos 2) (.branch t' d₁.nextId (d₁.nextId + 1))
    obtain ⟨hy, hhy⟩ := yes.goes hm
    have hback := Back.of_moveOn hy (d₁.nextId + 2) Nat.one_pos (by omega)
    have hb := Back.goes_of_moveOn hready hy hhy (d₁.nextId + 2) Nat.one_pos (by omega)
    obtain ⟨hno, hhn⟩ := no.goes hb.ready
    have hbl := hback.blank (blank_moveOn hready.lt _ (by omega : 2 < 3))
      (Nat.ne_of_gt (Nat.lt_add_of_pos_right Nat.two_pos))
    have hlast := (Back.switchTo hno (d₁.nextId + 2) hbl.lt (Nat.succ_ne_self _)).goes_from hready
      hb (Nat.le_add_right ..) hbl
      ((handler_flowTo ..).trans (hhn.trans ((handler_flowTo ..).trans hhy)))
    obtain ⟨h₁, hnew⟩ := ht.hands (t := .branch t' d₁.nextId (d₁.nextId + 1)) hs.1.1.1 hdel hd 3
      rfl rfl (lies_branch 1)
    have hmerge := hnew 2 (by omega)
    have h₂ := ihy hm hs.1.1.2 h₁.delivers fun x hx => h₁.free x (hends x hx)
    have h₃ := h₂.trans (hands_flowTo h₂.delivers hy.ready (h₂.free _ hmerge))
    have h₄ := h₃.trans (ihn hb.ready hs.1.2 h₃.delivers
      fun x hx => h₃.free x (h₁.free x (hends x hx)))
    have h₅ := h₁.trans (h₄.trans (hands_flowTo h₄.delivers hno.ready (h₄.free _ hmerge)))
    exact h₅.trans (ih hlast.ready hs.2 h₅.delivers fun x hx => h₅.free x (hends x hx))
  | @loop loops m t t' b ss d d₁ d₂ d' hn ht body rest ihb ih =>
    simp only [resumesIn, resumes, Nat.add_eq_zero_iff] at hs
    have hhead := (goes_openHead hd).ready
    have hready := (ht.goes hhead).ready
    have hm := hready.moveOn Nat.two_pos (.branch t' d₁.nextId (d₁.nextId + 1))
    obtain ⟨hy, hhy⟩ := body.goes hm
    have hb := Back.goes_of_moveOn hready hy hhy (openHead d).1 Nat.one_pos Nat.one_lt_two
    obtain ⟨h₀, hfree⟩ := hands_openHead hdel hd
    obtain ⟨h₁, hnew⟩ := ht.hands (t := .branch t' d₁.nextId (d₁.nextId + 1)) hs.1.1 h₀.delivers
      hhead 2 rfl rfl (lies_branch 0)
    have hjumps : ∀ x, JumpsTo (⟨(openHead d).1, d₁.nextId + 1⟩ :: loops) x →
        Free (d₁.moveOn 2 (.branch t' d₁.nextId (d₁.nextId + 1))).states x := by
      intro x hx
      rcases hx with rfl | ⟨l, hl, hx⟩
      · exact h₁.free _ (h₀.free _ (hends _ (.inl rfl)))
      · rcases mem_cons.mp hl with rfl | hl
        · rcases hx with rfl | rfl
          · exact h₁.free _ hfree
          · exact hnew 1 Nat.one_lt_two
        · exact h₁.free x (h₀.free x (hends x (.inr ⟨l, hl, hx⟩)))
    have h₂ := ihb hm hs.1.2 h₁.delivers hjumps
    have h₃ := h₀.trans (h₁.trans (h₂.trans
      (hands_flowTo h₂.delivers hy.ready (h₂.free _ (h₁.free _ hfree)))))
    exact h₃.trans (ih hb.ready hs.2 h₃.delivers fun x hx => h₃.free x (hends x hx))
  | @group loops s b ss d d₁ d' hn hg body rest ihb ih =>
    simp only [resumesIn, Nat.add_eq_zero_iff] at hs
    have hbody : resumesIn b = 0 := by
      cases hg with
      | block => exact hs.1
      | attempt => simpa [resumes, clauseResumes, cleanupResumes] using hs.1
    have h₁ := ihb hd hbody hdel hends
    exact h₁.trans (ih (body.goes hd).1.ready hs.2 h₁.delivers
      fun x hx => h₁.free x (hends x hx))
  | @caught loops m b x cb ss d d₁ d₂ d' hn body clause rest ihb ihc ih =>
    simp only [resumesIn, resumes, clauseResumes, cleanupResumes,
      Nat.add_eq_zero_iff] at hs
    have g₁ := goes_openBlock hd 1 none
    obtain ⟨g₂, -⟩ := body.goes g₁.ready
    have g₃ := goes_openClause (g₁.trans g₂ hd) hd x none d.nextId
    obtain ⟨g₄, -⟩ := clause.goes g₃.ready
    have hbl := blank_openClause (g₂.blank (blank_after hd none Nat.one_pos)
      (ne_current_openBlock d none Nat.one_pos) d.nextId) d.handlers.length x none d.handler
    have g₅ := (Back.setHandler g₄ d.nextId hbl.lt (ne_current_openClause g₂ x d.nextId)
      d.handler).goes_from hd g₃ (Nat.le_refl _) hbl rfl
    obtain ⟨h₁, hnew⟩ := hands_openBlock hdel hd 1 none nofun
    have hafter := hnew 0 Nat.one_pos
    have h₂ := ihb g₁.ready hs.1.1.1 h₁.delivers fun y hy => h₁.free y (hends y hy)
    have h₃ := h₂.trans (hands_openClause h₂.delivers g₂.ready (h₂.free _ hafter) none nofun
      d.handlers.length x d.handler)
    have h₄ := h₃.trans (ihc g₃.ready hs.1.1.2 h₃.delivers
      fun y hy => h₃.free y (h₁.free y (hends y hy)))
    have h₅ := h₁.trans (h₄.trans (hands_flowTo h₄.delivers g₄.ready (h₄.free _ hafter)))
    exact h₅.trans (ih g₅.ready hs.2 h₅.delivers fun y hy => h₅.free y (hends y hy))
  | @cleaned loops m b fb ss d d₁ d' hn hf body rest ihb ih =>
    simp only [resumesIn, resumes, clauseResumes, cleanupResumes,
      Nat.add_eq_zero_iff] at hs
    have g₁ := goes_openBlock hd 2 (some (d.nextId + 1))
    obtain ⟨g₂, -⟩ := body.goes g₁.ready
    have hbl := g₂.blank (blank_after hd _ Nat.two_pos) (ne_current_openBlock d _ Nat.two_pos)
      d.nextId
    have hcl := g₂.blank (blank_openBlock hd (some (d.nextId + 1)) Nat.one_lt_two)
      (ne_cleanup_openBlock d _) d.nextId
    have g₃ := goes_closeCleaned (g₁.trans g₂ hd) hd (Nat.lt_of_succ_lt g₂.lt_of_openBlock) hbl fb
    obtain ⟨h₁, hnew⟩ := hands_openBlock hdel hd 2 _ (lies_cleanup d)
    have h₂ := ihb g₁.ready hs.1.1.1 h₁.delivers fun y hy => h₁.free y (hends y hy)
    have h₃ := h₂.trans
      (hands_flowTo h₂.delivers g₂.ready (h₂.free _ (hnew 0 Nat.two_pos)))
    have h₄ := h₁.trans (h₃.trans
      (hands_closeCleaned h₃.delivers hcl (h₃.free _ (hnew 1 Nat.one_lt_two)) hs.1.2))
    exact h₄.trans (ih g₃.ready hs.2 h₄.delivers fun y hy => h₄.free y (hends y hy))
  | @both loops m b x cb fb ss d d₁ d₂ d' hn hf body clause rest ihb ihc ih =>
    simp only [resumesIn, resumes, clauseResumes, cleanupResumes,
      Nat.add_eq_zero_iff] at hs
    have g₁ := goes_openBlock hd 2 (some (d.nextId + 1))
    obtain ⟨g₂, -⟩ := body.goes g₁.ready
    have hbl := g₂.blank (blank_after hd _ Nat.two_pos) (ne_current_openBlock d _ Nat.two_pos)
      d.nextId
    have hcl := g₂.blank (blank_openBlock hd (some (d.nextId + 1)) Nat.one_lt_two)
      (ne_cleanup_openBlock d _) d.nextId
    have g₃ := goes_openClause (g₁.trans g₂ hd) hd x (some (d.nextId + 1)) d.nextId
    obtain ⟨g₄, -⟩ := clause.goes g₃.ready
    have hlt : d.nextId + 1 < d₂.nextId := by
      have := g₄.le
      have := g₂.lt_of_openBlock
      rw [nextId_openClause, nextId_flowTo] at *
      omega
    have hcl' := g₄.blank (blank_openClause hcl d.handlers.length x (some (d.nextId + 1)) d.handler)
      (ne_cleanup_openClause g₂ x d.nextId) d.nextId
    have g₅ := goes_closeCleaned (g₃.trans g₄ hd) hd hlt
      (g₄.blank (blank_openClause hbl ..) (ne_current_openClause g₂ x d.nextId) d.nextId) fb
    obtain ⟨h₁, hnew⟩ := hands_openBlock hdel hd 2 _ (lies_cleanup d)
    have hafter := hnew 0 Nat.two_pos
    have hcleanup := hnew 1 Nat.one_lt_two
    have h₂ := ihb g₁.ready hs.1.1.1 h₁.delivers fun y hy => h₁.free y (hends y hy)
    have hclause : ∀ s ∈ some (d.nextId + 1), Free d₁.states s := by
      intro s hs
      cases hs
      exact h₂.free _ hcleanup
    have h₃ := h₂.trans (hands_openClause h₂.delivers g₂.ready (h₂.free _ hafter) _ hclause
      d.handlers.length x d.handler)
    have h₄ := h₃.trans (ihc g₃.ready hs.1.1.2 h₃.delivers
      fun y hy => h₃.free y (h₁.free y (hends y hy)))
    have h₅ := h₄.trans (hands_flowTo h₄.delivers g₄.ready (h₄.free _ hafter))
    have h₆ := h₁.trans (h₅.trans
      (hands_closeCleaned h₅.delivers hcl' (h₅.free _ hcleanup) hs.1.2))
    exact h₆.trans (ih g₅.ready hs.2 h₆.delivers fun y hy => h₆.free y (hends y hy))

theorem edge_start (u s : Nat) : ¬ Edge start.states u s := by
  intro h
  obtain ⟨st, hst, hs⟩ := h
  match u, hst with
  | 0, hst | 1, hst =>
    cases hst
    cases hs

theorem free_start (hs : s < 2) : Free start.states s :=
  ⟨hs, fun u ha => edge_start u s ha.edge⟩

theorem delivers_start : Delivers start.states start.handlers none := by
  have hawaited : ∀ u s, ¬ AwaitedBy start.states u s := fun u s ha => edge_start u s ha.edge
  refine ⟨fun u s hs => absurd hs (edge_start u s), fun u v s ha => absurd ha (hawaited u s),
    by rintro _ ⟨⟩, ?_, ?_, fun u s st ha => absurd ha (hawaited u s), by rintro _ ⟨⟩⟩
  · intro u st p s hst hx
    exact absurd ⟨st, hst, by simp [hx, Terminator.successors]⟩ (edge_start u s)
  · intro s st hst _
    rcases s with _ | _ | s <;> cases hst <;> rfl

/-- In the table of a body of the source what is awaited is received, and no await goes on in the
entry. -/
theorem delivers_splitBody (h : splitBody kind body = .ok d) (hs : Stmt.resumesIn body = 0) :
    Delivers d.states d.handlers none ∧ Free d.states Chain.entry := by
  obtain ⟨e, he, hd⟩ := bind_eq_ok h
  have hsplits := splits_block kind [] body he
  obtain ⟨hg, -⟩ := hsplits.goes ready_start
  have hhands := hsplits.hands ready_start hs delivers_start (by
    intro s hs
    rcases hs with rfl | ⟨l, hl, -⟩
    · exact free_start Nat.one_lt_two
    · cases hl)
  have hclose := (hands_moveOn (t := .complete) hhands.delivers hg.ready 0 nofun nofun nofun
    (.inl ⟨rfl, rfl⟩)).1
  rw [states_moveOn_zero] at hclose
  rw [if_pos hg.ready.isOpen] at hd
  cases hd
  exact ⟨hclose.delivers, (hhands.trans hclose).free _ (free_start Nat.two_pos)⟩

end Splitting

/-! The pauses of a chain. -/

def Pause.map (f : Expr → Expr) : Pause → Pause
  | .yield e => .yield (f e)
  | .await e => .await (f e)

def Pause.nameless : Pause → Pause :=
  Pause.map Expr.nameless

theorem Terminator.pause?_mapExpr (f : Expr → Expr) (t : Terminator) :
    (t.mapExpr f).pause? = t.pause?.map (Pause.map f) := by
  cases t with
  | suspend p r => cases p <;> rfl
  | _ => rfl

theorem Terminator.pause?_mapStates (f : StateId → StateId) (t : Terminator) :
    (t.mapStates f).pause? = t.pause? := by
  cases t <;> rfl

theorem Terminator.isSome_pause? (t : Terminator) : t.pause?.isSome = t.isSuspension := by
  cases t <;> rfl

mutual

theorem Expr.points_nameless (e : Expr) : e.nameless.points = e.points.map Pause.nameless := by
  match e with
  | .await _ e =>
    simp only [Expr.nameless, Expr.points, e.points_nameless, map_cons]
    rfl
  | .binary _ _ l r =>
    simp only [Expr.nameless, Expr.points, l.points_nameless, r.points_nameless, map_append]
  | .unary _ _ e => simp only [Expr.nameless, Expr.points, e.points_nameless]
  | .call _ c es =>
    simp only [Expr.nameless, Expr.points, c.points_nameless, Expr.pointsIn_nameless es,
      map_append]
  | .unit _ | .bool .. | .int .. | .str .. | .var .. | .lambda .. | .captured .. | .resume _ =>
    simp only [Expr.nameless, Expr.points, map_nil]

theorem Expr.pointsIn_nameless (es : List Expr) :
    Expr.pointsIn (Expr.namelessAll es) = (Expr.pointsIn es).map Pause.nameless := by
  match es with
  | [] => rfl
  | e :: es =>
    simp only [Expr.namelessAll, Expr.pointsIn, e.points_nameless, Expr.pointsIn_nameless es,
      map_append]

end

mutual

theorem Stmt.points_nameless (s : Stmt) : s.nameless.points = s.points.map Pause.nameless := by
  match s with
  | .bind _ _ e | .assign _ _ e | .store _ _ e | .eval _ e | .throw _ e | .ret _ (some e) =>
    simp only [nameless, points, e.points_nameless]
  | .yield _ e =>
    simp only [nameless, points, e.points_nameless, map_cons]
    rfl
  | .cond _ t a b =>
    simp only [nameless, points, t.points_nameless, pointsIn_nameless a,
      pointsIn_nameless b, map_append]
  | .loop _ t b =>
    simp only [nameless, points, t.points_nameless, pointsIn_nameless b,
      map_append]
  | .attempt _ b c f =>
    simp only [nameless, points, pointsIn_nameless b, clausePoints_nameless c,
      cleanupPoints_nameless f, map_append]
  | .block _ b => simp only [nameless, points, pointsIn_nameless b]
  | .ret _ none | .yieldBreak _ | .brk _ | .cont _ =>
    simp only [nameless, points, map_nil]

theorem Stmt.clausePoints_nameless (c : Option Catch) :
    Stmt.clausePoints (Stmt.namelessClause c) = (Stmt.clausePoints c).map Pause.nameless := by
  match c with
  | none => rfl
  | some (.mk none b) | some (.mk (some _) b) => exact pointsIn_nameless b

theorem Stmt.cleanupPoints_nameless (f : Option (List Stmt)) :
    Stmt.cleanupPoints (Stmt.namelessCleanup f) = (Stmt.cleanupPoints f).map Pause.nameless := by
  match f with
  | none => rfl
  | some b => exact pointsIn_nameless b

theorem Stmt.pointsIn_nameless (ss : List Stmt) :
    Stmt.pointsIn (Stmt.namelessIn ss) = (Stmt.pointsIn ss).map Pause.nameless := by
  match ss with
  | [] => rfl
  | s :: ss =>
    simp only [namelessIn, pointsIn, s.points_nameless, pointsIn_nameless ss,
      map_append]

end

/-- Names apart, the points of a method stay what they are when its bindings are named anew. -/
theorem Method.points_rename (m : Method) : (Stmt.pointsIn m.rename.body).map Pause.nameless =
    (Stmt.pointsIn m.body).map Pause.nameless := by
  rw [← pointsIn_nameless, m.nameless_rename, pointsIn_nameless]

theorem Reduce.pauses_finishReturns (states : List State) :
    (finishReturns states).filterMap (·.exit.pause?) = states.filterMap (·.exit.pause?) := by
  rw [finishReturns, filterMap_map]
  congr 1
  funext st
  rw [Function.comp_apply]
  split
  · next v t hx =>
    split
    · rw [hx]
      rfl
    · rfl
  · rfl

/-- The states that are kept pause where they did before. -/
theorem Reduce.pauses_livePart (states : List State) (handlers : List Handler) :
    List.Sublist ((livePart states handlers).1.filterMap (·.exit.pause?))
      (states.filterMap (·.exit.pause?)) := by
  rw [livePart_eq, filterMap_map]
  have hsame : (fun st : State => st.exit.pause?) ∘
      renumberState (stateNumber states handlers) (handlerNumber states handlers) =
        fun st => st.exit.pause? := by
    funext st
    exact Terminator.pause?_mapStates _ st.exit
  rw [hsame]
  exact filter_sublist.filterMap _

theorem Hoist.pauses_map_hoistState (M : Manifest) (states : List State) :
    (states.map (hoistState M)).filterMap (·.exit.pause?) =
      (states.filterMap (·.exit.pause?)).map (Pause.map (hoistExpr M)) := by
  rw [filterMap_map, map_filterMap]
  congr 1
  funext st
  exact Terminator.pause?_mapExpr ..

/-- Each pause of a chain comes from a point of the method of its own. -/
theorem Method.pauses_toChain {m : Method} {limit : Nat} {c : Chain}
    (h : m.toChain kind limit = .ok c) : (c.states.filterMap (·.exit.pause?)).Subperm
      ((Stmt.pointsIn m.body).map (Pause.map (Hoist.hoistExpr c.captures))) := by
  obtain ⟨d, hd, h⟩ := Splitting.bind_eq_ok h
  simp only [] at h
  split at h
  · cases h
  · cases h
    have hlive := Reduce.pauses_livePart (Reduce.finishReturns d.states) d.handlers
    rw [Reduce.pauses_finishReturns] at hlive
    rw [Hoist.pauses_map_hoistState]
    exact (hlive.map _).subperm.trans ((Splitting.perm_pauses hd).map _).subperm

/-- Only the state after an await asks for its outcome, once and first of all, and control comes
there from that await alone. -/
structure ReceivedOnce (states : List State) (handlers : List Handler) : Prop where
  awaited : ∀ (s : Nat) (st : State), states[s]? = some st → 0 < st.resumes →
    ∃ u, Reception.AwaitedBy states u s
  received : ∀ u s, Reception.AwaitedBy states u s →
    ∃ st, states[s]? = some st ∧ st.resumes = 1 ∧ st.receives = true
  sole : ∀ u v s, Reception.AwaitedBy states u s → Reception.Edge states v s → v = u
  unhandled : ∀ u s, Reception.AwaitedBy states u s → ∀ h ∈ handlers, s ∉ h.targets
  entry : ∀ u, ¬ Reception.AwaitedBy states u Chain.entry

theorem Splitting.receivedOnce {d : Draft} (h : splitBody kind body = .ok d)
    (hs : Stmt.resumesIn body = 0) : ReceivedOnce d.states d.handlers := by
  obtain ⟨hdel, hentry⟩ := delivers_splitBody h hs
  refine ⟨?_, ?_, hdel.sole, ?_, hentry.2⟩
  · intro s st hst hpos
    by_contra hnone
    have hlt := (List.getElem?_eq_some_iff.mp hst).1
    rw [hdel.quiet s st hst ⟨hlt, fun u ha => hnone ⟨u, ha⟩⟩] at hpos
    exact Nat.lt_irrefl 0 hpos
  · intro u s ha
    have hst := getElem?_eq_getElem (hdel.known u s ha.edge)
    exact ⟨_, hst, hdel.once u s _ ha nofun hst⟩
  · intro u s ha g hg hs
    exact (hdel.handled g hg s hs).2 u ha

/-- Splitting loses no pause and no statement, and makes none twice. The table of a body pauses
exactly at the points of the body and holds exactly its pieces, and what an await brings is received
once. A chain, which keeps the live part of such a table, pauses at most so often as its method, and
each of its pauses comes from a point of its own. -/
theorem splitting_conserves :
    (∀ (kind : Kind) (body : Block) (d : Draft), Splitting.splitBody kind body = .ok d →
      (d.states.filterMap (·.exit.pause?)).Perm (Stmt.pointsIn body) ∧
      (d.states.flatMap (·.body)).Perm (Stmt.piecesIn body) ∧
      (Stmt.resumesIn body = 0 → ReceivedOnce d.states d.handlers)) ∧
    ∀ (m : Method) (limit : Nat) (c : Chain), m.split limit = .ok (some c) →
      c.suspensions ≤ (Stmt.censusIn m.body).yields + (Stmt.censusIn m.body).awaits ∧
      (c.states.filterMap (·.exit.pause?)).Subperm
        ((Stmt.pointsIn m.rename.body).map (Pause.map (Hoist.hoistExpr c.captures))) ∧
      (Stmt.pointsIn m.rename.body).map Pause.nameless =
        (Stmt.pointsIn m.body).map Pause.nameless := by
  refine ⟨?_, ?_⟩
  · intro kind body d h
    exact ⟨Splitting.perm_pauses h, Splitting.perm_statements h, Splitting.receivedOnce h⟩
  · intro m limit c h
    obtain ⟨kind, -, hc⟩ := m.exists_of_split h
    have hsub := Method.pauses_toChain hc
    refine ⟨?_, hsub, m.points_rename⟩
    have hlen := hsub.length_le
    rw [length_map, length_pointsIn, m.census_rename] at hlen
    have hcount : c.suspensions = (c.states.filterMap (·.exit.pause?)).length := by
      rw [length_filterMap_eq_countP]
      simp only [Terminator.isSome_pause?]
      rfl
    exact hcount ▸ hlen

/-- A loop whose test and body await, with a cleanup around it. -/
def awaitedLoop : Method where
  name := "m"
  params := []
  body :=
    [.attempt {} [.loop {} (.await {} (.call {} (.var {} "f") []))
        [.eval {} (.await {} (.call {} (.var {} "g") []))]]
      none (some [.eval {} (.call {} (.var {} "h") [])])]

/-- The test and the body each receive what they await, and the cleanup stands in its state. -/
theorem awaitedLoop_conserved :
    (∃ d, Splitting.splitBody .async awaitedLoop.body = .ok d ∧
      (d.states.filterMap (·.exit.pause?)).Perm
        [.await (.call {} (.var {} "f") []), .await (.call {} (.var {} "g") [])] ∧
      (d.states.flatMap (·.body)).Perm
        [.eval {} (.resume {}), .eval {} (.call {} (.var {} "h") [])] ∧
      ReceivedOnce d.states d.handlers) ∧
    ∃ c, awaitedLoop.split 10 = .ok (some c) ∧ c.suspensions ≤ 2 := by
  have hbody : (Splitting.splitBody .async awaitedLoop.body).toOption.isSome = true := by
    decide +kernel
  have hchain : (awaitedLoop.split 10).toOption.join.isSome = true := by decide +kernel
  refine ⟨?_, ?_⟩
  · cases hd : Splitting.splitBody .async awaitedLoop.body with
    | error e =>
      rw [hd] at hbody
      cases hbody
    | ok d =>
      obtain ⟨hpauses, hstmts, honce⟩ := splitting_conserves.1 .async awaitedLoop.body d hd
      exact ⟨d, rfl, hpauses, hstmts, honce rfl⟩
  · cases hc : awaitedLoop.split 10 with
    | error e =>
      rw [hc] at hchain
      cases hchain
    | ok o =>
      cases o with
      | none =>
        rw [hc] at hchain
        cases hchain
      | some c => exact ⟨c, rfl, (splitting_conserves.2 awaitedLoop 10 c hc).1⟩

end Resumable

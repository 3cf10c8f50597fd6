import Resumable.Proofs.Names
import Resumable.Proofs.Slots
import Resumable.Proofs.Compiled
import Mathlib.Algebra.GroupWithZero.Nat

namespace Resumable

open List Stmt

variable {p : Binder → Bool} {s : Nat} {st : State}

/-- The bindings of clauses that have become handlers. -/
def Binder.faults (xs : List String) : List Binder :=
  xs.map (⟨·, .fault⟩)

/-- Whether a binding has the name `x`. -/
def Binder.isNamed (x : String) (β : Binder) : Bool :=
  β.name == x

theorem Binder.countP_isNamed (x : String) (βs : List Binder) :
    βs.countP (Binder.isNamed x) = (Binder.names βs).count x := by
  rw [Binder.names, count_eq_countP, countP_map]
  rfl

/-- The bindings in an expression that a terminator evaluates. -/
def Terminator.binders (t : Terminator) : List Binder :=
  t.expr?.elim [] Expr.binders

/-- The bindings inside of a state. -/
def State.binders (st : State) : List Binder :=
  Stmt.bindersIn st.body ++ st.exit.binders

/-! Splitting. -/

theorem Splitting.Groups.binders {s : Stmt} {b : Block} (hg : Groups s b) :
    s.binders = Stmt.bindersIn b := by
  cases hg with
  | block m b => rfl
  | attempt m b => simp [Stmt.binders, Stmt.clauseBinders, Stmt.cleanupBinders]

namespace Measure

/-- How many bindings satisfy `p`, those of split clauses among them. -/
def binders (p : Binder → Bool) : Measure where
  stmt s := s.binders.countP p
  exit t := t.binders.countP p
  fault x := (Binder.faults [x]).countP p

section

variable (p : Binder → Bool)

theorem sum_binders (ss : Block) :
    (ss.map fun s => s.binders.countP p).sum = (bindersIn ss).countP p := by
  induction ss with
  | nil => rfl
  | cons s ss ih => rw [map_cons, sum_cons, ih, bindersIn, countP_append]

theorem block_binders (ss : Block) : (binders p).block ss = (bindersIn ss).countP p :=
  sum_binders p ss

theorem state_binders (st : State) : (binders p).state st = st.binders.countP p := by
  rw [State.binders, countP_append, ← block_binders]
  rfl

theorem faults_binders (xs : List String) :
    (binders p).faults xs = (Binder.faults xs).countP p := by
  induction xs with
  | nil => rfl
  | cons x xs ih =>
    rw [← singleton_append, faults_append, ih, Binder.faults, Binder.faults, map_append,
      countP_append]
    rfl

theorem counts_binders : (binders p).Counts fun s => s.binders.countP p where
  mapExits f t := by simp only [binders, Terminator.binders, Splitting.expr?_mapExits]
  goto _ := rfl
  enter _ _ := rfl
  endCleanup := rfl
  complete := rfl
  unreachable := rfl
  flat _ _ := rfl
  receive s e s' r hr he := by
    cases hr <;>
      simp [binders, Stmt.binders, Expr.binders, Terminator.binders, Terminator.expr?]
  yield m e r he := rfl
  leave loops s t hl := by cases hl <;> rfl
  value m e t he := rfl
  value_await m m' e r t he := rfl
  cond m t a b y n hn ht := by
    simp [sum_binders, binders, Stmt.binders, Terminator.binders, Terminator.expr?]
  cond_await m m' e a b r y n he := by
    simp [sum_binders, binders, Stmt.binders, Expr.binders, Terminator.binders, Terminator.expr?]
  loop m t b y n hn ht := by
    simp [sum_binders, binders, Stmt.binders, Terminator.binders, Terminator.expr?]
  loop_await m m' e b r y n he := by
    simp [sum_binders, binders, Stmt.binders, Expr.binders, Terminator.binders, Terminator.expr?]
  group s b hg hn := by rw [sum_binders, hg.binders]
  caught m b x cb hn := by
    simp [sum_binders, faults_binders, Stmt.binders, clauseBinders, cleanupBinders, Binder.faults]
  cleaned m b fb hn hf := by
    simp [sum_binders, block_binders, Stmt.binders, clauseBinders, cleanupBinders]
  both m b x cb fb hn hf := by
    simp [sum_binders, faults_binders, block_binders, Stmt.binders, clauseBinders, cleanupBinders,
      Binder.faults, Nat.add_assoc]

end

end Measure

/-- No name is bound twice: not in one state, not in two, and not in a state and outside of it. -/
structure Distinct (T : Table) (params : List String) : Prop where
  once : ∀ (s : Nat) st, T.states[s]? = some st → (Binder.names st.binders).Nodup
  apart : ∀ (s u : Nat) st st', T.states[s]? = some st → T.states[u]? = some st' →
    ∀ x ∈ Binder.names st.binders, x ∈ Binder.names st'.binders → s = u
  outside : ∀ (s : Nat) st, T.states[s]? = some st → ∀ x ∈ Binder.names st.binders,
    x ∉ T.caught ∧ x ∉ params
  caught : ∀ x ∈ T.caught, x ∉ params

namespace Compiled

variable {m : Method} {kind : Kind} {c : Chain}

section

variable (C : Compiled m kind c)
include C

theorem tally_eq (p : Binder → Bool) :
    (Measure.binders p).states C.table.states + (Binder.faults C.table.caught).countP p =
      (Stmt.bindersIn m.body).countP p := by
  obtain ⟨d, hd, htable⟩ := C.drafted
  have htotal := Splitting.total_splitBody (Measure.counts_binders p) hd
  rw [Measure.sum_binders, Draft.total, Measure.faults_binders] at htotal
  rw [htable, d.states_table (f := fun e => (e.elim [] Expr.binders).countP p) fun _ => rfl]
  exact htotal

/-- Every binding of a state is one of the body. -/
theorem mem_binders_of_state {s : Nat} {st : State}
    (hst : C.table.states[s]? = some st) {β : Binder} (hβ : β ∈ st.binders) :
    β ∈ Stmt.bindersIn m.body := by
  have h₁ := C.tally_eq (· == β)
  have h₂ := (Measure.binders (· == β)).state_le_states hst
  have h₃ := count_pos_iff.mpr hβ
  apply count_pos_iff.mp
  rw [Measure.state_binders] at h₂
  rw [count_eq_countP] at h₃ ⊢
  omega

/-- So is every binding of a clause that has become a handler. -/
theorem mem_binders_of_caught {x : String} (hx : x ∈ C.table.caught) :
    ⟨x, .fault⟩ ∈ Stmt.bindersIn m.body := by
  have h₁ := C.tally_eq (· == ⟨x, .fault⟩)
  have h₃ : 0 < (Binder.faults C.table.caught).count ⟨x, .fault⟩ :=
    count_pos_iff.mpr (mem_map.mpr ⟨x, hx, rfl⟩)
  apply count_pos_iff.mp
  rw [count_eq_countP] at h₃ ⊢
  omega

theorem tally_le_one (hm : m.bound.Nodup) (x : String) :
    (Measure.binders (Binder.isNamed x)).states C.table.states + C.table.caught.count x +
      m.params.count x ≤ 1 := by
  have h := C.tally_eq (Binder.isNamed x)
  have hone := nodup_iff_count_le_one.mp hm x
  have hf : Binder.names (Binder.faults C.table.caught) = C.table.caught := by
    simp [Binder.names, Binder.faults, Function.comp_def]
  rw [Method.bound, count_append] at hone
  rw [Binder.countP_isNamed, Binder.countP_isNamed, hf] at h
  omega

theorem distinct (hm : m.bound.Nodup) : Distinct C.table m.params := by
  have hone := C.tally_le_one hm
  have hpos : ∀ {st : State} {x : String}, x ∈ Binder.names st.binders →
      0 < (Measure.binders (Binder.isNamed x)).state st := by
    intro st x hx
    rw [Measure.state_binders, Binder.countP_isNamed]
    exact count_pos_iff.mpr hx
  refine ⟨?_, ?_, ?_, ?_⟩
  · intro s st hst
    apply nodup_iff_count_le_one.mpr
    intro x
    have h₁ := hone x
    have h₂ := (Measure.binders (Binder.isNamed x)).state_le_states hst
    rw [Measure.state_binders, Binder.countP_isNamed] at h₂
    omega
  · intro s u st st' hst hst' x hx hx'
    have h₁ := hone x
    have hp := hpos hx
    have hp' := hpos hx'
    rcases Nat.lt_trichotomy s u with hlt | rfl | hlt
    · have h₂ := (Measure.binders (Binder.isNamed x)).state_add_state_le hlt hst hst'
      omega
    · rfl
    · have h₂ := (Measure.binders (Binder.isNamed x)).state_add_state_le hlt hst' hst
      omega
  · intro s st hst x hx
    have h₁ := hone x
    have h₂ := (Measure.binders (Binder.isNamed x)).state_le_states hst
    have hp := hpos hx
    exact ⟨fun hc => by have := count_pos_iff.mpr hc; omega,
      fun hc => by have := count_pos_iff.mpr hc; omega⟩
  · intro x hx hp
    have h₁ := hone x
    have h₂ := count_pos_iff.mpr hx
    have h₃ := count_pos_iff.mpr hp
    omega

end

end Compiled

end Resumable

import Resumable.Proofs.Discretion
import Resumable.Proofs.Enclosure

namespace Resumable

open List

variable {f : StateId} {st st' : State} {t : Terminator} {M : Manifest} {halt halt' : Halt}
  {name : String} {params : List Slot} {s : Nat} {table : List State × List Handler}

open Regions Reduce

def Aftermath.map (ρ : StateId → StateId) : Aftermath → Aftermath
  | .goOn t => .goOn (ρ t)
  | .rethrow f => .rethrow f

def Departure.map (ρ : StateId → StateId) : Departure → Departure
  | .goto t => .goto (ρ t)
  | .yielded v r => .yielded v (ρ r)
  | .awaiting f r => .awaiting f (ρ r)
  | .ret v t => .ret v (t.map ρ)
  | .enter c t => .enter (ρ c) (ρ t)
  | .endCleanup => .endCleanup
  | .complete => .complete

/-- A return that finishes at once. -/
def Departure.finish : Departure → Departure
  | .ret v _ => .ret v none
  | d => d

/-- The state of a chain only finishes. -/
def Chain.Finishes (c : Chain) (s : StateId) : Prop :=
  ∃ st, c.states[s]? = some st ∧ st.body = [] ∧ st.exit = .complete

/-- How a state of the smaller chain is left: as in the whole one, or at once where that has only
to finish. -/
inductive Shortened (c : Chain) (live : Nat → Prop) (ρ : StateId → StateId) :
    Terminator → Terminator → Prop where
  | same {t : Terminator} (ht : t ≠ .unreachable) (hl : ∀ x ∈ t.successors, live x) :
    Shortened c live ρ t (t.mapStates ρ)
  | finish {v : Option Expr} {t : StateId} (ht : c.Finishes t) :
    Shortened c live ρ (.ret v (some t)) (.ret v none)

/-- The live states of a chain stand in another one under new numbers. -/
structure Copies (c c' : Chain) (live : Nat → Prop) (ρ : StateId → StateId)
    (η : HandlerId → HandlerId) : Prop where
  entry : live Chain.entry
  entry_eq : ρ Chain.entry = Chain.entry
  inj : ∀ s t : Nat, live s → live t → ρ s = ρ t → s = t
  state : ∀ s : Nat, live s → ∃ st st', c.states[s]? = some st ∧ c'.states[ρ s]? = some st' ∧
    st.id = s ∧ st'.body = st.body ∧ Shortened c live ρ st.exit st'.exit
  covering : ∀ s : Nat, live s → c'.covering (ρ s) = (c.covering s).map (renumberHandler ρ η)
  clause : ∀ s : Nat, live s → ∀ g ∈ c.covering s, ∀ l ∈ g.clause, live l.entry
  cleanup : ∀ s : Nat, live s → ∀ g ∈ c.covering s, ∀ f ∈ g.cleanup, live f
  disciplined : Disciplined c'.states c'.handlers
  numbered : ∀ (i : Nat) st, c'.states[i]? = some st → st.id = i

namespace Machine

variable {σ κ : Type}

/-- A machine on the whole chain and one on the smaller chain, at the same place. -/
structure Beside (c c' : Chain) (live : Nat → Prop) (ρ : StateId → StateId) (m m' : Machine) :
    Prop where
  chain : m.chain = c
  chain' : m'.chain = c'
  stands : live m.current
  current : m'.current = ρ m.current
  home : m'.home = m.home
  pending : m'.pending = m.pending.map fun p => (ρ p.1, p.2.map ρ)
  known : ∀ p ∈ m.pending, live p.1 ∧ ∀ t, p.2 = .goOn t → live t
  resumption : m'.resumption = m.resumption
  result : m'.result = m.result
  token : m.token = none
  token' : m'.token = none

/-- What steps side by side come to. -/
inductive Move.Beside (c c' : Chain) (live : Nat → Prop) (ρ : StateId → StateId) :
    Move → Move → Prop where
  | next {m m' : Machine} (h : m.Beside c c' live ρ m') : Beside c c' live ρ (.next m) (.next m')
  | yielded {m m' : Machine} (v : Value) (h : m.Beside c c' live ρ m') :
    Beside c c' live ρ (.yielded v m) (.yielded v m')
  | awaiting {m m' : Machine} (f : FutureId) (h : m.Beside c c' live ρ m') :
    Beside c c' live ρ (.awaiting f m) (.awaiting f m')
  | completed (v : Value) (m m' : Machine) : Beside c c' live ρ (.completed v m) (.completed v m')
  | fault {m m' : Machine} (f : Fault) (h : m.Beside c c' live ρ m') :
    Beside c c' live ρ (.fault f m) (.fault f m')
  | timeout : Beside c c' live ρ .timeout .timeout
  /-- The one has still to go through a state that only finishes. -/
  | early {m : Machine} (hc : m.chain = c) (hf : c.Finishes m.current) (ht : m.token = none)
      (m' : Machine) : Beside c c' live ρ (.next m) (.completed m.result m')

section

variable {c c' : Chain} {live : Nat → Prop} {ρ : StateId → StateId} {η : HandlerId → HandlerId}
  {m m' : Machine}

section

variable (h : m.Beside c c' live ρ m')
include h

theorem Beside.twin : m.Twin m' := by
  refine ⟨h.home, ?_, h.resumption, h.result⟩
  rw [h.pending, flatMap_map]
  congr 1
  funext p
  cases p.2 <;> rfl

theorem Beside.idle : m.idle.Beside c c' live ρ m'.idle :=
  { h with resumption := rfl }

theorem Beside.resume (o : Option Outcome) :
    Machine.Beside c c' live ρ { m with resumption := o } { m' with resumption := o } :=
  { h with resumption := rfl }

theorem Beside.go {t : StateId} (ht : live t) :
    Machine.Beside c c' live ρ { m with current := t } { m' with current := ρ t } :=
  { h with stands := ht, current := rfl }

theorem Beside.keep (v : Value) :
    Machine.Beside c c' live ρ { m with result := v } { m' with result := v } :=
  { h with result := rfl }

end

section

variable (K : Copies c c' live ρ η)
include K

section

variable (h : m.Beside c c' live ρ m')
include h

theorem Beside.filter (hf : live f) :
    m'.pending.filter (·.1 != ρ f) =
      (m.pending.filter (·.1 != f)).map fun p => (ρ p.1, p.2.map ρ) := by
  rw [h.pending, filter_map]
  congr 1
  apply filter_congr
  intro p hp
  have hi : ρ p.1 = ρ f ↔ p.1 = f := ⟨K.inj _ _ (h.known p hp).1 hf, fun he => he ▸ rfl⟩
  rw [Bool.eq_iff_iff]
  simp [hi]

/-- A cleanup is over: what comes after the others stays as it is. -/
theorem Beside.drop {f' : StateId} (hf : live f) (he : f' = ρ f) :
    Machine.Beside c c' live ρ { m with pending := m.pending.filter (·.1 != f) }
      { m' with pending := m'.pending.filter (·.1 != f') } :=
  { h with
    pending := he ▸ h.filter K hf
    known := fun p hp => h.known p (mem_of_mem_filter hp) }

theorem Beside.enter (hf : live f) {a : Aftermath}
    (ha : ∀ t, a = .goOn t → live t) :
    Machine.Beside c c' live ρ
      { m with pending := (f, a) :: m.pending.filter (·.1 != f), current := f }
      { m' with pending := (ρ f, a.map ρ) :: m'.pending.filter (·.1 != ρ f), current := ρ f } :=
  { h with
    stands := hf
    current := rfl
    pending := by rw [h.filter K hf]; rfl
    known := by
      rintro p hp
      rcases mem_cons.mp hp with rfl | hp
      · exact ⟨hf, ha⟩
      · exact h.known p (mem_of_mem_filter hp) }

theorem Beside.lookup (hf : live f) :
    m'.pending.lookup (ρ f) = (m.pending.lookup f).map (Aftermath.map ρ) := by
  rw [h.pending]
  have hk := h.known
  generalize m.pending = ps at hk
  induction ps with
  | nil => rfl
  | cons p ps ih =>
    rw [forall_mem_cons] at hk
    rw [map_cons, lookup_cons, lookup_cons]
    by_cases he : f = p.1
    · subst he
      simp
    · have hne : ρ f ≠ ρ p.1 := fun h => he (K.inj _ _ hf hk.1.1 h)
      simp only [beq_eq_false_iff_ne.mpr he, beq_eq_false_iff_ne.mpr hne]
      exact ih hk.2

/-- Terminators decide the same under the new numbers. -/
theorem depart_beside {d : Departure} (hd : Departs t d)
    (hl : ∀ x ∈ t.successors, live x) :
    Option.Rel (Move.Beside c c' live ρ) (m.depart? m.current d)
      (m'.depart? m'.current (d.map ρ)) := by
  cases hd with
  | goto t => exact .some (.next (h.go (hl t (by simp [Terminator.successors]))))
  | yes e a b => exact .some (.next (h.go (hl a (by simp [Terminator.successors]))))
  | no e a b => exact .some (.next (h.go (hl b (by simp [Terminator.successors]))))
  | yielded e v r => exact .some (.yielded v (h.go (hl r (by simp [Terminator.successors]))))
  | awaiting e f r => exact .some (.awaiting f (h.go (hl r (by simp [Terminator.successors]))))
  | finish t =>
    cases t with
    | none =>
      simp only [Departure.map, Option.map_none, depart?, h.result]
      exact .some (.completed _ _ _)
    | some t =>
      exact .some (.next { h.go (hl t (by simp [Terminator.successors])) with result := h.result })
  | ret e v t =>
    cases t with
    | none => exact .some (.completed _ _ _)
    | some t =>
      exact .some (.next ((h.keep v).go (hl t (by simp [Terminator.successors]))))
  | enter f x =>
    refine .some (.next (h.enter K (hl f (by simp [Terminator.successors])) ?_))
    rintro _ ⟨⟩
    exact hl x (by simp [Terminator.successors])
  | endCleanup =>
    have hlook : m'.pending.lookup m'.current = _ :=
      (congrArg (lookup · m'.pending) h.current).trans (h.lookup K h.stands)
    have hdrop := h.drop K h.stands h.current
    simp only [Departure.map, depart?, hlook]
    cases hp : m.pending.lookup m.current with
    | none => exact .none
    | some a =>
      have hmem := mem_of_lookup hp
      cases a with
      | goOn t => exact .some (.next (hdrop.go ((h.known _ hmem).2 t rfl)))
      | rethrow f => exact .some (.fault f hdrop)
  | complete =>
    simp only [Departure.map, depart?, h.result]
    exact .some (.completed _ _ _)

end

end

/-! Code that has been given new numbers. -/

variable {host : Host σ κ} {home : StorageId} {n : Nat}

theorem leave_mapStates (ht : t ≠ .unreachable) (s s' : StateId) :
    leave host home n s' (t.mapStates ρ) = Departure.map ρ <$> leave host home n s t := by
  cases t with
  | goto | enter | endCleanup | complete => rfl
  | branch e a b =>
    simp only [leave, Terminator.mapStates, Terminator.mapExits, map_bind, map_pure, Departure.map]
    congr
    funext yes
    cases yes <;> rfl
  | suspend p r =>
    cases p with
    | yield e =>
      simp only [leave, Terminator.mapStates, Terminator.mapExits, map_bind, map_pure,
        Departure.map]
    | await e =>
      simp only [leave, Terminator.mapStates, Terminator.mapExits, map_bind]
      congr
      funext v
      cases v <;> rfl
  | ret v t =>
    cases v with
    | none => rfl
    | some e =>
      simp only [leave, Terminator.mapStates, Terminator.mapExits, map_bind, map_pure,
        Departure.map]
  | unreachable => exact absurd rfl ht

theorem leave_finish (v : Option Expr) (t s s' : StateId) :
    leave host home n s' (.ret v none) =
      Departure.finish <$> leave host home n s (.ret v (some t)) := by
  cases v with
  | none => rfl
  | some e => simp only [leave, map_bind, map_pure, Departure.finish]

theorem execute_map {φ : Departure → Departure} (hb : st'.body = st.body)
    (hl : leave host home n st'.id st'.exit = φ <$> leave host home n st.id st.exit) :
    execute host home n st' = φ <$> execute host home n st := by
  rw [execute, hb, hl, execute, map_bind]

/-- What a state decides in the smaller chain, and where that leads. -/
theorem Shortened.execute (K : Copies c c' live ρ η) (h : m.Beside c c' live ρ m')
    (hid : st.id = m.current) (hid' : st'.id = m'.current) (hb : st'.body = st.body)
    (hx : Shortened c live ρ st.exit st'.exit) (host : Host σ κ) (home : StorageId) (n : Nat) :
    ∃ φ : Departure → Departure,
      Machine.execute host home n st' = φ <$> Machine.execute host home n st ∧
        ∀ d, Departs st.exit d →
          Option.Rel (Move.Beside c c' live ρ) (m.depart? st.id d) (m'.depart? st'.id (φ d)) := by
  rw [hid, hid']
  generalize he' : st'.exit = t' at hx
  generalize he : st.exit = t at hx
  cases hx with
  | same ht hl =>
    refine ⟨Departure.map ρ, execute_map hb ?_, fun d hd => depart_beside K h hd hl⟩
    rw [he', he]
    exact leave_mapStates ht _ _
  | @finish v t ht =>
    refine ⟨Departure.finish, execute_map hb ?_, ?_⟩
    · rw [he', he]
      exact leave_finish v t _ _
    · rintro _ (- | - | - | - | - | - | ⟨e, u, -⟩)
      · simp only [Departure.finish, depart?, h.result]
        exact .some (.early (m := { m with current := t }) h.chain ht h.token _)
      · exact .some (.early (m := { m with result := u, current := t }) h.chain ht h.token _)

theorem isCancelled_of_none {m : Machine} (h : m.token = none) (w : World σ κ) :
    m.isCancelled w = false := by
  simp [isCancelled, h]

/-- Steps side by side do the same. -/
theorem step_beside (K : Copies c c' live ρ η) (hh : host.Discreet) (h : m.Beside c c' live ρ m')
    (hs : Steady c' m') {w w' : World σ κ} (hw : w.Alike w') (n : Nat) :
    (m.step host n w).2.Alike (m'.step host n w').2 ∧
      Move.Beside c c' live ρ (m.step host n w).1 (m'.step host n w').1 := by
  obtain ⟨st, st', hst, hst', hid, hb, hx⟩ := K.state m.current h.stands
  rw [← h.current] at hst'
  have hid' := K.numbered _ _ hst'
  obtain ⟨φ, hexec, hdep⟩ := Shortened.execute K h.idle hid hid' hb hx host m.home n
  have halike : Activation.Over World.Alike
      { resumption := m.resumption, world := w.grasp [.machine m.idle] }
      { resumption := m.resumption, world := w'.grasp [.machine m'.idle] } :=
    .intro _ (hw.grasp (.cons (.machine h.idle.twin) .nil))
  have hr := (respects_execute hh.bond m.home n st).agrees _ _ halike
  rw [step_eq (h.chain ▸ hst), step_eq (h.chain' ▸ hst'), isCancelled_of_none h.token,
    isCancelled_of_none h.token', Bool.and_false, Bool.and_false, if_neg Bool.false_ne_true,
    if_neg Bool.false_ne_true, h.home, h.resumption, hexec]
  simp only [Functor.map, EStateM.map]
  generalize he : execute host m.home n st
    { resumption := m.resumption, world := w.grasp [.machine m.idle] } = r at hr ⊢
  generalize he' : execute host m.home n st
    { resumption := m.resumption, world := w'.grasp [.machine m'.idle] } = r' at hr ⊢
  cases hr with
  | @ok b b' d hab =>
    obtain ⟨v, hv⟩ := hab
    have hb' : execute host m.home n st'
        { resumption := m.resumption, world := w'.grasp [.machine m'.idle] } =
        .ok (φ d) { b with world := v } := by
      rw [hexec]
      simp only [Functor.map, EStateM.map, he']
    obtain ⟨move', hmove', -⟩ := hs.depart K.disciplined K.numbered hst' (departs_of_execute hb')
    have hrel := hdep d (departs_of_execute he)
    rw [hmove'] at hrel
    simp only [hmove']
    generalize m.idle.depart? st.id d = x at hrel ⊢
    cases hrel with
    | some hrel => exact ⟨hv.letGo hw.hands, hrel⟩
  | @error b b' e hab =>
    obtain ⟨v, hv⟩ := hab
    cases e with
    | fault f => exact ⟨hv.letGo hw.hands, .fault f h.idle⟩
    | timeout => exact ⟨hv.letGo hw.hands, .timeout⟩

/-- A fault goes to the same handler. -/
theorem handle_beside (K : Copies c c' live ρ η) (h : m.Beside c c' live ρ m') (f : Fault)
    {w w' : World σ κ} (hw : w.Alike w') :
    Option.Rel (fun r r' => r.2.Alike r'.2 ∧ r.1.Beside c c' live ρ r'.1)
      (m.handle f w) (m'.handle f w') := by
  have hcov : m'.chain.covering m'.current =
      (m.chain.covering m.current).map (renumberHandler ρ η) := by
    rw [h.chain, h.chain', h.current]
    exact K.covering _ h.stands
  have hmap := rescue?_map (φ := renumberHandler ρ η) (f := fun l => { l with entry := ρ l.entry })
    (g := ρ) (fun _ => rfl) (fun _ => rfl) (m.chain.covering m.current)
  unfold handle
  rw [hcov, hmap]
  cases hr : rescue? (m.chain.covering m.current) with
  | none => exact .none
  | some r =>
    obtain ⟨g, hg, hclause, hcleanup⟩ := mem_of_rescue? hr
    rw [h.chain] at hg
    cases r with
    | clause l =>
      have hl := K.clause _ h.stands g hg l (hclause l rfl)
      refine .some ⟨?_, h.go hl⟩
      simp only [h.home]
      cases l.slot with
      | none => exact hw
      | some k => exact hw.change (g := (·.store m.home k f.toValue)) (fun _ _ => rfl) rfl
    | cleanup s =>
      have hl := K.cleanup _ h.stands g hg s (hcleanup s rfl)
      exact .some ⟨hw, h.enter K hl (by rintro _ ⟨⟩)⟩

/-- A state that only finishes does so with one step to spare. -/
theorem step_finishes {m : Machine} (hf : m.chain.Finishes m.current) (ht : m.token = none)
    (host : Host σ κ) (n : Nat) (w : World σ κ) :
    m.step host n w = (.timeout, w) ∧ n = 0 ∨
      ∃ m', m.step host n w = (.completed m.result m', w) := by
  obtain ⟨st, hst, hb, hx⟩ := hf
  rw [step_eq hst, isCancelled_of_none ht, Bool.and_false, if_neg Bool.false_ne_true]
  cases n with
  | zero =>
    have he : ∀ a : Activation σ κ, execute host m.home 0 st a = .error .timeout a := by
      intro a
      have hblock : Eval.execBlock host m.home 0 [] a = .error (.stop .timeout) a := by
        rw [Eval.execBlock]
        rfl
      simp [execute, hb, Eval.execState, hblock, bind, EStateM.bind]
    rw [he]
    exact .inl ⟨rfl, rfl⟩
  | succ n =>
    have he : ∀ a : Activation σ κ, execute host m.home (n + 1) st a = .ok .complete a := by
      intro a
      simp [execute, hb, hx, leave, Eval.execState, Eval.execBlock, bind, EStateM.bind, pure,
        EStateM.pure]
    rw [he]
    exact .inr ⟨_, rfl⟩

theorem run_finishes {m : Machine} (hf : m.chain.Finishes m.current) (ht : m.token = none)
    (host : Host σ κ) (n : Nat) (w : World σ κ) :
    m.run host n w = (.timeout, w) ∧ n < 2 ∨
      ∃ m', m.run host n w = (.completed m.result m', w) := by
  cases n with
  | zero => exact .inl ⟨rfl, by omega⟩
  | succ n =>
    rw [run]
    rcases step_finishes hf ht host n w with ⟨h, hn⟩ | ⟨m', h⟩
    · rw [h]
      exact .inl ⟨rfl, by omega⟩
    · rw [h]
      exact .inr ⟨m', rfl⟩

/-- How runs side by side end. -/
inductive Halt.Beside (c c' : Chain) (live : Nat → Prop) (ρ : StateId → StateId) :
    Halt → Halt → Prop where
  | yielded {m m' : Machine} (v : Value) (h : m.Beside c c' live ρ m') (hs : Steady c' m') :
    Beside c c' live ρ (.yielded v m) (.yielded v m')
  | awaiting {m m' : Machine} (f : FutureId) (h : m.Beside c c' live ρ m') (hs : Steady c' m') :
    Beside c c' live ρ (.awaiting f m) (.awaiting f m')
  | completed (v : Value) (m m' : Machine) : Beside c c' live ρ (.completed v m) (.completed v m')
  | fault (f : Fault) (m m' : Machine) : Beside c c' live ρ (.fault f m) (.fault f m')
  | timeout : Beside c c' live ρ .timeout .timeout

theorem step_of_le {m : Machine} {n k : Nat} {w : World σ κ} (hk : n ≤ k)
    (h : (m.step host n w).1 ≠ .timeout) : m.step host k w = m.step host n w := by
  induction hk with
  | refl => rfl
  | @step k hk ih =>
    rcases step_timeout_or_eq host k m w with ht | he
    · exact absurd (ih ▸ ht) h
    · rw [he, ih]

/-- Runs side by side do the same, with the same number of steps or with `k` more on the whole
chain where the smaller one comes to an end. With less than two more, the whole chain may run out of
steps in the state that only finishes. -/
theorem run_beside (K : Copies c c' live ρ η) (hh : host.Discreet) (k n : Nat)
    (h : m.Beside c c' live ρ m') (hs : Steady c' m') {w w' : World σ κ} (hw : w.Alike w')
    (hk : (m'.run host n w').1 = .timeout → k = 0) :
    (m.run host (n + k) w).2.Alike (m'.run host n w').2 ∧
      (Halt.Beside c c' live ρ (m.run host (n + k) w).1 (m'.run host n w').1 ∨
        (m.run host (n + k) w).1 = .timeout ∧ k < 2 ∧
          ∃ v m₂, (m'.run host n w').1 = .completed v m₂) := by
  induction n generalizing m m' w w' with
  | zero =>
    obtain rfl := hk rfl
    exact ⟨hw, .inl .timeout⟩
  | succ n ih =>
    obtain ⟨hworld, hmove⟩ := step_beside K hh h hs hw n
    have hmoved := hs.step K.disciplined K.numbered host n w'
    obtain ⟨-, st', -, hst', -⟩ := K.state m.current h.stands
    rw [← h.current] at hst'
    rw [run] at hk ⊢
    rw [Nat.add_right_comm, run]
    have hstep : (m.step host n w).1 ≠ .timeout ∨ k = 0 →
        m.step host (n + k) w = m.step host n w := by
      rintro (ht | rfl)
      · exact step_of_le (Nat.le_add_right n k) ht
      · rfl
    generalize hx : m.step host n w = x at hworld hmove hstep
    generalize hx' : m'.step host n w' = x' at hworld hmove hmoved hk ⊢
    obtain ⟨move, v⟩ := x
    obtain ⟨move', v'⟩ := x'
    cases hmove with
    | next h =>
      rw [hstep (.inl (by rintro ⟨⟩))]
      exact ih h hmoved hworld hk
    | yielded u h =>
      rw [hstep (.inl (by rintro ⟨⟩))]
      exact ⟨hworld, .inl (.yielded u h (Plain.steady hmoved.2.1 hmoved.1))⟩
    | awaiting f h =>
      rw [hstep (.inl (by rintro ⟨⟩))]
      exact ⟨hworld, .inl (.awaiting f h (Plain.steady hmoved.2.1 hmoved.1))⟩
    | completed u m m' =>
      rw [hstep (.inl (by rintro ⟨⟩))]
      exact ⟨hworld, .inl (.completed u m m')⟩
    | timeout =>
      rw [hstep (.inr (hk rfl))]
      exact ⟨hworld, .inl .timeout⟩
    | @fault m₁ m₁' f h =>
      rw [hstep (.inl (by rintro ⟨⟩))]
      have hhandle := handle_beside K h f hworld
      simp only [] at hk ⊢
      generalize hy : m₁.handle f v = y at hhandle ⊢
      generalize hy' : m₁'.handle f v' = y' at hhandle hk ⊢
      cases hhandle with
      | none => exact ⟨hworld, .inl (.fault f _ _)⟩
      | some hr =>
        have hst₁ : c'.states[m₁'.current]? = some st' := hmoved.2 ▸ hst'
        exact ih hr.2 (Steady.handle K.disciplined hmoved.1 hst₁ hy') hr.1 hk
    | @early m₁ hc hf ht m' =>
      rw [hstep (.inl (by rintro ⟨⟩))]
      rcases run_finishes (hc ▸ hf) ht host (n + k) v with ⟨h, hlt⟩ | ⟨m₂, h⟩
      · simp only [h]
        exact ⟨hworld, .inr ⟨trivial, by omega, _, _, rfl⟩⟩
      · simp only [h]
        exact ⟨hworld, .inl (.completed _ _ _)⟩

/-! Disposal. -/

/-- The cleanups that a paused machine is left through, as they stand in its chain. -/
def cleanupBodies (m : Machine) : List Block :=
  m.chain.cleanupBodies m.current

section

variable (K : Copies c c' live ρ η)
include K

theorem Beside.enclosing (h : m.Beside c c' live ρ m') :
    m'.chain.enclosingCleanups m'.current = (m.chain.enclosingCleanups m.current).map ρ ∧
      ∀ f ∈ m.chain.enclosingCleanups m.current, live f := by
  rw [h.chain, h.chain', h.current]
  constructor
  · rw [Chain.enclosingCleanups, K.covering _ h.stands, filterMap_map,
      Chain.enclosingCleanups, map_filterMap]
    rfl
  · intro f hf
    obtain ⟨g, hg, hgf⟩ := mem_filterMap.mp hf
    exact K.cleanup _ h.stands g hg f hgf

theorem Beside.body (h : m.Beside c c' live ρ m') (hf : live f) :
    m'.chain.states[ρ f]?.elim [] (·.body) = m.chain.states[f]?.elim [] (·.body) := by
  obtain ⟨st, st', hst, hst', -, hb, -⟩ := K.state f hf
  rw [h.chain, h.chain', hst, hst']
  exact hb

theorem Beside.cleanupBodies (h : m.Beside c c' live ρ m') :
    m'.cleanupBodies = m.cleanupBodies := by
  obtain ⟨he, hl⟩ := h.enclosing K
  unfold Machine.cleanupBodies Chain.cleanupBodies
  rw [he, map_map]
  exact map_congr_left fun f hf => h.body K (hl f hf)

/-- The cleanups of both do the same, one after another. -/
theorem runCleanups_beside (hh : host.Discreet)
    (h : m.Beside c c' live ρ m') (n : Nat) {fs : List StateId} (hfs : ∀ f ∈ fs, live f)
    (first : Option Fault) :
    Agree World.Alike (m.runCleanups host n fs first) (m'.runCleanups host n (fs.map ρ) first) := by
  induction fs generalizing first with
  | nil => exact .pure first
  | cons f fs ih =>
    rw [forall_mem_cons] at hfs
    intro w w' hw
    have halike : Activation.Over World.Alike
        { world := w.grasp [.values (first.toList.flatMap (·.value?.toList)), .machine m] }
        { world := w'.grasp [.values (first.toList.flatMap (·.value?.toList)), .machine m'] } :=
      .intro _ (hw.grasp (.cons (.same _) (.cons (.machine h.twin) .nil)))
    have hr := (Eval.respects_execState hh.bond m.home n
      (m.chain.states[f]?.elim [] (·.body))).agrees _ _ halike
    simp only [runCleanups, map_cons]
    rw [h.home, h.body K hfs.1]
    generalize Eval.execState host m.home n (m.chain.states[f]?.elim [] (·.body))
      { world := w.grasp [.values (first.toList.flatMap (·.value?.toList)), .machine m] }
      = r at hr ⊢
    generalize Eval.execState host m.home n (m.chain.states[f]?.elim [] (·.body))
      { world := w'.grasp [.values (first.toList.flatMap (·.value?.toList)), .machine m'] } = r'
      at hr ⊢
    cases hr with
    | ok _ hab =>
      obtain ⟨v, hv⟩ := hab
      exact ih hfs.2 first _ _ (hv.letGo hw.hands)
    | error e hab =>
      obtain ⟨v, hv⟩ := hab
      cases e with
      | fault flt => exact ih hfs.2 _ _ _ (hv.letGo hw.hands)
      | timeout => exact .error _ (hv.letGo hw.hands)

theorem unwind_beside (hh : host.Discreet)
    (h : m.Beside c c' live ρ m') (n : Nat) :
    Agree World.Alike (m.unwind host n) (m'.unwind host n) := by
  obtain ⟨he, hl⟩ := h.enclosing K
  unfold unwind
  rw [he]
  exact runCleanups_beside K hh h n hl none

end

end

end Machine

/-! What is seen of a machine. -/

/-- What a machine comes to when it is run. -/
inductive Report where
  | yielded (v : Value)
  | awaiting (f : FutureId)
  | completed (v : Value)
  | fault (f : Fault)
  /-- Steps have run out. -/
  | unfinished

namespace Halt

def report : Halt → Report
  | .yielded v _ => .yielded v
  | .awaiting f _ => .awaiting f
  | .completed v _ => .completed v
  | .fault f _ => .fault f
  | .timeout => .unfinished

def paused? : Halt → Option Machine
  | .yielded _ m | .awaiting _ m => some m
  | .completed .. | .fault .. | .timeout => none

end Halt

namespace Machine

variable {σ κ : Type}

/-- What has been seen of a machine, the machine if it is paused, and the world. -/
structure Talk (σ κ : Type) where
  reports : List Report
  paused : Option Machine
  world : World σ κ

/-- Run a machine, and run it again with one answer after another as long as it pauses. -/
def talk (host : Host σ κ) (n : Nat) : List (Option Outcome) → Machine → World σ κ → Talk σ κ
  | [], m, w =>
    let (halt, w) := m.run host n w
    ⟨[halt.report], halt.paused?, w⟩
  | o :: answers, m, w =>
    let (halt, w) := m.run host n w
    match halt.paused? with
    | none => ⟨[halt.report], none, w⟩
    | some m =>
      let rest := talk host n answers { m with resumption := o } w
      { rest with reports := halt.report :: rest.reports }

/-- Both machines are left through the same cleanups, which do the same. -/
structure LeftAlike (host : Host σ κ) (m m' : Machine) : Prop where
  bodies : m'.cleanupBodies = m.cleanupBodies
  unwind : ∀ n, Agree World.Alike (m.unwind host n) (m'.unwind host n)

/-- The same has been seen of both machines. -/
structure Talk.Mirrors (host : Host σ κ) (t t' : Talk σ κ) : Prop where
  reports : t'.reports = t.reports
  paused : Option.Rel (LeftAlike host) t.paused t'.paused
  world : t.world.Alike t'.world

section

variable {c c' : Chain} {live : Nat → Prop} {ρ : StateId → StateId} {η : HandlerId → HandlerId}
  {m m' : Machine} {host : Host σ κ}

theorem Halt.Beside.report (h : Halt.Beside c c' live ρ halt halt') :
    halt'.report = halt.report := by
  cases h <;> rfl

theorem Halt.Beside.paused (h : Halt.Beside c c' live ρ halt halt') :
    Option.Rel (fun m m' => m.Beside c c' live ρ m' ∧ Steady c' m') halt.paused? halt'.paused? := by
  cases h with
  | yielded v h hs | awaiting f h hs => exact .some ⟨h, hs⟩
  | completed | fault | timeout => exact .none

theorem Beside.leftAlike (K : Copies c c' live ρ η) (hh : host.Discreet)
    (h : m.Beside c c' live ρ m') : LeftAlike host m m' :=
  ⟨h.cleanupBodies K, unwind_beside K hh h⟩

/-- The same is seen of machines side by side, however they are answered. -/
theorem talk_beside (K : Copies c c' live ρ η) (hh : host.Discreet) (k n : Nat)
    (answers : List (Option Outcome)) (h : m.Beside c c' live ρ m') (hs : Steady c' m')
    {w w' : World σ κ} (hw : w.Alike w')
    (hk : .unfinished ∈ (m'.talk host n answers w').reports → k = 0) :
    (m.talk host (n + k) answers w).world.Alike (m'.talk host n answers w').world ∧
      ((m.talk host (n + k) answers w).Mirrors host (m'.talk host n answers w') ∨
        .unfinished ∈ (m.talk host (n + k) answers w).reports ∧ k < 2) := by
  induction answers generalizing m m' w w' with
  | nil =>
    have hrun := run_beside K hh k n h hs hw fun ht => hk (by simp [talk, ht, Halt.report])
    simp only [talk]
    refine ⟨hrun.1, hrun.2.imp (fun hb => ⟨?_, ?_, hrun.1⟩) fun ht => ⟨?_, ht.2.1⟩⟩
    · rw [hb.report]
    · have hp := hb.paused
      generalize (m.run host (n + k) w).1.paused? = x at hp ⊢
      generalize (m'.run host n w').1.paused? = x' at hp ⊢
      cases hp with
      | none => exact .none
      | some hp => exact .some (hp.1.leftAlike K hh)
    · simp [ht.1, Halt.report]
  | cons o answers ih =>
    have hrun := run_beside K hh k n h hs hw fun ht =>
      hk (by simp [talk, ht, Halt.report, Halt.paused?])
    simp only [talk] at hk ⊢
    generalize m.run host (n + k) w = r at hrun ⊢
    generalize m'.run host n w' = r' at hrun hk ⊢
    obtain ⟨halt, v⟩ := r
    obtain ⟨halt', v'⟩ := r'
    obtain ⟨hworld, hb | ⟨ht, hlt, u, m₂, hc⟩⟩ := hrun
    · have hp := hb.paused
      have hr := hb.report
      simp only at hp hr hk ⊢
      generalize halt.paused? = x at hp ⊢
      generalize halt'.paused? = x' at hp hk ⊢
      cases hp with
      | none => exact ⟨hworld, .inl ⟨by simp only [hr], .none, hworld⟩⟩
      | @some m₁ m₁' hp =>
        obtain ⟨hw, hm⟩ := ih (hp.1.resume o) ⟨hp.2.chain, hp.2.state, hp.2.pending⟩ hworld
          fun hu => hk (mem_cons_of_mem _ hu)
        refine ⟨hw, hm.imp (fun hm => ⟨?_, hm.paused, hw⟩) fun ht => ⟨mem_cons_of_mem _ ht.1, ht.2⟩⟩
        simp only [hr, hm.reports]
    · simp only at ht hc
      subst ht hc
      exact ⟨hworld, .inr ⟨by simp [Halt.report, Halt.paused?], hlt⟩⟩

end

end Machine

/-! The table of a body. -/

namespace Hoist

/-- The chain of a table, in which the variables that the manifest names are kept in slots. -/
def chainOf (name : String) (kind : Kind) (captures : Manifest) (params : List Slot)
    (table : List State × List Handler) : Chain where
  name
  kind
  states := table.1.map (hoistState captures)
  handlers := table.2.map (hoistHandler captures)
  captures
  params

theorem covering_chainOf {kind : Kind} (hst : table.1[s]? = some st) :
    (chainOf name kind M params table).covering s =
      (Reduce.covering table.2 st).map (hoistHandler M) := by
  rw [Chain.covering, chainOf, getElem?_hoist M hst, length_map]
  exact outward_hoist M _ _

end Hoist

section

open Hoist Splitting

variable {kind : Kind} {body : Block} {d : Draft}

/-- A state before returns finish at once. -/
theorem exists_of_finishReturns {states : List State} (h : (finishReturns states)[s]? = some st') :
    ∃ st, states[s]? = some st ∧ st'.id = st.id ∧ st'.body = st.body ∧ st'.handler = st.handler ∧
      (st'.exit = st.exit ∨ ∃ v t, st.exit = .ret v (some t) ∧ st'.exit = .ret v none ∧
        onlyCompletes states t = true) := by
  rw [getElem?_finishReturns] at h
  obtain ⟨st, hst, rfl⟩ := Option.map_eq_some_iff.mp h
  refine ⟨st, hst, ?_⟩
  split
  · next v t hx =>
    split
    · next ht => exact ⟨rfl, rfl, rfl, .inr ⟨v, t, hx, rfl, ht⟩⟩
    · exact ⟨rfl, rfl, rfl, .inl rfl⟩
  · exact ⟨rfl, rfl, rfl, .inl rfl⟩

theorem finishes_chainOf {k : Kind} {t : Nat} (h : onlyCompletes table.1 t = true) :
    (chainOf name k M params table).Finishes t := by
  rw [onlyCompletes, Option.any_eq_true] at h
  obtain ⟨st, hst, he⟩ := h
  rw [Bool.and_eq_true, List.isEmpty_iff] at he
  refine ⟨_, getElem?_hoist M hst, by simp [hoistState, hoistBlock, he.1], ?_⟩
  have hx : st.exit = .complete := by
    revert he
    cases st.exit <;> simp [Terminator.isComplete]
  simp [hoistState, hx, Terminator.mapExpr]

theorem Terminator.mapExpr_eq_unreachable {f : Expr → Expr} :
    t.mapExpr f = .unreachable ↔ t = .unreachable := by
  cases t with
  | suspend p r => cases p <;> simp [mapExpr]
  | _ => simp [mapExpr]

theorem Terminator.mapExpr_mapStates (f : Expr → Expr) (ρ : StateId → StateId) (t : Terminator) :
    (t.mapStates ρ).mapExpr f = (t.mapExpr f).mapStates ρ := by
  cases t with
  | suspend z r => cases z <;> rfl
  | ret v t => cases v <;> rfl
  | _ => rfl

theorem hoistHandler_renumberHandler (M : Manifest) (ρ : StateId → StateId)
    (η : HandlerId → HandlerId) (g : Handler) :
    hoistHandler M (renumberHandler ρ η g) = renumberHandler ρ η (hoistHandler M g) := by
  simp [hoistHandler, renumberHandler, Function.comp_def]

/-- The live states of the table of a body stand in its smaller table, whatever is kept in
slots. -/
theorem copies_livePart (h : splitBody kind body = .ok d) (name : String) (k : Kind) (M : Manifest)
    (params : List Slot) :
    Copies (chainOf name k M params (d.states, d.handlers))
      (chainOf name k M params (livePart d.table.states d.table.handlers))
      (· ∈ liveStates d.table.states d.table.handlers)
      (stateNumber d.table.states d.table.handlers)
      (handlerNumber d.table.states d.table.handlers) := by
  obtain ⟨hb, hn⟩ := splitBody_laid h
  have hd := hb.disciplined hn
  have hs := shrinks_livePart hn hd.entry.lt
  have hlive : ∀ s : Nat, s ∈ liveStates d.table.states d.table.handlers →
      ∃ st', d.table.states[s]? = some st' := fun s hl =>
    ⟨_, getElem?_eq_getElem (lt_of_live hl)⟩
  -- the handlers around a live state are those around it in the table where returns finish
  have hcov : ∀ (s : Nat) st', d.table.states[s]? = some st' →
      (chainOf name k M params (d.states, d.handlers)).covering s =
        (Reduce.covering d.table.handlers st').map (hoistHandler M) := by
    intro s st' hst'
    obtain ⟨st, hst, -, -, hh, -⟩ := exists_of_finishReturns hst'
    rw [covering_chainOf hst, Reduce.covering, Reduce.covering, hh]
    rfl
  constructor
  case entry => exact hs.entry
  case entry_eq => exact hs.entry_eq
  case inj => exact hs.inj
  case state =>
    intro s hl
    obtain ⟨st', hst'⟩ := hlive s hl
    obtain ⟨st, hst, hid, hbody, -, hx⟩ := exists_of_finishReturns hst'
    refine ⟨_, _, getElem?_hoist M hst, getElem?_hoist M (hs.state s st' hl hst'), ?_, ?_, ?_⟩
    · exact hid.symm.trans (hn.state s st' hst')
    · simp only [hoistState, renumberState, hbody]
    · simp only [hoistState, renumberState, Terminator.mapExpr_mapStates]
      rcases hx with hx | ⟨v, t, hx, hx', ht⟩
      · have hreached : st.exit ≠ .unreachable := hx ▸ (hb.placed hn hst').reached
        rw [hx]
        refine .same (fun he => hreached (Terminator.mapExpr_eq_unreachable.mp he)) fun x hxs => ?_
        rw [Terminator.successors_mapExpr, ← hx] at hxs
        exact live_successor hs hl hst' hxs ((hd.state s st' hst').exit.lt x hxs)
      · rw [hx, hx']
        exact .finish (finishes_chainOf ht)
  case covering =>
    intro s hl
    obtain ⟨st', hst'⟩ := hlive s hl
    rw [hcov s st' hst', covering_chainOf (hs.state s st' hl hst'), hs.covering s st' hl hst',
      map_map, map_map]
    exact map_congr_left fun g _ => hoistHandler_renumberHandler M _ _ g
  case clause =>
    intro s hl g hg l hgl
    obtain ⟨st', hst'⟩ := hlive s hl
    rw [hcov s st' hst'] at hg
    obtain ⟨g', hg', rfl⟩ := mem_map.mp hg
    obtain ⟨l', hl', rfl⟩ := Option.map_eq_some_iff.mp hgl
    obtain ⟨inner, outer, he⟩ := append_of_mem hg'
    refine live_covering hs hl hst' hg' ?_ ((hb.placed hn hst').nested.clause he hl').1.lt
    simp [hl']
  case cleanup =>
    intro s hl g hg f hf
    obtain ⟨st', hst'⟩ := hlive s hl
    rw [hcov s st' hst'] at hg
    obtain ⟨g', hg', rfl⟩ := mem_map.mp hg
    obtain ⟨inner, outer, he⟩ := append_of_mem hg'
    refine live_covering hs hl hst' hg' ?_ ((hb.placed hn hst').nested.cleanup he hf).1.lt
    simpa using .inr hf
  case disciplined => exact (hd.shrinks hs).hoist M
  case numbered =>
    intro i st hst
    obtain ⟨st', hst', rfl⟩ := Option.map_eq_some_iff.mp ((getElem?_map ..).symm.trans hst)
    exact hs.numbered.state i st' hst'

end

/-! The calls of a machine. -/

/-- A call of the host: the name of the function and its arguments. -/
abbrev Call := String × List Value

section

variable {σ κ : Type}

theorem World.Alike.withExt {τ : Type} {w w' : World σ κ} (h : w.Alike w') (ext : τ) :
    (w.withExt ext).Alike (w'.withExt ext) := by
  cases h with
  | intro hands history h => exact .intro hands history h

namespace Host

/-- A host that answers from a state of its own. -/
def answering (answer : σ → String → List Value → Outcome × σ) : Host σ κ where
  call name args w :=
    let (o, ext) := answer w.ext name args
    .ok o (w.withExt ext)
  callback _ o w := .ok o w
  keeps _ := []

theorem discreet_answering (answer : σ → String → List Value → Outcome × σ) :
    (answering answer : Host σ κ).Discreet := by
  intro name args w w' h
  simp only [answering, h.ext]
  exact .ok _ (h.withExt _)

/-- A host that also writes down which calls are made, in their order. -/
def logging (host : Host σ κ) : Host (σ × List Call) κ where
  call name args w :=
    match host.call name args (w.withExt w.ext.1) with
    | .ok o v => .ok o (v.withExt (v.ext, w.ext.2 ++ [(name, args)]))
    | .error e v => .error e (v.withExt (v.ext, w.ext.2 ++ [(name, args)]))
  callback key o w :=
    match host.callback key o (w.withExt w.ext.1) with
    | .ok o v => .ok o (v.withExt (v.ext, w.ext.2))
    | .error e v => .error e (v.withExt (v.ext, w.ext.2))
  keeps ext := host.keeps ext.1

theorem Discreet.logging {host : Host σ κ} (hh : host.Discreet) : host.logging.Discreet := by
  intro name args w w' h
  have hr := hh name args _ _ (h.withExt w.ext.1)
  simp only [Host.logging, h.ext]
  generalize host.call name args (w.withExt w.ext.1) = r at hr ⊢
  generalize host.call name args (w'.withExt w.ext.1) = r' at hr ⊢
  cases hr with
  | ok o hv =>
    simp only [hv.ext]
    exact .ok o (hv.withExt _)
  | error e hv =>
    simp only [hv.ext]
    exact .error e (hv.withExt _)

end Host

/-- The calls made so far. -/
def Machine.Talk.calls (t : Machine.Talk (σ × List Call) κ) : List Call :=
  t.world.ext.2

end

section

open Hoist Splitting

variable {kind : Kind} {body : Block} {d : Draft} {σ κ : Type}

/-- How a machine starts does not depend on the table. -/
theorem create_chainOf (name : String) (k k' : Kind) (M : Manifest) (params : List Slot)
    (table table' : List State × List Handler) (args : List Value) (w : World σ κ) :
    Machine.create (chainOf name k M params table') k' args w =
      (Machine.create (chainOf name k M params table) k' args w).map fun r =>
        ({ r.1 with chain := chainOf name k M params table' }, r.2) := by
  by_cases hk : k = k'
  · by_cases ha : args.length = params.length
    · simp [Machine.create, chainOf, hk, ha, Except.map, Machine.slots]
    · simp [Machine.create, chainOf, hk, ha, Except.map]
  · simp [Machine.create, chainOf, hk, Except.map]

/-- A machine of the table of a body and one of its smaller table start from the same world, or
fail with the same fault. However they are answered, they make the same calls and come to the same,
with at most two more steps on the whole table, and while they are paused they are left through the
same cleanups. -/
theorem same_on_livePart (h : splitBody kind body = .ok d) {host : Host σ κ} (hh : host.Discreet)
    (name : String) (k k' : Kind) (M : Manifest) (params : List Slot) (args : List Value)
    (w : World (σ × List Call) κ) :
    let whole := chainOf name k M params (d.states, d.handlers)
    let small := chainOf name k M params (livePart (finishReturns d.states) d.handlers)
    (∀ f, Machine.create whole k' args w = .error f → Machine.create small k' args w = .error f) ∧
      ∀ m v, Machine.create whole k' args w = .ok (m, v) →
        ∃ m', Machine.create small k' args w = .ok (m', v) ∧ ∀ answers n,
          (m'.talk host.logging n answers v).calls = (m.talk host.logging n answers v).calls ∧
          (.unfinished ∉ (m.talk host.logging n answers v).reports →
            (m.talk host.logging n answers v).Mirrors host.logging
              (m'.talk host.logging n answers v)) ∧
          (.unfinished ∉ (m'.talk host.logging n answers v).reports →
            (m.talk host.logging (n + 2) answers v).Mirrors host.logging
              (m'.talk host.logging n answers v)) := by
  intro whole small
  have K := copies_livePart h name k M params
  have hsmall : Machine.create small k' args w =
      (Machine.create whole k' args w).map fun r => ({ r.1 with chain := small }, r.2) :=
    create_chainOf ..
  constructor
  · intro f hf
    rw [hsmall, hf]
    rfl
  · intro m v hm
    refine ⟨{ m with chain := small }, by rw [hsmall, hm]; rfl, ?_⟩
    obtain ⟨-, -, rfl, -⟩ := Machine.create_ok hm
    have hbeside : Machine.Beside whole small _ _ { chain := whole, home := w.storages.size }
        { chain := small, home := w.storages.size } :=
      ⟨rfl, rfl, K.entry, K.entry_eq.symm, rfl, rfl, nofun, rfl, rfl, rfl, rfl⟩
    have hsteady : Steady small { chain := small, home := w.storages.size } :=
      K.disciplined.entry.steady rfl
    have htalk := fun k answers n =>
      Machine.talk_beside K hh.logging k n answers hbeside hsteady (.refl v)
    refine fun answers n => ⟨?_, fun hu => ?_, fun hu => ?_⟩
    · exact congrArg (·.2) (htalk 0 answers n fun _ => rfl).1.ext
    · exact (htalk 0 answers n fun _ => rfl).2.resolve_right fun hx => hu hx.1
    · exact (htalk 2 answers n fun hx => absurd hx hu).2.resolve_right fun hx =>
        absurd hx.2 (by omega)

end

/-- A block that yields and leaves through a cleanup, so that nothing ever comes to its end. -/
def leavingYield : Block :=
  [.attempt {} [.yield {} (.call {} (.var {} "f") []), .yieldBreak {}] none
    (some [.eval {} (.call {} (.var {} "g") [])])]

def leavingDraft : Draft :=
  { states :=
      [{ id := 0, exit := .goto 4 }, { id := 1, exit := .complete }, { id := 2, exit := .complete },
        { id := 3, body := [.eval {} (.call {} (.var {} "g") [])], exit := .endCleanup },
        { id := 4, exit := .suspend (.yield (.call {} (.var {} "f") [])) 5, handler := some 0 },
        { id := 5, exit := .ret none (some 7), handler := some 0 },
        { id := 6, exit := .goto 8, handler := some 0 }, { id := 7, exit := .enter 3 1 },
        { id := 8, exit := .enter 3 2 }],
    handlers := [{ id := 0, cleanup := some 3 }]
    current := 2 }

/-- Both tables yield what `f` answers and call `g` when they go on. -/
theorem leavingYield_same_on_livePart :
    ∃ m m' : Machine, ∃ w : World (Unit × List Call) Unit,
      let host : Host Unit Unit := .answering fun _ _ _ => (.ok (.int 7), ())
      (m.talk host.logging 20 [none] w).reports = [.yielded (.int 7), .completed .unit] ∧
        (m.talk host.logging 20 [none] w).calls = [("f", []), ("g", [])] ∧
        m.chain.states.length = 9 ∧ m'.chain.states.length = 6 ∧
        (m.talk host.logging 20 [none] w).Mirrors host.logging
          (m'.talk host.logging 20 [none] w) := by
  let host : Host Unit Unit := .answering fun _ _ _ => (.ok (.int 7), ())
  let whole : Machine :=
    { chain := Hoist.chainOf "m" .iterator {} [] (leavingDraft.states, leavingDraft.handlers)
      home := 0 }
  let world : World (Unit × List Call) Unit :=
    { storages := #[{ slots := [], holders := 1 }], ext := ((), []) }
  have hsplit : Splitting.splitBody .iterator leavingYield = .ok leavingDraft := by rfl
  have hcreate : Machine.create whole.chain .iterator [] ({ ext := ((), []) } : World _ Unit) =
      .ok (whole, world) := by with_unfolding_all rfl
  have hreports : (whole.talk host.logging 20 [none] world).reports =
      [.yielded (.int 7), .completed .unit] := by with_unfolding_all rfl
  have hcalls : (whole.talk host.logging 20 [none] world).calls = [("f", []), ("g", [])] := by
    with_unfolding_all rfl
  obtain ⟨m', hm', htalk⟩ := (same_on_livePart hsplit (Host.discreet_answering _) "m" .iterator
    .iterator {} [] [] { ext := ((), []) }).2 whole world hcreate
  obtain ⟨-, -, rfl, -⟩ := Machine.create_ok hm'
  have hlength : (Hoist.chainOf "m" .iterator {} [] (livePart (finishReturns leavingDraft.states)
      leavingDraft.handlers)).states.length = 6 := by with_unfolding_all rfl
  exact ⟨whole, _, world, hreports, hcalls, rfl, hlength,
    (htalk [none] 20).2.1 (by rw [hreports]; simp)⟩

end Resumable

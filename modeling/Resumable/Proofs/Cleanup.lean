import Resumable.Enumerator
import Resumable.Proofs.Equality
import Resumable.Proofs.Moments

namespace Resumable

variable {owed : Bool} {m : Machine} {g s t : StateId} {P : Prop} {st : State}

/-- What happens at a state: cancellation is noticed there, or the state executes, and is stopped
if it does not come to its end. -/
inductive Deed where
  | notices (s : StateId)
  | executes (s : StateId) (stopped : Option Stop)

/-- What can be seen of a run. -/
inductive Event where
  | moves (s t : StateId)
  | does (d : Deed)

/-- An event that concerns one cleanup: control enters its region, or it runs. -/
inductive Passage where
  | enters
  | runs
  deriving DecidableEq

namespace Chain

/-- What an event is for the cleanup `f`. -/
def passage? (c : Chain) (f : StateId) : Event → Option Passage
  | .moves s t =>
    if f ∉ c.enclosingCleanups s ∧ f ∈ c.enclosingCleanups t then some .enters else none
  | .does (.executes s _) => if s = f then some .runs else none
  | .does (.notices _) => none

def passages (c : Chain) (f : StateId) (es : List Event) : List Passage :=
  es.filterMap (c.passage? f)

end Chain

/-- Entries and runs alternate, from an entry at the beginning to a run at the end. -/
def Alternate (ps : List Passage) : Prop :=
  ∃ k, ps = (List.replicate k [Passage.enters, Passage.runs]).flatten

section

variable {σ κ : Type}

namespace Machine

/-- What happens at the current state. -/
def deed (host : Host σ κ) (n : Nat) (m : Machine) (w : World σ κ) : List Deed :=
  match m.chain.states[m.current]? with
  | none => []
  | some st =>
    if !m.inCleanup st && m.isCancelled w then [.notices m.current]
    else
      match execute host m.home n st
          { resumption := m.resumption, world := w.grasp [.machine m.idle] } with
      | .ok _ _ => [.executes m.current none]
      | .error e _ => [.executes m.current (some e)]

/-- Where control goes from the current state, if it goes on. -/
def target? (host : Host σ κ) (n : Nat) (m : Machine) (w : World σ κ) : Option StateId :=
  match m.step host n w with
  | (.next m', _) | (.yielded _ m', _) | (.awaiting _ m', _) => some m'.current
  | (.fault f m', w') => (m'.handle f w').map (·.1.current)
  | (.completed .., _) | (.timeout, _) => none

end Machine

/-- The events of one step. -/
def Moment.events (host : Host σ κ) (x : Moment σ κ) : List Event :=
  (x.machine.deed host x.left x.world).map .does ++
    (x.machine.target? host x.left x.world).toList.map (.moves x.machine.current)

/-- The events of a run. -/
def Moment.trace (host : Host σ κ) (x : Moment σ κ) : List Event :=
  x.machine.along (events host) host x.left x.world

namespace Machine

/-- The events of running some cleanups one after another. -/
def unwinding (host : Host σ κ) (n : Nat) (m : Machine) :
    List StateId → Option Fault → World σ κ → List Event
  | [], _, _ => []
  | s :: rest, first, w =>
    let body := m.chain.states[s]?.elim [] (·.body)
    let held := first.toList.flatMap (·.value?.toList)
    let hands := w.hands
    match Eval.execState host m.home n body { world := w.grasp [.values held, .machine m] } with
    | .ok () a =>
      .does (.executes s none) :: unwinding host n m rest first (a.world.letGo hands)
    | .error (.fault f) a =>
      .does (.executes s (some (.fault f))) ::
        unwinding host n m rest (first.or (some f)) (a.world.letGo hands)
    | .error .timeout _ => [.does (.executes s (some .timeout))]

/-- If steps suffice, each of the cleanups executes, whatever happens in them. -/
theorem unwinding_executes {host : Host σ κ} {n : Nat} {ss : List StateId}
    {first r : Option Fault} {w w' : World σ κ} (h : m.runCleanups host n ss first w = .ok r w') :
    List.Forall₂ (fun s e => ∃ stopped, e = Event.does (.executes s stopped)) ss
      (m.unwinding host n ss first w) := by
  induction ss generalizing first w with
  | nil => exact .nil
  | cons s ss ih =>
    rw [runCleanups] at h
    rw [unwinding]
    cases hx : Eval.execState host m.home n (m.chain.states[s]?.elim [] (·.body))
      { world := w.grasp [.values (first.toList.flatMap (·.value?.toList)), .machine m] } with
    | ok _ a =>
      simp only [hx] at h ⊢
      exact .cons ⟨_, rfl⟩ (ih h)
    | error e a =>
      simp only [hx] at h ⊢
      cases e with
      | fault f => exact .cons ⟨_, rfl⟩ (ih h)
      | timeout => cases h

end Machine

namespace Enumerator

/-- The events of an attempt to advance. -/
def advancing (host : Host σ κ) (n : Nat) (e : Enumerator) (w : World σ κ) : List Event :=
  match e.machine with
  | none => []
  | some m => Moment.trace host ⟨n, m, w.grasp [.values e.current.toList]⟩

/-- The events of a disposal. -/
def disposing (host : Host σ κ) (n : Nat) (e : Enumerator) (w : World σ κ) : List Event :=
  match e.machine with
  | none => []
  | some m => m.unwinding host n (m.chain.enclosingCleanups m.current) none w

/-- The events from here on until the enumerator is exhausted. It is advanced and disposed of in
any order; between those calls the world may change in any way. -/
inductive Course (host : Host σ κ) : Enumerator → List Event → Prop where
  | spent {e : Enumerator} (h : e.isExhausted = true) : Course host e []
  | advance {e e' : Enumerator} {n : Nat} {w w' : World σ κ} {r : Advance} {es : List Event}
      (h : e.advance host n w = .ok (r, e') w') (rest : Course host e' es) :
    Course host e (e.advancing host n w ++ es)
  | dispose {e e' : Enumerator} {n : Nat} {w w' : World σ κ} {r : Option Fault} {es : List Event}
      (h : e.dispose host n w = .ok (r, e') w') (rest : Course host e' es) :
    Course host e (e.disposing host n w ++ es)

end Enumerator

end

/-! Whether a run of the cleanup is owed. -/

/-- Read passages while a run of the cleanup is owed or not; fail where they do not alternate. -/
def follow : Bool → List Passage → Option Bool
  | owed, [] => some owed
  | false, .enters :: ps => follow true ps
  | true, .runs :: ps => follow false ps
  | true, .enters :: _ | false, .runs :: _ => none

theorem follow_append (owed : Bool) (ps qs : List Passage) :
    follow owed (ps ++ qs) = (follow owed ps).bind (follow · qs) := by
  induction ps generalizing owed with
  | nil => rfl
  | cons p ps ih => cases owed <;> cases p <;> first | exact ih _ | rfl

theorem Alternate.of_follow {ps : List Passage} (h : follow false ps = some false) :
    Alternate ps := by
  induction hn : ps.length using Nat.strongRecOn generalizing ps with
  | ind n ih =>
    match ps, h with
    | [], _ => exact ⟨0, rfl⟩
    | .enters :: .runs :: ps, h =>
      have hps : follow false ps = some false := h
      obtain ⟨k, hk⟩ := ih ps.length (by simp at hn; omega) hps rfl
      exact ⟨k + 1, by rw [List.replicate_succ, List.flatten_cons, ← hk]; rfl⟩

namespace Regions

variable {c : Chain} {f : StateId}

/-- A run of the cleanup `f` is owed when control stands at `s`: inside of its region, on a route
to it, or at the cleanup itself. -/
def Owes (c : Chain) (f s : StateId) : Prop :=
  f ∈ c.enclosingCleanups s ∨ (∃ st x, c.states[s]? = some st ∧ st.exit = .enter f x) ∨ s = f

/-- After the events, a run of `f` is owed if and only if `P`. -/
def Leads (c : Chain) (f : StateId) (owed : Bool) (es : List Event) (P : Prop) : Prop :=
  ∃ owed', follow owed (c.passages f es) = some owed' ∧ (owed' = true ↔ P)

theorem Leads.append {es es' : List Event} {Q : Prop} (h : Leads c f owed es P)
    (h' : ∀ owed', (owed' = true ↔ P) → Leads c f owed' es' Q) : Leads c f owed (es ++ es') Q := by
  obtain ⟨o, ho, hP⟩ := h
  obtain ⟨o', ho', hQ⟩ := h' o hP
  refine ⟨o', ?_, hQ⟩
  rw [Chain.passages, List.filterMap_append, follow_append]
  exact ho ▸ ho'

theorem Leads.alternate {es : List Event} (h : Leads c f false es False) :
    Alternate (c.passages f es) := by
  obtain ⟨owed, ho, hno⟩ := h
  cases owed with
  | true => exact (hno.mp rfl).elim
  | false => exact .of_follow ho

theorem owes_of_plain (hf : Cleans c.states f) (hs : Plain c.states s) :
    Owes c f s ↔ f ∈ c.enclosingCleanups s := by
  obtain ⟨st, hst, hc, hr⟩ := hs
  constructor
  · rintro (h | ⟨st', x, hst', hx⟩ | rfl)
    · exact h
    · cases hst.symm.trans hst'
      exact absurd hx (hr f x)
    · obtain ⟨st', hst', hx⟩ := hf
      cases hst.symm.trans hst'
      exact absurd hx hc
  · exact .inl

theorem owes_of_cleans (hg : Cleans c.states g) :
    Owes c f g ↔ f ∈ c.enclosingCleanups g ∨ f = g := by
  obtain ⟨st, hst, hc⟩ := hg
  constructor
  · rintro (h | ⟨st', x, hst', hx⟩ | rfl)
    · exact .inl h
    · cases hst.symm.trans hst'
      rw [hc] at hx
      cases hx
    · exact .inr rfl
  · rintro (h | rfl)
    · exact .inl h
    · exact .inr (.inr rfl)

theorem owes_of_route (hf : Cleans c.states f) {x : StateId} (hst : c.states[s]? = some st)
    (hx : st.exit = .enter g x) : Owes c f s ↔ f ∈ c.enclosingCleanups s ∨ f = g := by
  constructor
  · rintro (h | ⟨st', x', hst', hx'⟩ | rfl)
    · exact .inl h
    · cases hst.symm.trans hst'
      cases hx.symm.trans hx'
      exact .inr rfl
    · obtain ⟨st', hst', hc⟩ := hf
      cases hst.symm.trans hst'
      rw [hx] at hc
      cases hc
  · rintro (h | rfl)
    · exact .inl h
    · exact .inr (.inl ⟨st, x, hst, hx⟩)

theorem leads_none {e : Event} (he : c.passage? f e = none) (ho : owed = true ↔ P) :
    Leads c f owed [e] P :=
  ⟨owed, by simp [Chain.passages, he, follow], ho⟩

/-- A move that keeps control inside of at most the same regions. -/
theorem leads_subset (h : f ∈ c.enclosingCleanups t → f ∈ c.enclosingCleanups s)
    (ho : owed = true ↔ P) : Leads c f owed [.moves s t] P :=
  leads_none (if_neg fun hn => hn.1 (h hn.2)) ho

theorem leads_link (hf : Cleans c.states f)
    (hl : Link c.states c.handlers (c.enclosingCleanups s) t)
    (ho : owed = true ↔ f ∈ c.enclosingCleanups s) : Leads c f owed [.moves s t] (Owes c f t) := by
  cases hl with
  | stay ht he =>
    have he : c.enclosingCleanups t = c.enclosingCleanups s := he
    rw [owes_of_plain hf ht, he]
    exact leads_subset (he ▸ id) ho
  | @into ht g he hg hc =>
    have he : c.enclosingCleanups t = g :: c.enclosingCleanups s := he
    rw [owes_of_plain hf ht, he]
    by_cases hfg : f = g
    · subst hfg
      have hno : owed = false := by
        cases owed with
        | false => rfl
        | true => exact absurd (ho.mp rfl) hg
      subst hno
      have hp : c.passage? f (.moves s t) = some .enters :=
        if_pos ⟨hg, he ▸ List.mem_cons_self⟩
      exact ⟨true, by simp [Chain.passages, hp, follow], by simp⟩
    · have hiff : f ∈ g :: c.enclosingCleanups s ↔ f ∈ c.enclosingCleanups s := by
        simp [hfg]
      rw [hiff]
      exact leads_subset (he ▸ hiff.mp) ho
  | @out g x st ht hx he =>
    have he : c.enclosingCleanups s = g :: c.enclosingCleanups t := he
    rw [owes_of_route hf ht hx]
    refine leads_subset (fun h => he ▸ List.mem_cons_of_mem _ h) ?_
    rw [ho, he, List.mem_cons, or_comm]

/-- Control goes to a cleanup, from the region of which it comes. -/
theorem leads_cleans (hg : Cleans c.states g)
    (he : c.enclosingCleanups s = g :: c.enclosingCleanups g)
    (ho : owed = true ↔ f ∈ c.enclosingCleanups s) : Leads c f owed [.moves s g] (Owes c f g) := by
  rw [owes_of_cleans hg]
  refine leads_subset (fun h => he ▸ List.mem_cons_of_mem _ h) ?_
  rw [ho, he, List.mem_cons, or_comm]

/-- Once a state that is no route executes, its region alone counts. -/
theorem leads_executes (hd : Disciplined c.states c.handlers) (hf : Cleans c.states f)
    (hst : c.states[s]? = some st) (hr : ∀ g x, st.exit ≠ .enter g x)
    (ho : owed = true ↔ Owes c f s) (stopped : Option Stop) :
    Leads c f owed [.does (.executes s stopped)] (f ∈ c.enclosingCleanups s) := by
  by_cases hsf : s = f
  · subst hsf
    obtain ⟨st', hst', hc⟩ := id hf
    have hfresh : s ∉ c.enclosingCleanups s := (hd.state s st' hst').fresh hc
    obtain rfl : owed = true := ho.mpr (.inr (.inr rfl))
    have hp : c.passage? s (.does (.executes s stopped)) = some .runs := if_pos rfl
    exact ⟨false, by simp [Chain.passages, hp, follow], by simp [hfresh]⟩
  · refine leads_none (if_neg hsf) ?_
    rw [ho]
    constructor
    · rintro (h | ⟨st', x, hst', hx⟩ | h)
      · exact h
      · cases hst.symm.trans hst'
        exact absurd hx (hr f x)
      · exact absurd h hsf
    · exact .inl

/-! Steps and runs. -/

/-- Some state of the chain pauses as a method of this kind does. -/
def Pauses (c : Chain) (kind : Kind) : Prop :=
  ∃ (s : Nat) (st : State) (z : Pause) (r : StateId),
    c.states[s]? = some st ∧ st.exit = .suspend z r ∧ z.kind = kind

/-- What a step from `s` means for the cleanup `f`, when the events `here` come first. -/
def Passes (c : Chain) (f s : StateId) (owed : Bool) (here : List Event) : Move → Prop
  | .next m' => Steady c m' ∧ Leads c f owed (here ++ [.moves s m'.current]) (Owes c f m'.current)
  | .yielded _ m' => Pauses c .iterator ∧ m'.chain = c ∧ Plain c.states m'.current ∧
    Leads c f owed (here ++ [.moves s m'.current]) (Owes c f m'.current)
  | .awaiting _ m' => Pauses c .async ∧ m'.chain = c ∧ Plain c.states m'.current ∧
    Leads c f owed (here ++ [.moves s m'.current]) (Owes c f m'.current)
  | .completed _ _ => Leads c f owed here False
  | .fault _ m' =>
    m'.chain = c ∧ m'.current = s ∧ Leads c f owed here (f ∈ c.enclosingCleanups s)
  | .timeout => True

/-- What a run means for the cleanup `f`: when it pauses, its state tells whether a run is owed,
and when it ends, none is. -/
def Halts (c : Chain) (f : StateId) (owed : Bool) (es : List Event) : Halt → Prop
  | .yielded _ m' => Pauses c .iterator ∧ m'.chain = c ∧ Plain c.states m'.current ∧
    Leads c f owed es (Owes c f m'.current)
  | .awaiting _ m' => Pauses c .async ∧ m'.chain = c ∧ Plain c.states m'.current ∧
    Leads c f owed es (Owes c f m'.current)
  | .completed _ _ | .fault _ _ => Leads c f owed es False
  | .timeout => True

theorem Leads.halts {es es' : List Event} {halt : Halt} (h : Leads c f owed es P)
    (h' : ∀ owed', (owed' = true ↔ P) → Halts c f owed' es' halt) :
    Halts c f owed (es ++ es') halt := by
  obtain ⟨o, ho, hP⟩ := id h
  have hr := h' o hP
  cases halt with
  | yielded v m' | awaiting v m' =>
    obtain ⟨hp, hc, hs, hl⟩ := hr
    exact ⟨hp, hc, hs, h.append fun o' ho' => (Bool.eq_iff_iff.mpr (hP.trans ho'.symm)) ▸ hl⟩
  | completed v m' | fault v m' =>
    exact h.append fun o' ho' => (Bool.eq_iff_iff.mpr (hP.trans ho'.symm)) ▸ hr
  | timeout => trivial

section

variable {σ κ : Type} (hd : Disciplined c.states c.handlers)
  (hn : ∀ (i : Nat) st, c.states[i]? = some st → st.id = i) (hf : Cleans c.states f)
include hd hn hf

theorem depart_passes (hm : Steady c m) (hst : c.states[m.current]? = some st)
    (hr : ∀ g x, st.exit ≠ .enter g x) {d : Departure} (hdep : Machine.Departs st.exit d)
    (ho : owed = true ↔ Owes c f m.current) :
    ∃ move, m.idle.depart? st.id d = some move ∧
      Passes c f m.current owed [.does (.executes m.current none)] move := by
  have hhere := leads_executes hd hf hst hr ho none
  have hfine := (hd.state m.current st hst).exit
  have hmove : ∀ t, Link c.states c.handlers (c.enclosingCleanups m.current) t →
      Leads c f owed ([.does (.executes m.current none)] ++ [.moves m.current t]) (Owes c f t) :=
    fun t hl => hhere.append fun o ho => leads_link hf hl ho
  have hend : c.enclosingCleanups m.current = [] →
      Leads c f owed [.does (.executes m.current none)] False := by
    intro he
    obtain ⟨o, hfo, hiff⟩ := hhere
    rw [he] at hiff
    exact ⟨o, hfo, by simpa using hiff⟩
  cases hx : st.exit with
  | goto t =>
    rw [hx] at hdep hfine
    cases hdep
    exact ⟨_, rfl, Link.steady hfine hm.chain, hmove t hfine⟩
  | branch e a b =>
    rw [hx] at hdep hfine
    cases hdep with
    | yes => exact ⟨_, rfl, Link.steady hfine.1 hm.chain, hmove a hfine.1⟩
    | no => exact ⟨_, rfl, Link.steady hfine.2 hm.chain, hmove b hfine.2⟩
  | suspend p r =>
    rw [hx] at hdep hfine
    have hl := Link.stay hfine.1 hfine.2
    cases hdep with
    | yielded e v => exact ⟨_, rfl, ⟨_, st, _, r, hst, hx, rfl⟩, hm.chain, hfine.1, hmove r hl⟩
    | awaiting e v => exact ⟨_, rfl, ⟨_, st, _, r, hst, hx, rfl⟩, hm.chain, hfine.1, hmove r hl⟩
  | ret v t =>
    rw [hx] at hdep hfine
    cases t with
    | none => cases hdep <;> exact ⟨_, rfl, hend hfine⟩
    | some t => cases hdep <;> exact ⟨_, rfl, Link.steady hfine hm.chain, hmove t hfine⟩
  | enter g x => exact absurd hx (hr g x)
  | endCleanup =>
    rw [hx] at hdep
    cases hdep
    obtain ⟨a, ha, hgo⟩ := hm.pending ⟨st, hst, hx⟩
    rw [hn _ _ hst]
    simp only [Machine.depart?, Machine.idle_pending, ha, Option.map_some]
    cases a with
    | goOn x => exact ⟨_, rfl, Link.steady (hgo x rfl) hm.chain, hmove x (hgo x rfl)⟩
    | rethrow flt => exact ⟨_, rfl, hm.chain, rfl, hhere⟩
  | complete =>
    rw [hx] at hdep hfine
    cases hdep
    exact ⟨_, rfl, hend hfine⟩
  | unreachable =>
    rw [hx] at hdep
    cases hdep

theorem step_passes (hm : Steady c m) (host : Host σ κ) (n : Nat) (w : World σ κ)
    (ho : owed = true ↔ Owes c f m.current) :
    Passes c f m.current owed ((m.deed host n w).map .does) (m.step host n w).1 := by
  obtain ⟨st, hst⟩ := hm.state
  have hmst : m.chain.states[m.current]? = some st := hm.chain ▸ hst
  have hord := hd.state m.current st hst
  rw [Machine.step_eq hmst, Machine.deed, hmst]
  by_cases hr : ∃ g x, st.exit = .enter g x
  · -- a route neither faults nor notices cancellation
    obtain ⟨g, x, hx⟩ := hr
    have hin : m.inCleanup st = true := by simp [Machine.inCleanup, hx]
    have hfine := hord.exit
    rw [hx] at hfine
    obtain ⟨hg, heg, hl⟩ := hfine
    have heg : c.enclosingCleanups g = c.enclosingCleanups m.current := heg
    simp only [hin, Bool.not_true, Bool.false_and, Bool.false_eq_true, if_false]
    rcases Machine.execute_route (n := n) (hord.route g x hx) hx
      { resumption := m.resumption, world := w.grasp [.machine m.idle] } with he | he
    · rw [he]
      trivial
    · rw [he]
      refine ⟨⟨hm.chain, ⟨_, List.getElem?_eq_getElem hg.lt⟩, fun _ => ?_⟩, ?_⟩
      · refine ⟨.goOn x, by simp, ?_⟩
        intro y hy
        cases hy
        exact heg.symm ▸ hl
      · have hne : m.current ≠ f := by
          rintro rfl
          obtain ⟨st', hst', he'⟩ := hf
          cases hst.symm.trans hst'
          rw [hx] at he'
          cases he'
        have hpass : c.passage? f (.does (.executes m.current none)) = none := if_neg hne
        refine (leads_none hpass ho).append fun o ho' => leads_subset (fun h => heg ▸ h) ?_
        rw [ho', owes_of_route hf hst hx, owes_of_cleans hg, heg]
  · have hr : ∀ g x, st.exit ≠ .enter g x := fun g x hx => hr ⟨g, x, hx⟩
    by_cases hcan : (!m.inCleanup st && m.isCancelled w) = true
    · have hc : ¬Cleans c.states m.current := by
        intro hc
        obtain ⟨a, ha, -⟩ := hm.pending hc
        simp [Machine.inCleanup, hn _ _ hst, ha] at hcan
      have hp : Plain c.states m.current := ⟨st, hst, fun he => hc ⟨st, hst, he⟩, hr⟩
      simp only [hcan, if_true]
      exact ⟨hm.chain, rfl, leads_none rfl (ho.trans (owes_of_plain hf hp))⟩
    · simp only [hcan, Bool.false_eq_true, if_false]
      generalize he : Machine.execute host m.home n st
        { resumption := m.resumption, world := w.grasp [.machine m.idle] } = x
      cases x with
      | ok d a =>
        obtain ⟨move, hmove, hpass⟩ :=
          depart_passes hd hn hf hm hst hr (Machine.departs_of_execute he) ho
        simp only [hmove]
        exact hpass
      | error e a =>
        cases e with
        | fault g => exact ⟨hm.chain, rfl, leads_executes hd hf hst hr ho _⟩
        | timeout => trivial

omit hn in
/-- A fault that is raised inside of some regions goes to the innermost cleanup, or stays inside
of them; it escapes from outside of all regions only. -/
theorem handle_passes (hc : m.chain = c) (hst : c.states[m.current]? = some st) (flt : Fault)
    (w : World σ κ) :
    match m.handle flt w with
    | none => c.enclosingCleanups m.current = []
    | some (m', _) => Steady c m' ∧ ∀ owed : Bool,
      (owed = true ↔ f ∈ c.enclosingCleanups m.current) →
        Leads c f owed [.moves m.current m'.current] (Owes c f m'.current) := by
  subst hc
  have hfault := (hd.state m.current st hst).fault
  have hcov : m.chain.covering m.current =
      Handler.outward m.chain.handlers m.chain.handlers.length st.handler := by
    rw [Chain.covering, hst, Option.bind_some]
  rw [Machine.handle, hcov]
  cases hr : Machine.rescue?
    (Handler.outward m.chain.handlers m.chain.handlers.length st.handler) with
  | none =>
    rw [hr] at hfault
    exact hfault
  | some r =>
    rw [hr] at hfault
    cases r with
    | clause l =>
      exact ⟨Plain.steady hfault.1 rfl, fun _ ho => leads_link hf (.stay hfault.1 hfault.2) ho⟩
    | cleanup g =>
      obtain ⟨hg, he⟩ := hfault
      refine ⟨⟨rfl, ⟨_, List.getElem?_eq_getElem hg.lt⟩, fun _ => ?_⟩,
        fun _ ho => leads_cleans hg he ho⟩
      exact ⟨.rethrow flt, by simp, by rintro _ ⟨⟩⟩

/-- A run that ends leaves nothing owed; one that pauses owes what its state does. -/
theorem trace_halts (host : Host σ κ) (n : Nat) (hm : Steady c m) (w : World σ κ)
    (ho : owed = true ↔ Owes c f m.current) :
    Halts c f owed (Moment.trace host ⟨n, m, w⟩) (m.run host n w).1 := by
  induction n generalizing m w owed with
  | zero => trivial
  | succ n ih =>
    have hstep := step_passes hd hn hf hm host n w ho
    obtain ⟨st, hst⟩ := hm.state
    -- the step comes first, and then what the run comes to from where control goes
    have hmoves : ∀ {m' w'}, m.onward host n w = some (m', w') →
        m.target? host n w = some m'.current → Steady c m' →
        Leads c f owed ((m.deed host n w).map .does ++ [.moves m.current m'.current])
          (Owes c f m'.current) →
        Halts c f owed (Moment.trace host ⟨n + 1, m, w⟩) (m.run host (n + 1) w).1 := by
      intro m' w' honward htarget hm' hl
      rw [Machine.run_onward honward, Moment.trace, Machine.along_onward _ honward, Moment.events,
        htarget]
      exact hl.halts fun o ho' => ih hm' w' ho'
    rcases hms : m.step host n w with ⟨move, w'⟩
    rw [hms] at hstep
    cases move with
    | next m' =>
      exact hmoves (Machine.onward_next hms) (by rw [Machine.target?, hms]) hstep.1 hstep.2
    | fault flt m' =>
      obtain ⟨hc, hcur, hl⟩ := hstep
      have hh := handle_passes hd hf hc (hcur.symm ▸ hst) flt w'
      have honward := Machine.onward_fault hms
      cases hmh : m'.handle flt w' with
      | none =>
        rw [hmh] at hh honward
        have he : c.enclosingCleanups m.current = [] := hcur ▸ hh
        rw [he] at hl
        obtain ⟨o, hfo, hiff⟩ := hl
        rw [Moment.trace, Machine.along_last _ honward, Moment.events, Machine.target?, hms,
          Machine.run, hms]
        simp only [hmh, Option.map_none, Option.toList_none, List.map_nil, List.append_nil]
        exact ⟨o, hfo, by simpa using hiff⟩
      | some r =>
        rw [hmh] at hh honward
        obtain ⟨hm', hmove⟩ := hh
        rw [hcur] at hmove
        exact hmoves honward (by simp only [Machine.target?, hms, hmh, Option.map_some]) hm'
          (hl.append fun o ho' => hmove o ho')
    | yielded | awaiting | timeout =>
      have hlast : m.onward host n w = none := by rw [Machine.onward, hms]
      rw [Moment.trace, Machine.along_last _ hlast, Moment.events, Machine.target?, hms,
        Machine.run, hms]
      exact hstep
    | completed =>
      have hlast : m.onward host n w = none := by rw [Machine.onward, hms]
      rw [Moment.trace, Machine.along_last _ hlast, Moment.events, Machine.target?, hms,
        Machine.run, hms, Option.toList_none, List.map_nil, List.append_nil]
      exact hstep

end

/-! Courses. -/

/-- Of cleanups that execute one after another, each once, at most one is `f`. -/
theorem leads_executes_all {E : List StateId} {es : List Event} (hE : E.Nodup)
    (hes : List.Forall₂ (fun s e => ∃ stopped, e = Event.does (.executes s stopped)) E es)
    (ho : owed = true ↔ f ∈ E) : Leads c f owed es False := by
  induction hes generalizing owed with
  | nil => exact ⟨owed, rfl, by simpa using ho⟩
  | @cons g e E es he _ ih =>
    obtain ⟨stopped, rfl⟩ := he
    obtain ⟨hg, hE⟩ := List.nodup_cons.mp hE
    by_cases hgf : g = f
    · subst hgf
      obtain rfl : owed = true := ho.mpr List.mem_cons_self
      have hp : c.passage? g (.does (.executes g stopped)) = some .runs := if_pos rfl
      have hone : Leads c g true [.does (.executes g stopped)] False :=
        ⟨false, by simp [Chain.passages, hp, follow], by simp⟩
      exact hone.append fun o hno => ih hE (by simp [hg, hno])
    · have hpass : c.passage? f (.does (.executes g stopped)) = none := if_neg hgf
      have hmem : f ∈ g :: E ↔ f ∈ E := by simp [Ne.symm hgf]
      exact (leads_none hpass (ho.trans hmem)).append fun o ho' => ih hE ho'

section

variable {σ κ : Type} (hd : Disciplined c.states c.handlers)
  (hn : ∀ (i : Nat) st, c.states[i]? = some st → st.id = i) (hf : Cleans c.states f)
include hd hn hf

theorem enumerator_course {host : Host σ κ} (hk : ¬Pauses c .async) {e : Enumerator}
    {es : List Event} (h : e.Course host es)
    (hm : ∀ m ∈ e.machine, m.chain = c ∧ Plain c.states m.current)
    (ho : owed = true ↔ ∃ m ∈ e.machine, f ∈ c.enclosingCleanups m.current) :
    Leads c f owed es False := by
  induction h generalizing owed with
  | @spent e hx =>
    cases hmach : e.machine with
    | none => exact ⟨owed, rfl, by simpa [hmach] using ho⟩
    | some m => simp [Enumerator.isExhausted, hmach] at hx
  | @advance e e' n w w' r es hadv rest ih =>
    cases hmach : e.machine with
    | none =>
      simp only [Enumerator.advance, hmach] at hadv
      cases hadv
      simp only [Enumerator.advancing, hmach, List.nil_append]
      exact ih hm ho
    | some m =>
      obtain ⟨hc, hp⟩ := hm m hmach
      have ho' : owed = true ↔ Owes c f m.current := by
        rw [ho, owes_of_plain hf hp]
        simp [hmach]
      have ht := trace_halts hd hn hf host n (hp.steady hc) (w.grasp [.values e.current.toList])
        ho'
      simp only [Enumerator.advancing, hmach]
      simp only [Enumerator.advance, hmach] at hadv
      split at hadv <;> rename_i hhalt
      · rw [hhalt] at ht
        cases hadv
        obtain ⟨-, hc', hp', hl⟩ := ht
        refine hl.append fun o ho' => ih (by simp [hc', hp']) ?_
        rw [ho', owes_of_plain hf hp']
        simp
      · rw [hhalt] at ht
        cases hadv
        exact ht.append fun o ho' =>
          ih (by simp [Enumerator.finished]) (by simp [ho', Enumerator.finished])
      · rw [hhalt] at ht
        exact absurd ht.1 hk
      · rw [hhalt] at ht
        cases hadv
        exact ht.append fun o ho' =>
          ih (by simp [Enumerator.finished]) (by simp [ho', Enumerator.finished])
      · cases hadv
  | @dispose e e' n w w' r es hdis rest ih =>
    cases hmach : e.machine with
    | none =>
      simp only [Enumerator.dispose, hmach] at hdis
      cases hdis
      simp only [Enumerator.disposing, hmach, List.nil_append]
      exact ih hm ho
    | some m =>
      obtain ⟨hc, hp⟩ := hm m hmach
      obtain ⟨st, hst, -⟩ := id hp
      simp only [Enumerator.dispose, hmach] at hdis
      obtain ⟨flt, w₁, hun, hdis⟩ := bind_ok hdis
      obtain ⟨-, w₂, -, hdis⟩ := bind_ok hdis
      cases hdis
      simp only [Enumerator.disposing, hmach]
      have howed : owed = true ↔ f ∈ c.enclosingCleanups m.current := by
        rw [ho]
        simp [hmach]
      have hexec := Machine.unwinding_executes hun
      rw [hc] at hexec ⊢
      have hall := leads_executes_all (c := c) (hd.state m.current st hst).nodup hexec howed
      exact hall.append fun o ho' =>
        ih (by simp [Enumerator.finished]) (by simp [ho', Enumerator.finished])

/-- A task that waits owes what its state does. -/
theorem task_course {host : Host σ κ} {start : Machine} {xs : List (Moment σ κ)}
    (h : Task.Course host start xs m) (hc : start.chain = c) (hp : Plain c.states start.current)
    (ho : owed = true ↔ Owes c f start.current) :
    m.chain = c ∧ Plain c.states m.current ∧
      Leads c f owed (xs.flatMap (·.trace host)) (Owes c f m.current) := by
  induction h with
  | start => exact ⟨hc, hp, owed, rfl, ho⟩
  | @resumed xs m m' n w w' g _ hrun o ih =>
    obtain ⟨hc, hp, hl⟩ := ih
    have ht := hl.halts fun o ho' => trace_halts hd hn hf host n (hp.steady hc) w ho'
    rw [hrun] at ht
    rw [List.flatMap_append, List.flatMap_singleton]
    exact ht.2

end

end Regions

/-- Every entered region runs its cleanup exactly once, whichever way it is left. An enumerator is
advanced and disposed of as its caller likes until it is exhausted; dropping it disposes of it. A
task is driven, under any token, until its future is settled. -/
theorem cleanup_runs_once {σ κ : Type} {m : Method} {limit : Nat} {c : Chain}
    (h : m.split limit = .ok (some c)) {f : StateId} {st : State} (hst : c.states[f]? = some st)
    (hf : st.exit = .endCleanup) (host : Host σ κ) (args : List Value) (w w' : World σ κ) :
    (∀ e es, Enumerator.create c args w = .ok (e, w') → e.Course host es →
      Alternate (c.passages f es)) ∧
    ∀ t token xs machine n v v' fresh, Task.create c args w = .ok (t, w') →
      Task.Driven host t.result { t.machine with token } xs machine →
      Task.drive host n machine t.result v = .ok () v' →
      v'.latest = some (.ends t.result fresh) →
      Alternate (c.passages f
        ((xs ++ Task.rounds host n machine t.result v).flatMap (·.trace host))) := by
  obtain ⟨kind, -, hc⟩ := m.exists_of_split h
  obtain ⟨C⟩ := Method.compiled hc
  have hd := C.disciplined
  have hcl : Regions.Cleans c.states f := ⟨st, hst, hf⟩
  have hkind : ∀ k, c.kind = k → ∀ k', k' ≠ k → ¬Regions.Pauses c k' := by
    rintro k rfl k' hne ⟨s, st, z, r, hs, hx, rfl⟩
    exact hne (m.pause_kind h hs hx)
  -- nothing is owed at the entry
  have hstart : false = true ↔ Regions.Owes c f Chain.entry := by
    rw [Regions.owes_of_plain hcl hd.entry]
    have he : c.enclosingCleanups Chain.entry = [] := hd.outside
    simp [he]
  constructor
  · intro e es hcreate hcourse
    obtain ⟨⟨m', w₁⟩, hm, he⟩ := Splitting.bind_eq_ok hcreate
    cases he
    obtain ⟨hk, -, rfl, -⟩ := Machine.create_ok hm
    refine (Regions.enumerator_course hd (fun _ _ => C.id_eq) hcl (hkind _ hk _ nofun) hcourse
      (fun _ hm => by cases hm; exact ⟨rfl, hd.entry⟩) ?_).alternate
    rw [hstart, Regions.owes_of_plain hcl hd.entry]
    simp
  · intro t token xs machine n v v' fresh hcreate hdriven hdrive hends
    obtain ⟨⟨m', w₁⟩, hm, he⟩ := Splitting.bind_eq_ok hcreate
    cases he
    obtain ⟨hk, -, rfl, -⟩ := Machine.create_ok hm
    obtain ⟨before, x, halt, w₂, hrounds, hrun, hlast⟩ := Task.exists_last_round hdrive
    obtain ⟨hchain, hplain, hleads⟩ := Regions.task_course hd (fun _ _ => C.id_eq) hcl
      (hdriven.course.rounds hrounds) rfl hd.entry hstart
    have hhalts := hleads.halts fun o ho => Regions.trace_halts hd (fun _ _ => C.id_eq) hcl host
      x.left (hplain.steady hchain) x.world ho
    rw [hrounds, ← List.append_assoc, List.flatMap_append, List.flatMap_singleton]
    rw [hrun] at hhalts
    cases halt with
    | awaiting g m₂ =>
      rw [hlast] at hends
      cases hends
    | yielded y m₂ => exact absurd hhalts.1 (hkind _ hk _ nofun)
    | completed | fault => exact Regions.Leads.alternate hhalts
    | timeout => exact hlast.elim

/-- A method that does something inside of a guarded block. Its cleanup calls a function. -/
def guarded (body : Stmt) : Method :=
  { name := "m", params := [],
    body := [.attempt {} [body] none (some [.eval {} (.call {} (.var {} "tally") [])])] }

/-- The chain, if the method pauses there and then goes on with the block. -/
def guardedChain (kind : Kind) (pause : Pause) (body : Block) : Chain :=
  { name := "m", kind,
    states :=
      [{ id := 0, exit := .goto 3 }, { id := 1, exit := .complete },
        { id := 2, body := [.eval {} (.call {} (.var {} "tally") [])], exit := .endCleanup },
        { id := 3, exit := .suspend pause 4, handler := some 0 },
        { id := 4, body, exit := .goto 5, handler := some 0 }, { id := 5, exit := .enter 2 1 }],
    handlers := [{ id := 0, cleanup := some 2 }] }

/-- A host that counts the calls of one function, and gives a future otherwise. -/
def tallyHost : Host Nat Unit :=
  { call := fun name _ w =>
      if name = "tally" then .ok (.ok .unit) { w with ext := w.ext + 1 }
      else .ok (.ok (.future 0)) w
    callback := fun _ o => pure o
    keeps := fun _ => [] }

/-- An enumerator stops at its only yield and is disposed of there. A task waits, and goes on when
the outcome comes. Both run their cleanup once, and the function is called once. -/
theorem guarded_cleanup_runs_once :
    let yields := guardedChain .iterator (.yield (.int {} 1)) []
    let first : Enumerator := { machine := some { chain := yields, home := 0 } }
    let paused : Enumerator :=
      { machine := some { chain := yields, home := 0, current := 4 }, current := some (.int 1) }
    let world : World Nat Unit := { storages := #[{ slots := [], holders := 1 }], ext := 0 }
    let awaits := guardedChain .async (.await (.call {} (.var {} "future") []))
      [.eval {} (.resume {})]
    let entry : Machine := { chain := awaits, home := 0 }
    let resumed : Machine := { entry with current := 4, resumption := some (.ok .unit) }
    let before : World Nat Unit := { world with futures := #[{}, {}] }
    Alternate (yields.passages 2
        (first.advancing tallyHost 10 world ++ (paused.disposing tallyHost 10 world ++ []))) ∧
      (lastly (paused.dispose tallyHost 10 world)).ext = 1 ∧
      Alternate (awaits.passages 2 (([] ++ Task.rounds tallyHost 10 entry 1 before ++
        Task.rounds tallyHost 10 resumed 1 before).flatMap (Moment.trace tallyHost))) ∧
      (lastly (Task.drive tallyHost 10 resumed 1 before)).ext = 1 := by
  intro yields first paused world awaits entry resumed before
  have hyields : (guarded (.yield {} (.int {} 1))).split 10 = .ok (some yields) := by
    decide +kernel
  have hawaits : (guarded (.eval {} (.await {} (.call {} (.var {} "future") [])))).split 10 =
      .ok (some awaits) := by decide +kernel
  have hcreate : Enumerator.create yields [] ({ ext := 0 } : World Nat Unit) =
      .ok (first, world) := by with_unfolding_all rfl
  have hadvance : first.advance tallyHost 10 world = .ok (.yielded (.int 1), paused) world := by
    with_unfolding_all rfl
  have hdispose : ∃ w, paused.dispose tallyHost 10 world = .ok (none, Enumerator.finished) w :=
    ⟨_, by with_unfolding_all rfl⟩
  have htask : Task.create awaits [] ({ futures := #[{}], ext := 0 } : World Nat Unit) =
      .ok (⟨entry, 1⟩, before) := by with_unfolding_all rfl
  have hparks : ∃ w, Task.Parks tallyHost 10 entry 1 before w 0 { entry with current := 4 } :=
    ⟨_, by with_unfolding_all rfl, by with_unfolding_all rfl, by with_unfolding_all rfl⟩
  let after := lastly (Task.drive tallyHost 10 resumed 1 before)
  have hdrive : Task.drive tallyHost 10 resumed 1 before = .ok () after := by decide +kernel
  have hends : after.latest = some (.ends 1 true) := by decide +kernel
  obtain ⟨_, hdispose⟩ := hdispose
  obtain ⟨_, hparks⟩ := hparks
  refine ⟨?_, by decide +kernel, ?_, by decide +kernel⟩
  · exact (cleanup_runs_once hyields (f := 2) rfl rfl tallyHost [] { ext := 0 } world).1 first _
      hcreate (.advance hadvance (.dispose hdispose (.spent rfl)))
  · exact (cleanup_runs_once hawaits (f := 2) rfl rfl tallyHost [] _ before).2 ⟨entry, 1⟩ none _ _
      10 before _ true htask (.resumed .start hparks (.ok .unit)) hdrive hends

end Resumable

import Resumable.Proofs.Tasks

namespace Resumable

open List

/-- A machine on its way: the steps it has left, and the world it finds. -/
structure Moment (σ κ : Type) where
  left : Nat
  machine : Machine
  world : World σ κ

variable {σ κ α : Type}

/-! The steps of a run. -/

namespace Machine

/-- The machine before its next step, unless it halts. -/
def onward (host : Host σ κ) (n : Nat) (m : Machine) (w : World σ κ) :
    Option (Machine × World σ κ) :=
  match m.step host n w with
  | (.next m', w') => some (m', w')
  | (.fault f m', w') => m'.handle f w'
  | _ => none

/-- The moments of a run, each before a step. -/
def moments (host : Host σ κ) : (n : Nat) → Machine → World σ κ → List (Moment σ κ)
  | 0, _, _ => []
  | n + 1, m, w =>
    ⟨n, m, w⟩ ::
      match m.onward host n w with
      | some (m', w') => moments host n m' w'
      | none => []

/-- What is noted in a run, moment by moment. -/
def along (g : Moment σ κ → List α) (host : Host σ κ) (n : Nat) (m : Machine) (w : World σ κ) :
    List α :=
  (m.moments host n w).flatMap g

variable {host : Host σ κ} {m m' m₁ : Machine} {w w' w₁ : World σ κ} {n : Nat}

theorem onward_next (h : m.step host n w = (.next m', w')) :
    m.onward host n w = some (m', w') := by
  rw [onward, h]

theorem onward_fault {f : Fault} (h : m.step host n w = (.fault f m₁, w₁)) :
    m.onward host n w = m₁.handle f w₁ := by
  rw [onward, h]

theorem run_onward (h : m.onward host n w = some (m', w')) :
    m.run host (n + 1) w = m'.run host n w' := by
  unfold onward at h
  split at h
  · rename_i hs
    cases h
    rw [run, hs]
  · rename_i hs
    rw [run, hs]
    simp only [h]
  · cases h

theorem along_onward (g : Moment σ κ → List α) (h : m.onward host n w = some (m', w')) :
    m.along g host (n + 1) w = g ⟨n, m, w⟩ ++ m'.along g host n w' := by
  rw [along, moments, h, flatMap_cons]
  rfl

theorem along_last (g : Moment σ κ → List α) (h : m.onward host n w = none) :
    m.along g host (n + 1) w = g ⟨n, m, w⟩ := by
  rw [along, moments, h, flatMap_cons]
  exact append_nil _

/-- Whatever is kept from one step to the next is true at every moment. -/
theorem moments_all {P : Machine → Prop}
    (hstep : ∀ {n m m'} {w w' : World σ κ}, m.onward host n w = some (m', w') → P m → P m')
    (hm : P m) : ∀ x ∈ m.moments host n w, P x.machine := by
  induction n generalizing m w with
  | zero => exact nofun
  | succ n ih =>
    intro x hx
    rcases mem_cons.mp hx with rfl | hx
    · exact hm
    · cases h : m.onward host n w with
      | none =>
        rw [h] at hx
        cases hx
      | some next =>
        rw [h] at hx
        exact ih (hstep h hm) x hx

/-- A run comes to the same from each of its moments. -/
theorem run_of_mem {x : Moment σ κ} (hx : x ∈ m.moments host n w) :
    m.run host n w = x.machine.run host (x.left + 1) x.world := by
  induction n generalizing m w with
  | zero => cases hx
  | succ n ih =>
    rcases mem_cons.mp hx with rfl | hx
    · rfl
    · cases h : m.onward host n w with
      | none =>
        rw [h] at hx
        cases hx
      | some next =>
        rw [h] at hx
        exact (run_onward h).trans (ih hx)

/-- A run halts at the last of its moments. -/
theorem exists_last (host : Host σ κ) (n : Nat) (m : Machine) (w : World σ κ) :
    (m.run host n w).1 = .timeout ∨
      ∃ x ∈ m.moments host n w, x.machine.onward host x.left x.world = none := by
  induction n generalizing m w with
  | zero => exact .inl rfl
  | succ n ih =>
    cases h : m.onward host n w with
    | none => exact .inr ⟨_, mem_cons_self, h⟩
    | some next =>
      rw [run_onward h]
      refine (ih next.1 next.2).imp_right fun ⟨x, hx, hnone⟩ => ⟨x, ?_, hnone⟩
      rw [moments, h]
      exact mem_cons_of_mem _ hx

end Machine

/-! The rounds of a task. -/

/-- What has happened last. -/
def World.latest (w : World σ κ) : Option Happening :=
  w.history.head?.map (·.happening)

/-- The last one that waits on a future. -/
def World.lastWaiting (w : World σ κ) (f : FutureId) : Option (Continuation κ) :=
  w.futures[f]?.bind (·.waiting.getLast?)

namespace Task

/-- The next round of a drive, if the machine has stopped at an await of a settled future. -/
def again (host : Host σ κ) (n : Nat) (m : Machine) (r : FutureId) (w : World σ κ) :
    Option (Machine × World σ κ) :=
  match m.run host n ((noteRun r m w).grasp [.future r]) with
  | (.awaiting f m', w') =>
    ((w'.letGo w.hands).outcome? f).map fun o =>
      ({ m' with resumption := some o }, w'.letGo w.hands)
  | _ => none

/-- The rounds of a drive. In each of them the machine runs until it stops. -/
def rounds (host : Host σ κ) : (n : Nat) → Machine → FutureId → World σ κ → List (Moment σ κ)
  | 0, _, _, _ => []
  | n + 1, m, r, w =>
    ⟨n, m, (noteRun r m w).grasp [.future r]⟩ ::
      match again host n m r w with
      | some (m', w') => rounds host n m' r w'
      | none => []

/-- A drive of the task ends with its machine waiting on a future. -/
structure Parks (host : Host σ κ) (n : Nat) (m : Machine) (r : FutureId) (w w' : World σ κ)
    (f : FutureId) (m' : Machine) : Prop where
  drives : drive host n m r w = .ok () w'
  latest : w'.latest = some (.waits r f)
  waits : w'.lastWaiting f = some (.resume m' r)

/-- From its start a task has been driven through these rounds, and is now to be driven on with this
machine. Whenever it has waited, it has been given some outcome, in some world. -/
inductive Driven (host : Host σ κ) (r : FutureId) (start : Machine) :
    List (Moment σ κ) → Machine → Prop where
  | start : Driven host r start [] start
  | resumed {xs : List (Moment σ κ)} {m m' : Machine} {n : Nat} {w w' : World σ κ} {f : FutureId}
      (h : Driven host r start xs m) (hp : Parks host n m r w w' f m') (o : Outcome) :
    Driven host r start (xs ++ rounds host n m r w) { m' with resumption := some o }

/-- The same of a machine that runs from one await to the next, in any world. -/
inductive Course (host : Host σ κ) (start : Machine) : List (Moment σ κ) → Machine → Prop where
  | start : Course host start [] start
  | resumed {xs : List (Moment σ κ)} {m m' : Machine} {n : Nat} {w w' : World σ κ} {f : FutureId}
      (h : Course host start xs m) (hrun : m.run host n w = (.awaiting f m', w')) (o : Outcome) :
    Course host start (xs ++ [⟨n, m, w⟩]) { m' with resumption := some o }

variable {host : Host σ κ} {start m m' : Machine} {w w' : World σ κ} {n : Nat} {f r : FutureId}
  {x : Moment σ κ} {xs before after : List (Moment σ κ)}

theorem again_some (h : again host n m r w = some (m', w')) : ∃ f m₁ w₁ o,
    m.run host n ((noteRun r m w).grasp [.future r]) = (.awaiting f m₁, w₁) ∧
      w' = w₁.letGo w.hands ∧ w'.outcome? f = some o ∧
      m' = { m₁ with resumption := some o } := by
  unfold again at h
  split at h
  · rename_i f m₁ w₁ hrun
    obtain ⟨o, ho, he⟩ := Option.map_eq_some_iff.mp h
    cases he
    exact ⟨f, m₁, w₁, o, hrun, rfl, ho, rfl⟩
  · cases h

theorem drive_again (h : again host n m r w = some (m', w')) :
    drive host (n + 1) m r w = drive host n m' r w' := by
  obtain ⟨f, m₁, w₁, o, hrun, rfl, ho, rfl⟩ := again_some h
  rw [drive_succ hrun, proceed_settled ho]

theorem hands_again (h : again host n m r w = some (m', w')) : w'.hands = w.hands := by
  obtain ⟨f, m₁, w₁, o, -, rfl, -⟩ := again_some h
  rfl

/-- A drive that ends has a last round, where its machine waits on a pending future or has come to
an end. -/
theorem exists_last_round (h : drive host n m r w = .ok () w') : ∃ before x halt w₁,
    rounds host n m r w = before ++ [x] ∧ x.machine.run host x.left x.world = (halt, w₁) ∧
      match halt with
      | .awaiting f m' => w' = ((w₁.letGo w.hands).suspend f m' r).record (.waits r f)
      | .timeout => False
      | _ => ∃ fresh, w'.latest = some (.ends r fresh) := by
  induction n generalizing m w with
  | zero => cases h
  | succ n ih =>
    cases hagain : again host n m r w with
    | some next =>
      rw [drive_again hagain] at h
      obtain ⟨before, x, halt, w₁, hx, hrun, hlast⟩ := ih h
      refine ⟨⟨n, m, (noteRun r m w).grasp [.future r]⟩ :: before, x, halt, w₁, ?_, hrun,
        hands_again hagain ▸ hlast⟩
      rw [rounds, hagain]
      exact congrArg (_ :: ·) hx
    | none =>
      rcases hrun : m.run host n ((noteRun r m w).grasp [.future r]) with ⟨halt, w₁⟩
      refine ⟨[], ⟨n, m, (noteRun r m w).grasp [.future r]⟩, halt, w₁, ?_, hrun, ?_⟩
      · rw [rounds, hagain]
        rfl
      rw [drive_succ hrun] at h
      have hfinish : ∀ {k m vs o} {v : World σ κ}, finish host k m vs r o v = .ok () w' →
          ∃ fresh, w'.latest = some (.ends r fresh) := by
        intro k m vs o v hf
        obtain ⟨_, fresh, _, -, -, rfl⟩ := finish_ok hf
        exact ⟨fresh, rfl⟩
      cases halt with
      | awaiting f m' =>
        rw [again, hrun] at hagain
        rw [proceed_pending (Option.map_eq_none_iff.mp hagain)] at h
        cases h
        rfl
      | completed v m' => exact hfinish h
      | fault g m' => exact hfinish h
      | yielded v m' => exact hfinish h
      | timeout => cases h

/-- Whoever waits at the end of a drive has stopped in its last round. -/
theorem Parks.last (h : Parks host n m r w w' f m') : ∃ before x w₁,
    rounds host n m r w = before ++ [x] ∧
      x.machine.run host x.left x.world = (.awaiting f m', w₁) := by
  obtain ⟨before, x, halt, w₁, hx, hrun, hlast⟩ := exists_last_round h.drives
  have hlatest := h.latest
  refine ⟨before, x, w₁, hx, ?_⟩
  cases halt with
  | awaiting g m₁ =>
    rw [hlast] at hlatest
    cases hlatest
    have hwaits := h.waits
    rw [hlast] at hwaits
    obtain ⟨cell, hcell, hlastly⟩ := Option.bind_eq_some_iff.mp hwaits
    change (w₁.futures.modify f _)[f]? = some cell at hcell
    rw [Array.getElem?_modify, if_pos rfl] at hcell
    obtain ⟨old, -, rfl⟩ := Option.map_eq_some_iff.mp hcell
    rw [getLast?_append, getLast?_singleton, Option.some_or] at hlastly
    cases hlastly
    exact hrun
  | timeout => exact hlast.elim
  | completed | fault | yielded =>
    obtain ⟨fresh, hends⟩ := hlast
    rw [hlatest] at hends
    cases hends

/-- A course goes on through the rounds of a drive. -/
theorem Course.rounds (h : Course host start xs m)
    (hx : Task.rounds host n m r w = before ++ x :: after) :
    Course host start (xs ++ before) x.machine := by
  induction n generalizing m w xs before with
  | zero => cases before <;> cases hx
  | succ n ih =>
    rw [Task.rounds] at hx
    cases before with
    | nil =>
      cases hx
      rw [append_nil]
      exact h
    | cons y before =>
      rw [cons_append, cons.injEq] at hx
      obtain ⟨rfl, hx⟩ := hx
      cases hagain : again host n m r w with
      | none =>
        rw [hagain] at hx
        cases before <;> cases hx
      | some next =>
        obtain ⟨m', w'⟩ := next
        rw [hagain] at hx
        obtain ⟨f, m₁, w₁, o, hrun, -, -, rfl⟩ := again_some hagain
        have hrest := ih (h.resumed hrun o) hx
        rwa [append_assoc] at hrest

/-- What happens when a task is driven is such a course. -/
theorem Driven.course (h : Driven host r start xs m) : Course host start xs m := by
  induction h with
  | start => exact .start
  | resumed h hp o ih =>
    obtain ⟨before, x, w₁, hx, hrun⟩ := hp.last
    have hcourse := ih.rounds hx
    rw [hx, ← append_assoc]
    exact hcourse.resumed hrun o

end Task

end Resumable

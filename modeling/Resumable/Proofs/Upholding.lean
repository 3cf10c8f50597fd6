import Resumable.Proofs.Discretion
import Resumable.Proofs.Later

namespace Resumable

open List

/-- What was true before is true afterwards, whichever way a computation ends. -/
def Upholds {ε τ α : Type} (Q : τ → Prop) (x : EStateM ε τ α) : Prop :=
  ∀ s, Q s → Q (lastly (x s))

namespace Upholds

variable {ε τ α β : Type} {Q : τ → Prop}

theorem pure (v : α) : Upholds Q (Pure.pure v : EStateM ε τ α) :=
  fun _ h => h

theorem throw (e : ε) : Upholds Q (MonadExcept.throw e : EStateM ε τ α) :=
  fun _ h => h

theorem modify {g : τ → τ} (hg : ∀ s, Q s → Q (g s)) :
    Upholds Q (modify g : EStateM ε τ PUnit) :=
  hg

/-- What the first part brings about, the second keeps. -/
theorem after {x : EStateM ε τ α} {f : α → EStateM ε τ β} {s : τ} (hx : Q (lastly (x s)))
    (hf : ∀ v, Upholds Q (f v)) : Q (lastly ((x >>= f) s)) := by
  show Q (lastly (EStateM.bind x f s))
  unfold EStateM.bind
  cases hr : x s with
  | ok v s' =>
    rw [hr] at hx
    exact hf v s' hx
  | error e s' =>
    rw [hr] at hx
    exact hx

theorem bind {x : EStateM ε τ α} {f : α → EStateM ε τ β} (hx : Upholds Q x)
    (hf : ∀ v, Upholds Q (f v)) : Upholds Q (x >>= f) :=
  fun s h => after (hx s h) hf

end Upholds

/-! What is true of tokens and futures. -/

variable {σ κ α : Type} {Q : World σ κ → Prop}

/-- It is a matter of tokens and futures alone. -/
def World.Lasting (Q : World σ κ → Prop) : Prop :=
  ∀ {w w' : World σ κ}, w'.tokens = w.tokens → w'.futures = w.futures → Q w → Q w'

theorem World.lasting_isCancelled (t : TokenId) :
    World.Lasting fun w : World σ κ => w.isCancelled t = true := by
  intro w w' ht _ h
  rw [isCancelled, ht]
  exact h

theorem World.lasting_outcome (f : FutureId) (o : Outcome) :
    World.Lasting fun w : World σ κ => w.outcome? f = some o := by
  intro w w' _ hf h
  rw [outcome?, hf]
  exact h

theorem Upholds.holding (hQ : World.Lasting Q) {x : Run σ κ α} (hx : Upholds Q x)
    (held : List (Holding κ)) : Upholds Q (World.holding held x) := by
  intro w hw
  have hr : Q (lastly (x (w.grasp held))) := hx _ (hQ (w := w) rfl rfl hw)
  unfold World.holding
  generalize x (w.grasp held) = r at hr
  cases r with
  | ok v w' => exact hQ (w := w') rfl rfl hr
  | error e w' => exact hQ (w := w') rfl rfl hr

/-- It stays true, whatever the host does in a call. -/
def Host.Upholds (host : Host σ κ) (Q : World σ κ → Prop) : Prop :=
  ∀ name args, Resumable.Upholds Q (host.call name args)

/-- No code makes it false if the host does not. -/
theorem Host.Upholds.bond {host : Host σ κ} (hQ : World.Lasting Q) (hh : host.Upholds Q) :
    World.Bond (fun _ => False) host host fun w w' => w = w' ∧ Q w where
  load := by
    rintro w _ ⟨rfl, -⟩ home k
    rfl
  status := by
    rintro w _ ⟨rfl, -⟩
    rfl
  closures := by
    rintro w _ ⟨rfl, -⟩
    rfl
  defect := by
    rintro w _ ⟨rfl, h⟩
    exact ⟨rfl, hQ (w := w) rfl rfl h⟩
  note := by
    rintro w _ ⟨rfl, h⟩ x
    exact ⟨rfl, hQ (w := w) rfl rfl h⟩
  store := by
    rintro w _ ⟨rfl, h⟩ home k v
    exact ⟨rfl, hQ (w := w) rfl rfl h⟩
  closure := by
    rintro w _ ⟨rfl, h⟩ k
    exact ⟨rfl, hQ (w := w) rfl rfl h⟩
  tokens := by
    rintro w _ ⟨rfl, -⟩
    rfl
  grasp := by
    rintro w _ ⟨rfl, h⟩ held
    exact ⟨rfl, hQ (w := w) rfl rfl h⟩
  letGo := by
    rintro w _ v _ ⟨rfl, -⟩ ⟨rfl, h⟩
    exact ⟨rfl, hQ (w := v) rfl rfl h⟩
  release := by
    rintro w _ ⟨rfl, h⟩ home
    exact ⟨rfl, hQ (w := w) rfl rfl h⟩
  call := by
    refine fun name args => ⟨fun _ => False.elim, ?_⟩
    rintro w _ ⟨rfl, h⟩
    refine .inr ?_
    have hr := hh name args w h
    generalize host.call name args w = r at hr
    cases r with
    | ok o v => exact .ok o ⟨rfl, hr⟩
    | error e v => exact .error e ⟨rfl, hr⟩
  start := by
    rintro w _ ⟨rfl, h⟩ home held held'
    refine .inr ⟨rfl, hQ (w := w) ?_ ?_ h⟩
    · show (World.callOver _ home).tokens = w.tokens
      unfold World.callOver World.visit
      split <;> split <;> rfl
    · show (World.callOver _ home).futures = w.futures
      unfold World.callOver World.visit
      split <;> split <;> rfl
  astray := False.elim

namespace Machine

variable {host : Host σ κ} {m m' : Machine} {w w' : World σ κ} {n : Nat}

theorem handle_upholds (hQ : World.Lasting Q) {f : Fault} (h : m.handle f w = some (m', w'))
    (hw : Q w) : Q w' := by
  unfold handle at h
  split at h
  · cases h
  · rename_i l _
    cases h
    cases l.slot with
    | none => exact hw
    | some k => exact hQ (w := w) rfl rfl hw
  · cases h
    exact hw

section

variable (hQ : World.Lasting Q) (hh : host.Upholds Q)
include hQ hh

theorem execute_upholds (home : StorageId) (st : State) {a : Activation σ κ} (h : Q a.world) :
    Q (lastly (execute host home n st a)).world := by
  have hr := (respects_execute (hh.bond hQ) home n st).agrees a a (.intro _ ⟨rfl, h⟩)
  generalize execute host home n st a = r at hr ⊢
  cases hr with
  | ok d h | error e h => exact h.world.2

theorem run_upholds (m : Machine) (hw : Q w) : Q (m.run host n w).2 := by
  have hr := (accord_runs (hh.bond hQ) n m).agrees w w ⟨rfl, hw⟩
  cases hr with
  | ok halt h => exact h.2

end

end Machine

/-! Futures that are settled. -/

/-- What has been settled stays so, whatever the host does. -/
structure Host.Faithful (host : Host σ κ) : Prop where
  call : ∀ f o, host.Upholds (·.outcome? f = some o)
  callback : ∀ f o key answer,
    Resumable.Upholds (fun w => w.outcome? f = some o) (host.callback key answer)

namespace Task

variable {host : Host σ κ} {f r : FutureId} {o : Outcome} {w : World σ κ}

section

variable (hh : host.Faithful)
include hh

/-- Whatever tasks do, what has been settled stays so. -/
theorem upholds_outcome (f : FutureId) (o : Outcome) (n : Nat) :
    (∀ g o', Upholds (·.outcome? f = some o) (settle host n g o')) ∧
    (∀ g o' ks, Upholds (·.outcome? f = some o) (deliver host n g o' ks)) ∧
    (∀ m r, Upholds (·.outcome? f = some o) (drive host n m r)) ∧
    ∀ m vs r o', Upholds (·.outcome? f = some o) (finish host n m vs r o') := by
  have hQ := @World.lasting_outcome σ κ f o
  induction n with
  | zero => exact ⟨fun _ _ => .throw _, fun _ _ _ => .throw _, fun _ _ => .throw _,
      fun _ _ _ _ => .throw _⟩
  | succ n ih =>
    obtain ⟨hsettle, hdeliver, hdrive, hfinish⟩ := ih
    refine ⟨fun g o' w hw => ?_, fun g o' ks => ?_, fun m r w hw => ?_, fun m vs r o' => ?_⟩
    · cases hs : w.settle? g o' with
      | none =>
        rw [settle_refused hs]
        exact hw
      | some p =>
        rw [settle_pending hs]
        exact ((hdeliver g o' p.1).bind fun _ => .pure true) p.2
          ((World.later_settle? hs).outcome hw)
    · cases ks with
      | nil => exact .pure ()
      | cons k ks =>
        cases k with
        | resume m r => exact (Upholds.holding hQ (hdrive _ r) _).bind fun _ => hdeliver g o' ks
        | callback key next =>
          have hcall := ((hh.callback f o key o').holding hQ [.future next]).bind fun answer =>
            (hsettle next answer).bind fun _ => .pure ()
          exact (Upholds.holding hQ hcall _).bind fun _ => hdeliver g o' ks
    · have hrun := Machine.run_upholds (n := n) hQ (hh.call f o) m
        (w := (noteRun r m w).grasp [.future r]) (hQ (w := w) rfl rfl hw)
      rcases hr : m.run host n ((noteRun r m w).grasp [.future r]) with ⟨halt, w₁⟩
      rw [hr] at hrun
      rw [drive_succ hr]
      have hback : (w₁.letGo w.hands).outcome? f = some o := hrun
      cases halt with
      | awaiting g m₁ =>
        simp only [proceed]
        cases (w₁.letGo w.hands).outcome? g with
        | some o' => exact hdrive _ r _ hback
        | none => exact (World.later_suspend _ g m₁ r).outcome hback
      | completed v m₁ => exact hfinish m₁ [] r _ _ hback
      | fault g m₁ => exact hfinish m₁ [] r _ _ hback
      | yielded v m₁ => exact hfinish m₁ [v] r _ _ hback
      | timeout => exact hback
    · exact (Upholds.holding hQ (hsettle r o') _).bind fun fresh =>
        .modify fun w hw => hQ (w := w) rfl rfl hw

/-- A pending future that is settled has its outcome from then on. -/
theorem settle_settles (hr : r < w.futures.size) (hp : w.outcome? r = none) (k : Nat)
    (o : Outcome) : (lastly (settle host (k + 1) r o w)).outcome? r = some o := by
  obtain ⟨cell, hcell⟩ : ∃ cell, w.futures[r]? = some cell := ⟨_, Array.getElem?_eq_getElem hr⟩
  have hnone : cell.outcome = none := by
    simpa [World.outcome?, hcell] using hp
  have hs := World.settle?_pending hcell hnone o
  rw [settle_pending hs]
  exact (((upholds_outcome hh r o k).2.1 r o _).bind fun _ => .pure true) _
    (World.outcome?_settle?_self hs)

/-- A task that finishes settles its future, if nobody has settled that before. -/
theorem finish_settles (hr : r < w.futures.size) (hp : w.outcome? r = none) (k : Nat)
    (m : Machine) (vs : List Value) (o : Outcome) :
    (lastly (finish host (k + 2) m vs r o w)).outcome? r = some o := by
  have hQ := @World.lasting_outcome σ κ r o
  have hs := settle_settles hh (w := w.grasp [.machine m, .values vs]) hr hp k o
  have hheld : (lastly (World.holding [.machine m, .values vs] (settle host (k + 1) r o)
      w)).outcome? r = some o := by
    unfold World.holding
    generalize settle host (k + 1) r o (w.grasp [.machine m, .values vs]) = x at hs
    cases x <;> exact hs
  rw [finish]
  refine Upholds.after (Q := fun w : World σ κ => w.outcome? r = some o) hheld fun fresh =>
    .modify ?_
  exact fun w hw => hQ (w := w) rfl rfl hw

end

end Task

end Resumable

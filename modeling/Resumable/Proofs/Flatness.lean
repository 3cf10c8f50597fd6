import Resumable.Proofs.Compaction
import Resumable.Proofs.Effects

namespace Resumable

open Eval Hoist List

namespace Hoist

variable (m : Manifest)

mutual

/-- Slots have nothing to do with jumps. -/
theorem escape_hoistStmt (d : Nat) (s : Stmt) : (hoistStmt m s).escape d = s.escape d := by
  match s with
  | .bind _ x e | .assign _ x e =>
    simp only [hoistStmt]
    split <;> rfl
  | .store _ _ e | .eval _ e | .throw _ e | .yield _ e | .ret _ none | .ret _ (some e)
  | .yieldBreak _ | .brk _ | .cont _ => rfl
  | .cond _ t a b => exact congrArg₂ Option.or (escape_hoistBlock d a) (escape_hoistBlock d b)
  | .loop _ t b => exact escape_hoistBlock (d + 1) b
  | .attempt mark b c f =>
    rw [hoistStmt_attempt, escape_attempt, escape_attempt, escape_hoistBlock d b,
      escape_hoistClause d c, escape_hoistCleanup d f]
  | .block _ b => exact escape_hoistBlock d b

theorem escape_hoistClause (d : Nat) (c : Option Catch) :
    clauseEscape d (hoistClause m c) = clauseEscape d c := by
  match c with
  | none => rfl
  | some (.mk _ b) => exact escape_hoistBlock d b

theorem escape_hoistCleanup (d : Nat) (f : Option Block) :
    cleanupEscape d (hoistCleanup m f) = cleanupEscape d f := by
  match f with
  | none => rfl
  | some b => exact escape_hoistBlock d b

theorem escape_hoistBlock (d : Nat) (ss : Block) :
    Stmt.escapeIn d (hoistBlock m ss) = Stmt.escapeIn d ss := by
  match ss with
  | [] => rfl
  | s :: ss => exact congrArg₂ Option.or (escape_hoistStmt d s) (escape_hoistBlock d ss)

end

end Hoist

/-- Whatever the slots of a manifest are, there is a number above them. -/
theorem Manifest.exists_slot_lt (m : Manifest) :
    ∃ size, Hoist.Below m size := by
  refine ⟨(m.vars.map fun v => v.2.slot).sum + 1, fun x k hk => Nat.lt_succ_of_le ?_⟩
  obtain ⟨v, hv, rfl⟩ := Option.map_eq_some_iff.mp hk
  exact le_sum_of_mem (mem_map_of_mem (mem_of_lookup hv))

/-- A statement that is left whole runs by itself, also with some of its variables in slots. -/
theorem Stmt.runs_of_whole {s t : Stmt} (hs : s.isSource true = true) (hf : s.isFlat = true)
    (ht : t = s ∨ ∃ m, t = hoistStmt m s) : ∃ size, t.runs true size false false = true := by
  have hruns := Stmt.runs_of_isFlat hs hf
  rcases ht with rfl | ⟨m, rfl⟩
  · exact ⟨0, hruns⟩
  · obtain ⟨size, hm⟩ := m.exists_slot_lt
    exact ⟨size, runs_hoistStmt hm false false s hruns⟩

/-- Inside so many loops, code without a jump out of them neither returns nor, if there are none,
breaks or continues. A statement that is left whole ends normally or by a fault, unless it runs out
of time; and only the host can be the one to raise the fault of a pause, in a call that this code
may come to. -/
theorem flatness_sound {σ κ : Type} (host : Host σ κ) (home : StorageId) (n : Nat) {s t : Stmt}
    (ht : t = s ∨ ∃ m, t = hoistStmt m s) (a : Activation σ κ) :
    (∀ d, s.escape d = none → ∀ e b, execStmt host home n t a = .error e b → ¬ e.Leaves d) ∧
      (s.isFlat = true → s.isSource true = true → ∀ I, host.Calm I → a.Calm I →
        ∀ e b, execStmt host home n t a = .error e b →
          e = .stop .timeout ∨ ∃ f, e = .stop (.fault f) ∧ (f.IsPause → host.Answers I f)) := by
  have hescape : ∀ d, t.escape d = s.escape d := by
    rcases ht with rfl | ⟨m, rfl⟩
    · exact fun _ => rfl
    · exact fun d => escape_hoistStmt m d s
  have hstays : ∀ d, s.escape d = none → ∀ e b,
      execStmt host home n t a = .error e b → ¬ e.Leaves d := by
    intro d hd e b hrun
    have hend := ((Setting.any host).keeps n).stmt home 0 false false t nofun a nofun
    simp only [Setting.any, hrun] at hend
    exact hend.2.1 d ((hescape d).trans hd)
  refine ⟨hstays, fun hflat hsource I hhost ha e b hrun => ?_⟩
  have hnone : s.escape 0 = none := by
    simp only [Stmt.isFlat, Bool.and_eq_true, Option.isNone_iff_eq_none] at hflat
    exact hflat.2
  obtain ⟨size, hruns⟩ := Stmt.runs_of_whole hsource hflat ht
  have hend := ((⟨host, True, I, fun _ => hhost⟩ : Setting σ κ).keeps n).stmt home size false false
    t (fun _ => hruns) a fun _ => ha
  simp only [hrun] at hend
  rcases hend.2.2 trivial with he | ⟨-, he⟩
  · exact .inl he
  · have hno := hstays 0 hnone e b hrun
    cases e with
    | stop s =>
      cases s with
      | timeout => exact .inl rfl
      | fault f => exact .inr ⟨f, rfl, he.2⟩
    | brk | cont => exact absurd rfl hno
    | ret v => exact absurd trivial hno

/-- A host with one answer to all calls. -/
def steadyHost (answer : Outcome) : Host Unit Unit :=
  .answering fun _ _ _ => (answer, ())

/-- What the evaluator says of a pause. -/
def pausing : Fault :=
  .internal "yield outside a lowered state"

/-- A world with one storage, which has one slot. -/
def oneSlot : World Unit Unit :=
  { storages := #[⟨[.unit], 1, none⟩], ext := () }

/-- A run in that world with that host. -/
def steadyRun (answer : Outcome) (s : Stmt) : EStateM.Result Exit (Activation Unit Unit) Unit :=
  execStmt (steadyHost answer) 0 20 s { world := oneSlot }

/-- The text of the internal fault that a run ends by. -/
def internalText? {τ : Type} : EStateM.Result Exit τ Unit → Option String
  | .error (.stop (.fault (.internal text))) _ => some text
  | _ => none

theorem eq_of_internalText? {τ : Type} {r : EStateM.Result Exit τ Unit} {text : String}
    (h : internalText? r = some text) :
    r = .error (.stop (.fault (.internal text))) (lastly r) := by
  unfold internalText? at h
  split at h
  · cases h
    rfl
  · cases h

/-- A loop that calls the host and is left by a jump, with a cleanup that calls a lambda. -/
def guardedLoop : Stmt :=
  .attempt {} [.loop {} (.bool {} true) [.eval {} (.call {} (.var {} "f") [.var {} "x"]), .brk {}]]
    none (some [.assign {} "x" (.call {} (.lambda {} ["y"] [.ret {} (some (.var {} "y"))])
      [.int {} 1])])

/-- The loop, with its variable in the slot, ends by the fault of a pause, and that is what the host
answers. -/
theorem guardedLoop_sound :
    (∃ b, steadyRun (.error pausing) (hoistStmt (({} : Manifest).insert "x" .shared) guardedLoop) =
        .error (.stop (.fault pausing)) b) ∧
      (steadyHost (.error pausing)).Answers (fun _ _ => True) pausing := by
  have htext : internalText? (steadyRun (.error pausing)
      (hoistStmt (({} : Manifest).insert "x" .shared) guardedLoop)) =
        some "yield outside a lowered state" := by decide +kernel
  have hrun := eq_of_internalText? htext
  have hhost : (steadyHost (.error pausing)).Calm fun _ _ => True := by
    intro name args w o w' _ hw _ hr
    cases hr
    exact ⟨nofun, hw, trivial⟩
  have hslots : oneSlot.Calm := by
    intro c hc v hv
    cases mem_singleton.mp hc
    cases mem_singleton.mp hv
    trivial
  obtain he | ⟨f, hf, hanswers⟩ := (flatness_sound _ 0 20 (.inr ⟨_, rfl⟩) _).2 (by decide +kernel)
    (by decide +kernel) (fun _ _ => True) hhost ⟨Frame.all_empty, hslots, trivial⟩ _ _ hrun
  · cases he
  · cases hf
    exact ⟨⟨_, hrun⟩, hanswers (.inl rfl)⟩

/-- The call of a lambda that ends an iteration. -/
def leavingCall : Stmt :=
  .eval {} (.call {} (.lambda {} [] [.yieldBreak {}]) [])

/-- To end an iteration is not to pause, and the lambda holds no other jump. Yet the evaluator
raises the fault of a pause, which this host never answers. -/
theorem leavingCall_stops :
    leavingCall.isFlat = true ∧ leavingCall.slots = [] ∧
      (Stmt.censusIn [.yieldBreak {}]).pauses = false ∧
      (∃ b, steadyRun (.ok .unit) leavingCall = .error (.stop (.fault pausing)) b) ∧
      ¬ ∃ name args w w', (steadyHost (.ok .unit)).call name args w = .ok (.error pausing) w' := by
  refine ⟨by decide +kernel, by decide +kernel, by decide +kernel,
    ⟨_, eq_of_internalText? (by decide +kernel)⟩, ?_⟩
  rintro ⟨name, args, w, w', h⟩
  cases h

end Resumable

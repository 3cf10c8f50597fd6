import Resumable.Machine

namespace Resumable

/-- Sources of futures: how one is made, and how an answer settles it, unless it was settled
before. -/
structure Sources (σ κ ι α : Type) where
  make : Run σ κ ι
  settle : ι → α → Run σ κ Bool

/-- Let a callback run when `f` is settled, at once if it is, and give the future for its answer.
If `f` is pending, someone has to wait. -/
def Sources.continueWith {σ κ ι α : Type} (sources : Sources σ κ ι α) (f : FutureId)
    (wait : ι → World σ κ → World σ κ) (callback : ι → Outcome → Run σ κ α) : Run σ κ ι := do
  let next ← sources.make
  match (← get).outcome? f with
  | none => modify (wait next)
  | some o =>
    let answer ← callback next o
    let _ ← sources.settle next answer
  return next

/-- Attach a callback of the host to a future. Another future, which someone is to settle, is for
its answer. -/
def Host.continueWith {σ κ : Type} (host : Host σ κ) (settle : FutureId → Outcome → Run σ κ Bool)
    (f : FutureId) (key : κ) : Run σ κ FutureId :=
  Sources.continueWith { make := modifyGet (·.addFuture none), settle } f
    (fun next => (·.await f (.callback key next))) fun next o =>
      World.holding [.future next, .outcome o] (host.callback key o)

/-- A task not yet started: its machine, and the future for its result. -/
structure Task where
  machine : Machine
  result : FutureId

namespace Task

variable {σ κ : Type}

def create (chain : Chain) (args : List Value) (w : World σ κ) : Except Fault (Task × World σ κ) :=
  do
    let (machine, w) ← Machine.create chain .async args w
    let (result, w) := w.addFuture none
    return (⟨machine, result⟩, w)

mutual

/-- Settle a future and run what waits on it. False when it was settled before. -/
def settle (host : Host σ κ) : (n : Nat) → FutureId → Outcome → Run σ κ Bool
  | 0, _, _ => throw ⟨⟩
  | n + 1, f, o => do
    match (← get).settle? f o with
    | none => return false
    | some (waiting, w) =>
      set w
      deliver host n f o waiting
      return true
termination_by structural n => n

/-- Hand the outcome of a future to continuations, one after another. -/
def deliver (host : Host σ κ) :
    (n : Nat) → FutureId → Outcome → List (Continuation κ) → Run σ κ Unit
  | 0, _, _, _ => throw ⟨⟩
  | _ + 1, _, _, [] => return ()
  | n + 1, f, o, .resume m result :: rest => do
    World.holding [.outcome o, .waiting f rest]
      (drive host n { m with resumption := some o } result)
    deliver host n f o rest
  | n + 1, f, o, .callback key next :: rest => do
    World.holding [.outcome o, .waiting f rest] do
      let answer ← World.holding [.future next] (host.callback key o)
      let _ ← settle host n next answer
    deliver host n f o rest
termination_by structural n => n

/-- Run a task until it has to wait or has settled its future. Its storage is released after
everything that waited on that future has run. -/
def drive (host : Host σ κ) : (n : Nat) → Machine → FutureId → Run σ κ Unit
  | 0, _, _ => throw ⟨⟩
  | n + 1, m, result => fun w =>
    let hands := w.hands
    let w := (w.grasp [.future result]).record (.runs result m.resumption)
    let (halt, w) := m.run host n w
    let w := w.letGo hands
    match halt with
    | .awaiting f m =>
      match w.outcome? f with
      | some o => drive host n { m with resumption := some o } result w
      | none => .ok () ((w.suspend f m result).record (.waits result f))
    | .completed v m => finish host n m [] result (.ok v) w
    | .fault f m => finish host n m [] result (.error f) w
    | .yielded v m =>
      finish host n m [v] result (.error (.internal "async chain yielded a value")) w.defect
    | .timeout => .error ⟨⟩ w
termination_by structural n => n

/-- Settle the future of a task and release its storage. -/
def finish (host : Host σ κ) :
    (n : Nat) → Machine → List Value → FutureId → Outcome → Run σ κ Unit
  | 0, _, _, _, _ => throw ⟨⟩
  | n + 1, m, rest, result, o => do
    let fresh ← World.holding [.machine m, .values rest] (settle host n result o)
    modify fun w => (w.release m.home).record (.ends result fresh)
termination_by structural n => n

end

/-- Start a task and give the future of its result. -/
def run (host : Host σ κ) (n : Nat) (t : Task) : Run σ κ FutureId := do
  drive host n t.machine t.result
  return t.result

/-- Create a task and start it; when it cannot be created, the future has the fault. -/
def start (host : Host σ κ) (n : Nat) (chain : Chain) (args : List Value) : Run σ κ FutureId := do
  match create chain args (← get) with
  | .ok (t, w) =>
    set w
    t.run host n
  | .error f =>
    let (result, w) := (← get).addFuture (some (.error f))
    set w
    return result

/-- Attach a callback to a future. -/
def continueWith (host : Host σ κ) (n : Nat) : FutureId → κ → Run σ κ FutureId :=
  host.continueWith (settle host n)

end Task

end Resumable

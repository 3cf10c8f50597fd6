import Resumable.Machine

namespace Resumable

structure Enumerator where
  /-- The paused method; none once exhausted. -/
  machine : Option Machine
  /-- The value yielded last. -/
  current : Option Value := none

/-- What an attempt to advance comes to. -/
inductive Advance where
  | yielded (v : Value)
  | done
  | exhausted
  | fault (f : Fault)

namespace Enumerator

variable {σ κ : Type}

def create (chain : Chain) (args : List Value) (w : World σ κ) :
    Except Fault (Enumerator × World σ κ) := do
  let (m, w) ← Machine.create chain .iterator args w
  return ({ machine := some m }, w)

/-- Nothing is left to come. -/
def finished : Enumerator := { machine := none }

def isExhausted (e : Enumerator) : Bool :=
  e.machine.isNone

/-- Run to the next yield. -/
def advance (host : Host σ κ) (n : Nat) (e : Enumerator) : Run σ κ (Advance × Enumerator) :=
  match e.machine with
  | none => return (.exhausted, e)
  | some m => fun w =>
    let hands := w.hands
    let (halt, w) := m.run host n (w.grasp [.values e.current.toList])
    let w := w.letGo hands
    match halt with
    | .yielded v m => .ok (.yielded v, { machine := some m, current := some v }) w
    | .completed .. => .ok (.done, finished) (w.release m.home)
    | .awaiting .. =>
      .ok (.fault (.internal "iterator chain awaited a future"), finished)
        (w.release m.home).defect
    | .fault f _ => .ok (.fault f, finished) (w.release m.home)
    | .timeout => .error ⟨⟩ w

/-- The next value or fault; none at the end. -/
def next (host : Host σ κ) (n : Nat) (e : Enumerator) : Run σ κ (Option Outcome × Enumerator) := do
  match ← e.advance host n with
  | (.yielded v, e) => return (some (.ok v), e)
  | (.fault f, e) => return (some (.error f), e)
  | (.done, e) | (.exhausted, e) => return (none, e)

/-- Stop early: the cleanups around the pause run, and the first fault in them is reported. -/
def dispose (host : Host σ κ) (n : Nat) (e : Enumerator) : Run σ κ (Option Fault × Enumerator) :=
  match e.machine with
  | none => return (none, e)
  | some m => do
    let fault ← m.unwind host n
    modify (·.release m.home)
    return (fault, finished)

end Enumerator

end Resumable

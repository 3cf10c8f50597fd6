import Resumable.Chain.Printer
import Resumable.Eval

namespace Resumable

/-- What the terminator of a state has decided. -/
inductive Departure where
  | goto (target : StateId)
  | yielded (v : Value) (resume : StateId)
  | awaiting (f : FutureId) (resume : StateId)
  | ret (v : Option Value) (target : Option StateId)
  | enter (cleanup after : StateId)
  | endCleanup
  | complete

/-- What one step comes to. -/
inductive Move where
  | next (m : Machine)
  | yielded (v : Value) (m : Machine)
  | awaiting (f : FutureId) (m : Machine)
  | completed (v : Value) (m : Machine)
  | fault (f : Fault) (m : Machine)
  | timeout

/-- Why a machine no longer runs. -/
inductive Halt where
  | yielded (v : Value) (m : Machine)
  | awaiting (f : FutureId) (m : Machine)
  | completed (v : Value) (m : Machine)
  | fault (f : Fault) (m : Machine)
  | timeout

namespace Machine

variable {σ κ : Type}

/-- The storage a chain starts with: its arguments in their slots, and unit elsewhere. -/
def slots (chain : Chain) (args : List Value) : List Value :=
  (chain.params.zip args).foldl (fun slots (k, v) => slots.set k v)
    (List.replicate chain.captures.size .unit)

/-- A machine at the entry of a chain, with storage of its own. -/
def create (chain : Chain) (kind : Kind) (args : List Value) (w : World σ κ) :
    Except Fault (Machine × World σ κ) :=
  if chain.kind ≠ kind then .error (.kindMismatch chain.name kind)
  else if args.length ≠ chain.params.length then
    .error (.arity chain.params.length args.length)
  else
    let (home, w) := w.addStorage (slots chain args)
    .ok ({ chain, home }, w.given home chain.params)

/-- Evaluate what a terminator needs. -/
def leave (host : Host σ κ) (home : StorageId) (n : Nat) (s : StateId) :
    Terminator → EvalM σ κ Departure
  | .goto t => return .goto t
  | .branch e a b => do
    let yes ← Eval.evalTest host home n e
    return .goto (if yes then a else b)
  | .suspend (.yield e) r => do
    let v ← Eval.evalExpr host home n e
    return .yielded v r
  | .suspend (.await e) r => do
    match ← Eval.evalExpr host home n e with
    | .future f => return .awaiting f r
    | v => Eval.raise (.notAwaitable v)
  | .ret none t => return .ret none t
  | .ret (some e) t => do
    let v ← Eval.evalExpr host home n e
    return .ret (some v) t
  | .enter c t => return .enter c t
  | .endCleanup => return .endCleanup
  | .complete => return .complete
  | .unreachable => Eval.broken ("entered unreachable state " ++ StateId.text s)

/-- Go where the terminator says; a cleanup that was never entered has nowhere to go. -/
def depart? (m : Machine) (s : StateId) : Departure → Option Move
  | .goto t => some (.next { m with current := t })
  | .yielded v r => some (.yielded v { m with current := r })
  | .awaiting f r => some (.awaiting f { m with current := r })
  | .ret v none => some (.completed (v.getD m.result) { m with result := .unit })
  | .ret v (some t) => some (.next { m with result := v.getD m.result, current := t })
  | .enter c t =>
    some (.next { m with pending := (c, .goOn t) :: m.pending.filter (·.1 != c), current := c })
  | .endCleanup =>
    let rest := { m with pending := m.pending.filter (·.1 != s) }
    (m.pending.lookup s).map fun
      | .goOn t => .next { rest with current := t }
      | .rethrow f => .fault f rest
  | .complete => some (.completed m.result { m with result := .unit })

/-- The state is a cleanup that has been entered, or leads into one. -/
def inCleanup (m : Machine) (s : State) : Bool :=
  (m.pending.lookup s.id).isSome ||
    match s.exit with
    | .enter .. => true
    | _ => false

def isCancelled (m : Machine) (w : World σ κ) : Bool :=
  m.token.any w.isCancelled

/-- Run the current state. -/
def step (host : Host σ κ) (n : Nat) (m : Machine) (w : World σ κ) : Move × World σ κ :=
  match m.chain.states[m.current]? with
  | none => (.fault (.internal ("no state " ++ StateId.text m.current)) m, w.defect)
  | some s =>
    let idle := { m with resumption := none }
    if !m.inCleanup s && m.isCancelled w then (.fault .cancelled idle, w)
    else
      let run : EvalM σ κ Departure := do
        Eval.execState host m.home n s.body
        leave host m.home n s.id s.exit
      let hands := w.hands
      match run { resumption := m.resumption, world := w.grasp [.machine idle] } with
      | .ok d a =>
        match idle.depart? s.id d with
        | some move => (move, a.world.letGo hands)
        | none =>
          let text := "finally state " ++ StateId.text s.id ++ " entered without a pending exit"
          (.fault (.internal text) idle, (a.world.letGo hands).defect)
      | .error (.fault f) a => (.fault f idle, a.world.letGo hands)
      | .error .timeout a => (.timeout, a.world.letGo hands)

/-- Where a fault goes: to the first handler, from inside out, with a clause or a cleanup. -/
inductive Rescue where
  | clause (c : Landing)
  | cleanup (s : StateId)

def rescue? : List Handler → Option Rescue
  | [] => none
  | h :: rest =>
    match h.clause, h.cleanup with
    | some c, _ => some (.clause c)
    | none, some s => some (.cleanup s)
    | none, none => rescue? rest

/-- Send a fault to the nearest handler of the current state; `none` when it escapes. -/
def handle (m : Machine) (f : Fault) (w : World σ κ) : Option (Machine × World σ κ) :=
  match rescue? (m.chain.covering m.current) with
  | none => none
  | some (.clause c) =>
    let w := match c.slot with
      | some k => w.store m.home k f.toValue
      | none => w
    some ({ m with current := c.entry }, w)
  | some (.cleanup s) =>
    let pending := (s, .rethrow f) :: m.pending.filter (·.1 != s)
    some ({ m with pending, current := s }, w)

/-- Run to the next pause, to the end, or until a fault escapes, in at most `n` steps. -/
def run (host : Host σ κ) : (n : Nat) → Machine → World σ κ → Halt × World σ κ
  | 0, _, w => (.timeout, w)
  | n + 1, m, w =>
    match m.step host n w with
    | (.next m, w) => run host n m w
    | (.yielded v m, w) => (.yielded v m, w)
    | (.awaiting f m, w) => (.awaiting f m, w)
    | (.completed v m, w) => (.completed v m, w)
    | (.timeout, w) => (.timeout, w)
    | (.fault f m, w) =>
      match m.handle f w with
      | some (m, w) => run host n m w
      | none => (.fault f m, w)

/-- Run the given cleanups one after another, whatever happens in them, and give the first
fault. -/
def runCleanups (host : Host σ κ) (n : Nat) (m : Machine) :
    List StateId → Option Fault → Run σ κ (Option Fault)
  | [], first => return first
  | s :: rest, first => fun w =>
    let body := m.chain.states[s]?.elim [] (·.body)
    let held := first.toList.flatMap (·.value?.toList)
    let hands := w.hands
    match Eval.execState host m.home n body
        { world := w.grasp [.values held, .machine m] } with
    | .ok () a => runCleanups host n m rest first (a.world.letGo hands)
    | .error (.fault f) a => runCleanups host n m rest (first.or (some f)) (a.world.letGo hands)
    | .error .timeout a => .error ⟨⟩ (a.world.letGo hands)

/-- Leave a paused machine for good: its cleanups run, innermost first. -/
def unwind (host : Host σ κ) (n : Nat) (m : Machine) : Run σ κ (Option Fault) :=
  runCleanups host n m (m.chain.enclosingCleanups m.current) none

end Machine

end Resumable

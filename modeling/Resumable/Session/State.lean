import Resumable.Enumerator
import Resumable.Session.Command
import Resumable.Task

namespace Resumable.Session

/-- What a session adds to the world. -/
structure State where
  chains : Named Chain := []
  scripts : Named (List Command) := []
  enumerators : Named Enumerator := []
  tasks : Named Task := []
  sources : Named FutureId := []
  futures : Named FutureId := []
  tokens : Named TokenId := []
  kept : Named Value := []
  counters : Named Nat := []
  /-- How many futures have been fetched without a name. -/
  fetched : Nat := 0
  log : Array Entry := #[]

/-- All that a session can still get at by a name. -/
def State.keeps (s : State) : List (Holding Callback) :=
  .values (s.kept.map (·.2)) :: s.sources.map (.future ·.2) ++ s.futures.map (.future ·.2) ++
    s.tasks.flatMap (fun (_, t) => [.machine t.machine, .future t.result]) ++
    s.enumerators.flatMap fun (_, e) =>
      .values e.current.toList :: e.machine.toList.map .machine

abbrev SessionWorld := World State Callback

abbrev SessionRun := Run State Callback

abbrev SessionHost := Host State Callback

def edit (f : State → State) : SessionRun Unit :=
  modify fun w => { w with ext := f w.ext }

def ask {α : Type} (f : State → α) : SessionRun α :=
  return f (← get).ext

def record (e : Entry) : SessionRun Unit :=
  edit fun s => { s with log := s.log.push e }

/-! Looks. -/

def view (w : SessionWorld) : Value → View
  | .unit => .unit
  | .bool b => .bool b
  | .int n => .int n
  | .str s => .str s
  | .closure _ params .. => .closure params
  | .future f => .future (w.status f)

def viewFault (w : SessionWorld) (f : Fault) : FaultView :=
  ⟨f, f.value?.map (view w)⟩

def viewOutcome (w : SessionWorld) : Outcome → OutcomeView
  | .ok v => .ok (view w v)
  | .error f => .error (viewFault w f)

/-! Named things. -/

def newFuture (outcome : Option Outcome) : SessionRun FutureId := do
  let (f, w) := (← get).addFuture outcome
  set w
  return f

/-- The future that the source of that name settles. -/
def sourceFuture (name : String) : SessionRun FutureId := do
  match (← ask (·.sources)).get? name with
  | some f => return f
  | none =>
    let f ← newFuture none
    edit fun s => { s with sources := s.sources.put name f }
    return f

/-- The future registered under a name, or else that of the source. -/
def namedFuture (name : String) : SessionRun FutureId := do
  match (← ask (·.futures)).get? name with
  | some f => return f
  | none => sourceFuture name

def register (name : String) (f : FutureId) : SessionRun Unit :=
  edit fun s => { s with futures := s.futures.put name f }

def namedToken (name : String) : SessionRun TokenId := do
  match (← ask (·.tokens)).get? name with
  | some t => return t
  | none =>
    let (t, w) := (← get).addToken
    set w
    edit fun s => { s with tokens := s.tokens.put name t }
    return t

def keptValue (name : String) : SessionRun Value := do
  return ((← ask (·.kept)).get? name).getD .unit

def keepValue (name : String) (v : Value) : SessionRun Unit :=
  edit fun s => { s with kept := s.kept.put name v }

mutual

def Arg.value : Arg → SessionRun Value
  | .unit => return .unit
  | .bool b => return .bool b
  | .int n => return .int n
  | .str s => return .str s
  | .future name => do
    let f ← namedFuture name
    return .future f
  | .ready v => do
    let v ← v.value
    let f ← newFuture (some (.ok v))
    return .future f
  | .failed fault => do
    let fault ← fault.fault
    let f ← newFuture (some (.error fault))
    return .future f
  | .kept name => keptValue name

def FaultArg.fault : FaultArg → SessionRun Fault
  | .thrown v => do
    let v ← v.value
    return .thrown v
  | .notAwaitable v => do
    let v ← v.value
    return .notAwaitable v
  | .plain f => return f

end

/-! Enumerators. One that runs has no name until it pauses again. -/

/-- Take an enumerator away from its name. -/
def takeEnumerator (name : String) : SessionRun (Option Enumerator) := do
  let found := (← ask (·.enumerators)).get? name
  edit fun s => { s with enumerators := s.enumerators.erase name }
  return found

/-- An enumerator that is dropped is disposed of, and nobody sees a fault. -/
def dropEnumerator (host : SessionHost) (n : Nat) (e : Enumerator) : SessionRun Unit := do
  let _ ← e.dispose host n

/-- Put an enumerator under a name; one that was there is dropped afterwards. -/
def putEnumerator (host : SessionHost) (n : Nat) (name : String) (e : Enumerator) :
    SessionRun Unit := do
  let old := (← ask (·.enumerators)).get? name
  edit fun s => { s with enumerators := s.enumerators.put name e }
  old.forM (dropEnumerator host n)

/-- Work with an enumerator while its name is unknown. -/
def withEnumerator (host : SessionHost) (n : Nat) (name : String)
    (work : Enumerator → SessionRun (Reply × Enumerator)) : SessionRun Reply := do
  match ← takeEnumerator name with
  | none => return .noSuchName
  | some e =>
    let (reply, e) ← work e
    putEnumerator host n name e
    return reply

end Resumable.Session

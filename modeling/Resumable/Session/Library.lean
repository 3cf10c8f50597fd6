import Resumable.Session.State

namespace Resumable.Session

/-- The names of all functions, in order. -/
def functions : List String :=
  ["boom", "cancel", "count", "debug", "do", "failed", "fetch", "get", "pull", "put", "ready",
    "record", "settle", "show", "start", "type"]

def showFunctions : String :=
  "Host \x7b functions: [" ++ Text.commas (functions.map Text.quote) ++ "] \x7d"

def throwText (s : String) : Outcome :=
  .error (.thrown (.str s))

/-- The faults that can be asked for by name. -/
def namedFault (name : String) : Fault :=
  match name with
  | "cancelled" => .cancelled
  | "type" => .typeError "custom type error"
  | "internal" => .internal "custom"
  | "unsettled" => .notSettled
  | s => .thrown (.str s)

/-- The next number of a counter, from zero on. -/
def count (name : String) : SessionRun Nat := do
  let k := ((← ask (·.counters)).get? name).getD 0
  edit fun s => { s with counters := s.counters.put name (k + 1) }
  return k

/-- The name of the next future fetched without one. -/
def nextFetch : SessionRun String := do
  let k ← ask (·.fetched)
  edit fun s => { s with fetched := k + 1 }
  return "p" ++ Nat.repr k

/-- Start a task of a chain known by name. -/
def startChain (host : SessionHost) (n : Nat) (chain : String) (args : List Value) :
    SessionRun (Option FutureId) := do
  match (← ask (·.chains)).get? chain with
  | none => return none
  | some c => some <$> Task.start host n c args

/-- Call a function. Those with a fixed number of arguments insist on it. -/
def callFunction (host : SessionHost) (n : Nat) (name : String) (args : List Value) :
    SessionRun Outcome := do
  match name, args with
  | "record", args =>
    for v in args do
      let w ← get
      record (.value (view w v))
    return .ok .unit
  | "ready", args =>
    let f ← newFuture (some (.ok (args.headD .unit)))
    return .ok (.future f)
  | "failed", args =>
    let f ← newFuture (some (.error (.thrown (args.headD .unit))))
    return .ok (.future f)
  | "fetch", args =>
    let name ← match args with
      | [] => nextFetch
      | v :: _ => pure v.text
    let f ← namedFuture name
    return .ok (.future f)
  | "settle", [name, v] =>
    let f ← sourceFuture name.text
    if ← Task.settle host n f (.ok v) then return .ok (.bool true)
    else return throwText "future already settled"
  | "cancel", [token] =>
    let t ← namedToken token.text
    modify (·.cancel t)
    return .ok .unit
  | "start", chain :: args =>
    match ← startChain host n chain.text args with
    | some f => return .ok (.future f)
    | none => return throwText ("no chain " ++ chain.text)
  | "pull", [name] =>
    match ← takeEnumerator name.text with
    | none => return .ok .unit
    | some e =>
      let (pulled, e) ← e.next host n
      let o := pulled.getD (.ok .unit)
      World.holding [.outcome o] (putEnumerator host n name.text e)
      return o
  | "put", [name, v] =>
    keepValue name.text v
    return .ok .unit
  | "get", [name] =>
    let v ← keptValue name.text
    return .ok v
  | "count", [name] =>
    let k ← count name.text
    return .ok (.int (Int64.ofNat k))
  | "type", [v] => return .ok (.str v.typeName)
  | "show", [v] => return .ok (.str v.text)
  | "debug", [v] => return .ok (.str (v.debug (← get).status))
  | "boom", [name] => return .error (namedFault name.text)
  | "settle", args | "put", args => return .error (.arity 2 args.length)
  | "cancel", args | "pull", args | "get", args | "count", args | "type", args | "show", args
  | "debug", args | "boom", args | "do", args | "start", args =>
    return .error (.arity 1 args.length)
  | name, _ => return .error (.undefinedFunction name)

end Resumable.Session

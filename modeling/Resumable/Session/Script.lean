import Resumable.Session.Library
import Resumable.Splitting.Method

namespace Resumable.Session

def replyFault (f : Fault) : SessionRun Reply := do
  return .fault (viewFault (← get) f)

def replyOutcome (o : Outcome) : SessionRun Reply := do
  return .outcome (viewOutcome (← get) o)

def replySettled (fresh : Bool) : Reply :=
  if fresh then .ok else .alreadySettled

/-- Pull at most `limit` values, up to the end. -/
def pullMany (host : SessionHost) (n : Nat) : (limit : Nat) → Enumerator →
    SessionRun (List OutcomeView × Enumerator)
  | 0, e => return ([], e)
  | limit + 1, e => do
    match ← e.next host n with
    | (none, e) => return ([], e)
    | (some o, e) =>
      let o := viewOutcome (← get) o
      let (os, e) ← pullMany host n limit e
      return (o :: os, e)

/-- What is said of each of several values. -/
def describe (w : SessionWorld) (vs : List Value) : List ValueInfo :=
  vs.map fun v =>
    { typeName := v.typeName, text := v.text, debug := v.debug w.status,
      equals := vs.map v.same }

def Command.exec (host : SessionHost) (n : Nat) : Command → SessionRun Reply
  | .enumerate name chain args => do
    match (← ask (·.chains)).get? chain with
    | none => return .noSuchName
    | some c =>
      let args ← args.mapM Arg.value
      match Enumerator.create c args (← get) with
      | .error f => replyFault f
      | .ok (e, w) =>
        set w
        putEnumerator host n name e
        return .ok
  | .advance name =>
    withEnumerator host n name fun e => do
      match ← e.advance host n with
      | (.yielded _, e) => return (.bool true, e)
      | (.done, e) => return (.bool false, e)
      | (.exhausted, e) => return (.exhausted, e)
      | (.fault f, e) => return (← replyFault f, e)
  | .current name => do
    match (← ask (·.enumerators)).get? name with
    | none => return .noSuchName
    | some e =>
      match e.current with
      | none => return .none
      | some v => return .some (view (← get) v)
  | .exhausted name => do
    match (← ask (·.enumerators)).get? name with
    | none => return .noSuchName
    | some e => return .bool e.isExhausted
  | .dispose name =>
    withEnumerator host n name fun e => do
      match ← e.dispose host n with
      | (none, e) => return (.ok, e)
      | (some f, e) => return (← replyFault f, e)
  | .next name =>
    withEnumerator host n name fun e => do
      match ← e.next host n with
      | (none, e) => return (.none, e)
      | (some o, e) => return (← replyOutcome o, e)
  | .collect name limit =>
    withEnumerator host n name fun e => do
      let (os, e) ← pullMany host n limit e
      return (.outcomes os, e)
  | .drop name => do
    match ← takeEnumerator name with
    | none => return .bool false
    | some e =>
      dropEnumerator host n e
      return .bool true
  | .source name => do
    let f ← newFuture none
    edit fun s => { s with sources := s.sources.put name f }
    return .ok
  | .succeed name v => do
    let v ← v.value
    let f ← sourceFuture name
    return replySettled (← Task.settle host n f (.ok v))
  | .fail name cause => do
    let cause ← cause.fault
    let f ← sourceFuture name
    return replySettled (← Task.settle host n f (.error cause))
  | .value name v => do
    let v ← v.value
    let f ← newFuture (some (.ok v))
    register name f
    return .ok
  | .fault name cause => do
    let cause ← cause.fault
    let f ← newFuture (some (.error cause))
    register name f
    return .ok
  | .never name => do
    let f ← newFuture none
    register name f
    return .ok
  | .status name => do
    let f ← namedFuture name
    return .text ((← get).status f).text
  | .settled name => do
    let f ← namedFuture name
    return .bool ((← get).outcome? f).isSome
  | .result name => do
    let f ← namedFuture name
    replyOutcome (((← get).outcome? f).getD (.error .notSettled))
  | .outcome name => do
    let f ← namedFuture name
    match (← get).outcome? f with
    | none => return .none
    | some o => replyOutcome o
  | .showFuture name => do
    let f ← namedFuture name
    return .text ("Future \x7b status: " ++ ((← get).status f).text ++ " \x7d")
  | .same name other => do
    let f ← namedFuture name
    let g ← namedFuture other
    return .bool (f == g)
  | .attach name (.mk target commands answer) => do
    let f ← namedFuture name
    let g ← Task.continueWith host n f (.mk target commands answer)
    register target g
    return .ok
  | .start name chain args => do
    let args ← args.mapM Arg.value
    match ← startChain host n chain args with
    | none => return .noSuchName
    | some f =>
      register name f
      return .text ((← get).status f).text
  | .task name chain args => do
    match (← ask (·.chains)).get? chain with
    | none => return .noSuchName
    | some c =>
      let args ← args.mapM Arg.value
      match Task.create c args (← get) with
      | .error f => replyFault f
      | .ok (t, w) =>
        set w
        register name t.result
        edit fun s => { s with tasks := s.tasks.put name t }
        return .ok
  | .withToken name token => do
    match (← ask (·.tasks)).get? name with
    | none => return .noSuchName
    | some t =>
      let token ← namedToken token
      let t := { t with machine := { t.machine with token := some token } }
      edit fun s => { s with tasks := s.tasks.put name t }
      return .ok
  | .run name => do
    match (← ask (·.tasks)).get? name with
    | none => return .noSuchName
    | some t =>
      edit fun s => { s with tasks := s.tasks.erase name }
      let f ← t.run host n
      let g ← namedFuture name
      return .ran ((← get).status f) (f == g)
  | .cancel token => do
    let t ← namedToken token
    modify (·.cancel t)
    return .ok
  | .cancelled token => do
    let t ← namedToken token
    return .bool ((← get).isCancelled t)
  | .call function args => do
    let args ← args.mapM Arg.value
    replyOutcome (← World.holding [.values args] (host.call function args))
  | .has function => return .bool (functions.contains function)
  | .showHost => return .text showFunctions
  | .keep name v => do
    let v ← v.value
    keepValue name v
    return .ok
  | .values vs => do
    let vs ← vs.mapM Arg.value
    return .values (describe (← get) vs)
  | .inspect cause => do
    let first ← cause.fault
    let second ← cause.fault
    let w ← get
    return .inspected (viewFault w first) (view w first.toValue) (first.debug w.status)
      (first.same second)

/-- Run commands and write down what each of them answers. -/
def runCommands (host : SessionHost) (n : Nat) : List Command → SessionRun Unit
  | [] => return ()
  | c :: cs => do
    let r ← c.exec host n
    record (.reply r)
    runCommands host n cs

/-- What a callback answers. -/
def Answer.outcome (o : Outcome) : Answer → SessionRun Outcome
  | .pass => return o
  | .append s =>
    match o with
    | .ok v => return .ok (.str (v.text ++ s))
    | .error f => return .error f
  | .value v => do
    let v ← v.value
    return .ok v
  | .fail fault => do
    let fault ← fault.fault
    return .error fault
  | .caught =>
    match o with
    | .ok v => return .ok v
    | .error f => return .ok f.toValue

/-- Run a callback: it writes down the outcome, runs its commands and answers. -/
def Callback.exec (host : SessionHost) (n : Nat) (o : Outcome) : Callback → SessionRun Outcome
  | .mk name commands answer => do
    record (.callback name (viewOutcome (← get) o))
    runCommands host n commands
    answer.outcome o

/-- The functions of the session, nested no deeper than `n`. -/
def host : (n : Nat) → SessionHost
  | 0 =>
    { call := fun _ _ => throw ⟨⟩
      callback := fun _ _ => throw ⟨⟩
      keeps := State.keeps }
  | n + 1 =>
    { call := fun name args =>
        match name, args with
        | "do", [script] => do
          match (← ask (·.scripts)).get? script.text with
          | none => return throwText "no script"
          | some commands =>
            runCommands (host n) n commands
            return .ok .unit
        | name, args => callFunction (host n) n name args
      callback := fun callback o => callback.exec (host n) n o
      keeps := State.keeps }

/-- What a command of the session answered, and what was written down meanwhile. -/
structure Report where
  reply : Reply
  log : List Entry

/-- What has been written down since the last time. -/
def takeLog : SessionRun (List Entry) := do
  let log ← ask (·.log)
  edit fun s => { s with log := #[] }
  return log.toList

/-- Run the commands of a session one by one. -/
def runAll (n : Nat) : List Command → SessionRun (List Report)
  | [] => return []
  | c :: cs => do
    let reply ← c.exec (host n) n
    let log ← takeLog
    let rest ← runAll n cs
    return ⟨reply, log⟩ :: rest

/-- Drop the enumerator with the first name, as long as there is one. -/
def dropAll : (n : Nat) → SessionRun Unit
  | 0 => throw ⟨⟩
  | n + 1 => do
    match (← ask (·.enumerators)).sorted with
    | [] => return ()
    | (name, e) :: _ =>
      edit fun s => { s with enumerators := s.enumerators.erase name }
      dropEnumerator (host n) n e
      dropAll n

/-- End a session: the enumerators left are dropped in the order of their names, and so are those
that come up meanwhile. -/
def close (n : Nat) : SessionRun (List Entry) := do
  dropAll n
  takeLog

/-- A whole session; none when the steps do not suffice. -/
def run (n : Nat) (chains : Named Chain) (scripts : Named (List Command))
    (commands : List Command) : Option (List Report × List Entry) :=
  let session : SessionRun (List Report × List Entry) := do
    let reports ← runAll n commands
    let rest ← close n
    return (reports, rest)
  match session { ext := { chains, scripts } } with
  | .ok r _ => some r
  | .error _ _ => none

/-- Enough steps for every session that ends in reasonable time. -/
def plenty : Nat := 1000000000000000000

/-- Evaluate an expression after some statements: they make a method that yields the value of the
expression, and it is pulled once. -/
def evaluate (n : Nat) (body : Block) (e : Expr) :
    Except SplitError (Option (Option OutcomeView × List Entry)) := do
  let m : Method := { name := "eval", params := [], body := body ++ [.yield {} e] }
  match ← m.split defaultLimit with
  | none => return none
  | some chain =>
    let once : SessionRun (Option OutcomeView × List Entry) := do
      match Enumerator.create chain [] (← get) with
      | .error f =>
        let w ← get
        return (some (.error (viewFault w f)), [])
      | .ok (e, w) =>
        set w
        let (o, _) ← e.next (host n) n
        let w ← get
        let log ← takeLog
        return (o.map (viewOutcome w), log)
    match once { ext := {} } with
    | .ok r _ => return some r
    | .error _ _ => return none

end Resumable.Session

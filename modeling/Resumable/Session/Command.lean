import Resumable.Fault

namespace Resumable.Session

mutual

/-- A value as it is written in a command. -/
inductive Arg where
  | unit
  | bool (b : Bool)
  | int (n : Int64)
  | str (s : String)
  /-- The future of that name. -/
  | future (name : String)
  /-- A new future that has succeeded. -/
  | ready (v : Arg)
  /-- A new future that has faulted. -/
  | failed (f : FaultArg)
  /-- The value kept under that name, or unit. -/
  | kept (name : String)

/-- A fault as it is written in a command. -/
inductive FaultArg where
  | thrown (v : Arg)
  | notAwaitable (v : Arg)
  /-- A fault that carries no value. -/
  | plain (f : Fault)

end

/-- What a callback answers, given the outcome it was called with. -/
inductive Answer where
  /-- The outcome itself. -/
  | pass
  /-- The text of a value with something after it; a fault unchanged. -/
  | append (s : String)
  | value (v : Arg)
  | fail (f : FaultArg)
  /-- The value, or what a catch clause would receive. -/
  | caught

mutual

inductive Command where
  | enumerate (name chain : String) (args : List Arg)
  | advance (name : String)
  | current (name : String)
  | exhausted (name : String)
  | dispose (name : String)
  | next (name : String)
  | collect (name : String) (limit : Nat)
  | drop (name : String)
  | source (name : String)
  | succeed (name : String) (v : Arg)
  | fail (name : String) (f : FaultArg)
  | value (name : String) (v : Arg)
  | fault (name : String) (f : FaultArg)
  | never (name : String)
  | status (name : String)
  | settled (name : String)
  | result (name : String)
  | outcome (name : String)
  | showFuture (name : String)
  | same (name other : String)
  | attach (name : String) (callback : Callback)
  | start (name chain : String) (args : List Arg)
  | task (name chain : String) (args : List Arg)
  | withToken (name token : String)
  | run (name : String)
  | cancel (token : String)
  | cancelled (token : String)
  | call (function : String) (args : List Arg)
  | has (function : String)
  | showHost
  | keep (name : String) (v : Arg)
  | values (vs : List Arg)
  | inspect (f : FaultArg)

/-- What runs when a future is settled: commands, and then an answer for the future `name`. -/
inductive Callback where
  | mk (name : String) (commands : List Command) (answer : Answer)

end

/-- A value as it looks at some moment. -/
inductive View where
  | unit
  | bool (b : Bool)
  | int (n : Int64)
  | str (s : String)
  | closure (params : List String)
  | future (s : Status)

/-- A fault and the look of the value it carries. -/
structure FaultView where
  fault : Fault
  value : Option View

abbrev OutcomeView := Except FaultView View

/-- What is said of one of several values: its kind, its texts, and which of them equal it. -/
structure ValueInfo where
  typeName : String
  text : String
  debug : String
  equals : List Bool

inductive Reply where
  | ok
  | bool (b : Bool)
  | text (s : String)
  | none
  | some (v : View)
  | outcome (o : OutcomeView)
  | outcomes (os : List OutcomeView)
  | fault (f : FaultView)
  | ran (s : Status) (same : Bool)
  | values (infos : List ValueInfo)
  | inspected (f : FaultView) (caught : View) (debug : String) (equal : Bool)
  /-- The enumerator has nothing left. -/
  | exhausted
  /-- The source was settled before. -/
  | alreadySettled
  | noSuchName

/-- What a session writes down as it goes. -/
inductive Entry where
  | value (v : View)
  | callback (name : String) (o : OutcomeView)
  | reply (r : Reply)

end Resumable.Session

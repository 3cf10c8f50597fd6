import Resumable.Chain.Basic
import Resumable.Splitting.Error
import Resumable.Syntax.Printer

namespace Resumable

def StateId.text (s : StateId) : String :=
  "s" ++ Nat.repr s

def HandlerId.text (h : HandlerId) : String :=
  "h" ++ Nat.repr h

def Pause.text : Pause → String
  | .yield e => "yield " ++ e.text
  | .await e => "await " ++ e.text

def Terminator.text : Terminator → String
  | .goto t => "goto " ++ StateId.text t
  | .branch e a b => "branch " ++ e.text ++ " ? " ++ StateId.text a ++ " : " ++ StateId.text b
  | .suspend p r => p.text ++ " -> " ++ StateId.text r
  | .ret v t =>
    "return" ++ (v.elim "" fun e => " " ++ e.text) ++ (t.elim "" fun s => " -> " ++ StateId.text s)
  | .enter c t => "enter finally " ++ StateId.text c ++ " then " ++ StateId.text t
  | .endCleanup => "end finally"
  | .complete => "complete"
  | .unreachable => "unreachable"

def Origin.text : Origin → String
  | .parameter => "param"
  | .caught => "catch"
  | .shared => "local"

def Captured.text (v : Captured) : String :=
  Slot.text v.slot ++ " = " ++ v.name ++ " (" ++ v.origin.text ++ ")"

def Handler.text (h : Handler) : String :=
  HandlerId.text h.id ++ ":" ++
    (h.clause.elim "" fun c => " catch -> " ++ StateId.text c.entry) ++
    (h.cleanup.elim "" fun s => " finally " ++ StateId.text s) ++
    (h.parent.elim "" fun p => " in " ++ HandlerId.text p)

def State.heading (s : State) : String :=
  StateId.text s.id ++ (s.handler.elim "" fun h => " [" ++ HandlerId.text h ++ "]") ++ ":"

def State.lines (s : State) : List String :=
  ("  " ++ s.heading) :: s.body.map (fun stmt => "    " ++ stmt.text) ++ ["    " ++ s.exit.text]

def Chain.lines (c : Chain) : List String :=
  ("chain " ++ c.name ++ " (" ++ c.kind.text ++ ", " ++ Nat.repr c.states.length ++ " states)") ::
    c.captures.toList.map (fun v => "  " ++ v.text) ++
    c.handlers.map (fun h => "  " ++ h.text) ++
    c.states.flatMap State.lines

def Chain.text (c : Chain) : String :=
  String.join (c.lines.map (· ++ "\n"))

end Resumable

import Resumable.Named
import Resumable.Suspension
import Resumable.Syntax.Equality

namespace Resumable

abbrev StateId := Nat

abbrev HandlerId := Nat

/-- The two ways to pause: hand out a value, or wait for a future. -/
inductive Pause where
  | yield (e : Expr)
  | await (e : Expr)
  deriving DecidableEq

/-- How control leaves a state. -/
inductive Terminator where
  | goto (target : StateId)
  | branch (test : Expr) (yes no : StateId)
  | suspend (pause : Pause) (resume : StateId)
  /-- Keep the value as the result and go to the target; without a target, finish. -/
  | ret (value : Option Expr) (target : Option StateId)
  /-- Run `cleanup` and go to `after` when it ends. -/
  | enter (cleanup after : StateId)
  /-- End of a cleanup: go where it was entered for, or raise the fault it was entered with. -/
  | endCleanup
  | complete
  /-- A state under construction, or one that nothing leads to. -/
  | unreachable
  deriving DecidableEq

namespace Terminator

/-- The states named by a terminator, in order. -/
def successors : Terminator → List StateId
  | .goto t => [t]
  | .branch _ a b => [a, b]
  | .suspend _ r => [r]
  | .ret _ t => t.toList
  | .enter f t => [f, t]
  | .endCleanup | .complete | .unreachable => []

/-- The states where control can end up for good; a cleanup on the way is not one of them. -/
def exits : Terminator → List StateId
  | .enter _ t => [t]
  | t => t.successors

/-- Redirect the exits. -/
def mapExits (f : StateId → StateId) : Terminator → Terminator
  | .goto t => .goto (f t)
  | .branch e a b => .branch e (f a) (f b)
  | .suspend p r => .suspend p (f r)
  | .ret v t => .ret v (t.map f)
  | .enter c t => .enter c (f t)
  | t => t

/-- Renumber every state named. -/
def mapStates (f : StateId → StateId) : Terminator → Terminator
  | .enter c t => .enter (f c) (f t)
  | t => t.mapExits f

/-- Change the expression that the terminator evaluates. -/
def mapExpr (f : Expr → Expr) : Terminator → Terminator
  | .branch e a b => .branch (f e) a b
  | .suspend (.yield e) r => .suspend (.yield (f e)) r
  | .suspend (.await e) r => .suspend (.await (f e)) r
  | .ret v t => .ret (v.map f) t
  | t => t

/-- The expression that the terminator evaluates, if any. -/
def expr? : Terminator → Option Expr
  | .branch e _ _ | .suspend (.yield e) _ | .suspend (.await e) _ => some e
  | .ret v _ => v
  | _ => none

def isSuspension : Terminator → Bool
  | .suspend .. => true
  | _ => false

def isComplete : Terminator → Bool
  | .complete => true
  | _ => false

def isUnreachable : Terminator → Bool
  | .unreachable => true
  | _ => false

end Terminator

/-- A run of statements up to the next pause or jump, and the handler that covers it. -/
structure State where
  id : StateId
  body : Block := []
  exit : Terminator := .unreachable
  handler : Option HandlerId := none
  deriving DecidableEq

/-- Where a caught fault goes on, and the slot that receives its value. -/
structure Landing where
  entry : StateId
  binding : Option String := none
  slot : Option Slot := none
  deriving DecidableEq, Repr

/-- What covers the states of a guarded block. -/
structure Handler where
  id : HandlerId
  clause : Option Landing := none
  cleanup : Option StateId := none
  parent : Option HandlerId := none
  deriving DecidableEq, Repr

/-- Why a variable has a slot: the caller sets it, a caught fault sets it, or several states
share it. -/
inductive Origin where
  | parameter | caught | shared
  deriving DecidableEq, Inhabited, Repr

structure Captured where
  slot : Slot
  name : String
  origin : Origin
  deriving DecidableEq, Repr

/-- The variables with a slot, in the order in which they came. -/
structure Manifest where
  vars : Named Captured := []
  deriving DecidableEq, Repr

namespace Manifest

def size (m : Manifest) : Nat :=
  m.vars.length

def find? (m : Manifest) (name : String) : Option Captured :=
  m.vars.get? name

def slotOf? (m : Manifest) (name : String) : Option Slot :=
  (m.find? name).map (·.slot)

/-- The variable at a place in the list. -/
def get? (m : Manifest) (k : Slot) : Option Captured :=
  m.vars[k]?.map (·.2)

def toList (m : Manifest) : List Captured :=
  m.vars.map (·.2)

/-- Give `name` the next slot, unless it already has one. -/
def insert (m : Manifest) (name : String) (origin : Origin) : Manifest :=
  match m.find? name with
  | some _ => m
  | none => ⟨m.vars ++ [(name, ⟨m.size, name, origin⟩)]⟩

theorem insert_of_some (m : Manifest) {name : String} {v : Captured} (origin : Origin)
    (h : m.find? name = some v) : m.insert name origin = m := by
  simp [insert, h]

def insertAll (m : Manifest) (names : List String) (origin : Origin) : Manifest :=
  names.foldl (·.insert · origin) m

/-- The same variables under the same names, whatever their order. -/
def sameVars (m n : Manifest) : Bool :=
  m.size == n.size && m.vars.all fun (name, v) => n.find? name == some v

end Manifest

/-- A method split into states. -/
structure Chain where
  name : String
  kind : Kind
  states : List State
  handlers : List Handler
  captures : Manifest := {}
  params : List Slot := []
  deriving DecidableEq

/-- The state where every chain starts. -/
def Chain.entry : StateId := 0

/-- The handlers met from `h` outwards, at most `n` of them. -/
def Handler.outward (handlers : List Handler) : Nat → Option HandlerId → List Handler
  | n + 1, some h =>
    match handlers[h]? with
    | some handler => handler :: outward handlers n handler.parent
    | none => []
  | _, _ => []

namespace Chain

/-- The handlers that cover a state, innermost first. -/
def covering (c : Chain) (s : StateId) : List Handler :=
  Handler.outward c.handlers c.handlers.length (c.states[s]?.bind (·.handler))

/-- The cleanups that cover a state, innermost first. -/
def enclosingCleanups (c : Chain) (s : StateId) : List StateId :=
  (c.covering s).filterMap (·.cleanup)

/-- The number of states that end in a pause. -/
def suspensions (c : Chain) : Nat :=
  c.states.countP (·.exit.isSuspension)

end Chain

end Resumable

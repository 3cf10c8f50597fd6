import Resumable.Chain.Basic

namespace Resumable

structure Draft where
  states : List State := [{ id := 0 }]
  handlers : List Handler := []
  /-- The open state. -/
  current : StateId := 0
  /-- The handler of the states created next. -/
  handler : Option HandlerId := none
  /-- The names bound by the catch clauses split so far. -/
  caught : List String := []

namespace Draft

/-- The place of the next state created. -/
def nextId (d : Draft) : Nat :=
  d.states.length

/-- A new state covered by `h`. -/
def createIn (d : Draft) (h : Option HandlerId) : StateId × Draft :=
  (d.nextId, { d with states := d.states ++ [{ id := d.nextId, handler := h }] })

/-- A new state covered by the handler now set. -/
def create (d : Draft) : StateId × Draft :=
  d.createIn d.handler

def switchTo (d : Draft) (s : StateId) : Draft :=
  { d with current := s }

def setHandler (d : Draft) (h : Option HandlerId) : Draft :=
  { d with handler := h }

def addHandler (d : Draft) (cleanup : Option StateId) (parent : Option HandlerId) :
    HandlerId × Draft :=
  (d.handlers.length,
    { d with handlers := d.handlers ++ [{ id := d.handlers.length, cleanup, parent }] })

def setClause (d : Draft) (h : HandlerId) (clause : Option Landing) : Draft :=
  { d with handlers := d.handlers.modify h fun handler => { handler with clause } }

/-- Set how a state is left. -/
def setExit (d : Draft) (s : StateId) (t : Terminator) : Draft :=
  { d with states := d.states.modify s fun state => { state with exit := t } }

/-- Append a statement to the open state. -/
def push (d : Draft) (stmt : Stmt) : Draft :=
  { d with states := d.states.modify d.current fun s => { s with body := s.body ++ [stmt] } }

/-- Set how the open state is left. -/
def close (d : Draft) (t : Terminator) : Draft :=
  d.setExit d.current t

/-- The open state has no terminator yet. -/
def isOpen (d : Draft) : Bool :=
  d.states[d.current]?.any (·.exit.isUnreachable)

/-- The open state has neither statements nor a terminator. -/
def isBlank (d : Draft) : Bool :=
  d.states[d.current]?.any fun s => s.exit.isUnreachable && s.body.isEmpty

/-- Let the open state go on to `s`, unless it already leads elsewhere. -/
def flowTo (d : Draft) (s : StateId) : Draft :=
  if d.isOpen then d.close (.goto s) else d

/-- Close the open state and open a new one that nothing leads to. -/
def leave (d : Draft) (t : Terminator) : Draft :=
  let (next, d) := (d.close t).create
  d.switchTo next

/-- Close the open state with a pause and open the state where it resumes. -/
def pause (d : Draft) (p : Pause) : Draft :=
  let (next, d) := d.create
  (d.close (.suspend p next)).switchTo next

/-- Send every exit of the states `first, ..., last - 1` out of that stretch through `cleanup`,
with one new state for each place where control goes afterwards. -/
def route (d : Draft) (first last cleanup : StateId) : Draft :=
  let inside (s : StateId) : Bool := first ≤ s && s < last
  let region := (d.states.drop first).take (last - first)
  let targets := ((region.flatMap (·.exit.exits)).filter (!inside ·)).eraseDups
  let redirect (s : StateId) : StateId :=
    if inside s then s else (targets.idxOf? s).elim s (d.nextId + ·)
  let routed := d.states.mapIdx fun i s =>
    if inside i then { s with exit := s.exit.mapExits redirect } else s
  let routes := targets.mapIdx fun i t =>
    ({ id := d.nextId + i, exit := .enter cleanup t, handler := d.handler } : State)
  { d with states := routed ++ routes }

@[simp] theorem nextId_createIn (d : Draft) (h : Option HandlerId) :
    (d.createIn h).2.nextId = d.nextId + 1 := by
  simp [createIn, nextId]

@[simp] theorem nextId_setExit (d : Draft) (s : StateId) (t : Terminator) :
    (d.setExit s t).nextId = d.nextId := by
  simp [setExit, nextId]

@[simp] theorem nextId_push (d : Draft) (stmt : Stmt) : (d.push stmt).nextId = d.nextId := by
  simp [push, nextId]

/-- No state is lost when exits are routed through a cleanup. -/
theorem nextId_le_route (d : Draft) (first last cleanup : StateId) :
    d.nextId ≤ (d.route first last cleanup).nextId := by
  simp [route, nextId]

end Draft

end Resumable

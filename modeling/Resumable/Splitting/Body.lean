import Resumable.Chain.Draft
import Resumable.Splitting.Error

namespace Resumable

/-- The states that a loop starts over at and goes on to. -/
structure LoopEnds where
  head : StateId
  exit : StateId

namespace Splitting

/-- Every return of the method leads to this state, which only finishes. -/
def returnState : StateId := 1

/-- The open entry state, and the return state. -/
def start : Draft :=
  let (s, d) := ({} : Draft).createIn none
  d.setExit s .complete

/-- Refuse an await inside an expression at `place`. -/
def noAwait (e : Expr) (place : Position) : Except SplitError Unit :=
  match e.firstAwait place with
  | some (place, span) => .error (.nestedAwait place span)
  | none => .ok ()

/-- Make an expression that is one await a pause, and give what stands for its outcome
afterwards; any other expression must hold no await. -/
def takeAwait (e : Expr) (place : Position) (d : Draft) : Except SplitError (Expr × Draft) :=
  match e with
  | .await m operand => do
    noAwait operand .awaitOperand
    return (.resume { span := m.span }, d.pause (.await operand))
  | e => do
    noAwait e place
    return (e, d)

/-- Refuse a cleanup that pauses or that control can leave by a jump. -/
def checkCleanup (body : Block) : Except SplitError Unit :=
  match body.find? Stmt.pauses with
  | some s => .error (.pauseInCleanup s.mark.span)
  | none =>
    match Stmt.escapeIn 0 body with
    | some (jump, span) => .error (.jumpOutOfCleanup jump span)
    | none => .ok ()

/-- The state of the cleanup, if there is to be one. -/
def openCleanup (wanted : Bool) (d : Draft) : Option StateId × Draft :=
  if wanted then
    let (s, d) := d.create
    (some s, d)
  else (none, d)

/-- A new handler inside `outer`, and the first state it covers, now open. -/
def openGuard (cleanup : Option StateId) (outer : Option HandlerId) (d : Draft) :
    HandlerId × StateId × Draft :=
  let (guard, d) := d.addHandler cleanup outer
  let (entry, d) := d.createIn (some guard)
  (guard, entry, ((d.close (.goto entry)).switchTo entry).setHandler (some guard))

/-- The first state of the clause that takes the faults of `guard`, now open. A fault inside the
clause is not taken by it, but still goes through the cleanup. -/
def openClause (guard : HandlerId) (binding : Option String) (cleanup : Option StateId)
    (outer : Option HandlerId) (d : Draft) : Draft :=
  let (around, d) :=
    match cleanup with
    | some _ =>
      let (h, d) := d.addHandler cleanup outer
      (some h, d)
    | none => (outer, d)
  let (entry, d) := d.createIn around
  let d := d.setClause guard (some { entry, binding })
  ({ d with caught := d.caught ++ binding.toList }.setHandler around).switchTo entry

/-- Put the cleanup into its state, and send through it every exit of the states from `first`
on. -/
def fillCleanup (cleanup : Option StateId) (body : Option Block) (first : StateId) (d : Draft) :
    Draft :=
  match cleanup, body with
  | some s, some body =>
    let last := d.nextId
    let d := body.foldl Draft.push (d.switchTo s)
    (d.close .endCleanup).route first last s
  | _, _ => d

mutual

def splitStmt (kind : Kind) (loops : List LoopEnds) (s : Stmt) (d : Draft) :
    Except SplitError Draft :=
  if s.isFlat then .ok (d.push s) else
  match s with
  | .bind m x e => do
    let (e, d) ← takeAwait e .initializer d
    return d.push (.bind m x e)
  | .assign m x e => do
    let (e, d) ← takeAwait e .assignedValue d
    return d.push (.assign m x e)
  | .store m k e => do
    let (e, d) ← takeAwait e .assignedValue d
    return d.push (.store m k e)
  | .eval m e => do
    let (e, d) ← takeAwait e .expression d
    return d.push (.eval m e)
  | .throw m e => do
    let (e, d) ← takeAwait e .throwOperand d
    return d.push (.throw m e)
  | .yield _ e => do
    noAwait e .yieldOperand
    return d.pause (.yield e)
  | .yieldBreak _ => return d.leave (.ret none (some returnState))
  | .ret _ none => return d.leave (.ret none (some returnState))
  | .ret m (some e) =>
    match kind with
    | .iterator => .error (.valueFromIterator m.span)
    | .async => do
      let (e, d) ← takeAwait e .returnValue d
      return d.leave (.ret (some e) (some returnState))
  | .brk m =>
    match loops with
    | [] => .error (.jumpOutsideLoop .brk m.span)
    | l :: _ => return d.leave (.goto l.exit)
  | .cont m =>
    match loops with
    | [] => .error (.jumpOutsideLoop .cont m.span)
    | l :: _ => return d.leave (.goto l.head)
  | .cond _ t a b => do
    let (t, d) ← takeAwait t .ifCondition d
    let (yes, d) := d.create
    if b.isEmpty then
      let (merge, d) := d.create
      let d ← splitBlock kind loops a ((d.close (.branch t yes merge)).switchTo yes)
      return (d.flowTo merge).switchTo merge
    else
      let (no, d) := d.create
      let (merge, d) := d.create
      let d ← splitBlock kind loops a ((d.close (.branch t yes no)).switchTo yes)
      let d ← splitBlock kind loops b ((d.flowTo merge).switchTo no)
      return (d.flowTo merge).switchTo merge
  | .loop _ t b => do
    let (head, d) :=
      if d.isBlank then (d.current, d)
      else
        let (head, d) := d.create
        (head, (d.close (.goto head)).switchTo head)
    let (t, d) ← takeAwait t .loopCondition d
    let (body, d) := d.create
    let (exit, d) := d.create
    let d ← splitBlock kind (⟨head, exit⟩ :: loops) b
      ((d.close (.branch t body exit)).switchTo body)
    return (d.flowTo head).switchTo exit
  | .attempt _ b none none => splitBlock kind loops b d
  | .attempt _ b c f => do
    f.forM checkCleanup
    let outer := d.handler
    let (after, d) := d.create
    let (cleanup, d) := openCleanup f.isSome d
    let (guard, entry, d) := openGuard cleanup outer d
    let d ← splitBlock kind loops b d
    let d ← splitClause kind loops guard cleanup outer after c (d.flowTo after)
    return (fillCleanup cleanup f entry (d.setHandler outer)).switchTo after
  | .block _ b => splitBlock kind loops b d

/-- The states of a catch clause for the faults of `guard`. -/
def splitClause (kind : Kind) (loops : List LoopEnds) (guard : HandlerId)
    (cleanup : Option StateId) (outer : Option HandlerId) (after : StateId) :
    Option Catch → Draft → Except SplitError Draft
  | none, d => .ok d
  | some (.mk binding b), d => do
    let d ← splitBlock kind loops b (openClause guard binding cleanup outer d)
    return d.flowTo after

def splitBlock (kind : Kind) (loops : List LoopEnds) : List Stmt → Draft →
    Except SplitError Draft
  | [], d => .ok d
  | s :: ss, d => do
    let d ← splitStmt kind loops s d
    splitBlock kind loops ss d

end

/-- The states of a whole body, as they come. -/
def splitBody (kind : Kind) (body : Block) : Except SplitError Draft := do
  let d ← splitBlock kind [] body start
  return if d.isOpen then d.close .complete else d

end Splitting

end Resumable

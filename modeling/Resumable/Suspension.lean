import Resumable.Syntax.Basic

namespace Resumable

/-- What a method that pauses becomes: a producer of values or a task. -/
inductive Kind where
  | iterator
  | async
  deriving DecidableEq, Inhabited, Repr

/-- How often a body yields, ends its iteration early and awaits. -/
structure Census where
  yields : Nat := 0
  yieldBreaks : Nat := 0
  awaits : Nat := 0
  deriving DecidableEq, Inhabited, Repr

namespace Census

instance : Add Census where
  add a b := ⟨a.yields + b.yields, a.yieldBreaks + b.yieldBreaks, a.awaits + b.awaits⟩

/-- The body pauses somewhere; leaving the iteration early is not a pause. -/
def pauses (c : Census) : Bool :=
  0 < c.yields + c.awaits

end Census

mutual

/-- The number of awaits in an expression. -/
def Expr.awaits : Expr → Nat
  | .await _ e => 1 + e.awaits
  | .binary _ _ l r => l.awaits + r.awaits
  | .unary _ _ e => e.awaits
  | .call _ c es => c.awaits + Expr.awaitsIn es
  | _ => 0

def Expr.awaitsIn : List Expr → Nat
  | [] => 0
  | e :: es => e.awaits + Expr.awaitsIn es

end

def Expr.census (e : Expr) : Census :=
  { awaits := e.awaits }

mutual

def Stmt.census : Stmt → Census
  | .bind _ _ e | .assign _ _ e | .store _ _ e | .eval _ e | .throw _ e | .ret _ (some e) =>
    e.census
  | .yield _ e => { yields := 1 } + e.census
  | .yieldBreak _ => { yieldBreaks := 1 }
  | .cond _ t a b => t.census + Stmt.censusIn a + Stmt.censusIn b
  | .loop _ t b => t.census + Stmt.censusIn b
  | .attempt _ b c f =>
    Stmt.censusIn b + (match c with | none => {} | some (.mk _ cb) => Stmt.censusIn cb) +
      (match f with | none => {} | some fb => Stmt.censusIn fb)
  | .block _ b => Stmt.censusIn b
  | .ret _ none | .brk _ | .cont _ => {}

def Stmt.censusIn : List Stmt → Census
  | [] => {}
  | s :: ss => s.census + Stmt.censusIn ss

end

/-- Places an await may stand in without being the whole of what is evaluated there. -/
inductive Position where
  | binaryOperand | unaryOperand | callee | callArgument
  | initializer | assignedValue | expression | throwOperand | yieldOperand | returnValue
  | awaitOperand | ifCondition | loopCondition
  deriving DecidableEq, Inhabited, Repr

mutual

/-- The first await inside an expression that itself stands at `place`, and where it stands. -/
def Expr.firstAwait (place : Position) : Expr → Option (Position × Span)
  | .await m _ => some (place, m.span)
  | .binary _ _ l r => (l.firstAwait .binaryOperand).or (r.firstAwait .binaryOperand)
  | .unary _ _ e => e.firstAwait .unaryOperand
  | .call _ c es => (c.firstAwait .callee).or (Expr.firstAwaitIn es)
  | _ => none

def Expr.firstAwaitIn : List Expr → Option (Position × Span)
  | [] => none
  | e :: es => (e.firstAwait .callArgument).or (Expr.firstAwaitIn es)

end

/-- Statements that send control elsewhere. -/
inductive Jump where
  | brk | cont | ret | yieldBreak
  deriving DecidableEq, Inhabited, Repr

mutual

/-- The first jump that leaves the statement, when it stands inside `depth` loops of its own:
a return always does, a break or continue only outside those loops. -/
def Stmt.escape (depth : Nat) : Stmt → Option (Jump × Span)
  | .brk m => if depth = 0 then some (.brk, m.span) else none
  | .cont m => if depth = 0 then some (.cont, m.span) else none
  | .ret m _ => some (.ret, m.span)
  | .yieldBreak m => some (.yieldBreak, m.span)
  | .cond _ _ a b => (Stmt.escapeIn depth a).or (Stmt.escapeIn depth b)
  | .loop _ _ b => Stmt.escapeIn (depth + 1) b
  | .attempt _ b c f =>
    ((Stmt.escapeIn depth b).or
      (match c with | none => none | some (.mk _ cb) => Stmt.escapeIn depth cb)).or
      (match f with | none => none | some fb => Stmt.escapeIn depth fb)
  | .block _ b => Stmt.escapeIn depth b
  | _ => none

def Stmt.escapeIn (depth : Nat) : List Stmt → Option (Jump × Span)
  | [] => none
  | s :: ss => (s.escape depth).or (Stmt.escapeIn depth ss)

end

def Stmt.pauses (s : Stmt) : Bool :=
  s.census.pauses

/-- The statement neither pauses nor jumps out of itself, so it can run as one piece. -/
def Stmt.isFlat (s : Stmt) : Bool :=
  !s.pauses && (s.escape 0).isNone

end Resumable

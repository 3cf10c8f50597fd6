namespace Resumable

/-- A stretch of source text, from `start` up to and without `stop`. -/
structure Span where
  start : UInt64 := 0
  stop : UInt64 := 0
  deriving DecidableEq, Inhabited, Repr

/-- What a node says about its place in the source; the default is that of a made-up node. -/
structure Mark where
  id : UInt32 := 4294967295
  span : Span := {}
  deriving DecidableEq, Inhabited, Repr

/-- The place of one hoisted variable in the storage of a running method. -/
abbrev Slot := Nat

inductive BinaryOp where
  | add | sub | mul | div | rem
  | eq | ne | lt | le | gt | ge
  | and | or
  deriving DecidableEq, Inhabited, Repr

inductive UnaryOp where
  | neg | not
  deriving DecidableEq, Inhabited, Repr

mutual

/-- Expressions. A `var` that no binding reaches names a function of the host when it is called. -/
inductive Expr where
  | unit (mark : Mark)
  | bool (mark : Mark) (b : Bool)
  | int (mark : Mark) (n : Int64)
  | str (mark : Mark) (s : String)
  | var (mark : Mark) (name : String)
  | binary (mark : Mark) (op : BinaryOp) (left right : Expr)
  | unary (mark : Mark) (op : UnaryOp) (operand : Expr)
  | call (mark : Mark) (callee : Expr) (args : List Expr)
  | await (mark : Mark) (operand : Expr)
  | lambda (mark : Mark) (params : List String) (body : List Stmt)
  | captured (mark : Mark) (slot : Slot)
  | resume (mark : Mark)

/-- Statements. `attempt` is a guarded block with an optional catch clause and an optional
cleanup that runs on every way out. -/
inductive Stmt where
  | bind (mark : Mark) (name : String) (init : Expr)
  | assign (mark : Mark) (target : String) (value : Expr)
  | eval (mark : Mark) (e : Expr)
  | cond (mark : Mark) (test : Expr) (yes no : List Stmt)
  | loop (mark : Mark) (test : Expr) (body : List Stmt)
  | attempt (mark : Mark) (body : List Stmt) (clause : Option Catch) (cleanup : Option (List Stmt))
  | yield (mark : Mark) (e : Expr)
  | yieldBreak (mark : Mark)
  | ret (mark : Mark) (value : Option Expr)
  | brk (mark : Mark)
  | cont (mark : Mark)
  | throw (mark : Mark) (e : Expr)
  | block (mark : Mark) (body : List Stmt)
  | store (mark : Mark) (slot : Slot) (value : Expr)

/-- The clause that takes a fault, and the name it gives to the value of the fault. -/
inductive Catch where
  | mk (binding : Option String) (body : List Stmt)

end

abbrev Block := List Stmt

instance : Inhabited Expr := ⟨.unit {}⟩
instance : Inhabited Stmt := ⟨.brk {}⟩

/-- A named method with its parameters and body. -/
structure Method where
  name : String
  params : List String
  body : Block
  mark : Mark := {}

def Expr.mark : Expr → Mark
  | .unit m | .bool m _ | .int m _ | .str m _ | .var m _ | .binary m .. | .unary m ..
  | .call m .. | .await m _ | .lambda m .. | .captured m _ | .resume m => m

def Stmt.mark : Stmt → Mark
  | .bind m .. | .assign m .. | .eval m _ | .cond m .. | .loop m .. | .attempt m ..
  | .yield m _ | .yieldBreak m | .ret m _ | .brk m | .cont m | .throw m _ | .block m _
  | .store m .. => m

def Catch.binding : Catch → Option String
  | .mk b _ => b

def Catch.body : Catch → Block
  | .mk _ b => b

end Resumable

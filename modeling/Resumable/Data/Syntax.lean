import Resumable.Data.Basic
import Resumable.Syntax.Basic

namespace Resumable

def Span.toData (s : Span) : Data :=
  .record [("start", .nat s.start.toNat), ("end", .nat s.stop.toNat)]

def Span.ofData? (d : Data) : Option Span :=
  match d.structure? ["start", "end"] with
  | some [some first, some last] => do
    let first ← first.nat? 64
    let last ← last.nat? 64
    return ⟨first.toUInt64, last.toUInt64⟩
  | _ => none

def BinaryOp.toData : BinaryOp → Data
  | .add => .str "Add" | .sub => .str "Sub" | .mul => .str "Mul" | .div => .str "Div"
  | .rem => .str "Rem" | .eq => .str "Eq" | .ne => .str "Ne" | .lt => .str "Lt"
  | .le => .str "Le" | .gt => .str "Gt" | .ge => .str "Ge" | .and => .str "And" | .or => .str "Or"

def BinaryOp.ofData? (d : Data) : Option BinaryOp :=
  match d.variant? with
  | some ("Add", x) => Data.bare x .add
  | some ("Sub", x) => Data.bare x .sub
  | some ("Mul", x) => Data.bare x .mul
  | some ("Div", x) => Data.bare x .div
  | some ("Rem", x) => Data.bare x .rem
  | some ("Eq", x) => Data.bare x .eq
  | some ("Ne", x) => Data.bare x .ne
  | some ("Lt", x) => Data.bare x .lt
  | some ("Le", x) => Data.bare x .le
  | some ("Gt", x) => Data.bare x .gt
  | some ("Ge", x) => Data.bare x .ge
  | some ("And", x) => Data.bare x .and
  | some ("Or", x) => Data.bare x .or
  | _ => none

theorem BinaryOp.ofData?_toData (op : BinaryOp) : BinaryOp.ofData? op.toData = some op := by
  cases op <;> rfl

def UnaryOp.toData : UnaryOp → Data
  | .neg => .str "Neg"
  | .not => .str "Not"

def UnaryOp.ofData? (d : Data) : Option UnaryOp :=
  match d.variant? with
  | some ("Neg", x) => Data.bare x .neg
  | some ("Not", x) => Data.bare x .not
  | _ => none

theorem UnaryOp.ofData?_toData (op : UnaryOp) : UnaryOp.ofData? op.toData = some op := by
  cases op <;> rfl

/-- A node with its mark around what it says. -/
def Mark.wrap (m : Mark) (kind : Data) : Data :=
  .record [("id", .nat m.id.toNat), ("kind", kind), ("span", m.span.toData)]

def Mark.unwrap? (d : Data) : Option (Mark × Data) :=
  match d.structure? ["id", "kind", "span"] with
  | some [some id, some kind, some span] => do
    let id ← id.place?
    let span ← Span.ofData? span
    return (⟨id.toUInt32, span⟩, kind)
  | _ => none

mutual

def Expr.toData : Expr → Data
  | .unit m => m.wrap (.str "Unit")
  | .bool m b => m.wrap (.tagged "Bool" (.bool b))
  | .int m n => m.wrap (.tagged "Int" (.int n.toInt))
  | .str m s => m.wrap (.tagged "Str" (.str s))
  | .var m x => m.wrap (.tagged "Local" (.str x))
  | .binary m op l r =>
    m.wrap (.tagged "Binary" (.record [("op", op.toData), ("left", l.toData), ("right", r.toData)]))
  | .unary m op e =>
    m.wrap (.tagged "Unary" (.record [("op", op.toData), ("operand", e.toData)]))
  | .call m c es =>
    m.wrap (.tagged "Call" (.record [("callee", c.toData), ("args", .list (Expr.listToData es))]))
  | .await m e => m.wrap (.tagged "Await" e.toData)
  | .lambda m ps b =>
    m.wrap (.tagged "Lambda"
      (.record [("params", .strings ps), ("body", .list (Stmt.listToData b))]))
  | .captured m k => m.wrap (.tagged "Captured" (.nat k))
  | .resume m => m.wrap (.str "Resume")

def Expr.listToData : List Expr → List Data
  | [] => []
  | e :: es => e.toData :: Expr.listToData es

def Stmt.toData : Stmt → Data
  | .bind m x e => m.wrap (.tagged "Let" (.record [("name", .str x), ("init", e.toData)]))
  | .assign m x e => m.wrap (.tagged "Assign" (.record [("target", .str x), ("value", e.toData)]))
  | .eval m e => m.wrap (.tagged "Expr" e.toData)
  | .cond m t a b =>
    m.wrap (.tagged "If" (.record [("cond", t.toData), ("then_branch", .list (Stmt.listToData a)),
      ("else_branch", .list (Stmt.listToData b))]))
  | .loop m t b =>
    m.wrap (.tagged "While" (.record [("cond", t.toData), ("body", .list (Stmt.listToData b))]))
  | .attempt m b c f =>
    m.wrap (.tagged "Try" (.record [("body", .list (Stmt.listToData b)),
      ("catch", match c with
        | none => .null
        | some (.mk x cb) =>
          .record [("binding", .ofOption .str x), ("body", .list (Stmt.listToData cb))]),
      ("finally", match f with
        | none => .null
        | some fb => .list (Stmt.listToData fb))]))
  | .yield m e => m.wrap (.tagged "Yield" e.toData)
  | .yieldBreak m => m.wrap (.str "YieldBreak")
  | .ret m none => m.wrap (.tagged "Return" .null)
  | .ret m (some e) => m.wrap (.tagged "Return" e.toData)
  | .brk m => m.wrap (.str "Break")
  | .cont m => m.wrap (.str "Continue")
  | .throw m e => m.wrap (.tagged "Throw" e.toData)
  | .block m b => m.wrap (.tagged "Block" (.list (Stmt.listToData b)))
  | .store m k e => m.wrap (.tagged "Store" (.record [("slot", .nat k), ("value", e.toData)]))

def Stmt.listToData : List Stmt → List Data
  | [] => []
  | s :: ss => s.toData :: Stmt.listToData ss

end

mutual

/-- Read an expression no higher than `n`. -/
def Expr.readData : (n : Nat) → Data → Option Expr
  | 0, _ => none
  | n + 1, d => do
    let (m, kind) ← Mark.unwrap? d
    match kind.variant? with
    | some ("Unit", x) => Data.bare x (.unit m)
    | some ("Resume", x) => Data.bare x (.resume m)
    | some ("Bool", some x) => return .bool m (← x.bool?)
    | some ("Int", some x) => return .int m (← x.int64?)
    | some ("Str", some x) => return .str m (← x.str?)
    | some ("Local", some x) => return .var m (← x.str?)
    | some ("Captured", some x) => return .captured m (← x.place?)
    | some ("Await", some x) => return .await m (← Expr.readData n x)
    | some ("Binary", some x) =>
      match x.case? ["op", "left", "right"] with
      | some [some op, some l, some r] =>
        return .binary m (← BinaryOp.ofData? op) (← Expr.readData n l) (← Expr.readData n r)
      | _ => none
    | some ("Unary", some x) =>
      match x.case? ["op", "operand"] with
      | some [some op, some e] => return .unary m (← UnaryOp.ofData? op) (← Expr.readData n e)
      | _ => none
    | some ("Call", some x) =>
      match x.case? ["callee", "args"] with
      | some [some c, some es] =>
        return .call m (← Expr.readData n c) (← (← es.list?).mapM (Expr.readData n))
      | _ => none
    | some ("Lambda", some x) =>
      match x.case? ["params", "body"] with
      | some [some ps, some b] =>
        return .lambda m (← ps.strings?) (← (← b.list?).mapM (Stmt.readData n))
      | _ => none
    | _ => none

/-- Read a statement no higher than `n`. -/
def Stmt.readData : (n : Nat) → Data → Option Stmt
  | 0, _ => none
  | n + 1, d => do
    let (m, kind) ← Mark.unwrap? d
    let block (d : Data) : Option (List Stmt) := do (← d.list?).mapM (Stmt.readData n)
    match kind.variant? with
    | some ("YieldBreak", x) => Data.bare x (.yieldBreak m)
    | some ("Break", x) => Data.bare x (.brk m)
    | some ("Continue", x) => Data.bare x (.cont m)
    | some ("Expr", some x) => return .eval m (← Expr.readData n x)
    | some ("Yield", some x) => return .yield m (← Expr.readData n x)
    | some ("Throw", some x) => return .throw m (← Expr.readData n x)
    | some ("Return", some x) => return .ret m (← Data.nullable (Expr.readData n) x)
    | some ("Block", some x) => return .block m (← block x)
    | some ("Let", some x) =>
      match x.case? ["name", "init"] with
      | some [some name, some e] => return .bind m (← name.str?) (← Expr.readData n e)
      | _ => none
    | some ("Assign", some x) =>
      match x.case? ["target", "value"] with
      | some [some name, some e] => return .assign m (← name.str?) (← Expr.readData n e)
      | _ => none
    | some ("Store", some x) =>
      match x.case? ["slot", "value"] with
      | some [some k, some e] => return .store m (← k.place?) (← Expr.readData n e)
      | _ => none
    | some ("If", some x) =>
      match x.case? ["cond", "then_branch", "else_branch"] with
      | some [some t, some a, some b] =>
        return .cond m (← Expr.readData n t) (← block a) (← block b)
      | _ => none
    | some ("While", some x) =>
      match x.case? ["cond", "body"] with
      | some [some t, some b] => return .loop m (← Expr.readData n t) (← block b)
      | _ => none
    | some ("Try", some x) =>
      match x.case? ["body", "catch", "finally"] with
      | some [some b, c, f] =>
        return .attempt m (← block b) (← Data.optional (Catch.readData n) c)
          (← Data.optional block f)
      | _ => none
    | _ => none

/-- Read a catch clause no higher than `n`. -/
def Catch.readData : (n : Nat) → Data → Option Catch
  | 0, _ => none
  | n + 1, d =>
    match d.structure? ["binding", "body"] with
    | some [x, some b] => do
      let x ← Data.optional Data.str? x
      return .mk x (← (← b.list?).mapM (Stmt.readData n))
    | _ => none

end

def Expr.ofData? (d : Data) : Option Expr :=
  Expr.readData d.height d

def Stmt.ofData? (d : Data) : Option Stmt :=
  Stmt.readData d.height d

def Stmt.listOfData? (d : Data) : Option (List Stmt) := do
  (← d.list?).mapM Stmt.ofData?

def Method.toData (m : Method) : Data :=
  .record [("id", .nat m.mark.id.toNat), ("name", .str m.name), ("params", .strings m.params),
    ("body", .list (Stmt.listToData m.body)), ("span", m.mark.span.toData)]

def Method.ofData? (d : Data) : Option Method :=
  match d.structure? ["id", "name", "params", "body", "span"] with
  | some [some id, some name, some params, some body, some span] => do
    let id ← id.place?
    let name ← name.str?
    let params ← params.strings?
    let body ← Stmt.listOfData? body
    let span ← Span.ofData? span
    return { name, params, body, mark := ⟨id.toUInt32, span⟩ }
  | _ => none

end Resumable

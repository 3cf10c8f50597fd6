import Resumable.Syntax.Basic
import Resumable.Text.Quoted

namespace Resumable

def BinaryOp.text : BinaryOp → String
  | .add => "+" | .sub => "-" | .mul => "*" | .div => "/" | .rem => "%"
  | .eq => "==" | .ne => "!=" | .lt => "<" | .le => "<=" | .gt => ">" | .ge => ">="
  | .and => "&&" | .or => "||"

def UnaryOp.text : UnaryOp → String
  | .neg => "-" | .not => "!"

/-- Decimal digits, with a minus sign in front of a negative number. -/
def Text.int (n : Int64) : String :=
  if n < 0 then "-" ++ Nat.repr n.toInt.natAbs else Nat.repr n.toInt.natAbs

def Text.bool (b : Bool) : String :=
  if b then "true" else "false"

def Text.commas (items : List String) : String :=
  ", ".intercalate items

def Slot.text (k : Slot) : String :=
  "$" ++ Nat.repr k

mutual

def Expr.text : Expr → String
  | .unit _ => "()"
  | .bool _ b => Text.bool b
  | .int _ n => Text.int n
  | .str _ s => Text.quote s
  | .var _ x => x
  | .binary _ op l r => "(" ++ l.text ++ " " ++ op.text ++ " " ++ r.text ++ ")"
  | .unary _ op e => op.text ++ e.text
  | .call _ c es => c.text ++ "(" ++ Text.commas (Expr.texts es) ++ ")"
  | .await _ e => "await " ++ e.text
  | .lambda _ ps b => "|" ++ Text.commas ps ++ "| " ++ "\x7b" ++ Stmt.spaced b ++ " \x7d"
  | .captured _ k => Slot.text k
  | .resume _ => "<resume>"

def Expr.texts : List Expr → List String
  | [] => []
  | e :: es => e.text :: Expr.texts es

def Stmt.text : Stmt → String
  | .bind _ x e => "let " ++ x ++ " = " ++ e.text ++ ";"
  | .assign _ x e => x ++ " = " ++ e.text ++ ";"
  | .eval _ e => e.text ++ ";"
  | .cond _ t a b =>
    "if " ++ t.text ++ " \x7b" ++ Stmt.spaced a ++ " \x7d" ++
      (if b.isEmpty then "" else " else \x7b" ++ Stmt.spaced b ++ " \x7d")
  | .loop _ t b => "while " ++ t.text ++ " \x7b" ++ Stmt.spaced b ++ " \x7d"
  | .attempt _ b c f =>
    "try \x7b" ++ Stmt.spaced b ++ " \x7d" ++
      (match c with
        | none => ""
        | some (.mk none cb) => " catch \x7b" ++ Stmt.spaced cb ++ " \x7d"
        | some (.mk (some x) cb) => " catch " ++ x ++ " \x7b" ++ Stmt.spaced cb ++ " \x7d") ++
      (match f with
        | none => ""
        | some fb => " finally \x7b" ++ Stmt.spaced fb ++ " \x7d")
  | .yield _ e => "yield " ++ e.text ++ ";"
  | .yieldBreak _ => "yield break;"
  | .ret _ (some e) => "return " ++ e.text ++ ";"
  | .ret _ none => "return;"
  | .brk _ => "break;"
  | .cont _ => "continue;"
  | .throw _ e => "throw " ++ e.text ++ ";"
  | .block _ b => "\x7b" ++ Stmt.spaced b ++ " \x7d"
  | .store _ k e => Slot.text k ++ " = " ++ e.text ++ ";"

/-- The statements of a block, each after a blank. -/
def Stmt.spaced : List Stmt → String
  | [] => ""
  | s :: ss => " " ++ s.text ++ Stmt.spaced ss

end

def Method.text (m : Method) : String :=
  "fn " ++ m.name ++ "(" ++ Text.commas m.params ++ ") \x7b" ++ Stmt.spaced m.body ++ " \x7d"

end Resumable

import Resumable.Syntax.Printer

namespace Resumable

abbrev FutureId := Nat

abbrev StorageId := Nat

abbrev TokenId := Nat

inductive Value where
  | unit
  | bool (b : Bool)
  | int (n : Int64)
  | str (s : String)
  | closure (id : Nat) (params : List String) (body : Block) (env : List (String × Value))
      (home : StorageId)
  | future (id : FutureId)

instance : Inhabited Value := ⟨.unit⟩

/-- How far a future has come. -/
inductive Status where
  | pending | succeeded | faulted
  deriving DecidableEq, Inhabited, Repr

def Status.text : Status → String
  | .pending => "Pending"
  | .succeeded => "Succeeded"
  | .faulted => "Faulted"

namespace Value

def typeName : Value → String
  | .unit => "unit"
  | .bool _ => "bool"
  | .int _ => "int"
  | .str _ => "string"
  | .closure .. => "closure"
  | .future _ => "future"

/-- The plain text of a value; a string stands for itself. -/
def text : Value → String
  | .unit => "()"
  | .bool b => Text.bool b
  | .int n => Text.int n
  | .str s => s
  | .closure _ params .. => "<closure/" ++ Nat.repr params.length ++ ">"
  | .future _ => "<future>"

/-- The text of a value that shows strings in quotes and the status of futures. -/
def debug (status : FutureId → Status) : Value → String
  | .str s => Text.quote s
  | .future f => "<future " ++ (status f).text ++ ">"
  | v => v.text

/-- Equality as programs see it. -/
def same : Value → Value → Bool
  | .unit, .unit => true
  | .bool a, .bool b => a == b
  | .int a, .int b => a == b
  | .str a, .str b => a == b
  | .closure a .., .closure b .. => a == b
  | .future a, .future b => a == b
  | _, _ => false

end Value

end Resumable

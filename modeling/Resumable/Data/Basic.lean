namespace Resumable

inductive Data where
  | null
  | bool (b : Bool)
  | int (n : Int)
  /-- A number that is not an integer; nothing is written as one. -/
  | fraction
  | str (s : String)
  | list (items : List Data)
  | record (fields : List (String × Data))

namespace Data

variable {α : Type}

mutual

/-- The height of the tree. -/
def height : Data → Nat
  | .list items => 1 + heightOfItems items
  | .record fields => 1 + heightOfFields fields
  | _ => 1

def heightOfItems : List Data → Nat
  | [] => 0
  | d :: ds => max d.height (heightOfItems ds)

def heightOfFields : List (String × Data) → Nat
  | [] => 0
  | (_, d) :: fs => max d.height (heightOfFields fs)

end

/-! Writing. -/

def nat (n : Nat) : Data :=
  .int n

def ofOption (write : α → Data) : Option α → Data
  | none => .null
  | some a => write a

def strings (ss : List String) : Data :=
  .list (ss.map .str)

/-- A case with contents. -/
def tagged (name : String) (contents : Data) : Data :=
  .record [(name, contents)]

/-! Reading. -/

def bool? : Data → Option Bool
  | .bool b => some b
  | _ => none

def str? : Data → Option String
  | .str s => some s
  | _ => none

def list? : Data → Option (List Data)
  | .list items => some items
  | _ => none

/-- A natural number below `2 ^ bits`. -/
def nat? (bits : Nat) : Data → Option Nat
  | .int n => if 0 ≤ n ∧ n < Nat.pow 2 bits then some n.toNat else none
  | _ => none

theorem nat?_nat (bits n : Nat) (h : n < Nat.pow 2 bits) : (nat n).nat? bits = some n :=
  if_pos ⟨Int.natCast_nonneg n, Int.ofNat_lt.mpr h⟩

/-- An integer of 64 bits with its sign. -/
def int64? : Data → Option Int64
  | .int n =>
    if Int64.minValue.toInt ≤ n ∧ n ≤ Int64.maxValue.toInt then some (Int64.ofInt n) else none
  | _ => none

/-- A number of 32 bits, such as a place in a table. -/
def place? (d : Data) : Option Nat :=
  d.nat? 32

def strings? (d : Data) : Option (List String) := do
  let items ← d.list?
  items.mapM str?

/-- A value that may be null. -/
def nullable (read : Data → Option α) : Data → Option (Option α)
  | .null => some none
  | d => (read d).map some

/-- A field that may be null or absent. -/
def optional (read : Data → Option α) : Option Data → Option (Option α)
  | none => some none
  | some d => nullable read d

/-- The fields of a structure by name, or all of them in order. -/
def structure? (names : List String) : Data → Option (List (Option Data))
  | .record fields => some (names.map fun name => fields.lookup name)
  | .list items => if items.length = names.length then some (items.map some) else none
  | _ => none

/-- The fields of a case by name. -/
def case? (names : List String) : Data → Option (List (Option Data))
  | .record fields => some (names.map fun name => fields.lookup name)
  | _ => none

/-- The name of a case, and its contents unless it was written by name alone. -/
def variant? : Data → Option (String × Option Data)
  | .str name => some (name, none)
  | .record [(name, contents)] => some (name, some contents)
  | _ => none

/-- The case has no contents; null stands for none. -/
def bare (contents : Option Data) (a : α) : Option α :=
  match contents with
  | none | some .null => some a
  | _ => none

end Data

end Resumable

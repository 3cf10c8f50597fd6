import Resumable.Splitting.Error
import Resumable.Value

namespace Resumable

inductive Fault where
  | thrown (v : Value)
  | undefinedVariable (name : String)
  | undefinedFunction (name : String)
  | typeError (text : String)
  | divisionByZero
  | arity (expected got : Nat)
  | notAwaitable (v : Value)
  | notSettled
  | cancelled
  | kindMismatch (chain : String) (expected : Kind)
  /-- A chain that no method splits into has done what it cannot do. -/
  | internal (text : String)

instance : Inhabited Fault := ⟨.cancelled⟩

/-- What an awaited future brings: a value, or a fault to raise. -/
abbrev Outcome := Except Fault Value

namespace Fault

def message : Fault → String
  | .thrown v => "uncaught exception: " ++ v.text
  | .undefinedVariable x => "undefined variable `" ++ x ++ "`"
  | .undefinedFunction x => "undefined function `" ++ x ++ "`"
  | .typeError s => s
  | .divisionByZero => "division by zero"
  | .arity expected got =>
    "expected " ++ Nat.repr expected ++ " argument" ++ (if expected = 1 then "" else "s") ++
      ", got " ++ Nat.repr got
  | .notAwaitable v => "cannot await a non-future value `" ++ v.text ++ "`"
  | .notSettled => "future has not settled"
  | .cancelled => "operation cancelled"
  | .kindMismatch chain expected =>
    "chain `" ++ chain ++ "` is not a " ++ expected.text ++ " method"
  | .internal s => "internal runtime error: " ++ s

/-- What a catch clause receives: a thrown value as it is, any other fault as its message. -/
def toValue : Fault → Value
  | .thrown v => v
  | f => .str f.message

/-- The value a fault carries. -/
def value? : Fault → Option Value
  | .thrown v | .notAwaitable v => some v
  | _ => none

/-- The text of a fault that shows its kind and all it carries. -/
def debug (status : FutureId → Status) : Fault → String
  | .thrown v => "Thrown(" ++ v.debug status ++ ")"
  | .undefinedVariable x => "UndefinedVariable(" ++ Text.quote x ++ ")"
  | .undefinedFunction x => "UndefinedFunction(" ++ Text.quote x ++ ")"
  | .typeError s => "TypeError(" ++ Text.quote s ++ ")"
  | .divisionByZero => "DivisionByZero"
  | .arity expected got =>
    "ArityMismatch \x7b expected: " ++ Nat.repr expected ++ ", got: " ++ Nat.repr got ++ " \x7d"
  | .notAwaitable v => "NotAwaitable(" ++ v.debug status ++ ")"
  | .notSettled => "NotSettled"
  | .cancelled => "Cancelled"
  | .kindMismatch chain expected =>
    "KindMismatch \x7b chain: " ++ Text.quote chain ++ ", expected: " ++ expected.text ++ " \x7d"
  | .internal s => "Internal(" ++ Text.quote s ++ ")"

/-- Equal faults, where the values they carry are compared as programs compare them. -/
def same : Fault → Fault → Bool
  | .thrown a, .thrown b => a.same b
  | .undefinedVariable a, .undefinedVariable b => a == b
  | .undefinedFunction a, .undefinedFunction b => a == b
  | .typeError a, .typeError b => a == b
  | .divisionByZero, .divisionByZero => true
  | .arity a b, .arity a' b' => a == a' && b == b'
  | .notAwaitable a, .notAwaitable b => a.same b
  | .notSettled, .notSettled => true
  | .cancelled, .cancelled => true
  | .kindMismatch a k, .kindMismatch b k' => a == b && k == k'
  | .internal a, .internal b => a == b
  | _, _ => false

end Fault

end Resumable

import Resumable.Suspension

namespace Resumable

def Kind.text : Kind → String
  | .iterator => "Iterator"
  | .async => "Async"

def Position.text : Position → String
  | .binaryOperand => "binary operand"
  | .unaryOperand => "unary operand"
  | .callee => "callee"
  | .callArgument => "call argument"
  | .initializer => "let initializer"
  | .assignedValue => "assigned value"
  | .expression => "expression"
  | .throwOperand => "throw operand"
  | .yieldOperand => "yield operand"
  | .returnValue => "return value"
  | .awaitOperand => "await operand"
  | .ifCondition => "if condition"
  | .loopCondition => "loop condition"

def Jump.text : Jump → String
  | .brk => "break"
  | .cont => "continue"
  | .ret => "return"
  | .yieldBreak => "yield break"

inductive SplitError where
  /-- An await that is only a part of what is evaluated. -/
  | nestedAwait (place : Position) (span : Span)
  | yieldsAndAwaits (method : String)
  | pauseInCleanup (span : Span)
  | jumpOutOfCleanup (jump : Jump) (span : Span)
  | jumpOutsideLoop (jump : Jump) (span : Span)
  | valueFromIterator (span : Span)
  | tooManyStates (method : String) (count limit : Nat)
  deriving DecidableEq, Repr

namespace SplitError

def message : SplitError → String
  | .nestedAwait place _ =>
    "suspension point inside " ++ place.text ++ " cannot be split into states"
  | .yieldsAndAwaits method => "method `" ++ method ++ "` both yields and awaits"
  | .pauseInCleanup _ => "suspension point inside a finally block"
  | .jumpOutOfCleanup jump _ =>
    "control cannot leave a finally block through `" ++ jump.text ++ "`"
  | .jumpOutsideLoop jump _ => "`" ++ jump.text ++ "` outside of a loop"
  | .valueFromIterator _ => "iterator method cannot return a value; use `yield break`"
  | .tooManyStates method count limit =>
    "state chain for `" ++ method ++ "` has " ++ Nat.repr count ++ " states (limit " ++
      Nat.repr limit ++ ")"

/-- The offending stretch of source, unless the method as a whole is at fault. -/
def span : SplitError → Option Span
  | .nestedAwait _ s | .pauseInCleanup s | .jumpOutOfCleanup _ s | .jumpOutsideLoop _ s
  | .valueFromIterator s => some s
  | .yieldsAndAwaits _ | .tooManyStates .. => none

end SplitError

/-- What the body has to become, if it has to become anything. -/
def Census.kind (c : Census) (method : String) : Except SplitError (Option Kind) :=
  let iterates := 0 < c.yields + c.yieldBreaks
  if iterates && 0 < c.awaits then .error (.yieldsAndAwaits method)
  else if 0 < c.yields then .ok (some .iterator)
  else if 0 < c.awaits then .ok (some .async)
  else .ok none

end Resumable

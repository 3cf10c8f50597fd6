import Resumable.Named
import Resumable.Value

namespace Resumable

/-- Bindings of one scope, at most one for each name. -/
abbrev Bindings := Named Value

namespace Bindings

/-- Change the value of a name that is bound here. -/
def assign? (name : String) (v : Value) : Bindings → Option Bindings
  | [] => none
  | (x, old) :: rest =>
    if x = name then some ((x, v) :: rest) else (assign? name v rest).map ((x, old) :: ·)

/-- The bindings in sight from an inner scope: its own, and those of the outer one that it does
not hide. -/
def inSight (inner outer : Bindings) : Bindings :=
  inner ++ outer.filter fun b => (inner.get? b.1).isNone

end Bindings

/-- Scopes, innermost first. -/
structure Frame where
  scopes : List Bindings

namespace Frame

/-- One scope without bindings. -/
def empty : Frame := ⟨[[]]⟩

def push (f : Frame) : Frame := ⟨[] :: f.scopes⟩

def pop (f : Frame) : Frame := ⟨f.scopes.tail⟩

/-- Bind a name in the innermost scope, in place of what it was bound to there. -/
def define (f : Frame) (name : String) (v : Value) : Frame :=
  match f.scopes with
  | [] => f
  | s :: rest => ⟨s.put name v :: rest⟩

def defineAll (f : Frame) (bindings : List (String × Value)) : Frame :=
  bindings.foldl (fun f (name, v) => f.define name v) f

/-- The value of a name in the innermost scope that binds it. -/
def get? (f : Frame) (name : String) : Option Value :=
  f.scopes.findSome? (·.get? name)

/-- Change the innermost binding of a name; there must be one. -/
def assign? (f : Frame) (name : String) (v : Value) : Option Frame :=
  go f.scopes |>.map Frame.mk
where
  go : List Bindings → Option (List Bindings)
    | [] => none
    | s :: rest =>
      match Bindings.assign? name v s with
      | some s => some (s :: rest)
      | none => (go rest).map (s :: ·)

/-- All bindings in sight. -/
def snapshot (f : Frame) : Bindings :=
  f.scopes.foldr Bindings.inSight []

/-- The values of all scopes, hidden ones among them. -/
def values (f : Frame) : List Value :=
  f.scopes.flatMap (·.map (·.2))

theorem get?_define_self (f : Frame) (name : String) (v : Value) (h : f.scopes ≠ []) :
    (f.define name v).get? name = some v := by
  obtain ⟨scopes⟩ := f
  cases scopes with
  | nil => exact absurd rfl h
  | cons s rest => simp [define, get?, Named.get?_put_self]

@[simp] theorem length_scopes_define (f : Frame) (name : String) (v : Value) :
    (f.define name v).scopes.length = f.scopes.length := by
  obtain ⟨scopes⟩ := f
  cases scopes <;> rfl

end Frame

end Resumable

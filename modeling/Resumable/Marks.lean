namespace Resumable

abbrev Marks := Array Bool

namespace Marks

/-- The numbers of the list that are below `n`. -/
def ofList (n : Nat) (on : List Nat) : Marks :=
  on.foldl (fun marks i => marks.setIfInBounds i true) (Array.replicate n false)

def has (marks : Marks) (i : Nat) : Bool :=
  marks[i]? == some true

@[simp] theorem size_ofList (n : Nat) (on : List Nat) : (ofList n on).size = n := by
  have h : ∀ (on : List Nat) (marks : Marks),
      (on.foldl (fun marks i => marks.setIfInBounds i true) marks).size = marks.size := by
    intro on
    induction on with
    | nil => exact fun _ => rfl
    | cons i on ih => exact fun marks => (ih _).trans (Array.size_setIfInBounds ..)
  exact (h on _).trans Array.size_replicate

theorem has_setIfInBounds (marks : Marks) (i j : Nat) :
    has (marks.setIfInBounds i true) j = (has marks j || (i == j && decide (j < marks.size))) := by
  by_cases h : i = j
  · subst h
    by_cases hi : i < marks.size <;> simp [has, hi]
  · simp [has, h]

theorem has_foldl (on : List Nat) (marks : Marks) (j : Nat) :
    has (on.foldl (fun marks i => marks.setIfInBounds i true) marks) j =
      (has marks j || (on.contains j && decide (j < marks.size))) := by
  induction on generalizing marks with
  | nil => simp
  | cons i on ih =>
    rw [List.foldl_cons, ih, has_setIfInBounds, Array.size_setIfInBounds, List.contains_cons,
      BEq.comm (a := j)]
    cases has marks j <;> cases i == j <;> simp

theorem has_ofList (n : Nat) (on : List Nat) (j : Nat) :
    has (ofList n on) j = (on.contains j && decide (j < n)) := by
  rw [ofList, has_foldl]
  by_cases h : j < n <;> simp [has, h]

end Marks

end Resumable

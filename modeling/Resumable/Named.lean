namespace Resumable

theorem mem_of_lookup {α β : Type} [BEq α] [LawfulBEq α] {l : List (α × β)} {a : α} {b : β}
    (h : l.lookup a = some b) : (a, b) ∈ l := by
  obtain ⟨l₁, l₂, rfl, -⟩ := List.lookup_eq_some_iff.mp h
  exact List.mem_append_right _ List.mem_cons_self

abbrev Named (α : Type) := List (String × α)

namespace Named

variable {α : Type}

def get? (xs : Named α) (name : String) : Option α :=
  List.lookup name xs

def erase (xs : Named α) (name : String) : Named α :=
  xs.filter (·.1 != name)

def put (xs : Named α) (name : String) (a : α) : Named α :=
  (name, a) :: xs.erase name

theorem get?_erase_of_ne (xs : Named α) {name other : String} (h : other ≠ name) :
    (xs.erase name).get? other = xs.get? other := by
  induction xs with
  | nil => rfl
  | cons p rest ih =>
    obtain ⟨x, a⟩ := p
    simp only [erase, get?] at ih
    by_cases hx : x = name
    · have hne : (other == name) = false := by simp [h]
      simp [erase, get?, hx, List.lookup_cons, hne, ih]
    · simp [erase, get?, hx, List.lookup_cons, ih]

theorem get?_put_self (xs : Named α) (name : String) (a : α) :
    (xs.put name a).get? name = some a := by
  simp [put, get?]

theorem get?_put_of_ne (xs : Named α) {name other : String} (a : α) (h : other ≠ name) :
    (xs.put name a).get? other = xs.get? other := by
  have hne : (other == name) = false := by simp [h]
  rw [← get?_erase_of_ne xs h]
  simp [put, get?, List.lookup_cons, hne]

/-- Put in front of the first thing whose name is not smaller. -/
def insertSorted (name : String) (a : α) : Named α → Named α
  | [] => [(name, a)]
  | (x, b) :: rest =>
    if name ≤ x then (name, a) :: (x, b) :: rest else (x, b) :: insertSorted name a rest

/-- In the order of the names. -/
def sorted : Named α → Named α
  | [] => []
  | (name, a) :: rest => insertSorted name a (sorted rest)

end Named

end Resumable

import Resumable.Proofs.Names
import Resumable.Splitting.Method

namespace Resumable

open List

namespace Binding

/-- What stands behind the last sign in a name given to a later binding. -/
theorem takeWhile_reverse_given (x : String) {k : Nat} (hk : k ≠ 0) :
    (given x k).toList.reverse.takeWhile (· != '#') = (Nat.toDigits 10 k).reverse := by
  have hdigits : ∀ c ∈ (Nat.toDigits 10 k).reverse, (c != '#') = true := by
    intro c hc
    have hdigit : c.isDigit = true :=
      Nat.isDigit_of_mem_toDigits (by decide) (by decide) (mem_reverse.mp hc)
    rw [bne_iff_ne]
    rintro rfl
    exact absurd hdigit (by decide)
  have hrepr : (Nat.repr k).toList = Nat.toDigits 10 k := by simp [Nat.repr]
  rw [toList_given x hk, hrepr, reverse_append, reverse_cons, append_assoc,
    takeWhile_append_of_pos hdigits]
  simp

/-- The names given to later bindings tell both the source name and its turn, whatever the source
names are. -/
theorem given_inj_of_pos {x y : String} {j k : Nat} (hj : j ≠ 0) (hk : k ≠ 0)
    (h : given x j = given y k) : x = y ∧ j = k := by
  have hdigits : Nat.toDigits 10 j = Nat.toDigits 10 k := by
    apply reverse_injective
    rw [← takeWhile_reverse_given x hj, ← takeWhile_reverse_given y hk, h]
  have hjk : j = k := by
    have hvalue := congrArg (Nat.ofDigitChars 10 · 0) hdigits
    simpa [Nat.ofDigitChars_toDigits] using hvalue
  subst hjk
  rw [String.ext_iff, toList_given x hj, toList_given y hk] at h
  exact ⟨String.ext_iff.mpr (append_cancel_right h), rfl⟩

/-- A later binding is given a longer name than its source name. -/
theorem given_ne_self (x : String) {k : Nat} (hk : k ≠ 0) : given x k ≠ x := by
  intro h
  have hlength := congrArg (·.toList.length) h
  simp [toList_given x hk] at hlength

/-- The binding at a place is numbered by the bindings of the same name before it. -/
theorem getElem?_names_relabel (βs : List Binder) (b : Bound) (i : Nat) :
    (Binder.names (relabel b βs))[i]? = (Binder.names βs)[i]?.map fun x =>
      given x (b.count x + ((Binder.names βs).take i).count x) := by
  induction βs generalizing b i with
  | nil => simp [relabel, Binder.names]
  | cons β βs ih =>
    cases i with
    | zero => simp [relabel, Binder.names, fresh_eq]
    | succ i =>
      have hrest : (Binder.names (relabel b (β :: βs)))[i + 1]? =
        (Binder.names (relabel (β.name :: b) βs))[i]? := rfl
      have hnames : Binder.names (β :: βs) = β.name :: Binder.names βs := rfl
      rw [hrest, ih, hnames, getElem?_cons_succ, take_succ_cons]
      congr 1
      funext x
      simp only [count_cons]
      congr 1
      omega

/-- Each of the occurrences of a name has its turn. -/
theorem exists_turn {xs : List String} {x : String} {k : Nat} (h : k < xs.count x) :
    ∃ i : Nat, xs[i]? = some x ∧ (xs.take i).count x = k := by
  induction xs generalizing k with
  | nil => simp at h
  | cons y ys ih =>
    by_cases hy : y = x
    · subst hy
      cases k with
      | zero => exact ⟨0, rfl, rfl⟩
      | succ k =>
        rw [count_cons_self] at h
        obtain ⟨i, hi, hcount⟩ := ih (Nat.lt_of_succ_lt_succ h)
        exact ⟨i + 1, hi, by simp [hcount]⟩
    · rw [count_cons_of_ne hy] at h
      obtain ⟨i, hi, hcount⟩ := ih h
      exact ⟨i + 1, hi, by simp [hcount, hy]⟩

/-- An occurrence at a place before another one is counted there. -/
theorem count_take_lt {xs : List String} {x : String} {i j : Nat} (h : xs[i]? = some x)
    (hij : i < j) : (xs.take i).count x < (xs.take j).count x := by
  have hnext : (xs.take (i + 1)).count x = (xs.take i).count x + 1 := by
    simp [take_add_one, h]
  have hmore : (xs.take (i + 1)).Sublist (xs.take j) :=
    (take_prefix_take_left hij).sublist
  have := hmore.count_le x
  omega

/-- Among these names one is spelled like the name that a later binding of another is given. -/
def Clash (xs : List String) : Prop :=
  ∃ x ∈ xs, ∃ k, k ≠ 0 ∧ k < xs.count x ∧ given x k ∈ xs

/-- The first binding with the clashing spelling keeps it, and the later one is given it. -/
theorem Clash.not_nodup {βs : List Binder} (h : Clash (Binder.names βs)) :
    ¬(Binder.names (relabel [] βs)).Nodup := by
  intro hnodup
  obtain ⟨x, -, k, hk, hlt, hmem⟩ := h
  obtain ⟨i, hi, hturn⟩ := exists_turn hlt
  obtain ⟨j, hj, hfirst⟩ := exists_turn (List.count_pos_iff.mpr hmem)
  have hnamei : (Binder.names (relabel [] βs))[i]? = some (given x k) := by
    rw [getElem?_names_relabel, hi, Option.map_some, hturn, List.count_nil, Nat.zero_add]
  have hnamej : (Binder.names (relabel [] βs))[j]? = some (given x k) := by
    rw [getElem?_names_relabel, hj, Option.map_some, hfirst]
    rfl
  have hlen := (List.getElem?_eq_some_iff.mp hnamei).1
  obtain rfl : i = j := (List.getElem?_inj hlen hnodup).mp (hnamei.trans hnamej.symm)
  exact given_ne_self x hk (Option.some.inj (hj.symm.trans hi))

/-- Without a clash the given names tell both the source name and its turn, so no two are equal. -/
theorem nodup_of_not_clash {βs : List Binder} (h : ¬Clash (Binder.names βs)) :
    (Binder.names (relabel [] βs)).Nodup := by
  apply pairwise_iff_getElem.mpr
  intro i j hi hj hij heq
  have hnamei := getElem?_names_relabel βs [] i
  have hnamej := getElem?_names_relabel βs [] j
  rw [getElem?_eq_getElem hi] at hnamei
  rw [getElem?_eq_getElem hj, ← heq, hnamei] at hnamej
  obtain ⟨x, hx, hgivenx⟩ := Option.map_eq_some_iff.mp hnamei.symm
  obtain ⟨y, hy, hgiveny⟩ := Option.map_eq_some_iff.mp (hnamej.symm.trans hnamei.symm)
  have hsame := hgivenx.trans hgiveny.symm
  rw [count_nil, count_nil, Nat.zero_add, Nat.zero_add] at hsame
  have hturn : ∀ {i : Nat} {z : String}, (Binder.names βs)[i]? = some z →
      ((Binder.names βs).take i).count z < (Binder.names βs).count z := by
    intro i z hz
    have hlt := count_take_lt hz (List.getElem?_eq_some_iff.mp hz).1
    rwa [take_length] at hlt
  by_cases hcx : ((Binder.names βs).take i).count x = 0 <;>
    by_cases hcy : ((Binder.names βs).take j).count y = 0
  · rw [hcx, hcy] at hsame
    obtain rfl : x = y := hsame
    have := count_take_lt hx hij
    omega
  · rw [hcx] at hsame
    have hspelled : given y (((Binder.names βs).take j).count y) = x := hsame.symm
    exact h ⟨y, mem_of_getElem? hy, _, hcy, hturn hy, hspelled ▸ mem_of_getElem? hx⟩
  · rw [hcy] at hsame
    have hspelled : given x (((Binder.names βs).take i).count x) = y := hsame
    exact h ⟨x, mem_of_getElem? hx, _, hcx, hturn hx, hspelled ▸ mem_of_getElem? hy⟩
  · obtain ⟨rfl, hcount⟩ := given_inj_of_pos hcx hcy hsame
    have := count_take_lt hx hij
    omega

end Binding

/-- After renaming, the bindings of a method have different names exactly when none of them was
spelled in the source like the name that a later binding of another name is given. -/
theorem bindings_distinct_iff (m : Method) :
    m.rename.bound.Nodup ↔
      ∀ x ∈ m.bound, ∀ y ∈ m.bound, ∀ k, k ≠ 0 → k < m.bound.count x → y ≠ Binding.given x k := by
  have hbound : Binder.names (m.params.map (⟨·, .argument⟩) ++ Stmt.bindersIn m.body) =
      m.bound := by
    simp [Binder.names, Function.comp_def, Method.bound]
  rw [Method.bound_rename]
  constructor
  · intro hnodup x hx y hy k hk hlt hspelled
    refine Binding.Clash.not_nodup ?_ hnodup
    rw [hbound]
    exact ⟨x, hx, k, hk, hlt, hspelled ▸ hy⟩
  · intro hnone
    apply Binding.nodup_of_not_clash
    rw [hbound]
    intro hclash
    obtain ⟨x, hx, k, hk, hlt, hmem⟩ := hclash
    exact hnone x hx _ hmem k hk hlt rfl

/-- A parameter with the spelling that the second binding of `x` is given. -/
def lookalike : Method where
  name := "m"
  params := ["x#1"]
  body := [.bind {} "x" (.int {} 1), .bind {} "x" (.int {} 2), .yield {} (.var {} "x#1")]

/-- The second binding of `x` gets the name of the parameter, and its value goes to the slot of the
parameter. -/
theorem lookalike_bindings_collide :
    lookalike.rename.bound = ["x#1", "x", "x#1"] ∧ ¬lookalike.rename.bound.Nodup ∧
      lookalike.split 4 = .ok (some
        { name := "m", kind := .iterator,
          states :=
            [{ id := 0, body := [.bind {} "x" (.int {} 1), .store {} 0 (.int {} 2)],
               exit := .suspend (.yield (.captured {} 0)) 1 },
              { id := 1, exit := .complete }],
          handlers := [],
          captures := ⟨[("x#1", { slot := 0, name := "x#1", origin := .parameter })]⟩,
          params := [0] }) := by
  have hbound : lookalike.rename.bound = ["x#1", "x", "x#1"] := by decide +kernel
  refine ⟨hbound, ?_, by decide +kernel⟩
  rw [hbound]
  decide

end Resumable

import Resumable.Binding
import Mathlib.Data.List.Nodup
import Mathlib.Data.List.TakeWhile

namespace Resumable

open List Stmt

/-- What is done with a name where it occurs. -/
inductive Role where
  | read | called | written
  deriving DecidableEq

structure Occurrence where
  name : String
  role : Role
  deriving DecidableEq

/-- The occurrences that are left once some names are bound. -/
def Occurrence.without (xs : List String) (os : List Occurrence) : List Occurrence :=
  os.filter fun o => !xs.contains o.name

/-- What binds a name inside of a body. -/
inductive Binder.Sort where
  | variable | fault | argument
  deriving DecidableEq

structure Binder where
  name : String
  sort : Binder.Sort
  deriving DecidableEq

/-- The occurrences of an expression in the place of a callee. -/
def Expr.called (e : Expr) (os : List Occurrence) : List Occurrence :=
  match e with
  | .var _ x => [⟨x, .called⟩]
  | _ => os

/-- The names that a statement binds for the statements after it. -/
def Stmt.binds : Stmt → List String
  | .bind _ x _ => [x]
  | _ => []

mutual

/-- The loose occurrences of an expression. -/
def Expr.loose : Expr → List Occurrence
  | .var _ x => [⟨x, .read⟩]
  | .binary _ _ l r => l.loose ++ r.loose
  | .unary _ _ e | .await _ e => e.loose
  | .call _ c es => c.called c.loose ++ Expr.looseIn es
  | .lambda _ ps b => Occurrence.without ps (Stmt.looseIn b)
  | .unit _ | .bool .. | .int .. | .str .. | .captured .. | .resume _ => []

def Expr.looseIn : List Expr → List Occurrence
  | [] => []
  | e :: es => e.loose ++ Expr.looseIn es

def Stmt.loose : Stmt → List Occurrence
  | .assign _ x e => e.loose ++ [⟨x, .written⟩]
  | .bind _ _ e | .store _ _ e | .eval _ e | .throw _ e | .yield _ e | .ret _ (some e) => e.loose
  | .cond _ t a b => t.loose ++ Stmt.looseIn a ++ Stmt.looseIn b
  | .loop _ t b => t.loose ++ Stmt.looseIn b
  | .attempt _ b c f => Stmt.looseIn b ++ Stmt.looseClause c ++ Stmt.looseCleanup f
  | .block _ b => Stmt.looseIn b
  | .ret _ none | .yieldBreak _ | .brk _ | .cont _ => []

def Stmt.looseClause : Option Catch → List Occurrence
  | none => []
  | some (.mk x b) => Occurrence.without x.toList (Stmt.looseIn b)

def Stmt.looseCleanup : Option (List Stmt) → List Occurrence
  | none => []
  | some b => Stmt.looseIn b

/-- The loose occurrences of a block. -/
def Stmt.looseIn : List Stmt → List Occurrence
  | [] => []
  | s :: ss => s.loose ++ Occurrence.without s.binds (Stmt.looseIn ss)

end

mutual

/-- The bindings inside of an expression, in the order in which they are given names. -/
def Expr.binders : Expr → List Binder
  | .binary _ _ l r => l.binders ++ r.binders
  | .unary _ _ e | .await _ e => e.binders
  | .call _ c es => c.binders ++ Expr.bindersIn es
  | .lambda _ ps b => ps.map (⟨·, .argument⟩) ++ Stmt.bindersIn b
  | .unit _ | .bool .. | .int .. | .str .. | .var .. | .captured .. | .resume _ => []

def Expr.bindersIn : List Expr → List Binder
  | [] => []
  | e :: es => e.binders ++ Expr.bindersIn es

def Stmt.binders : Stmt → List Binder
  | .bind _ x e => e.binders ++ [⟨x, .variable⟩]
  | .assign _ _ e | .store _ _ e | .eval _ e | .throw _ e | .yield _ e | .ret _ (some e) =>
    e.binders
  | .cond _ t a b => t.binders ++ Stmt.bindersIn a ++ Stmt.bindersIn b
  | .loop _ t b => t.binders ++ Stmt.bindersIn b
  | .attempt _ b c f => Stmt.bindersIn b ++ Stmt.clauseBinders c ++ Stmt.cleanupBinders f
  | .block _ b => Stmt.bindersIn b
  | .ret _ none | .yieldBreak _ | .brk _ | .cont _ => []

def Stmt.clauseBinders : Option Catch → List Binder
  | none => []
  | some (.mk x b) => x.toList.map (⟨·, .fault⟩) ++ Stmt.bindersIn b

def Stmt.cleanupBinders : Option (List Stmt) → List Binder
  | none => []
  | some b => Stmt.bindersIn b

def Stmt.bindersIn : List Stmt → List Binder
  | [] => []
  | s :: ss => s.binders ++ Stmt.bindersIn ss

end

def Binder.names (βs : List Binder) : List String :=
  βs.map (·.name)

/-- The names bound by the statements of a block themselves. -/
def Stmt.bindsIn (ss : Block) : List String :=
  ss.flatMap Stmt.binds

namespace Occurrence

theorem mem_without {xs : List String} {os : List Occurrence} {o : Occurrence} :
    o ∈ without xs os ↔ o ∈ os ∧ o.name ∉ xs := by
  simp [without]

@[simp] theorem without_nil (os : List Occurrence) : without [] os = os := by
  simp [without]

theorem without_append (xs : List String) (os os' : List Occurrence) :
    without xs (os ++ os') = without xs os ++ without xs os' :=
  filter_append ..

theorem without_without (xs ys : List String) (os : List Occurrence) :
    without xs (without ys os) = without (xs ++ ys) os := by
  simp [without, filter_filter]

end Occurrence

theorem Stmt.looseIn_append (ss ts : Block) :
    Stmt.looseIn (ss ++ ts) =
      Stmt.looseIn ss ++ Occurrence.without (Stmt.bindsIn ss) (Stmt.looseIn ts) := by
  induction ss with
  | nil => simp [looseIn, bindsIn]
  | cons s ss ih =>
    simp [looseIn, ih, bindsIn, Occurrence.without_append, Occurrence.without_without]

theorem Stmt.bindsIn_append (ss ts : Block) :
    Stmt.bindsIn (ss ++ ts) = Stmt.bindsIn ss ++ Stmt.bindsIn ts :=
  flatMap_append

theorem Stmt.mem_binders_of_binds {s : Stmt} {x : String} (h : x ∈ s.binds) :
    ⟨x, .variable⟩ ∈ s.binders := by
  cases s with
  | bind m y e =>
    cases mem_singleton.mp h
    simp [binders]
  | _ => cases h

/-- What the statements of a block bind is bound inside of it as a variable. -/
theorem Stmt.mem_bindersIn_of_bindsIn {ss : Block} {x : String} (h : x ∈ Stmt.bindsIn ss) :
    ⟨x, .variable⟩ ∈ Stmt.bindersIn ss := by
  induction ss with
  | nil => cases h
  | cons s ss ih =>
    rcases mem_append.mp h with h | h
    · exact mem_append_left _ (mem_binders_of_binds h)
    · exact mem_append_right _ (ih h)

/-- A name without the sign that tells the bindings of one name apart. -/
def Unmarked (x : String) : Prop :=
  '#' ∉ x.toList

instance (x : String) : Decidable (Unmarked x) :=
  inferInstanceAs (Decidable ('#' ∉ x.toList))

namespace Binding

variable {scope : Scope} {x y : String} {βs : List Binder} {b : Bound} {os : List Occurrence}
  {ss : Block} {k : Nat} {xs : List String}

/-- The name of the binding of `x` after `k` others. -/
def given (x : String) (k : Nat) : String :=
  if k = 0 then x else x ++ "#" ++ Nat.repr k

theorem fresh_eq (b : Bound) (x : String) : fresh b x = given x (b.count x) := by
  unfold fresh given
  split
  · next h => simp [h]
  · next h => rw [if_neg h]

theorem toList_given (x : String) (hk : k ≠ 0) :
    (given x k).toList = x.toList ++ '#' :: (Nat.repr k).toList := by
  simp [given, hk]

/-- A name given to a binding begins with the source name. -/
theorem takeWhile_given (hx : Unmarked x) (k : Nat) :
    (given x k).toList.takeWhile (· != '#') = x.toList := by
  have hall : ∀ c ∈ x.toList, (c != '#') = true := by
    intro c hc
    simp only [bne_iff_ne]
    rintro rfl
    exact hx hc
  by_cases hk : k = 0
  · rw [given, if_pos hk]
    exact takeWhile_eq_self_iff.mpr hall
  · rw [toList_given x hk, takeWhile_append_of_pos hall]
    simp

/-- The names given to bindings tell both the source name and its turn. -/
theorem given_inj {j : Nat} (hx : Unmarked x) (hy : Unmarked y) (h : given x j = given y k) :
    x = y ∧ j = k := by
  have hxy : x = y := by
    rw [String.ext_iff, ← takeWhile_given hx j, ← takeWhile_given hy k, h]
  subst hxy
  refine ⟨rfl, ?_⟩
  have hsharp : ∀ i, i ≠ 0 → given x i ≠ x := by
    intro i hi he
    apply hx
    rw [← he, toList_given x hi]
    simp
  by_cases hj : j = 0 <;> by_cases hk : k = 0
  · rw [hj, hk]
  · exact absurd (by rw [← h, hj]; rfl) (hsharp k hk)
  · exact absurd (by rw [h, hk]; rfl) (hsharp j hj)
  · rw [String.ext_iff, toList_given x hj, toList_given x hk] at h
    have hd : Nat.toDigits 10 j = Nat.toDigits 10 k := by simpa [Nat.repr] using h
    have hv := congrArg (Nat.ofDigitChars 10 · 0) hd
    simpa [Nat.ofDigitChars_toDigits] using hv

/-! What bindings become. -/

/-- Bindings under the names they are given, one after another. -/
def relabel (b : Bound) : List Binder → List Binder
  | [] => []
  | β :: βs => ⟨fresh b β.name, β.sort⟩ :: relabel (β.name :: b) βs

theorem relabel_append (b : Bound) (βs γs : List Binder) :
    relabel b (βs ++ γs) = relabel b βs ++ relabel ((Binder.names βs).reverse ++ b) γs := by
  induction βs generalizing b with
  | nil => rfl
  | cons β βs ih => simp [relabel, ih, Binder.names]

section

variable (scope : Scope) (xs : List String) (b : Bound)

theorem declareAll_bound : (declareAll scope xs b).2 = xs.reverse ++ b := by
  induction xs generalizing scope b with
  | nil => rfl
  | cons x xs ih =>
    have h : (declareAll scope (x :: xs) b).2 =
      (declareAll ((x, fresh b x) :: scope) xs (x :: b)).2 := rfl
    simp [h, ih]

theorem length_declareAll : (declareAll scope xs b).1.1.length = xs.length := by
  induction xs generalizing scope b with
  | nil => rfl
  | cons x xs ih => exact congrArg Nat.succ (ih _ _)

theorem declareAll_names (s : Binder.Sort) :
    (declareAll scope xs b).1.1.map (⟨·, s⟩) = relabel b (xs.map (⟨·, s⟩)) := by
  induction xs generalizing scope b with
  | nil => rfl
  | cons x xs ih => exact congrArg (_ :: ·) (ih _ _)

end

mutual

theorem bound_renameExpr (scope : Scope) (e : Expr) (b : Bound) :
    (renameExpr scope e b).2 = (Binder.names e.binders).reverse ++ b := by
  match e with
  | .binary m op l r =>
    refine (bound_renameExpr scope r _).trans ?_
    rw [bound_renameExpr scope l]
    simp [Expr.binders, Binder.names]
  | .unary m op e | .await m e => exact bound_renameExpr scope e b
  | .call m c es =>
    refine (bound_renameExprs scope es _).trans ?_
    rw [bound_renameExpr scope c]
    simp [Expr.binders, Binder.names]
  | .lambda m ps body =>
    refine (bound_renameBlock _ body _).trans ?_
    rw [declareAll_bound]
    simp [Expr.binders, Binder.names, Function.comp_def]
  | .unit m | .bool m _ | .int m _ | .str m _ | .var m _ | .captured m _ | .resume m => rfl

theorem bound_renameExprs (scope : Scope) (es : List Expr) (b : Bound) :
    (renameExprs scope es b).2 = (Binder.names (Expr.bindersIn es)).reverse ++ b := by
  match es with
  | [] => rfl
  | e :: es =>
    refine (bound_renameExprs scope es _).trans ?_
    rw [bound_renameExpr scope e]
    simp [Expr.bindersIn, Binder.names]

theorem bound_renameStmt (scope : Scope) (s : Stmt) (b : Bound) :
    (renameStmt scope s b).2 = (Binder.names s.binders).reverse ++ b := by
  match s with
  | .bind m x e =>
    have h : (renameStmt scope (.bind m x e) b).2 = x :: (renameExpr scope e b).2 := rfl
    rw [h, bound_renameExpr scope e]
    simp [binders, Binder.names]
  | .assign m x e | .store m k e | .eval m e | .throw m e | .yield m e | .ret m (some e) =>
    exact bound_renameExpr scope e b
  | .cond m t x y =>
    refine (bound_renameBlock scope y _).trans ?_
    rw [bound_renameBlock scope x, bound_renameExpr scope t]
    simp [binders, Binder.names]
  | .loop m t x =>
    refine (bound_renameBlock scope x _).trans ?_
    rw [bound_renameExpr scope t]
    simp [binders, Binder.names]
  | .attempt m x c f =>
    refine (bound_renameCleanup scope f _).trans ?_
    rw [bound_renameClause scope c, bound_renameBlock scope x]
    simp [binders, Binder.names]
  | .block m x => exact bound_renameBlock scope x b
  | .ret m none | .yieldBreak m | .brk m | .cont m => rfl

theorem bound_renameClause (scope : Scope) (c : Option Catch) (b : Bound) :
    (renameClause scope c b).2 = (Binder.names (Stmt.clauseBinders c)).reverse ++ b := by
  match c with
  | none => rfl
  | some (.mk none x) => exact bound_renameBlock scope x b
  | some (.mk (some y) x) =>
    refine (bound_renameBlock _ x _).trans ?_
    simp [clauseBinders, Binder.names]

theorem bound_renameCleanup (scope : Scope) (f : Option (List Stmt)) (b : Bound) :
    (renameCleanup scope f b).2 = (Binder.names (Stmt.cleanupBinders f)).reverse ++ b := by
  match f with
  | none => rfl
  | some x => exact bound_renameBlock scope x b

theorem bound_renameBlock (scope : Scope) (ss : List Stmt) (b : Bound) :
    (renameBlock scope ss b).2 = (Binder.names (Stmt.bindersIn ss)).reverse ++ b := by
  match ss with
  | [] => rfl
  | s :: ss =>
    refine (bound_renameBlock _ ss _).trans ?_
    rw [bound_renameStmt scope s]
    simp [bindersIn, Binder.names]

end

mutual

theorem binders_renameExpr (scope : Scope) (e : Expr) (b : Bound) :
    (renameExpr scope e b).1.binders = relabel b e.binders := by
  match e with
  | .binary m op l r =>
    rw [Expr.binders, relabel_append, ← bound_renameExpr scope l b]
    exact congrArg₂ (· ++ ·) (binders_renameExpr scope l _) (binders_renameExpr scope r _)
  | .unary m op e | .await m e => exact binders_renameExpr scope e b
  | .call m c es =>
    rw [Expr.binders, relabel_append, ← bound_renameExpr scope c b]
    exact congrArg₂ (· ++ ·) (binders_renameExpr scope c _) (binders_renameExprs scope es _)
  | .lambda m ps body =>
    have hb : (Binder.names (ps.map (⟨·, .argument⟩))).reverse ++ b =
        (declareAll scope ps b).2 := by
      simp [declareAll_bound, Binder.names, Function.comp_def]
    rw [Expr.binders, relabel_append, hb]
    exact congrArg₂ (· ++ ·) (declareAll_names scope ps b _) (binders_renameBlock _ body _)
  | .unit m | .bool m _ | .int m _ | .str m _ | .var m _ | .captured m _ | .resume m => rfl

theorem binders_renameExprs (scope : Scope) (es : List Expr) (b : Bound) :
    Expr.bindersIn (renameExprs scope es b).1 = relabel b (Expr.bindersIn es) := by
  match es with
  | [] => rfl
  | e :: es =>
    rw [Expr.bindersIn, relabel_append, ← bound_renameExpr scope e b]
    exact congrArg₂ (· ++ ·) (binders_renameExpr scope e _) (binders_renameExprs scope es _)

theorem binders_renameStmt (scope : Scope) (s : Stmt) (b : Bound) :
    (renameStmt scope s b).1.1.binders = relabel b s.binders := by
  match s with
  | .bind m x e =>
    rw [binders, relabel_append, ← bound_renameExpr scope e b]
    exact congrArg (· ++ _) (binders_renameExpr scope e _)
  | .assign m x e | .store m k e | .eval m e | .throw m e | .yield m e | .ret m (some e) =>
    exact binders_renameExpr scope e b
  | .cond m t x y =>
    rw [binders, append_assoc, relabel_append, relabel_append,
      ← bound_renameExpr scope t b, ← bound_renameBlock scope x, ← append_assoc]
    exact congrArg₂ (· ++ ·)
      (congrArg₂ (· ++ ·) (binders_renameExpr scope t _) (binders_renameBlock scope x _))
      (binders_renameBlock scope y _)
  | .loop m t x =>
    rw [binders, relabel_append, ← bound_renameExpr scope t b]
    exact congrArg₂ (· ++ ·) (binders_renameExpr scope t _) (binders_renameBlock scope x _)
  | .attempt m x c f =>
    rw [binders, append_assoc, relabel_append, relabel_append,
      ← bound_renameBlock scope x b, ← bound_renameClause scope c, ← append_assoc]
    exact congrArg₂ (· ++ ·)
      (congrArg₂ (· ++ ·) (binders_renameBlock scope x _) (binders_renameClause scope c _))
      (binders_renameCleanup scope f _)
  | .block m x => exact binders_renameBlock scope x b
  | .ret m none | .yieldBreak m | .brk m | .cont m => rfl

theorem binders_renameClause (scope : Scope) (c : Option Catch) (b : Bound) :
    Stmt.clauseBinders (renameClause scope c b).1 = relabel b (Stmt.clauseBinders c) := by
  match c with
  | none => rfl
  | some (.mk none x) => exact binders_renameBlock scope x b
  | some (.mk (some y) x) => exact congrArg (_ :: ·) (binders_renameBlock _ x _)

theorem binders_renameCleanup (scope : Scope) (f : Option (List Stmt)) (b : Bound) :
    Stmt.cleanupBinders (renameCleanup scope f b).1 = relabel b (Stmt.cleanupBinders f) := by
  match f with
  | none => rfl
  | some x => exact binders_renameBlock scope x b

theorem binders_renameBlock (scope : Scope) (ss : List Stmt) (b : Bound) :
    Stmt.bindersIn (renameBlock scope ss b).1 = relabel b (Stmt.bindersIn ss) := by
  match ss with
  | [] => rfl
  | s :: ss =>
    rw [bindersIn, relabel_append, ← bound_renameStmt scope s b]
    exact congrArg₂ (· ++ ·) (binders_renameStmt scope s _) (binders_renameBlock _ ss _)

end

theorem mem_names_relabel (h : y ∈ Binder.names (relabel b βs)) :
    ∃ x ∈ Binder.names βs, ∃ k, b.count x ≤ k ∧ y = given x k := by
  induction βs generalizing b with
  | nil => cases h
  | cons β βs ih =>
    rcases mem_cons.mp h with rfl | h
    · exact ⟨β.name, mem_cons_self, _, Nat.le_refl _, fresh_eq b β.name⟩
    · obtain ⟨x, hx, k, hk, rfl⟩ := ih h
      exact ⟨x, mem_cons_of_mem _ hx, k, Nat.le_trans count_le_count_cons hk, rfl⟩

theorem nodup_relabel (hp : ∀ x ∈ Binder.names βs, Unmarked x) :
    (Binder.names (relabel b βs)).Nodup := by
  induction βs generalizing b with
  | nil => exact nodup_nil
  | cons β βs ih =>
    obtain ⟨hβ, hβs⟩ := forall_mem_cons.mp hp
    refine nodup_cons.mpr ⟨fun h => ?_, ih hβs⟩
    obtain ⟨x, hx, k, hk, he⟩ := mem_names_relabel h
    have he' : given β.name (b.count β.name) = given x k := (fresh_eq b β.name).symm.trans he
    obtain ⟨hname, hcount⟩ := given_inj hβ (hβs x hx) he'
    rw [← hname, count_cons_self, hcount] at hk
    exact Nat.not_succ_le_self k hk

/-! What occurrences become. -/

/-- The occurrence of the name that this one refers to. -/
def follow (scope : Scope) (o : Occurrence) : Occurrence :=
  { o with name := resolve scope o.name }

/-- Every name in sight has been given by the rule. -/
def Ruled (scope : Scope) : Prop :=
  ∀ x y, scope.lookup x = some y → ∃ k, y = given x k

theorem resolve_cons_of_ne (z : String) (h : y ≠ x) :
    resolve ((x, z) :: scope) y = resolve scope y := by
  simp [resolve, lookup_cons, beq_false_of_ne h]

section

variable (hs : Ruled scope)
include hs

theorem resolve_given (x : String) : ∃ k, resolve scope x = given x k := by
  unfold resolve
  cases h : scope.lookup x with
  | none => exact ⟨0, by simp [given]⟩
  | some y => exact hs x y h

theorem Ruled.cons (x : String) (b : Bound) : Ruled ((x, fresh b x) :: scope) := by
  intro y z h
  rw [lookup_cons] at h
  split at h
  · next hy =>
    cases h
    rw [eq_of_beq hy]
    exact ⟨_, fresh_eq b x⟩
  · exact hs y z h

theorem Ruled.declareAll (xs : List String) (b : Bound) : Ruled (declareAll scope xs b).1.2 := by
  induction xs generalizing scope b with
  | nil => exact hs
  | cons x xs ih => exact ih (hs.cons x b) _

/-- Below a new binding the other names refer to what they referred to before, and none of them to
the new one. -/
theorem without_follow_cons (hx : Unmarked x) (ho : ∀ o ∈ os, Unmarked o.name) :
    Occurrence.without [fresh b x] (os.map (follow ((x, fresh b x) :: scope))) =
      (Occurrence.without [x] os).map (follow scope) := by
  have hkeep : ∀ o ∈ os, (!([fresh b x] : List String).contains
      (follow ((x, fresh b x) :: scope) o).name) = !([x] : List String).contains o.name := by
    intro o hm
    by_cases h : o.name = x
    · simp [follow, resolve, h]
    · obtain ⟨k, hk⟩ := resolve_given hs o.name
      have hne : resolve scope o.name ≠ fresh b x := by
        rw [hk, fresh_eq]
        exact fun he => h (given_inj (ho o hm) hx he).1
      simp [follow, resolve_cons_of_ne _ h, hne, h]
  unfold Occurrence.without
  rw [filter_map, filter_congr (q := fun o => !([x] : List String).contains o.name)
    (by simpa using hkeep)]
  apply map_congr_left
  intro o hm
  have h : o.name ≠ x := by simpa using (mem_filter.mp hm).2
  simp [follow, resolve_cons_of_ne _ h]

theorem without_follow_declareAll (hx : ∀ x ∈ xs, Unmarked x)
    (ho : ∀ o ∈ os, Unmarked o.name) :
    Occurrence.without (declareAll scope xs b).1.1 (os.map (follow (declareAll scope xs b).1.2)) =
      (Occurrence.without xs os).map (follow scope) := by
  induction xs generalizing scope b with
  | nil =>
    rw [Occurrence.without_nil]
    exact Occurrence.without_nil _
  | cons x xs ih =>
    obtain ⟨hx, hxs⟩ := forall_mem_cons.mp hx
    let scope' : Scope := (x, fresh b x) :: scope
    have h : declareAll scope (x :: xs) b =
      ((fresh b x :: (declareAll scope' xs (x :: b)).1.1, (declareAll scope' xs (x :: b)).1.2),
        (declareAll scope' xs (x :: b)).2) := rfl
    have hrest : ∀ o ∈ Occurrence.without xs os, Unmarked o.name :=
      fun o hm => ho o (Occurrence.mem_without.mp hm).1
    calc Occurrence.without (declareAll scope (x :: xs) b).1.1
          (os.map (follow (declareAll scope (x :: xs) b).1.2))
      _ = Occurrence.without [fresh b x] (Occurrence.without (declareAll scope' xs (x :: b)).1.1
            (os.map (follow (declareAll scope' xs (x :: b)).1.2))) := by
          rw [h, Occurrence.without_without, singleton_append]
      _ = Occurrence.without [fresh b x] ((Occurrence.without xs os).map (follow scope')) := by
          rw [ih (hs.cons x b) hxs]
      _ = (Occurrence.without [x] (Occurrence.without xs os)).map (follow scope) :=
          without_follow_cons hs hx hrest
      _ = (Occurrence.without (x :: xs) os).map (follow scope) := by
          rw [Occurrence.without_without, singleton_append]

end

/-- Neither the bindings of a piece of code nor its loose occurrences have names like those that
bindings are given. -/
def UnmarkedIn (βs : List Binder) (os : List Occurrence) : Prop :=
  (∀ x ∈ Binder.names βs, Unmarked x) ∧ ∀ o ∈ os, Unmarked o.name

theorem UnmarkedIn.append {γs : List Binder} {os' : List Occurrence}
    (h : UnmarkedIn (βs ++ γs) (os ++ os')) : UnmarkedIn βs os ∧ UnmarkedIn γs os' := by
  simp only [UnmarkedIn, Binder.names, map_append, forall_mem_append] at h ⊢
  exact ⟨⟨h.1.1, h.2.1⟩, h.1.2, h.2.2⟩

theorem UnmarkedIn.without (h : UnmarkedIn βs (Occurrence.without xs os))
    (hx : ∀ x ∈ xs, Unmarked x) : UnmarkedIn βs os := by
  refine ⟨h.1, fun o hm => ?_⟩
  by_cases hb : o.name ∈ xs
  · exact hx _ hb
  · exact h.2 o (Occurrence.mem_without.mpr ⟨hm, hb⟩)

theorem UnmarkedIn.callee {c : Expr} (h : UnmarkedIn βs (c.called c.loose)) :
    UnmarkedIn βs c.loose := by
  cases c with
  | var m x => exact ⟨h.1, by simpa [Expr.loose, Expr.called] using h.2⟩
  | _ => exact h

theorem UnmarkedIn.lambda {ps : List String}
    (h : UnmarkedIn (ps.map (⟨·, .argument⟩) ++ Stmt.bindersIn ss)
      (Occurrence.without ps (Stmt.looseIn ss))) :
    (∀ x ∈ ps, Unmarked x) ∧ UnmarkedIn (Stmt.bindersIn ss) (Stmt.looseIn ss) := by
  obtain ⟨hp, hb⟩ := h
  simp only [Binder.names, map_append, forall_mem_append] at hp
  have hps : ∀ x ∈ ps, Unmarked x := by simpa using hp.1
  exact ⟨hps, UnmarkedIn.without ⟨hp.2, hb⟩ hps⟩

theorem UnmarkedIn.clause
    (h : UnmarkedIn (⟨x, .fault⟩ :: Stmt.bindersIn ss) (Occurrence.without [x] (Stmt.looseIn ss))) :
    Unmarked x ∧ UnmarkedIn (Stmt.bindersIn ss) (Stmt.looseIn ss) := by
  obtain ⟨hx, hb⟩ := forall_mem_cons.mp h.1
  exact ⟨hx, UnmarkedIn.without ⟨hb, h.2⟩ (by simpa using hx)⟩

theorem UnmarkedIn.block {s : Stmt}
    (h : UnmarkedIn (Stmt.bindersIn (s :: ss)) (Stmt.looseIn (s :: ss))) :
    UnmarkedIn s.binders s.loose ∧ UnmarkedIn (Stmt.bindersIn ss) (Stmt.looseIn ss) := by
  obtain ⟨hs, hss⟩ := UnmarkedIn.append h
  refine ⟨hs, hss.without fun x hx => hs.1 x ?_⟩
  exact mem_map.mpr ⟨_, mem_binders_of_binds hx, rfl⟩

/-- What a statement adds to the names in sight. -/
theorem scope_renameStmt (scope : Scope) (s : Stmt) (b : Bound) :
    (∃ x b', s.binds = [x] ∧ (renameStmt scope s b).1.1.binds = [fresh b' x] ∧
      (renameStmt scope s b).1.2 = (x, fresh b' x) :: scope) ∨
    (s.binds = [] ∧ (renameStmt scope s b).1.1.binds = [] ∧
      (renameStmt scope s b).1.2 = scope) := by
  cases s with
  | bind m x e => exact .inl ⟨x, (renameExpr scope e b).2, rfl, rfl, rfl⟩
  | ret m v => cases v <;> exact .inr ⟨rfl, rfl, rfl⟩
  | _ => exact .inr ⟨rfl, rfl, rfl⟩

theorem called_follow (scope : Scope) (c : Expr) (b : Bound) (os : List Occurrence) :
    (renameExpr scope c b).1.called (os.map (follow scope)) = (c.called os).map (follow scope) := by
  cases c <;> rfl

mutual

theorem loose_renameExpr {scope : Scope} (hs : Ruled scope) (e : Expr) (b : Bound)
    (hp : UnmarkedIn e.binders e.loose) :
    (renameExpr scope e b).1.loose = e.loose.map (follow scope) := by
  match e with
  | .binary m op l r =>
    obtain ⟨hl, hr⟩ := UnmarkedIn.append hp
    rw [Expr.loose, map_append]
    exact congrArg₂ (· ++ ·) (loose_renameExpr hs l _ hl) (loose_renameExpr hs r _ hr)
  | .unary m op e | .await m e => exact loose_renameExpr hs e b hp
  | .call m c es =>
    obtain ⟨hc, hes⟩ := UnmarkedIn.append hp
    rw [Expr.loose, map_append, ← called_follow scope c b, ← loose_renameExpr hs c b hc.callee]
    exact congrArg (_ ++ ·) (loose_renameExprs hs es _ hes)
  | .lambda m ps body =>
    obtain ⟨hps, hb⟩ := UnmarkedIn.lambda hp
    have h := loose_renameBlock (hs.declareAll ps b) body (declareAll scope ps b).2 hb
    have hloose : (renameExpr scope (.lambda m ps body) b).1.loose =
      Occurrence.without (declareAll scope ps b).1.1
        (looseIn (renameBlock (declareAll scope ps b).1.2 body (declareAll scope ps b).2).1) :=
      rfl
    rw [hloose, h, Expr.loose, without_follow_declareAll hs hps hb.2]
  | .unit m | .bool m _ | .int m _ | .str m _ | .var m _ | .captured m _ | .resume m => rfl

theorem loose_renameExprs {scope : Scope} (hs : Ruled scope) (es : List Expr) (b : Bound)
    (hp : UnmarkedIn (Expr.bindersIn es) (Expr.looseIn es)) :
    Expr.looseIn (renameExprs scope es b).1 = (Expr.looseIn es).map (follow scope) := by
  match es with
  | [] => rfl
  | e :: es =>
    obtain ⟨he, hes⟩ := UnmarkedIn.append hp
    rw [Expr.looseIn, map_append]
    exact congrArg₂ (· ++ ·) (loose_renameExpr hs e _ he) (loose_renameExprs hs es _ hes)

theorem loose_renameStmt {scope : Scope} (hs : Ruled scope) (s : Stmt) (b : Bound)
    (hp : UnmarkedIn s.binders s.loose) :
    (renameStmt scope s b).1.1.loose = s.loose.map (follow scope) := by
  match s with
  | .bind m x e =>
    have he : UnmarkedIn e.binders e.loose :=
      ⟨fun y hy => hp.1 y (by simpa [binders, Binder.names] using .inl (mem_map.mp hy)), hp.2⟩
    exact loose_renameExpr hs e b he
  | .assign m x e =>
    have he : UnmarkedIn e.binders e.loose :=
      ⟨hp.1, fun o ho => hp.2 o (mem_append_left _ ho)⟩
    rw [loose, map_append]
    exact congrArg (· ++ _) (loose_renameExpr hs e b he)
  | .store m k e | .eval m e | .throw m e | .yield m e | .ret m (some e) =>
    exact loose_renameExpr hs e b hp
  | .cond m t x y =>
    obtain ⟨htx, hy⟩ := UnmarkedIn.append hp
    obtain ⟨ht, hx⟩ := UnmarkedIn.append htx
    rw [loose, map_append, map_append]
    exact congrArg₂ (· ++ ·)
      (congrArg₂ (· ++ ·) (loose_renameExpr hs t _ ht) (loose_renameBlock hs x _ hx))
      (loose_renameBlock hs y _ hy)
  | .loop m t x =>
    obtain ⟨ht, hx⟩ := UnmarkedIn.append hp
    rw [loose, map_append]
    exact congrArg₂ (· ++ ·) (loose_renameExpr hs t _ ht) (loose_renameBlock hs x _ hx)
  | .attempt m x c f =>
    obtain ⟨hxc, hf⟩ := UnmarkedIn.append hp
    obtain ⟨hx, hc⟩ := UnmarkedIn.append hxc
    rw [loose, map_append, map_append]
    exact congrArg₂ (· ++ ·)
      (congrArg₂ (· ++ ·) (loose_renameBlock hs x _ hx) (loose_renameClause hs c _ hc))
      (loose_renameCleanup hs f _ hf)
  | .block m x => exact loose_renameBlock hs x b hp
  | .ret m none | .yieldBreak m | .brk m | .cont m => rfl

theorem loose_renameClause {scope : Scope} (hs : Ruled scope) (c : Option Catch) (b : Bound)
    (hp : UnmarkedIn (Stmt.clauseBinders c) (Stmt.looseClause c)) :
    Stmt.looseClause (renameClause scope c b).1 = (Stmt.looseClause c).map (follow scope) := by
  match c with
  | none => rfl
  | some (.mk none x) =>
    have hp : UnmarkedIn (bindersIn x) (looseIn x) := by
      simpa [clauseBinders, looseClause] using hp
    simp only [looseClause, Option.toList_none, Occurrence.without_nil]
    rw [← loose_renameBlock hs x b hp]
    exact Occurrence.without_nil _
  | some (.mk (some y) x) =>
    obtain ⟨hy, hx⟩ := UnmarkedIn.clause hp
    have h := loose_renameBlock (hs.cons y b) x (y :: b) hx
    have hloose : looseClause (renameClause scope (some (.mk (some y) x)) b).1 =
      Occurrence.without [fresh b y]
        (looseIn (renameBlock ((y, fresh b y) :: scope) x (y :: b)).1) := rfl
    rw [hloose, h]
    exact without_follow_cons hs hy hx.2

theorem loose_renameCleanup {scope : Scope} (hs : Ruled scope) (f : Option (List Stmt)) (b : Bound)
    (hp : UnmarkedIn (Stmt.cleanupBinders f) (Stmt.looseCleanup f)) :
    Stmt.looseCleanup (renameCleanup scope f b).1 = (Stmt.looseCleanup f).map (follow scope) := by
  match f with
  | none => rfl
  | some x => exact loose_renameBlock hs x b hp

theorem loose_renameBlock {scope : Scope} (hs : Ruled scope) (ss : List Stmt) (b : Bound)
    (hp : UnmarkedIn (Stmt.bindersIn ss) (Stmt.looseIn ss)) :
    Stmt.looseIn (renameBlock scope ss b).1 = (Stmt.looseIn ss).map (follow scope) := by
  match ss with
  | [] => rfl
  | s :: ss =>
    obtain ⟨hs', hss⟩ := hp.block
    have hloose : looseIn (renameBlock scope (s :: ss) b).1 =
      (renameStmt scope s b).1.1.loose ++ Occurrence.without (renameStmt scope s b).1.1.binds
        (looseIn (renameBlock (renameStmt scope s b).1.2 ss (renameStmt scope s b).2).1) := rfl
    rw [hloose, loose_renameStmt hs s b hs', looseIn, map_append]
    rcases scope_renameStmt scope s b with ⟨x, b', hb, hb', hscope⟩ | ⟨hb, hb', hscope⟩
    · have hx : Unmarked x := by
        refine hs'.1 x (mem_map.mpr ⟨_, mem_binders_of_binds ?_, rfl⟩)
        rw [hb]
        exact mem_singleton.mpr rfl
      rw [hb, hb', hscope, loose_renameBlock (hs.cons x b') ss _ hss,
        without_follow_cons hs hx hss.2]
    · rw [hb, hb', hscope, loose_renameBlock hs ss _ hss, Occurrence.without_nil,
        Occurrence.without_nil]

end

end Binding

/-! Whole methods. -/

namespace Method

/-- The occurrences that no binding of the method reaches. -/
def loose (m : Method) : List Occurrence :=
  Occurrence.without m.params (Stmt.looseIn m.body)

/-- The names of the bindings of a method, parameters first. -/
def bound (m : Method) : List String :=
  m.params ++ Binder.names (Stmt.bindersIn m.body)

/-- All names that stand in a method. -/
def names (m : Method) : List String :=
  m.bound ++ (Stmt.looseIn m.body).map (·.name)

/-- A binding reaches every name, except for those of functions of the host where they are called.
These are not names of bindings. -/
def Scoped (m : Method) : Prop :=
  ∀ o ∈ m.loose, o.role = .called ∧ o.name ∉ m.bound

instance (m : Method) : Decidable m.Scoped :=
  inferInstanceAs (Decidable (∀ o ∈ m.loose, o.role = .called ∧ o.name ∉ m.bound))

variable {m : Method}

theorem mem_bound_of_binders {β : Binder} (h : β ∈ Stmt.bindersIn m.body) : β.name ∈ m.bound :=
  mem_append_right _ (mem_map.mpr ⟨β, h, rfl⟩)

section

variable (hm : ∀ x ∈ m.names, Unmarked x)
include hm

theorem unmarked_bound : ∀ x ∈ m.bound, Unmarked x :=
  fun x hx => hm x (mem_append_left _ hx)

theorem unmarked_loose : ∀ o ∈ m.loose, Unmarked o.name := by
  intro o ho
  refine hm _ (mem_append_right _ (mem_map.mpr ⟨o, ?_, rfl⟩))
  exact (Occurrence.mem_without.mp ho).1

/-- Renaming leaves alone what no binding reaches. -/
theorem loose_rename : m.rename.loose = m.loose := by
  have hp : Binding.UnmarkedIn (bindersIn m.body) (looseIn m.body) := by
    refine ⟨fun x hx => hm x ?_, fun o ho => hm _ ?_⟩
    · exact mem_append_left _ (mem_append_right _ hx)
    · exact mem_append_right _ (mem_map.mpr ⟨o, ho, rfl⟩)
  have hparams : ∀ x ∈ m.params, Unmarked x :=
    fun x hx => hm x (mem_append_left _ (mem_append_left _ hx))
  have hruled : Binding.Ruled [] := nofun
  have hfollow : Binding.follow [] = id := rfl
  have hloose : m.rename.loose =
    Occurrence.without (Binding.declareAll [] m.params []).1.1
      (looseIn (Binding.renameBlock (Binding.declareAll [] m.params []).1.2 m.body
        (Binding.declareAll [] m.params []).2).1) := rfl
  rw [hloose, Binding.loose_renameBlock (hruled.declareAll _ _) m.body _ hp,
    Binding.without_follow_declareAll hruled hparams hp.2, hfollow, map_id]
  rfl

end

/-- The bindings inside of the renamed method, in the same order and of the same sorts. -/
theorem binders_rename (m : Method) : Stmt.bindersIn m.rename.body =
    Binding.relabel m.params.reverse (Stmt.bindersIn m.body) := by
  have h := Binding.declareAll_bound [] m.params []
  rw [append_nil] at h
  rw [← h]
  exact Binding.binders_renameBlock _ m.body _

theorem bound_rename (m : Method) : m.rename.bound = Binder.names
    (Binding.relabel [] (m.params.map (⟨·, .argument⟩) ++ Stmt.bindersIn m.body)) := by
  have hn := Binding.declareAll_names [] m.params [] .argument
  have hr : (Binder.names (m.params.map (⟨·, .argument⟩))).reverse ++ [] = m.params.reverse := by
    simp [Binder.names, Function.comp_def]
  have hp : m.rename.params = Binder.names (m.rename.params.map (⟨·, .argument⟩)) := by
    simp [Binder.names, Function.comp_def]
  rw [bound, Binding.relabel_append, hr, ← hn, ← binders_rename]
  conv_lhs => rw [hp]
  exact (map_append ..).symm

/-- After renaming no two bindings have the same name. -/
theorem nodup_bound_rename (hm : ∀ x ∈ m.names, Unmarked x) : m.rename.bound.Nodup := by
  rw [bound_rename]
  apply Binding.nodup_relabel
  intro x hx
  refine unmarked_bound hm x ?_
  simpa [Binder.names, Function.comp_def, bound] using hx

/-- A binding is given a name with the spelling of its source name only if it is the first. -/
theorem mem_bound_of_rename (hm : ∀ x ∈ m.names, Unmarked x) {x : String} (hx : Unmarked x)
    (h : x ∈ m.rename.bound) : x ∈ m.bound := by
  rw [bound_rename] at h
  obtain ⟨y, hy, k, -, hk⟩ := Binding.mem_names_relabel h
  have hy : y ∈ m.bound := by simpa [Binder.names, Function.comp_def, bound] using hy
  have hg : Binding.given x 0 = Binding.given y k := hk
  obtain ⟨rfl, -⟩ := Binding.given_inj hx (unmarked_bound hm y hy) hg
  exact hy

theorem Scoped.rename (hs : m.Scoped) (hm : ∀ x ∈ m.names, Unmarked x) : m.rename.Scoped := by
  intro o ho
  rw [loose_rename hm] at ho
  obtain ⟨hr, hb⟩ := hs o ho
  exact ⟨hr, fun h => hb (mem_bound_of_rename hm (unmarked_loose hm o ho) h)⟩

end Method

end Resumable

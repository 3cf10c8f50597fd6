import Resumable.Proofs.Contents
import Resumable.Proofs.Coverage

namespace Resumable

open List Stmt

structure Standard where
  /-- No pauses, no jumps without a target, no slots that do not exist. -/
  strict : Bool
  /-- No names that are not in sight, no slots that have not been set. -/
  definite : Bool

section

variable (S : Standard) (size : Nat)

mutual

/-- The expression meets the standard, where the names `xs` are in sight, the slots `js` have been
set, and there are `size` slots. -/
def Expr.Fit (xs : List String) (js : List Slot) : Expr → Prop
  | .unit _ | .bool .. | .int .. | .str .. => True
  | .var _ x => S.definite = true → x ∈ xs
  | .captured _ k => (S.strict = true → k < size) ∧ (S.definite = true → k ∈ js)
  | .binary _ _ l r => l.Fit xs js ∧ r.Fit xs js
  | .unary _ _ e => e.Fit xs js
  | .call _ c es => ((∀ m x, c ≠ .var m x) → c.Fit xs js) ∧ Expr.FitIn xs js es
  | .lambda _ ps b => Stmt.FitIn (xs ++ ps) js true false b
  | .resume _ | .await .. => S.strict = false

def Expr.FitIn (xs : List String) (js : List Slot) : List Expr → Prop
  | [] => True
  | e :: es => e.Fit xs js ∧ Expr.FitIn xs js es

/-- The same for a statement, which may also return if `ret`, and break or continue the loop
around it if `loop`. -/
def Stmt.Fit (xs : List String) (js : List Slot) (ret loop : Bool) : Stmt → Prop
  | .bind _ _ e | .eval _ e | .throw _ e => e.Fit xs js
  | .assign _ x e => (S.definite = true → x ∈ xs) ∧ e.Fit xs js
  | .store _ k e => (S.strict = true → k < size) ∧ e.Fit xs js
  | .cond _ t a b =>
    t.Fit xs js ∧ Stmt.FitIn xs js ret loop a ∧ Stmt.FitIn xs js ret loop b
  | .loop _ t b => t.Fit xs js ∧ Stmt.FitIn xs js ret true b
  | .attempt _ b c f =>
    Stmt.FitIn xs js ret loop b ∧ Stmt.ClauseFit xs js ret loop c ∧ Stmt.CleanupFit xs js ret loop f
  | .ret _ none => S.strict = true → ret = true
  | .ret _ (some e) => (S.strict = true → ret = true) ∧ e.Fit xs js
  | .brk _ | .cont _ => S.strict = true → loop = true
  | .block _ b => Stmt.FitIn xs js ret loop b
  | .yield .. | .yieldBreak _ => S.strict = false

def Stmt.ClauseFit (xs : List String) (js : List Slot) (ret loop : Bool) : Option Catch → Prop
  | none => True
  | some (.mk x b) => Stmt.FitIn (xs ++ x.toList) js ret loop b

def Stmt.CleanupFit (xs : List String) (js : List Slot) (ret loop : Bool) :
    Option (List Stmt) → Prop
  | none => True
  | some b => Stmt.FitIn xs js ret loop b

/-- Each statement finds what those before it have bound and set. -/
def Stmt.FitIn (xs : List String) (js : List Slot) (ret loop : Bool) : List Stmt → Prop
  | [] => True
  | s :: ss => s.Fit xs js ret loop ∧ Stmt.FitIn (xs ++ s.binds) (js ++ s.sets) ret loop ss

end

end

/-- Code that can be run if the standard is strict, and that takes only what is there if it is
definite. -/
structure Standard.Met (S : Standard) (xs : List String) (js : List Slot) (runs : Bool)
    (loose : List Occurrence) (reads : List Slot) : Prop where
  strict : S.strict = true → runs = true
  names : S.definite = true → Reached Called xs loose
  slots : S.definite = true → reads ⊆ js

namespace Standard.Met

variable {S : Standard} {xs ys : List String} {js : List Slot} {p q : Bool}
  {os os' : List Occurrence} {ks ks' : List Slot}

theorem left (h : S.Met xs js (p && q) (os ++ os') (ks ++ ks')) : S.Met xs js p os ks where
  strict := fun hs => (Bool.and_eq_true_iff.mp (h.strict hs)).1
  names := fun hs => (Reached.append.mp (h.names hs)).1
  slots := fun hs => (append_subset.mp (h.slots hs)).1

theorem right (h : S.Met xs js (p && q) (os ++ os') (ks ++ ks')) : S.Met xs js q os' ks' where
  strict := fun hs => (Bool.and_eq_true_iff.mp (h.strict hs)).2
  names := fun hs => (Reached.append.mp (h.names hs)).2
  slots := fun hs => (append_subset.mp (h.slots hs)).2

theorem condition (h : S.Met xs js (p && q) os ks) :
    (S.strict = true → p = true) ∧ S.Met xs js q os ks :=
  ⟨fun hs => (Bool.and_eq_true_iff.mp (h.strict hs)).1,
    fun hs => (Bool.and_eq_true_iff.mp (h.strict hs)).2, h.names, h.slots⟩

theorem under (h : S.Met xs js p (Occurrence.without ys os) ks) : S.Met (xs ++ ys) js p os ks :=
  ⟨h.strict, fun hs => Reached.without.mp (h.names hs), h.slots⟩

theorem cons {s : Stmt} {ss : Block}
    (h : S.Met xs js (p && q) (Stmt.looseIn (s :: ss)) (Stmt.readsIn (s :: ss))) :
    S.Met xs js p s.loose s.reads ∧
      S.Met (xs ++ s.binds) (js ++ s.sets) q (Stmt.looseIn ss) (Stmt.readsIn ss) := by
  refine ⟨⟨h.condition.1, fun hs => (Reached.cons.mp (h.names hs)).1, fun hs k hk => ?_⟩,
    ⟨h.condition.2.strict, fun hs => (Reached.cons.mp (h.names hs)).2, fun hs k hk => ?_⟩⟩
  · exact h.slots hs (mem_readsIn_cons.mpr (.inl hk))
  · by_cases hset : k ∈ s.sets
    · exact mem_append_right _ hset
    · exact mem_append_left _ (h.slots hs (mem_readsIn_cons.mpr (.inr ⟨hk, hset⟩)))

end Standard.Met

section

variable {S : Standard} {size : Nat}

mutual

theorem Expr.fit {xs : List String} {js : List Slot} (e : Expr)
    (h : S.Met xs js (e.runs true size) e.loose e.reads) : e.Fit S size xs js := by
  match e with
  | .unit _ | .bool .. | .int .. | .str .. => trivial
  | .var _ x =>
    intro hs
    exact (h.names hs ⟨x, .read⟩ (mem_singleton.mpr rfl)).resolve_left nofun
  | .captured _ k =>
    exact ⟨fun hs => of_decide_eq_true (h.strict hs),
      fun hs => h.slots hs (mem_singleton.mpr rfl)⟩
  | .binary _ _ l r =>
    simp only [Expr.runs, Expr.loose, Expr.reads] at h
    exact ⟨Expr.fit l h.left, Expr.fit r h.right⟩
  | .unary _ _ e => exact Expr.fit e h
  | .call _ c es =>
    simp only [Expr.runs, Expr.loose, Expr.reads] at h
    refine ⟨fun hc => Expr.fit c ?_, Expr.fitIn es h.right⟩
    have hcalled : c.called c.loose = c.loose := by
      cases c with
      | var m x => exact absurd rfl (hc m x)
      | _ => rfl
    exact hcalled ▸ h.left
  | .lambda _ ps b =>
    simp only [Expr.runs, Expr.loose, Expr.reads] at h
    exact Stmt.fitIn b h.under.condition.2
  | .resume _ | .await .. =>
    cases hs : S.strict with
    | false => exact hs
    | true => cases h.strict hs

theorem Expr.fitIn {xs : List String} {js : List Slot} (es : List Expr)
    (h : S.Met xs js (Expr.runIn true size es) (Expr.looseIn es) (Expr.readsIn es)) :
    Expr.FitIn S size xs js es := by
  match es with
  | [] => trivial
  | e :: es =>
    simp only [Expr.runIn, Expr.looseIn, Expr.readsIn] at h
    exact ⟨Expr.fit e h.left, Expr.fitIn es h.right⟩

theorem Stmt.fit {xs : List String} {js : List Slot} {ret loop : Bool} (s : Stmt)
    (h : S.Met xs js (s.runs true size ret loop) s.loose s.reads) :
    s.Fit S size xs js ret loop := by
  match s with
  | .bind _ _ e | .eval _ e | .throw _ e => exact Expr.fit e h
  | .assign _ x e =>
    simp only [runs, loose, reads] at h
    have hsplit : S.Met xs js (e.runs true size && true) (e.loose ++ [⟨x, .written⟩])
        (e.reads ++ []) := by
      simpa using h
    refine ⟨fun hs => ?_, Expr.fit e hsplit.left⟩
    exact (hsplit.right.names hs ⟨x, .written⟩ (mem_singleton.mpr rfl)).resolve_left nofun
  | .store _ k e =>
    simp only [runs, loose, reads] at h
    exact ⟨fun hs => of_decide_eq_true (h.condition.1 hs), Expr.fit e h.condition.2⟩
  | .cond _ t a b =>
    simp only [runs, loose, reads] at h
    exact ⟨Expr.fit t h.left.left, Stmt.fitIn a h.left.right, Stmt.fitIn b h.right⟩
  | .loop _ t b =>
    simp only [runs, loose, reads] at h
    exact ⟨Expr.fit t h.left, Stmt.fitIn b h.right⟩
  | .attempt _ b c f =>
    simp only [runs, loose, reads] at h
    exact ⟨Stmt.fitIn b h.left.left, Stmt.clauseFit c h.left.right, Stmt.cleanupFit f h.right⟩
  | .ret _ none => exact h.strict
  | .ret _ (some e) =>
    simp only [runs, loose, reads] at h
    exact ⟨h.condition.1, Expr.fit e h.condition.2⟩
  | .brk _ | .cont _ => exact h.strict
  | .block _ b => exact Stmt.fitIn b h
  | .yield .. | .yieldBreak _ =>
    cases hs : S.strict with
    | false => exact hs
    | true => cases h.strict hs

theorem Stmt.clauseFit {xs : List String} {js : List Slot} {ret loop : Bool} (c : Option Catch)
    (h : S.Met xs js (Stmt.clauseRuns true size ret loop c) (Stmt.looseClause c)
      (Stmt.clauseReads c)) : Stmt.ClauseFit S size xs js ret loop c := by
  match c with
  | none => trivial
  | some (.mk x b) =>
    simp only [clauseRuns, looseClause, clauseReads] at h
    exact Stmt.fitIn b h.under

theorem Stmt.cleanupFit {xs : List String} {js : List Slot} {ret loop : Bool}
    (f : Option (List Stmt))
    (h : S.Met xs js (Stmt.cleanupRuns true size ret loop f) (Stmt.looseCleanup f)
      (Stmt.cleanupReads f)) : Stmt.CleanupFit S size xs js ret loop f := by
  match f with
  | none => trivial
  | some b => exact Stmt.fitIn b h

theorem Stmt.fitIn {xs : List String} {js : List Slot} {ret loop : Bool} (ss : List Stmt)
    (h : S.Met xs js (Stmt.runIn true size ret loop ss) (Stmt.looseIn ss) (Stmt.readsIn ss)) :
    Stmt.FitIn S size xs js ret loop ss := by
  match ss with
  | [] => trivial
  | s :: ss =>
    rw [runIn] at h
    exact ⟨Stmt.fit s h.cons.1, Stmt.fitIn ss h.cons.2⟩

end

end

end Resumable

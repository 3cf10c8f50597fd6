import Resumable.Proofs.Pauses
import Resumable.Proofs.Slots

namespace Resumable

open Stmt

section

variable (lam : Bool)

mutual

/-- The expression holds no pause, and its slots are among the first `size`. There are lambdas in
it only if `lam`; the body of one may return. -/
def Expr.runs (size : Nat) : Expr → Bool
  | .captured _ k => k < size
  | .binary _ _ l r => l.runs size && r.runs size
  | .unary _ _ e => e.runs size
  | .call _ c es => c.runs size && Expr.runIn size es
  | .lambda _ _ b => lam && Stmt.runIn size true false b
  | .await .. | .resume _ => false
  | .unit _ | .bool .. | .int .. | .str .. | .var .. => true

def Expr.runIn (size : Nat) : List Expr → Bool
  | [] => true
  | e :: es => e.runs size && Expr.runIn size es

/-- The same for a statement, which may also return if `ret`, and break or continue the loop
around it if `loop`. -/
def Stmt.runs (size : Nat) (ret loop : Bool) : Stmt → Bool
  | .bind _ _ e | .assign _ _ e | .eval _ e | .throw _ e => e.runs size
  | .store _ k e => k < size && e.runs size
  | .cond _ t a b => t.runs size && Stmt.runIn size ret loop a && Stmt.runIn size ret loop b
  | .loop _ t b => t.runs size && Stmt.runIn size ret true b
  | .attempt _ b c f =>
    Stmt.runIn size ret loop b && Stmt.clauseRuns size ret loop c &&
      Stmt.cleanupRuns size ret loop f
  | .ret _ none => ret
  | .ret _ (some e) => ret && e.runs size
  | .brk _ | .cont _ => loop
  | .block _ b => Stmt.runIn size ret loop b
  | .yield .. | .yieldBreak _ => false

def Stmt.clauseRuns (size : Nat) (ret loop : Bool) : Option Catch → Bool
  | none => true
  | some (.mk _ b) => Stmt.runIn size ret loop b

def Stmt.cleanupRuns (size : Nat) (ret loop : Bool) : Option (List Stmt) → Bool
  | none => true
  | some b => Stmt.runIn size ret loop b

def Stmt.runIn (size : Nat) (ret loop : Bool) : List Stmt → Bool
  | [] => true
  | s :: ss => s.runs size ret loop && Stmt.runIn size ret loop ss

end

mutual

/-- The expression could have been written: it holds nothing that only splitting makes, and its
lambdas neither pause nor jump out of themselves. -/
def Expr.isSource : Expr → Bool
  | .captured .. | .resume _ => false
  | .binary _ _ l r => l.isSource && r.isSource
  | .unary _ _ e | .await _ e => e.isSource
  | .call _ c es => c.isSource && Expr.areSource es
  | .lambda _ _ b => lam && Stmt.runIn lam 0 true false b
  | .unit _ | .bool .. | .int .. | .str .. | .var .. => true

def Expr.areSource : List Expr → Bool
  | [] => true
  | e :: es => e.isSource && Expr.areSource es

def Stmt.isSource : Stmt → Bool
  | .bind _ _ e | .assign _ _ e | .eval _ e | .throw _ e | .yield _ e | .ret _ (some e) =>
    e.isSource
  | .store .. => false
  | .cond _ t a b => t.isSource && Stmt.areSource a && Stmt.areSource b
  | .loop _ t b => t.isSource && Stmt.areSource b
  | .attempt _ b c f => Stmt.areSource b && Stmt.clauseIsSource c && Stmt.cleanupIsSource f
  | .block _ b => Stmt.areSource b
  | .ret _ none | .brk _ | .cont _ | .yieldBreak _ => true

def Stmt.clauseIsSource : Option Catch → Bool
  | none => true
  | some (.mk _ b) => Stmt.areSource b

def Stmt.cleanupIsSource : Option (List Stmt) → Bool
  | none => true
  | some b => Stmt.areSource b

def Stmt.areSource : List Stmt → Bool
  | [] => true
  | s :: ss => s.isSource && Stmt.areSource ss

end

end

/-- The method could have been written: all its code is source. -/
def Method.isSource (lam : Bool) (m : Method) : Bool :=
  Stmt.areSource lam m.body

variable {lam : Bool}

/-! What is left whole. -/

mutual

theorem Expr.runs_of_isSource (e : Expr) (hs : e.isSource lam = true) (ha : e.awaits = 0) :
    e.runs lam 0 = true := by
  match e with
  | .unit _ | .bool .. | .int .. | .str .. | .var .. => rfl
  | .captured .. | .resume _ => cases hs
  | .await .. =>
    simp only [Expr.awaits] at ha
    omega
  | .binary _ _ l r =>
    simp only [Expr.isSource, Bool.and_eq_true] at hs
    simp only [Expr.awaits] at ha
    simp only [Expr.runs, Bool.and_eq_true]
    exact ⟨l.runs_of_isSource hs.1 (by omega), r.runs_of_isSource hs.2 (by omega)⟩
  | .unary _ _ e => exact e.runs_of_isSource hs ha
  | .call _ c es =>
    simp only [Expr.isSource, Bool.and_eq_true] at hs
    simp only [Expr.awaits] at ha
    simp only [Expr.runs, Bool.and_eq_true]
    exact ⟨c.runs_of_isSource hs.1 (by omega), Expr.runIn_of_areSource es hs.2 (by omega)⟩
  | .lambda _ _ b => exact hs

theorem Expr.runIn_of_areSource (es : List Expr) (hs : Expr.areSource lam es = true)
    (ha : Expr.awaitsIn es = 0) : Expr.runIn lam 0 es = true := by
  match es with
  | [] => rfl
  | e :: es =>
    simp only [Expr.areSource, Bool.and_eq_true] at hs
    simp only [Expr.awaitsIn] at ha
    simp only [Expr.runIn, Bool.and_eq_true]
    exact ⟨e.runs_of_isSource hs.1 (by omega), Expr.runIn_of_areSource es hs.2 (by omega)⟩

end

theorem Census.pauses_eq_false {c : Census} :
    c.pauses = false ↔ c.yields = 0 ∧ c.awaits = 0 := by
  simp only [Census.pauses, decide_eq_false_iff_not]
  omega

theorem Census.not_pauses_add {a b : Census} (h : (a + b).pauses = false) :
    a.pauses = false ∧ b.pauses = false := by
  simp only [Census.pauses_eq_false, yields_add, awaits_add] at h ⊢
  omega

theorem Expr.runs_of_census {e : Expr} (hs : e.isSource lam = true) (hc : e.census.pauses = false) :
    e.runs lam 0 = true :=
  e.runs_of_isSource hs (Census.pauses_eq_false.mp hc).2

/-- The first jump out of a catch clause. -/
def clauseEscape (d : Nat) : Option Catch → Option (Jump × Span)
  | none => none
  | some (.mk _ b) => Stmt.escapeIn d b

def cleanupEscape (d : Nat) : Option Block → Option (Jump × Span)
  | none => none
  | some b => Stmt.escapeIn d b

theorem escape_attempt (d : Nat) (m : Mark) (x : Block) (c : Option Catch) (f : Option Block) :
    (Stmt.attempt m x c f).escape d =
      ((Stmt.escapeIn d x).or (clauseEscape d c)).or (cleanupEscape d f) := by
  rcases c with - | ⟨y, cb⟩ <;> cases f <;> simp only [escape, clauseEscape, cleanupEscape]

mutual

theorem Stmt.runs_of_census (s : Stmt) (d : Nat) (hs : s.isSource lam = true)
    (hc : s.census.pauses = false) (hx : s.escape d = none) :
    s.runs lam 0 false (decide (0 < d)) = true := by
  match s with
  | .bind _ _ e | .assign _ _ e | .eval _ e | .throw _ e => exact Expr.runs_of_census hs hc
  | .store .. => cases hs
  | .cond _ t a b =>
    simp only [isSource, Bool.and_eq_true] at hs
    obtain ⟨hc, hb⟩ := Census.not_pauses_add hc
    obtain ⟨ht, ha⟩ := Census.not_pauses_add hc
    simp only [escape, Option.or_eq_none_iff] at hx
    simp only [runs, Bool.and_eq_true]
    exact ⟨⟨Expr.runs_of_census hs.1.1 ht, runIn_of_census a d hs.1.2 ha hx.1⟩,
      runIn_of_census b d hs.2 hb hx.2⟩
  | .loop _ t b =>
    simp only [isSource, Bool.and_eq_true] at hs
    obtain ⟨ht, hb⟩ := Census.not_pauses_add hc
    simp only [runs, Bool.and_eq_true]
    exact ⟨Expr.runs_of_census hs.1 ht, by simpa using runIn_of_census b (d + 1) hs.2 hb hx⟩
  | .attempt m b c f =>
    rw [Binding.census_attempt] at hc
    obtain ⟨hc, hf⟩ := Census.not_pauses_add hc
    obtain ⟨hb, hc⟩ := Census.not_pauses_add hc
    simp only [isSource, Bool.and_eq_true] at hs
    rw [escape_attempt, Option.or_eq_none_iff, Option.or_eq_none_iff] at hx
    simp only [runs, Bool.and_eq_true]
    exact ⟨⟨runIn_of_census b d hs.1.1 hb hx.1.1,
      clauseRuns_of_census c d hs.1.2 hc hx.1.2⟩,
      cleanupRuns_of_census f d hs.2 hf hx.2⟩
  | .ret .. | .yieldBreak _ => cases hx
  | .brk _ | .cont _ =>
    simp only [escape] at hx
    split at hx
    · cases hx
    · simp only [runs, decide_eq_true_eq]
      omega
  | .block _ b => exact runIn_of_census b d hs hc hx
  | .yield m e =>
    have hy := (Census.pauses_eq_false.mp hc).1
    simp only [census, Census.yields_add] at hy
    omega

theorem Stmt.clauseRuns_of_census (c : Option Catch) (d : Nat)
    (hs : Stmt.clauseIsSource lam c = true) (hc : (Binding.clauseCensus c).pauses = false)
    (hx : clauseEscape d c = none) :
    Stmt.clauseRuns lam 0 false (decide (0 < d)) c = true := by
  match c with
  | none => rfl
  | some (.mk _ b) => exact runIn_of_census b d hs hc hx

theorem Stmt.cleanupRuns_of_census (f : Option (List Stmt)) (d : Nat)
    (hs : Stmt.cleanupIsSource lam f = true) (hc : (Binding.cleanupCensus f).pauses = false)
    (hx : cleanupEscape d f = none) :
    Stmt.cleanupRuns lam 0 false (decide (0 < d)) f = true := by
  match f with
  | none => rfl
  | some b => exact runIn_of_census b d hs hc hx

theorem Stmt.runIn_of_census (ss : List Stmt) (d : Nat) (hs : Stmt.areSource lam ss = true)
    (hc : (Stmt.censusIn ss).pauses = false) (hx : Stmt.escapeIn d ss = none) :
    Stmt.runIn lam 0 false (decide (0 < d)) ss = true := by
  match ss with
  | [] => rfl
  | s :: ss =>
    simp only [areSource, Bool.and_eq_true] at hs
    obtain ⟨hc, hcs⟩ := Census.not_pauses_add hc
    simp only [escapeIn, Option.or_eq_none_iff] at hx
    simp only [runIn, Bool.and_eq_true]
    exact ⟨s.runs_of_census d hs.1 hc hx.1, runIn_of_census ss d hs.2 hcs hx.2⟩

end

theorem Stmt.runs_of_isFlat {s : Stmt} (hs : s.isSource lam = true) (hf : s.isFlat = true) :
    s.runs lam 0 false false = true := by
  simp only [isFlat, Bool.and_eq_true, Bool.not_eq_true', Option.isNone_iff_eq_none] at hf
  exact s.runs_of_census 0 hs hf.1 hf.2

/-! Renaming. -/

namespace Binding

mutual

theorem runs_renameExpr (n : Nat) (scope : Scope) (e : Expr) (b : Bound) :
    (renameExpr scope e b).1.runs lam n = e.runs lam n := by
  match e with
  | .binary m op l r =>
    exact congrArg₂ (· && ·) (runs_renameExpr n scope l _) (runs_renameExpr n scope r _)
  | .unary m op e => exact runs_renameExpr n scope e _
  | .call m c es =>
    exact congrArg₂ (· && ·) (runs_renameExpr n scope c _) (runIn_renameExprs n scope es _)
  | .lambda m ps body => exact congrArg (lam && ·) (runIn_renameBlock n true false _ body _)
  | .await m e | .unit m | .bool m _ | .int m _ | .str m _ | .var m _ | .captured m _
  | .resume m => rfl

theorem runIn_renameExprs (n : Nat) (scope : Scope) (es : List Expr) (b : Bound) :
    Expr.runIn lam n (renameExprs scope es b).1 = Expr.runIn lam n es := by
  match es with
  | [] => rfl
  | e :: es =>
    exact congrArg₂ (· && ·) (runs_renameExpr n scope e _) (runIn_renameExprs n scope es _)

theorem runs_renameStmt (n : Nat) (ret loop : Bool) (scope : Scope) (s : Stmt) (b : Bound) :
    (renameStmt scope s b).1.1.runs lam n ret loop = s.runs lam n ret loop := by
  match s with
  | .bind m x e | .assign m x e | .eval m e | .throw m e => exact runs_renameExpr n scope e _
  | .store m k e | .ret m (some e) => exact congrArg (_ && ·) (runs_renameExpr n scope e _)
  | .cond m t x y =>
    exact congrArg₂ (· && ·)
      (congrArg₂ (· && ·) (runs_renameExpr n scope t _) (runIn_renameBlock n ret loop scope x _))
      (runIn_renameBlock n ret loop scope y _)
  | .loop m t x =>
    exact congrArg₂ (· && ·) (runs_renameExpr n scope t _) (runIn_renameBlock n ret true scope x _)
  | .attempt m x c f =>
    exact congrArg₂ (· && ·)
      (congrArg₂ (· && ·) (runIn_renameBlock n ret loop scope x _)
        (clauseRuns_renameClause n ret loop scope c _))
      (cleanupRuns_renameCleanup n ret loop scope f _)
  | .block m x => exact runIn_renameBlock n ret loop scope x _
  | .yield m e | .ret m none | .yieldBreak m | .brk m | .cont m => rfl

theorem clauseRuns_renameClause (n : Nat) (ret loop : Bool) (scope : Scope) (c : Option Catch)
    (b : Bound) :
    Stmt.clauseRuns lam n ret loop (renameClause scope c b).1 =
      Stmt.clauseRuns lam n ret loop c := by
  match c with
  | none => rfl
  | some (.mk none x) => exact runIn_renameBlock n ret loop scope x _
  | some (.mk (some y) x) => exact runIn_renameBlock n ret loop _ x _

theorem cleanupRuns_renameCleanup (n : Nat) (ret loop : Bool) (scope : Scope)
    (f : Option (List Stmt)) (b : Bound) :
    Stmt.cleanupRuns lam n ret loop (renameCleanup scope f b).1 =
      Stmt.cleanupRuns lam n ret loop f := by
  match f with
  | none => rfl
  | some x => exact runIn_renameBlock n ret loop scope x _

theorem runIn_renameBlock (n : Nat) (ret loop : Bool) (scope : Scope) (ss : List Stmt)
    (b : Bound) :
    Stmt.runIn lam n ret loop (renameBlock scope ss b).1 = Stmt.runIn lam n ret loop ss := by
  match ss with
  | [] => rfl
  | s :: ss =>
    exact congrArg₂ (· && ·) (runs_renameStmt n ret loop scope s _)
      (runIn_renameBlock n ret loop _ ss _)

end

mutual

theorem isSource_renameExpr (scope : Scope) (e : Expr) (b : Bound) :
    (renameExpr scope e b).1.isSource lam = e.isSource lam := by
  match e with
  | .binary m op l r =>
    exact congrArg₂ (· && ·) (isSource_renameExpr scope l _) (isSource_renameExpr scope r _)
  | .unary m op e | .await m e => exact isSource_renameExpr scope e _
  | .call m c es =>
    exact congrArg₂ (· && ·) (isSource_renameExpr scope c _) (areSource_renameExprs scope es _)
  | .lambda m ps body => exact congrArg (lam && ·) (runIn_renameBlock 0 true false _ body _)
  | .unit m | .bool m _ | .int m _ | .str m _ | .var m _ | .captured m _ | .resume m => rfl

theorem areSource_renameExprs (scope : Scope) (es : List Expr) (b : Bound) :
    Expr.areSource lam (renameExprs scope es b).1 = Expr.areSource lam es := by
  match es with
  | [] => rfl
  | e :: es =>
    exact congrArg₂ (· && ·) (isSource_renameExpr scope e _) (areSource_renameExprs scope es _)

theorem isSource_renameStmt (scope : Scope) (s : Stmt) (b : Bound) :
    (renameStmt scope s b).1.1.isSource lam = s.isSource lam := by
  match s with
  | .bind m x e | .assign m x e | .eval m e | .throw m e | .yield m e | .ret m (some e) =>
    exact isSource_renameExpr scope e _
  | .cond m t x y =>
    exact congrArg₂ (· && ·)
      (congrArg₂ (· && ·) (isSource_renameExpr scope t _) (areSource_renameBlock scope x _))
      (areSource_renameBlock scope y _)
  | .loop m t x =>
    exact congrArg₂ (· && ·) (isSource_renameExpr scope t _) (areSource_renameBlock scope x _)
  | .attempt m x c f =>
    exact congrArg₂ (· && ·)
      (congrArg₂ (· && ·) (areSource_renameBlock scope x _) (isSource_renameClause scope c _))
      (isSource_renameCleanup scope f _)
  | .block m x => exact areSource_renameBlock scope x _
  | .store m k e | .ret m none | .yieldBreak m | .brk m | .cont m => rfl

theorem isSource_renameClause (scope : Scope) (c : Option Catch) (b : Bound) :
    Stmt.clauseIsSource lam (renameClause scope c b).1 = Stmt.clauseIsSource lam c := by
  match c with
  | none => rfl
  | some (.mk none x) => exact areSource_renameBlock scope x _
  | some (.mk (some y) x) => exact areSource_renameBlock _ x _

theorem isSource_renameCleanup (scope : Scope) (f : Option (List Stmt)) (b : Bound) :
    Stmt.cleanupIsSource lam (renameCleanup scope f b).1 = Stmt.cleanupIsSource lam f := by
  match f with
  | none => rfl
  | some x => exact areSource_renameBlock scope x _

theorem areSource_renameBlock (scope : Scope) (ss : List Stmt) (b : Bound) :
    Stmt.areSource lam (renameBlock scope ss b).1 = Stmt.areSource lam ss := by
  match ss with
  | [] => rfl
  | s :: ss =>
    exact congrArg₂ (· && ·) (isSource_renameStmt scope s _) (areSource_renameBlock _ ss _)

end

end Binding

theorem Method.isSource_rename (m : Method) : m.rename.isSource lam = m.isSource lam :=
  Binding.areSource_renameBlock _ m.body _

/-! Slots. -/

namespace Hoist

/-- All slots are below `size`. -/
def Below (m : Manifest) (size : Nat) : Prop :=
  ∀ x k, m.slotOf? x = some k → k < size

section

variable {m : Manifest} {size : Nat}

mutual

theorem runs_hoistExpr (hm : Below m size) (e : Expr) (h : e.runs lam 0 = true) :
    (hoistExpr m e).runs lam size = true := by
  match e with
  | .unit _ | .bool .. | .int .. | .str .. => rfl
  | .var _ x =>
    simp only [hoistExpr]
    split
    · rename_i k hk
      exact decide_eq_true (hm _ _ hk)
    · rfl
  | .captured _ k => exact absurd (of_decide_eq_true h) (Nat.not_lt_zero k)
  | .resume _ | .await .. => cases h
  | .binary _ _ l r =>
    simp only [Expr.runs, Bool.and_eq_true] at h
    simp only [hoistExpr, Expr.runs, Bool.and_eq_true]
    exact ⟨runs_hoistExpr hm l h.1, runs_hoistExpr hm r h.2⟩
  | .unary _ _ e => exact runs_hoistExpr hm e h
  | .call _ c es =>
    simp only [Expr.runs, Bool.and_eq_true] at h
    simp only [hoistExpr, Expr.runs, Bool.and_eq_true]
    exact ⟨runs_hoistExpr hm c h.1, runIn_hoistExprs hm es h.2⟩
  | .lambda _ _ b =>
    simp only [Expr.runs, Bool.and_eq_true] at h
    simp only [hoistExpr, Expr.runs, Bool.and_eq_true]
    exact ⟨h.1, runIn_hoistBlock hm true false b h.2⟩

theorem runIn_hoistExprs (hm : Below m size) (es : List Expr)
    (h : Expr.runIn lam 0 es = true) :
    Expr.runIn lam size (hoistExprs m es) = true := by
  match es with
  | [] => rfl
  | e :: es =>
    simp only [Expr.runIn, Bool.and_eq_true] at h
    simp only [hoistExprs, Expr.runIn, Bool.and_eq_true]
    exact ⟨runs_hoistExpr hm e h.1, runIn_hoistExprs hm es h.2⟩

theorem runs_hoistStmt (hm : Below m size) (ret loop : Bool) (s : Stmt)
    (h : s.runs lam 0 ret loop = true) :
    (hoistStmt m s).runs lam size ret loop = true := by
  match s with
  | .bind _ x e | .assign _ x e =>
    have he := runs_hoistExpr hm e h
    simp only [hoistStmt]
    split
    · rename_i k hk
      simp only [runs, Bool.and_eq_true, decide_eq_true_eq]
      exact ⟨hm _ _ hk, he⟩
    · exact he
  | .store _ k e =>
    simp only [runs, Bool.and_eq_true, decide_eq_true_eq] at h
    exact absurd h.1 (Nat.not_lt_zero k)
  | .eval _ e | .throw _ e => exact runs_hoistExpr hm e h
  | .ret _ (some e) =>
    simp only [runs, Bool.and_eq_true] at h
    simp only [hoistStmt, runs, Bool.and_eq_true]
    exact ⟨h.1, runs_hoistExpr hm e h.2⟩
  | .cond _ t a b =>
    simp only [runs, Bool.and_eq_true] at h
    simp only [hoistStmt, runs, Bool.and_eq_true]
    exact ⟨⟨runs_hoistExpr hm t h.1.1, runIn_hoistBlock hm ret loop a h.1.2⟩,
      runIn_hoistBlock hm ret loop b h.2⟩
  | .loop _ t b =>
    simp only [runs, Bool.and_eq_true] at h
    simp only [hoistStmt, runs, Bool.and_eq_true]
    exact ⟨runs_hoistExpr hm t h.1, runIn_hoistBlock hm ret true b h.2⟩
  | .attempt mark b c f =>
    simp only [runs, Bool.and_eq_true] at h
    rw [hoistStmt_attempt]
    simp only [runs, Bool.and_eq_true]
    exact ⟨⟨runIn_hoistBlock hm ret loop b h.1.1, runs_hoistClause hm ret loop c h.1.2⟩,
      runs_hoistCleanup hm ret loop f h.2⟩
  | .block _ b => exact runIn_hoistBlock hm ret loop b h
  | .ret _ none | .brk _ | .cont _ => exact h
  | .yield .. | .yieldBreak _ => cases h

theorem runs_hoistClause (hm : Below m size) (ret loop : Bool) (c : Option Catch)
    (h : Stmt.clauseRuns lam 0 ret loop c = true) :
    Stmt.clauseRuns lam size ret loop (hoistClause m c) = true := by
  match c with
  | none => rfl
  | some (.mk _ b) => exact runIn_hoistBlock hm ret loop b h

theorem runs_hoistCleanup (hm : Below m size) (ret loop : Bool)
    (f : Option (List Stmt)) (h : Stmt.cleanupRuns lam 0 ret loop f = true) :
    Stmt.cleanupRuns lam size ret loop (hoistCleanup m f) = true := by
  match f with
  | none => rfl
  | some b => exact runIn_hoistBlock hm ret loop b h

theorem runIn_hoistBlock (hm : Below m size) (ret loop : Bool) (ss : List Stmt)
    (h : Stmt.runIn lam 0 ret loop ss = true) :
    Stmt.runIn lam size ret loop (hoistBlock m ss) = true := by
  match ss with
  | [] => rfl
  | s :: ss =>
    simp only [runIn, Bool.and_eq_true] at h
    simp only [hoistBlock, runIn, Bool.and_eq_true]
    exact ⟨runs_hoistStmt hm ret loop s h.1, runIn_hoistBlock hm ret loop ss h.2⟩

end

end

end Hoist

end Resumable

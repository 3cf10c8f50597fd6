import Resumable.Proofs.Acceptance
import Resumable.Proofs.Enclosure
import Mathlib.Logic.Relation

namespace Resumable

open Regions Reduce List
open Stmt hiding bind

/-! The yields of a block. -/

/-- The yields of a block that stands inside of other statements, in the order of the source. -/
def Stmt.yieldsIn (around : List Stmt) (ss : Block) : List Node :=
  (Stmt.nodesIn around ss).filter (·.stmt.isYield)

/-- The cleanups around a statement, innermost first. No yield stands in a cleanup, so those around
one belong to guarded blocks and clauses that it stands in. -/
def Node.cleanups (n : Node) : List Block :=
  n.around.filterMap (·.cleanup?)

namespace Stmt

theorem yieldsIn_nil (around : List Stmt) : yieldsIn around [] = [] := by
  rw [yieldsIn, nodesIn, filter_nil]

theorem yieldsIn_cons (around : List Stmt) (s : Stmt) (ss : Block) :
    yieldsIn around (s :: ss) = yieldsIn around [s] ++ yieldsIn around ss := by
  simp only [yieldsIn, nodesIn, filter_cons, filter_append, append_nil]
  split <;> rfl

theorem yieldsIn_eq_nil {around : List Stmt} {ss : Block} (h : (censusIn ss).yields = 0) :
    yieldsIn around ss = [] := by
  apply filter_eq_nil_iff.mpr
  intro n hn hy
  have hpos := (censusIn_iff Census.additive_yields around ss).mpr
    ⟨n, hn, (own_yields_pos n.stmt).mpr hy⟩
  omega

theorem yields_of_still {ss : Block} (h : (censusIn ss).pauses = false) :
    (censusIn ss).yields = 0 := by
  simp only [Census.pauses, decide_eq_false_iff_not] at h
  omega

theorem yieldsIn_flat {around : List Stmt} {s : Stmt} (h : s.isFlat = true) :
    yieldsIn around [s] = [] :=
  yieldsIn_eq_nil (yields_of_still (still_iff.mp ((isFlat_iff s).mp h).1))

theorem yieldsIn_yield (around : List Stmt) (m : Mark) (e : Expr) :
    yieldsIn around [.yield m e] = [⟨.yield m e, around⟩] := by
  simp [yieldsIn, nodesIn, inner, isYield]

theorem yieldsIn_inner {around : List Stmt} {s : Stmt} (h : s.isYield = false) :
    yieldsIn around [s] = (s.inner (s :: around)).filter (·.stmt.isYield) := by
  simp [yieldsIn, nodesIn, h]

section

variable (around : List Stmt)

theorem yieldsIn_cond (m : Mark) (t : Expr) (a b : Block) :
    yieldsIn around [.cond m t a b] =
      yieldsIn (.cond m t a b :: around) a ++ yieldsIn (.cond m t a b :: around) b := by
  rw [yieldsIn_inner rfl, inner, filter_append]
  rfl

theorem yieldsIn_loop (m : Mark) (t : Expr) (b : Block) :
    yieldsIn around [.loop m t b] = yieldsIn (.loop m t b :: around) b := by
  rw [yieldsIn_inner rfl, inner]
  rfl

theorem yieldsIn_block (m : Mark) (b : Block) :
    yieldsIn around [.block m b] = yieldsIn (.block m b :: around) b := by
  rw [yieldsIn_inner rfl, inner]
  rfl

/-- A cleanup that does not pause has no yields. -/
theorem yieldsIn_attempt (m : Mark) (b : Block) (c : Option Catch)
    (f : Option Block) (hf : ∀ fb ∈ f, (censusIn fb).pauses = false) :
    yieldsIn around [.attempt m b c f] =
      yieldsIn (.attempt m b c f :: around) b ++
        (nodesClause (.attempt m b c f :: around) c).filter (·.stmt.isYield) := by
  have hcleanup : (nodesCleanup (.attempt m b c f :: around) f).filter (·.stmt.isYield) = [] := by
    cases f with
    | none => rw [nodesCleanup, filter_nil]
    | some fb =>
      rw [nodesCleanup]
      exact yieldsIn_eq_nil (yields_of_still (hf fb rfl))
  rw [yieldsIn_inner rfl, inner, filter_append, filter_append, hcleanup, append_nil]
  rfl

end

end Stmt

/-! Renaming leaves everything but names as it is. -/

mutual

/-- An expression without its names. -/
def Expr.nameless : Expr → Expr
  | .unit m => .unit m
  | .bool m b => .bool m b
  | .int m n => .int m n
  | .str m s => .str m s
  | .var m _ => .var m ""
  | .binary m op l r => .binary m op l.nameless r.nameless
  | .unary m op e => .unary m op e.nameless
  | .call m c es => .call m c.nameless (Expr.namelessAll es)
  | .await m e => .await m e.nameless
  | .lambda m ps b => .lambda m (List.replicate ps.length "") (Stmt.namelessIn b)
  | .captured m k => .captured m k
  | .resume m => .resume m

def Expr.namelessAll : List Expr → List Expr
  | [] => []
  | e :: es => e.nameless :: Expr.namelessAll es

def Stmt.nameless : Stmt → Stmt
  | .bind m _ e => .bind m "" e.nameless
  | .assign m _ e => .assign m "" e.nameless
  | .eval m e => .eval m e.nameless
  | .cond m t a b => .cond m t.nameless (Stmt.namelessIn a) (Stmt.namelessIn b)
  | .loop m t b => .loop m t.nameless (Stmt.namelessIn b)
  | .attempt m b c f =>
    .attempt m (Stmt.namelessIn b) (Stmt.namelessClause c) (Stmt.namelessCleanup f)
  | .yield m e => .yield m e.nameless
  | .yieldBreak m => .yieldBreak m
  | .ret m none => .ret m none
  | .ret m (some e) => .ret m (some e.nameless)
  | .brk m => .brk m
  | .cont m => .cont m
  | .throw m e => .throw m e.nameless
  | .block m b => .block m (Stmt.namelessIn b)
  | .store m k e => .store m k e.nameless

def Stmt.namelessClause : Option Catch → Option Catch
  | none => none
  | some (.mk none b) => some (.mk none (Stmt.namelessIn b))
  | some (.mk (some _) b) => some (.mk (some "") (Stmt.namelessIn b))

def Stmt.namelessCleanup : Option (List Stmt) → Option (List Stmt)
  | none => none
  | some b => some (Stmt.namelessIn b)

def Stmt.namelessIn : List Stmt → List Stmt
  | [] => []
  | s :: ss => s.nameless :: Stmt.namelessIn ss

end

namespace Binding

mutual

theorem nameless_renameExpr (scope : Scope) (e : Expr) (b : Bound) :
    (renameExpr scope e b).1.nameless = e.nameless := by
  match e with
  | .unit m | .bool m _ | .int m _ | .str m _ | .var m _ | .captured m _ | .resume m => rfl
  | .binary m op l r =>
    exact congrArg₂ (Expr.binary m op) (nameless_renameExpr scope l _)
      (nameless_renameExpr scope r _)
  | .unary m op e => exact congrArg (Expr.unary m op) (nameless_renameExpr scope e _)
  | .call m c es =>
    exact congrArg₂ (Expr.call m) (nameless_renameExpr scope c _) (nameless_renameExprs scope es _)
  | .await m e => exact congrArg (Expr.await m) (nameless_renameExpr scope e _)
  | .lambda m ps body =>
    exact congrArg₂ (Expr.lambda m) (congrArg (replicate · "") (length_declareAll scope ps b))
      (nameless_renameBlock _ body _)

theorem nameless_renameExprs (scope : Scope) (es : List Expr) (b : Bound) :
    Expr.namelessAll (renameExprs scope es b).1 = Expr.namelessAll es := by
  match es with
  | [] => rfl
  | e :: es =>
    exact congrArg₂ cons (nameless_renameExpr scope e _) (nameless_renameExprs scope es _)

theorem nameless_renameStmt (scope : Scope) (s : Stmt) (b : Bound) :
    (renameStmt scope s b).1.1.nameless = s.nameless := by
  match s with
  | .bind m x e => exact congrArg (Stmt.bind m "") (nameless_renameExpr scope e b)
  | .assign m x e => exact congrArg (assign m "") (nameless_renameExpr scope e b)
  | .eval m e => exact congrArg (eval m) (nameless_renameExpr scope e b)
  | .throw m e => exact congrArg (throw m) (nameless_renameExpr scope e b)
  | .yield m e => exact congrArg (yield m) (nameless_renameExpr scope e b)
  | .store m k e => exact congrArg (store m k) (nameless_renameExpr scope e b)
  | .ret m (some e) => exact congrArg (fun e => ret m (some e)) (nameless_renameExpr scope e b)
  | .cond m t x y =>
    have h : (renameStmt scope (.cond m t x y) b).1.1 = .cond m (renameExpr scope t b).1
      (renameBlock scope x (renameExpr scope t b).2).1
      (renameBlock scope y (renameBlock scope x (renameExpr scope t b).2).2).1 := rfl
    rw [h, nameless, nameless, nameless_renameExpr scope t, nameless_renameBlock scope x,
      nameless_renameBlock scope y]
  | .loop m t x =>
    exact congrArg₂ (loop m) (nameless_renameExpr scope t _) (nameless_renameBlock scope x _)
  | .attempt m x c f =>
    rw [renameStmt_attempt, nameless, nameless, nameless_renameBlock scope x,
      nameless_renameClause scope c, nameless_renameCleanup scope f]
  | .block m x => exact congrArg (block m) (nameless_renameBlock scope x _)
  | .ret m none | .yieldBreak m | .brk m | .cont m => rfl

theorem nameless_renameClause (scope : Scope) (c : Option Catch) (b : Bound) :
    Stmt.namelessClause (renameClause scope c b).1 = Stmt.namelessClause c := by
  match c with
  | none => rfl
  | some (.mk none x) =>
    exact congrArg (fun x => some (Catch.mk none x)) (nameless_renameBlock scope x _)
  | some (.mk (some y) x) =>
    exact congrArg (fun x => some (Catch.mk (some "") x)) (nameless_renameBlock _ x _)

theorem nameless_renameCleanup (scope : Scope) (f : Option Block) (b : Bound) :
    Stmt.namelessCleanup (renameCleanup scope f b).1 = Stmt.namelessCleanup f := by
  match f with
  | none => rfl
  | some x => exact congrArg some (nameless_renameBlock scope x _)

theorem nameless_renameBlock (scope : Scope) (ss : Block) (b : Bound) :
    Stmt.namelessIn (renameBlock scope ss b).1 = Stmt.namelessIn ss := by
  match ss with
  | [] => rfl
  | s :: ss =>
    exact congrArg₂ cons (nameless_renameStmt scope s _) (nameless_renameBlock _ ss _)

end

end Binding

theorem Method.nameless_rename (m : Method) :
    Stmt.namelessIn m.rename.body = Stmt.namelessIn m.body :=
  Binding.nameless_renameBlock ..

/-- A statement and what is around it, without names. -/
def Node.nameless (n : Node) : Node :=
  ⟨n.stmt.nameless, n.around.map Stmt.nameless⟩

namespace Stmt

mutual

theorem nameless_inner (around : List Stmt) (s : Stmt) :
    (s.inner around).map Node.nameless = s.nameless.inner (around.map nameless) := by
  match s with
  | .cond m t a b =>
    simp only [inner, nameless, map_append, nameless_nodesIn around a,
      nameless_nodesIn around b]
  | .loop m t b | .block m b =>
    simp only [inner, nameless, nameless_nodesIn around b]
  | .attempt m b c f =>
    simp only [inner, nameless, map_append, nameless_nodesIn around b,
      nameless_nodesClause around c, nameless_nodesCleanup around f]
  | .ret m none | .ret m (some e) => simp only [inner, nameless, map_nil]
  | .bind m x e | .assign m x e | .eval m e | .throw m e | .yield m e | .store m x e
  | .yieldBreak m | .brk m | .cont m => simp only [inner, nameless, map_nil]

theorem nameless_nodesClause (around : List Stmt) (c : Option Catch) :
    (nodesClause around c).map Node.nameless =
      nodesClause (around.map nameless) (namelessClause c) := by
  match c with
  | none => simp only [nodesClause, namelessClause, map_nil]
  | some (.mk none b) | some (.mk (some x) b) =>
    simp only [nodesClause, namelessClause, nameless_nodesIn around b]

theorem nameless_nodesCleanup (around : List Stmt) (f : Option (List Stmt)) :
    (nodesCleanup around f).map Node.nameless =
      nodesCleanup (around.map nameless) (namelessCleanup f) := by
  match f with
  | none => simp only [nodesCleanup, namelessCleanup, map_nil]
  | some b => simp only [nodesCleanup, namelessCleanup, nameless_nodesIn around b]

theorem nameless_nodesIn (around : List Stmt) (ss : List Stmt) :
    (nodesIn around ss).map Node.nameless = nodesIn (around.map nameless) (namelessIn ss) := by
  match ss with
  | [] => simp only [nodesIn, namelessIn, map_nil]
  | s :: ss =>
    simp only [nodesIn, namelessIn, map_cons, map_append, nameless_inner (s :: around) s,
      nameless_nodesIn around ss, Node.nameless]

end

theorem isYield_nameless (s : Stmt) : s.nameless.isYield = s.isYield := by
  cases s with
  | ret m v => cases v <;> simp only [nameless, isYield]
  | _ => simp only [nameless, isYield]

theorem nameless_yieldsIn (around : List Stmt) (ss : Block) :
    (yieldsIn around ss).map Node.nameless = yieldsIn (around.map nameless) (namelessIn ss) := by
  rw [yieldsIn, yieldsIn, ← nameless_nodesIn, filter_map]
  congr 2
  funext n
  exact (isYield_nameless n.stmt).symm

end Stmt

/-- The yields of a method. -/
def Method.yields (m : Method) : List Node :=
  Stmt.yieldsIn [] m.body

/-- Renaming keeps the yields, but for names. -/
theorem Method.nameless_yields (m : Method) :
    m.rename.yields.map Node.nameless = m.yields.map Node.nameless := by
  rw [yields, yields, nameless_yieldsIn, nameless_yieldsIn, nameless_rename]

theorem Method.exists_yield {m : Method} {i : Nat} {y : Node} (h : m.rename.yields[i]? = some y) :
    ∃ y₀, m.yields[i]? = some y₀ ∧ y.nameless = y₀.nameless := by
  have hmap := congrArg (fun l : List Node => l[i]?) m.nameless_yields
  simp only [getElem?_map, h, Option.map_some] at hmap
  obtain ⟨y₀, hy₀, he⟩ := Option.map_eq_some_iff.mp hmap.symm
  exact ⟨y₀, hy₀, he.symm⟩

/-! Where yields resume. -/

namespace Layout

variable {T : Table} {h : Option HandlerId} {J : Targets} {ss : Block} {p q : Point} {lo hi : Nat}

/-- The bodies of the cleanups around what `h` covers, innermost first. -/
def cleanupsAround (T : Table) (h : Option HandlerId) : List Block :=
  (around T.handlers h).map fun f => T.states[f]?.elim [] (·.body)

/-- The state `x.1` pauses at the yield and leads to `x.2`, where the cleanups around the yield are
still to run. -/
structure Station (T : Table) (n : Node) (x : Nat × Nat) : Prop where
  pauses : ∃ st m e, T.states[x.1]? = some st ∧ n.stmt = .yield m e ∧
    st.exit = .suspend (.yield e) x.2
  cleanups : ∃ h, Covered T x.2 h ∧ cleanupsAround T h = n.cleanups

/-- Yields with the states that pause at them and the states where they resume, in order. Among
the states in `C` no others pause at a yield. -/
structure Stations (T : Table) (lo hi : Nat) (C : Nat → Prop) (ns : List Node)
    (xs : List (Nat × Nat)) : Prop where
  each : List.Forall₂ (Station T) ns xs
  sorted : xs.Pairwise fun x y => x.2 < y.2
  bounds : ∀ x ∈ xs, lo ≤ x.2 ∧ x.2 < hi
  all : ∀ (s : Nat) st e r, C s → T.states[s]? = some st → st.exit = .suspend (.yield e) r →
    ∃ x ∈ xs, x.1 = s

namespace Stations

variable {ns ns' : List Node} {xs xs' : List (Nat × Nat)} {lo' hi' : Nat} {C C' : Nat → Prop}

theorem nil (lo hi : Nat) : Stations T lo hi (fun _ => False) [] [] :=
  ⟨.nil, .nil, nofun, nofun⟩

/-- More states, none of which pauses at another yield. -/
theorem widen (h : Stations T lo hi C ns xs) (hlo : lo' ≤ lo) (hhi : hi ≤ hi')
    (hC : ∀ (s : Nat) st e r, C' s → T.states[s]? = some st → st.exit = .suspend (.yield e) r →
      C s) : Stations T lo' hi' C' ns xs := by
  refine ⟨h.each, h.sorted, fun x hx => ?_, fun s st e r hs hst hx => ?_⟩
  · have hb := h.bounds x hx
    omega
  · exact h.all s st e r (hC s st e r hs hst hx) hst hx

theorem append (h : Stations T lo hi C ns xs) (h' : Stations T lo' hi' C' ns' xs') (hle : hi ≤ lo')
    (hlo : lo ≤ lo') (hhi : lo' ≤ hi') :
    Stations T lo hi' (fun s => C s ∨ C' s) (ns ++ ns') (xs ++ xs') := by
  refine ⟨rel_append h.each h'.each, ?_, fun x hx => ?_, fun s st e r hs hst hx => ?_⟩
  · refine pairwise_append.mpr ⟨h.sorted, h'.sorted, fun x hx y hy => ?_⟩
    have hb := h.bounds x hx
    have hb' := h'.bounds y hy
    omega
  · rcases mem_append.mp hx with hx | hx
    · have hb := h.bounds x hx
      omega
    · have hb := h'.bounds x hx
      omega
  · rcases hs with hs | hs
    · obtain ⟨x, hm, hx⟩ := h.all s st e r hs hst hx
      exact ⟨x, mem_append_left _ hm, hx⟩
    · obtain ⟨x, hm, hx⟩ := h'.all s st e r hs hst hx
      exact ⟨x, mem_append_right _ hm, hx⟩

theorem lt_of_lt (h : Stations T lo hi C ns xs) {i j : Nat} {x y : Nat × Nat}
    (hx : xs[i]? = some x) (hy : xs[j]? = some y) (hij : i < j) : x.2 < y.2 := by
  obtain ⟨hi, rfl⟩ := List.getElem?_eq_some_iff.mp hx
  obtain ⟨hj, rfl⟩ := List.getElem?_eq_some_iff.mp hy
  exact pairwise_iff_getElem.mp h.sorted i j hi hj hij

/-- Of two stations, the first resumes in the lower state. -/
theorem lt_iff (h : Stations T lo hi C ns xs) {i j : Nat} {x y : Nat × Nat}
    (hx : xs[i]? = some x) (hy : xs[j]? = some y) : i < j ↔ x.2 < y.2 := by
  refine ⟨h.lt_of_lt hx hy, fun hlt => ?_⟩
  rcases Nat.lt_trichotomy i j with hij | rfl | hij
  · exact hij
  · cases hx.symm.trans hy
    omega
  · have := h.lt_of_lt hy hx hij
    omega

end Stations

theorem cleanupsAround_guard (hn : Numbered T.states T.handlers) {g : HandlerId}
    {clause : Option (StateId × Option String)} {f : StateId} {fb : Block}
    (hg : Guards T h g clause (some f)) (hf : IsCleanup T h f fb) :
    cleanupsAround T (some g) = fb :: cleanupsAround T h := by
  obtain ⟨st, hst, hb, -⟩ := hf
  simp [cleanupsAround, around_guard hn hg, hst, hb]

/-- A cleanup that is accepted does not pause. -/
theorem still_cleanup {fb : Block} (h : Splitting.checkCleanup fb = .ok ()) :
    ∀ b ∈ some fb, (Stmt.censusIn b).pauses = false := by
  rintro _ ⟨⟩
  have hsealed : isSealed fb = true := by
    rw [← Splitting.isOk_checkCleanup, h]
    rfl
  exact still_iff.mp (isSealed_iff.mp hsealed).1

/-- Nothing yields where an operand is awaited. -/
theorem Taken.no_yield {e e' : Expr} {p₁ : Point} {lo₁ : Nat} (ht : Taken T h e e' p p₁ lo lo₁)
    {s : Nat} {st : State} (hst : T.states[s]? = some st) {v : Expr} {r : StateId}
    (hx : st.exit = .suspend (.yield v) r) (hne : s ≠ p₁.state) : ¬Within p lo lo₁ s := by
  intro hs
  cases ht with
  | whole _ =>
    omega
  | await m _ hp _ =>
    rcases hs with rfl | hs
    · rw [hp.exit_eq hst] at hx
      cases hx
    · exact absurd (show s = lo by omega) hne

/-- Every yield of a block has a state that pauses at it, and no other state pauses at a yield. -/
theorem Laid.stations (hl : Laid T h J ss p q lo hi) (hn : Numbered T.states T.handlers)
    {A : List Stmt} (hA : cleanupsAround T h = A.filterMap (·.cleanup?)) :
    ∃ xs, Stations T lo hi (fun s => Within p lo hi s ∧ s ≠ q.state) (Stmt.yieldsIn A ss) xs := by
  induction hl generalizing A with
  | nil h J p lo =>
    rw [yieldsIn_nil]
    refine ⟨[], (Stations.nil lo lo).widen (Nat.le_refl _) (Nat.le_refl _) ?_⟩
    intro s st e r hs
    omega
  | flat hs _ _ ih =>
    rw [yieldsIn_cons, yieldsIn_flat hs, nil_append]
    exact ih hA
  | @receive h J s e s' ss p q lo hi hr he hp ho ha rest ih =>
    have hnone : yieldsIn A [s] = [] := by
      cases hr <;> rw [yieldsIn_inner rfl, Stmt.inner, filter_nil]
    rw [yieldsIn_cons, hnone, nil_append]
    obtain ⟨xs, hxs⟩ := ih hA
    refine ⟨xs, hxs.widen (by omega) (Nat.le_refl _) fun s st e r hs hst hx => ?_⟩
    have hne : s ≠ p.state := by
      rintro rfl
      rw [hp.exit_eq hst] at hx
      cases hx
    simp only [Within] at *
    omega
  | @yield h J m e ss p q lo hi he hp ho rest ih =>
    have hhere : Stations T lo (lo + 1) (· = p.state) [⟨.yield m e, A⟩] [(p.state, lo)] := by
      obtain ⟨st, hst, -, hx⟩ := hp
      exact ⟨.cons ⟨⟨st, m, e, hst, rfl, hx⟩, h, ho, hA⟩ .nil, pairwise_singleton .., by simp,
        fun s _ _ _ hs _ _ => ⟨_, mem_singleton_self _, hs.symm⟩⟩
    obtain ⟨xs, hxs⟩ := ih hA
    rw [yieldsIn_cons, yieldsIn_yield]
    refine ⟨_, (hhere.append hxs (Nat.le_refl _) (by omega) rest.le.1).widen (Nat.le_refl _)
      (Nat.le_refl _) fun s st e r hs hst hx => ?_⟩
    simp only [Within] at *
    omega
  | @leave h J s t ss p q lo hi hj hp ho rest ih =>
    have hnone : yieldsIn A [s] = [] := by
      cases hj <;> rw [yieldsIn_inner rfl, Stmt.inner, filter_nil]
    have ht : t.isSuspension = false := by
      cases hj <;> rfl
    rw [yieldsIn_cons, hnone, nil_append]
    obtain ⟨xs, hxs⟩ := ih hA
    refine ⟨xs, hxs.widen (by omega) (Nat.le_refl _) fun s st e r hs hst hx => ?_⟩
    have hne := hp.ne_state ht hst hx
    simp only [Within] at *
    omega
  | @value h J m e e' t ss p p₁ q lo lo₁ hi he hj hp ho rest ih =>
    have hle := he.le
    obtain ⟨xs, hxs⟩ := ih hA
    rw [yieldsIn_cons, yieldsIn_inner rfl, Stmt.inner, filter_nil, nil_append]
    refine ⟨xs, hxs.widen (by omega) (Nat.le_refl _) fun s st e r hs hst hx => ?_⟩
    have h₁ := hp.ne_state rfl hst hx
    have h₂ := he.no_yield hst hx h₁
    simp only [Within] at *
    omega
  | @when h J m t t' a ss p p₁ qa q lo y hi₁ hi ht hp hy hm yes ha rest ihy ih =>
    have hle := ht.le
    have hly := yes.le.1
    obtain ⟨xs₁, hxs₁⟩ := ihy (A := .cond m t a [] :: A) hA
    obtain ⟨xs₂, hxs₂⟩ := ih hA
    rw [yieldsIn_cons, yieldsIn_cond, yieldsIn_nil, append_nil]
    refine ⟨_, (hxs₁.append hxs₂ (Nat.le_refl _) hly rest.le.1).widen (by omega)
      (Nat.le_refl _) fun s st e r hs hst hx => ?_⟩
    have h₁ := hp.ne_state rfl hst hx
    have h₂ := ht.no_yield hst hx h₁
    have h₃ := ha.ne_state rfl hst hx
    simp only [Within] at *
    omega
  | @either h J m t t' a b ss p p₁ qa qb q lo y hi₁ hi₂ hi ht hp hy hn' hm yes ha no hb rest ihy ihn
      ih =>
    have hle := ht.le
    have hly := yes.le.1
    have hln := no.le.1
    obtain ⟨xs₁, hxs₁⟩ := ihy (A := .cond m t a b :: A) hA
    obtain ⟨xs₂, hxs₂⟩ := ihn (A := .cond m t a b :: A) hA
    obtain ⟨xs₃, hxs₃⟩ := ih hA
    rw [yieldsIn_cons, yieldsIn_cond]
    refine ⟨_, ((hxs₁.append hxs₂ (Nat.le_refl _) hly hln).append hxs₃ (Nat.le_refl _) (by omega)
      rest.le.1).widen (by omega) (Nat.le_refl _) fun s st e r hs hst hx => ?_⟩
    have h₁ := hp.ne_state rfl hst hx
    have h₂ := ht.no_yield hst hx h₁
    have h₃ := ha.ne_state rfl hst hx
    have h₄ := hb.ne_state rfl hst hx
    simp only [Within] at *
    omega
  | @loop h J m t t' b ss p p₁ qb q head lo lo₁ y hi₁ hi hh ht hp hy hm body hb rest ihb ih =>
    have hlh := hh.le
    have hle := ht.le
    have hlb := body.le.1
    obtain ⟨xs₁, hxs₁⟩ := ihb (A := .loop m t b :: A) hA
    obtain ⟨xs₂, hxs₂⟩ := ih hA
    rw [yieldsIn_cons, yieldsIn_loop]
    refine ⟨_, (hxs₁.append hxs₂ (Nat.le_refl _) hlb rest.le.1).widen (by omega) (Nat.le_refl _)
      fun s st e r hs hst hx => ?_⟩
    have h₁ := hp.ne_state rfl hst hx
    have h₂ := ht.no_yield hst hx h₁
    have h₃ := hb.ne_state rfl hst hx
    cases hh with
    | here =>
      simp only [Within] at *
      omega
    | new he _ =>
      have h₄ := he.ne_state rfl hst hx
      simp only [Within] at *
      omega
  | @group h J s b ss p p₁ q lo hi₁ hi hg body rest ihb ih =>
    have hlb := body.le
    have hinner : yieldsIn A [s] = yieldsIn (s :: A) b := by
      cases hg with
      | block m b => exact yieldsIn_block ..
      | attempt m b =>
        rw [yieldsIn_attempt A m b none none (by rintro _ ⟨⟩), nodesClause, filter_nil,
          append_nil]
    have hA' : cleanupsAround T h = (s :: A).filterMap (·.cleanup?) := by
      cases hg <;> exact hA
    obtain ⟨xs₁, hxs₁⟩ := ihb hA'
    obtain ⟨xs₂, hxs₂⟩ := ih hA
    rw [yieldsIn_cons, hinner]
    refine ⟨_, (hxs₁.append hxs₂ (Nat.le_refl _) hlb.1 rest.le.1).widen (Nat.le_refl _)
      (Nat.le_refl _) fun s st e r hs hst hx => ?_⟩
    omega
  | @caught h J m b x cb ss g p qb qc q lo hi₁ hi₂ hi hg hx' ho hp hy body hb hl clause hd rest ihb
      ihc ih =>
    have hlb := body.le.1
    have hlc := clause.le.1
    have hguard : cleanupsAround T (some g) = cleanupsAround T h := by
      rw [cleanupsAround, around_guard hn hg]
      rfl
    obtain ⟨xs₁, hxs₁⟩ := ihb (A := .attempt m b (some (.mk x cb)) none :: A) (hguard.trans hA)
    obtain ⟨xs₂, hxs₂⟩ := ihc (A := .attempt m b (some (.mk x cb)) none :: A) hA
    obtain ⟨xs₃, hxs₃⟩ := ih hA
    rw [yieldsIn_cons, yieldsIn_attempt A m b _ none (by rintro _ ⟨⟩), nodesClause]
    refine ⟨_, ((hxs₁.append hxs₂ (by omega) (by omega) (by omega)).append hxs₃ (Nat.le_refl _)
      (by omega) rest.le.1).widen (by omega) (Nat.le_refl _) fun s st e r hs hst hx => ?_⟩
    have h₁ := hp.ne_state rfl hst hx
    have h₂ := hb.ne_state rfl hst hx
    have h₃ := hd.ne_state rfl hst hx
    simp only [Within] at *
    omega
  | @cleaned h J J' m b fb ss g p qb q r' lo hi₁ hi₂ hi hs hg ho hf hp hy body hb hr routes rest ihb
      ih =>
    have hlb := body.le.1
    have hlr := routes.le
    obtain ⟨xs₁, hxs₁⟩ := ihb (A := .attempt m b none (some fb) :: A)
      ((cleanupsAround_guard hn hg hf).trans (congrArg (fb :: ·) hA))
    obtain ⟨xs₂, hxs₂⟩ := ih hA
    rw [yieldsIn_cons, yieldsIn_attempt A m b none (some fb) (still_cleanup hs),
      nodesClause, filter_nil, append_nil]
    refine ⟨_, (hxs₁.append hxs₂ hlr (by omega) rest.le.1).widen (by omega) (Nat.le_refl _)
      fun s st e r hs hst hx => ?_⟩
    have h₁ := hp.ne_state rfl hst hx
    have h₂ := hf.ne_state hst hx
    have h₃ := hb.ne_state rfl hst hx
    have h₄ := routes.not_suspend hr.2.2 (body.leaves hb) hst hx
    simp only [Within] at *
    omega
  | @both h J J' m b x cb fb ss g k p qb qc q r' lo hi₁ hi₂ hi₃ hi hs hg hx' hk ho hf hp hy body hb
      hl clause hd hr routes rest ihb ihc ih =>
    have hlb := body.le.1
    have hlc := clause.le.1
    have hlr := routes.le
    obtain ⟨xs₁, hxs₁⟩ := ihb (A := .attempt m b (some (.mk x cb)) (some fb) :: A)
      ((cleanupsAround_guard hn hg hf).trans (congrArg (fb :: ·) hA))
    obtain ⟨xs₂, hxs₂⟩ := ihc (A := .attempt m b (some (.mk x cb)) (some fb) :: A)
      ((cleanupsAround_guard hn hk hf).trans (congrArg (fb :: ·) hA))
    obtain ⟨xs₃, hxs₃⟩ := ih hA
    rw [yieldsIn_cons, yieldsIn_attempt A m b _ (some fb) (still_cleanup hs),
      nodesClause]
    refine ⟨_, ((hxs₁.append hxs₂ (by omega) (by omega) (by omega)).append hxs₃ hlr (by omega)
      rest.le.1).widen (by omega) (Nat.le_refl _) fun s st e r hs hst hx => ?_⟩
    have h₁ := hp.ne_state rfl hst hx
    have h₂ := hf.ne_state hst hx
    have h₃ := hb.ne_state rfl hst hx
    have h₄ := hd.ne_state rfl hst hx
    have h₅ := routes.not_suspend hr.2.2
      ((body.leaves hb).append (clause.leaves hd) (by omega) (by omega)) hst hx
    simp only [Within] at *
    omega

/-- The yields of a body, and all states that pause at a yield. -/
theorem Body.stations {body : Block} (hb : Body T body) (hn : Numbered T.states T.handlers) :
    ∃ xs, Stations T 2 T.states.length (fun _ => True) (Stmt.yieldsIn [] body) xs := by
  obtain ⟨q, hl, hq⟩ := hb.laid
  obtain ⟨st₁, hst₁, -, he₁, -⟩ := hb.finish
  obtain ⟨xs, hxs⟩ := hl.stations hn (A := []) (by simp [cleanupsAround, around])
  refine ⟨xs, hxs.widen (Nat.le_refl _) (Nat.le_refl _) fun s st e r _ hst hx => ?_⟩
  have hlt : s < T.states.length := (List.getElem?_eq_some_iff.mp hst).1
  have h₁ := hq.ne_state rfl hst hx
  have h₂ : s ≠ 1 := by
    rintro rfl
    cases hst₁.symm.trans hst
    rw [he₁] at hx
    cases hx
  simp only [Within]
  omega

end Layout

/-! The chain. -/

namespace Compiled

open Hoist Layout

variable {m : Method} {kind : Kind} {c : Chain} (C : Compiled m kind c)

theorem exists_of_image_suspend {st : State} {e : Expr} {r : StateId}
    (h : (C.image st).exit = .suspend (.yield e) r) :
    ∃ e₀ r₀, st.exit = .suspend (.yield e₀) r₀ ∧ e = hoistExpr c.captures e₀ ∧ r = C.number r₀ := by
  rw [C.exit_image] at h
  cases hx : st.exit with
  | suspend z r₀ =>
    rw [hx] at h
    cases z <;> cases h
    exact ⟨_, r₀, rfl, rfl, rfl⟩
  | _ =>
    rw [hx] at h
    cases h

theorem cleanupBodies_number {s : Nat} {h : Option HandlerId} (hs : C.live s)
    (hc : Covered C.table s h) :
    c.cleanupBodies (C.number s) = (cleanupsAround C.table h).map (hoistBlock c.captures) := by
  obtain ⟨st, hst, rfl⟩ := hc
  have henclosing : enclosing C.table.states C.table.handlers s =
      around C.table.handlers st.handler := enclosing_eq ⟨st, hst, rfl⟩
  rw [Chain.cleanupBodies, C.enclosing_number hs hst, cleanupsAround, map_map, map_map,
    henclosing]
  apply map_congr_left
  intro f hf
  rw [← henclosing] at hf
  have hcleans := (C.orderly hst).cleans f hf
  have hlive := live_enclosing C.shrinks hs hf hcleans
  obtain ⟨stf, hstf, -⟩ := hcleans
  simp only [Function.comp_apply, state_eq hlive hstf, hstf]
  rfl

/-- A state of the chain that pauses at a yield stands for a yield of the body. -/
theorem exists_station {lo hi : Nat} {ns : List Node} {xs : List (Nat × Nat)}
    (hxs : Stations C.table lo hi (fun _ => True) ns xs) {k : Nat} {st : State} {e : Expr}
    {r : StateId} (hst : c.states[k]? = some st) (hx : st.exit = .suspend (.yield e) r) :
    ∃ (i : Nat) (n : Node) (x : Nat × Nat), ns[i]? = some n ∧ xs[i]? = some x ∧ C.live x.2 ∧
      r = C.number x.2 ∧ (∃ mark e₀, n.stmt = .yield mark e₀ ∧ e = hoistExpr c.captures e₀) ∧
      c.cleanupBodies r = n.cleanups.map (hoistBlock c.captures) := by
  obtain ⟨s, old, hs, hold, -, rfl⟩ := exists_origin (C := C) hst
  obtain ⟨e₀, r₀, hx₀, rfl, rfl⟩ := C.exists_of_image_suspend hx
  obtain ⟨x, hmem, rfl⟩ := hxs.all s old e₀ r₀ trivial hold hx₀
  obtain ⟨i, hi, hget⟩ := getElem_of_mem hmem
  have hlen := hxs.each.length_eq
  have hstation := (forall₂_iff_get.mp hxs.each).2 i (by omega) hi
  rw [get_eq_getElem, get_eq_getElem, hget] at hstation
  obtain ⟨⟨st', mark, e', hst', hyield, hx'⟩, h, hcov, hcleanups⟩ := hstation
  cases hold.symm.trans hst'
  rw [hx₀] at hx'
  cases hx'
  have hlive : C.live x.2 := C.live_edge hs hold (by rw [hx₀]; exact mem_singleton_self _)
  refine ⟨i, _, x, getElem?_eq_getElem (by omega), hget ▸ getElem?_eq_getElem hi, hlive,
    rfl, ⟨mark, e₀, hyield, rfl⟩, ?_⟩
  rw [C.cleanupBodies_number hlive hcov, hcleanups]

end Compiled

/-! Runs that yield. -/

namespace Machine

variable {σ κ : Type} {c : Chain} {m m' : Machine} {host : Host σ κ} {n : Nat} {w : World σ κ}
  {v : Value}

/-- A step that yields runs a state that pauses at a yield. -/
theorem step_yielded {st : State} (hst : m.chain.states[m.current]? = some st)
    (h : (m.step host n w).1 = .yielded v m') :
    m.deed host n w = [.executes m.current none] ∧
      ∃ e, st.exit = .suspend (.yield e) m'.current := by
  refine ⟨?_, yield_of_step hst (Prod.ext h rfl)⟩
  rw [step_eq hst] at h
  rw [deed, hst]
  split at h
  · cases h
  · rename_i hc
    simp only [hc, Bool.false_eq_true, if_false]
    split at h
    · rename_i he
      simp only [he]
    · cases h
    · cases h

/-- A run that yields comes from a state that pauses at a yield, and stands where that resumes. -/
theorem run_yielded (hd : Disciplined c.states c.handlers)
    (hn : ∀ (i : Nat) st, c.states[i]? = some st → st.id = i) (hm : Steady c m)
    (h : (m.run host n w).1 = .yielded v m') :
    m.Continues m' ∧ Plain c.states m'.current ∧ ∃ s st e,
      [.does (.executes s none), .moves s m'.current] <:+ Moment.trace host ⟨n, m, w⟩ ∧
        c.states[s]? = some st ∧ st.exit = .suspend (.yield e) m'.current := by
  induction n generalizing m w with
  | zero => cases h
  | succ n ih =>
    obtain ⟨st, hst⟩ := hm.state
    have hmst : m.chain.states[m.current]? = some st := hm.chain ▸ hst
    have hmoved := hm.step hd hn host n w
    have hyields := @step_yielded σ κ m m' host n w v st hmst
    have hkept := fun m₁ => @step_continues σ κ m m₁ w host n
    -- what the rest of the run shows is also shown by the whole
    have hrest : ∀ {m₁ w₁}, m.onward host n w = some (m₁, w₁) → m.Continues m₁ → Steady c m₁ →
        m.Continues m' ∧ Plain c.states m'.current ∧ ∃ s st e,
          [.does (.executes s none), .moves s m'.current] <:+ Moment.trace host ⟨n + 1, m, w⟩ ∧
            c.states[s]? = some st ∧ st.exit = .suspend (.yield e) m'.current := by
      intro m₁ w₁ honward hcont₁ hm₁
      rw [run_onward honward] at h
      obtain ⟨hcont, hplain, s, st', e, hes, hst', hx⟩ := ih hm₁ h
      refine ⟨hcont₁.trans hcont, hplain, s, st', e, ?_, hst', hx⟩
      rw [Moment.trace, along_onward _ honward]
      exact hes.trans (suffix_append ..)
    rcases hstep : m.step host n w with ⟨move, w₁⟩
    rw [hstep] at hmoved hyields hkept
    cases move with
    | next m₁ => exact hrest (onward_next hstep) (hkept m₁ rfl) hmoved
    | yielded u m₁ =>
      rw [run, hstep] at h
      cases h
      obtain ⟨hdeed, e, hx⟩ := hyields rfl
      refine ⟨hkept _ rfl, hmoved.2.1, m.current, st, e, ?_, hst, hx⟩
      have hlast : m.onward host n w = none := by rw [onward, hstep]
      rw [Moment.trace, along_last _ hlast, Moment.events, hdeed, target?, hstep]
      exact suffix_refl _
    | fault f m₁ =>
      have hst₁ : c.states[m₁.current]? = some st := hmoved.2 ▸ hst
      cases hhandle : m₁.handle f w₁ with
      | none =>
        rw [run, hstep] at h
        simp only [hhandle] at h
        cases h
      | some y =>
        exact hrest ((onward_fault hstep).trans hhandle)
          ((hkept m₁ rfl).trans (handle_continues hhandle))
          (Steady.handle hd hmoved.1 hst₁ hhandle)
    | awaiting | completed | timeout =>
      rw [run, hstep] at h
      cases h

/-- Run blocks one after another on the slots of the machine, whatever they raise. For each of
them it is added to the list what it raised. -/
def runEach (host : Host σ κ) (n : Nat) (m : Machine) :
    List Block → List (Option Fault) → Run σ κ (List (Option Fault))
  | [], raised => return raised
  | b :: rest, raised => fun w =>
    let held := (raised.findSome? id).toList.flatMap (·.value?.toList)
    let hands := w.hands
    match Eval.execState host m.home n b { world := w.grasp [.values held, .machine m] } with
    | .ok () a => runEach host n m rest (raised ++ [none]) (a.world.letGo hands)
    | .error (.fault f) a => runEach host n m rest (raised ++ [some f]) (a.world.letGo hands)
    | .error .timeout a => .error ⟨⟩ (a.world.letGo hands)

/-- Run blocks on the slots of a paused machine and let the slots go. The first fault comes back,
and nothing is left to come. -/
def quit (host : Host σ κ) (n : Nat) (m : Machine) (bs : List Block) :
    Run σ κ (Option Fault × Enumerator) := do
  let raised ← m.runEach host n bs []
  modify (·.release m.home)
  return (raised.findSome? id, .finished)

theorem runCleanups_eq (fs : List StateId) (raised : List (Option Fault)) (w : World σ κ) :
    m.runCleanups host n fs (raised.findSome? id) w =
      (do
        let all ← m.runEach host n
          (fs.map fun f => m.chain.states[f]?.elim [] fun st : State => st.body) raised
        return all.findSome? id) w := by
  induction fs generalizing raised w with
  | nil => rfl
  | cons f fs ih =>
    simp only [runCleanups, map_cons, runEach, bind, EStateM.bind]
    generalize Eval.execState host m.home n (m.chain.states[f]?.elim [] fun st => st.body)
      { world := w.grasp [.values ((raised.findSome? id).toList.flatMap (·.value?.toList)),
          .machine m] } = r
    cases r with
    | ok _ a =>
      have hfirst : (raised ++ [none]).findSome? id = raised.findSome? id := by simp
      rw [← hfirst]
      exact ih _ _
    | error e a =>
      cases e with
      | timeout => rfl
      | fault flt =>
        have hfirst : (raised ++ [some flt]).findSome? id =
            (raised.findSome? id).or (some flt) := by simp
        simp only
        rw [← hfirst]
        exact ih _ _

end Machine

/-- One state of the chain leads to another by a yield. -/
def Chain.YieldsTo (c : Chain) (s r : StateId) : Prop :=
  ∃ st e, c.states[s]? = some st ∧ st.exit = .suspend (.yield e) r

/-- The state `s` pauses at the yield number `i` of the method, to resume in the state `r`. With
the names that have been given to the bindings of the method, the yield is `y`. -/
structure Chain.PausesAt (c : Chain) (m : Method) (i : Nat) (y : Node) (s r : StateId) :
    Prop where
  source : ∃ y₀, m.yields[i]? = some y₀ ∧ y.nameless = y₀.nameless
  renamed : m.rename.yields[i]? = some y
  exit : ∃ st mark e, c.states[s]? = some st ∧ y.stmt = .yield mark e ∧
    st.exit = .suspend (.yield (Hoist.hoistExpr c.captures e)) r

/-- Every state where a yield resumes belongs to one yield of the method, and its cleanups are those
around that yield. -/
theorem Compiled.exists_place {m : Method} {kind : Kind} {c : Chain}
    (C : Compiled m.rename kind c) : ∃ place : StateId → Nat,
      (∀ s s' r r', c.YieldsTo s r → c.YieldsTo s' r' → r < r' → place r < place r') ∧
      ∀ s r, c.YieldsTo s r → ∃ y, c.PausesAt m (place r) y s r ∧
        c.cleanupBodies r = y.cleanups.map (Hoist.hoistBlock c.captures) := by
  obtain ⟨xs, hxs⟩ := C.body.stations C.numbered
  -- two states that pause and resume in the same one have the same station
  have hplace : ∀ r : StateId, ∃ i : Nat, ∀ s, c.YieldsTo s r →
      (∃ x : Nat × Nat, xs[i]? = some x ∧ C.live x.2 ∧ r = C.number x.2) ∧
      ∃ y, c.PausesAt m i y s r ∧
        c.cleanupBodies r = y.cleanups.map (Hoist.hoistBlock c.captures) := by
    intro r
    by_cases hr : ∃ s, c.YieldsTo s r
    · obtain ⟨s, st, e, hst, hx⟩ := hr
      obtain ⟨i, -, x, -, hxi, hlive, rfl, -⟩ := C.exists_station hxs hst hx
      refine ⟨i, fun s' hs' => ⟨⟨x, hxi, hlive, rfl⟩, ?_⟩⟩
      obtain ⟨st', e', hst', hx'⟩ := hs'
      obtain ⟨j, y, x', hy, hxj, hlive', hnumber, ⟨mark, e₀, hyield, rfl⟩, hcleanups⟩ :=
        C.exists_station hxs hst' hx'
      have hresume := C.shrinks.inj _ _ hlive hlive' hnumber
      obtain rfl : i = j := by
        have hij := hxs.lt_iff hxi hxj
        have hji := hxs.lt_iff hxj hxi
        omega
      exact ⟨y, ⟨Method.exists_yield hy, hy, st', mark, e₀, hst', hyield, hx'⟩, hcleanups⟩
    · exact ⟨0, fun s hs => absurd ⟨s, hs⟩ hr⟩
  choose place hplace using hplace
  refine ⟨place, fun s s' r r' hs hs' hlt => ?_, fun s r hs => (hplace r s hs).2⟩
  obtain ⟨x, hx, hlive, rfl⟩ := (hplace r s hs).1
  obtain ⟨x', hx', hlive', rfl⟩ := (hplace r' s' hs').1
  refine (hxs.lt_iff hx hx').mpr ?_
  rcases Nat.lt_trichotomy x.2 x'.2 with h | h | h
  · exact h
  · rw [h] at hlt
    exact absurd hlt (Nat.lt_irrefl _)
  · exact absurd (C.shrinks.mono _ _ hlive' hlive h) (Nat.lt_asymm hlt)

namespace Enumerator

variable {σ κ : Type}

/-- The second enumerator is the first one after an advance, in some world. -/
def Advances (host : Host σ κ) (e e' : Enumerator) : Prop :=
  ∃ n w r w', e.advance host n w = .ok (r, e') w'

theorem dispose_eq {e : Enumerator} {m : Machine} (h : e.machine = some m) (host : Host σ κ)
    (n : Nat) : e.dispose host n = m.quit host n (m.chain.cleanupBodies m.current) := by
  funext w
  have hrun := @Machine.runCleanups_eq _ _ m host n (m.chain.enclosingCleanups m.current) [] w
  simp only [findSome?_nil] at hrun
  unfold dispose Machine.quit Machine.unwind
  rw [h]
  simp only [bind, EStateM.bind] at hrun ⊢
  rw [hrun, Chain.cleanupBodies]
  generalize m.runEach host n ((m.chain.enclosingCleanups m.current).map
    fun f => m.chain.states[f]?.elim [] fun st => st.body) [] w = r
  cases r <;> rfl

/-- The enumerator is paused in the chain, or exhausted. -/
def Rests (c : Chain) (home : StorageId) (e : Enumerator) : Prop :=
  ∀ m ∈ e.machine, m.chain = c ∧ m.home = home ∧ Plain c.states m.current

section

variable {c : Chain} {home : StorageId} {e e' : Enumerator} {host : Host σ κ} {n : Nat}
  {w w' : World σ κ}

theorem run_of_advance {v : Value} (h : e.advance host n w = .ok (.yielded v, e') w') :
    ∃ m m', e.machine = some m ∧ e'.machine = some m' ∧
      e.advancing host n w = Moment.trace host ⟨n, m, w.grasp [.values e.current.toList]⟩ ∧
      (m.run host n (w.grasp [.values e.current.toList])).1 = .yielded v m' := by
  unfold advance at h
  unfold advancing
  cases hm : e.machine with
  | none =>
    rw [hm] at h
    cases h
  | some m =>
    rw [hm] at h
    simp only at h
    rcases hrun : m.run host n (w.grasp [.values e.current.toList]) with ⟨halt, w₁⟩
    rw [hrun] at h
    cases halt with
    | yielded u m' =>
      cases h
      exact ⟨m, m', rfl, rfl, rfl, congrArg (·.1) hrun⟩
    | _ => cases h

/-- An advance yields, or nothing is left to come. -/
theorem yielded_or_exhausted {r : Advance} (h : e.advance host n w = .ok (r, e') w') :
    (∃ v, r = .yielded v) ∨ e'.machine = none := by
  unfold advance at h
  cases hm : e.machine with
  | none =>
    rw [hm] at h
    cases h
    exact .inr hm
  | some m =>
    rw [hm] at h
    simp only at h
    generalize m.run host n (w.grasp [.values e.current.toList]) = x at h
    obtain ⟨halt, w₁⟩ := x
    cases halt with
    | yielded u m' =>
      cases h
      exact .inl ⟨u, rfl⟩
    | timeout => cases h
    | awaiting | completed | fault =>
      cases h
      exact .inr rfl

variable (hd : Disciplined c.states c.handlers)
  (hn : ∀ (i : Nat) st, c.states[i]? = some st → st.id = i)
include hd hn

theorem Rests.advance (hr : e.Rests c home) (h : e.Advances host e') : e'.Rests c home := by
  obtain ⟨n, w, r, w', h⟩ := h
  intro m₁ hm₁
  rcases yielded_or_exhausted h with ⟨v, rfl⟩ | hnone
  · obtain ⟨m, m', hm, hm', -, hrun⟩ := run_of_advance h
    obtain ⟨hc, hhome, hplain⟩ := hr m hm
    obtain ⟨hcont, hplain', -⟩ := Machine.run_yielded hd hn (hplain.steady hc) hrun
    cases hm'.symm.trans hm₁
    exact ⟨hcont.chain.trans hc, hcont.home.trans hhome, hplain'⟩
  · rw [hnone] at hm₁
    cases hm₁

theorem Rests.reaches (hr : e.Rests c home) (h : Relation.ReflTransGen (Advances host) e e') :
    e'.Rests c home := by
  induction h with
  | refl => exact hr
  | tail _ hstep ih => exact ih.advance hd hn hstep

end

end Enumerator

/-- Disposal runs exactly the cleanups of the guarded blocks and clauses that the yield stands in
at which the enumerator is paused, innermost first. Each of them runs, on the slots as they are,
whatever the others raise. The first fault comes back, and nothing is left to come. Before the
first advance nothing runs at all. -/
theorem disposal_runs_cleanups {m : Method} {limit : Nat} {c : Chain}
    (h : m.split limit = .ok (some c)) :
    ∃ place : StateId → Nat,
      (∀ s s' r r', c.YieldsTo s r → c.YieldsTo s' r' → r < r' → place r < place r') ∧
      ∀ {σ κ : Type} (host : Host σ κ) (args : List Value) (w w₀ : World σ κ) (e₀ : Enumerator),
        Enumerator.create c args w = .ok (e₀, w₀) →
        (∀ n v, e₀.dispose host n v = .ok (none, .finished) (v.release w.storages.size)) ∧
        ∀ e n v x e' v', Relation.ReflTransGen (Enumerator.Advances host) e₀ e →
          e.advance host n v = .ok (.yielded x, e') v' →
          ∃ machine y s, e'.machine = some machine ∧ machine.home = w.storages.size ∧
            [.does (.executes s none), .moves s machine.current] <:+ e.advancing host n v ∧
            c.PausesAt m (place machine.current) y s machine.current ∧
            ∀ n, e'.dispose host n =
              machine.quit host n (y.cleanups.map (Hoist.hoistBlock c.captures)) := by
  obtain ⟨kind, -, hchain⟩ := Method.exists_of_split h
  obtain ⟨C⟩ := Method.compiled hchain
  obtain ⟨place, hmono, hplace⟩ := C.exists_place
  refine ⟨place, hmono, fun host args w w₀ e₀ hcreate => ?_⟩
  obtain ⟨⟨m₀, w₁⟩, hm₀, he₀⟩ := Splitting.bind_eq_ok hcreate
  cases he₀
  obtain ⟨-, -, rfl, -⟩ := Machine.create_ok hm₀
  have hd := C.disciplined
  have hn : ∀ (i : Nat) st, c.states[i]? = some st → st.id = i := fun _ _ => C.id_eq
  refine ⟨fun n v => ?_, fun e n v x e' v' hreach hadvance => ?_⟩
  · have houtside : c.cleanupBodies Chain.entry = [] := by
      rw [Chain.cleanupBodies, show c.enclosingCleanups Chain.entry = [] from hd.outside,
        map_nil]
    rw [Enumerator.dispose_eq rfl, houtside]
    rfl
  · have hentry : Enumerator.Rests c w.storages.size
        { machine := some { chain := c, home := w.storages.size } } := by
      rintro _ ⟨⟩
      exact ⟨rfl, rfl, hd.entry⟩
    have hrests := hentry.reaches hd hn hreach
    obtain ⟨m₁, m', hm₁, hm', hevents, hrun⟩ := Enumerator.run_of_advance hadvance
    obtain ⟨hc, hhome, hplain⟩ := hrests m₁ hm₁
    obtain ⟨hcont, -, s, st, v, hend, hst, hx⟩ :=
      Machine.run_yielded hd hn (hplain.steady hc) hrun
    obtain ⟨y, hpauses, hbodies⟩ := hplace s m'.current ⟨st, v, hst, hx⟩
    refine ⟨m', y, s, hm', hcont.home.trans hhome, hevents ▸ hend, hpauses, fun n => ?_⟩
    rw [Enumerator.dispose_eq hm', hcont.chain.trans hc, hbodies]

/-- Paused at the first yield of `nestedYield`, both cleanups run, the inner one first. -/
theorem nestedYield_disposal_runs_cleanups :
    ∃ e : Enumerator, ∃ machine : Machine, e.machine = some machine ∧ machine.current = 8 ∧
      ∀ n, e.dispose silentHost n =
        machine.quit silentHost n [[.eval {} (.int {} 3)], [.eval {} (.int {} 4)]] := by
  let start : Enumerator := { machine := some { chain := nestedChain, home := 0 } }
  let paused : Enumerator :=
    { machine := some { chain := nestedChain, home := 0, current := 8 }, current := some (.int 5) }
  let world : World Unit Unit :=
    { storages := #[{ slots := [.int 5, .unit], holders := 1 }], accesses := [.wrote 0 0],
      ext := () }
  have hsplit : nestedYield.split 30 = .ok (some nestedChain) := by decide +kernel
  have hcreate : Enumerator.create nestedChain [.int 5] ({ ext := () } : World Unit Unit) =
      .ok (start, world) := by with_unfolding_all rfl
  have hadvance : start.advance silentHost 10 world =
      .ok (.yielded (.int 5), paused) (world.note (.read 0 0)) := by with_unfolding_all rfl
  obtain ⟨place, -, hruns⟩ := disposal_runs_cleanups hsplit
  obtain ⟨-, hpaused⟩ := hruns silentHost [.int 5] { ext := () } world start hcreate
  obtain ⟨machine, y, s, hm, -, -, hat, hdispose⟩ :=
    hpaused start 10 world (.int 5) paused _ .refl hadvance
  have hcleanups : ∀ y ∈ nestedYield.rename.yields, y.cleanups.map
      (Hoist.hoistBlock nestedChain.captures) =
      [[.eval {} (.int {} 3)], [.eval {} (.int {} 4)]] := by
    decide +kernel
  cases hm
  refine ⟨paused, _, rfl, rfl, fun n => ?_⟩
  rw [hdispose, hcleanups y (mem_of_getElem? hat.renamed)]

end Resumable

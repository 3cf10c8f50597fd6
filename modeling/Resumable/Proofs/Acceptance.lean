import Resumable.Proofs.Runnable
import Mathlib.Algebra.GroupWithZero.Nat

namespace Resumable

open List
open Stmt hiding bind

variable {b : Block} {s : Stmt} {around : List Stmt} {α β ε : Type}

/-! The statements of a body. -/

/-- A statement somewhere in a body, and the statements around it, innermost first. -/
structure Node where
  stmt : Stmt
  around : List Stmt
  deriving DecidableEq

mutual

/-- The statements inside of a statement, with what is around them. The bodies of lambdas belong
to other methods. -/
def Stmt.inner (around : List Stmt) : Stmt → List Node
  | .cond _ _ a b => Stmt.nodesIn around a ++ Stmt.nodesIn around b
  | .loop _ _ b | .block _ b => Stmt.nodesIn around b
  | .attempt _ b c f =>
    Stmt.nodesIn around b ++ (Stmt.nodesClause around c ++ Stmt.nodesCleanup around f)
  | .bind .. | .assign .. | .store .. | .eval .. | .throw .. | .yield .. | .yieldBreak _
  | .ret .. | .brk _ | .cont _ => []

def Stmt.nodesClause (around : List Stmt) : Option Catch → List Node
  | none => []
  | some (.mk _ b) => Stmt.nodesIn around b

def Stmt.nodesCleanup (around : List Stmt) : Option (List Stmt) → List Node
  | none => []
  | some b => Stmt.nodesIn around b

/-- All statements of a block that stands inside of others. -/
def Stmt.nodesIn (around : List Stmt) : List Stmt → List Node
  | [] => []
  | s :: ss => ⟨s, around⟩ :: (s.inner (s :: around) ++ Stmt.nodesIn around ss)

end

mutual

/-- An expression, with all those inside of it but for lambdas. -/
def Expr.parts : Expr → List Expr
  | .binary m op l r => .binary m op l r :: (l.parts ++ r.parts)
  | .unary m op e => .unary m op e :: e.parts
  | .call m c es => .call m c es :: (c.parts ++ Expr.partsIn es)
  | .await m e => .await m e :: e.parts
  | e => [e]

def Expr.partsIn : List Expr → List Expr
  | [] => []
  | e :: es => e.parts ++ Expr.partsIn es

end

/-- What an await waits for. -/
def Expr.operand? : Expr → Option Expr
  | .await _ e => some e
  | _ => none

/-- There is an await in the expression. -/
def Expr.Awaits (e : Expr) : Prop :=
  ∃ p ∈ e.parts, p.operand?.isSome

/-- If there is an await, it is the whole expression, and the only one. -/
def Expr.AwaitsWhole (e : Expr) : Prop :=
  e.Awaits → ∃ operand ∈ e.operand?, ¬operand.Awaits

namespace Stmt

/-- The expressions that a statement evaluates itself. -/
def exprs : Stmt → List Expr
  | .bind _ _ e | .assign _ _ e | .store _ _ e | .eval _ e | .throw _ e | .yield _ e
  | .ret _ (some e) | .cond _ e _ _ | .loop _ e _ => [e]
  | .attempt .. | .block .. | .ret _ none | .yieldBreak _ | .brk _ | .cont _ => []

def isYield : Stmt → Bool
  | .yield .. => true
  | _ => false

def isYieldBreak : Stmt → Bool
  | .yieldBreak _ => true
  | _ => false

def isReturn : Stmt → Bool
  | .ret .. => true
  | _ => false

def isLoop : Stmt → Bool
  | .loop .. => true
  | _ => false

/-- The statement goes to an end of the loop around it. -/
def isLoopJump : Stmt → Bool
  | .brk _ | .cont _ => true
  | _ => false

def cleanup? : Stmt → Option Block
  | .attempt _ _ _ f => f
  | _ => none

/-- The statement itself awaits. -/
def Awaits (s : Stmt) : Prop :=
  ∃ e ∈ s.exprs, e.Awaits

end Stmt

/-- Control leaves all that is around the statement, as far as it is looked at. -/
def Node.Leaves (n : Node) : Prop :=
  n.stmt.isReturn ∨ n.stmt.isYieldBreak ∨ n.stmt.isLoopJump ∧ ¬∃ u ∈ n.around, u.isLoop

/-- No statement of the block pauses. -/
def Still (b : Block) : Prop :=
  ∀ n ∈ Stmt.nodesIn [] b, ¬n.stmt.isYield ∧ ¬n.stmt.Awaits

/-- Control leaves the block only at its end, or by a fault. -/
def Closed (b : Block) : Prop :=
  ∀ n ∈ Stmt.nodesIn [] b, ¬n.Leaves

def Stmt.Flat (s : Stmt) : Prop :=
  Still [s] ∧ Closed [s]

instance (e : Expr) : Decidable e.Awaits :=
  inferInstanceAs (Decidable (∃ p ∈ e.parts, _))

instance (e : Expr) : Decidable e.AwaitsWhole :=
  inferInstanceAs (Decidable (e.Awaits → ∃ operand ∈ e.operand?, ¬operand.Awaits))

instance (s : Stmt) : Decidable s.Awaits :=
  inferInstanceAs (Decidable (∃ e ∈ s.exprs, _))

instance (n : Node) : Decidable n.Leaves :=
  inferInstanceAs (Decidable (_ ∨ _ ∨ _ ∧ ¬∃ u ∈ n.around, _))

instance (b : Block) : Decidable (Still b) :=
  inferInstanceAs (Decidable (∀ n ∈ Stmt.nodesIn [] b, _))

instance (b : Block) : Decidable (Closed b) :=
  inferInstanceAs (Decidable (∀ n ∈ Stmt.nodesIn [] b, _))

instance (s : Stmt) : Decidable s.Flat :=
  inferInstanceAs (Decidable (_ ∧ _))

namespace Method

def nodes (m : Method) : List Node :=
  Stmt.nodesIn [] m.body

def Yields (m : Method) : Prop :=
  ∃ n ∈ m.nodes, n.stmt.isYield

def Awaits (m : Method) : Prop :=
  ∃ n ∈ m.nodes, n.stmt.Awaits

instance (m : Method) : Decidable m.Yields :=
  inferInstanceAs (Decidable (∃ n ∈ m.nodes, _))

instance (m : Method) : Decidable m.Awaits :=
  inferInstanceAs (Decidable (∃ n ∈ m.nodes, _))

/-- What can be split. A cleanup must not pause, and control must not leave it by a jump; the
second is not asked of a cleanup in a piece that is left whole. -/
@[mk_iff]
structure Splittable (m : Method) : Prop where
  pauses : m.Yields ∨ m.Awaits
  unmixed : ¬(m.Awaits ∧ (m.Yields ∨ ∃ n ∈ m.nodes, n.stmt.isYieldBreak))
  whole : ∀ n ∈ m.nodes, ∀ e ∈ n.stmt.exprs, e.AwaitsWhole ∧ (n.stmt.isYield → ¬e.Awaits)
  values : m.Yields → ∀ n ∈ m.nodes, n.stmt.isReturn → n.stmt.exprs = []
  loops : ∀ n ∈ m.nodes, n.stmt.isLoopJump → ∃ u ∈ n.around, u.isLoop
  still : ∀ n ∈ m.nodes, ∀ b ∈ n.stmt.cleanup?, Still b
  closed : ∀ n ∈ m.nodes, ∀ b ∈ n.stmt.cleanup?,
    (¬n.stmt.Flat ∧ ∀ u ∈ n.around, ¬u.Flat) → Closed b

instance (m : Method) : Decidable m.Splittable :=
  decidable_of_iff' _ (splittable_iff m)

end Method

/-! The counts and the jumps of a body are those of its statements. -/

/-- The pauses and early ends of a statement itself. -/
def Stmt.own (s : Stmt) : Census :=
  { yields := s.isYield.toNat
    yieldBreaks := s.isYieldBreak.toNat
    awaits := (s.exprs.map Expr.awaits).sum }

/-- Something that a count has as soon as a part of it does. -/
structure Census.Additive (P : Census → Prop) : Prop where
  zero : ¬P {}
  add : ∀ a b, P (a + b) ↔ P a ∨ P b

theorem Census.additive_yields : Additive (0 < ·.yields) :=
  ⟨by simp, fun a b => by rw [yields_add]; omega⟩

theorem Census.additive_yieldBreaks : Additive (0 < ·.yieldBreaks) :=
  ⟨by simp, fun a b => by rw [yieldBreaks_add]; omega⟩

theorem Census.additive_awaits : Additive (0 < ·.awaits) :=
  ⟨by simp, fun a b => by rw [awaits_add]; omega⟩

theorem Census.additive_pauses : Additive (·.pauses = true) :=
  ⟨by decide, fun a b => by simp only [pauses, yields_add, awaits_add, decide_eq_true_eq]; omega⟩

section

variable {P : Census → Prop} (hP : Census.Additive P)
include hP

mutual

theorem Stmt.census_iff (around : List Stmt) (s : Stmt) :
    P s.census ↔ P s.own ∨ ∃ n ∈ s.inner around, P n.stmt.own := by
  match s with
  | .bind _ _ e | .assign _ _ e | .store _ _ e | .eval _ e | .throw _ e | .ret _ (some e) =>
    simp [inner, own, exprs, isYield, isYieldBreak, census,
      Expr.census]
  | .yield m e =>
    have h : (yield m e).own = { yields := 1 } + e.census := by
      change (⟨1, 0, e.awaits + 0⟩ : Census) = ⟨1 + 0, 0 + 0, 0 + e.awaits⟩
      simp only [Nat.add_zero, Nat.zero_add]
    simp [census, inner, h]
  | .yieldBreak _ | .ret _ none | .brk _ | .cont _ =>
    simp [inner, own, exprs, isYield, isYieldBreak, census]
  | .cond m t a b =>
    have h : (cond m t a b).own = t.census := by
      simp [own, exprs, isYield, isYieldBreak, Expr.census]
    simp only [census, inner, hP.add, censusIn_iff around a,
      censusIn_iff around b, mem_append, or_and_right, exists_or, h, or_assoc]
  | .loop m t b =>
    have h : (loop m t b).own = t.census := by
      simp [own, exprs, isYield, isYieldBreak, Expr.census]
    simp only [census, inner, hP.add, censusIn_iff around b, h]
  | .attempt m b c f =>
    have h : (attempt m b c f).own = {} := rfl
    simp only [Binding.census_attempt, inner, hP.add, censusIn_iff around b,
      clauseCensus_iff around c, cleanupCensus_iff around f, mem_append,
      or_and_right, exists_or, h, hP.zero, false_or, or_assoc]
  | .block m b =>
    have h : (block m b).own = {} := rfl
    simp only [census, inner, censusIn_iff around b, h, hP.zero, false_or]

theorem Stmt.clauseCensus_iff (around : List Stmt) (c : Option Catch) :
    P (Binding.clauseCensus c) ↔ ∃ n ∈ Stmt.nodesClause around c, P n.stmt.own := by
  match c with
  | none => simpa [Binding.clauseCensus, nodesClause] using hP.zero
  | some (.mk x b) =>
    simpa only [Binding.clauseCensus, nodesClause] using censusIn_iff around b

theorem Stmt.cleanupCensus_iff (around : List Stmt) (f : Option (List Stmt)) :
    P (Binding.cleanupCensus f) ↔ ∃ n ∈ Stmt.nodesCleanup around f, P n.stmt.own := by
  match f with
  | none => simpa [Binding.cleanupCensus, nodesCleanup] using hP.zero
  | some b =>
    simpa only [Binding.cleanupCensus, nodesCleanup] using censusIn_iff around b

theorem Stmt.censusIn_iff (around : List Stmt) (ss : List Stmt) :
    P (Stmt.censusIn ss) ↔ ∃ n ∈ Stmt.nodesIn around ss, P n.stmt.own := by
  match ss with
  | [] => simpa [censusIn, nodesIn] using hP.zero
  | s :: ss =>
    simp only [censusIn, nodesIn, hP.add, census_iff (s :: around) s,
      censusIn_iff around ss, exists_mem_cons_iff, mem_append, or_and_right,
      exists_or, or_assoc]

end

end

mutual

theorem Expr.awaits_pos_iff (e : Expr) : 0 < e.awaits ↔ e.Awaits := by
  match e with
  | .binary _ _ l r =>
    have hl := l.awaits_pos_iff
    have hr := r.awaits_pos_iff
    simp only [Expr.Awaits] at hl hr
    simp only [Expr.Awaits, Expr.awaits, Expr.parts, Nat.add_pos_iff_pos_or_pos, hl, hr,
      exists_mem_cons_iff, mem_append, or_and_right, exists_or, Expr.operand?, Option.isSome_none,
      Bool.false_eq_true, false_or]
  | .unary _ _ e =>
    have he := e.awaits_pos_iff
    simp only [Expr.Awaits] at he
    simp only [Expr.Awaits, Expr.awaits, Expr.parts, he, exists_mem_cons_iff, Expr.operand?,
      Option.isSome_none, Bool.false_eq_true, false_or]
  | .call _ c es =>
    have hc := c.awaits_pos_iff
    simp only [Expr.Awaits] at hc
    simp only [Expr.Awaits, Expr.awaits, Expr.parts, Nat.add_pos_iff_pos_or_pos, hc,
      Expr.awaitsIn_pos_iff es, exists_mem_cons_iff, mem_append, or_and_right, exists_or,
      Expr.operand?, Option.isSome_none, Bool.false_eq_true, false_or]
  | .await m e =>
    have h := Expr.awaits_await_pos m e
    simpa [Expr.Awaits, Expr.parts, Expr.operand?] using h
  | .unit _ | .bool .. | .int .. | .str .. | .var .. | .lambda .. | .captured .. | .resume _ =>
    simp [Expr.Awaits, Expr.awaits, Expr.parts, Expr.operand?]

theorem Expr.awaitsIn_pos_iff (es : List Expr) :
    0 < Expr.awaitsIn es ↔ ∃ p ∈ Expr.partsIn es, p.operand?.isSome := by
  match es with
  | [] => simp [Expr.awaitsIn, Expr.partsIn]
  | e :: es =>
    have he := e.awaits_pos_iff
    simp only [Expr.Awaits] at he
    simp only [Expr.awaitsIn, Expr.partsIn, Nat.add_pos_iff_pos_or_pos, he,
      Expr.awaitsIn_pos_iff es, mem_append, or_and_right, exists_or]

end

theorem Expr.awaits_eq_zero_iff (e : Expr) : e.awaits = 0 ↔ ¬e.Awaits := by
  rw [← e.awaits_pos_iff]
  omega

theorem Stmt.own_yields_pos (s : Stmt) : 0 < s.own.yields ↔ s.isYield := by
  cases h : s.isYield <;> simp [own, h]

theorem Stmt.own_yieldBreaks_pos (s : Stmt) : 0 < s.own.yieldBreaks ↔ s.isYieldBreak := by
  cases h : s.isYieldBreak <;> simp [own, h]

theorem Stmt.own_awaits_pos (s : Stmt) : 0 < s.own.awaits ↔ s.Awaits := by
  unfold own Stmt.Awaits
  cases s with
  | ret m e => cases e <;> simp [exprs, Expr.awaits_pos_iff]
  | _ => simp [exprs, Expr.awaits_pos_iff]

theorem Stmt.own_pauses (s : Stmt) : s.own.pauses = true ↔ s.isYield ∨ s.Awaits := by
  rw [← s.own_yields_pos, ← s.own_awaits_pos]
  simp only [Census.pauses, decide_eq_true_eq]
  omega

/-- A block is still if its count shows no pause. -/
theorem still_iff : Still b ↔ (Stmt.censusIn b).pauses = false := by
  rw [← Bool.not_eq_true, censusIn_iff Census.additive_pauses []]
  simp [Still, own_pauses]

mutual

/-- There is a first jump out of a statement if it, or a statement in it, leaves. -/
theorem Stmt.escape_iff {around : List Stmt} {depth : Nat}
    (hd : depth = 0 ↔ ¬∃ u ∈ around, u.isLoop) (s : Stmt) :
    (s.escape depth).isSome ↔ Node.Leaves ⟨s, around⟩ ∨ ∃ n ∈ s.inner (s :: around), n.Leaves := by
  match s with
  | .bind .. | .assign .. | .store .. | .eval .. | .throw .. | .yield .. =>
    simp [escape, inner, Node.Leaves, isReturn, isYieldBreak,
      isLoopJump]
  | .ret .. | .yieldBreak _ =>
    simp [escape, Node.Leaves, isReturn, isYieldBreak]
  | .brk _ | .cont _ =>
    simp only [escape, inner, Node.Leaves, isReturn, isYieldBreak,
      isLoopJump, Bool.false_eq_true, false_or, true_and, ← hd]
    split <;> simp_all
  | .cond m t a b =>
    have hd' : depth = 0 ↔ ¬∃ u ∈ cond m t a b :: around, u.isLoop := by
      simpa [isLoop] using hd
    simp only [escape, Option.isSome_or, Bool.or_eq_true, escapeIn_iff hd' a,
      escapeIn_iff hd' b, inner, mem_append, or_and_right, exists_or,
      Node.Leaves, isReturn, isYieldBreak, isLoopJump, Bool.false_eq_true,
      false_and, false_or]
  | .loop m t b =>
    have hd' : depth + 1 = 0 ↔ ¬∃ u ∈ loop m t b :: around, u.isLoop := by
      simp [isLoop]
    simp only [escape, escapeIn_iff hd' b, inner,
      Node.Leaves, isReturn, isYieldBreak, isLoopJump, Bool.false_eq_true,
      false_and, false_or]
  | .attempt m b c f =>
    have hd' : depth = 0 ↔ ¬∃ u ∈ attempt m b c f :: around, u.isLoop := by
      simpa [isLoop] using hd
    simp only [escape_attempt, Option.isSome_or, Bool.or_eq_true, escapeIn_iff hd' b,
      clauseEscape_iff hd' c, cleanupEscape_iff hd' f, inner, mem_append,
      or_and_right, exists_or, Node.Leaves, isReturn, isYieldBreak, isLoopJump,
      Bool.false_eq_true, false_and, false_or, or_assoc]
  | .block m b =>
    have hd' : depth = 0 ↔ ¬∃ u ∈ block m b :: around, u.isLoop := by
      simpa [isLoop] using hd
    simp only [escape, escapeIn_iff hd' b, inner,
      Node.Leaves, isReturn, isYieldBreak, isLoopJump, Bool.false_eq_true,
      false_and, false_or]

theorem Stmt.clauseEscape_iff {around : List Stmt} {depth : Nat}
    (hd : depth = 0 ↔ ¬∃ u ∈ around, u.isLoop) (c : Option Catch) :
    (clauseEscape depth c).isSome ↔ ∃ n ∈ Stmt.nodesClause around c, n.Leaves := by
  match c with
  | none => simp [clauseEscape, nodesClause]
  | some (.mk x b) =>
    simpa only [clauseEscape, nodesClause] using escapeIn_iff hd b

theorem Stmt.cleanupEscape_iff {around : List Stmt} {depth : Nat}
    (hd : depth = 0 ↔ ¬∃ u ∈ around, u.isLoop) (f : Option (List Stmt)) :
    (cleanupEscape depth f).isSome ↔ ∃ n ∈ Stmt.nodesCleanup around f, n.Leaves := by
  match f with
  | none => simp [cleanupEscape, nodesCleanup]
  | some b => simpa only [cleanupEscape, nodesCleanup] using escapeIn_iff hd b

theorem Stmt.escapeIn_iff {around : List Stmt} {depth : Nat}
    (hd : depth = 0 ↔ ¬∃ u ∈ around, u.isLoop) (ss : List Stmt) :
    (Stmt.escapeIn depth ss).isSome ↔ ∃ n ∈ Stmt.nodesIn around ss, n.Leaves := by
  match ss with
  | [] => simp [escapeIn, nodesIn]
  | s :: ss =>
    simp only [escapeIn, nodesIn, Option.isSome_or, Bool.or_eq_true,
      escape_iff hd s, escapeIn_iff hd ss, exists_mem_cons_iff, mem_append,
      or_and_right, exists_or, or_assoc]

end

theorem closed_iff : Closed b ↔ Stmt.escapeIn 0 b = none := by
  have h := @escapeIn_iff [] 0 (by simp) b
  rw [← Option.not_isSome_iff_eq_none, h]
  simp [Closed]

theorem Stmt.isFlat_iff (s : Stmt) : s.isFlat = true ↔ s.Flat := by
  have hc : censusIn [s] = s.census := by
    simp only [censusIn]
    rfl
  have hx : escapeIn 0 [s] = s.escape 0 := by
    simp [escapeIn]
  simp [Stmt.Flat, still_iff, closed_iff, hc, hx, isFlat, pauses]

/-! What the walk asks of a statement. -/

/-- The expression holds no await, or is one whose operand holds none. -/
def Expr.isWhole : Expr → Bool
  | .await _ e => e.awaits == 0
  | e => e.awaits == 0

/-- The cleanup neither pauses nor can be left by a jump. -/
def Stmt.isSealed (b : Block) : Bool :=
  !(Stmt.censusIn b).pauses && (Stmt.escapeIn 0 b).isNone

mutual

/-- The statement can be walked over: inside of a loop or not, and in a method in which a return
may have a value or not. -/
def Stmt.passes (values looped : Bool) (s : Stmt) : Bool :=
  s.isFlat ||
  match s with
  | .bind _ _ e | .assign _ _ e | .store _ _ e | .eval _ e | .throw _ e => e.isWhole
  | .yield _ e => e.awaits == 0
  | .yieldBreak _ | .ret _ none => true
  | .ret _ (some e) => values && e.isWhole
  | .brk _ | .cont _ => looped
  | .cond _ t a b => t.isWhole && (Stmt.passIn values looped a && Stmt.passIn values looped b)
  | .loop _ t b => t.isWhole && Stmt.passIn values true b
  | .attempt _ b c f =>
    Stmt.cleanupPasses f && (Stmt.passIn values looped b && Stmt.clausePasses values looped c)
  | .block _ b => Stmt.passIn values looped b

def Stmt.clausePasses (values looped : Bool) : Option Catch → Bool
  | none => true
  | some (.mk _ b) => Stmt.passIn values looped b

def Stmt.cleanupPasses : Option (List Stmt) → Bool
  | none => true
  | some b => Stmt.isSealed b

def Stmt.passIn (values looped : Bool) : List Stmt → Bool
  | [] => true
  | s :: ss => s.passes values looped && Stmt.passIn values looped ss

end

/-- The conditions on a single statement. -/
@[mk_iff]
structure Node.Fits (values : Bool) (n : Node) : Prop where
  whole : ∀ e ∈ n.stmt.exprs, e.AwaitsWhole ∧ (n.stmt.isYield → ¬e.Awaits)
  value : values = false → n.stmt.isReturn → n.stmt.exprs = []
  loop : n.stmt.isLoopJump → ∃ u ∈ n.around, u.isLoop
  cleanup : ∀ b ∈ n.stmt.cleanup?,
    Still b ∧ ((¬n.stmt.Flat ∧ ∀ u ∈ n.around, ¬u.Flat) → Closed b)

theorem Expr.isWhole_iff (e : Expr) : e.isWhole = true ↔ e.AwaitsWhole := by
  have hn := e.awaits_eq_zero_iff
  cases e with
  | await m e =>
    have ha : (Expr.await m e).Awaits :=
      (Expr.awaits_pos_iff _).mp (Expr.awaits_await_pos m e)
    simp [Expr.isWhole, Expr.AwaitsWhole, ha, Expr.operand?, e.awaits_eq_zero_iff]
  | _ => simp [Expr.isWhole, Expr.AwaitsWhole, Expr.operand?, hn]

theorem Stmt.isSealed_iff : Stmt.isSealed b = true ↔ Still b ∧ Closed b := by
  simp [isSealed, still_iff, closed_iff]

theorem Stmt.mem_nodesIn {ss : Block} {n : Node} :
    n ∈ Stmt.nodesIn around ss ↔ ∃ s ∈ ss, n = ⟨s, around⟩ ∨ n ∈ s.inner (s :: around) := by
  induction ss with
  | nil => simp [nodesIn]
  | cons s ss ih => simp [nodesIn, ih, or_assoc]

/-- The statements of a block that is sealed are flat. -/
theorem Stmt.flat_of_sealed (hs : Still b) (hc : Closed b) (h : s ∈ b) : s.Flat := by
  have hn : ∀ n ∈ nodesIn [] [s], n ∈ nodesIn [] b := by
    intro n hn
    obtain ⟨t, ht, hn⟩ := mem_nodesIn.mp hn
    cases mem_singleton.mp ht
    exact mem_nodesIn.mpr ⟨s, h, hn⟩
  exact ⟨fun n h => hs n (hn n h), fun n h => hc n (hn n h)⟩

section

variable {values : Bool}

theorem Stmt.census_cleanup (hb : b ∈ s.cleanup?) (hc : s.census.pauses = false) :
    (Stmt.censusIn b).pauses = false := by
  cases s with
  | attempt m x c f =>
    cases hb
    rw [Binding.census_attempt] at hc
    exact (Census.not_pauses_add hc).2
  | _ => cases hb

/-- A statement that neither pauses nor leaves fits, if it or one around it is flat. -/
theorem Node.Fits.of_flat (hc : s.census.pauses = false) (hx : ¬Node.Leaves ⟨s, around⟩)
    (hf : ∃ u ∈ s :: around, u.Flat) : Node.Fits values ⟨s, around⟩ := by
  have hown : ¬s.own.pauses = true := fun h =>
    absurd ((census_iff Census.additive_pauses [] s).mpr (.inl h)) (by simp [hc])
  rw [own_pauses] at hown
  have hno : ∀ e ∈ s.exprs, ¬e.Awaits := fun e he ha => hown (.inr ⟨e, he, ha⟩)
  constructor
  case whole => exact fun e he => ⟨fun ha => absurd ha (hno e he), fun _ => hno e he⟩
  case value => exact fun _ hr => absurd (.inl hr) hx
  case loop => exact fun hj => not_not.mp fun hl => hx (.inr (.inr ⟨hj, hl⟩))
  case cleanup =>
    intro b hb
    refine ⟨still_iff.mpr (census_cleanup hb hc), fun h => ?_⟩
    obtain ⟨u, hu, hflat⟩ := hf
    rcases mem_cons.mp hu with rfl | hu
    · exact absurd hflat h.1
    · exact absurd hflat (h.2 u hu)

theorem Stmt.not_leaves {depth : Nat} (hd : 0 < depth → ∃ u ∈ around, u.isLoop)
    (hx : s.escape depth = none) : ¬Node.Leaves ⟨s, around⟩ := by
  rintro (hl | hl | ⟨hl, hn⟩) <;> cases s <;> try exact absurd hl Bool.false_ne_true
  case ret => cases hx
  case yieldBreak => cases hx
  all_goals
    rw [escape] at hx
    split at hx
    · cases hx
    · exact hn (hd (by omega))

mutual

/-- Inside of a statement that is left whole, everything is as it has to be. -/
theorem Stmt.inner_fit {around : List Stmt} {depth : Nat}
    (hd : 0 < depth → ∃ u ∈ around, u.isLoop) (s : Stmt) (hf : ∃ u ∈ s :: around, u.Flat)
    (hc : s.census.pauses = false) (hx : s.escape depth = none) :
    ∀ n ∈ s.inner (s :: around), n.Fits values := by
  have hd' : 0 < depth → ∃ u ∈ s :: around, u.isLoop := fun h =>
    (hd h).imp fun u hu => ⟨mem_cons_of_mem _ hu.1, hu.2⟩
  match s with
  | .bind .. | .assign .. | .store .. | .eval .. | .throw .. | .yield .. | .yieldBreak _
  | .ret .. | .brk _ | .cont _ => simp [inner]
  | .cond m t a b =>
    have hc := Census.not_pauses_add hc
    have hca := Census.not_pauses_add hc.1
    have hx := Option.or_eq_none_iff.mp hx
    rw [inner, forall_mem_append]
    exact ⟨nodesIn_fit hd' hf a hca.2 hx.1, nodesIn_fit hd' hf b hc.2 hx.2⟩
  | .loop m t b =>
    have hc := Census.not_pauses_add hc
    rw [inner]
    exact nodesIn_fit (fun _ => ⟨_, mem_cons_self, rfl⟩) hf b hc.2 hx
  | .attempt m b c f =>
    rw [Binding.census_attempt] at hc
    rw [escape_attempt] at hx
    have hc := Census.not_pauses_add hc
    have hcb := Census.not_pauses_add hc.1
    have hx := Option.or_eq_none_iff.mp hx
    have hxb := Option.or_eq_none_iff.mp hx.1
    rw [inner, forall_mem_append, forall_mem_append]
    exact ⟨nodesIn_fit hd' hf b hcb.1 hxb.1, nodesClause_fit hd' hf c hcb.2 hxb.2,
      nodesCleanup_fit hd' hf f hc.2 hx.2⟩
  | .block m b =>
    rw [inner]
    exact nodesIn_fit hd' hf b hc hx

theorem Stmt.nodesClause_fit {around : List Stmt} {depth : Nat}
    (hd : 0 < depth → ∃ u ∈ around, u.isLoop) (hf : ∃ u ∈ around, u.Flat) (c : Option Catch)
    (hc : (Binding.clauseCensus c).pauses = false) (hx : clauseEscape depth c = none) :
    ∀ n ∈ Stmt.nodesClause around c, n.Fits values := by
  match c with
  | none => simp [nodesClause]
  | some (.mk x b) =>
    rw [nodesClause]
    exact nodesIn_fit hd hf b hc hx

theorem Stmt.nodesCleanup_fit {around : List Stmt} {depth : Nat}
    (hd : 0 < depth → ∃ u ∈ around, u.isLoop) (hf : ∃ u ∈ around, u.Flat)
    (f : Option (List Stmt)) (hc : (Binding.cleanupCensus f).pauses = false)
    (hx : cleanupEscape depth f = none) : ∀ n ∈ Stmt.nodesCleanup around f, n.Fits values := by
  match f with
  | none => simp [nodesCleanup]
  | some b =>
    rw [nodesCleanup]
    exact nodesIn_fit hd hf b hc hx

theorem Stmt.nodesIn_fit {around : List Stmt} {depth : Nat}
    (hd : 0 < depth → ∃ u ∈ around, u.isLoop) (hf : ∃ u ∈ around, u.Flat) (ss : List Stmt)
    (hc : (Stmt.censusIn ss).pauses = false) (hx : Stmt.escapeIn depth ss = none) :
    ∀ n ∈ Stmt.nodesIn around ss, n.Fits values := by
  match ss with
  | [] => simp [nodesIn]
  | s :: ss =>
    have hc := Census.not_pauses_add hc
    have hx := Option.or_eq_none_iff.mp hx
    have hs : ∃ u ∈ s :: around, u.Flat :=
      hf.imp fun u hu => ⟨mem_cons_of_mem _ hu.1, hu.2⟩
    rw [nodesIn, forall_mem_cons, forall_mem_append]
    exact ⟨.of_flat hc.1 (not_leaves hd hx.1) hs, inner_fit hd s hs hc.1 hx.1,
      nodesIn_fit hd hf ss hc.2 hx.2⟩

end

theorem Stmt.Flat.fit (hs : s.Flat) (around : List Stmt) :
    Node.Fits values ⟨s, around⟩ ∧ ∀ n ∈ s.inner (s :: around), n.Fits values := by
  have h : s.pauses = false ∧ s.escape 0 = none := by
    simpa [isFlat] using s.isFlat_iff.mpr hs
  have hf : ∃ u ∈ s :: around, u.Flat := ⟨s, mem_cons_self, hs⟩
  exact ⟨.of_flat h.1 (not_leaves (by omega) h.2) hf, inner_fit (by omega) s hf h.1 h.2⟩

/-- A cleanup that is sealed is fine inside. -/
theorem nodesIn_fit_of_sealed (hs : Still b) (hc : Closed b) (around : List Stmt) :
    ∀ n ∈ Stmt.nodesIn around b, n.Fits values := by
  intro n hn
  obtain ⟨s, hb, rfl | hn⟩ := mem_nodesIn.mp hn
  · exact ((flat_of_sealed hs hc hb).fit around).1
  · exact ((flat_of_sealed hs hc hb).fit around).2 n hn

mutual

/-- The walk asks of a statement what is asked of all statements in it. -/
theorem Stmt.passes_iff {around : List Stmt} {looped : Bool}
    (hl : looped = true ↔ ∃ u ∈ around, u.isLoop) (hf : ∀ u ∈ around, ¬u.Flat) (s : Stmt) :
    s.passes values looped = true ↔
      Node.Fits values ⟨s, around⟩ ∧ ∀ n ∈ s.inner (s :: around), n.Fits values := by
  by_cases hs : s.Flat
  · have h : s.passes values looped = true := by
      rw [passes.eq_def, s.isFlat_iff.mpr hs, Bool.true_or]
    exact iff_of_true h (hs.fit around)
  have hfl : s.isFlat = false := by
    rw [← Bool.not_eq_true, s.isFlat_iff]
    exact hs
  have hl' : s.isLoop = false → (looped = true ↔ ∃ u ∈ s :: around, u.isLoop) := fun h => by
    rw [hl, exists_mem_cons_iff, h]
    simp
  have hf' : ∀ u ∈ s :: around, ¬u.Flat := forall_mem_cons.mpr ⟨hs, hf⟩
  rw [passes.eq_def, hfl, Bool.false_or, Node.fits_iff]
  match s with
  | .bind _ _ e | .assign _ _ e | .store _ _ e | .eval _ e | .throw _ e =>
    simp [inner, exprs, isYield, isReturn, isLoopJump, cleanup?,
      Expr.isWhole_iff]
  | .yield _ e =>
    simp only [beq_iff_eq, e.awaits_eq_zero_iff]
    simp [inner, exprs, isYield, isReturn, isLoopJump, cleanup?,
      Expr.AwaitsWhole]
    exact fun h ha => absurd ha h
  | .yieldBreak _ | .ret _ none =>
    simp [inner, exprs, isReturn, isLoopJump, cleanup?]
  | .ret _ (some e) =>
    simp [inner, exprs, isYield, isReturn, isLoopJump, cleanup?,
      Expr.isWhole_iff, and_comm]
  | .brk _ | .cont _ =>
    simp [inner, exprs, isReturn, isLoopJump, cleanup?, hl]
  | .cond m t a b =>
    simp only [Bool.and_eq_true, passIn_iff (hl' rfl) hf' a, passIn_iff (hl' rfl) hf' b,
      t.isWhole_iff, inner, forall_mem_append]
    simp [exprs, isYield, isReturn, isLoopJump, cleanup?]
  | .loop m t b =>
    have hb : true = true ↔ ∃ u ∈ loop m t b :: around, u.isLoop := by simp [isLoop]
    simp only [Bool.and_eq_true, passIn_iff hb hf' b, t.isWhole_iff, inner]
    simp [exprs, isYield, isReturn, isLoopJump, cleanup?]
  | .attempt m b c none =>
    simp only [cleanupPasses, Bool.and_eq_true, passIn_iff (hl' rfl) hf' b,
      clausePasses_iff (hl' rfl) hf' c, inner, forall_mem_append,
      nodesCleanup]
    simp [exprs, isReturn, isLoopJump, cleanup?]
  | .attempt m b c (some fb) =>
    -- The statements of a cleanup are not walked over: that it is sealed says enough of them.
    have hseal : isSealed fb = true ↔
        (Still fb ∧ ((¬(attempt m b c (some fb)).Flat ∧ ∀ u ∈ around, ¬u.Flat) → Closed fb)) ∧
          ∀ n ∈ nodesIn (.attempt m b c (some fb) :: around) fb, n.Fits values := by
      rw [isSealed_iff]
      exact ⟨fun h => ⟨⟨h.1, fun _ => h.2⟩, nodesIn_fit_of_sealed h.1 h.2 _⟩,
        fun h => ⟨h.1.1, h.1.2 ⟨hs, hf⟩⟩⟩
    simp only [cleanupPasses, hseal, Bool.and_eq_true, passIn_iff (hl' rfl) hf' b,
      clausePasses_iff (hl' rfl) hf' c, inner, forall_mem_append,
      nodesCleanup, exprs, isReturn, isLoopJump, cleanup?]
    grind
  | .block m b =>
    simp only [passIn_iff (hl' rfl) hf' b, inner]
    simp [exprs, isReturn, isLoopJump, cleanup?]

theorem Stmt.clausePasses_iff {around : List Stmt} {looped : Bool}
    (hl : looped = true ↔ ∃ u ∈ around, u.isLoop) (hf : ∀ u ∈ around, ¬u.Flat)
    (c : Option Catch) :
    Stmt.clausePasses values looped c = true ↔ ∀ n ∈ Stmt.nodesClause around c, n.Fits values := by
  match c with
  | none => simp [clausePasses, nodesClause]
  | some (.mk x b) => rw [clausePasses, nodesClause, passIn_iff hl hf b]

theorem Stmt.passIn_iff {around : List Stmt} {looped : Bool}
    (hl : looped = true ↔ ∃ u ∈ around, u.isLoop) (hf : ∀ u ∈ around, ¬u.Flat)
    (ss : List Stmt) :
    Stmt.passIn values looped ss = true ↔ ∀ n ∈ Stmt.nodesIn around ss, n.Fits values := by
  match ss with
  | [] => simp [passIn, nodesIn]
  | s :: ss =>
    rw [passIn, nodesIn, Bool.and_eq_true, passes_iff hl hf s,
      passIn_iff hl hf ss, forall_mem_cons, forall_mem_append, and_assoc]

end

end

/-! The walk succeeds exactly if all statements fit. -/

mutual

theorem Expr.firstAwait_of_awaits (e : Expr) (place : Position) (h : e.awaits = 0) :
    e.firstAwait place = none := by
  match e with
  | .await m e => exact absurd h (Expr.awaits_await_pos m e).ne'
  | .binary _ _ l r =>
    have h := Nat.add_eq_zero_iff.mp h
    exact Option.or_eq_none_iff.mpr ⟨l.firstAwait_of_awaits _ h.1, r.firstAwait_of_awaits _ h.2⟩
  | .unary _ _ e => exact e.firstAwait_of_awaits _ h
  | .call _ c es =>
    have h := Nat.add_eq_zero_iff.mp h
    exact Option.or_eq_none_iff.mpr
      ⟨c.firstAwait_of_awaits _ h.1, Expr.firstAwaitIn_of_awaits es h.2⟩
  | .unit _ | .bool .. | .int .. | .str .. | .var .. | .lambda .. | .captured .. | .resume _ => rfl

theorem Expr.firstAwaitIn_of_awaits (es : List Expr) (h : Expr.awaitsIn es = 0) :
    Expr.firstAwaitIn es = none := by
  match es with
  | [] => rfl
  | e :: es =>
    have h := Nat.add_eq_zero_iff.mp h
    exact Option.or_eq_none_iff.mpr
      ⟨e.firstAwait_of_awaits _ h.1, Expr.firstAwaitIn_of_awaits es h.2⟩

end

theorem Stmt.find?_pauses (b : Block) :
    b.find? Stmt.pauses = none ↔ (Stmt.censusIn b).pauses = false := by
  induction b with
  | nil => simp [censusIn, Census.pauses]
  | cons s b ih =>
    have h := Census.additive_pauses.add s.census (censusIn b)
    cases hs : s.pauses with
    | true =>
      have hc : (s.census + censusIn b).pauses = true := h.mpr (.inl hs)
      simp [censusIn, hs, hc]
    | false =>
      have hc : (s.census + censusIn b).pauses = (censusIn b).pauses := by
        rw [Bool.eq_iff_iff, h]
        simp [show s.census.pauses = false from hs]
      simp [censusIn, hs, hc, ih]

namespace Splitting

theorem isOk_bind {x : Except ε α} {f : α → Except ε β} {a b : Bool} (hx : x.isOk = a)
    (hf : ∀ y, (f y).isOk = b) : (x >>= f).isOk = (a && b) := by
  subst hx
  cases x with
  | error e => rfl
  | ok y => exact (hf y).trans (Bool.true_and b).symm

theorem isOk_bind_pure (x : Except ε α) (f : α → β) :
    (x >>= fun a => pure (f a)).isOk = x.isOk := by
  cases x <;> rfl

theorem isOk_noAwait (e : Expr) (place : Position) : (noAwait e place).isOk = (e.awaits == 0) := by
  unfold noAwait
  by_cases h : e.awaits = 0
  · rw [e.firstAwait_of_awaits place h, h]
    rfl
  · split
    · simp [h, Except.isOk, Except.toBool]
    · exact absurd (e.firstAwait_eq_none place ‹_›) h

theorem isOk_takeAwait (e : Expr) (place : Position) (d : Draft) :
    (takeAwait e place d).isOk = e.isWhole := by
  unfold takeAwait Expr.isWhole
  cases e <;> exact (isOk_bind_pure ..).trans (isOk_noAwait ..)

theorem isOk_checkCleanup (b : Block) : (checkCleanup b).isOk = Stmt.isSealed b := by
  unfold checkCleanup isSealed
  split
  · rename_i s hs
    have hc : (censusIn b).pauses = true := by
      rw [← Bool.not_eq_false, ← find?_pauses, hs]
      simp
    simp [hc, Except.isOk, Except.toBool]
  · rename_i hs
    rw [(find?_pauses b).mp hs]
    cases escapeIn 0 b <;> rfl

theorem isOk_checkCleanups (f : Option Block) :
    (f.forM checkCleanup).isOk = Stmt.cleanupPasses f := by
  cases f with
  | none => rfl
  | some b => exact isOk_checkCleanup b

mutual

theorem isOk_splitStmt (kind : Kind) (loops : List LoopEnds) (s : Stmt) (d : Draft) :
    (splitStmt kind loops s d).isOk = s.passes (kind == .async) (!loops.isEmpty) := by
  rw [splitStmt.eq_def, passes.eq_def]
  split
  · rename_i hs
    simp [hs, Except.isOk, Except.toBool]
  rename_i hs
  rw [Bool.not_eq_true] at hs
  rw [hs, Bool.false_or]
  match s with
  | .bind m x e | .assign m x e | .store m x e | .eval m e | .throw m e =>
    exact (isOk_bind_pure ..).trans (isOk_takeAwait ..)
  | .yield _ e => exact (isOk_bind_pure ..).trans (isOk_noAwait ..)
  | .yieldBreak _ | .ret _ none => rfl
  | .ret _ (some e) =>
    cases kind with
    | iterator => rfl
    | async => exact (isOk_bind_pure ..).trans (isOk_takeAwait ..)
  | .brk _ | .cont _ => cases loops <;> rfl
  | .cond m t a b =>
    refine isOk_bind (isOk_takeAwait t _ d) fun x => ?_
    simp only [create_eq]
    split
    · rename_i hb
      obtain rfl := isEmpty_iff.mp hb
      rw [isOk_bind_pure, isOk_splitBlock kind loops a, passIn, Bool.and_true]
    · refine isOk_bind (isOk_splitBlock kind loops a _) fun d => ?_
      rw [isOk_bind_pure, isOk_splitBlock kind loops b]
  | .loop m t b =>
    refine isOk_bind (isOk_takeAwait t _ _) fun x => ?_
    simp only [create_eq]
    rw [isOk_bind_pure, isOk_splitBlock _ _ b]
    rfl
  | .attempt m b none none =>
    simp only [cleanupPasses, clausePasses, Bool.true_and, Bool.and_true]
    exact isOk_splitBlock kind loops b d
  | .attempt m b none (some fb) =>
    refine isOk_bind (isOk_checkCleanup fb) fun _ => isOk_bind (isOk_splitBlock kind loops b _)
      fun d => ?_
    exact (isOk_bind_pure ..).trans (isOk_splitClause kind loops none _)
  | .attempt m b (some (.mk x cb)) f =>
    refine isOk_bind (isOk_checkCleanups f) fun _ => isOk_bind (isOk_splitBlock kind loops b _)
      fun d => ?_
    exact (isOk_bind_pure ..).trans (isOk_splitClause kind loops _ _)
  | .block m b => exact isOk_splitBlock kind loops b d

theorem isOk_splitClause (kind : Kind) (loops : List LoopEnds) {guard : HandlerId}
    {cleanup : Option StateId} {outer : Option HandlerId} {after : StateId} (c : Option Catch)
    (d : Draft) : (splitClause kind loops guard cleanup outer after c d).isOk =
      Stmt.clausePasses (kind == .async) (!loops.isEmpty) c := by
  match c with
  | none => rfl
  | some (.mk x b) =>
    rw [splitClause, isOk_bind_pure, isOk_splitBlock kind loops b, clausePasses]

theorem isOk_splitBlock (kind : Kind) (loops : List LoopEnds) (ss : List Stmt) (d : Draft) :
    (splitBlock kind loops ss d).isOk = Stmt.passIn (kind == .async) (!loops.isEmpty) ss := by
  match ss with
  | [] => rfl
  | s :: ss =>
    rw [splitBlock, passIn]
    exact isOk_bind (isOk_splitStmt kind loops s d) fun d => isOk_splitBlock kind loops ss d

end

end Splitting

/-! Renaming. -/

namespace Binding

theorem renameStmt_attempt (scope : Scope) (m : Mark) (x : Block) (c : Option Catch)
    (f : Option Block) (b : Bound) :
    (renameStmt scope (.attempt m x c f) b).1.1 = .attempt m (renameBlock scope x b).1
      (renameClause scope c (renameBlock scope x b).2).1
      (renameCleanup scope f (renameClause scope c (renameBlock scope x b).2).2).1 :=
  rfl

mutual

theorem escape_renameStmt (scope : Scope) (d : Nat) (s : Stmt) (b : Bound) :
    (renameStmt scope s b).1.1.escape d = s.escape d := by
  match s with
  | .bind .. | .assign .. | .store .. | .eval .. | .throw .. | .yield .. | .ret _ none
  | .ret _ (some _) | .yieldBreak _ | .brk _ | .cont _ => rfl
  | .cond m t x y =>
    exact congrArg₂ Option.or (escape_renameBlock scope d x _) (escape_renameBlock scope d y _)
  | .loop m t x => exact escape_renameBlock scope (d + 1) x _
  | .attempt m x c f =>
    rw [renameStmt_attempt, escape_attempt, escape_attempt, escape_renameBlock scope d x,
      escape_renameClause scope d c, escape_renameCleanup scope d f]
  | .block m x => exact escape_renameBlock scope d x _

theorem escape_renameClause (scope : Scope) (d : Nat) (c : Option Catch) (b : Bound) :
    clauseEscape d (renameClause scope c b).1 = clauseEscape d c := by
  match c with
  | none => rfl
  | some (.mk none x) => exact escape_renameBlock scope d x _
  | some (.mk (some y) x) => exact escape_renameBlock _ d x _

theorem escape_renameCleanup (scope : Scope) (d : Nat) (f : Option Block) (b : Bound) :
    cleanupEscape d (renameCleanup scope f b).1 = cleanupEscape d f := by
  match f with
  | none => rfl
  | some x => exact escape_renameBlock scope d x _

theorem escape_renameBlock (scope : Scope) (d : Nat) (ss : Block) (b : Bound) :
    Stmt.escapeIn d (renameBlock scope ss b).1 = Stmt.escapeIn d ss := by
  match ss with
  | [] => rfl
  | s :: ss =>
    exact congrArg₂ Option.or (escape_renameStmt scope d s _) (escape_renameBlock _ d ss _)

end

theorem isFlat_renameStmt (scope : Scope) (s : Stmt) (b : Bound) :
    (renameStmt scope s b).1.1.isFlat = s.isFlat := by
  simp only [isFlat, pauses, census_renameStmt, escape_renameStmt]

theorem isWhole_renameExpr (scope : Scope) (e : Expr) (b : Bound) :
    (renameExpr scope e b).1.isWhole = e.isWhole := by
  have h := awaits_renameExpr scope e b
  cases e with
  | await m e => exact congrArg (· == 0) (awaits_renameExpr scope e b)
  | _ => exact congrArg (· == 0) h

theorem cleanupPasses_renameCleanup (scope : Scope) (f : Option Block) (b : Bound) :
    Stmt.cleanupPasses (renameCleanup scope f b).1 = Stmt.cleanupPasses f := by
  match f with
  | none => rfl
  | some x =>
    have hc : censusIn (renameBlock scope x b).1 = _ := census_renameBlock scope x b
    have hx : escapeIn 0 (renameBlock scope x b).1 = _ := escape_renameBlock scope 0 x b
    change isSealed (renameBlock scope x b).1 = isSealed x
    rw [isSealed, hc, hx, isSealed]

mutual

theorem passes_renameStmt (values looped : Bool) (scope : Scope) (s : Stmt) (b : Bound) :
    (renameStmt scope s b).1.1.passes values looped = s.passes values looped := by
  rw [passes.eq_def, isFlat_renameStmt, passes.eq_def values looped s]
  refine congrArg (s.isFlat || ·) ?_
  match s with
  | .bind _ _ e | .assign _ _ e | .store _ _ e | .eval _ e | .throw _ e =>
    exact isWhole_renameExpr scope e b
  | .yield _ e => exact congrArg (· == 0) (awaits_renameExpr scope e b)
  | .yieldBreak _ | .ret _ none | .brk _ | .cont _ => rfl
  | .ret _ (some e) => exact congrArg (values && ·) (isWhole_renameExpr scope e b)
  | .cond m t x y =>
    exact congrArg₂ and (isWhole_renameExpr scope t b) (congrArg₂ and
      (passIn_renameBlock values looped scope x _) (passIn_renameBlock values looped scope y _))
  | .loop m t x =>
    exact congrArg₂ and (isWhole_renameExpr scope t b) (passIn_renameBlock values true scope x _)
  | .attempt m x c f =>
    exact congrArg₂ and (cleanupPasses_renameCleanup scope f _) (congrArg₂ and
      (passIn_renameBlock values looped scope x _)
      (clausePasses_renameClause values looped scope c _))
  | .block m x => exact passIn_renameBlock values looped scope x _

theorem clausePasses_renameClause (values looped : Bool) (scope : Scope) (c : Option Catch)
    (b : Bound) :
    Stmt.clausePasses values looped (renameClause scope c b).1 =
      Stmt.clausePasses values looped c := by
  match c with
  | none => rfl
  | some (.mk none x) => exact passIn_renameBlock values looped scope x _
  | some (.mk (some y) x) => exact passIn_renameBlock values looped _ x _

theorem passIn_renameBlock (values looped : Bool) (scope : Scope) (ss : Block) (b : Bound) :
    Stmt.passIn values looped (renameBlock scope ss b).1 = Stmt.passIn values looped ss := by
  match ss with
  | [] => rfl
  | s :: ss =>
    exact congrArg₂ and (passes_renameStmt values looped scope s _)
      (passIn_renameBlock values looped _ ss _)

end

end Binding

namespace Method

variable {m : Method} {limit : Nat}

theorem yields_iff : m.Yields ↔ 0 < (Stmt.censusIn m.body).yields := by
  rw [censusIn_iff Census.additive_yields []]
  simp [Yields, nodes, own_yields_pos]

theorem awaits_iff : m.Awaits ↔ 0 < (Stmt.censusIn m.body).awaits := by
  rw [censusIn_iff Census.additive_awaits []]
  simp [Awaits, nodes, own_awaits_pos]

theorem yieldBreaks_iff :
    (∃ n ∈ m.nodes, n.stmt.isYieldBreak) ↔ 0 < (Stmt.censusIn m.body).yieldBreaks := by
  rw [censusIn_iff Census.additive_yieldBreaks []]
  simp [nodes, own_yieldBreaks_pos]

/-- What a method becomes. -/
def kind (m : Method) : Kind :=
  if m.Yields then .iterator else .async

/-- The chain of the method is short enough, if there is one: the states that are left of its body
when all those without a use are gone. -/
def Short (m : Method) (limit : Nat) : Prop :=
  ∀ d, Splitting.splitBody m.kind m.rename.body = .ok d →
    (Reduce.livePart (Reduce.finishReturns d.states) d.handlers).1.length ≤ limit

theorem kind_eq_async : (m.kind == .async) = false ↔ m.Yields := by
  unfold kind
  split <;> simp_all

theorem splittable_iff_fits : m.Splittable ↔ (m.Yields ∨ m.Awaits) ∧
    ¬(m.Awaits ∧ (m.Yields ∨ ∃ n ∈ m.nodes, n.stmt.isYieldBreak)) ∧
      ∀ n ∈ m.nodes, n.Fits (m.kind == .async) := by
  constructor
  · intro h
    exact ⟨h.pauses, h.unmixed,
      fun n hn => ⟨h.whole n hn, fun hk => h.values (kind_eq_async.mp hk) n hn,
        h.loops n hn, fun b hb => ⟨h.still n hn b hb, h.closed n hn b hb⟩⟩⟩
  · rintro ⟨hp, hu, hn⟩
    exact ⟨hp, hu, fun n h => (hn n h).whole, fun hy n h => (hn n h).value (kind_eq_async.mpr hy),
      fun n h => (hn n h).loop, fun n h b hb => ((hn n h).cleanup b hb).1,
      fun n h b hb => ((hn n h).cleanup b hb).2⟩

theorem isOk_splitBody : (Splitting.splitBody m.kind m.rename.body).isOk = true ↔
    ∀ n ∈ m.nodes, n.Fits (m.kind == .async) := by
  unfold Splitting.splitBody
  have hr : passIn (m.kind == .async) false m.rename.body =
      passIn (m.kind == .async) false m.body := Binding.passIn_renameBlock ..
  rw [Splitting.isOk_bind_pure, Splitting.isOk_splitBlock, isEmpty_nil, Bool.not_true, hr]
  exact @passIn_iff _ [] _ (by simp) (by simp) m.body

theorem toChain_ok_iff : (∃ c, m.rename.toChain m.kind limit = .ok c) ↔
    (Splitting.splitBody m.kind m.rename.body).isOk = true ∧ m.Short limit := by
  unfold toChain Short
  cases Splitting.splitBody m.kind m.rename.body with
  | error why => simp [bind, Except.bind, Except.isOk, Except.toBool]
  | ok d =>
    simp only [bind, Except.bind, Except.isOk, Except.toBool, true_and, Except.ok.injEq,
      forall_eq']
    split
    · rename_i h
      exact iff_of_false nofun (Nat.not_le.mpr h)
    · rename_i h
      exact iff_of_true ⟨_, rfl⟩ (Nat.not_lt.mp h)

theorem pauses_iff : (Stmt.censusIn m.body).pauses = true ↔ m.Yields ∨ m.Awaits := by
  rw [yields_iff, awaits_iff, Census.pauses, decide_eq_true_eq]
  omega

theorem split_of_still (h : ¬(m.Yields ∨ m.Awaits)) : m.split limit = .ok none := by
  rw [← pauses_iff, Bool.not_eq_true] at h
  simp only [split, h, Bool.false_eq_true, if_false]
  rfl

theorem split_of_mixed
    (h : m.Awaits ∧ (m.Yields ∨ ∃ n ∈ m.nodes, n.stmt.isYieldBreak)) :
    m.split limit = .error (.yieldsAndAwaits m.name) := by
  have hp : (censusIn m.body).pauses = true := pauses_iff.mpr (.inr h.1)
  rw [awaits_iff, yields_iff, yieldBreaks_iff] at h
  have hk : (censusIn m.body).kind m.name = .error (.yieldsAndAwaits m.name) := by
    unfold Census.kind
    rw [if_pos]
    simp only [Bool.and_eq_true, decide_eq_true_eq]
    omega
  simp only [split, hp, if_true, hk]
  rfl

theorem split_of_unmixed (hp : m.Yields ∨ m.Awaits)
    (hu : ¬(m.Awaits ∧ (m.Yields ∨ ∃ n ∈ m.nodes, n.stmt.isYieldBreak))) :
    m.split limit = some <$> m.rename.toChain m.kind limit := by
  have hp' : (censusIn m.body).pauses = true := pauses_iff.mpr hp
  have hk : (censusIn m.body).kind m.name = .ok (some m.kind) := by
    unfold Census.kind kind
    rw [awaits_iff, yields_iff, yieldBreaks_iff] at hu
    rw [awaits_iff, yields_iff] at hp
    rw [if_neg (by simp only [Bool.and_eq_true, decide_eq_true_eq]; omega)]
    simp only [yields_iff]
    split
    · rfl
    · rw [if_pos (by omega)]
  simp only [split, hp', if_true, hk]
  rfl

/-- Splitting takes exactly the methods that can be split and whose chains are short enough, and
leaves those alone that do not pause. -/
theorem split_accepts_iff (m : Method) (limit : Nat) :
    ((∃ c, m.split limit = .ok (some c)) ↔ m.Splittable ∧ m.Short limit) ∧
      (m.split limit = .ok none ↔ ¬(m.Yields ∨ m.Awaits)) := by
  rw [splittable_iff_fits, ← isOk_splitBody]
  by_cases hp : m.Yields ∨ m.Awaits
  · by_cases hu : m.Awaits ∧ (m.Yields ∨ ∃ n ∈ m.nodes, n.stmt.isYieldBreak)
    · rw [split_of_mixed hu]
      exact ⟨iff_of_false nofun fun h => h.1.2.1 hu, iff_of_false nofun (not_not.mpr hp)⟩
    · have hc := @toChain_ok_iff m limit
      rw [split_of_unmixed hp hu, and_assoc, and_assoc, ← hc]
      cases m.rename.toChain m.kind limit with
      | error why =>
        exact ⟨iff_of_false nofun (fun h => nomatch h.2.2.choose_spec),
          iff_of_false nofun (not_not.mpr hp)⟩
      | ok c => exact ⟨iff_of_true ⟨c, rfl⟩ ⟨hp, hu, c, rfl⟩, iff_of_false nofun (not_not.mpr hp)⟩
  · rw [split_of_still hp]
    exact ⟨iff_of_false nofun fun h => hp h.1.1, iff_of_true rfl hp⟩

/-- A jump may end a cleanup early in a piece without pauses, where it stays in a loop. -/
example :
    Splittable { name := "m", params := [], body :=
      [.loop {} (.bool {} true) [.attempt {} [] none (some [.brk {}])],
        .yield {} (.int {} 1)] } := by
  decide +kernel

end Method

end Resumable

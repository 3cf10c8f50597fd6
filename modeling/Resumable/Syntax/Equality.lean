import Resumable.Syntax.Basic

namespace Resumable

mutual

def Expr.same : Expr → Expr → Bool
  | .unit m, .unit m' => m == m'
  | .bool m b, .bool m' b' => m == m' && b == b'
  | .int m n, .int m' n' => m == m' && n == n'
  | .str m s, .str m' s' => m == m' && s == s'
  | .var m x, .var m' x' => m == m' && x == x'
  | .binary m op l r, .binary m' op' l' r' => m == m' && op == op' && l.same l' && r.same r'
  | .unary m op e, .unary m' op' e' => m == m' && op == op' && e.same e'
  | .call m c es, .call m' c' es' => m == m' && c.same c' && Expr.sameList es es'
  | .await m e, .await m' e' => m == m' && e.same e'
  | .lambda m ps b, .lambda m' ps' b' => m == m' && ps == ps' && Stmt.sameList b b'
  | .captured m k, .captured m' k' => m == m' && k == k'
  | .resume m, .resume m' => m == m'
  | _, _ => false

def Expr.sameList : List Expr → List Expr → Bool
  | [], [] => true
  | e :: es, e' :: es' => e.same e' && Expr.sameList es es'
  | _, _ => false

def Stmt.same : Stmt → Stmt → Bool
  | .bind m x e, .bind m' x' e' => m == m' && x == x' && e.same e'
  | .assign m x e, .assign m' x' e' => m == m' && x == x' && e.same e'
  | .eval m e, .eval m' e' => m == m' && e.same e'
  | .cond m t a b, .cond m' t' a' b' =>
    m == m' && t.same t' && Stmt.sameList a a' && Stmt.sameList b b'
  | .loop m t b, .loop m' t' b' => m == m' && t.same t' && Stmt.sameList b b'
  | .attempt m b c f, .attempt m' b' c' f' =>
    m == m' && Stmt.sameList b b' && Catch.sameOption c c' && Stmt.sameOption f f'
  | .yield m e, .yield m' e' => m == m' && e.same e'
  | .yieldBreak m, .yieldBreak m' => m == m'
  | .ret m e, .ret m' e' => m == m' && Expr.sameOption e e'
  | .brk m, .brk m' => m == m'
  | .cont m, .cont m' => m == m'
  | .throw m e, .throw m' e' => m == m' && e.same e'
  | .block m b, .block m' b' => m == m' && Stmt.sameList b b'
  | .store m k e, .store m' k' e' => m == m' && k == k' && e.same e'
  | _, _ => false

def Stmt.sameList : List Stmt → List Stmt → Bool
  | [], [] => true
  | s :: ss, s' :: ss' => s.same s' && Stmt.sameList ss ss'
  | _, _ => false

def Expr.sameOption : Option Expr → Option Expr → Bool
  | none, none => true
  | some e, some e' => e.same e'
  | _, _ => false

def Stmt.sameOption : Option (List Stmt) → Option (List Stmt) → Bool
  | none, none => true
  | some b, some b' => Stmt.sameList b b'
  | _, _ => false

def Catch.same : Catch → Catch → Bool
  | .mk x b, .mk x' b' => x == x' && Stmt.sameList b b'

def Catch.sameOption : Option Catch → Option Catch → Bool
  | none, none => true
  | some c, some c' => c.same c'
  | _, _ => false

end

mutual

theorem Expr.same_iff : (a b : Expr) → (a.same b = true ↔ a = b)
  | .unit _, b | .bool _ _, b | .int _ _, b | .str _ _, b | .var _ _, b | .captured _ _, b
  | .resume _, b => by cases b <;> simp [Expr.same]
  | .binary _ _ l r, b => by
    cases b <;> simp [Expr.same, Expr.same_iff l, Expr.same_iff r, and_assoc]
  | .unary _ _ e, b => by cases b <;> simp [Expr.same, Expr.same_iff e, and_assoc]
  | .call _ c es, b => by
    cases b <;> simp [Expr.same, Expr.same_iff c, Expr.sameList_iff es, and_assoc]
  | .await _ e, b => by cases b <;> simp [Expr.same, Expr.same_iff e]
  | .lambda _ _ body, b => by cases b <;> simp [Expr.same, Stmt.sameList_iff body, and_assoc]

theorem Expr.sameList_iff : (as bs : List Expr) → (Expr.sameList as bs = true ↔ as = bs)
  | [], bs => by cases bs <;> simp [Expr.sameList]
  | a :: as, bs => by
    cases bs <;> simp [Expr.sameList, Expr.same_iff a, Expr.sameList_iff as]

theorem Stmt.same_iff : (a b : Stmt) → (a.same b = true ↔ a = b)
  | .bind _ _ e, b | .assign _ _ e, b | .store _ _ e, b => by
    cases b <;> simp [Stmt.same, Expr.same_iff e, and_assoc]
  | .eval _ e, b | .yield _ e, b | .throw _ e, b => by
    cases b <;> simp [Stmt.same, Expr.same_iff e]
  | .cond _ t x y, b => by
    cases b <;>
      simp [Stmt.same, Expr.same_iff t, Stmt.sameList_iff x, Stmt.sameList_iff y, and_assoc]
  | .loop _ t x, b => by
    cases b <;> simp [Stmt.same, Expr.same_iff t, Stmt.sameList_iff x, and_assoc]
  | .attempt _ x c f, b => by
    cases b <;>
      simp [Stmt.same, Stmt.sameList_iff x, Catch.sameOption_iff c, Stmt.sameOption_iff f,
        and_assoc]
  | .ret _ e, b => by cases b <;> simp [Stmt.same, Expr.sameOption_iff e]
  | .yieldBreak _, b | .brk _, b | .cont _, b => by cases b <;> simp [Stmt.same]
  | .block _ x, b => by cases b <;> simp [Stmt.same, Stmt.sameList_iff x]

theorem Stmt.sameList_iff : (as bs : List Stmt) → (Stmt.sameList as bs = true ↔ as = bs)
  | [], bs => by cases bs <;> simp [Stmt.sameList]
  | a :: as, bs => by
    cases bs <;> simp [Stmt.sameList, Stmt.same_iff a, Stmt.sameList_iff as]

theorem Expr.sameOption_iff : (a b : Option Expr) → (Expr.sameOption a b = true ↔ a = b)
  | none, b => by cases b <;> simp [Expr.sameOption]
  | some a, b => by cases b <;> simp [Expr.sameOption, Expr.same_iff a]

theorem Stmt.sameOption_iff :
    (a b : Option (List Stmt)) → (Stmt.sameOption a b = true ↔ a = b)
  | none, b => by cases b <;> simp [Stmt.sameOption]
  | some a, b => by cases b <;> simp [Stmt.sameOption, Stmt.sameList_iff a]

theorem Catch.same_iff : (a b : Catch) → (a.same b = true ↔ a = b)
  | .mk _ x, .mk _ _ => by simp [Catch.same, Stmt.sameList_iff x]

theorem Catch.sameOption_iff : (a b : Option Catch) → (Catch.sameOption a b = true ↔ a = b)
  | none, b => by cases b <;> simp [Catch.sameOption]
  | some a, b => by cases b <;> simp [Catch.sameOption, Catch.same_iff a]

end

instance : DecidableEq Expr := fun a b => decidable_of_iff _ (Expr.same_iff a b)
instance : DecidableEq Stmt := fun a b => decidable_of_iff _ (Stmt.same_iff a b)
instance : DecidableEq Catch := fun a b => decidable_of_iff _ (Catch.same_iff a b)

instance : DecidableEq Method := fun a b =>
  decidable_of_iff (a.name = b.name ∧ a.params = b.params ∧ a.body = b.body ∧ a.mark = b.mark)
    (by cases a; cases b; simp)

end Resumable

import Resumable.Proofs.Names

namespace Resumable

open List Stmt

variable {x : String} {βs γs : List Binder} {xs : List String} {e : Expr} {sort : Binder.Sort}
  {t : Stmt} {β : Binder}

/-- An occurrence of a name, and which of the bindings of the method it refers to. -/
structure Reference where
  name : String
  target : Option Nat
  deriving DecidableEq

/-- The reference under the name that its binding has among these. -/
def Reference.under (names : List String) (r : Reference) : Reference :=
  { r with name := (r.target.bind (names[·]?)).getD r.name }

/-- The bindings in sight, innermost first: the name, and its place among all bindings. -/
abbrev Sight := List (String × Nat)

namespace Sight

def refer (s : Sight) (x : String) : Reference :=
  ⟨x, s.lookup x⟩

/-- Bindings of one scope, numbered from `k`, hide those of the same name before them. -/
def declare (s : Sight) (k : Nat) : List String → Sight
  | [] => s
  | x :: xs => declare ((x, k) :: s) (k + 1) xs

/-- What is in sight after a statement that has `k` bindings before it. -/
def after (s : Sight) (k : Nat) : Stmt → Sight
  | .bind _ x e => (x, k + e.binders.length) :: s
  | _ => s

end Sight

mutual

/-- The references in an expression that has `k` bindings before it. -/
def Expr.refs (s : Sight) (k : Nat) : Expr → List Reference
  | .var _ x => [s.refer x]
  | .binary _ _ l r => l.refs s k ++ r.refs s (k + l.binders.length)
  | .unary _ _ e | .await _ e => e.refs s k
  | .call _ c es => c.refs s k ++ Expr.refsIn s (k + c.binders.length) es
  | .lambda _ ps b => Stmt.refsIn (s.declare k ps) (k + ps.length) b
  | .unit _ | .bool _ _ | .int _ _ | .str _ _ | .captured _ _ | .resume _ => []

def Expr.refsIn (s : Sight) (k : Nat) : List Expr → List Reference
  | [] => []
  | e :: es => e.refs s k ++ Expr.refsIn s (k + e.binders.length) es

def Stmt.refs (s : Sight) (k : Nat) : Stmt → List Reference
  | .assign _ x e => e.refs s k ++ [s.refer x]
  | .bind _ _ e | .store _ _ e | .eval _ e | .throw _ e | .yield _ e | .ret _ (some e) => e.refs s k
  | .cond _ t a b => t.refs s k ++ Stmt.refsIn s (k + t.binders.length) a ++
      Stmt.refsIn s (k + t.binders.length + (Stmt.bindersIn a).length) b
  | .loop _ t b => t.refs s k ++ Stmt.refsIn s (k + t.binders.length) b
  | .attempt _ b c f => Stmt.refsIn s k b ++ Stmt.clauseRefs s (k + (Stmt.bindersIn b).length) c ++
      Stmt.cleanupRefs s (k + (Stmt.bindersIn b).length + (Stmt.clauseBinders c).length) f
  | .block _ b => Stmt.refsIn s k b
  | .ret _ none | .yieldBreak _ | .brk _ | .cont _ => []

def Stmt.clauseRefs (s : Sight) (k : Nat) : Option Catch → List Reference
  | none => []
  | some (.mk none b) => Stmt.refsIn s k b
  | some (.mk (some x) b) => Stmt.refsIn ((x, k) :: s) (k + 1) b

def Stmt.cleanupRefs (s : Sight) (k : Nat) : Option (List Stmt) → List Reference
  | none => []
  | some b => Stmt.refsIn s k b

def Stmt.refsIn (s : Sight) (k : Nat) : List Stmt → List Reference
  | [] => []
  | t :: ts => t.refs s k ++ Stmt.refsIn (s.after k t) (k + t.binders.length) ts

end

/-- All references of a method. Its bindings are numbered as in `Method.bound`. -/
def Method.refs (m : Method) : List Reference :=
  Stmt.refsIn (Sight.declare [] 0 m.params) m.params.length m.body

mutual

/-- The same expression with other names. -/
def Expr.mapNames (f : String → String) : Expr → Expr
  | .var m x => .var m (f x)
  | .binary m op l r => .binary m op (l.mapNames f) (r.mapNames f)
  | .unary m op e => .unary m op (e.mapNames f)
  | .call m c es => .call m (c.mapNames f) (Expr.mapNamesIn f es)
  | .await m e => .await m (e.mapNames f)
  | .lambda m ps b => .lambda m (ps.map f) (Stmt.mapNamesIn f b)
  | .unit m => .unit m
  | .bool m b => .bool m b
  | .int m n => .int m n
  | .str m s => .str m s
  | .captured m k => .captured m k
  | .resume m => .resume m

def Expr.mapNamesIn (f : String → String) : List Expr → List Expr
  | [] => []
  | e :: es => e.mapNames f :: Expr.mapNamesIn f es

def Stmt.mapNames (f : String → String) : Stmt → Stmt
  | .bind m x e => .bind m (f x) (e.mapNames f)
  | .assign m x e => .assign m (f x) (e.mapNames f)
  | .eval m e => .eval m (e.mapNames f)
  | .cond m t a b => .cond m (t.mapNames f) (Stmt.mapNamesIn f a) (Stmt.mapNamesIn f b)
  | .loop m t b => .loop m (t.mapNames f) (Stmt.mapNamesIn f b)
  | .attempt m b c g =>
    .attempt m (Stmt.mapNamesIn f b) (Stmt.mapClause f c) (Stmt.mapCleanup f g)
  | .yield m e => .yield m (e.mapNames f)
  | .yieldBreak m => .yieldBreak m
  | .ret m none => .ret m none
  | .ret m (some e) => .ret m (some (e.mapNames f))
  | .brk m => .brk m
  | .cont m => .cont m
  | .throw m e => .throw m (e.mapNames f)
  | .block m b => .block m (Stmt.mapNamesIn f b)
  | .store m k e => .store m k (e.mapNames f)

def Stmt.mapClause (f : String → String) : Option Catch → Option Catch
  | none => none
  | some (.mk x b) => some (.mk (x.map f) (Stmt.mapNamesIn f b))

def Stmt.mapCleanup (f : String → String) : Option (List Stmt) → Option (List Stmt)
  | none => none
  | some b => some (Stmt.mapNamesIn f b)

def Stmt.mapNamesIn (f : String → String) : List Stmt → List Stmt
  | [] => []
  | s :: ss => s.mapNames f :: Stmt.mapNamesIn f ss

end

def Method.mapNames (f : String → String) (m : Method) : Method :=
  { m with params := m.params.map f, body := Stmt.mapNamesIn f m.body }

/-- A name without the mark and the number after it. -/
def unmark (x : String) : String :=
  String.ofList (x.toList.takeWhile (· != '#'))

namespace Binding

theorem unmark_given (hx : Unmarked x) (k : Nat) : unmark (given x k) = x := by
  rw [unmark, takeWhile_given hx, String.ofList_toList]

theorem unmark_fresh (hx : Unmarked x) (b : Bound) : unmark (fresh b x) = x := by
  rw [fresh_eq, unmark_given hx]

theorem unmark_resolve {scope : Scope} (hs : Ruled scope) (hx : Unmarked x) :
    unmark (resolve scope x) = x := by
  obtain ⟨k, hk⟩ := resolve_given hs x
  rw [hk, unmark_given hx]

theorem UnmarkedIn.bind (h : UnmarkedIn (e.binders ++ [⟨x, .variable⟩]) e.loose) :
    UnmarkedIn e.binders e.loose ∧ Unmarked x := by
  rw [UnmarkedIn, Binder.names, map_append, forall_mem_append] at h
  exact ⟨⟨h.1.1, h.2⟩, h.1.2 x mem_cons_self⟩

theorem UnmarkedIn.assign (h : UnmarkedIn e.binders (e.loose ++ [⟨x, .written⟩])) :
    UnmarkedIn e.binders e.loose ∧ Unmarked x := by
  rw [UnmarkedIn, forall_mem_append] at h
  exact ⟨⟨h.1, h.2.1⟩, h.2.2 ⟨x, .written⟩ mem_cons_self⟩

theorem Ruled.stmt {scope : Scope} (hs : Ruled scope) (s : Stmt) (b : Bound) :
    Ruled (renameStmt scope s b).1.2 := by
  rcases scope_renameStmt scope s b with ⟨x, b', -, -, he⟩ | ⟨-, -, he⟩
  · rw [he]
    exact hs.cons x b'
  · rw [he]
    exact hs

theorem map_unmark_declareAll (scope : Scope) (hx : ∀ x ∈ xs, Unmarked x) (b : Bound) :
    (declareAll scope xs b).1.1.map unmark = xs := by
  induction xs generalizing scope b with
  | nil => rfl
  | cons x xs ih =>
    obtain ⟨hx, hxs⟩ := forall_mem_cons.mp hx
    exact congrArg₂ (· :: ·) (unmark_fresh hx b) (ih _ hxs _)

/-! Without their marks the names are those of the source. -/

mutual

theorem unmark_renameExpr {scope : Scope} (hs : Ruled scope) (e : Expr) (b : Bound)
    (hp : UnmarkedIn e.binders e.loose) : (renameExpr scope e b).1.mapNames unmark = e := by
  match e with
  | .var m x =>
    exact congrArg (Expr.var m) (unmark_resolve hs (hp.2 ⟨x, .read⟩ (by simp [Expr.loose])))
  | .binary m op l r =>
    obtain ⟨hl, hr⟩ := UnmarkedIn.append hp
    exact congrArg₂ (Expr.binary m op) (unmark_renameExpr hs l b hl) (unmark_renameExpr hs r _ hr)
  | .unary m op e => exact congrArg (Expr.unary m op) (unmark_renameExpr hs e b hp)
  | .await m e => exact congrArg (Expr.await m) (unmark_renameExpr hs e b hp)
  | .call m c es =>
    obtain ⟨hc, hes⟩ := UnmarkedIn.append hp
    exact congrArg₂ (Expr.call m) (unmark_renameExpr hs c b hc.callee)
      (unmark_renameExprs hs es _ hes)
  | .lambda m ps body =>
    obtain ⟨hps, hb⟩ := UnmarkedIn.lambda hp
    exact congrArg₂ (Expr.lambda m) (map_unmark_declareAll scope hps b)
      (unmark_renameBlock (hs.declareAll ps b) body _ hb)
  | .unit m | .bool m _ | .int m _ | .str m _ | .captured m _ | .resume m => rfl

theorem unmark_renameExprs {scope : Scope} (hs : Ruled scope) (es : List Expr) (b : Bound)
    (hp : UnmarkedIn (Expr.bindersIn es) (Expr.looseIn es)) :
    Expr.mapNamesIn unmark (renameExprs scope es b).1 = es := by
  match es with
  | [] => rfl
  | e :: es =>
    obtain ⟨he, hes⟩ := UnmarkedIn.append hp
    exact congrArg₂ (· :: ·) (unmark_renameExpr hs e b he) (unmark_renameExprs hs es _ hes)

theorem unmark_renameStmt {scope : Scope} (hs : Ruled scope) (s : Stmt) (b : Bound)
    (hp : UnmarkedIn s.binders s.loose) : (renameStmt scope s b).1.1.mapNames unmark = s := by
  match s with
  | .bind m x e =>
    obtain ⟨he, hx⟩ := UnmarkedIn.bind hp
    exact congrArg₂ (bind m) (unmark_fresh hx _) (unmark_renameExpr hs e b he)
  | .assign m x e =>
    obtain ⟨he, hx⟩ := UnmarkedIn.assign hp
    exact congrArg₂ (assign m) (unmark_resolve hs hx) (unmark_renameExpr hs e b he)
  | .store m k e => exact congrArg (store m k) (unmark_renameExpr hs e b hp)
  | .eval m e => exact congrArg (eval m) (unmark_renameExpr hs e b hp)
  | .throw m e => exact congrArg (throw m) (unmark_renameExpr hs e b hp)
  | .yield m e => exact congrArg (yield m) (unmark_renameExpr hs e b hp)
  | .ret m (some e) => exact congrArg (ret m <| some ·) (unmark_renameExpr hs e b hp)
  | .cond m t x y =>
    obtain ⟨htx, hy⟩ := UnmarkedIn.append hp
    obtain ⟨ht, hx⟩ := UnmarkedIn.append htx
    exact congr (congrArg₂ (cond m) (unmark_renameExpr hs t b ht) (unmark_renameBlock hs x _ hx))
      (unmark_renameBlock hs y _ hy)
  | .loop m t x =>
    obtain ⟨ht, hx⟩ := UnmarkedIn.append hp
    exact congrArg₂ (loop m) (unmark_renameExpr hs t b ht) (unmark_renameBlock hs x _ hx)
  | .attempt m x c f =>
    obtain ⟨hxc, hf⟩ := UnmarkedIn.append hp
    obtain ⟨hx, hc⟩ := UnmarkedIn.append hxc
    exact congr (congrArg₂ (attempt m) (unmark_renameBlock hs x b hx)
      (unmark_renameClause hs c _ hc)) (unmark_renameCleanup hs f _ hf)
  | .block m x => exact congrArg (block m) (unmark_renameBlock hs x b hp)
  | .ret m none | .yieldBreak m | .brk m | .cont m => rfl

theorem unmark_renameClause {scope : Scope} (hs : Ruled scope) (c : Option Catch) (b : Bound)
    (hp : UnmarkedIn (Stmt.clauseBinders c) (Stmt.looseClause c)) :
    Stmt.mapClause unmark (renameClause scope c b).1 = c := by
  match c with
  | none => rfl
  | some (.mk none x) =>
    have hp : UnmarkedIn (bindersIn x) (looseIn x) := by
      simpa [clauseBinders, looseClause] using hp
    exact congrArg (some <| Catch.mk none ·) (unmark_renameBlock hs x b hp)
  | some (.mk (some y) x) =>
    obtain ⟨hy, hx⟩ := UnmarkedIn.clause hp
    exact congrArg₂ (fun z ss => some (Catch.mk (some z) ss)) (unmark_fresh hy b)
      (unmark_renameBlock (hs.cons y b) x _ hx)

theorem unmark_renameCleanup {scope : Scope} (hs : Ruled scope) (f : Option (List Stmt)) (b : Bound)
    (hp : UnmarkedIn (Stmt.cleanupBinders f) (Stmt.looseCleanup f)) :
    Stmt.mapCleanup unmark (renameCleanup scope f b).1 = f := by
  match f with
  | none => rfl
  | some x => exact congrArg some (unmark_renameBlock hs x b hp)

theorem unmark_renameBlock {scope : Scope} (hs : Ruled scope) (ss : List Stmt) (b : Bound)
    (hp : UnmarkedIn (Stmt.bindersIn ss) (Stmt.looseIn ss)) :
    Stmt.mapNamesIn unmark (renameBlock scope ss b).1 = ss := by
  match ss with
  | [] => rfl
  | s :: ss =>
    obtain ⟨hs', hss⟩ := hp.block
    exact congrArg₂ (· :: ·) (unmark_renameStmt hs s b hs')
      (unmark_renameBlock (hs.stmt s b) ss _ hss)

end

/-! Names refer to the bindings that they referred to. -/

/-- What is in sight in the source, after renaming, and for renaming. A name of the source refers to
the same binding as the name given for it, which is the name of that binding. -/
structure Tied (names : List String) (scope : Scope) (s s' : Sight) : Prop where
  ruled : Ruled scope
  target : ∀ x, Unmarked x → s'.lookup (resolve scope x) = s.lookup x
  name : ∀ x i, s.lookup x = some i → names[i]? = some (resolve scope x)
  free : ∀ x, s.lookup x = none → resolve scope x = x

/-- Bindings with their given names stand among these from place `k` on. -/
def Placed (names : List String) (k : Nat) (b : Bound) (βs : List Binder) : Prop :=
  Binder.names (relabel b βs) <+: names.drop k

section

variable {names : List String} {k : Nat} {b : Bound} {scope : Scope} {s s' : Sight}

theorem length_relabel (b : Bound) (βs : List Binder) : (relabel b βs).length = βs.length := by
  induction βs generalizing b with
  | nil => rfl
  | cons β βs ih => exact congrArg (· + 1) (ih _)

theorem Placed.head (h : Placed names k b (β :: βs)) :
    names[k]? = some (fresh b β.name) ∧ Placed names (k + 1) (β.name :: b) βs := by
  obtain ⟨rest, hrest⟩ := h
  have hdrop : names.drop k = fresh b β.name :: (Binder.names (relabel (β.name :: b) βs) ++ rest) :=
    hrest.symm
  constructor
  · rw [← head?_drop, hdrop]
    rfl
  · refine ⟨rest, ?_⟩
    rw [← tail_drop, hdrop]
    rfl

theorem Placed.append (h : Placed names k b (βs ++ γs)) :
    Placed names k b βs ∧
      Placed names (k + βs.length) ((Binder.names βs).reverse ++ b) γs := by
  obtain ⟨rest, hrest⟩ := h
  rw [relabel_append, Binder.names, map_append, append_assoc] at hrest
  refine ⟨⟨_, hrest⟩, rest, ?_⟩
  have hlength : ((relabel b βs).map (·.name)).length = βs.length := by
    rw [length_map, length_relabel]
  rw [← drop_drop, ← hrest, ← hlength, drop_left]
  rfl

section

variable (h : Tied names scope s s')
include h

theorem Tied.refer (hx : Unmarked x) : s'.refer (resolve scope x) = (s.refer x).under names := by
  have htarget := h.target x hx
  unfold Sight.refer Reference.under
  rw [htarget]
  cases hl : s.lookup x with
  | none => simp [h.free x hl]
  | some i => simp [h.name x i hl]

/-- A new binding hides the same bindings before and after renaming. -/
theorem Tied.cons (hx : Unmarked x) (hk : names[k]? = some (fresh b x)) :
    Tied names ((x, fresh b x) :: scope) ((x, k) :: s) ((fresh b x, k) :: s') where
  ruled := h.ruled.cons x b
  target y hy := by
    by_cases hyx : y = x
    · subst hyx
      simp [resolve]
    · obtain ⟨j, hj⟩ := resolve_given h.ruled y
      have hne : resolve scope y ≠ fresh b x := by
        rw [hj, fresh_eq]
        exact fun he => hyx (given_inj hy hx he).1
      rw [resolve_cons_of_ne _ hyx, lookup_cons, lookup_cons, beq_false_of_ne hne,
        beq_false_of_ne hyx]
      exact h.target y hy
  name y i hi := by
    by_cases hyx : y = x
    · subst hyx
      obtain rfl : k = i := by simpa using hi
      simpa [resolve] using hk
    · rw [lookup_cons, beq_false_of_ne hyx] at hi
      rw [resolve_cons_of_ne _ hyx]
      exact h.name y i hi
  free y hn := by
    by_cases hyx : y = x
    · subst hyx
      simp at hn
    · rw [lookup_cons, beq_false_of_ne hyx] at hn
      rw [resolve_cons_of_ne _ hyx]
      exact h.free y hn

theorem Tied.declareAll (hx : ∀ x ∈ xs, Unmarked x)
    (ha : Placed names k b (xs.map (⟨·, sort⟩))) :
    Tied names (declareAll scope xs b).1.2 (s.declare k xs)
      (s'.declare k (declareAll scope xs b).1.1) := by
  induction xs generalizing scope s s' k b with
  | nil => exact h
  | cons x xs ih =>
    obtain ⟨hx, hxs⟩ := forall_mem_cons.mp hx
    obtain ⟨hk, hrest⟩ := Placed.head ha
    exact ih (h.cons hx hk) hxs hrest

end

end

section

variable {names : List String}

theorem length_renameExpr (scope : Scope) (e : Expr) (b : Bound) :
    (renameExpr scope e b).1.binders.length = e.binders.length := by
  rw [binders_renameExpr, length_relabel]

theorem length_renameBlock (scope : Scope) (ss : Block) (b : Bound) :
    (Stmt.bindersIn (renameBlock scope ss b).1).length = (Stmt.bindersIn ss).length := by
  rw [binders_renameBlock, length_relabel]

/-- After a statement, names refer to the same bindings again. -/
theorem Tied.after {scope : Scope} {s s' : Sight} (h : Tied names scope s s') {k : Nat} {b : Bound}
    (hp : UnmarkedIn t.binders t.loose) (ha : Placed names k b t.binders) :
    Tied names (renameStmt scope t b).1.2 (s.after k t)
      (s'.after k (renameStmt scope t b).1.1) := by
  cases t with
  | bind m x e =>
    obtain ⟨-, hx⟩ := UnmarkedIn.bind hp
    have hk := (Placed.append ha).2.head.1
    rw [← bound_renameExpr scope e b] at hk
    have hafter : s'.after k (renameStmt scope (.bind m x e) b).1.1 =
      (fresh (renameExpr scope e b).2 x, k + (renameExpr scope e b).1.binders.length) :: s' := rfl
    rw [hafter, length_renameExpr]
    exact h.cons hx hk
  | ret m v => cases v <;> exact h
  | _ => exact h

mutual

theorem refs_renameExpr {scope : Scope} {s s' : Sight} (h : Tied names scope s s') (e : Expr)
    {k : Nat} {b : Bound} (hp : UnmarkedIn e.binders e.loose) (ha : Placed names k b e.binders) :
    (renameExpr scope e b).1.refs s' k = (e.refs s k).map (Reference.under names) := by
  match e with
  | .var m x => exact congrArg ([·]) (h.refer (hp.2 ⟨x, .read⟩ (by simp [Expr.loose])))
  | .binary m op l r =>
    obtain ⟨hl, hr⟩ := UnmarkedIn.append hp
    obtain ⟨hal, har⟩ := Placed.append ha
    rw [← bound_renameExpr scope l b] at har
    have hrefs : (renameExpr scope (.binary m op l r) b).1.refs s' k =
      (renameExpr scope l b).1.refs s' k ++ (renameExpr scope r (renameExpr scope l b).2).1.refs s'
        (k + (renameExpr scope l b).1.binders.length) := rfl
    rw [hrefs, length_renameExpr, Expr.refs, map_append, refs_renameExpr h l hl hal,
      refs_renameExpr h r hr har]
  | .unary m op e | .await m e => exact refs_renameExpr h e hp ha
  | .call m c es =>
    obtain ⟨hc, hes⟩ := UnmarkedIn.append hp
    obtain ⟨hac, haes⟩ := Placed.append ha
    rw [← bound_renameExpr scope c b] at haes
    have hrefs : (renameExpr scope (.call m c es) b).1.refs s' k =
      (renameExpr scope c b).1.refs s' k ++ Expr.refsIn s'
        (k + (renameExpr scope c b).1.binders.length)
        (renameExprs scope es (renameExpr scope c b).2).1 := rfl
    rw [hrefs, length_renameExpr, Expr.refs, map_append, refs_renameExpr h c hc.callee hac,
      refs_renameExprs h es hes haes]
  | .lambda m ps body =>
    obtain ⟨hps, hb⟩ := UnmarkedIn.lambda hp
    obtain ⟨hap, hab⟩ := Placed.append ha
    have hbound : (Binder.names (ps.map (⟨·, .argument⟩))).reverse ++ b =
        (declareAll scope ps b).2 := by
      simp [declareAll_bound, Binder.names, Function.comp_def]
    rw [hbound, length_map] at hab
    have hrefs : (renameExpr scope (.lambda m ps body) b).1.refs s' k =
      refsIn (s'.declare k (declareAll scope ps b).1.1)
        (k + (declareAll scope ps b).1.1.length)
        (renameBlock (declareAll scope ps b).1.2 body (declareAll scope ps b).2).1 := rfl
    rw [hrefs, length_declareAll, Expr.refs, refs_renameBlock (h.declareAll hps hap) body hb hab]
  | .unit m | .bool m _ | .int m _ | .str m _ | .captured m _ | .resume m => rfl

theorem refs_renameExprs {scope : Scope} {s s' : Sight} (h : Tied names scope s s')
    (es : List Expr) {k : Nat} {b : Bound} (hp : UnmarkedIn (Expr.bindersIn es) (Expr.looseIn es))
    (ha : Placed names k b (Expr.bindersIn es)) :
    Expr.refsIn s' k (renameExprs scope es b).1 =
      (Expr.refsIn s k es).map (Reference.under names) := by
  match es with
  | [] => rfl
  | e :: es =>
    obtain ⟨he, hes⟩ := UnmarkedIn.append hp
    obtain ⟨hae, haes⟩ := Placed.append ha
    rw [← bound_renameExpr scope e b] at haes
    have hrefs : Expr.refsIn s' k (renameExprs scope (e :: es) b).1 =
      (renameExpr scope e b).1.refs s' k ++ Expr.refsIn s'
        (k + (renameExpr scope e b).1.binders.length)
        (renameExprs scope es (renameExpr scope e b).2).1 := rfl
    rw [hrefs, length_renameExpr, Expr.refsIn, map_append, refs_renameExpr h e he hae,
      refs_renameExprs h es hes haes]

theorem refs_renameStmt {scope : Scope} {s s' : Sight} (h : Tied names scope s s') (t : Stmt)
    {k : Nat} {b : Bound} (hp : UnmarkedIn t.binders t.loose) (ha : Placed names k b t.binders) :
    (renameStmt scope t b).1.1.refs s' k = (t.refs s k).map (Reference.under names) := by
  match t with
  | .bind m x e => exact refs_renameExpr h e (UnmarkedIn.bind hp).1 (Placed.append ha).1
  | .assign m x e =>
    obtain ⟨he, hx⟩ := UnmarkedIn.assign hp
    rw [refs, map_append, ← refs_renameExpr h e he ha]
    exact congrArg (_ ++ [·]) (h.refer hx)
  | .store m _ e | .eval m e | .throw m e | .yield m e | .ret m (some e) =>
    exact refs_renameExpr h e hp ha
  | .cond m e x y =>
    obtain ⟨hex, hy⟩ := UnmarkedIn.append hp
    obtain ⟨he, hx⟩ := UnmarkedIn.append hex
    rw [binders, append_assoc] at ha
    obtain ⟨hae, haxy⟩ := Placed.append ha
    obtain ⟨hax, hay⟩ := Placed.append haxy
    rw [← bound_renameExpr scope e b] at hax hay
    rw [← bound_renameBlock scope x] at hay
    have hrefs : (renameStmt scope (.cond m e x y) b).1.1.refs s' k =
      (renameExpr scope e b).1.refs s' k ++
        refsIn s' (k + (renameExpr scope e b).1.binders.length)
          (renameBlock scope x (renameExpr scope e b).2).1 ++
        refsIn s' (k + (renameExpr scope e b).1.binders.length +
            (bindersIn (renameBlock scope x (renameExpr scope e b).2).1).length)
          (renameBlock scope y (renameBlock scope x (renameExpr scope e b).2).2).1 := rfl
    rw [hrefs, length_renameExpr, length_renameBlock, refs, map_append, map_append,
      refs_renameExpr h e he hae, refs_renameBlock h x hx hax, refs_renameBlock h y hy hay]
  | .loop m e x =>
    obtain ⟨he, hx⟩ := UnmarkedIn.append hp
    obtain ⟨hae, hax⟩ := Placed.append ha
    rw [← bound_renameExpr scope e b] at hax
    have hrefs : (renameStmt scope (.loop m e x) b).1.1.refs s' k =
      (renameExpr scope e b).1.refs s' k ++
        refsIn s' (k + (renameExpr scope e b).1.binders.length)
          (renameBlock scope x (renameExpr scope e b).2).1 := rfl
    rw [hrefs, length_renameExpr, refs, map_append, refs_renameExpr h e he hae,
      refs_renameBlock h x hx hax]
  | .attempt m x c f =>
    obtain ⟨hxc, hf⟩ := UnmarkedIn.append hp
    obtain ⟨hx, hc⟩ := UnmarkedIn.append hxc
    rw [binders, append_assoc] at ha
    obtain ⟨hax, hacf⟩ := Placed.append ha
    obtain ⟨hac, haf⟩ := Placed.append hacf
    rw [← bound_renameBlock scope x b] at hac haf
    rw [← bound_renameClause scope c] at haf
    have hrefs : (renameStmt scope (.attempt m x c f) b).1.1.refs s' k =
      refsIn s' k (renameBlock scope x b).1 ++
        clauseRefs s' (k + (bindersIn (renameBlock scope x b).1).length)
          (renameClause scope c (renameBlock scope x b).2).1 ++
        cleanupRefs s' (k + (bindersIn (renameBlock scope x b).1).length +
            (clauseBinders (renameClause scope c (renameBlock scope x b).2).1).length)
          (renameCleanup scope f (renameClause scope c (renameBlock scope x b).2).2).1 := rfl
    rw [hrefs, length_renameBlock, binders_renameClause, length_relabel, refs, map_append,
      map_append, refs_renameBlock h x hx hax, refs_renameClause h c hc hac,
      refs_renameCleanup h f hf haf]
  | .block m x => exact refs_renameBlock h x hp ha
  | .ret m none | .yieldBreak m | .brk m | .cont m => rfl

theorem refs_renameClause {scope : Scope} {s s' : Sight} (h : Tied names scope s s')
    (c : Option Catch) {k : Nat} {b : Bound}
    (hp : UnmarkedIn (Stmt.clauseBinders c) (Stmt.looseClause c))
    (ha : Placed names k b (Stmt.clauseBinders c)) :
    Stmt.clauseRefs s' k (renameClause scope c b).1 =
      (Stmt.clauseRefs s k c).map (Reference.under names) := by
  match c with
  | none => rfl
  | some (.mk none x) =>
    have hp : UnmarkedIn (bindersIn x) (looseIn x) := by
      simpa [clauseBinders, looseClause] using hp
    exact refs_renameBlock h x hp ha
  | some (.mk (some y) x) =>
    obtain ⟨hy, hx⟩ := UnmarkedIn.clause hp
    obtain ⟨hk, hax⟩ := Placed.head ha
    exact refs_renameBlock (h.cons hy hk) x hx hax

theorem refs_renameCleanup {scope : Scope} {s s' : Sight} (h : Tied names scope s s')
    (f : Option (List Stmt)) {k : Nat} {b : Bound}
    (hp : UnmarkedIn (Stmt.cleanupBinders f) (Stmt.looseCleanup f))
    (ha : Placed names k b (Stmt.cleanupBinders f)) :
    Stmt.cleanupRefs s' k (renameCleanup scope f b).1 =
      (Stmt.cleanupRefs s k f).map (Reference.under names) := by
  match f with
  | none => rfl
  | some x => exact refs_renameBlock h x hp ha

theorem refs_renameBlock {scope : Scope} {s s' : Sight} (h : Tied names scope s s')
    (ss : List Stmt) {k : Nat} {b : Bound} (hp : UnmarkedIn (Stmt.bindersIn ss) (Stmt.looseIn ss))
    (ha : Placed names k b (Stmt.bindersIn ss)) :
    Stmt.refsIn s' k (renameBlock scope ss b).1 =
      (Stmt.refsIn s k ss).map (Reference.under names) := by
  match ss with
  | [] => rfl
  | t :: ts =>
    obtain ⟨ht, hts⟩ := hp.block
    obtain ⟨hat, hats⟩ := Placed.append ha
    rw [← bound_renameStmt scope t b] at hats
    have hrefs : refsIn s' k (renameBlock scope (t :: ts) b).1 =
      (renameStmt scope t b).1.1.refs s' k ++
        refsIn (s'.after k (renameStmt scope t b).1.1)
          (k + (renameStmt scope t b).1.1.binders.length)
          (renameBlock (renameStmt scope t b).1.2 ts (renameStmt scope t b).2).1 := rfl
    rw [hrefs, binders_renameStmt, length_relabel, refsIn, map_append,
      refs_renameStmt h t ht hat, refs_renameBlock (h.after ht hat) ts hts hats]

end

end

/-! Where every binding has a name of its own, nothing is renamed. -/

theorem relabel_of_nodup {b : Bound} (h : (Binder.names βs ++ b).Nodup) : relabel b βs = βs := by
  induction βs generalizing b with
  | nil => rfl
  | cons β βs ih =>
    have hmoved : (β.name :: (Binder.names βs ++ b)).Perm (Binder.names βs ++ β.name :: b) :=
      perm_middle.symm
    have hfresh : b.count β.name = 0 := by
      refine count_eq_zero.mpr fun hm => (nodup_cons.mp h).1 ?_
      exact mem_append_right _ hm
    rw [relabel, ih (hmoved.nodup_iff.mp h), fresh_eq, hfresh]
    rfl

/-- The bindings in sight have kept their names. -/
def Kept (scope : Scope) : Prop :=
  ∀ x, resolve scope x = x

section

variable {scope : Scope} {b : Bound}

theorem relabel_self_append (h : relabel b (βs ++ γs) = βs ++ γs) :
    relabel b βs = βs ∧ relabel ((Binder.names βs).reverse ++ b) γs = γs := by
  rw [relabel_append] at h
  exact append_inj h (length_relabel b βs)

theorem relabel_self_cons (h : relabel b (β :: βs) = β :: βs) :
    fresh b β.name = β.name ∧ relabel (β.name :: b) βs = βs := by
  obtain ⟨hβ, hβs⟩ := cons.inj h
  exact ⟨congrArg Binder.name hβ, hβs⟩

theorem Kept.cons (hs : Kept scope) {y : String} (h : y = x) : Kept ((x, y) :: scope) := by
  intro z
  by_cases hz : z = x
  · subst hz
    simp [resolve, h]
  · rw [resolve_cons_of_ne _ hz]
    exact hs z

theorem Kept.declareAll (hs : Kept scope)
    (h : relabel b (xs.map (⟨·, sort⟩)) = xs.map (⟨·, sort⟩)) :
    (declareAll scope xs b).1.1 = xs ∧ Kept (declareAll scope xs b).1.2 := by
  induction xs generalizing scope b with
  | nil => exact ⟨rfl, hs⟩
  | cons x xs ih =>
    obtain ⟨hx, hrest⟩ := relabel_self_cons h
    obtain ⟨hxs, hscope⟩ := ih (hs.cons hx) hrest
    exact ⟨congrArg₂ (· :: ·) hx hxs, hscope⟩

theorem Kept.stmt (hs : Kept scope) (h : relabel b t.binders = t.binders) :
    Kept (renameStmt scope t b).1.2 := by
  cases t with
  | bind m x e =>
    have hx := (relabel_self_cons (relabel_self_append h).2).1
    rw [← bound_renameExpr scope e b] at hx
    exact hs.cons hx
  | ret m v => cases v <;> exact hs
  | _ => exact hs

end

mutual

theorem renameExpr_self {scope : Scope} (hs : Kept scope) (e : Expr) {b : Bound}
    (h : relabel b e.binders = e.binders) : (renameExpr scope e b).1 = e := by
  match e with
  | .var m x => exact congrArg (Expr.var m) (hs x)
  | .binary m op l r =>
    obtain ⟨hl, hr⟩ := relabel_self_append h
    rw [← bound_renameExpr scope l b] at hr
    exact congrArg₂ (Expr.binary m op) (renameExpr_self hs l hl) (renameExpr_self hs r hr)
  | .unary m op e => exact congrArg (Expr.unary m op) (renameExpr_self hs e h)
  | .await m e => exact congrArg (Expr.await m) (renameExpr_self hs e h)
  | .call m c es =>
    obtain ⟨hc, hes⟩ := relabel_self_append h
    rw [← bound_renameExpr scope c b] at hes
    exact congrArg₂ (Expr.call m) (renameExpr_self hs c hc) (renameExprs_self hs es hes)
  | .lambda m ps body =>
    obtain ⟨hps, hb⟩ := relabel_self_append h
    have hbound : (Binder.names (ps.map (⟨·, .argument⟩))).reverse ++ b =
        (declareAll scope ps b).2 := by
      simp [declareAll_bound, Binder.names, Function.comp_def]
    rw [hbound] at hb
    obtain ⟨hnames, hscope⟩ := hs.declareAll hps
    exact congrArg₂ (Expr.lambda m) hnames (renameBlock_self hscope body hb)
  | .unit m | .bool m _ | .int m _ | .str m _ | .captured m _ | .resume m => rfl

theorem renameExprs_self {scope : Scope} (hs : Kept scope) (es : List Expr) {b : Bound}
    (h : relabel b (Expr.bindersIn es) = Expr.bindersIn es) : (renameExprs scope es b).1 = es := by
  match es with
  | [] => rfl
  | e :: es =>
    obtain ⟨he, hes⟩ := relabel_self_append h
    rw [← bound_renameExpr scope e b] at hes
    exact congrArg₂ (· :: ·) (renameExpr_self hs e he) (renameExprs_self hs es hes)

theorem renameStmt_self {scope : Scope} (hs : Kept scope) (t : Stmt) {b : Bound}
    (h : relabel b t.binders = t.binders) : (renameStmt scope t b).1.1 = t := by
  match t with
  | .bind m x e =>
    obtain ⟨he, hx⟩ := relabel_self_append h
    rw [← bound_renameExpr scope e b] at hx
    exact congrArg₂ (bind m) (relabel_self_cons hx).1 (renameExpr_self hs e he)
  | .assign m x e => exact congrArg₂ (assign m) (hs x) (renameExpr_self hs e h)
  | .store m k e => exact congrArg (store m k) (renameExpr_self hs e h)
  | .eval m e => exact congrArg (eval m) (renameExpr_self hs e h)
  | .throw m e => exact congrArg (throw m) (renameExpr_self hs e h)
  | .yield m e => exact congrArg (yield m) (renameExpr_self hs e h)
  | .ret m (some e) => exact congrArg (ret m <| some ·) (renameExpr_self hs e h)
  | .cond m e x y =>
    rw [binders, append_assoc] at h
    obtain ⟨he, hxy⟩ := relabel_self_append h
    obtain ⟨hx, hy⟩ := relabel_self_append hxy
    rw [← bound_renameExpr scope e b] at hx hy
    rw [← bound_renameBlock scope x] at hy
    exact congr (congrArg₂ (cond m) (renameExpr_self hs e he) (renameBlock_self hs x hx))
      (renameBlock_self hs y hy)
  | .loop m e x =>
    obtain ⟨he, hx⟩ := relabel_self_append h
    rw [← bound_renameExpr scope e b] at hx
    exact congrArg₂ (loop m) (renameExpr_self hs e he) (renameBlock_self hs x hx)
  | .attempt m x c f =>
    rw [binders, append_assoc] at h
    obtain ⟨hx, hcf⟩ := relabel_self_append h
    obtain ⟨hc, hf⟩ := relabel_self_append hcf
    rw [← bound_renameBlock scope x b] at hc hf
    rw [← bound_renameClause scope c] at hf
    exact congr (congrArg₂ (attempt m) (renameBlock_self hs x hx) (renameClause_self hs c hc))
      (renameCleanup_self hs f hf)
  | .block m x => exact congrArg (block m) (renameBlock_self hs x h)
  | .ret m none | .yieldBreak m | .brk m | .cont m => rfl

theorem renameClause_self {scope : Scope} (hs : Kept scope) (c : Option Catch) {b : Bound}
    (h : relabel b (Stmt.clauseBinders c) = Stmt.clauseBinders c) :
    (renameClause scope c b).1 = c := by
  match c with
  | none => rfl
  | some (.mk none x) => exact congrArg (some <| Catch.mk none ·) (renameBlock_self hs x h)
  | some (.mk (some y) x) =>
    obtain ⟨hy, hx⟩ := relabel_self_cons h
    exact congrArg₂ (fun z ss => some (Catch.mk (some z) ss)) hy
      (renameBlock_self (hs.cons hy) x hx)

theorem renameCleanup_self {scope : Scope} (hs : Kept scope) (f : Option (List Stmt)) {b : Bound}
    (h : relabel b (Stmt.cleanupBinders f) = Stmt.cleanupBinders f) :
    (renameCleanup scope f b).1 = f := by
  match f with
  | none => rfl
  | some x => exact congrArg some (renameBlock_self hs x h)

theorem renameBlock_self {scope : Scope} (hs : Kept scope) (ss : List Stmt) {b : Bound}
    (h : relabel b (Stmt.bindersIn ss) = Stmt.bindersIn ss) : (renameBlock scope ss b).1 = ss := by
  match ss with
  | [] => rfl
  | t :: ts =>
    obtain ⟨ht, hts⟩ := relabel_self_append h
    rw [← bound_renameStmt scope t b] at hts
    exact congrArg₂ (· :: ·) (renameStmt_self hs t ht) (renameBlock_self (hs.stmt ht) ts hts)

end

end Binding

namespace Method

variable {m : Method}

/-- A method in which every binding has a name of its own is left as it is. -/
theorem rename_self (h : m.bound.Nodup) : m.rename = m := by
  have hbinders : Binding.relabel [] (m.params.map (⟨·, .argument⟩) ++ bindersIn m.body) =
      m.params.map (⟨·, .argument⟩) ++ bindersIn m.body := by
    apply Binding.relabel_of_nodup
    simpa [Binder.names, Function.comp_def, bound] using h
  obtain ⟨hparams, hbody⟩ := Binding.relabel_self_append hbinders
  have hbound : (Binder.names (m.params.map (⟨·, .argument⟩))).reverse ++ [] =
      (Binding.declareAll [] m.params []).2 := by
    simp [Binding.declareAll_bound, Binder.names, Function.comp_def]
  rw [hbound] at hbody
  have hempty : Binding.Kept [] := fun _ => rfl
  obtain ⟨hnames, hscope⟩ := hempty.declareAll hparams
  exact congrArg₂ (fun params body => { m with params, body }) hnames
    (Binding.renameBlock_self hscope m.body hbody)

section

variable (hm : ∀ x ∈ m.names, Unmarked x)
include hm

theorem unmarkedIn_body : Binding.UnmarkedIn (Stmt.bindersIn m.body) (Stmt.looseIn m.body) := by
  refine ⟨fun x hx => hm x ?_, fun o ho => hm _ ?_⟩
  · exact mem_append_left _ (mem_append_right _ hx)
  · exact mem_append_right _ (mem_map.mpr ⟨o, ho, rfl⟩)

theorem unmark_rename : m.rename.mapNames unmark = m := by
  have hparams : ∀ x ∈ m.params, Unmarked x :=
    fun x hx => unmarked_bound hm x (mem_append_left _ hx)
  have hruled : Binding.Ruled [] := nofun
  exact congrArg₂ (fun params body => { m with params, body })
    (Binding.map_unmark_declareAll [] hparams [])
    (Binding.unmark_renameBlock (hruled.declareAll m.params []) m.body _ (unmarkedIn_body hm))

theorem refs_rename : m.rename.refs = m.refs.map (Reference.under m.rename.bound) := by
  have hparams : ∀ x ∈ m.params, Unmarked x :=
    fun x hx => unmarked_bound hm x (mem_append_left _ hx)
  have hplaced : Binding.Placed m.rename.bound 0 []
      (m.params.map (⟨·, .argument⟩) ++ bindersIn m.body) := by
    simp only [Binding.Placed, ← bound_rename, drop_zero]
    exact prefix_rfl
  obtain ⟨hap, hab⟩ := Binding.Placed.append hplaced
  have hbound : (Binder.names (m.params.map (⟨·, .argument⟩))).reverse ++ [] =
      (Binding.declareAll [] m.params []).2 := by
    simp [Binding.declareAll_bound, Binder.names, Function.comp_def]
  rw [hbound, length_map, Nat.zero_add] at hab
  have htied : Binding.Tied m.rename.bound [] [] [] :=
    ⟨nofun, fun _ _ => rfl, nofun, fun _ _ => rfl⟩
  have hrefs : m.rename.refs =
    refsIn (Sight.declare [] 0 (Binding.declareAll [] m.params []).1.1)
      (Binding.declareAll [] m.params []).1.1.length
      (Binding.renameBlock (Binding.declareAll [] m.params []).1.2 m.body
        (Binding.declareAll [] m.params []).2).1 := rfl
  rw [hrefs, Binding.length_declareAll]
  exact Binding.refs_renameBlock (htied.declareAll hparams hap) m.body (unmarkedIn_body hm) hab

end

end Method

/-- Renaming keeps what names refer to, in order: a name that refers to a binding now has the name
of that binding, and any other is as it was. Apart from the marks nothing has changed, and renaming
again changes nothing. -/
theorem references_kept (m : Method) (hm : ∀ x ∈ m.names, Unmarked x) :
    m.rename.refs = m.refs.map (Reference.under m.rename.bound) ∧
      m.rename.mapNames unmark = m ∧ m.rename.rename = m.rename :=
  ⟨Method.refs_rename hm, Method.unmark_rename hm,
    Method.rename_self (Method.nodup_bound_rename hm)⟩

/-- A parameter hidden in turn by a variable, in a block, by the name of a fault and by the
parameter of a closure. -/
def veiled : Method where
  name := "m"
  params := ["x"]
  body :=
    [.bind {} "x" (.var {} "x"),
      .block {} [.bind {} "x" (.call {} (.var {} "f") [.var {} "x"]), .assign {} "x" (.var {} "x")],
      .attempt {} [.throw {} (.var {} "x")] (some (.mk (some "x") [.eval {} (.var {} "x")])) none,
      .bind {} "g" (.lambda {} ["x"] [.ret {} (some (.var {} "x"))]),
      .yield {} (.var {} "x")]

theorem veiled_references_kept :
    (∀ x ∈ veiled.names, Unmarked x) ∧
      veiled.rename.refs = [⟨"x", some 0⟩, ⟨"f", none⟩, ⟨"x#1", some 1⟩, ⟨"x#2", some 2⟩,
        ⟨"x#2", some 2⟩, ⟨"x#1", some 1⟩, ⟨"x#3", some 3⟩, ⟨"x#4", some 4⟩, ⟨"x#1", some 1⟩] ∧
      veiled.rename.mapNames unmark = veiled ∧ veiled.rename.rename = veiled.rename := by
  have hnames : ∀ x ∈ veiled.names, Unmarked x := by decide +kernel
  obtain ⟨hrefs, hrest⟩ := references_kept veiled hnames
  refine ⟨hnames, ?_, hrest⟩
  rw [hrefs]
  decide +kernel

end Resumable

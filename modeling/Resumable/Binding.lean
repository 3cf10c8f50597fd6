import Resumable.Syntax.Basic

namespace Resumable.Binding

/-- The bindings in sight, innermost first: the name in the source and the name given to it. -/
abbrev Scope := List (String × String)

/-- The source names bound so far, with repetition. -/
abbrev Bound := List String

/-- The name of the next binding of `x`. -/
def fresh (bound : Bound) (x : String) : String :=
  match bound.count x with
  | 0 => x
  | k => x ++ "#" ++ Nat.repr k

/-- The given name of the binding that `x` refers to, or `x` itself when there is none. -/
def resolve (scope : Scope) (x : String) : String :=
  (scope.lookup x).getD x

/-- Bind `x` in the innermost scope. -/
def declare (scope : Scope) (x : String) : StateM Bound (String × Scope) := do
  let bound ← get
  let name := fresh bound x
  set (x :: bound)
  return (name, (x, name) :: scope)

/-- Bind names one after another in one scope. -/
def declareAll (scope : Scope) : List String → StateM Bound (List String × Scope)
  | [] => return ([], scope)
  | x :: xs => do
    let (name, scope) ← declare scope x
    let (names, scope) ← declareAll scope xs
    return (name :: names, scope)

mutual

def renameExpr (scope : Scope) : Expr → StateM Bound Expr
  | .unit m => return .unit m
  | .bool m b => return .bool m b
  | .int m n => return .int m n
  | .str m s => return .str m s
  | .var m x => return .var m (resolve scope x)
  | .binary m op l r => do
    let l ← renameExpr scope l
    let r ← renameExpr scope r
    return .binary m op l r
  | .unary m op e => do
    let e ← renameExpr scope e
    return .unary m op e
  | .call m c es => do
    let c ← renameExpr scope c
    let es ← renameExprs scope es
    return .call m c es
  | .await m e => do
    let e ← renameExpr scope e
    return .await m e
  | .lambda m ps b => do
    let (ps, inner) ← declareAll scope ps
    let b ← renameBlock inner b
    return .lambda m ps b
  | .captured m k => return .captured m k
  | .resume m => return .resume m

def renameExprs (scope : Scope) : List Expr → StateM Bound (List Expr)
  | [] => return []
  | e :: es => do
    let e ← renameExpr scope e
    let es ← renameExprs scope es
    return e :: es

/-- Rename a statement; a binding it makes is in sight of the statements after it. -/
def renameStmt (scope : Scope) : Stmt → StateM Bound (Stmt × Scope)
  | .bind m x e => do
    let e ← renameExpr scope e
    let (x, scope) ← declare scope x
    return (.bind m x e, scope)
  | .assign m x e => do
    let e ← renameExpr scope e
    return (.assign m (resolve scope x) e, scope)
  | .eval m e => do
    let e ← renameExpr scope e
    return (.eval m e, scope)
  | .cond m t a b => do
    let t ← renameExpr scope t
    let a ← renameBlock scope a
    let b ← renameBlock scope b
    return (.cond m t a b, scope)
  | .loop m t b => do
    let t ← renameExpr scope t
    let b ← renameBlock scope b
    return (.loop m t b, scope)
  | .attempt m b c f => do
    let b ← renameBlock scope b
    let c ← renameClause scope c
    let f ← renameCleanup scope f
    return (.attempt m b c f, scope)
  | .yield m e => do
    let e ← renameExpr scope e
    return (.yield m e, scope)
  | .yieldBreak m => return (.yieldBreak m, scope)
  | .ret m none => return (.ret m none, scope)
  | .ret m (some e) => do
    let e ← renameExpr scope e
    return (.ret m (some e), scope)
  | .brk m => return (.brk m, scope)
  | .cont m => return (.cont m, scope)
  | .throw m e => do
    let e ← renameExpr scope e
    return (.throw m e, scope)
  | .block m b => do
    let b ← renameBlock scope b
    return (.block m b, scope)
  | .store m k e => do
    let e ← renameExpr scope e
    return (.store m k e, scope)

/-- Rename a catch clause; its binding is in sight of its body. -/
def renameClause (scope : Scope) : Option Catch → StateM Bound (Option Catch)
  | none => return none
  | some (.mk none b) => do
    let b ← renameBlock scope b
    return some (.mk none b)
  | some (.mk (some x) b) => do
    let (x, inner) ← declare scope x
    let b ← renameBlock inner b
    return some (.mk (some x) b)

def renameCleanup (scope : Scope) : Option (List Stmt) → StateM Bound (Option (List Stmt))
  | none => return none
  | some b => do
    let b ← renameBlock scope b
    return some b

/-- Rename the statements of a block; what it binds is out of sight after it. -/
def renameBlock (scope : Scope) : List Stmt → StateM Bound (List Stmt)
  | [] => return []
  | s :: ss => do
    let (s, scope) ← renameStmt scope s
    let ss ← renameBlock scope ss
    return s :: ss

end

end Resumable.Binding

namespace Resumable

/-- The method with every binding under a name of its own. -/
def Method.rename (m : Method) : Method :=
  let run : StateM Binding.Bound Method := do
    let (params, scope) ← Binding.declareAll [] m.params
    let body ← Binding.renameBlock scope m.body
    return { m with params, body }
  (run []).1

end Resumable

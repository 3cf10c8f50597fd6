import Resumable.Chain.Basic

namespace Resumable.Hoist

/-- One occurrence of a variable. -/
structure Use where
  name : String
  writes : Bool
  deriving DecidableEq, Repr

mutual

/-- The occurrences in an expression, in the order of evaluation. A lambda uses the variables of
the state it is made in. -/
def usesOfExpr : Expr → List Use
  | .var _ x => [⟨x, false⟩]
  | .binary _ _ l r => usesOfExpr l ++ usesOfExpr r
  | .unary _ _ e | .await _ e => usesOfExpr e
  | .call _ c es => usesOfExpr c ++ usesOfExprs es
  | .lambda _ _ b => usesOfBlock b
  | .unit _ | .bool .. | .int .. | .str .. | .captured .. | .resume _ => []

def usesOfExprs : List Expr → List Use
  | [] => []
  | e :: es => usesOfExpr e ++ usesOfExprs es

def usesOfStmt : Stmt → List Use
  | .bind _ x e | .assign _ x e => usesOfExpr e ++ [⟨x, true⟩]
  | .store _ _ e | .eval _ e | .throw _ e | .yield _ e | .ret _ (some e) => usesOfExpr e
  | .cond _ t a b => usesOfExpr t ++ usesOfBlock a ++ usesOfBlock b
  | .loop _ t b => usesOfExpr t ++ usesOfBlock b
  | .attempt _ b c f =>
    usesOfBlock b ++
      (match c with
        | none => []
        | some (.mk x cb) => x.toList.map (⟨·, true⟩) ++ usesOfBlock cb) ++
      (match f with
        | none => []
        | some fb => usesOfBlock fb)
  | .block _ b => usesOfBlock b
  | .ret _ none | .yieldBreak _ | .brk _ | .cont _ => []

def usesOfBlock : List Stmt → List Use
  | [] => []
  | s :: ss => usesOfStmt s ++ usesOfBlock ss

end

def usesOfState (s : State) : List Use :=
  usesOfBlock s.body ++ (s.exit.expr?.elim [] usesOfExpr)

/-- The occurrences in a table of states, each with its state. -/
def usesOfStates (states : List State) : List (StateId × Use) :=
  states.flatMap fun s => (usesOfState s).map (s.id, ·)

/-- Some state other than the first to write `name` touches it. -/
def isShared (uses : List (StateId × Use)) (name : String) : Bool :=
  match uses.find? fun (_, u) => u.writes && u.name == name with
  | none => false
  | some (first, _) => uses.any fun (s, u) => u.name == name && s != first

/-- The names used, in the order of their first use. -/
def names (uses : List (StateId × Use)) : List String :=
  (uses.map (·.2.name)).eraseDups

/-- The slots of a table: parameters first, then names bound by catch clauses, then variables
that states share, in the order of their first use. -/
def manifest (states : List State) (params caught : List String) : Manifest :=
  let uses := usesOfStates states
  let m := (({} : Manifest).insertAll params .parameter).insertAll caught .caught
  m.insertAll ((names uses).filter (isShared uses)) .shared

mutual

def hoistExpr (m : Manifest) : Expr → Expr
  | .var mark x =>
    match m.slotOf? x with
    | some k => .captured mark k
    | none => .var mark x
  | .binary mark op l r => .binary mark op (hoistExpr m l) (hoistExpr m r)
  | .unary mark op e => .unary mark op (hoistExpr m e)
  | .call mark c es => .call mark (hoistExpr m c) (hoistExprs m es)
  | .await mark e => .await mark (hoistExpr m e)
  | .lambda mark ps b => .lambda mark ps (hoistBlock m b)
  | .unit mark => .unit mark
  | .bool mark b => .bool mark b
  | .int mark n => .int mark n
  | .str mark s => .str mark s
  | .captured mark k => .captured mark k
  | .resume mark => .resume mark

def hoistExprs (m : Manifest) : List Expr → List Expr
  | [] => []
  | e :: es => hoistExpr m e :: hoistExprs m es

/-- Writes to a variable with a slot become stores. -/
def hoistStmt (m : Manifest) : Stmt → Stmt
  | .bind mark x e =>
    match m.slotOf? x with
    | some k => .store mark k (hoistExpr m e)
    | none => .bind mark x (hoistExpr m e)
  | .assign mark x e =>
    match m.slotOf? x with
    | some k => .store mark k (hoistExpr m e)
    | none => .assign mark x (hoistExpr m e)
  | .store mark k e => .store mark k (hoistExpr m e)
  | .eval mark e => .eval mark (hoistExpr m e)
  | .throw mark e => .throw mark (hoistExpr m e)
  | .yield mark e => .yield mark (hoistExpr m e)
  | .ret mark none => .ret mark none
  | .ret mark (some e) => .ret mark (some (hoistExpr m e))
  | .cond mark t a b => .cond mark (hoistExpr m t) (hoistBlock m a) (hoistBlock m b)
  | .loop mark t b => .loop mark (hoistExpr m t) (hoistBlock m b)
  | .attempt mark b c f =>
    .attempt mark (hoistBlock m b)
      (match c with
        | none => none
        | some (.mk x cb) => some (.mk x (hoistBlock m cb)))
      (match f with
        | none => none
        | some fb => some (hoistBlock m fb))
  | .block mark b => .block mark (hoistBlock m b)
  | .yieldBreak mark => .yieldBreak mark
  | .brk mark => .brk mark
  | .cont mark => .cont mark

def hoistBlock (m : Manifest) : List Stmt → List Stmt
  | [] => []
  | s :: ss => hoistStmt m s :: hoistBlock m ss

end

def hoistState (m : Manifest) (s : State) : State :=
  { s with body := hoistBlock m s.body, exit := s.exit.mapExpr (hoistExpr m) }

/-- A clause that binds a name delivers the fault to the slot of that name. -/
def hoistHandler (m : Manifest) (h : Handler) : Handler :=
  { h with clause := h.clause.map fun c => { c with slot := c.binding.bind m.slotOf? } }

end Resumable.Hoist

import Resumable.Chain.Basic
import Resumable.Data.Syntax

namespace Resumable

def Kind.toData : Kind → Data
  | .iterator => .str "Iterator"
  | .async => .str "Async"

def Kind.ofData? (d : Data) : Option Kind :=
  match d.variant? with
  | some ("Iterator", x) => Data.bare x .iterator
  | some ("Async", x) => Data.bare x .async
  | _ => none

theorem Kind.ofData?_toData (k : Kind) : Kind.ofData? k.toData = some k := by
  cases k <;> rfl

def Origin.toData : Origin → Data
  | .parameter => .str "Parameter"
  | .caught => .str "CatchBinding"
  | .shared => .str "Local"

def Origin.ofData? (d : Data) : Option Origin :=
  match d.variant? with
  | some ("Parameter", x) => Data.bare x .parameter
  | some ("CatchBinding", x) => Data.bare x .caught
  | some ("Local", x) => Data.bare x .shared
  | _ => none

theorem Origin.ofData?_toData (o : Origin) : Origin.ofData? o.toData = some o := by
  cases o <;> rfl

def Pause.toData : Pause → Data
  | .yield e => .tagged "Yield" e.toData
  | .await e => .tagged "Await" e.toData

def Pause.ofData? (d : Data) : Option Pause :=
  match d.variant? with
  | some ("Yield", some x) => return .yield (← Expr.ofData? x)
  | some ("Await", some x) => return .await (← Expr.ofData? x)
  | _ => none

def Terminator.toData : Terminator → Data
  | .goto t => .tagged "Goto" (.nat t)
  | .branch e a b =>
    .tagged "Branch" (.record [("cond", e.toData), ("then_to", .nat a), ("else_to", .nat b)])
  | .suspend p r => .tagged "Suspend" (.record [("point", p.toData), ("resume", .nat r)])
  | .ret v t =>
    .tagged "Return" (.record [("value", .ofOption Expr.toData v), ("target", .ofOption .nat t)])
  | .enter c t => .tagged "EnterFinally" (.record [("finally", .nat c), ("then", .nat t)])
  | .endCleanup => .str "EndFinally"
  | .complete => .str "Complete"
  | .unreachable => .str "Unreachable"

def Terminator.ofData? (d : Data) : Option Terminator :=
  match d.variant? with
  | some ("EndFinally", x) => Data.bare x .endCleanup
  | some ("Complete", x) => Data.bare x .complete
  | some ("Unreachable", x) => Data.bare x .unreachable
  | some ("Goto", some x) => return .goto (← x.place?)
  | some ("Branch", some x) =>
    match x.case? ["cond", "then_to", "else_to"] with
    | some [some e, some a, some b] => return .branch (← Expr.ofData? e) (← a.place?) (← b.place?)
    | _ => none
  | some ("Suspend", some x) =>
    match x.case? ["point", "resume"] with
    | some [some p, some r] => return .suspend (← Pause.ofData? p) (← r.place?)
    | _ => none
  | some ("Return", some x) =>
    match x.case? ["value", "target"] with
    | some [v, t] => return .ret (← Data.optional Expr.ofData? v) (← Data.optional Data.place? t)
    | _ => none
  | some ("EnterFinally", some x) =>
    match x.case? ["finally", "then"] with
    | some [some c, some t] => return .enter (← c.place?) (← t.place?)
    | _ => none
  | _ => none

def State.toData (s : State) : Data :=
  .record [("id", .nat s.id), ("statements", .list (Stmt.listToData s.body)),
    ("terminator", s.exit.toData), ("handler", .ofOption .nat s.handler)]

def State.ofData? (d : Data) : Option State :=
  match d.structure? ["id", "statements", "terminator", "handler"] with
  | some [some id, some body, some exit, handler] => do
    let id ← id.place?
    let body ← Stmt.listOfData? body
    let exit ← Terminator.ofData? exit
    let handler ← Data.optional Data.place? handler
    return { id, body, exit, handler }
  | _ => none

def Landing.toData (c : Landing) : Data :=
  .record [("entry", .nat c.entry), ("binding", .ofOption .str c.binding),
    ("slot", .ofOption .nat c.slot)]

def Landing.ofData? (d : Data) : Option Landing :=
  match d.structure? ["entry", "binding", "slot"] with
  | some [some entry, binding, slot] => do
    let entry ← entry.place?
    let binding ← Data.optional Data.str? binding
    let slot ← Data.optional Data.place? slot
    return { entry, binding, slot }
  | _ => none

def Handler.toData (h : Handler) : Data :=
  .record [("id", .nat h.id), ("catch", .ofOption Landing.toData h.clause),
    ("finally", .ofOption .nat h.cleanup), ("parent", .ofOption .nat h.parent)]

def Handler.ofData? (d : Data) : Option Handler :=
  match d.structure? ["id", "catch", "finally", "parent"] with
  | some [some id, clause, cleanup, parent] => do
    let id ← id.place?
    let clause ← Data.optional Landing.ofData? clause
    let cleanup ← Data.optional Data.place? cleanup
    let parent ← Data.optional Data.place? parent
    return { id, clause, cleanup, parent }
  | _ => none

def Captured.toData (v : Captured) : Data :=
  .record [("slot", .nat v.slot), ("name", .str v.name), ("origin", v.origin.toData)]

def Captured.ofData? (d : Data) : Option Captured :=
  match d.structure? ["slot", "name", "origin"] with
  | some [some slot, some name, some origin] => do
    let slot ← slot.place?
    let name ← name.str?
    let origin ← Origin.ofData? origin
    return { slot, name, origin }
  | _ => none

def Manifest.toData (m : Manifest) : Data :=
  .record [("vars", .record (m.vars.map fun (name, v) => (name, v.toData)))]

/-- The fields of a record in the order of their names. -/
def Data.sortedFields? : Data → Option (Named Data)
  | .record fields => some (Named.sorted fields)
  | _ => none

def Manifest.ofData? (d : Data) : Option Manifest :=
  match d.structure? ["vars"] with
  | some [some vars] => do
    let fields ← vars.sortedFields?
    let vars ← fields.mapM fun (name, d) => (Captured.ofData? d).map (name, ·)
    return ⟨vars⟩
  | _ => none

def Chain.toData (c : Chain) : Data :=
  .record [("name", .str c.name), ("kind", c.kind.toData),
    ("states", .list (c.states.map State.toData)),
    ("handlers", .list (c.handlers.map Handler.toData)),
    ("captures", c.captures.toData), ("params", .list (c.params.map .nat))]

def Chain.ofData? (d : Data) : Option Chain :=
  match d.structure? ["name", "kind", "states", "handlers", "captures", "params"] with
  | some [some name, some kind, some states, some handlers, some captures, some params] => do
    let name ← name.str?
    let kind ← Kind.ofData? kind
    let states ← (← states.list?).mapM State.ofData?
    let handlers ← (← handlers.list?).mapM Handler.ofData?
    let captures ← Manifest.ofData? captures
    let params ← (← params.list?).mapM Data.place?
    return { name, kind, states, handlers, captures, params }
  | _ => none

/-- Equal chains, where the order of the captured variables does not matter. -/
def Chain.same (c d : Chain) : Bool :=
  c.captures.sameVars d.captures && { c with captures := {} } == { d with captures := {} }

/-- Writing a method and reading it back gives the same method. -/
def Method.survives (m : Method) : Bool :=
  Method.ofData? m.toData == some m

/-- Writing a chain and reading it back gives the same chain. -/
def Chain.survives (c : Chain) : Bool :=
  (Chain.ofData? c.toData).any (·.same c)

end Resumable

import Resumable.Frame
import Resumable.Lost

namespace Resumable

/-- Why an expression has no value. -/
inductive Stop where
  | fault (f : Fault)
  | timeout

/-- Why a statement does not go on to the next one. -/
inductive Exit where
  | stop (s : Stop)
  | brk
  | cont
  | ret (v : Value)

/-- What evaluation changes: the variables in scope, what an await is to receive, the world. -/
structure Activation (σ κ : Type) where
  frame : Frame := .empty
  resumption : Option Outcome := none
  /-- Values that are needed again later. -/
  operands : List Value := []
  world : World σ κ

abbrev EvalM (σ κ : Type) := EStateM Stop (Activation σ κ)

abbrev ExecM (σ κ : Type) := EStateM Exit (Activation σ κ)

/-- An expression inside a statement: when it has no value, the statement stops. -/
def EvalM.lift {σ κ α : Type} (x : EvalM σ κ α) : ExecM σ κ α :=
  EStateM.adaptExcept Exit.stop x

/-- Raise the fault of an outcome. -/
def Outcome.get {σ κ : Type} : Outcome → EvalM σ κ Value
  | .ok v => pure v
  | .error f => throw (.fault f)

/-- The value of an operation on two values. The logical operations are not among them: they may
leave their second operand alone. -/
def BinaryOp.apply (op : BinaryOp) (l r : Value) : Outcome :=
  match op, l, r with
  | .eq, _, _ => .ok (.bool (l.same r))
  | .ne, _, _ => .ok (.bool (!l.same r))
  | .add, .int a, .int b => .ok (.int (a + b))
  | .sub, .int a, .int b => .ok (.int (a - b))
  | .mul, .int a, .int b => .ok (.int (a * b))
  | .div, .int a, .int b => if b = 0 then .error .divisionByZero else .ok (.int (a / b))
  | .rem, .int a, .int b => if b = 0 then .error .divisionByZero else .ok (.int (a % b))
  | .add, .str a, _ => .ok (.str (a ++ r.text))
  | .add, _, .str b => .ok (.str (l.text ++ b))
  | .lt, .int a, .int b => .ok (.bool (a < b))
  | .le, .int a, .int b => .ok (.bool (a ≤ b))
  | .gt, .int a, .int b => .ok (.bool (b < a))
  | .ge, .int a, .int b => .ok (.bool (b ≤ a))
  | .lt, .str a, .str b => .ok (.bool (a < b))
  | .gt, .str a, .str b => .ok (.bool (b < a))
  | _, _, _ =>
    .error (.typeError
      ("cannot apply `" ++ op.text ++ "` to " ++ l.typeName ++ " and " ++ r.typeName))

def UnaryOp.apply (op : UnaryOp) (v : Value) : Outcome :=
  match op, v with
  | .neg, .int n => .ok (.int (-n))
  | .not, .bool b => .ok (.bool !b)
  | _, _ => .error (.typeError ("cannot apply `" ++ op.text ++ "` to " ++ v.typeName))

/-- Conditions must be truth values. -/
def Value.test : Value → Except Fault Bool
  | .bool b => .ok b
  | v => .error (.typeError ("condition must be bool, found " ++ v.typeName))

namespace Eval

variable {σ κ : Type}

def raise {α : Type} (f : Fault) : EvalM σ κ α :=
  throw (.fault f)

/-- Raise an internal fault. -/
def broken {α : Type} (text : String) : EvalM σ κ α := fun a =>
  .error (.fault (.internal text)) { a with world := a.world.defect }

def missingSlot {α : Type} (k : Slot) : EvalM σ κ α :=
  broken ("no storage for slot " ++ Slot.text k)

/-- Write down an access. -/
def note (x : Access) : EvalM σ κ Unit :=
  modify fun a => { a with world := a.world.note x }

/-- Raise the fault of a name that is not in sight. -/
def missing {α : Type} (name : String) : EvalM σ κ α := do
  note (.missed name)
  raise (.undefinedVariable name)

def load (home : StorageId) (k : Slot) : EvalM σ κ Value := do
  note (.read home k)
  match (← get).world.load? home k with
  | some v => return v
  | none => missingSlot k

def store (home : StorageId) (k : Slot) (v : Value) : EvalM σ κ Unit := do
  let a ← get
  match a.world.load? home k with
  | some _ => set { a with world := a.world.store home k v }
  | none => missingSlot k

def readVar (name : String) : EvalM σ κ Value := do
  match (← get).frame.get? name with
  | some v => return v
  | none => missing name

def define (name : String) (v : Value) : EvalM σ κ Unit :=
  modify fun a => { a with frame := a.frame.define name v }

def assign (name : String) (v : Value) : EvalM σ κ Unit := do
  let a ← get
  match a.frame.assign? name v with
  | some frame => set { a with frame }
  | none => missing name

/-- A new closure over the variables in sight. -/
def makeClosure (home : StorageId) (params : List String) (body : Block) : EvalM σ κ Value := do
  let a ← get
  let w := a.world
  set { a with world := { w with closures := w.closures + 1 } }
  return .closure w.closures params body a.frame.snapshot home

/-- What the awaited future brought; it can be received once. -/
def receive : EvalM σ κ Value := do
  let a ← get
  match a.resumption with
  | some o =>
    set { a with resumption := none }
    o.get
  | none => broken "no resumption value"

/-- Evaluate with some values in hand. -/
def keeping {ε α : Type} (vs : List Value) (x : EStateM ε (Activation σ κ) α) :
    EStateM ε (Activation σ κ) α := fun a =>
  let operands := a.operands
  match x { a with operands := vs ++ operands } with
  | .ok r a => .ok r { a with operands }
  | .error e a => .error e { a with operands }

/-- Ask the host. -/
def callHost (host : Host σ κ) (name : String) (args : List Value) : EvalM σ κ Value :=
  fun ⟨frame, resumption, operands, world⟩ =>
    let held := [.values args, .evaluation frame resumption operands]
    match World.holding held (host.call name args) world with
    | .ok o world => o.get { frame, resumption, operands, world }
    | .error _ world => .error .timeout { frame, resumption, operands, world }

/-- Run in a scope of its own, which ends with it in any case. -/
def inScope (x : ExecM σ κ Unit) : ExecM σ κ Unit := fun a =>
  match x { a with frame := a.frame.push } with
  | .ok () b => .ok () { b with frame := b.frame.pop }
  | .error e b => .error e { b with frame := b.frame.pop }

/-- How a jump that has nowhere to go is shown. -/
def Exit.debug (status : FutureId → Status) : Exit → String
  | .brk => "Break"
  | .cont => "Continue"
  | .ret v => "Return(" ++ v.debug status ++ ")"
  | .stop (.fault f) => "Fault(" ++ f.debug status ++ ")"
  | .stop .timeout => "Timeout"

/-- Run the body of a closure. It has its own variables and the storage it was made over, which
lasts at least until the call is over. -/
def enter (host : Host σ κ) (params : List String) (env : List (String × Value))
    (home : StorageId) (args : List Value) (body : ExecM σ κ Unit) : EvalM σ κ Value :=
  fun ⟨frame, resumption, operands, world⟩ =>
    if args.length ≠ params.length then
      .error (.fault (.arity params.length args.length)) { frame, resumption, operands, world }
    else
      let hands := world.hands
      let inner := (Frame.mk [[], env]).defineAll (params.zip args)
      let caller := [.values (env.map (·.2)), .evaluation frame resumption operands]
      let world := (world.grasp (.evaluation inner none [] :: caller)).visit host home
      let world := (world.letGo hands).callOver home
      let world := (world.grasp (.storage home :: caller)).retain home
      match body { frame := inner, world } with
      | .ok () b =>
        let world := (b.world.release home).letGo hands
        .ok .unit { frame, resumption, operands, world }
      | .error e b =>
        let text := Exit.debug b.world.status e
        let world := (b.world.release home).letGo hands
        let a := { frame, resumption, operands, world }
        match e with
        | .ret v => .ok v a
        | .stop s => .error s a
        | .brk | .cont => broken (text ++ " escaped a closure") a

/-- The values that a statement ended with. -/
def Exit.values : Exit → List Value
  | .stop (.fault f) => f.value?.toList
  | .ret v => [v]
  | .stop .timeout | .brk | .cont => []

/-- Continue with `after` when the statement ended by a fault, with the value of the fault. -/
def rescue (x : ExecM σ κ Unit) (after : Value → ExecM σ κ Unit) : ExecM σ κ Unit := fun a =>
  match x a with
  | .error (.stop (.fault f)) b => keeping f.value?.toList (after f.toValue) b
  | r => r

/-- Run `cleanup` whichever way `x` ends, unless steps run out. When `cleanup` itself does not end
normally, that takes the place of how `x` ended. -/
def ensuring (x cleanup : ExecM σ κ Unit) : ExecM σ κ Unit := fun a =>
  match x a with
  | .error (.stop .timeout) b => .error (.stop .timeout) b
  | .ok () b => cleanup b
  | .error e b =>
    match keeping (Exit.values e) cleanup b with
    | .ok () c => .error e c
    | .error e' c => .error e' c

mutual

def evalExpr (host : Host σ κ) (home : StorageId) : (n : Nat) → Expr → EvalM σ κ Value
  | 0, _ => throw .timeout
  | n + 1, e =>
    match e with
    | .unit _ => return .unit
    | .bool _ b => return .bool b
    | .int _ k => return .int k
    | .str _ s => return .str s
    | .var _ x => readVar x
    | .captured _ k => load home k
    | .binary _ .and l r => do
      let b ← evalTest host home n l
      if b then
        let b ← evalTest host home n r
        return .bool b
      else return .bool false
    | .binary _ .or l r => do
      let b ← evalTest host home n l
      if b then return .bool true
      else
        let b ← evalTest host home n r
        return .bool b
    | .binary _ op l r => do
      let l ← evalExpr host home n l
      let r ← keeping [l] (evalExpr host home n r)
      (op.apply l r).get
    | .unary _ op e => do
      let v ← evalExpr host home n e
      (op.apply v).get
    | .call _ (.var _ x) es => do
      match (← get).frame.get? x with
      | none =>
        let args ← evalArgs host home n es
        callHost host x args
      | some v => applyValue host home n v es
    | .call _ c es => do
      let v ← evalExpr host home n c
      applyValue host home n v es
    | .lambda _ ps b => makeClosure home ps b
    | .resume _ => receive
    | .await .. => broken "await reached the evaluator without being lowered"

/-- Evaluate a condition. -/
def evalTest (host : Host σ κ) (home : StorageId) : (n : Nat) → Expr → EvalM σ κ Bool
  | 0, _ => throw .timeout
  | n + 1, e => do
    let v ← evalExpr host home n e
    match v.test with
    | .ok b => return b
    | .error f => raise f

/-- Evaluate arguments from left to right. -/
def evalArgs (host : Host σ κ) (home : StorageId) : (n : Nat) → List Expr → EvalM σ κ (List Value)
  | 0, _ => throw .timeout
  | _ + 1, [] => return []
  | n + 1, e :: es => do
    let v ← evalExpr host home n e
    let vs ← keeping [v] (evalArgs host home n es)
    return v :: vs

/-- Call a value with arguments still to be evaluated; only a closure can be called. -/
def applyValue (host : Host σ κ) (home : StorageId) :
    (n : Nat) → Value → List Expr → EvalM σ κ Value
  | 0, _, _ => throw .timeout
  | n + 1, .closure _ params body env origin, es => do
    let args ← keeping (env.map (·.2)) (evalArgs host home n es)
    enter host params env origin args (execBlock host origin n body)
  | _ + 1, v, _ => raise (.typeError ("cannot call a value of type " ++ v.typeName))

def execStmt (host : Host σ κ) (home : StorageId) : (n : Nat) → Stmt → ExecM σ κ Unit
  | 0, _ => throw (.stop .timeout)
  | n + 1, s =>
    match s with
    | .bind _ x e => do
      let v ← (evalExpr host home n e).lift
      (define x v).lift
    | .assign _ x e => do
      let v ← (evalExpr host home n e).lift
      (assign x v).lift
    | .store _ k e => do
      let v ← (evalExpr host home n e).lift
      (store home k v).lift
    | .eval _ e => do
      let _ ← (evalExpr host home n e).lift
    | .cond _ t a b => do
      let yes ← (evalTest host home n t).lift
      if yes then inScope (execBlock host home n a) else inScope (execBlock host home n b)
    | .loop m t b => do
      let again ← (evalTest host home n t).lift
      if again then
        fun a =>
          match inScope (execBlock host home n b) a with
          | .ok () a | .error .cont a => execStmt host home n (.loop m t b) a
          | .error .brk a => .ok () a
          | .error e a => .error e a
    | .attempt _ b c f =>
      let guarded :=
        match c with
        | none => inScope (execBlock host home n b)
        | some (.mk none cb) =>
          rescue (inScope (execBlock host home n b)) fun _ => inScope (execBlock host home n cb)
        | some (.mk (some x) cb) =>
          rescue (inScope (execBlock host home n b)) fun v => inScope do
            (define x v).lift
            execBlock host home n cb
      match f with
      | none => guarded
      | some fb => ensuring guarded (inScope (execBlock host home n fb))
    | .throw _ e => do
      let v ← (evalExpr host home n e).lift
      throw (.stop (.fault (.thrown v)))
    | .ret _ none => throw (.ret .unit)
    | .ret _ (some e) => do
      let v ← (evalExpr host home n e).lift
      throw (.ret v)
    | .brk _ => throw .brk
    | .cont _ => throw .cont
    | .block _ b => inScope (execBlock host home n b)
    | .yield .. | .yieldBreak _ => (broken "yield outside a lowered state").lift

/-- Run statements one after another. -/
def execBlock (host : Host σ κ) (home : StorageId) : (n : Nat) → List Stmt → ExecM σ κ Unit
  | 0, _ => throw (.stop .timeout)
  | _ + 1, [] => pure ()
  | n + 1, s :: ss => do
    execStmt host home n s
    execBlock host home n ss

end

/-- Run the statements of a state, where no jump has anywhere to go. -/
def execState (host : Host σ κ) (home : StorageId) (n : Nat) (body : Block) : EvalM σ κ Unit :=
  fun a =>
    match execBlock host home n body a with
    | .ok () b => .ok () b
    | .error (.stop s) b => .error s b
    | .error e b => broken (Exit.debug b.world.status e ++ " escaped a state") b

end Eval

end Resumable

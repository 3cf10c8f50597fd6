import Resumable.Enumerator
import Resumable.Task

namespace Resumable

/-- The functions that run tasks. -/
structure Engine (σ κ : Type) where
  settle : FutureId → Outcome → Run σ κ Bool
  deliver : FutureId → Outcome → List (Continuation κ) → Run σ κ Unit
  drive : Machine → FutureId → Run σ κ Unit
  finish : Machine → List Value → FutureId → Outcome → Run σ κ Unit

def Task.engine {σ κ : Type} (host : Host σ κ) (n : Nat) : Engine σ κ :=
  ⟨settle host n, deliver host n, drive host n, finish host n⟩

/-- What is still to be done, up to an answer, with chains of which `P` is true. -/
inductive Program (σ : Type) (P : Chain → Prop) where
  | done (answer : Outcome)
  | consult (k : σ → Program σ P)
  | remember (memory : σ) (k : Program σ P)
  /-- Make a source; its future is pending. -/
  | source (k : FutureId → Program σ P)
  /-- Make a future that is settled from the start. -/
  | ready (o : Outcome) (k : FutureId → Program σ P)
  | look (f : FutureId) (k : Option Outcome → Program σ P)
  | attach (f : FutureId) (callback : Outcome → Program σ P) (k : Option FutureId → Program σ P)
  | settle (f : FutureId) (o : Outcome) (k : Option Bool → Program σ P)
  | newToken (k : TokenId → Program σ P)
  | cancel (t : TokenId) (k : Program σ P)
  | isCancelled (t : TokenId) (k : Bool → Program σ P)
  /-- Make a task, which is known by its future. -/
  | task (chain : { c : Chain // P c }) (args : List Value) (token : Option TokenId)
      (k : Except Fault FutureId → Program σ P)
  | start (f : FutureId) (k : Bool → Program σ P)
  /-- Make an enumerator, which is known by its storage. -/
  | enumerate (chain : { c : Chain // P c }) (args : List Value) (token : Option TokenId)
      (k : Except Fault StorageId → Program σ P)
  | advance (home : StorageId) (k : Option Advance → Program σ P)
  | dispose (home : StorageId) (k : Option (Option Fault) → Program σ P)
  /-- Leave an enumerator where it is, for good. -/
  | abandon (home : StorageId) (k : Bool → Program σ P)

/-- What programs have in common. -/
structure Desk (σ : Type) where
  memory : σ
  /-- The closures that have come from methods. -/
  closures : List Value := []
  /-- The futures that have a source. -/
  sources : List FutureId := []
  /-- The tasks that have not been started. -/
  tasks : List Task := []
  /-- The enumerators that are not being advanced. -/
  enumerators : List (StorageId × Enumerator) := []

/-- A callback is a program, given an outcome. -/
abbrev Callback (σ : Type) (P : Chain → Prop) := Outcome → Program σ P

/-- The functions that methods can call, and what the programs keep at hand. -/
structure Library (σ : Type) (P : Chain → Prop) where
  call : String → List Value → Program σ P
  keeps : Desk σ → List (Holding (Callback σ P))

def Value.closure? : Value → Option Nat
  | .closure id .. => some id
  | _ => none

def Fault.mapValue (g : Value → Value) : Fault → Fault
  | .thrown v => .thrown (g v)
  | .notAwaitable v => .notAwaitable (g v)
  | f => f

namespace Outcome

def mapValue (g : Value → Value) : Outcome → Outcome
  | .ok v => .ok (g v)
  | .error f => .error (f.mapValue g)

def values : Outcome → List Value
  | .ok v => [v]
  | .error f => f.value?.toList

end Outcome

def Advance.values : Advance → List Value
  | .yielded v => [v]
  | .fault f => f.value?.toList
  | .done | .exhausted => []

def Enumerator.withToken (e : Enumerator) (token : Option TokenId) : Enumerator :=
  { e with machine := e.machine.map fun m => { m with token } }

namespace World

variable {σ κ : Type}

/-- A value as a program may name it: a future that exists, or a closure that has come from a
method. There is nothing else that it could mean. -/
def allow (w : World (Desk σ) κ) : Value → Value
  | .closure id .. => (w.ext.closures.find? (·.closure? == some id)).getD .unit
  | .future f => if f < w.futures.size then .future f else .unit
  | v => v

/-- Programs come to know the closures among some values. -/
def learn (w : World (Desk σ) κ) (vs : List Value) : World (Desk σ) κ :=
  { w with ext := { w.ext with closures := vs.filter (·.closure?.isSome) ++ w.ext.closures } }

def putTask (w : World (Desk σ) κ) (t : Task) : World (Desk σ) κ :=
  { w with ext := { w.ext with tasks := t :: w.ext.tasks } }

/-- Make a task and put it on the desk. -/
def newTask (w : World (Desk σ) κ) (chain : Chain) (args : List Value) (token : Option TokenId) :
    Except Fault FutureId × World (Desk σ) κ :=
  match Task.create chain (args.map w.allow) w with
  | .error f => (.error f, w)
  | .ok (t, w) => (.ok t.result, w.putTask { t with machine := { t.machine with token } })

/-- Take a task from the desk. -/
def takeTask? (w : World (Desk σ) κ) (f : FutureId) : Option (Task × World (Desk σ) κ) := do
  let t ← w.ext.tasks.find? (·.result == f)
  return (t, { w with ext := { w.ext with tasks := w.ext.tasks.eraseP (·.result == f) } })

def putEnumerator (w : World (Desk σ) κ) (home : StorageId) (e : Enumerator) :
    World (Desk σ) κ :=
  { w with ext := { w.ext with enumerators := (home, e) :: w.ext.enumerators } }

/-- Make an enumerator and put it on the desk. -/
def newEnumerator (w : World (Desk σ) κ) (chain : Chain) (args : List Value)
    (token : Option TokenId) : Except Fault StorageId × World (Desk σ) κ :=
  match Enumerator.create chain (args.map w.allow) w with
  | .error f => (.error f, w)
  | .ok (e, w') =>
    (.ok w.storages.size, w'.putEnumerator w.storages.size (e.withToken token))

/-- Take an enumerator from the desk. -/
def takeEnumerator? (w : World (Desk σ) κ) (home : StorageId) :
    Option (Enumerator × World (Desk σ) κ) := do
  let (_, e) ← w.ext.enumerators.find? (·.1 == home)
  return (e, { w with ext := { w.ext with
    enumerators := w.ext.enumerators.eraseP (·.1 == home) } })

end World

/-! What can be done at the desk. Nothing happens if what is named is not there. -/

namespace Desk

variable {σ κ : Type} (host : Host (Desk σ) κ) (engine : Engine (Desk σ) κ)

/-- Attach a callback to a future that exists. -/
def attach (f : FutureId) (callback : κ) : Run (Desk σ) κ (Option FutureId) := do
  if f < (← get).futures.size then some <$> host.continueWith engine.settle f callback
  else return none

/-- Settle a future that has a source. -/
def settle (f : FutureId) (o : Outcome) : Run (Desk σ) κ (Option Bool) := do
  let w ← get
  if f ∈ w.ext.sources then some <$> engine.settle f (o.mapValue w.allow) else return none

/-- Start a task that has not been started. -/
def start (f : FutureId) : Run (Desk σ) κ Bool := do
  match (← get).takeTask? f with
  | none => return false
  | some (t, w) =>
    set w
    engine.drive t.machine t.result
    return true

/-- Use an enumerator that is not in use. -/
def use {α : Type} (home : StorageId) (x : Enumerator → Run (Desk σ) κ (α × Enumerator))
    (values : α → List Value) : Run (Desk σ) κ (Option α) := do
  match (← get).takeEnumerator? home with
  | none => return none
  | some (e, w) =>
    set w
    let (a, e) ← x e
    modify fun w => (World.putEnumerator w home e).learn (values a)
    return some a

def abandon (home : StorageId) : Run (Desk σ) κ Bool := do
  match (← get).takeEnumerator? home with
  | none => return false
  | some (e, w) =>
    set (e.machine.elim w (w.release ·.home))
    return true

end Desk

/-- A way to carry out programs: where they find their memory, and how tasks are run for them. -/
structure Practice (σ τ κ : Type) where
  view : τ → σ
  keep : σ → τ → τ
  engine : Host (Desk τ) κ → Nat → Engine (Desk τ) κ

def Practice.plain {σ κ : Type} : Practice σ σ κ where
  view := id
  keep memory _ := memory
  engine := Task.engine

/-- The desk as programs see it. -/
def Desk.map {σ τ : Type} (view : τ → σ) (desk : Desk τ) : Desk σ where
  memory := view desk.memory
  closures := desk.closures
  sources := desk.sources
  tasks := desk.tasks
  enumerators := desk.enumerators

namespace Program

variable {σ τ : Type} {P : Chain → Prop}

/-- Carry out the program. -/
def serve (practice : Practice σ τ (Callback σ P)) (host : Host (Desk τ) (Callback σ P)) (n : Nat) :
    Program σ P → Run (Desk τ) (Callback σ P) Outcome
  | .done o => do
    return o.mapValue (← get).allow
  | .consult k => do
    modify (·.record .host)
    (k (practice.view (← get).ext.memory)).serve practice host n
  | .remember memory k => do
    modify fun w => { w.record .host with
      ext := { w.ext with memory := practice.keep memory w.ext.memory } }
    k.serve practice host n
  | .source k => do
    modify (·.record .host)
    let (f, w) := (← get).addFuture none
    set { w with ext := { w.ext with sources := f :: w.ext.sources } }
    (k f).serve practice host n
  | .ready o k => do
    modify (·.record .host)
    let w ← get
    let (f, w) := w.addFuture (some (o.mapValue w.allow))
    set w
    (k f).serve practice host n
  | .look f k => do
    modify (·.record .host)
    let o := (← get).outcome? f
    modify (·.learn (o.toList.flatMap Outcome.values))
    (k o).serve practice host n
  | .attach f callback k => do
    modify (·.record .host)
    (k (← Desk.attach host (practice.engine host n) f callback)).serve practice host n
  | .settle f o k => do
    modify (·.record .host)
    (k (← Desk.settle (practice.engine host n) f o)).serve practice host n
  | .newToken k => do
    modify (·.record .host)
    let (t, w) := (← get).addToken
    set w
    (k t).serve practice host n
  | .cancel t k => do
    modify fun w => (w.record .host).cancel t
    k.serve practice host n
  | .isCancelled t k => do
    modify (·.record .host)
    (k ((← get).isCancelled t)).serve practice host n
  | .task chain args token k => do
    modify (·.record .host)
    let (r, w) := (← get).newTask chain.1 args token
    set w
    (k r).serve practice host n
  | .start f k => do
    modify (·.record .host)
    (k (← Desk.start (practice.engine host n) f)).serve practice host n
  | .enumerate chain args token k => do
    modify (·.record .host)
    let (r, w) := (← get).newEnumerator chain.1 args token
    set w
    (k r).serve practice host n
  | .advance home k => do
    modify (·.record .host)
    (k (← Desk.use home (·.advance host n) Advance.values)).serve practice host n
  | .dispose home k => do
    modify (·.record .host)
    let f ← Desk.use home (·.dispose host n) (·.toList.flatMap (·.value?.toList))
    (k f).serve practice host n
  | .abandon home k => do
    modify (·.record .host)
    (k (← Desk.abandon home)).serve practice host n

/-- Do what the program says. -/
def run (host : Host (Desk σ) (Callback σ P)) (n : Nat) (p : Program σ P) :
    Run (Desk σ) (Callback σ P) Outcome :=
  p.serve .plain host n

end Program

namespace Library

variable {σ τ : Type} {P : Chain → Prop}

/-- Functions and callbacks are programs, nested no deeper than `n`. -/
def served (practice : Practice σ τ (Callback σ P)) (library : Library σ P) :
    (n : Nat) → Host (Desk τ) (Callback σ P)
  | 0 =>
    { call := fun _ _ => throw ⟨⟩
      callback := fun _ _ => throw ⟨⟩
      keeps := fun desk => library.keeps (desk.map practice.view) }
  | n + 1 =>
    { call := fun name args => do
        modify (·.learn args)
        (library.call name args).serve practice (library.served practice n) n
      callback := fun callback o => do
        modify (·.learn o.values)
        (callback o).serve practice (library.served practice n) n
      keeps := fun desk => library.keeps (desk.map practice.view) }

/-- The functions and callbacks, carried out plainly. -/
def host (library : Library σ P) : Nat → Host (Desk σ) (Callback σ P) :=
  library.served .plain

/-- All that a program does, from the beginning. -/
def perform (library : Library σ P) (memory : σ) (p : Program σ P) (n : Nat) :
    EStateM.Result Timeout (World (Desk σ) (Callback σ P)) Outcome :=
  p.run (library.host n) n { ext := { memory } }

/-- The world that a program leaves, at its end or where steps run out. -/
def leaves (library : Library σ P) (memory : σ) (p : Program σ P) (n : Nat) :
    World (Desk σ) (Callback σ P) :=
  match library.perform memory p n with
  | .ok _ w | .error _ w => w

end Library

/-- A library whose functions all answer unit. -/
def silentLibrary (P : Chain → Prop) : Library Unit P where
  call := fun _ _ => .done (.ok .unit)
  keeps := fun _ => []

/-- An enumerator is advanced twice and disposed of. -/
def Program.twice {P : Chain → Prop} (c : { c : Chain // P c }) (args : List Value) :
    Program Unit P :=
  .enumerate c args none fun
    | .error _ => .done (.ok .unit)
    | .ok home => .advance home fun _ => .advance home fun _ => .dispose home fun _ =>
      .done (.ok .unit)

end Resumable

import Resumable.Chain.Basic
import Resumable.Fault
import Resumable.Frame

namespace Resumable

/-- What happens when a cleanup ends: control goes on, or the fault it was entered with goes on. -/
inductive Aftermath where
  | goOn (target : StateId)
  | rethrow (f : Fault)

/-- A chain on its way: where it stands and what it holds. -/
structure Machine where
  chain : Chain
  /-- The storage of the hoisted variables. -/
  home : StorageId
  current : StateId := Chain.entry
  /-- The cleanups now entered, each with what comes after it. -/
  pending : List (StateId × Aftermath) := []
  /-- What the next state receives in place of its await. -/
  resumption : Option Outcome := none
  /-- The value of the last return. -/
  result : Value := .unit
  token : Option TokenId := none

/-- What waits on a future: a suspended method, whose own future is `result`, or a callback, whose
answer settles `next`. -/
inductive Continuation (κ : Type) where
  | resume (machine : Machine) (result : FutureId)
  | callback (key : κ) (next : FutureId)

/-- A future: its outcome once it is settled, and until then who waits, in order. -/
structure FutureCell (κ : Type) where
  outcome : Option Outcome := none
  waiting : List (Continuation κ) := []

/-- The hoisted variables of a method. They last as long as someone holds the storage: the
running method, or a call of one of its closures. -/
structure StorageCell where
  slots : List Value
  holders : Nat
  /-- The future that the method waited on last. -/
  waitsOn : Option FutureId := none

/-- Something that a computation under way has in hand. -/
inductive Holding (κ : Type) where
  | values (vs : List Value)
  | outcome (o : Outcome)
  | future (f : FutureId)
  | storage (home : StorageId)
  | machine (m : Machine)
  /-- Continuations that waited on a future, now settled, and are to run next. -/
  | waiting (f : FutureId) (ks : List (Continuation κ))
  /-- What an evaluation has: its variables, what an await is to receive, operands. -/
  | evaluation (frame : Frame) (resumption : Option Outcome) (operands : List Value)

/-- What a method does to one of its variables. -/
inductive Access where
  | wrote (home : StorageId) (k : Slot)
  | read (home : StorageId) (k : Slot)
  /-- No variable of this name was in sight. -/
  | missed (name : String)

/-- What happens to a task, which is known by its future. -/
inductive Happening where
  /-- It runs, from the start or with what it has received. -/
  | runs (task : FutureId) (received : Option Outcome)
  | waits (task : FutureId) (on : FutureId)
  /-- Its future has been settled; `fresh` if nobody had settled it before. -/
  | ends (task : FutureId) (fresh : Bool)
  /-- The host does something. -/
  | host

/-- What happens, with the futures and hands at that time. -/
structure Instant (κ : Type) where
  happening : Happening
  futures : Array (FutureCell κ)
  hands : List (Holding κ)

structure World (σ κ : Type) where
  futures : Array (FutureCell κ) := #[]
  storages : Array StorageCell := #[]
  /-- For each token, whether it is cancelled. -/
  tokens : Array Bool := #[]
  /-- The number of closures made so far. -/
  closures : Nat := 0
  /-- How many internal faults have been raised so far. -/
  defects : Nat := 0
  /-- How many closures have been called so far whose storage was gone. -/
  strays : Nat := 0
  /-- How many methods have been found so far, by a call of one of their closures, to be given up
  while they waited. -/
  forsaken : Nat := 0
  /-- What has been done to hoisted variables so far and which names were missed, the last first. -/
  accesses : List Access := []
  /-- What has happened to tasks so far, the last first. -/
  history : List (Instant κ) := []
  /-- What the computations under way have in hand, innermost first. -/
  hands : List (Holding κ) := []
  ext : σ

/-- The given steps did not suffice. -/
structure Timeout where

/-- Computations on the world. They end, or run out of steps. -/
abbrev Run (σ κ : Type) := EStateM Timeout (World σ κ)

/-- The functions that methods can call, the meaning of callbacks, and what the host keeps. -/
structure Host (σ κ : Type) where
  call : String → List Value → Run σ κ Outcome
  callback : κ → Outcome → Run σ κ Outcome
  keeps : σ → List (Holding κ)

namespace World

variable {σ κ : Type}

/-! Hands. -/

/-- Take something in hand. -/
def grasp (w : World σ κ) (held : List (Holding κ)) : World σ κ :=
  { w with hands := held ++ w.hands }

/-- Have in hand what was there before, and nothing else. -/
def letGo (w : World σ κ) (before : List (Holding κ)) : World σ κ :=
  { w with hands := before }

/-- Compute with something in hand. -/
def holding {α : Type} (held : List (Holding κ)) (x : Run σ κ α) : Run σ κ α := fun w =>
  let hands := w.hands
  match x (w.grasp held) with
  | .ok a w => .ok a (w.letGo hands)
  | .error e w => .error e (w.letGo hands)

/-! History. -/

/-- Write down what happens. -/
def record (w : World σ κ) (x : Happening) : World σ κ :=
  { w with history := ⟨x, w.futures, w.hands⟩ :: w.history }

/-! Futures. -/

def addFuture (w : World σ κ) (outcome : Option Outcome) : FutureId × World σ κ :=
  (w.futures.size, { w with futures := w.futures.push { outcome } })

def outcome? (w : World σ κ) (f : FutureId) : Option Outcome :=
  w.futures[f]?.bind (·.outcome)

def status (w : World σ κ) (f : FutureId) : Status :=
  match w.outcome? f with
  | none => .pending
  | some (.ok _) => .succeeded
  | some (.error _) => .faulted

/-- Let a continuation wait, after those that wait already. -/
def await (w : World σ κ) (f : FutureId) (k : Continuation κ) : World σ κ :=
  { w with futures := w.futures.modify f fun c => { c with waiting := c.waiting ++ [k] } }

/-- Let a method wait; its storage remembers where. -/
def suspend (w : World σ κ) (f : FutureId) (m : Machine) (result : FutureId) : World σ κ :=
  let w := w.await f (.resume m result)
  { w with storages := w.storages.modify m.home fun c => { c with waitsOn := some f } }

/-- Give a pending future its outcome, and hand over who waited. A settled future is left as it
is. -/
def settle? (w : World σ κ) (f : FutureId) (o : Outcome) :
    Option (List (Continuation κ) × World σ κ) :=
  match w.futures[f]? with
  | some { outcome := none, waiting } =>
    some (waiting, { w with futures := w.futures.modify f fun _ => { outcome := some o } })
  | _ => none

theorem outcome?_addFuture (w : World σ κ) (o : Option Outcome) :
    (w.addFuture o).2.outcome? (w.addFuture o).1 = o := by
  simp [addFuture, outcome?]

theorem outcome?_addFuture_of_lt (w : World σ κ) (o : Option Outcome) {f : FutureId}
    (h : f < w.futures.size) : (w.addFuture o).2.outcome? f = w.outcome? f := by
  simp [addFuture, outcome?, Array.getElem?_push, Nat.ne_of_lt h]

theorem settle?_eq_none_of_settled (w : World σ κ) {f : FutureId} {o : Outcome} (o' : Outcome)
    (h : w.outcome? f = some o) : w.settle? f o' = none := by
  unfold settle?
  split
  · next waiting hf => simp [outcome?, hf] at h
  · rfl

/-! Storages. -/

def addStorage (w : World σ κ) (slots : List Value) : StorageId × World σ κ :=
  (w.storages.size, { w with storages := w.storages.push { slots, holders := 1 } })

def load? (w : World σ κ) (home : StorageId) (k : Slot) : Option Value :=
  w.storages[home]?.bind (·.slots[k]?)

/-- Write down an access. -/
def note (w : World σ κ) (x : Access) : World σ κ :=
  { w with accesses := x :: w.accesses }

/-- Some slots have been set from outside. -/
def given (w : World σ κ) (home : StorageId) (ks : List Slot) : World σ κ :=
  { w with accesses := ks.map (.wrote home) ++ w.accesses }

/-- Set a slot; one that does not exist stays away. -/
def store (w : World σ κ) (home : StorageId) (k : Slot) (v : Value) : World σ κ :=
  { w with
    storages := w.storages.modify home fun c => { c with slots := c.slots.set k v }
    accesses := .wrote home k :: w.accesses }

/-- One more holder. -/
def retain (w : World σ κ) (home : StorageId) : World σ κ :=
  { w with storages := w.storages.modify home fun c => { c with holders := c.holders + 1 } }

/-- One holder less; without holders the slots are gone. -/
def release (w : World σ κ) (home : StorageId) : World σ κ :=
  { w with storages := w.storages.modify home fun c =>
      if c.holders ≤ 1 then { slots := [], holders := 0 }
      else { c with holders := c.holders - 1 } }

/-- No holder is left: the method has been given up. -/
def abandon (w : World σ κ) (home : StorageId) : World σ κ :=
  { w with
    storages := w.storages.modify home fun _ => { slots := [], holders := 0 }
    forsaken := w.forsaken + 1 }

/-- Someone holds the storage. -/
def isAlive (w : World σ κ) (home : StorageId) : Bool :=
  w.storages[home]?.any (0 < ·.holders)

/-! Faults and calls that nothing should lead to, counted. -/

/-- An internal fault is raised. -/
def defect (w : World σ κ) : World σ κ :=
  { w with defects := w.defects + 1 }

/-- A closure over `home` is called; it has gone astray if its storage is gone. -/
def callOver (w : World σ κ) (home : StorageId) : World σ κ :=
  if w.isAlive home then w else { w with strays := w.strays + 1 }

/-! Tokens. -/

def addToken (w : World σ κ) : TokenId × World σ κ :=
  (w.tokens.size, { w with tokens := w.tokens.push false })

def cancel (w : World σ κ) (t : TokenId) : World σ κ :=
  { w with tokens := w.tokens.setIfInBounds t true }

def isCancelled (w : World σ κ) (t : TokenId) : Bool :=
  w.tokens[t]? == some true

end World

end Resumable

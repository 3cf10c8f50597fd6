import Resumable.Marks
import Resumable.World

namespace Resumable

mutual

/-- The futures in a value; a closure has those of its variables. -/
def Value.futures : Value → List FutureId
  | .future f => [f]
  | .closure _ _ _ env _ => Value.futuresIn env
  | .unit | .bool _ | .int _ | .str _ => []

def Value.futuresIn : List (String × Value) → List FutureId
  | [] => []
  | (_, v) :: rest => v.futures ++ Value.futuresIn rest

end

def Fault.futures (f : Fault) : List FutureId :=
  f.value?.toList.flatMap (·.futures)

def Outcome.futures : Outcome → List FutureId
  | .ok v => v.futures
  | .error f => f.futures

def Aftermath.futures : Aftermath → List FutureId
  | .goOn _ => []
  | .rethrow f => f.futures

namespace World

variable {σ κ : Type}

/-- The futures in the slots of a storage. -/
def stored (w : World σ κ) (home : StorageId) : List FutureId :=
  match w.storages[home]? with
  | none => []
  | some c => c.slots.flatMap (·.futures)

/-- The futures that a method on its way holds. -/
def ofMachine (w : World σ κ) (m : Machine) : List FutureId :=
  w.stored m.home ++ m.pending.flatMap (·.2.futures) ++ m.resumption.toList.flatMap (·.futures) ++
    m.result.futures

def ofContinuation (w : World σ κ) : Continuation κ → List FutureId
  | .resume m result => result :: w.ofMachine m
  | .callback _ next => [next]

/-- The futures that a future holds. -/
def ofCell (w : World σ κ) (c : FutureCell κ) : List FutureId :=
  c.outcome.toList.flatMap (·.futures) ++ c.waiting.flatMap w.ofContinuation

def ofHolding (w : World σ κ) : Holding κ → List FutureId
  | .values vs => vs.flatMap (·.futures)
  | .outcome o => o.futures
  | .future f => [f]
  | .storage home => w.stored home
  | .machine m => w.ofMachine m
  | .waiting _ ks => ks.flatMap w.ofContinuation
  | .evaluation frame resumption operands =>
    frame.values.flatMap (·.futures) ++ resumption.toList.flatMap (·.futures) ++
      operands.flatMap (·.futures)

/-- The futures in the hands of computations and of the host. -/
def inHand (host : Host σ κ) (w : World σ κ) : List FutureId :=
  (w.hands ++ host.keeps w.ext).flatMap w.ofHolding

/-- Strike futures that are neither in hand nor held by one not struck, again and again. -/
def strike (inHand : List FutureId) (holds : List (List FutureId)) : Nat → Marks → Marks
  | 0, marks => marks
  | n + 1, marks =>
    let held := (holds.zip marks.toList).flatMap fun (fs, marked) => if marked then fs else []
    let next := Marks.ofList holds.length (inHand ++ held)
    if next == marks then marks else strike inHand holds n next

/-- The futures that are held. Every round but the last strikes at least one. -/
def held (host : Host σ κ) (w : World σ κ) : Marks :=
  let size := w.futures.size
  strike (w.inHand host) (w.futures.toList.map w.ofCell) (size + 1) (Array.replicate size true)

/-- Nothing is left of a storage but a method given up: it waits on a pending future that nobody
holds, and no call of a closure is under way. -/
def isLost (host : Host σ κ) (w : World σ κ) (home : StorageId) : Bool :=
  match w.storages[home]? with
  | some { holders, waitsOn := some f, .. } =>
    holders ≤ 1 && (w.outcome? f).isNone && !(w.held host).has f
  | _ => false

/-- The world as a closure over a storage finds it, without the storage if that is lost. -/
def visit (host : Host σ κ) (w : World σ κ) (home : StorageId) : World σ κ :=
  if w.isLost host home then w.abandon home else w

end World

end Resumable

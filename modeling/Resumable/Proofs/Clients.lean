import Resumable.Proofs.Steps
import Resumable.Task

namespace Resumable.Delivery

/-- What is still to be done with futures, up to an answer. -/
inductive Client where
  | done (answer : Outcome)
  /-- Make a source; its future is pending. -/
  | source (k : FutureId → Client)
  /-- Make a future that is settled from the start. -/
  | ready (o : Outcome) (k : FutureId → Client)
  | look (f : FutureId) (k : Option Outcome → Client)
  | attach (f : FutureId) (callback : Outcome → Client) (k : FutureId → Client)
  | settle (f : FutureId) (o : Outcome) (k : Bool → Client)

/-- What happens. A callback is known by the future for its answer. -/
inductive Event where
  | made (f : FutureId) (o : Option Outcome)
  | attaches (f a : FutureId)
  | attached (a : FutureId)
  | settles (f : FutureId) (o : Outcome)
  | settled (f : FutureId) (fresh : Bool)
  | runs (a : FutureId) (o : Outcome)
  | answers (a : FutureId) (o : Outcome)

/-- A callback, with the future for its answer. -/
abbrev Key := (Outcome → Client) × FutureId

abbrev Futures := Array (FutureCell Key)

/-- An event, and the futures just before it. -/
structure Moment where
  event : Event
  futures : Futures

abbrev Log := List Moment

/-- How a future came about. -/
inductive Birth where
  | source | ready | attached
  deriving DecidableEq

def Event.birth? (f : FutureId) : Event → Option Birth
  | .made g none => if g = f then some .source else none
  | .made g (some _) => if g = f then some .ready else none
  | .attaches _ g => if g = f then some .attached else none
  | _ => none

def birth (log : Log) (f : FutureId) : Option Birth :=
  log.findSome? (·.event.birth? f)

/-- Write down what happens next. -/
def note (e : Event) (w : World Log Key) : World Log Key :=
  { w with ext := w.ext ++ [⟨e, w.futures⟩] }

/-- Do what the client says. It can attach to futures that exist and settle those that have a
source; if it names another one, it ends. -/
def Client.run (host : Host Log Key) (n : Nat) : Client → Run Log Key Outcome
  | .done o => return o
  | .source k => do
    let (f, w) := (note (.made (← get).futures.size none) (← get)).addFuture none
    set w
    (k f).run host n
  | .ready o k => do
    let (f, w) := (note (.made (← get).futures.size (some o)) (← get)).addFuture (some o)
    set w
    (k f).run host n
  | .look f k => do
    (k ((← get).outcome? f)).run host n
  | .attach f callback k => do
    let next := (← get).futures.size
    if f < next then
      modify (note (.attaches f next))
      let a ← Task.continueWith host n f (callback, next)
      modify (note (.attached a))
      (k a).run host n
    else return .error .notSettled
  | .settle f o k => do
    if birth (← get).ext f = some .source then
      modify (note (.settles f o))
      let fresh ← Task.settle host n f o
      modify (note (.settled f fresh))
      (k fresh).run host n
    else return .error .notSettled

/-- Callbacks are clients, nested no deeper than `n`. -/
def host : (n : Nat) → Host Log Key
  | 0 =>
    { call := fun _ _ => throw ⟨⟩
      callback := fun _ _ => throw ⟨⟩
      keeps := fun _ => [] }
  | n + 1 =>
    { call := fun _ _ => throw ⟨⟩
      callback := fun (callback, a) o => do
        modify (note (.runs a o))
        let answer ← (callback o).run (host n) n
        modify (note (.answers a answer))
        return answer
      keeps := fun _ => [] }

/-- All that a client does, from the beginning. -/
def Client.perform (c : Client) (n : Nat) : EStateM.Result Timeout (World Log Key) Outcome :=
  c.run (host n) n { ext := [] }

end Resumable.Delivery

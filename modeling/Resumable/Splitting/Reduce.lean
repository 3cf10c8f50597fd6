import Resumable.Chain.Basic
import Resumable.Marks

namespace Resumable.Reduce

/-- The state does nothing but finish. -/
def onlyCompletes (states : List State) (s : StateId) : Bool :=
  states[s]?.any fun state => state.body.isEmpty && state.exit.isComplete

/-- Let returns finish at once where their target would only finish. -/
def finishReturns (states : List State) : List State :=
  states.map fun state =>
    match state.exit with
    | .ret v (some t) =>
      if onlyCompletes states t then { state with exit := .ret v none } else state
    | _ => state

/-- The handlers that cover a state, innermost first. -/
def covering (handlers : List Handler) (state : State) : List Handler :=
  Handler.outward handlers handlers.length state.handler

/-- Where control can get from a state: to its successors, and by a fault or a disposal to the
clauses and cleanups that cover it. -/
def next (states : List State) (handlers : List Handler) (s : StateId) : List StateId :=
  match states[s]? with
  | none => []
  | some state =>
    state.exit.successors ++ (covering handlers state).flatMap fun h =>
      h.clause.toList.map (·.entry) ++ h.cleanup.toList

/-- The nodes of `left` that can be reached from those in `work`. Every call finds one of them
and takes it out, so that `n` calls are enough for `n` nodes. -/
def gather (next : Nat → List Nat) : Nat → (left work : List Nat) → List Nat
  | 0, _, _ => []
  | n + 1, left, work =>
    match work.dropWhile (!left.contains ·) with
    | [] => []
    | s :: rest => s :: gather next n (left.erase s) (next s ++ rest)

/-- The states that can be reached from the entry. -/
def liveStates (states : List State) (handlers : List Handler) : List StateId :=
  gather (next states handlers) states.length (List.range states.length) [Chain.entry]

/-- For each place, how many flags before it are set. -/
def ranks (start : Nat) : List Bool → List Nat
  | [] => []
  | b :: bs => start :: ranks (if b then start + 1 else start) bs

/-- The new number of an old one; a number without a flag keeps its value. -/
def rank (marks : Marks) (places : Array Nat) (i : Nat) : Nat :=
  if marks.has i then places[i]?.getD i else i

/-- Keep the states that can be reached and the handlers that cover them. -/
def livePart (states : List State) (handlers : List Handler) : List State × List Handler :=
  let live := liveStates states handlers
  let covered := live.flatMap fun s =>
    (states[s]?.toList.flatMap (covering handlers)).map (·.id)
  let stateFlags := Marks.ofList states.length live
  let handlerFlags := Marks.ofList handlers.length covered
  let mapState := rank stateFlags (ranks 0 stateFlags.toList).toArray
  let mapHandler := rank handlerFlags (ranks 0 handlerFlags.toList).toArray
  let keptStates := states.filter fun s => stateFlags.has s.id
  let keptHandlers := handlers.filter fun h => handlerFlags.has h.id
  (keptStates.map fun s =>
    { s with id := mapState s.id, exit := s.exit.mapStates mapState,
             handler := s.handler.map mapHandler },
   keptHandlers.map fun h =>
    { h with id := mapHandler h.id, cleanup := h.cleanup.map mapState,
             parent := h.parent.map mapHandler,
             clause := h.clause.map fun c => { c with entry := mapState c.entry } })

end Resumable.Reduce

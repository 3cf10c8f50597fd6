import Resumable.Binding
import Resumable.Splitting.Body
import Resumable.Splitting.Reduce
import Resumable.Splitting.Hoist

namespace Resumable

/-- How many states a chain may have when nothing else is said. -/
def defaultLimit : Nat := 4096

/-- The chain of a method, under the names its bindings have been given. -/
def Method.toChain (m : Method) (kind : Kind) (limit : Nat) : Except SplitError Chain := do
  let draft ← Splitting.splitBody kind m.body
  let (states, handlers) := Reduce.livePart (Reduce.finishReturns draft.states) draft.handlers
  if states.length > limit then
    .error (.tooManyStates m.name states.length limit)
  else
    let captures := Hoist.manifest states m.params draft.caught
    return {
      name := m.name
      kind
      states := states.map (Hoist.hoistState captures)
      handlers := handlers.map (Hoist.hoistHandler captures)
      captures
      params := m.params.filterMap captures.slotOf?
    }

/-- Split a method into states. A method that never pauses is left alone. -/
def Method.split (m : Method) (limit : Nat) : Except SplitError (Option Chain) := do
  let census := Stmt.censusIn m.body
  if census.pauses then
    match ← census.kind m.name with
    | none => return none
    | some kind => some <$> m.rename.toChain kind limit
  else return none

end Resumable

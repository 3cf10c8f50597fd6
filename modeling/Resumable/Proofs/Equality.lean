import Mathlib.Data.List.Nodup
import Resumable.Machine

namespace Resumable

mutual

def Value.equal : Value → Value → Bool
  | .unit, .unit => true
  | .bool b, .bool b' => b == b'
  | .int n, .int n' => n == n'
  | .str s, .str s' => s == s'
  | .closure i ps b env home, .closure i' ps' b' env' home' =>
    i == i' && ps == ps' && b == b' && Value.equalIn env env' && home == home'
  | .future f, .future f' => f == f'
  | _, _ => false

def Value.equalIn : List (String × Value) → List (String × Value) → Bool
  | [], [] => true
  | (x, v) :: env, (x', v') :: env' => x == x' && v.equal v' && Value.equalIn env env'
  | _, _ => false

end

mutual

theorem Value.equal_iff : (a b : Value) → (a.equal b = true ↔ a = b)
  | .unit, b | .bool _, b | .int _, b | .str _, b | .future _, b => by
    cases b <;> simp [Value.equal]
  | .closure _ _ _ env _, b => by
    cases b <;> simp [Value.equal, Value.equalIn_iff env, and_assoc]

theorem Value.equalIn_iff : (as bs : List (String × Value)) → (Value.equalIn as bs = true ↔ as = bs)
  | [], bs => by cases bs <;> simp [Value.equalIn]
  | (_, v) :: as, bs => by
    cases bs <;> simp [Value.equalIn, Value.equal_iff v, Value.equalIn_iff as, Prod.ext_iff]

end

instance : DecidableEq Value := fun a b => decidable_of_iff _ (Value.equal_iff a b)

deriving instance DecidableEq for Fault, Aftermath, Machine, Halt, Continuation, FutureCell,
  StorageCell, Frame, Holding, Access, Happening, Instant, World, Timeout

instance Result.decEq [DecidableEq ε] [DecidableEq τ] [DecidableEq α] :
    DecidableEq (EStateM.Result ε τ α)
  | .ok a s, .ok a' s' => decidable_of_iff (a = a' ∧ s = s') (by simp)
  | .error e s, .error e' s' => decidable_of_iff (e = e' ∧ s = s') (by simp)
  | .ok .., .error .. | .error .., .ok .. => isFalse (by simp)

end Resumable

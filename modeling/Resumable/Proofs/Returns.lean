import Resumable.Proofs.Cleanup
import Resumable.Proofs.Upholding

namespace Resumable

open List

/-- What a step means for the way out of a method. -/
inductive Turn where
  /-- A return sets out. -/
  | returns (v : Option Value)
  /-- Control goes into a cleanup or comes out of one. -/
  | passes
  | ends
  /-- Control goes on inside of the method. -/
  | stays
  /-- A handler takes a fault. -/
  | diverted

def Departure.turn : Departure → Turn
  | .ret v _ => .returns v
  | .enter .. | .endCleanup => .passes
  | .complete => .ends
  | .goto _ | .yielded .. | .awaiting .. => .stays

/-- The way out of a method so far. -/
structure WayOut where
  /-- The return that is under way: control has only passed cleanups since. -/
  under : Option (Option Value) := none
  /-- The values of the returns that were given up, the last one first. -/
  givenUp : List Value := []

namespace WayOut

/-- The values of all returns, the last one first. -/
def values (way : WayOut) : List Value :=
  way.under.join.toList ++ way.givenUp

def turn (way : WayOut) : Turn → WayOut
  | .returns v => { under := some v, givenUp := way.values }
  | .passes | .ends => way
  | .stays | .diverted => { under := none, givenUp := way.values }

/-- The value of the last return that had one. -/
def last (way : WayOut) : Value :=
  way.values.head?.getD .unit

theorem last_eq (way : WayOut) :
    way.last = way.under.join.getD (way.givenUp.head?.getD .unit) := by
  unfold last values
  cases way.under.join <;> rfl

/-- A value takes the place of the last one, and without a value the last one stays. -/
theorem last_returns (way : WayOut) (v : Option Value) :
    (way.turn (.returns v)).last = v.getD way.last := by
  cases v <;> rfl

end WayOut

/-- After the way so far, the machine keeps the value of the last return, or ends with it. -/
def Move.Keeps (way : WayOut) : Move → Prop
  | .next m | .yielded _ m | .awaiting _ m | .fault _ m => m.result = way.last
  | .completed v _ => v = way.last
  | .timeout => True

def Halt.Keeps (way : WayOut) : Halt → Prop
  | .yielded _ m | .awaiting _ m => m.result = way.last
  | .completed v _ => v = way.last
  | .fault .. | .timeout => True

section

variable {σ κ : Type}

namespace Machine

/-- What the terminator of the current state decides, if control gets there. -/
def departure? (host : Host σ κ) (n : Nat) (m : Machine) (w : World σ κ) : Option Departure :=
  m.chain.states[m.current]?.bind fun st =>
    if !m.inCleanup st && m.isCancelled w then none
    else
      match execute host m.home n st
          { resumption := m.resumption, world := w.grasp [.machine m.idle] } with
      | .ok d _ => some d
      | .error .. => none

/-- Whether a handler takes a fault of the current state. -/
def diverted? (host : Host σ κ) (n : Nat) (m : Machine) (w : World σ κ) : Option Turn :=
  match m.step host n w with
  | (.fault f m', w') => (m'.handle f w').map fun _ => .diverted
  | _ => none

end Machine

/-- The turns of one step. -/
def Moment.turn (host : Host σ κ) (x : Moment σ κ) : List Turn :=
  (x.machine.departure? host x.left x.world).toList.map Departure.turn ++
    (x.machine.diverted? host x.left x.world).toList

/-- The turns of a run. -/
def Moment.turns (host : Host σ κ) (x : Moment σ κ) : List Turn :=
  x.machine.along (turn host) host x.left x.world

namespace Machine

theorem depart_keeps {m : Machine} {way : WayOut} (hm : m.result = way.last) {s : StateId}
    {d : Departure} {move : Move} (h : m.depart? s d = some move) :
    Move.Keeps (way.turn d.turn) move := by
  cases d with
  | goto t | yielded v t | awaiting f t => cases h; exact hm
  | ret v t =>
    cases t with
    | none =>
      cases h
      show v.getD m.result = _
      rw [hm]
      exact (way.last_returns v).symm
    | some t =>
      cases h
      show v.getD m.result = _
      rw [hm]
      exact (way.last_returns v).symm
  | enter c t => cases h; exact hm
  | endCleanup =>
    obtain ⟨a, -, rfl⟩ := Option.map_eq_some_iff.mp h
    cases a <;> exact hm
  | complete => cases h; exact hm

/-- One step keeps the value of the last return. -/
theorem step_keeps {m : Machine} {way : WayOut} (hm : m.result = way.last) (host : Host σ κ)
    (n : Nat) (w : World σ κ) :
    Move.Keeps (((m.departure? host n w).toList.map Departure.turn).foldl WayOut.turn way)
      (m.step host n w).1 := by
  cases hst : m.chain.states[m.current]? with
  | none =>
    rw [departure?, step, hst]
    exact hm
  | some st =>
    rw [departure?, step_eq hst, hst, Option.bind_some]
    split
    · exact hm
    · cases execute host m.home n st
        { resumption := m.resumption, world := w.grasp [.machine m.idle] } with
      | ok d a =>
        simp only [Option.toList_some, map_cons, map_nil, foldl_cons, foldl_nil]
        cases hd : m.idle.depart? st.id d with
        | some move => exact depart_keeps (m := m.idle) hm hd
        | none =>
          -- only the end of a cleanup can have nowhere to go
          cases d with
          | endCleanup => exact hm
          | ret v t => cases t <;> cases hd
          | _ => cases hd
      | error e a =>
        cases e with
        | fault f => exact hm
        | timeout => trivial

theorem handle_result {m m' : Machine} {f : Fault} {w w' : World σ κ}
    (h : m.handle f w = some (m', w')) : m'.result = m.result := by
  unfold handle at h
  split at h
  · cases h
  · cases h
    rfl
  · cases h
    rfl

/-- So does a run, by induction on its steps. -/
theorem turns_keeps (host : Host σ κ) (n : Nat) {m : Machine} {way : WayOut}
    (hm : m.result = way.last) (w : World σ κ) :
    Halt.Keeps ((Moment.turns host ⟨n, m, w⟩).foldl WayOut.turn way) (m.run host n w).1 := by
  induction n generalizing m way w with
  | zero => trivial
  | succ n ih =>
    have hs := step_keeps hm host n w
    -- what the step keeps, the rest of the run keeps
    have hrest : ∀ {m' w'}, m.onward host n w = some (m', w') →
        m'.result = ((Moment.turn host ⟨n, m, w⟩).foldl WayOut.turn way).last →
        Halt.Keeps ((Moment.turns host ⟨n + 1, m, w⟩).foldl WayOut.turn way)
          (m.run host (n + 1) w).1 := by
      intro m' w' honward hm'
      rw [run_onward honward, Moment.turns, along_onward _ honward, foldl_append]
      exact ih hm' w'
    rcases hstep : m.step host n w with ⟨move, w'⟩
    rw [hstep] at hs
    cases move with
    | next m' =>
      refine hrest (onward_next hstep) ?_
      rw [Moment.turn, diverted?, hstep, Option.toList_none, append_nil]
      exact hs
    | fault f m' =>
      cases hh : m'.handle f w' with
      | none =>
        rw [run, hstep]
        simp only [hh]
        trivial
      | some r =>
        refine hrest ((onward_fault hstep).trans hh) ?_
        simp only [Moment.turn, diverted?, hstep, hh, Option.map_some, Option.toList_some,
          foldl_append, foldl_cons, foldl_nil]
        rw [handle_result hh]
        exact hs
    | yielded v m' | awaiting f m' | completed v m' | timeout =>
      have hlast : m.onward host n w = none := by rw [onward, hstep]
      rw [Moment.turns, along_last _ hlast, Moment.turn, diverted?, hstep, run, hstep,
        Option.toList_none, append_nil]
      exact hs

end Machine

/-- The way out of a method that has taken these rounds. -/
def WayOut.of (host : Host σ κ) (xs : List (Moment σ κ)) : WayOut :=
  (xs.flatMap (Moment.turns host)).foldl WayOut.turn {}

/-- So does a task that is driven on. -/
theorem Task.Course.keeps {host : Host σ κ} {start m : Machine} {xs : List (Moment σ κ)}
    (h : Task.Course host start xs m) (hm : start.result = .unit) :
    m.result = (WayOut.of host xs).last := by
  induction h with
  | start => exact hm
  | @resumed xs m m' n w w' f _ hrun o ih =>
    have hk := Machine.turns_keeps host n ih w
    rw [hrun] at hk
    rw [WayOut.of, flatMap_append, flatMap_singleton, foldl_append]
    exact hk

end

/-- A task that ends by a return with a value settles with it. If it ends without one, it settles
with the value of the last return that was given up, and so with unit if there was none. That value
is then the outcome of its future, if nobody has settled it before. -/
theorem settled_value {σ κ : Type} {c : Chain} {args : List Value} {w w' : World σ κ} {t : Task}
    (h : Task.create c args w = .ok (t, w')) (host : Host σ κ) (token : Option TokenId)
    {xs : List (Moment σ κ)} {m m' : Machine} {n : Nat} {w₁ w₂ : World σ κ} {v : Value}
    (hc : Task.Course host { t.machine with token } xs m)
    (hrun : m.run host n w₁ = (.completed v m', w₂)) :
    let way := WayOut.of host (xs ++ [⟨n, m, w₁⟩])
    v = way.under.join.getD (way.givenUp.head?.getD .unit) ∧
      ∀ r u, w₁ = (Task.noteRun r m u).grasp [.future r] → host.Faithful → 2 ≤ n →
        r < w₂.futures.size → w₂.outcome? r = none →
        (lastly (Task.drive host (n + 1) m r u)).outcome? r = some (.ok v) := by
  obtain ⟨⟨m₀, w₀⟩, hm₀, ht⟩ := Splitting.bind_eq_ok h
  cases ht
  obtain ⟨-, -, rfl, -⟩ := Machine.create_ok hm₀
  refine ⟨?_, ?_⟩
  · have hk := Machine.turns_keeps host n (hc.keeps rfl) w₁
    rw [hrun, WayOut.of, ← foldl_append] at hk
    rw [← WayOut.last_eq, WayOut.of, flatMap_append, flatMap_singleton]
    exact hk
  · rintro r u rfl hh hn hr hp
    obtain ⟨k, rfl⟩ : ∃ k, n = k + 2 := ⟨n - 2, by omega⟩
    rw [Task.drive_succ hrun]
    exact Task.finish_settles hh (w := w₂.letGo u.hands) hr hp k m' [] (.ok v)

/-- After an await, a return whose cleanup faults inside of a block that takes the fault. -/
def abandonedReturn (cleanup : Block) : Method :=
  { name := "m", params := ["f"],
    body :=
      [.eval {} (.await {} (.var {} "f")),
        .attempt {} [.attempt {} [.ret {} (some (.int {} 5))] none (some cleanup)]
          (some (.mk none [])) none] }

def abandonedChain (cleanup : Block) : Chain :=
  { name := "m", kind := .async,
    states :=
      [{ id := 0, exit := .suspend (.await (.captured {} 0)) 2 }, { id := 1, exit := .complete },
        { id := 2, body := [.eval {} (.resume {})], exit := .goto 4 },
        { id := 3, exit := .complete }, { id := 4, exit := .goto 6, handler := some 0 },
        { id := 5, body := cleanup, exit := .endCleanup, handler := some 0 },
        { id := 6, exit := .ret (some (.int {} 5)) (some 7), handler := some 1 },
        { id := 7, exit := .enter 5 1, handler := some 0 }, { id := 8, exit := .goto 3 }],
    handlers :=
      [{ id := 0, clause := some { entry := 8 } },
        { id := 1, cleanup := some 5, parent := some 0 }],
    captures := ⟨[("f", { slot := 0, name := "f", origin := .parameter })]⟩,
    params := [0] }

/-- Its argument is settled. -/
def settledWorld : World Unit Unit :=
  { futures := #[{ outcome := some (.ok .unit) }], ext := () }

/-- If the cleanup ends, the method ends by the return. -/
theorem settled_value_completed :
    let start : Machine := { chain := abandonedChain [.eval {} (.int {} 2)], home := 0 }
    let resumed : Machine := { start with current := 2, resumption := some (.ok .unit) }
    let world : World Unit Unit :=
      (((settledWorld.addStorage [.future 0]).2.given 0 [0]).addFuture none).2
    let last : Moment Unit Unit := ⟨20, resumed, (Task.noteRun 1 resumed world).grasp [.future 1]⟩
    let way := WayOut.of silentHost ([] ++ [⟨20, start, world⟩] ++ [last])
    way.under = some (some (.int 5)) ∧
      way.under.join.getD (way.givenUp.head?.getD .unit) = .int 5 ∧
      (lastly (Task.drive silentHost 21 resumed 1 world)).outcome? 1 = some (.ok (.int 5)) := by
  intro start resumed world last way
  have hcreate : Task.create start.chain [.future 0] settledWorld = .ok (⟨start, 1⟩, world) := by
    with_unfolding_all rfl
  have hfirst : ∃ w, start.run silentHost 20 world = (.awaiting 0 { start with current := 2 }, w) :=
    ⟨_, by with_unfolding_all rfl⟩
  let after := (last.machine.run silentHost last.left last.world).2
  have hlast : last.machine.run silentHost last.left last.world =
      (.completed (.int 5) { start with current := 1 }, after) := by decide +kernel
  obtain ⟨_, hfirst⟩ := hfirst
  have hfaithful : silentHost.Faithful := ⟨fun _ _ _ _ _ h => h, fun _ _ _ _ _ h => h⟩
  have hvalue := settled_value hcreate silentHost none (.resumed .start hfirst (.ok .unit)) hlast
  exact ⟨by with_unfolding_all rfl, hvalue.1.symm, hvalue.2 1 world rfl hfaithful (by decide)
    (by decide +kernel) (by decide +kernel)⟩

/-- If the cleanup faults, the block around it takes the fault and the method ends without a return.
The task settles with the value all the same. Without the await in front, the same statements are
evaluated to their end and return nothing. -/
theorem abandonedReturn_settles :
    (abandonedReturn [.throw {} (.str {} "boom")]).split 20 =
        .ok (some (abandonedChain [.throw {} (.str {} "boom")])) ∧
      (∃ w, Task.start silentHost 30 (abandonedChain [.throw {} (.str {} "boom")]) [.future 0]
          settledWorld = .ok 1 w ∧ w.outcome? 1 = some (.ok (.int 5))) ∧
      ∃ a, Eval.execBlock silentHost 0 20
        ((abandonedReturn [.throw {} (.str {} "boom")]).body.drop 1) { world := settledWorld } =
          .ok () a := by
  let faulting := abandonedChain [.throw {} (.str {} "boom")]
  let after := lastly (Task.start silentHost 30 faulting [.future 0] settledWorld)
  exact ⟨by decide +kernel, ⟨after, by decide +kernel, by decide +kernel⟩, _,
    by with_unfolding_all rfl⟩

end Resumable

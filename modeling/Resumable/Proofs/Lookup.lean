import Resumable.Proofs.Derivation

namespace Resumable

open List

namespace Draft

section

variable (d : Draft)

theorem getElem?_setExit (s i : Nat) (t : Terminator) :
    (d.setExit s t).states[i]? =
      if s = i then d.states[i]?.map fun st => { st with exit := t } else d.states[i]? := by
  by_cases h : s = i <;> simp [setExit, h]

theorem getElem?_push (s : Stmt) (i : Nat) :
    (d.push s).states[i]? = if d.current = i
      then d.states[i]?.map fun st => { st with body := st.body ++ [s] } else d.states[i]? := by
  by_cases h : d.current = i <;> simp [push, h]

theorem getElem?_createIn (h : Option HandlerId) (i : Nat) :
    (d.createIn h).2.states[i]? =
      if i = d.nextId then some { id := d.nextId, handler := h } else d.states[i]? := by
  unfold createIn nextId
  rw [getElem?_append]
  split
  · rw [if_neg (by omega)]
  · rename_i hi
    by_cases he : i = d.states.length
    · simp [he]
    · simp [he, getElem?_eq_none (Nat.le_of_not_lt hi),
        show i - d.states.length ≠ 0 by omega]

theorem getElem?_extend (k : Nat) (i : Nat) :
    (d.extend k).states[i]? = if d.nextId ≤ i ∧ i < d.nextId + k
      then some { id := i, handler := d.handler } else d.states[i]? := by
  unfold extend nextId
  rw [getElem?_append]
  split
  · rw [if_neg (by omega)]
  · rename_i hi
    by_cases he : i < d.states.length + k
    · rw [if_pos (by omega), getElem?_map, getElem?_range (by omega)]
      simp [show d.states.length + (i - d.states.length) = i by omega]
    · rw [if_neg (by omega), getElem?_eq_none (by simp; omega),
        getElem?_eq_none (Nat.le_of_not_lt hi)]

theorem getElem?_moveOn (k : Nat) (t : Terminator) (i : Nat)
    (hd : d.current < d.nextId) :
    (d.moveOn k t).states[i]? =
      if i = d.current then d.states[i]?.map fun st => { st with exit := t }
      else if d.nextId ≤ i ∧ i < d.nextId + k then some { id := i, handler := d.handler }
      else d.states[i]? := by
  have hs : (d.moveOn k t).states[i]? = ((d.extend k).setExit d.current t).states[i]? := rfl
  rw [hs, getElem?_setExit, getElem?_extend]
  by_cases hi : i = d.current
  · rw [if_pos hi.symm, if_pos hi, if_neg]
    intro h
    exact absurd (hi ▸ h.1) (Nat.not_le_of_lt hd)
  · rw [if_neg (Ne.symm hi), if_neg hi]

@[simp] theorem nextId_moveOn (k : Nat) (t : Terminator) :
    (d.moveOn k t).nextId = d.nextId + k := by
  simp [moveOn, extend, close, setExit, switchTo, nextId]

theorem pause_eq (p : Pause) : d.pause p = d.moveOn 1 (.suspend p d.nextId) := by
  simp [pause, moveOn, Splitting.create_eq]

theorem leave_eq (t : Terminator) (hd : d.current < d.nextId) : d.leave t = d.moveOn 1 t := by
  have hs : (d.states ++ [({ id := d.states.length, handler := d.handler } : State)]).modify
      d.current (fun st => { st with exit := t }) =
      d.states.modify d.current (fun st => { st with exit := t }) ++
        [{ id := d.states.length, handler := d.handler }] := by
    apply ext_getElem?
    intro i
    simp only [getElem?_modify, getElem?_append, length_modify]
    by_cases hi : i < d.states.length
    · simp [hi]
    · have hne : d.current ≠ i := fun he => hi (he ▸ hd)
      simp [hi, hne]
  simp [leave, moveOn, create, createIn, extend, close, setExit, switchTo, nextId, hs]

end

/-- The states outside `first, ..., last - 1` that those states lead to. -/
def outsideExits (d : Draft) (first last : Nat) : List StateId :=
  ((((d.states.drop first).take (last - first)).flatMap (·.exit.exits)).filter
    fun s => !(first ≤ s && s < last)).eraseDups

/-- Where `route` sends an exit. -/
def redirect (d : Draft) (first last : Nat) (s : StateId) : StateId :=
  if first ≤ s && s < last then s
  else ((d.outsideExits first last).idxOf? s).elim s (d.nextId + ·)

theorem states_route (d : Draft) (first last cleanup : Nat) :
    (d.route first last cleanup).states =
      (d.states.mapIdx fun i s => if first ≤ i && i < last
        then { s with exit := s.exit.mapExits (d.redirect first last) } else s) ++
      (d.outsideExits first last).mapIdx fun i t =>
        ({ id := d.nextId + i, exit := .enter cleanup t, handler := d.handler } : State) := rfl

theorem getElem?_route (d : Draft) (first last cleanup i : Nat) :
    (d.route first last cleanup).states[i]? =
      if i < d.nextId then
        if first ≤ i ∧ i < last then
          d.states[i]?.map fun st => { st with exit := st.exit.mapExits (d.redirect first last) }
        else d.states[i]?
      else (d.outsideExits first last)[i - d.nextId]?.map fun t =>
        { id := i, exit := .enter cleanup t, handler := d.handler } := by
  rw [states_route, getElem?_append, length_mapIdx, getElem?_mapIdx, getElem?_mapIdx]
  unfold nextId
  by_cases hi : i < d.states.length
  · by_cases hin : first ≤ i ∧ i < last
    · simp [hi, hin]
    · simp [hi, hin]
  · simp [hi, show d.states.length + (i - d.states.length) = i by omega]

end Draft

namespace Splitting

open Draft

/-! Guarded blocks. -/

theorem getElem?_openBlock (d : Draft) (k : Nat) (cleanup : Option StateId) (i : Nat)
    (hd : d.current < d.nextId) :
    (openBlock k cleanup d).states[i]? =
      if i = d.current then d.states[i]?.map fun st => { st with exit := .goto (d.nextId + k) }
      else if d.nextId ≤ i ∧ i < d.nextId + k then some { id := i, handler := d.handler }
      else if i = d.nextId + k then some { id := i, handler := some d.handlers.length }
      else d.states[i]? := by
  have hs : (openBlock k cleanup d).states[i]? =
      ((((d.extend k).addHandler cleanup d.handler).2.createIn
        (some d.handlers.length)).2.setExit d.current (.goto (d.extend k).nextId)).states[i]? :=
    rfl
  have hn : (((d.extend k).addHandler cleanup d.handler).2).nextId = d.nextId + k :=
    nextId_extend d k
  have hx : (((d.extend k).addHandler cleanup d.handler).2).states = (d.extend k).states := rfl
  rw [hs, getElem?_setExit, getElem?_createIn, hn, hx, getElem?_extend, nextId_extend]
  by_cases hi : i = d.current
  · subst hi
    rw [if_pos rfl, if_pos rfl, if_neg (by unfold StateId at *; omega),
      if_neg (by unfold StateId at *; omega)]
  · rw [if_neg (Ne.symm hi), if_neg hi]
    by_cases he : i = d.nextId + k
    · rw [if_pos he, if_neg (by omega), if_pos he, he]
    · rw [if_neg he, if_neg he]

section

variable (k : Nat) (cleanup : Option StateId) (d : Draft)

@[simp] theorem nextId_openBlock : (openBlock k cleanup d).nextId = d.nextId + k + 1 := by
  simp [openBlock, openGuard, createIn, addHandler, extend, close, setExit, switchTo, setHandler,
    nextId, Nat.add_assoc]

theorem handlers_openBlock :
    (openBlock k cleanup d).handlers =
      d.handlers ++ [{ id := d.handlers.length, cleanup, parent := d.handler }] := rfl

theorem handler_openBlock :
    (openBlock k cleanup d).handler = some d.handlers.length := rfl

theorem current_openBlock : (openBlock k cleanup d).current = d.nextId + k :=
  nextId_extend d k

end

/-- The handler of the states of a clause: one of its own if there is a cleanup. -/
def around (cleanup : Option StateId) (outer : Option HandlerId) (d : Draft) : Option HandlerId :=
  if cleanup.isSome then some d.handlers.length else outer

/-- The handlers once the clause is to be split. -/
def clauseHandlers (g : HandlerId) (x : Option String) (cleanup : Option StateId)
    (outer : Option HandlerId) (d : Draft) : List Handler :=
  (d.handlers ++ cleanup.toList.map fun c =>
    ({ id := d.handlers.length, cleanup := some c, parent := outer } : Handler)).modify g
      fun h => { h with clause := some { entry := d.nextId, binding := x } }

section

variable (g : HandlerId) (x : Option String) (cleanup : Option StateId) (outer : Option HandlerId)
  (d : Draft)

theorem openClause_eq : openClause g x cleanup outer d =
      { states := (d.createIn (around cleanup outer d)).2.states
        handlers := clauseHandlers g x cleanup outer d
        current := d.nextId
        handler := around cleanup outer d
        caught := d.caught ++ x.toList } := by
  cases cleanup <;>
    simp [openClause, around, clauseHandlers, createIn, addHandler, setClause, Draft.setHandler,
      Draft.switchTo, nextId]

theorem length_clauseHandlers :
    (clauseHandlers g x cleanup outer d).length = d.handlers.length + cleanup.toList.length := by
  simp [clauseHandlers]

theorem current_openClause : (openClause g x cleanup outer d).current = d.nextId := by
  rw [openClause_eq]

theorem nextId_openClause : (openClause g x cleanup outer d).nextId = d.nextId + 1 := by
  rw [openClause_eq]
  exact nextId_createIn ..

end

/-- The cleanup of a guarded block is in its state, and the exits of the block are still as they
were. -/
def fillState (d : Draft) (cleanup : Block) (d' : Draft) : Draft :=
  (cleanup.foldl Draft.push ((d'.setHandler d.handler).switchTo (d.nextId + 1))).close .endCleanup

theorem closeCleaned_eq (d : Draft) (cleanup : Block) (d' : Draft) :
    closeCleaned d cleanup d' = ((fillState d cleanup d').route (d.nextId + 2) d'.nextId
      (d.nextId + 1)).switchTo d.nextId := rfl

theorem foldl_push_eq (ss : Block) (d : Draft) : ss.foldl Draft.push d =
    { d with states := d.states.modify d.current fun st => { st with body := st.body ++ ss } } := by
  induction ss generalizing d with
  | nil =>
    have hid : (fun st : State => { st with body := st.body ++ [] }) = id := by
      funext st
      simp
    rw [hid, modify_id]
    rfl
  | cons s ss ih =>
    rw [foldl_cons, ih]
    simp [Draft.push, modify_modify_eq, Function.comp_def]

section

variable (d : Draft) (cleanup : Block)

theorem getElem?_fillState (d' : Draft) (i : Nat) :
    (fillState d cleanup d').states[i]? = if i = d.nextId + 1
      then d'.states[i]?.map fun st => { st with body := st.body ++ cleanup, exit := .endCleanup }
      else d'.states[i]? := by
  rw [fillState, foldl_push_eq]
  by_cases hi : d.nextId + 1 = i
  · simp [Draft.close, setExit, Draft.setHandler, Draft.switchTo, hi, Function.comp_def]
  · simp [Draft.close, setExit, Draft.setHandler, Draft.switchTo, hi, Ne.symm hi]

@[simp] theorem nextId_fillState (d' : Draft) : (fillState d cleanup d').nextId = d'.nextId := by
  simp [fillState, foldl_push_eq, Draft.close, setExit, Draft.setHandler, Draft.switchTo, nextId]

theorem current_fillState (d' : Draft) : (fillState d cleanup d').current = d.nextId + 1 := by
  rw [fillState, foldl_push_eq]
  rfl

theorem handler_closeCleaned (e : Draft) : (closeCleaned d cleanup e).handler = d.handler := by
  have hs : (closeCleaned d cleanup e).handler = (fillState d cleanup e).handler := rfl
  rw [hs, fillState, foldl_push_eq]
  rfl

end

/-! The end of a block: the open state goes on to some other. -/

section

variable (d : Draft) (x : StateId)

theorem handler_flowTo : (d.flowTo x).handler = d.handler := by
  unfold Draft.flowTo
  split <;> rfl

theorem handlers_flowTo : (d.flowTo x).handlers = d.handlers := by
  unfold Draft.flowTo
  split <;> rfl

theorem caught_flowTo : (d.flowTo x).caught = d.caught := by
  unfold Draft.flowTo
  split <;> rfl

theorem current_flowTo : (d.flowTo x).current = d.current := by
  unfold Draft.flowTo
  split <;> rfl

theorem nextId_flowTo : (d.flowTo x).nextId = d.nextId := by
  unfold Draft.flowTo
  split
  · exact nextId_setExit ..
  · rfl

end

end Splitting

open Splitting Draft

/-! Numbers. -/

/-- States and handlers know their places, and a handler lies inside of an earlier one. -/
structure Numbered (states : List State) (handlers : List Handler) : Prop where
  state : ∀ (i : Nat) st, states[i]? = some st → st.id = i
  handler : ∀ (i : Nat) h, handlers[i]? = some h → h.id = i
  parent : ∀ (i : Nat) h, handlers[i]? = some h → ∀ p ∈ h.parent, p < i

namespace Numbered

variable {d d' : Draft}

section

variable (h : Numbered d.states d.handlers)
include h

/-- A state that comes from an old one, or is new and right. -/
theorem of_states (hh : d'.handlers = d.handlers)
    (hs : ∀ (i : Nat) st, d'.states[i]? = some st →
      (∃ old, d.states[i]? = some old ∧ st.id = old.id) ∨ st.id = i) :
    Numbered d'.states d'.handlers := by
  refine ⟨?_, hh ▸ h.handler, hh ▸ h.parent⟩
  intro i st hst
  rcases hs i st hst with ⟨old, ho, he⟩ | he
  · rw [he, h.state i old ho]
  · exact he

theorem setExit (s : Nat) (t : Terminator) :
    Numbered (d.setExit s t).states (d.setExit s t).handlers := by
  refine h.of_states rfl ?_
  intro i st hst
  rw [getElem?_setExit] at hst
  split at hst
  · obtain ⟨old, ho, rfl⟩ := Option.map_eq_some_iff.mp hst
    exact .inl ⟨old, ho, rfl⟩
  · exact .inl ⟨st, hst, rfl⟩

theorem push (s : Stmt) : Numbered (d.push s).states (d.push s).handlers := by
  refine h.of_states rfl ?_
  intro i st hst
  rw [getElem?_push] at hst
  split at hst
  · obtain ⟨old, ho, rfl⟩ := Option.map_eq_some_iff.mp hst
    exact .inl ⟨old, ho, rfl⟩
  · exact .inl ⟨st, hst, rfl⟩

theorem createIn (o : Option HandlerId) :
    Numbered (d.createIn o).2.states (d.createIn o).2.handlers := by
  refine h.of_states rfl ?_
  intro i st hst
  rw [getElem?_createIn] at hst
  split at hst
  · rename_i hi
    cases hst
    exact .inr hi.symm
  · exact .inl ⟨st, hst, rfl⟩

theorem extend (k : Nat) : Numbered (d.extend k).states (d.extend k).handlers := by
  refine h.of_states rfl ?_
  intro i st hst
  rw [getElem?_extend] at hst
  split at hst
  · cases hst
    exact .inr rfl
  · exact .inl ⟨st, hst, rfl⟩

theorem route (first last cleanup : Nat) :
    Numbered (d.route first last cleanup).states (d.route first last cleanup).handlers := by
  refine h.of_states rfl ?_
  intro i st hst
  rw [getElem?_route] at hst
  split at hst
  · split at hst
    · obtain ⟨old, ho, rfl⟩ := Option.map_eq_some_iff.mp hst
      exact .inl ⟨old, ho, rfl⟩
    · exact .inl ⟨st, hst, rfl⟩
  · obtain ⟨t, -, rfl⟩ := Option.map_eq_some_iff.mp hst
    exact .inr rfl

theorem addHandler (cleanup : Option StateId)
    {parent : Option HandlerId} (hp : ∀ p ∈ parent, p < d.handlers.length) :
    Numbered (d.addHandler cleanup parent).2.states (d.addHandler cleanup parent).2.handlers := by
  have hnew : ∀ (i : Nat) (x : Handler), (d.addHandler cleanup parent).2.handlers[i]? = some x →
      d.handlers[i]? = some x ∨ i = d.handlers.length ∧ x = { id := i, cleanup, parent } := by
    intro i x hx
    simp only [Draft.addHandler, getElem?_append] at hx
    split at hx
    · exact .inl hx
    · obtain ⟨hi, rfl⟩ := List.getElem?_eq_some_iff.mp hx
      simp only [length_singleton] at hi
      obtain rfl : i = d.handlers.length := by omega
      exact .inr ⟨rfl, by simp⟩
  refine ⟨h.state, ?_, ?_⟩
  · intro i x hx
    rcases hnew i x hx with hx | ⟨-, rfl⟩
    · exact h.handler i x hx
    · rfl
  · intro i x hx
    rcases hnew i x hx with hx | ⟨rfl, rfl⟩
    · exact h.parent i x hx
    · exact hp

theorem setClause (g : HandlerId) (c : Option Landing) :
    Numbered (d.setClause g c).states (d.setClause g c).handlers := by
  have hold : ∀ (i : Nat) (x : Handler), (d.setClause g c).handlers[i]? = some x →
      ∃ old, d.handlers[i]? = some old ∧ x.id = old.id ∧ x.parent = old.parent := by
    intro i x hx
    simp only [Draft.setClause, getElem?_modify] at hx
    obtain ⟨old, ho, rfl⟩ := Option.map_eq_some_iff.mp hx
    refine ⟨old, ho, ?_⟩
    split <;> exact ⟨rfl, rfl⟩
  refine ⟨h.state, ?_, ?_⟩
  · intro i x hx
    obtain ⟨old, ho, he, -⟩ := hold i x hx
    rw [he, h.handler i old ho]
  · intro i x hx
    obtain ⟨old, ho, -, he⟩ := hold i x hx
    rw [he]
    exact h.parent i old ho

theorem moveOn (k : Nat) (t : Terminator) :
    Numbered (d.moveOn k t).states (d.moveOn k t).handlers :=
  (h.extend k).setExit _ _

theorem flowTo (x : StateId) : Numbered (d.flowTo x).states (d.flowTo x).handlers := by
  unfold Draft.flowTo
  split
  · exact h.setExit _ _
  · exact h

theorem openBlock (ho : ∀ p ∈ d.handler, p < d.handlers.length) (k : Nat)
    (cleanup : Option StateId) :
    Numbered (openBlock k cleanup d).states (openBlock k cleanup d).handlers :=
  (((h.extend k).addHandler cleanup ho).createIn _).setExit _ _

theorem openClause (g : HandlerId) (x : Option String)
    (cleanup : Option StateId) {outer : Option HandlerId}
    (ho : ∀ p ∈ outer, p < d.handlers.length) :
    Numbered (openClause g x cleanup outer d).states (openClause g x cleanup outer d).handlers := by
  cases cleanup with
  | none => exact (h.createIn outer).setClause g _
  | some c => exact ((h.addHandler (some c) ho).createIn _).setClause g _

end

theorem foldl_push (ss : Block) : ∀ {d : Draft}, Numbered d.states d.handlers →
    Numbered (ss.foldl Draft.push d).states (ss.foldl Draft.push d).handlers := by
  induction ss with
  | nil => exact id
  | cons s ss ih => exact fun h => ih (h.push s)

theorem closeCleaned (h : Numbered d'.states d'.handlers) (d : Draft) (cleanup : Block) :
    Numbered (closeCleaned d cleanup d').states (closeCleaned d cleanup d').handlers := by
  have hp := foldl_push cleanup (d := (d'.setHandler d.handler).switchTo (d.nextId + 1)) h
  exact (hp.setExit _ _).route _ _ _

end Numbered

end Resumable

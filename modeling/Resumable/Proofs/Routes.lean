import Resumable.Proofs.Growth

namespace Resumable

open List

namespace Draft

variable {d : Draft} {first last : Nat} {x : StateId}

theorem mem_outsideExits :
    x ∈ d.outsideExits first last ↔ ¬(first ≤ x ∧ x < last) ∧
      ∃ (s : Nat) (st : State), first ≤ s ∧ s < last ∧ d.states[s]? = some st ∧
        x ∈ st.exit.exits := by
  unfold outsideExits
  rw [mem_eraseDups, mem_filter, mem_flatMap]
  have hiff : (!(decide (first ≤ x) && decide (x < last))) = true ↔ ¬(first ≤ x ∧ x < last) := by
    simp
    unfold StateId at *
    omega
  constructor
  · rintro ⟨⟨st, hst, hx⟩, hout⟩
    refine ⟨hiff.mp hout, ?_⟩
    obtain ⟨i, hi, he⟩ := mem_iff_getElem.mp hst
    simp only [length_take, length_drop] at hi
    refine ⟨first + i, st, by omega, by omega, ?_, hx⟩
    rw [← he, getElem_take, getElem_drop, getElem?_eq_getElem]
  · rintro ⟨hout, s, st, hf, hl, hst, hx⟩
    refine ⟨⟨st, ?_, hx⟩, hiff.mpr hout⟩
    have hlt := (List.getElem?_eq_some_iff.mp hst).1
    refine mem_of_getElem? (i := s - first) ?_
    rw [getElem?_take_of_lt (by omega), getElem?_drop,
      show first + (s - first) = s by omega, hst]

theorem redirect_inside {x : Nat} (hf : first ≤ x) (hl : x < last) :
    d.redirect first last x = x := by
  simp [redirect, hf, hl]

theorem redirect_of_not_mem (hx : x ∉ d.outsideExits first last) : d.redirect first last x = x := by
  unfold redirect
  split
  · rfl
  · rw [idxOf?_eq_none_iff.mpr hx]
    rfl

/-- An exit out of the stretch is sent to the new state that stands for it. -/
theorem redirect_of_mem (hx : x ∈ d.outsideExits first last) :
    ∃ j : Nat, (d.outsideExits first last)[j]? = some x ∧
      d.redirect first last x = d.nextId + j := by
  cases hj : (d.outsideExits first last).idxOf? x with
  | none => exact absurd hx (idxOf?_eq_none_iff.mp hj)
  | some j =>
    obtain ⟨hlt, he, -⟩ := idxOf?_eq_some_iff.mp hj
    refine ⟨j, by rw [getElem?_eq_getElem hlt, he], ?_⟩
    have hout : ¬ ((decide (first ≤ x) && decide (x < last)) = true) := by
      simpa using (mem_outsideExits.mp hx).1
    rw [redirect, if_neg hout, hj]
    rfl

theorem nodup_eraseDups {α : Type} [BEq α] [LawfulBEq α] (xs : List α) :
    xs.eraseDups.Nodup := by
  match xs with
  | [] => simp
  | x :: xs =>
    rw [eraseDups_cons, nodup_cons]
    exact ⟨by simp [mem_eraseDups], nodup_eraseDups _⟩
termination_by xs.length
decreasing_by
  simp only [List.length_cons]
  exact Nat.lt_succ_of_le (List.length_filter_le ..)

theorem redirect_getElem? {j : Nat} (hx : (d.outsideExits first last)[j]? = some x) :
    d.redirect first last x = d.nextId + j := by
  obtain ⟨i, hi, he⟩ := redirect_of_mem (List.mem_of_getElem? hx)
  have hn : (d.outsideExits first last).Nodup := nodup_eraseDups _
  have hlt := (List.getElem?_eq_some_iff.mp hi).1
  rw [he, (getElem?_inj hlt hn).mp (hi.trans hx.symm)]

end Draft

namespace Splitting

open Draft

/-- The targets that get a route when the block from `d` to `e` is over. -/
def routed (d : Draft) (cleanup : Block) (e : Draft) : List StateId :=
  (fillState d cleanup (e.flowTo d.nextId)).outsideExits (d.nextId + 2) e.nextId

/-- Where the exits of the block lead then. -/
def routing (d : Draft) (cleanup : Block) (e : Draft) : StateId → StateId :=
  (fillState d cleanup (e.flowTo d.nextId)).redirect (d.nextId + 2) e.nextId

variable {d e : Draft} {cleanup : Block}

theorem states_closeCleaned (d : Draft) (cleanup : Block) (e : Draft) :
    (closeCleaned d cleanup (e.flowTo d.nextId)).states =
      ((fillState d cleanup (e.flowTo d.nextId)).route (d.nextId + 2) e.nextId
        (d.nextId + 1)).states := by
  rw [closeCleaned_eq, nextId_flowTo]
  rfl

/-- The states of the block keep their statements. -/
theorem getElem?_closeCleaned {s : Nat} (hf : d.nextId + 2 ≤ s) (hl : s < e.nextId) :
    (closeCleaned d cleanup (e.flowTo d.nextId)).states[s]? =
      (e.flowTo d.nextId).states[s]?.map
        fun st => { st with exit := st.exit.mapExits (routing d cleanup e) } := by
  rw [states_closeCleaned, getElem?_route, nextId_fillState, nextId_flowTo, if_pos hl,
    if_pos ⟨hf, hl⟩, getElem?_fillState, if_neg (by omega)]
  rfl

theorem getElem?_closeCleaned_of_lt {s : Nat} (hs : s < d.nextId) (he : d.nextId < e.nextId) :
    (closeCleaned d cleanup (e.flowTo d.nextId)).states[s]? = (e.flowTo d.nextId).states[s]? := by
  rw [states_closeCleaned, getElem?_route, nextId_fillState, nextId_flowTo, if_pos (by omega),
    if_neg (by omega), getElem?_fillState, if_neg (by omega)]

theorem getElem?_closeCleaned_cleanup {h : Option HandlerId}
    (hb : (e.flowTo d.nextId).Blank (d.nextId + 1) h) :
    ∃ st, (closeCleaned d cleanup (e.flowTo d.nextId)).states[d.nextId + 1]? = some st ∧
      st.body = cleanup ∧ st.exit = .endCleanup ∧ st.handler = h := by
  have hlt := hb.lt
  obtain ⟨st, hst, hbody, -, hh⟩ := hb
  refine ⟨{ st with body := st.body ++ cleanup, exit := .endCleanup }, ?_, by simp [hbody], rfl, hh⟩
  rw [states_closeCleaned, getElem?_route, nextId_fillState, if_pos hlt, if_neg (by omega),
    getElem?_fillState, if_pos rfl, hst]
  rfl

theorem getElem?_closeCleaned_route (j : Nat) :
    (closeCleaned d cleanup (e.flowTo d.nextId)).states[e.nextId + j]? =
      (routed d cleanup e)[j]?.map fun t =>
        { id := e.nextId + j, exit := .enter (d.nextId + 1) t, handler := d.handler } := by
  have hh : (fillState d cleanup (e.flowTo d.nextId)).handler = d.handler :=
    handler_closeCleaned d cleanup (e.flowTo d.nextId)
  rw [states_closeCleaned, getElem?_route, nextId_fillState, nextId_flowTo, if_neg (by omega), hh,
    show e.nextId + j - e.nextId = j by omega]
  rfl

theorem nextId_closeCleaned (d : Draft) (cleanup : Block) (e : Draft) :
    (closeCleaned d cleanup (e.flowTo d.nextId)).nextId =
      e.nextId + (routed d cleanup e).length := by
  show (closeCleaned d cleanup (e.flowTo d.nextId)).states.length = _
  rw [states_closeCleaned]
  have hn : (fillState d cleanup (e.flowTo d.nextId)).states.length = e.nextId :=
    (nextId_fillState ..).trans (nextId_flowTo ..)
  rw [states_route, length_append, length_mapIdx, length_mapIdx, hn]
  rfl

end Splitting

end Resumable

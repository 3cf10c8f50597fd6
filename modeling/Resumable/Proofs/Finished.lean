import Resumable.Proofs.Placement

namespace Resumable

namespace Reduce

theorem getElem?_finishReturns (states : List State) (s : Nat) :
    (finishReturns states)[s]? = states[s]?.map fun st =>
      match st.exit with
      | .ret v (some t) => if onlyCompletes states t then { st with exit := .ret v none } else st
      | _ => st :=
  List.getElem?_map ..

/-- A return never was a state that only finishes, and does not become one. -/
theorem onlyCompletes_finishReturns (states : List State) (s : StateId) :
    onlyCompletes (finishReturns states) s = onlyCompletes states s := by
  unfold onlyCompletes
  rw [getElem?_finishReturns]
  cases states[s]? with
  | none => rfl
  | some st =>
    simp only [Option.map_some, Option.any_some]
    split
    · rename_i v t he
      split
      · simp [he, Terminator.isComplete]
      · rfl
    · rfl

end Reduce

namespace Draft

open Reduce

/-- What is left of a draft when all is split: the returns know where they lead. -/
def table (d : Draft) : Table :=
  ⟨finishReturns d.states, d.handlers, d.caught⟩

theorem getElem?_table (d : Draft) (s : Nat) :
    d.table.states[s]? = d.states[s]?.map (d.table.finish id) := by
  show (finishReturns d.states)[s]? = _
  rw [getElem?_finishReturns]
  congr 1
  funext st
  rw [Table.finish, Terminator.mapExits_id]
  cases he : st.exit with
  | ret v t =>
    cases t with
    | none => simp only [Table.settle, ← he]
    | some t =>
      simp only [Table.settle, table, onlyCompletes_finishReturns]
      split
      · rfl
      · rw [← he]
  | _ => simp only [Table.settle, ← he]

theorem length_table (d : Draft) : d.table.states.length = d.nextId :=
  List.length_map ..

theorem numbered_table {d : Draft} (h : Numbered d.states d.handlers) :
    Numbered d.table.states d.table.handlers := by
  refine ⟨?_, h.handler, h.parent⟩
  intro i st hst
  rw [getElem?_table] at hst
  obtain ⟨old, ho, rfl⟩ := Option.map_eq_some_iff.mp hst
  exact h.state i old ho

end Draft

namespace Splitting

open Draft Layout Reduce

theorem ready_start : start.Ready := by
  refine ⟨⟨{ id := 0 }, rfl, rfl, rfl⟩, by simp [start, createIn, setExit], ?_, ?_, ?_⟩
  · intro i st hst
    rcases i with _ | _ | i <;> cases hst <;> rfl
  · intro i g hg
    simp [start, createIn, setExit] at hg
  · intro i g hg
    simp [start, createIn, setExit] at hg

/-- Splitting never opens or fills the return state. -/
theorem Goes.returnState {d : Draft} (h : Goes start d) :
    (d.close .complete).states[returnState]? = some { id := 1, exit := .complete } := by
  have hne : Splitting.returnState ≠ d.current := h.ne_current (by decide) (by decide)
  refine (getElem?_setExit ..).trans ?_
  rw [if_neg (Ne.symm hne), h.kept _ (by decide) (by decide)]
  rfl

theorem Goes.onlyCompletes {d : Draft} (h : Goes start d) :
    onlyCompletes (d.close .complete).table.states Splitting.returnState = true := by
  refine (onlyCompletes_finishReturns ..).trans ?_
  simp [Reduce.onlyCompletes, h.returnState, Terminator.isComplete]

/-- Nothing is done to the states of a body after it is split, but for its returns. -/
theorem Goes.fits_start {d : Draft} (h : Goes start d) :
    Fits (d.close .complete).table id { ret := some none } [] start d := by
  have hne : ∀ s : Nat, s ≠ d.current → (d.close .complete).states[s]? = d.states[s]? :=
    fun s hs => (getElem?_setExit ..).trans (if_neg (Ne.symm hs))
  refine ⟨?_, ?_, fun _ _ => rfl, fun _ _ _ => rfl, fun _ hx => hx, ?_, fun _ => rfl⟩
  · intro s _ hs
    rw [getElem?_table, hne s hs]
  · intro st hst
    have hc : (d.close .complete).states[d.current]? = some { st with exit := .complete } := by
      refine (getElem?_setExit ..).trans ?_
      rw [if_pos rfl, hst]
      rfl
    rw [getElem?_table, hc]
    exact ⟨_, rfl, List.prefix_refl _, rfl⟩
  · intro s _ _ st _ x _
    refine ⟨by simp, by simp, ?_⟩
    rintro rfl
    rw [id_eq, h.onlyCompletes, if_pos rfl]

/-- The body of a method is laid out in its table. -/
theorem splitBody_laid {kind : Kind} {body : Block} {d : Draft} (h : splitBody kind body = .ok d) :
    Layout.Body d.table body ∧ Numbered d.table.states d.table.handlers := by
  obtain ⟨e, he, hd⟩ := bind_eq_ok h
  have hs := splits_block kind [] body he
  obtain ⟨hg, -⟩ := hs.goes ready_start
  obtain ⟨st, hst, hx, -⟩ := hg.ready.open_
  have hopen : e.isOpen = true := by simp [Draft.isOpen, hst, hx, Terminator.isUnreachable]
  obtain rfl : e.close .complete = d := by
    rw [hopen] at hd
    exact Except.ok.inj hd
  have hlen : (e.close .complete).table.states.length = e.nextId := by
    rw [length_table]
    exact nextId_setExit ..
  have hlaid := hs.laid ready_start ⟨by decide, by simp⟩ hg.fits_start
  have hend : Ends (e.close .complete).table e.point .complete := by
    refine ⟨{ st with exit := .complete }, ?_, by rw [point_eq hst], rfl⟩
    rw [getElem?_table]
    refine (congrArg _ (getElem?_setExit ..)).trans ?_
    rw [point_eq hst, if_pos rfl, hst]
    rfl
  have hentry : Covered (e.close .complete).table 0 none :=
    hg.fits_start.covered_blank hg (.inl rfl) ⟨_, rfl, rfl, rfl, rfl⟩
  refine ⟨⟨⟨e.point, hlen ▸ hlaid, hend⟩, hentry, ?_⟩,
    numbered_table (hg.ready.numbered.setExit _ _)⟩
  rw [getElem?_table, hg.returnState]
  exact ⟨_, rfl, rfl, rfl, rfl⟩

end Splitting

end Resumable

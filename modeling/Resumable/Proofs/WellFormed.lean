import Resumable.Proofs.Enclosure
import Resumable.Proofs.Slots

namespace Resumable

open List

/-- What a chain promises to those who run or print it. -/
structure Chain.WellFormed (c : Chain) : Prop where
  stateId : ∀ (i : Nat) st, c.states[i]? = some st → st.id = i
  handlerId : ∀ (i : Nat) g, c.handlers[i]? = some g → g.id = i
  entry : ∃ st, c.states[Chain.entry]? = some st ∧ st.handler = none
  successors : ∀ s t, c.Edge s t → t < c.states.length
  covered : ∀ st ∈ c.states, ∀ g ∈ st.handler, g < c.handlers.length
  clauses : ∀ g ∈ c.handlers, ∀ l ∈ g.clause, l.entry < c.states.length
  /-- The handlers around a handler come before it, so that going outwards ends. -/
  parents : ∀ g ∈ c.handlers, ∀ p ∈ g.parent, p < g.id
  ends : ∀ n h, c.handlers.length ≤ n →
    Handler.outward c.handlers n h = Handler.outward c.handlers c.handlers.length h
  reached : ∀ s, ¬c.EndsIn s .unreachable
  cleanups : ∀ g ∈ c.handlers, ∀ f ∈ g.cleanup, c.EndsIn f .endCleanup
  routes : ∀ s f x, c.EndsIn s (.enter f x) → c.EndsIn f .endCleanup
  guarded : ∀ f, c.EndsIn f .endCleanup → ∃ g ∈ c.handlers, g.cleanup = some f
  slots : ∀ st ∈ c.states, ∀ k ∈ st.slots, k < c.captures.size
  bindings : ∀ g ∈ c.handlers, ∀ l ∈ g.clause, l.binding.isSome → l.slot.isSome
  caught : ∀ g ∈ c.handlers, ∀ l ∈ g.clause, ∀ k ∈ l.slot, k < c.captures.size
  params : ∀ k ∈ c.params, k < c.captures.size

namespace Compiled

open Regions Reduce Hoist

variable {m : Method} {kind : Kind} {c : Chain} (C : Compiled m kind c)
include C

theorem mem_states {st : State} (h : st ∈ c.states) :
    ∃ s old, C.live s ∧ C.table.states[s]? = some old ∧ c.states[C.number s]? = some st ∧
      st = C.image old := by
  obtain ⟨k, hk⟩ := mem_iff_getElem?.mp h
  obtain ⟨s, old, hs, hold, rfl, rfl⟩ := exists_origin (C := C) hk
  exact ⟨s, old, hs, hold, hk, rfl⟩

/-- Every handler of the chain covers one of its states. -/
theorem mem_handlers {g : Handler} (h : g ∈ c.handlers) :
    ∃ s inner outer, c.covering s = inner ++ g :: outer := by
  rw [C.handlers] at h
  obtain ⟨g', hg', rfl⟩ := mem_map.mp h
  obtain ⟨s, st, hs, hst, old, hold, rfl⟩ := C.shrinks.used g' hg'
  obtain ⟨inner, outer, hcov⟩ := append_of_mem hold
  refine ⟨C.number s, inner.map C.imageHandler, outer.map C.imageHandler, ?_⟩
  rw [covering_eq hs hst, hcov, map_append, map_cons]
  rfl

theorem ordered : c.captures.Ordered := by
  rw [C.captures]
  exact ordered_manifest _ _ _

theorem numbered_chain : Numbered c.states c.handlers := by
  refine ⟨fun i st => C.id_eq, ?_, ?_⟩
  · intro i g hg
    rw [C.handlers, getElem?_map] at hg
    obtain ⟨g', hg', rfl⟩ := Option.map_eq_some_iff.mp hg
    exact C.shrinks.numbered.handler i g' hg'
  · intro i g hg
    rw [C.handlers, getElem?_map] at hg
    obtain ⟨g', hg', rfl⟩ := Option.map_eq_some_iff.mp hg
    exact C.shrinks.numbered.parent i g' hg'

theorem entry_uncovered : ∃ st, c.states[Chain.entry]? = some st ∧ st.handler = none := by
  obtain ⟨st, hst, hh⟩ := C.body.entry
  refine ⟨C.image st, ?_, ?_⟩
  · rw [← C.shrinks.entry_eq]
    exact state_eq C.shrinks.entry hst
  · show st.handler.map C.guard = none
    rw [hh]
    rfl

theorem handler_lt {st : State} (h : st ∈ c.states) {g : HandlerId} (hg : g ∈ st.handler) :
    g < c.handlers.length := by
  obtain ⟨s, old, hs, hold, hk, rfl⟩ := C.mem_states h
  obtain ⟨g₀, hg₀, rfl⟩ := Option.map_eq_some_iff.mp hg
  have hin := getElem?_eq_getElem ((C.placed hold).guarded g₀ hg₀)
  have hcov := covering_eq hs hold
  rw [covering, Option.mem_def.mp hg₀, outward_some C.numbered.parent hin, Chain.covering, hk,
    Option.bind_some, Option.mem_def.mp hg] at hcov
  -- the number is that of a handler, or the state would be covered by none
  apply Nat.lt_of_not_le
  intro hle
  rw [outward_of_none (getElem?_eq_none hle)] at hcov
  cases hcov

theorem not_unreachable (s : StateId) : ¬c.EndsIn s .unreachable := by
  rintro ⟨st, hst, hx⟩
  obtain ⟨s, old, -, hold, -, rfl⟩ := exists_origin (C := C) hst
  refine (C.placed hold).reached ?_
  rw [exit_image] at hx
  cases he : old.exit with
  | unreachable => rfl
  | suspend p r => cases p <;> simp [he, Terminator.mapStates, Terminator.mapExits,
      Terminator.mapExpr] at hx
  | goto | branch | ret | enter | endCleanup | complete =>
    simp [he, Terminator.mapStates, Terminator.mapExits, Terminator.mapExpr] at hx

/-- Control gets to a route from inside of the region it leads out of. -/
theorem enclosed_of_route {r f x : Nat} {st : State} (hr : C.live r)
    (hst : C.table.states[r]? = some st) (hx : st.exit = .enter f x) : ∃ s old, C.live s ∧
      C.table.states[s]? = some old ∧ f ∈ enclosing C.table.states C.table.handlers s := by
  have hroute : ¬Plain C.table.states r := by
    rintro ⟨st', hst', -, hne⟩
    cases hst.symm.trans hst'
    exact hne f x hx
  have hne : r ≠ Chain.entry := by
    rintro rfl
    exact hroute (C.body.disciplined C.numbered).entry
  obtain ⟨s, hs, hnext⟩ := C.shrinks.source hr hne
  unfold Reduce.next at hnext
  split at hnext
  · cases hnext
  · rename_i old hold
    refine ⟨s, old, hs, hold, ?_⟩
    rcases mem_append.mp hnext with hsucc | hcov
    · rcases (C.orderly hold).exit.successor hsucc with hl | ⟨-, hc, -⟩
      · cases hl with
        | stay hp _ | into hp _ _ _ => exact absurd hp hroute
        | out hst' hx' he =>
          cases hst.symm.trans hst'
          cases hx.symm.trans hx'
          rw [he]
          exact mem_cons_self
      · obtain ⟨st', hst', hend⟩ := hc
        cases hst.symm.trans hst'
        cases hx.symm.trans hend
    · obtain ⟨g, hg, hmem⟩ := mem_flatMap.mp hcov
      obtain ⟨inner, outer, hsplit⟩ := append_of_mem hg
      rcases mem_append.mp hmem with hc | hf
      · obtain ⟨l, hl, rfl⟩ := mem_map.mp hc
        have hl := Option.mem_toList.mp hl
        exact absurd ((C.placed hold).nested.clause hsplit hl).1 hroute
      · have hf := Option.mem_toList.mp hf
        obtain ⟨⟨st', hst', hend⟩, -⟩ := (C.placed hold).nested.cleanup hsplit hf
        cases hst.symm.trans hst'
        cases hx.symm.trans hend

/-- A cleanup is live because of a state inside of its region. -/
theorem enclosed_of_cleans {f : Nat} {st : State} (hf : C.live f)
    (hst : C.table.states[f]? = some st) (hx : st.exit = .endCleanup) : ∃ s old, C.live s ∧
      C.table.states[s]? = some old ∧ f ∈ enclosing C.table.states C.table.handlers s := by
  have hclean : Cleans C.table.states f := ⟨st, hst, hx⟩
  have hplain : ¬Plain C.table.states f := fun hp => hp.not_cleans hclean
  have hne : f ≠ Chain.entry := by
    rintro rfl
    exact hplain (C.body.disciplined C.numbered).entry
  obtain ⟨s, hs, hnext⟩ := C.shrinks.source hf hne
  unfold Reduce.next at hnext
  split at hnext
  · cases hnext
  · rename_i old hold
    rcases mem_append.mp hnext with hsucc | hcov
    · rcases (C.orderly hold).exit.successor hsucc with hl | ⟨⟨x, hroute⟩, -, -⟩
      · exact absurd hclean hl.not_cleans
      · exact C.enclosed_of_route hs hold hroute
    · refine ⟨s, old, hs, hold, ?_⟩
      obtain ⟨g, hg, hmem⟩ := mem_flatMap.mp hcov
      rcases mem_append.mp hmem with hc | hc
      · obtain ⟨inner, outer, hsplit⟩ := append_of_mem hg
        obtain ⟨l, hl, rfl⟩ := mem_map.mp hc
        have hl := Option.mem_toList.mp hl
        exact absurd ((C.placed hold).nested.clause hsplit hl).1 hplain
      · rw [enclosing, hold]
        exact mem_filterMap.mpr ⟨g, hg, Option.mem_toList.mp hc⟩

theorem guarded_of_cleans {f : StateId} (h : c.EndsIn f .endCleanup) :
    ∃ g ∈ c.handlers, g.cleanup = some f := by
  obtain ⟨st, hst, hx⟩ := h
  obtain ⟨f₀, old, hf, hold, rfl, rfl⟩ := exists_origin (C := C) hst
  have hend : old.exit = .endCleanup :=
    Terminator.mapStates_eq_endCleanup.mp (Terminator.mapExpr_eq_endCleanup.mp hx)
  obtain ⟨s, st, hs, hst, hmem⟩ := C.enclosed_of_cleans hf hold hend
  have hin := (mem_enclosing_number hs hst hf).mpr hmem
  obtain ⟨g, hg, hgf⟩ := mem_filterMap.mp hin
  exact ⟨g, mem_of_getElem? (getElem?_of_mem_outward C.numbered_chain hg), hgf⟩

theorem slots_lt (hs : Stmt.slotsIn m.body = []) {st : State} (h : st ∈ c.states) :
    ∀ k ∈ st.slots, k < c.captures.size := by
  obtain ⟨s, old, -, hold, -, rfl⟩ := C.mem_states h
  obtain ⟨d, hd, htable⟩ := C.drafted
  rw [htable] at hold
  have hnone := Splitting.slots_splitBody hd hs s old hold
  rw [State.slots, append_eq_nil_iff] at hnone
  rw [State.slots, forall_mem_append]
  constructor
  · apply slots_hoistBlock C.ordered
    show ∀ k ∈ Stmt.slotsIn old.body, k < c.captures.size
    rw [hnone.1]
    exact forall_mem_nil _
  · rw [exit_image, Terminator.expr?_mapExpr, Terminator.expr?_mapStates]
    cases he : old.exit.expr? with
    | none => exact forall_mem_nil _
    | some e =>
      apply slots_hoistExpr C.ordered
      have hnil : e.slots = [] := by simpa [he] using hnone.2
      rw [hnil]
      exact forall_mem_nil _

theorem binding_slot {g : Handler} (hg : g ∈ c.handlers) {l : Landing} (hl : g.clause = some l) :
    l.slot = l.binding.bind c.captures.slotOf? := by
  rw [C.handlers] at hg
  obtain ⟨g', -, rfl⟩ := mem_map.mp hg
  obtain ⟨l', -, rfl⟩ := Option.map_eq_some_iff.mp hl
  rfl

theorem wellFormed (hs : Stmt.slotsIn m.body = []) : c.WellFormed where
  stateId := C.numbered_chain.state
  handlerId := C.numbered_chain.handler
  entry := C.entry_uncovered
  successors := by
    rintro s t ⟨st, hst, ht⟩
    exact (C.disciplined.state s st hst).exit.lt t ht
  covered := fun st hst g hg => C.handler_lt hst hg
  clauses := by
    intro g hg l hl
    obtain ⟨s, inner, outer, hcov⟩ := C.mem_handlers hg
    exact (C.clause hcov hl).1.lt
  parents := by
    intro g hg p hp
    obtain ⟨i, hi⟩ := mem_iff_getElem?.mp hg
    rw [C.numbered_chain.handler i g hi]
    exact C.numbered_chain.parent i g hi p hp
  ends := by
    intro n h hn
    cases h with
    | none => simp
    | some i =>
      cases hi : c.handlers[i]? with
      | none => rw [outward_of_none hi, outward_of_none hi]
      | some g =>
        have hlt := (List.getElem?_eq_some_iff.mp hi).1
        apply outward_congr C.numbered_chain.parent <;> rintro _ ⟨⟩
        · exact Nat.lt_of_lt_of_le hlt hn
        · exact hlt
  reached := C.not_unreachable
  cleanups := by
    intro g hg f hf
    obtain ⟨s, inner, outer, hcov⟩ := C.mem_handlers hg
    exact (C.cleanup hcov hf).1
  routes := by
    rintro s f x ⟨st, hst, hx⟩
    have hfine := (C.disciplined.state s st hst).exit
    rw [hx] at hfine
    exact hfine.1
  guarded := fun f => C.guarded_of_cleans
  slots := fun st => C.slots_lt hs
  bindings := by
    intro g hg l hl hx
    obtain ⟨s, inner, outer, hcov⟩ := C.mem_handlers hg
    obtain ⟨x, hx⟩ := Option.isSome_iff_exists.mp hx
    rw [C.binding_slot hg hl, hx, Option.bind_some, C.captures]
    exact slotOf?_manifest (.inr ((C.clause hcov hl).2.2 x hx))
  caught := by
    intro g hg l hl k hk
    rw [C.binding_slot hg hl] at hk
    obtain ⟨x, -, hx⟩ := Option.bind_eq_some_iff.mp hk
    exact Manifest.lt_size_of_slotOf? C.ordered hx
  params := by
    intro k hk
    rw [C.params] at hk
    obtain ⟨x, -, hx⟩ := mem_filterMap.mp hk
    exact Manifest.lt_size_of_slotOf? C.ordered hx

/-- Every parameter has its slot. -/
theorem params_eq : c.params.map some = m.params.map c.captures.slotOf? := by
  rw [C.params]
  have hsome : ∀ x ∈ m.params, (c.captures.slotOf? x).isSome := by
    intro x hx
    rw [C.captures]
    exact slotOf?_manifest (.inl hx)
  generalize m.params = xs at hsome
  induction xs with
  | nil => rfl
  | cons x xs ih =>
    obtain ⟨k, hk⟩ := Option.isSome_iff_exists.mp (hsome x mem_cons_self)
    simp only [filterMap_cons, hk, map_cons]
    rw [ih fun y hy => hsome y (mem_cons_of_mem _ hy)]

end Compiled

/-- The chain of a method that names no slots is well formed, has one slot for each parameter and
has no more states than allowed. -/
theorem wellFormed_of_split {m : Method} {limit : Nat} {c : Chain}
    (h : m.split limit = .ok (some c)) (hs : Stmt.slotsIn m.body = []) :
    c.WellFormed ∧ c.params.length = m.params.length ∧ c.states.length ≤ limit := by
  obtain ⟨kind, -, hc⟩ := m.exists_of_split h
  obtain ⟨C⟩ := Method.compiled hc
  refine ⟨C.wellFormed (m.slots_rename.trans hs), ?_, Method.length_toChain_le hc⟩
  have hparams := congrArg length C.params_eq
  simpa [m.length_params_rename] using hparams

/-- A method that yields, inside of a guarded block, what a lambda over its parameter gives. -/
def lambdaYield : Method :=
  { name := "m", params := ["p"],
    body :=
      [.bind {} "f" (.lambda {} ["x"]
          [.ret {} (some (.binary {} .add (.var {} "p") (.var {} "x")))]),
        .attempt {}
          [.yield {} (.call {} (.var {} "f") [.int {} 1]),
            .yield {} (.call {} (.var {} "f") [.int {} 2])]
          (some (.mk (some "e") [.yield {} (.var {} "e")]))
          (some [.eval {} (.call {} (.var {} "log") [])])] }

def lambdaChain : Chain :=
  { name := "m", kind := .iterator,
    states :=
      [{ id := 0,
         body := [.store {} 2 (.lambda {} ["x"]
          [.ret {} (some (.binary {} .add (.captured {} 0) (.var {} "x")))])],
         exit := .goto 3 },
        { id := 1, exit := .complete },
        { id := 2, body := [.eval {} (.call {} (.var {} "log") [])], exit := .endCleanup },
        { id := 3, exit := .suspend (.yield (.call {} (.captured {} 2) [.int {} 1])) 4,
          handler := some 0 },
        { id := 4, exit := .suspend (.yield (.call {} (.captured {} 2) [.int {} 2])) 5,
          handler := some 0 },
        { id := 5, exit := .goto 8, handler := some 0 },
        { id := 6, exit := .suspend (.yield (.captured {} 1)) 7, handler := some 1 },
        { id := 7, exit := .goto 8, handler := some 1 }, { id := 8, exit := .enter 2 1 }],
    handlers :=
      [{ id := 0, clause := some ⟨6, some "e", some 1⟩, cleanup := some 2 },
        { id := 1, cleanup := some 2 }]
    captures := ⟨[("p", ⟨0, "p", .parameter⟩), ("e", ⟨1, "e", .caught⟩), ("f", ⟨2, "f", .shared⟩)]⟩
    params := [0] }

/-- The parameter, the caught fault and the lambda have slots, and the lambda names one. -/
theorem lambdaYield_wellFormed :
    lambdaYield.split 30 = .ok (some lambdaChain) ∧ Stmt.slotsIn lambdaYield.body = [] ∧
      lambdaChain.WellFormed ∧ lambdaChain.params.length = 1 ∧ lambdaChain.states.length ≤ 30 := by
  have hsplit : lambdaYield.split 30 = .ok (some lambdaChain) := by decide +kernel
  have hslots : Stmt.slotsIn lambdaYield.body = [] := by decide
  exact ⟨hsplit, hslots, wellFormed_of_split hsplit hslots⟩

end Resumable

import Resumable.Proofs.Nesting
import Resumable.Proofs.Cleanup

namespace Resumable

open List

variable {st : State} {f k s : Nat} {g : Handler} {handlers inner outer : List Handler}
  {E : List StateId} {states : List State} {t : Terminator}

namespace Chain

/-- Leaving `s`, control can go to `t`. -/
def Edge (c : Chain) (s t : StateId) : Prop :=
  ∃ st, c.states[s]? = some st ∧ t ∈ st.exit.successors

/-- The state is left by the terminator. -/
def EndsIn (c : Chain) (s : StateId) (t : Terminator) : Prop :=
  ∃ st, c.states[s]? = some st ∧ st.exit = t

/-- The bodies of the cleanups around a state, innermost first. -/
def cleanupBodies (c : Chain) (s : StateId) : List Block :=
  (c.enclosingCleanups s).map fun f => c.states[f]?.elim [] (·.body)

/-- The cleanup `f` fences the state `s` inside of it. -/
structure Fences (c : Chain) (f s : StateId) : Prop where
  cleans : c.EndsIn f .endCleanup
  /-- Control stays inside or takes a route into the cleanup. -/
  stays : ∀ t, c.Edge s t → f ∈ c.enclosingCleanups t ∨ ∃ x, c.EndsIn t (.enter f x)
  completes : ¬c.EndsIn s .complete
  returns : ∀ v, ¬c.EndsIn s (.ret v none)
  /-- Further out than the cleanup lies what lies around it. -/
  outer : ∀ inner outer, c.enclosingCleanups s = inner ++ f :: outer → outer = c.enclosingCleanups f
  /-- A fault taken further in than the cleanup stays inside of it. -/
  clauses : ∀ inner g outer, c.covering s = inner ++ g :: outer →
    (∀ k ∈ inner, k.cleanup ≠ some f) → ∀ l ∈ g.clause, f ∈ c.enclosingCleanups l.entry

/-- The ways to the cleanup `f` and into its region. -/
structure Gated (c : Chain) (f : StateId) : Prop where
  routes : ∀ s, c.Edge s f → ∃ x, c.EndsIn s (.enter f x)
  beside : ∀ r x, c.EndsIn r (.enter f x) →
    c.enclosingCleanups r = c.enclosingCleanups f ∧ f ∉ c.enclosingCleanups x
  /-- The region is entered where the guarded block begins, at the state after the cleanup. -/
  gate : ∀ s t, c.Edge s t → f ∉ c.enclosingCleanups s → f ∈ c.enclosingCleanups t → t = f + 1

end Chain

/-! The table. -/

namespace Regions

variable {T : Table}

/-- What a successor is: control goes there along a link, or it is a cleanup on the way, or the
state where a pause resumes. -/
theorem Fine.successor (h : Fine states handlers E t) {x : StateId} (hx : x ∈ t.successors) :
    Link states handlers E x ∨
      (∃ y, t = .enter x y) ∧ Cleans states x ∧ enclosing states handlers x = E := by
  cases t with
  | goto t =>
    cases mem_singleton.mp hx
    exact .inl h
  | branch e a b =>
    simp only [Terminator.successors, mem_cons, not_mem_nil, or_false] at hx
    rcases hx with rfl | rfl
    · exact .inl h.1
    · exact .inl h.2
  | suspend p r =>
    cases mem_singleton.mp hx
    exact .inl (.stay h.1 h.2)
  | ret v t =>
    cases t with
    | none => cases hx
    | some t =>
      cases mem_singleton.mp hx
      exact .inl h
  | enter f y =>
    simp only [Terminator.successors, mem_cons, not_mem_nil, or_false] at hx
    rcases hx with rfl | rfl
    · exact .inr ⟨⟨y, rfl⟩, h.1, h.2.1⟩
    · exact .inl h.2.2
  | endCleanup | complete | unreachable => cases hx

theorem Fine.lt (h : Fine states handlers E t) : ∀ x ∈ t.successors, x < states.length := by
  intro x hx
  rcases h.successor hx with hl | ⟨-, hc, -⟩
  · exact Link.lt hl
  · exact Cleans.lt hc

/-- Control comes to stand inside of one more cleanup only where its block begins. -/
theorem Placed.door {t : Nat} (hp : Placed T s st) (ho : Orderly T.states T.handlers s st)
    (ht : t ∈ st.exit.successors) (hs : f ∉ enclosing T.states T.handlers s)
    (hf : f ∈ enclosing T.states T.handlers t) : st.exit = .goto t ∧ t = f + 1 := by
  rcases ho.exit.successor ht with hl | ⟨-, -, he⟩
  · cases hl with
    | stay _ he => exact absurd (he ▸ hf) hs
    | out _ _ he => exact absurd (he ▸ mem_cons_of_mem _ hf) hs
    | @into _ g he _ _ =>
      obtain rfl : f = g := by
        rw [he] at hf
        exact (mem_cons.mp hf).resolve_right hs
      have hdeep : ¬depth T t ≤ (enclosing T.states T.handlers s).length := by
        rw [depth, he, length_cons]
        omega
      have hopen := hp.opens
      cases hx : st.exit with
      | goto u =>
        rw [hx] at hopen ht
        cases mem_singleton.mp ht
        rcases hopen with hle | ⟨g, hg, hdoor⟩
        · exact absurd hle hdeep
        · rw [he] at hg
          exact ⟨rfl, (cons.inj hg).1 ▸ hdoor⟩
      | branch | suspend | ret | enter | endCleanup | complete | unreachable =>
        rw [hx] at hopen ht
        exact absurd (hopen t ht) hdeep
  · exact absurd (he ▸ hf) hs

/-- A route stands beside the cleanup it leads into and goes on outside of it. -/
theorem Placed.beside {x : Nat} (hp : Placed T s st) (ho : Orderly T.states T.handlers s st)
    (hx : st.exit = .enter f x) (hf : f ∉ enclosing T.states T.handlers f) :
    f ∉ enclosing T.states T.handlers x := by
  obtain ⟨-, he, hl⟩ : Fine T.states T.handlers _ (.enter f x) := hx ▸ ho.exit
  rw [he] at hf
  cases hl with
  | stay _ hs => rwa [hs]
  | out _ _ hs =>
    intro hmem
    rw [hs] at hf
    exact hf (mem_cons_of_mem _ hmem)
  | into _ hs _ _ =>
    have hopen : Opens T _ (.enter f x) := hx ▸ hp.opens
    have hle := hopen x (by simp [Terminator.successors])
    rw [depth, hs, length_cons] at hle
    omega

end Regions

/-! From the table to the chain. -/

namespace Compiled

open Regions Reduce Hoist

variable {m : Method} {kind : Kind} {c : Chain} (C : Compiled m kind c)

/-- A state of the table as it stands in the chain. -/
def image (st : State) : State :=
  hoistState c.captures (renumberState C.number C.guard st)

/-- A handler of the table as it stands in the chain. -/
def imageHandler (g : Handler) : Handler :=
  hoistHandler c.captures (renumberHandler C.number C.guard g)

theorem exit_image (st : State) : (C.image st).exit =
    (st.exit.mapStates C.number).mapExpr (hoistExpr c.captures) := rfl

theorem successors_image (st : State) :
    (C.image st).exit.successors = st.exit.successors.map C.number := by
  rw [exit_image, Terminator.successors_mapExpr, Terminator.successors_mapStates]

theorem cleanup_imageHandler (g : Handler) :
    (C.imageHandler g).cleanup = g.cleanup.map C.number := rfl

/-- A clause of the table as it stands in the chain. -/
def imageLanding (l : Landing) : Landing :=
  { l with entry := C.number l.entry, slot := l.binding.bind c.captures.slotOf? }

theorem clause_imageHandler (g : Handler) :
    (C.imageHandler g).clause = g.clause.map C.imageLanding := by
  show (g.clause.map _).map _ = _
  rw [Option.map_map]
  rfl

variable {C}

theorem state_eq (hs : C.live s) (hst : C.table.states[s]? = some st) :
    c.states[C.number s]? = some (C.image st) := by
  rw [C.states, getElem?_map, C.shrinks.state s st hs hst]
  rfl

/-- Every state of the chain stands in the table, where it is live. -/
theorem exists_origin (h : c.states[k]? = some st) :
    ∃ s old, C.live s ∧ C.table.states[s]? = some old ∧ C.number s = k ∧ st = C.image old := by
  rw [C.states, getElem?_map] at h
  obtain ⟨st', hst', rfl⟩ := Option.map_eq_some_iff.mp h
  obtain ⟨s, old, hs, hold, hk, rfl⟩ := C.shrinks.onto k st' hst'
  exact ⟨s, old, hs, hold, hk, rfl⟩

theorem covering_eq (hs : C.live s) (hst : C.table.states[s]? = some st) :
    c.covering (C.number s) = (covering C.table.handlers st).map C.imageHandler := by
  have hcov := C.shrinks.covering s st hs hst
  simp only [covering] at hcov ⊢
  rw [Chain.covering, state_eq hs hst, Option.bind_some, C.handlers, length_map, outward_hoist]
  refine (congrArg _ hcov).trans ?_
  rw [map_map]
  rfl

theorem enclosing_number (hs : C.live s) (hst : C.table.states[s]? = some st) :
    c.enclosingCleanups (C.number s) =
      (enclosing C.table.states C.table.handlers s).map C.number := by
  rw [Chain.enclosingCleanups, covering_eq hs hst, enclosing, hst, Option.bind_some, around,
    filterMap_map, map_filterMap]
  rfl

variable (C)

theorem orderly (hst : C.table.states[s]? = some st) :
    Orderly C.table.states C.table.handlers s st :=
  (C.body.disciplined C.numbered).state s st hst

theorem placed (hst : C.table.states[s]? = some st) : Placed C.table s st :=
  C.body.placed C.numbered hst

variable {C}

theorem live_edge {t : Nat} (hs : C.live s) (hst : C.table.states[s]? = some st)
    (ht : t ∈ st.exit.successors) : C.live t :=
  live_successor C.shrinks hs hst ht ((C.orderly hst).exit.lt t ht)

/-- A guard around a state of the chain, and those further out, stand in the table, with their
clauses and their cleanups in place. -/
theorem exists_guard (C : Compiled m kind c) (h : c.covering k = inner ++ g :: outer) : ∃ g₀ outer₀,
      Nested C.table (g₀ :: outer₀) ∧ C.imageHandler g₀ = g ∧ outer₀.map C.imageHandler = outer ∧
        (∀ l ∈ g₀.clause, C.live l.entry) ∧ ∀ f ∈ g₀.cleanup, C.live f := by
  cases hk : c.states[k]? with
  | none => simp [Chain.covering, hk] at h
  | some st =>
    obtain ⟨s, old, hs, hold, rfl, rfl⟩ := exists_origin (C := C) hk
    rw [covering_eq hs hold] at h
    obtain ⟨cov₁, cov₂, hcov, rfl, hcov₂⟩ := map_eq_append_iff.mp h
    obtain ⟨g₀, outer₀, rfl, rfl, rfl⟩ := map_eq_cons_iff.mp hcov₂
    have hnest := (C.placed hold).nested.further hcov
    have hlive : ∀ t ∈ g₀.clause.toList.map (·.entry) ++ g₀.cleanup.toList,
        t < C.table.states.length → C.live t := fun t ht =>
      live_covering C.shrinks hs hold (g := g₀) (by simp [hcov]) ht
    refine ⟨g₀, outer₀, hnest, rfl, rfl, fun l hl => ?_, fun f hf => ?_⟩
    · exact hlive _ (by simp [Option.mem_def.mp hl]) (hnest.1 l hl).1.lt
    · exact hlive _ (by simp [Option.mem_def.mp hf]) (hnest.2.1 f hf).1.lt

/-- The guards around a state of the chain, from inside out, have their clauses and their cleanups
in place. -/
theorem clause (C : Compiled m kind c) {l : Landing} (h : c.covering k = inner ++ g :: outer)
    (hl : g.clause = some l) :
    Plain c.states l.entry ∧ c.enclosingCleanups l.entry = (g :: outer).filterMap (·.cleanup) ∧
      ∀ x ∈ l.binding, x ∈ C.table.caught := by
  obtain ⟨g, outer, hnest, rfl, rfl, hlive, -⟩ := C.exists_guard h
  rw [C.clause_imageHandler] at hl
  obtain ⟨l₀, hl₀, rfl⟩ := Option.map_eq_some_iff.mp hl
  obtain ⟨hplain, henc, -, hbind⟩ := hnest.1 l₀ hl₀
  obtain ⟨st₀, hst₀, -⟩ := id hplain
  refine ⟨?_, ?_, hbind⟩
  · rw [C.states]
    exact plain_hoist _ (plain_shrinks C.shrinks (hlive l₀ hl₀) hplain)
  · refine (enclosing_number (hlive l₀ hl₀) hst₀).trans ?_
    rw [henc, map_filterMap, ← map_cons, filterMap_map]
    rfl

theorem cleanup (C : Compiled m kind c) {f : StateId} (h : c.covering k = inner ++ g :: outer)
    (hf : g.cleanup = some f) :
    Cleans c.states f ∧ c.enclosingCleanups f = outer.filterMap (·.cleanup) := by
  obtain ⟨g, outer, hnest, rfl, rfl, -, hlive⟩ := C.exists_guard h
  obtain ⟨f₀, hf₀, rfl⟩ := Option.map_eq_some_iff.mp hf
  obtain ⟨hclean, henc, -⟩ := hnest.2.1 f₀ hf₀
  obtain ⟨st₀, hst₀, -⟩ := id hclean
  refine ⟨?_, ?_⟩
  · rw [C.states]
    exact cleans_hoist _ (cleans_shrinks C.shrinks (hlive f₀ hf₀) hclean)
  · rw [enclosing_number (hlive f₀ hf₀) hst₀, henc, map_filterMap, filterMap_map]
    rfl

theorem mem_enclosing_number (hs : C.live s) (hst : C.table.states[s]? = some st) (hf : C.live f) :
    C.number f ∈ c.enclosingCleanups (C.number s) ↔
      f ∈ enclosing C.table.states C.table.handlers s := by
  rw [enclosing_number hs hst]
  constructor
  · intro h
    obtain ⟨g, hg, he⟩ := mem_map.mp h
    have hlive : C.live g :=
      live_enclosing C.shrinks hs hg ((C.orderly hst).cleans g hg)
    exact C.shrinks.inj g f hlive hf he ▸ hg
  · exact mem_map_of_mem

theorem exists_edge {l : Nat} (h : c.Edge k l) : ∃ s t st,
    C.live s ∧ C.table.states[s]? = some st ∧ C.live t ∧ t < C.table.states.length ∧
      t ∈ st.exit.successors ∧ C.number s = k ∧ C.number t = l := by
  obtain ⟨st, hst, hl⟩ := h
  obtain ⟨s, old, hs, hold, rfl, rfl⟩ := exists_origin (C := C) hst
  rw [successors_image] at hl
  obtain ⟨t, ht, rfl⟩ := mem_map.mp hl
  exact ⟨s, t, old, hs, hold, live_edge hs hold ht, (C.orderly hold).exit.lt t ht, ht, rfl, rfl⟩

theorem fences (C : Compiled m kind c) {s f : StateId} (hf : f ∈ c.enclosingCleanups s) :
    c.Fences f s := by
  have hd := C.disciplined
  obtain ⟨st, hst⟩ : ∃ st, c.states[s]? = some st := by
    cases hs : c.states[s]? with
    | none => simp [Chain.enclosingCleanups, Chain.covering, hs] at hf
    | some st => exact ⟨st, rfl⟩
  have ho := hd.state s st hst
  have hne : enclosing c.states c.handlers s ≠ [] := ne_nil_of_mem hf
  refine ⟨ho.cleans f hf, ?_, ?_, ?_, ?_, ?_⟩
  · rintro t ⟨st', hst', ht⟩
    cases hst.symm.trans hst'
    rcases ho.exit.successor ht with hl | ⟨-, -, he⟩
    · cases hl with
      | stay _ he => exact .inl (he.symm ▸ hf : f ∈ enclosing c.states c.handlers t)
      | into _ he _ _ =>
        exact .inl (he.symm ▸ mem_cons_of_mem _ hf : f ∈ enclosing c.states c.handlers t)
      | @out g x r hr hx he =>
        rcases mem_cons.mp (he ▸ hf : f ∈ g :: enclosing c.states c.handlers t) with rfl | hf
        · exact .inr ⟨x, r, hr, hx⟩
        · exact .inl hf
    · exact .inl (he.symm ▸ hf : f ∈ enclosing c.states c.handlers t)
  · rintro ⟨st', hst', hx⟩
    cases hst.symm.trans hst'
    have he := ho.exit
    rw [hx] at he
    exact hne he
  · rintro v ⟨st', hst', hx⟩
    cases hst.symm.trans hst'
    have he := ho.exit
    rw [hx] at he
    exact hne he
  · intro inner outer he
    obtain ⟨hs₁, hs₂, hcov, -, he⟩ := filterMap_eq_append_iff.mp he
    obtain ⟨hs₃, g, hs₄, rfl, -, hg, rfl⟩ := filterMap_eq_cons_iff.mp he
    have hcov' : c.covering s = (hs₁ ++ hs₃) ++ g :: hs₄ := by simp [hcov]
    exact (C.cleanup hcov' hg).2.symm
  · intro inner g outer hcov hinner l hl
    rw [(C.clause hcov hl).2.1]
    rw [Chain.enclosingCleanups, hcov, filterMap_append] at hf
    rcases mem_append.mp hf with hin | hout
    · obtain ⟨k, hk, hkf⟩ := mem_filterMap.mp hin
      exact absurd hkf (hinner k hk)
    · exact hout

theorem gated (C : Compiled m kind c) {f : StateId} (hf : c.EndsIn f .endCleanup) : c.Gated f := by
  have hd := C.disciplined
  refine ⟨?_, ?_, ?_⟩
  · rintro s ⟨st, hst, ht⟩
    rcases (hd.state s st hst).exit.successor ht with hl | ⟨⟨x, hx⟩, -, -⟩
    · exact absurd hf hl.not_cleans
    · exact ⟨x, st, hst, hx⟩
  · rintro r x ⟨st, hst, hx⟩
    have hfine := (hd.state r st hst).exit
    rw [hx] at hfine
    refine ⟨hfine.2.1.symm, ?_⟩
    obtain ⟨s, old, hs, hold, rfl, rfl⟩ := exists_origin (C := C) hst
    obtain ⟨f₀, x₀, hx₀, rfl, rfl⟩ := Terminator.mapStates_eq_enter.mp
      (Terminator.mapExpr_eq_enter.mp hx)
    have hmem : ∀ y ∈ (Terminator.enter f₀ x₀).successors, y ∈ old.exit.successors :=
      fun y hy => hx₀ ▸ hy
    have hf₀ := hmem f₀ (by simp [Terminator.successors])
    have hx₁ := hmem x₀ (by simp [Terminator.successors])
    have ho := C.orderly hold
    obtain ⟨⟨fst, hfst, hend⟩, -, -⟩ : Fine C.table.states C.table.handlers _ (.enter f₀ x₀) :=
      hx₀ ▸ ho.exit
    have hout := (C.placed hold).beside ho hx₀ ((C.orderly hfst).fresh hend)
    have hget := getElem?_eq_getElem (ho.exit.lt x₀ hx₁)
    rwa [mem_enclosing_number (live_edge hs hold hx₁) hget (live_edge hs hold hf₀)]
  · obtain ⟨fst, hfst, -⟩ := hf
    obtain ⟨f₀, -, hf₀, -, rfl, -⟩ := exists_origin (C := C) hfst
    intro k l hkl hk hl
    obtain ⟨s, t, st, hs, hst, ht, hlt, hst', rfl, rfl⟩ := exists_edge (C := C) hkl
    rw [mem_enclosing_number hs hst hf₀] at hk
    rw [mem_enclosing_number ht (getElem?_eq_getElem hlt) hf₀] at hl
    obtain rfl : t = f₀ + 1 := ((C.placed hst).door (C.orderly hst) hst' hk hl).2
    exact C.shrinks.succ hf₀ ht (getElem?_eq_getElem hlt)

end Compiled

/-- In the chain of a method every cleanup fences the states inside of it. Control comes to a
cleanup along routes beside it, and into its region where the guarded block begins. -/
theorem cleanups_fence_regions {m : Method} {limit : Nat} {c : Chain}
    (h : m.split limit = .ok (some c)) :
    (∀ s, ∀ f ∈ c.enclosingCleanups s, c.Fences f s) ∧
      ∀ f, c.EndsIn f .endCleanup → c.Gated f := by
  obtain ⟨kind, -, hc⟩ := m.exists_of_split h
  obtain ⟨C⟩ := Method.compiled hc
  exact ⟨fun s f => C.fences, fun f => C.gated⟩

/-- A method that yields inside of two guarded blocks, and in a clause between them. -/
def nestedYield : Method :=
  { name := "m", params := ["p"],
    body := [.attempt {}
      [.attempt {} [.yield {} (.var {} "p"), .yieldBreak {}]
        (some (.mk (some "e") [.yield {} (.var {} "e")])) (some [.eval {} (.int {} 3)])]
      none (some [.eval {} (.int {} 4)])] }

def nestedChain : Chain :=
  { name := "m", kind := .iterator,
    states :=
      [{ id := 0, exit := .goto 4 }, { id := 1, exit := .complete }, { id := 2, exit := .complete },
        { id := 3, body := [.eval {} (.int {} 4)], exit := .endCleanup },
        { id := 4, exit := .goto 7, handler := some 0 },
        { id := 5, exit := .goto 13, handler := some 0 },
        { id := 6, body := [.eval {} (.int {} 3)], exit := .endCleanup, handler := some 0 },
        { id := 7, exit := .suspend (.yield (.captured {} 0)) 8, handler := some 1 },
        { id := 8, exit := .ret none (some 11), handler := some 1 },
        { id := 9, exit := .suspend (.yield (.captured {} 1)) 10, handler := some 2 },
        { id := 10, exit := .goto 12, handler := some 2 },
        { id := 11, exit := .enter 6 14, handler := some 0 },
        { id := 12, exit := .enter 6 5, handler := some 0 },
        { id := 13, exit := .enter 3 2 }, { id := 14, exit := .enter 3 1 }],
    handlers :=
      [{ id := 0, cleanup := some 3 },
        { id := 1, clause := some ⟨9, some "e", some 1⟩, cleanup := some 6, parent := some 0 },
        { id := 2, cleanup := some 6, parent := some 0 }]
    captures := ⟨[("p", ⟨0, "p", .parameter⟩), ("e", ⟨1, "e", .caught⟩)]⟩
    params := [0] }

/-- The yield stands inside of both cleanups, and the inner one is entered by two routes. -/
theorem nestedYield_cleanups_fence_regions :
    nestedYield.split 30 = .ok (some nestedChain) ∧ nestedChain.enclosingCleanups 7 = [6, 3] ∧
      nestedChain.Fences 6 7 ∧ nestedChain.Fences 3 7 ∧ nestedChain.Gated 6 := by
  have hsplit : nestedYield.split 30 = .ok (some nestedChain) := by decide +kernel
  have hcleanups : nestedChain.enclosingCleanups 7 = [6, 3] := by decide +kernel
  obtain ⟨hfences, hgated⟩ := cleanups_fence_regions hsplit
  exact ⟨hsplit, hcleanups, hfences 7 6 (by simp [hcleanups]), hfences 7 3 (by simp [hcleanups]),
    hgated 6 ⟨_, rfl, rfl⟩⟩

end Resumable

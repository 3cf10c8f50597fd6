import Resumable.Proofs.Compiled
import Mathlib.Data.Set.Function
import Mathlib.Logic.Relation

namespace Resumable.Reduce

open Relation Set List

section

variable (states : List State) (handlers : List Handler)

/-- A table whose references all lead to states and handlers of it. -/
structure Closed : Prop extends Numbered states handlers where
  nonempty : 0 < states.length
  exits : ∀ st ∈ states, ∀ t ∈ st.exit.successors, t < states.length
  covers : ∀ st ∈ states, ∀ g ∈ st.handler, g < handlers.length
  clauses : ∀ x ∈ handlers, ∀ c ∈ x.clause, c.entry < states.length
  cleanups : ∀ x ∈ handlers, ∀ t ∈ x.cleanup, t < states.length

/-- The next handler further out. -/
def Inside (g p : HandlerId) : Prop :=
  ∃ x, handlers[g]? = some x ∧ x.parent = some p

/-- A handler is the one of a state, or further out. -/
def Guarded (s : StateId) (g : HandlerId) : Prop :=
  ∃ st h, states[s]? = some st ∧ st.handler = some h ∧ ReflTransGen (Inside handlers) h g

/-- Control can go from one state to the other. -/
inductive Leads (s : StateId) : StateId → Prop where
  | exit {st : State} {t : StateId} (hst : states[s]? = some st) (ht : t ∈ st.exit.successors) :
    Leads s t
  | clause {g : HandlerId} {x : Handler} {c : Landing} (hg : Guarded states handlers s g)
    (hx : handlers[g]? = some x) (hc : x.clause = some c) : Leads s c.entry
  | cleanup {g : HandlerId} {x : Handler} {t : StateId} (hg : Guarded states handlers s g)
    (hx : handlers[g]? = some x) (ht : x.cleanup = some t) : Leads s t

/-- Control can get to a state from the entry. -/
def Reached (s : StateId) : Prop :=
  ReflTransGen (Leads states handlers) Chain.entry s

/-- A handler is around a state that control can get to. -/
def Needed (g : HandlerId) : Prop :=
  ∃ s, Reached states handlers s ∧ Guarded states handlers s g

end

variable {states : List State} {handlers : List Handler} {s t g h : Nat} {st : State} {x : Handler}

/-! What is gathered is what is reached. -/

theorem mem_outward_iff (hp : ∀ (i : Nat) h, handlers[i]? = some h → ∀ p ∈ h.parent, p < i) :
    x ∈ Handler.outward handlers handlers.length (some h) ↔
      ∃ g, ReflTransGen (Inside handlers) h g ∧ handlers[g]? = some x := by
  constructor
  · intro hx
    induction h using Nat.strongRecOn with
    | ind h ih =>
      cases hy : handlers[h]? with
      | none => simp [outward_of_none hy] at hx
      | some y =>
        rw [outward_some hp hy] at hx
        rcases mem_cons.mp hx with rfl | hx
        · exact ⟨h, .refl, hy⟩
        · cases hq : y.parent with
          | none => simp [hq] at hx
          | some p =>
            rw [hq] at hx
            obtain ⟨g, hg, hgx⟩ := ih p (hp h y hy p hq) hx
            exact ⟨g, .head ⟨y, hy, hq⟩ hg, hgx⟩
  · rintro ⟨g, hg, hx⟩
    induction hg using ReflTransGen.head_induction_on with
    | refl =>
      rw [outward_some hp hx]
      exact mem_cons_self
    | head hin _ ih =>
      obtain ⟨y, hy, hq⟩ := hin
      rw [outward_some hp hy, hq]
      exact mem_cons_of_mem _ ih

variable (hc : Closed states handlers)
include hc

theorem mem_covering_iff (hst : states[s]? = some st) :
    x ∈ covering handlers st ↔ ∃ g, Guarded states handlers s g ∧ handlers[g]? = some x := by
  rw [covering]
  cases hh : st.handler with
  | none => simp [Guarded, hst, hh]
  | some h => simp [mem_outward_iff hc.parent, Guarded, hst, hh]

theorem mem_next_iff : t ∈ next states handlers s ↔ Leads states handlers s t := by
  rw [next]
  cases hst : states[s]? with
  | none =>
    refine iff_of_false not_mem_nil fun ht => ?_
    rcases ht with ⟨h, -⟩ | ⟨⟨_, _, h, -⟩, -⟩ | ⟨⟨_, _, h, -⟩, -⟩ <;> cases hst.symm.trans h
  | some st =>
    simp only [mem_append, mem_flatMap, mem_map, Option.mem_toList,
      mem_covering_iff hc hst]
    constructor
    · rintro (ht | ⟨x, ⟨g, hg, hx⟩, ⟨c, hcl, rfl⟩ | ht⟩)
      · exact .exit hst ht
      · exact .clause hg hx hcl
      · exact .cleanup hg hx ht
    · intro ht
      cases ht with
      | exit hst' ht =>
        cases hst.symm.trans hst'
        exact .inl ht
      | clause hg hx hcl => exact .inr ⟨_, ⟨_, hg, hx⟩, .inl ⟨_, hcl, rfl⟩⟩
      | cleanup hg hx ht => exact .inr ⟨_, ⟨_, hg, hx⟩, .inr ht⟩

theorem Leads.lt (ht : Leads states handlers s t) : t < states.length := by
  cases ht with
  | exit hst ht => exact hc.exits _ (mem_of_getElem? hst) _ ht
  | clause _ hx hcl => exact hc.clauses _ (mem_of_getElem? hx) _ hcl
  | cleanup _ hx ht => exact hc.cleanups _ (mem_of_getElem? hx) _ ht

theorem mem_liveStates_iff : s ∈ liveStates states handlers ↔ Reached states handlers s := by
  constructor
  · intro hs
    -- a state is found after one that leads to it
    induction hn : (liveStates states handlers).idxOf s using Nat.strongRecOn generalizing s with
    | ind n ih =>
      by_cases he : s = Chain.entry
      · exact he ▸ .refl
      · obtain ⟨u, hu, hus, hlt⟩ := live_from hs he
        exact (ih _ (hn ▸ hlt) hu rfl).tail ((mem_next_iff hc).mp hus)
  · intro hs
    induction hs with
    | refl => exact live_entry handlers hc.nonempty
    | tail _ hst ih => exact live_next ih ((mem_next_iff hc).mpr hst) (hst.lt hc)

theorem Guarded.lt (hg : Guarded states handlers s g) : g < handlers.length := by
  obtain ⟨st, h, hst, hh, hg⟩ := hg
  induction hg with
  | refl => exact hc.covers st (mem_of_getElem? hst) h hh
  | tail _ hin ih =>
    obtain ⟨x, hx, hp⟩ := hin
    exact Nat.lt_trans (hc.parent _ x hx _ hp) ih

theorem has_handlerMarks_iff :
    (handlerMarks states handlers).has g = true ↔ Needed states handlers g := by
  constructor
  · intro hg
    obtain ⟨x, hx⟩ : ∃ x, handlers[g]? = some x :=
      ⟨_, getElem?_eq_getElem (has_handlerMarks.mp hg).2⟩
    obtain ⟨s, st, hs, hst, hcov⟩ := exists_covering hc.toNumbered hg hx
    obtain ⟨i, hi, hix⟩ := (mem_covering_iff hc hst).mp hcov
    obtain rfl : i = g := (hc.handler i x hix).symm.trans (hc.handler g x hx)
    exact ⟨s, (mem_liveStates_iff hc).mp hs, hi⟩
  · rintro ⟨s, hs, hg⟩
    have hx := getElem?_eq_getElem (hg.lt hc)
    obtain ⟨st, -, hst, -⟩ := id hg
    have hcov := live_covering hc.toNumbered ((mem_liveStates_iff hc).mpr hs) hst
      ((mem_covering_iff hc hst).mpr ⟨g, hg, hx⟩)
    rwa [hc.handler g _ hx] at hcov

/-! What is reached leads to nothing else. -/

theorem Reached.closed (hs : Reached states handlers s) : ∃ st, states[s]? = some st ∧
    (∀ t ∈ st.exit.successors, Reached states handlers t) ∧
      ∀ g ∈ st.handler, Needed states handlers g := by
  have hlt : s < states.length := lt_of_live ((mem_liveStates_iff hc).mpr hs)
  have hst := getElem?_eq_getElem hlt
  exact ⟨_, hst, fun t ht => hs.tail (.exit hst ht), fun g hg => ⟨s, hs, _, g, hst, hg, .refl⟩⟩

theorem Needed.closed (hg : Needed states handlers g) : ∃ x, handlers[g]? = some x ∧
    (∀ c ∈ x.clause, Reached states handlers c.entry) ∧
      (∀ t ∈ x.cleanup, Reached states handlers t) ∧
        ∀ p ∈ x.parent, Needed states handlers p := by
  obtain ⟨s, hs, hg⟩ := hg
  have hx := getElem?_eq_getElem (hg.lt hc)
  refine ⟨_, hx, fun c hcl => hs.tail (.clause hg hx hcl), fun t ht => hs.tail (.cleanup hg hx ht),
    fun p hp => ?_⟩
  obtain ⟨st, h, hst, hh, hin⟩ := hg
  exact ⟨s, hs, st, h, hst, hh, hin.tail ⟨_, hx, hp⟩⟩

omit hc

/-- The smaller table has the states and handlers that are reached, in their old order. Each of them
does what it did, and what it refers to has been renumbered with it. -/
structure Retains (states : List State) (handlers : List Handler) (ρ : StateId → StateId)
    (η : HandlerId → HandlerId) (small : List State × List Handler) : Prop where
  bij : BijOn ρ {s | Reached states handlers s} {k | k < small.1.length}
  handlerBij : BijOn η {g | Needed states handlers g} {k | k < small.2.length}
  order : StrictMonoOn ρ {s | Reached states handlers s}
  handlerOrder : StrictMonoOn η {g | Needed states handlers g}
  state : ∀ s, Reached states handlers s → ∃ st new, states[s]? = some st ∧
    small.1[ρ s]? = some new ∧ new = renumberState ρ η st ∧ new.id = ρ s ∧ new.body = st.body ∧
      new.exit.expr? = st.exit.expr? ∧ new.exit.successors = st.exit.successors.map ρ ∧
      (∀ t ∈ st.exit.successors, Reached states handlers t) ∧
      ∀ g ∈ st.handler, Needed states handlers g
  handler : ∀ g, Needed states handlers g → ∃ x new, handlers[g]? = some x ∧
    small.2[η g]? = some new ∧ new = renumberHandler ρ η x ∧ new.id = η g ∧
      (∀ c ∈ x.clause, Reached states handlers c.entry) ∧
      (∀ t ∈ x.cleanup, Reached states handlers t) ∧ ∀ p ∈ x.parent, Needed states handlers p

include hc

theorem retains_livePart : Retains states handlers (stateNumber states handlers)
    (handlerNumber states handlers) (livePart states handlers) := by
  have hn := hc.toNumbered
  have hmono : StrictMonoOn (stateNumber states handlers) {s | Reached states handlers s} :=
    fun s hs t ht => stateNumber_lt ((mem_liveStates_iff hc).mpr hs)
      ((mem_liveStates_iff hc).mpr ht)
  have hmono' : StrictMonoOn (handlerNumber states handlers) {g | Needed states handlers g} :=
    fun g hg h hh => rank_lt ((has_handlerMarks_iff hc).mpr hg) ((has_handlerMarks_iff hc).mpr hh)
  have hstate : ∀ s st, Reached states handlers s → states[s]? = some st →
      (livePart states handlers).1[stateNumber states handlers s]? = some
        (renumberState (stateNumber states handlers) (handlerNumber states handlers) st) :=
    fun s st hs => getElem?_livePart hn ((mem_liveStates_iff hc).mpr hs)
  have hhandler : ∀ g x, Needed states handlers g → handlers[g]? = some x →
      (livePart states handlers).2[handlerNumber states handlers g]? = some
        (renumberHandler (stateNumber states handlers) (handlerNumber states handlers) x) :=
    fun g x hg => getElem?_liveHandlers hn ((has_handlerMarks_iff hc).mpr hg)
  refine ⟨⟨?_, hmono.injOn, ?_⟩, ⟨?_, hmono'.injOn, ?_⟩, hmono, hmono', ?_, ?_⟩
  · intro s hs
    obtain ⟨st, hst, -⟩ := hs.closed hc
    exact (List.getElem?_eq_some_iff.mp (hstate s st hs hst)).1
  · intro k hk
    obtain ⟨s, -, hs, -, hk, -⟩ := exists_of_getElem?_livePart hn (getElem?_eq_getElem hk)
    exact ⟨s, (mem_liveStates_iff hc).mp hs, hk⟩
  · intro g hg
    obtain ⟨x, hx, -⟩ := hg.closed hc
    exact (List.getElem?_eq_some_iff.mp (hhandler g x hg hx)).1
  · intro k hk
    obtain ⟨g, -, hg, -, hk, -⟩ := exists_of_getElem?_liveHandlers hn (getElem?_eq_getElem hk)
    exact ⟨g, (has_handlerMarks_iff hc).mp hg, hk⟩
  · intro s hs
    obtain ⟨st, hst, hexits, hcovers⟩ := hs.closed hc
    exact ⟨st, _, hst, hstate s st hs hst, rfl, congrArg (stateNumber _ _) (hn.state s st hst), rfl,
      Terminator.expr?_mapStates _ _, Terminator.successors_mapStates _ _, hexits, hcovers⟩
  · intro g hg
    obtain ⟨x, hx, hrefs⟩ := hg.closed hc
    exact ⟨x, _, hx, hhandler g x hg hx, rfl, congrArg (handlerNumber _ _) (hn.handler g x hx),
      hrefs⟩

/-! Nothing is left to drop. -/

/-- A live state leads to the same states as before. -/
theorem next_livePart (hs : s ∈ liveStates states handlers) :
    next (livePart states handlers).1 (livePart states handlers).2 (stateNumber states handlers s) =
      (next states handlers s).map (stateNumber states handlers) := by
  have hst := getElem?_eq_getElem (lt_of_live hs)
  have hsmall := shrinks_livePart hc.toNumbered hc.nonempty
  rw [next, next, hst, hsmall.state s _ hs hst]
  simp only [hsmall.covering s _ hs hst, map_append, flatMap_map, map_flatMap]
  refine congrArg₂ _ (Terminator.successors_mapStates _ _) (congrArg (flatMap · _) ?_)
  funext x
  cases hcl : x.clause <;> cases hcu : x.cleanup <;> simp [renumberHandler, hcl, hcu]

theorem live_livePart {k : Nat} (hk : k < (livePart states handlers).1.length) :
    k ∈ liveStates (livePart states handlers).1 (livePart states handlers).2 := by
  have hkept := retains_livePart hc
  obtain ⟨s, hs, rfl⟩ := hkept.bij.surjOn hk
  clear hk
  induction hs with
  | refl =>
    have hlt := hkept.bij.mapsTo (.refl : Reached states handlers Chain.entry)
    rw [stateNumber_entry hc.nonempty]
    exact live_entry _ (Nat.zero_lt_of_lt hlt)
  | tail hs hst ih =>
    refine live_next ih ?_ (hkept.bij.mapsTo (hs.tail hst))
    rw [next_livePart hc ((mem_liveStates_iff hc).mpr hs)]
    exact mem_map_of_mem ((mem_next_iff hc).mpr hst)

theorem marked_livePart {k : Nat} (hk : k < (livePart states handlers).2.length) :
    (handlerMarks (livePart states handlers).1 (livePart states handlers).2).has k = true := by
  have hn := numbered_livePart hc.toNumbered
  have hsmall := shrinks_livePart hc.toNumbered hc.nonempty
  have hg := List.getElem?_eq_getElem hk
  obtain ⟨s, st, hs, hst, old, hold, hx⟩ := hsmall.used _ (List.getElem_mem hk)
  have hstate := hsmall.state s st hs hst
  have hlive := live_livePart hc (List.getElem?_eq_some_iff.mp hstate).1
  have hcov := live_covering hn hlive hstate (g := (livePart states handlers).2[k]) (by
    rw [hsmall.covering s st hs hst, hx]
    exact List.mem_map_of_mem hold)
  rwa [hn.handler k _ hg] at hcov

omit hc

/-- Where everything is flagged, numbers stay as they are. -/
theorem rank_full {marks : Marks} (hall : ∀ i < marks.size, marks.has i = true) :
    rank marks (ranks 0 marks.toList).toArray = id := by
  have hlist : marks.toList = replicate marks.size true := by
    refine eq_replicate_iff.mpr ⟨Array.length_toList, fun b hb => ?_⟩
    obtain ⟨i, hi, rfl⟩ := getElem_of_mem hb
    have hi' : i < marks.size := by simpa using hi
    simpa [Marks.has, hi'] using hall i hi'
  funext i
  by_cases hi : marks.has i = true
  · have hlt : i < marks.size := by
      by_contra hge
      simp [Marks.has, Nat.not_lt.mp hge] at hi
    rw [rank_eq hi, hlist, take_replicate, count_replicate_self, id,
      Nat.min_eq_left (Nat.le_of_lt hlt)]
  · exact if_neg hi

theorem renumberState_id : renumberState id id = id := by
  funext ⟨i, b, e, h⟩
  cases e <;> simp [renumberState, Terminator.mapStates, Terminator.mapExits]

theorem renumberHandler_id : renumberHandler id id = id := by
  funext x
  simp [renumberHandler]

/-- A table in which everything is live is left as it is. -/
theorem livePart_eq_self (hn : Numbered states handlers)
    (hs : ∀ k < states.length, k ∈ liveStates states handlers)
    (hg : ∀ k < handlers.length, (handlerMarks states handlers).has k = true) :
    livePart states handlers = (states, handlers) := by
  have hρ : stateNumber states handlers = id :=
    rank_full fun k hk => has_stateMarks.mpr (hs k (by simpa [stateMarks] using hk))
  have hη : handlerNumber states handlers = id :=
    rank_full fun k hk => hg k (by simpa [handlerMarks] using hk)
  rw [livePart_eq, hρ, hη, renumberState_id, renumberHandler_id, map_id, map_id,
    filter_eq_self.mpr, filter_eq_self.mpr]
  · intro x hx
    obtain ⟨k, hk, rfl⟩ := getElem_of_mem hx
    rw [hn.handler k _ (getElem?_eq_getElem hk)]
    exact hg k hk
  · intro st hst
    obtain ⟨k, hk, rfl⟩ := getElem_of_mem hst
    rw [hn.state k _ (getElem?_eq_getElem hk)]
    exact has_stateMarks.mpr (hs k hk)

/-- The reduction of a table keeps what is reached and nothing else, and a second one changes
nothing. -/
theorem livePart_exact (hc : Closed states handlers) :
    (∃ ρ η, Retains states handlers ρ η (livePart states handlers)) ∧
      livePart (livePart states handlers).1 (livePart states handlers).2 =
        livePart states handlers :=
  ⟨⟨_, _, retains_livePart hc⟩, livePart_eq_self (numbered_livePart hc.toNumbered)
    (fun _ => live_livePart hc) fun _ => marked_livePart hc⟩

/-- Two guarded states, one inside the guard of the other, and two states that nothing leads to, one
of which has a guard of its own. -/
def strandedTable : List State × List Handler :=
  ([{ id := 0, exit := .goto 2, handler := some 1 },
    { id := 1, exit := .goto 2, handler := some 2 },
    { id := 2, body := [.eval {} (.unit {})], exit := .enter 4 5, handler := some 0 },
    { id := 3, exit := .goto 3 }, { id := 4, exit := .endCleanup },
    { id := 5, exit := .branch (.bool {} true) 0 6 }, { id := 6, exit := .complete }],
   [{ id := 0, cleanup := some 4 }, { id := 1, clause := some ⟨6, none, none⟩, parent := some 0 },
    { id := 2, clause := some ⟨3, none, none⟩ }])

theorem strandedTable_livePart :
    let small := livePart strandedTable.1 strandedTable.2
    Closed strandedTable.1 strandedTable.2 ∧ small.2.length = 2 ∧ small.1.map (·.exit) =
      [.goto 1, .enter 2 3, .endCleanup, .branch (.bool {} true) 0 4, .complete] ∧
      livePart small.1 small.2 = small := by
  have hids : ∀ i : Fin 7, strandedTable.1[i].id = i := by decide
  have hguards : ∀ i : Fin 3, strandedTable.2[i].id = i ∧
      ∀ p ∈ strandedTable.2[i].parent, p < i := by decide
  have hc : Closed strandedTable.1 strandedTable.2 := by
    refine ⟨⟨?_, ?_, ?_⟩, by decide, by decide, by decide, by decide, by decide⟩
    · intro i st h
      obtain ⟨hi, rfl⟩ := List.getElem?_eq_some_iff.mp h
      exact hids ⟨i, hi⟩
    · intro i x h
      obtain ⟨hi, rfl⟩ := List.getElem?_eq_some_iff.mp h
      exact (hguards ⟨i, hi⟩).1
    · intro i x h
      obtain ⟨hi, rfl⟩ := List.getElem?_eq_some_iff.mp h
      exact (hguards ⟨i, hi⟩).2
  exact ⟨hc, by decide +kernel, by decide +kernel, (livePart_exact hc).2⟩

end Resumable.Reduce

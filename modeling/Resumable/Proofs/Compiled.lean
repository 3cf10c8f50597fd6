import Resumable.Proofs.Regions
import Resumable.Splitting.Method
import Mathlib.Data.List.Nodup

namespace Resumable

open List

variable {limit s : Nat} {st : State} {E : List StateId} {t : Terminator} {c : Chain} {kind : Kind}
  {f : Expr → Expr} {x : StateId} {φ : Handler → Handler}

namespace Terminator

theorem mapExpr_eq_endCleanup : t.mapExpr f = .endCleanup ↔ t = .endCleanup := by
  cases t with
  | suspend p r => cases p <;> simp [mapExpr]
  | _ => simp [mapExpr]

theorem mapExpr_eq_enter {c : StateId} : t.mapExpr f = .enter c x ↔ t = .enter c x := by
  cases t with
  | suspend p r => cases p <;> simp [mapExpr]
  | _ => simp [mapExpr]

theorem mapStates_eq_endCleanup {f : StateId → StateId} :
    t.mapStates f = .endCleanup ↔ t = .endCleanup := by
  cases t <;> simp [mapStates, mapExits]

theorem mapStates_eq_enter {f : StateId → StateId} {c : StateId} :
    t.mapStates f = .enter c x ↔ ∃ c' x', t = .enter c' x' ∧ f c' = c ∧ f x' = x := by
  cases t <;> simp [mapStates, mapExits]

theorem expr?_mapStates (f : StateId → StateId) (t : Terminator) :
    (t.mapStates f).expr? = t.expr? := by
  cases t with
  | suspend p r => cases p <;> rfl
  | _ => rfl

theorem successors_mapStates (f : StateId → StateId) (t : Terminator) :
    (t.mapStates f).successors = t.successors.map f := by
  cases t with
  | ret v t => cases t <;> rfl
  | _ => rfl

theorem expr?_mapExpr (f : Expr → Expr) (t : Terminator) :
    (t.mapExpr f).expr? = t.expr?.map f := by
  cases t with
  | suspend p r => cases p <;> rfl
  | _ => rfl

theorem successors_mapExpr (f : Expr → Expr) (t : Terminator) :
    (t.mapExpr f).successors = t.successors := by
  cases t with
  | suspend p r => cases p <;> rfl
  | _ => rfl

end Terminator

namespace Machine

/-- Where a fault goes once entries and cleanups have other forms. -/
def Rescue.map (f : Landing → Landing) (g : StateId → StateId) : Rescue → Rescue
  | .clause c => .clause (f c)
  | .cleanup s => .cleanup (g s)

theorem rescue?_map {f : Landing → Landing} {g : StateId → StateId}
    (hf : ∀ x, (φ x).clause = x.clause.map f) (hg : ∀ x, (φ x).cleanup = x.cleanup.map g)
    (hs : List Handler) : rescue? (hs.map φ) = (rescue? hs).map (Rescue.map f g) := by
  induction hs with
  | nil => rfl
  | cons x hs ih =>
    rw [map_cons, rescue?, rescue?, hf, hg]
    cases x.clause with
    | some c => rfl
    | none =>
      cases x.cleanup with
      | some s => rfl
      | none => exact ih

/-- A fault goes to a clause or cleanup of one of the handlers. -/
theorem mem_of_rescue? {hs : List Handler} {r : Rescue} (h : rescue? hs = some r) :
    ∃ x ∈ hs, (∀ c, r = .clause c → x.clause = some c) ∧
      ∀ s, r = .cleanup s → x.cleanup = some s := by
  induction hs with
  | nil => cases h
  | cons x hs ih =>
    rw [rescue?] at h
    split at h
    · rename_i c hc
      cases h
      exact ⟨x, mem_cons_self, fun _ h => by cases h; exact hc, by rintro _ ⟨⟩⟩
    · rename_i s hc hs
      cases h
      exact ⟨x, mem_cons_self, by rintro _ ⟨⟩, fun _ h => by cases h; exact hs⟩
    · obtain ⟨y, hy, hr⟩ := ih h
      exact ⟨y, mem_cons_of_mem _ hy, hr⟩

end Machine

namespace Regions

open Reduce

section

variable {states : List State} {handlers : List Handler} {live : Nat → Prop}
  {ρ : StateId → StateId} {η : HandlerId → HandlerId} {small : List State × List Handler}

section

variable (h : Shrinks states handlers live ρ η small)
include h

theorem enclosing_shrinks (hs : live s)
    (hst : states[s]? = some st) :
    enclosing small.1 small.2 (ρ s) = (enclosing states handlers s).map ρ := by
  have hc := h.covering s st hs hst
  rw [enclosing, h.state s st hs hst, enclosing, hst]
  simp only [Option.bind_some, around]
  simp only [covering] at hc
  rw [hc, filterMap_map, map_filterMap]
  rfl

theorem plain_shrinks (hs : live s) (hp : Plain states s) : Plain small.1 (ρ s) := by
  obtain ⟨st, hst, hc, hr⟩ := hp
  refine ⟨_, h.state s st hs hst, fun he => hc (Terminator.mapStates_eq_endCleanup.mp he), ?_⟩
  intro f x he
  obtain ⟨f', x', he', -⟩ := Terminator.mapStates_eq_enter.mp he
  exact hr f' x' he'

theorem cleans_shrinks (hs : live s) (hc : Cleans states s) : Cleans small.1 (ρ s) := by
  obtain ⟨st, hst, he⟩ := hc
  exact ⟨_, h.state s st hs hst, Terminator.mapStates_eq_endCleanup.mpr he⟩

end

theorem Plain.lt (hp : Plain states s) : s < states.length := by
  obtain ⟨st, hst, -⟩ := hp
  exact (List.getElem?_eq_some_iff.mp hst).1

theorem Cleans.lt (hp : Cleans states s) : s < states.length := by
  obtain ⟨st, hst, -⟩ := hp
  exact (List.getElem?_eq_some_iff.mp hst).1

theorem Link.lt {t : Nat} (hl : Link states handlers E t) : t < states.length := by
  cases hl with
  | stay ht | into ht => exact ht.lt
  | out ht => exact (List.getElem?_eq_some_iff.mp ht).1

section

variable (h : Shrinks states handlers live ρ η small)
include h

theorem live_successor {t : Nat} (hs : live s)
    (hst : states[s]? = some st) (ht : t ∈ st.exit.successors) (hlt : t < states.length) :
    live t := by
  refine h.next s t hs ?_ hlt
  rw [Reduce.next, hst]
  exact mem_append_left _ ht

theorem live_covering {t : Nat} {g : Handler} (hs : live s) (hst : states[s]? = some st)
    (hg : g ∈ covering handlers st)
    (ht : t ∈ g.clause.toList.map (·.entry) ++ g.cleanup.toList) (hlt : t < states.length) :
    live t := by
  refine h.next s t hs ?_ hlt
  rw [Reduce.next, hst]
  exact mem_append_right _ (mem_flatMap.mpr ⟨g, hg, ht⟩)

theorem live_enclosing {f : Nat} (hs : live s)
    (hf : f ∈ enclosing states handlers s) (hc : Cleans states f) : live f := by
  rw [enclosing] at hf
  cases hst : states[s]? with
  | none => simp [hst, around] at hf
  | some st =>
    rw [hst, Option.bind_some] at hf
    obtain ⟨g, hg, hgf⟩ := mem_filterMap.mp hf
    exact live_covering h hs hst hg (by simp [hgf]) hc.lt

theorem link_shrinks {t : Nat} (ht : live t)
    (hE : ∀ f ∈ E, live f) (hl : Link states handlers E t) :
    Link small.1 small.2 (E.map ρ) (ρ t) := by
  cases hl with
  | stay hp he =>
    obtain ⟨st, hst, -⟩ := id hp
    exact .stay (plain_shrinks h ht hp) (by rw [enclosing_shrinks h ht hst, he])
  | @into hp f he hf hc =>
    obtain ⟨st, hst, -⟩ := id hp
    have hlf : live f := live_enclosing h ht (he ▸ mem_cons_self) hc
    refine .into (plain_shrinks h ht hp) (f := ρ f) (by rw [enclosing_shrinks h ht hst, he]; rfl)
      ?_ (cleans_shrinks h hlf hc)
    intro hm
    obtain ⟨f', hf', heq⟩ := mem_map.mp hm
    exact hf (h.inj f' f (hE f' hf') hlf heq ▸ hf')
  | @out f x st hst hx he =>
    refine .out (f := ρ f) (x := ρ x) (h.state t st ht hst)
      (by simp [renumberState, hx, Terminator.mapStates]) ?_
    rw [enclosing_shrinks h ht hst, he]
    rfl

theorem caught_shrinks (hs : live s)
    (hst : states[s]? = some st) (hc : Caught states handlers (enclosing states handlers s)
      (Machine.rescue? (Handler.outward handlers handlers.length st.handler))) :
    Caught small.1 small.2 (enclosing small.1 small.2 (ρ s)) (Machine.rescue?
      (Handler.outward small.2 small.2.length (renumberState ρ η st).handler)) := by
  have hcov := h.covering s st hs hst
  simp only [covering] at hcov
  rw [hcov, Machine.rescue?_map (f := fun c => { c with entry := ρ c.entry }) (g := ρ)
    (fun _ => rfl) (fun _ => rfl), enclosing_shrinks h hs hst]
  cases hr : Machine.rescue? (Handler.outward handlers handlers.length st.handler) with
  | none =>
    rw [hr] at hc
    exact congrArg (map ρ) hc
  | some r =>
    obtain ⟨g, hg, hclause, hcleanup⟩ := Machine.mem_of_rescue? hr
    rw [hr] at hc
    cases r with
    | clause c =>
      obtain ⟨hp, he⟩ := hc
      obtain ⟨st', hst', -⟩ := id hp
      have hl := live_covering h hs hst hg (t := c.entry) (by simp [hclause c rfl]) hp.lt
      exact ⟨plain_shrinks h hl hp, by rw [← he]; exact enclosing_shrinks h hl hst'⟩
    | cleanup f =>
      obtain ⟨hp, he⟩ := hc
      obtain ⟨st', hst', -⟩ := id hp
      have hl := live_covering h hs hst hg (t := f) (by simp [hcleanup f rfl]) hp.lt
      refine ⟨cleans_shrinks h hl hp, ?_⟩
      rw [he, enclosing_shrinks h hl hst']
      rfl

theorem fine_shrinks (hs : live s)
    (hst : states[s]? = some st) (ho : Orderly states handlers s st) :
    Fine small.1 small.2 (enclosing small.1 small.2 (ρ s)) (renumberState ρ η st).exit := by
  have hE : ∀ f ∈ enclosing states handlers s, live f := fun f hf =>
    live_enclosing h hs hf (ho.cleans f hf)
  have hlink : ∀ t : Nat, t ∈ st.exit.successors →
      Link states handlers (enclosing states handlers s) t →
      Link small.1 small.2 ((enclosing states handlers s).map ρ) (ρ t) := fun t ht hl =>
    link_shrinks h (live_successor h hs hst ht hl.lt) hE hl
  have hf := ho.exit
  rw [enclosing_shrinks h hs hst]
  simp only [renumberState]
  cases hx : st.exit with
  | goto t =>
    rw [hx] at hf
    exact hlink t (by simp [hx, Terminator.successors]) hf
  | branch e a b =>
    rw [hx] at hf
    exact ⟨hlink a (by simp [hx, Terminator.successors]) hf.1,
      hlink b (by simp [hx, Terminator.successors]) hf.2⟩
  | suspend p r =>
    rw [hx] at hf
    obtain ⟨st', hst', -⟩ := id hf.1
    have hl := live_successor h hs hst (t := r) (by simp [hx, Terminator.successors]) hf.1.lt
    refine ⟨plain_shrinks h hl hf.1, ?_⟩
    rw [enclosing_shrinks h hl hst', hf.2]
  | ret v t =>
    rw [hx] at hf
    cases t with
    | none => exact congrArg (map ρ) hf
    | some t => exact hlink t (by simp [hx, Terminator.successors]) hf
  | enter f x =>
    rw [hx] at hf
    obtain ⟨hc, he, hl⟩ := hf
    obtain ⟨st', hst', -⟩ := id hc
    have hlf := live_successor h hs hst (t := f) (by simp [hx, Terminator.successors]) hc.lt
    refine ⟨cleans_shrinks h hlf hc, ?_, hlink x (by simp [hx, Terminator.successors]) hl⟩
    rw [enclosing_shrinks h hlf hst', he]
  | endCleanup => trivial
  | complete =>
    rw [hx] at hf
    exact congrArg (map ρ) hf
  | unreachable => trivial

end

/-- The live part of a table keeps to the regions if the table does. -/
theorem Disciplined.shrinks (hd : Disciplined states handlers)
    (h : Shrinks states handlers live ρ η small) : Disciplined small.1 small.2 := by
  obtain ⟨st₀, hst₀, -⟩ := id hd.entry
  refine ⟨h.entry_eq ▸ plain_shrinks h h.entry hd.entry, ?_, ?_⟩
  · have he := enclosing_shrinks h h.entry hst₀
    rwa [h.entry_eq, hd.outside] at he
  intro k st hk
  obtain ⟨s, old, hs, hold, rfl, rfl⟩ := h.onto k st hk
  have ho := hd.state s old hold
  have hE : ∀ f ∈ enclosing states handlers s, live f := fun f hf =>
    live_enclosing h hs hf (ho.cleans f hf)
  have henc := enclosing_shrinks h hs hold
  refine ⟨fine_shrinks h hs hold ho, caught_shrinks h hs hold ho.fault, ?_, ?_, ?_, ?_⟩
  · rw [henc]
    exact ho.nodup.map_on fun f hf f' hf' => h.inj f f' (hE f hf) (hE f' hf')
  · rw [henc]
    intro f hf
    obtain ⟨f', hf', rfl⟩ := mem_map.mp hf
    exact cleans_shrinks h (hE f' hf') (ho.cleans f' hf')
  · intro f x hx
    obtain ⟨f', x', he, -⟩ := Terminator.mapStates_eq_enter.mp hx
    exact ho.route f' x' he
  · intro hx hm
    rw [henc] at hm
    obtain ⟨f, hf, heq⟩ := mem_map.mp hm
    exact ho.fresh (Terminator.mapStates_eq_endCleanup.mp hx) (h.inj f s (hE f hf) hs heq ▸ hf)

end

/-! Hoisting. -/

section

open Hoist

variable {states : List State} {handlers : List Handler} (m : Manifest)

theorem outward_map (hφ : ∀ x, (φ x).parent = x.parent) (handlers : List Handler) (n : Nat)
    (h : Option HandlerId) :
    Handler.outward (handlers.map φ) n h = (Handler.outward handlers n h).map φ := by
  induction n generalizing h with
  | zero => rfl
  | succ n ih =>
    cases h with
    | none => rfl
    | some i =>
      rw [Handler.outward, Handler.outward, getElem?_map]
      cases handlers[i]? with
      | none => rfl
      | some g =>
        refine congrArg (φ g :: ·) ?_
        rw [hφ g]
        exact ih g.parent

theorem outward_hoist (n : Nat) (h : Option HandlerId) :
    Handler.outward (handlers.map (hoistHandler m)) n h =
      (Handler.outward handlers n h).map (hoistHandler m) :=
  outward_map (φ := hoistHandler m) (fun _ => rfl) handlers n h

theorem around_hoist (h : Option HandlerId) :
    around (handlers.map (hoistHandler m)) h = around handlers h := by
  rw [around, length_map, outward_hoist, filterMap_map]
  rfl

theorem enclosing_hoist (s : StateId) :
    enclosing (states.map (hoistState m)) (handlers.map (hoistHandler m)) s =
      enclosing states handlers s := by
  rw [enclosing, around_hoist, enclosing, getElem?_map]
  cases states[s]? <;> rfl

theorem getElem?_hoist (h : states[s]? = some st) :
    (states.map (hoistState m))[s]? = some (hoistState m st) := by
  rw [getElem?_map, h, Option.map_some]

theorem plain_hoist {s : StateId} (hp : Plain states s) :
    Plain (states.map (hoistState m)) s := by
  obtain ⟨st, hst, hc, hr⟩ := hp
  exact ⟨_, getElem?_hoist m hst, fun he => hc (Terminator.mapExpr_eq_endCleanup.mp he),
    fun f x he => hr f x (Terminator.mapExpr_eq_enter.mp he)⟩

theorem cleans_hoist {s : StateId} (hc : Cleans states s) :
    Cleans (states.map (hoistState m)) s := by
  obtain ⟨st, hst, he⟩ := hc
  exact ⟨_, getElem?_hoist m hst, Terminator.mapExpr_eq_endCleanup.mpr he⟩

theorem link_hoist {t : StateId} (hl : Link states handlers E t) :
    Link (states.map (hoistState m)) (handlers.map (hoistHandler m)) E t := by
  cases hl with
  | stay hp he => exact .stay (plain_hoist m hp) ((enclosing_hoist m t).trans he)
  | into hp he hf hc =>
    exact .into (plain_hoist m hp) ((enclosing_hoist m t).trans he) hf (cleans_hoist m hc)
  | out ht hx he =>
    exact .out (getElem?_hoist m ht) (Terminator.mapExpr_eq_enter.mpr hx)
      (he.trans (by rw [enclosing_hoist]))

theorem fine_hoist (hf : Fine states handlers E t) :
    Fine (states.map (hoistState m)) (handlers.map (hoistHandler m)) E
      (t.mapExpr (hoistExpr m)) := by
  cases t with
  | goto t => exact link_hoist m hf
  | branch e a b => exact ⟨link_hoist m hf.1, link_hoist m hf.2⟩
  | suspend p r =>
    have hr := And.intro (plain_hoist m hf.1)
      ((enclosing_hoist m r : enclosing _ (handlers.map _) _ = _).trans hf.2)
    cases p <;> exact hr
  | ret v t =>
    cases t with
    | none => exact hf
    | some t => exact link_hoist m hf
  | enter f x =>
    obtain ⟨hc, he, hl⟩ := hf
    exact ⟨cleans_hoist m hc, (enclosing_hoist m f).trans he, link_hoist m hl⟩
  | complete => exact hf
  | endCleanup | unreachable => trivial

theorem caught_hoist {h : Option HandlerId} {n : Nat}
    (hc : Caught states handlers E (Machine.rescue? (Handler.outward handlers n h))) :
    Caught (states.map (hoistState m)) (handlers.map (hoistHandler m)) E
      (Machine.rescue? (Handler.outward (handlers.map (hoistHandler m)) n h)) := by
  rw [outward_hoist, Machine.rescue?_map
    (f := fun c => { c with slot := c.binding.bind m.slotOf? }) (g := id) (fun _ => rfl)
    (fun x => by simp [hoistHandler])]
  cases hr : Machine.rescue? (Handler.outward handlers n h) with
  | none =>
    rw [hr] at hc
    exact hc
  | some r =>
    rw [hr] at hc
    cases r with
    | clause c => exact ⟨plain_hoist m hc.1, (enclosing_hoist m _).trans hc.2⟩
    | cleanup f => exact ⟨cleans_hoist m hc.1, hc.2.trans (by rw [id, enclosing_hoist])⟩

/-- A table keeps to the regions when its variables move to slots. -/
theorem Disciplined.hoist (hd : Disciplined states handlers) :
    Disciplined (states.map (hoistState m)) (handlers.map (hoistHandler m)) := by
  refine ⟨plain_hoist m hd.entry, (enclosing_hoist m _).trans hd.outside, ?_⟩
  intro s st hst
  rw [getElem?_map] at hst
  obtain ⟨old, hold, rfl⟩ := Option.map_eq_some_iff.mp hst
  have ho := hd.state s old hold
  constructor
  · rw [enclosing_hoist]
    exact fine_hoist m ho.exit
  · rw [enclosing_hoist, length_map]
    exact caught_hoist m ho.fault
  · rw [enclosing_hoist]
    exact ho.nodup
  · rw [enclosing_hoist]
    exact fun f hf => cleans_hoist m (ho.cleans f hf)
  · intro f x hx
    have hb := ho.route f x (Terminator.mapExpr_eq_enter.mp hx)
    simp [hoistState, hb, hoistBlock]
  · rw [enclosing_hoist]
    exact fun hx => ho.fresh (Terminator.mapExpr_eq_endCleanup.mp hx)

end

end Regions

/-- How a chain has been made from a method: the table of its body, the smaller table of what is
live in it, and the slots. -/
structure Compiled (m : Method) (kind : Kind) (c : Chain) where
  table : Table
  live : Nat → Prop
  /-- The new number of a state. -/
  number : StateId → StateId
  /-- The new number of a handler. -/
  guard : HandlerId → HandlerId
  small : List State × List Handler
  drafted : ∃ d, Splitting.splitBody kind m.body = .ok d ∧ table = d.table
  body : Layout.Body table m.body
  numbered : Numbered table.states table.handlers
  shrinks : Reduce.Shrinks table.states table.handlers live number guard small
  kind_eq : c.kind = kind
  captures : c.captures = Hoist.manifest small.1 m.params table.caught
  states : c.states = small.1.map (Hoist.hoistState c.captures)
  handlers : c.handlers = small.2.map (Hoist.hoistHandler c.captures)
  params : c.params = m.params.filterMap c.captures.slotOf?

theorem Method.compiled {m : Method} (h : m.toChain kind limit = .ok c) :
    Nonempty (Compiled m kind c) := by
  obtain ⟨d, hd, h⟩ := Splitting.bind_eq_ok h
  obtain ⟨hb, hn⟩ := Splitting.splitBody_laid hd
  have hlen : 0 < d.table.states.length := by
    obtain ⟨st, hst, -⟩ := hb.entry
    exact (List.getElem?_eq_some_iff.mp hst).1
  have hs := Reduce.shrinks_livePart hn hlen
  simp only [] at h
  split at h
  · cases h
  · cases h
    exact ⟨⟨_, _, _, _, _, ⟨d, hd, rfl⟩, hb, hn, hs, rfl, rfl, rfl, rfl, rfl⟩⟩

theorem Method.length_toChain_le {m : Method} (h : m.toChain kind limit = .ok c) :
    c.states.length ≤ limit := by
  obtain ⟨d, -, h⟩ := Splitting.bind_eq_ok h
  simp only [] at h
  split at h
  · cases h
  · rename_i hlimit
    cases h
    simpa using hlimit

theorem Compiled.disciplined {m : Method} (h : Compiled m kind c) :
    Regions.Disciplined c.states c.handlers := by
  rw [h.states, h.handlers]
  exact ((h.body.disciplined h.numbered).shrinks h.shrinks).hoist c.captures

/-- The states of a chain know their places. -/
theorem Compiled.id_eq {m : Method} (h : Compiled m kind c) {i : Nat}
    (hst : c.states[i]? = some st) : st.id = i := by
  rw [h.states, getElem?_map] at hst
  obtain ⟨st', hst', rfl⟩ := Option.map_eq_some_iff.mp hst
  exact h.shrinks.numbered.state i st' hst'

end Resumable

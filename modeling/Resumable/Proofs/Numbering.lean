import Resumable.Proofs.Captures
import Resumable.Proofs.Roundtrip
import Mathlib.Data.List.TFAE

namespace Resumable.Manifest

open List

/-- The manifest after these variables have been inserted, one after the other. -/
def ofInserts (ops : List (String × Origin)) : Manifest :=
  ops.foldl (fun m op => m.insert op.1 op.2) {}

section

variable (m : Manifest)

/-- The variables are listed in the order of their slots. -/
def Listed : Prop :=
  m.toList.map (·.slot) = List.range m.size

/-- At each place is the variable with that slot. -/
def Placed : Prop :=
  ∀ k < m.size, ∃ v, m.get? k = some v ∧ v.slot = k

/-- A name leads by its slot to the variable of that name. -/
def Traced : Prop :=
  ∀ x k, m.slotOf? x = some k → ∃ v, m.get? k = some v ∧ v.name = x

/-- A name that has a slot can be inserted without any change, and a new one gets the next slot. -/
def Grows : Prop :=
  ∀ x origin, (∀ k, m.slotOf? x = some k → m.insert x origin = m) ∧
    (m.slotOf? x = none → (m.insert x origin).slotOf? x = some m.size)

/-- Each name has one variable, which knows it, and the slots in use are the first ones. -/
structure Regular : Prop where
  names : (m.vars.map (·.1)).Nodup
  labelled : m.Labelled
  slots : (m.toList.map (·.slot)).Perm (List.range m.size)

end

variable {m : Manifest}

theorem grows (m : Manifest) : m.Grows := by
  intro x origin
  constructor
  · intro k hk
    obtain ⟨v, hv, -⟩ := Option.map_eq_some_iff.mp hk
    exact m.insert_of_some origin hv
  · intro hk
    have hvars : m.vars.lookup x = none := Option.map_eq_none_iff.mp hk
    simp [slotOf?, Manifest.insert, find?, Named.get?, lookup_append, hvars]

theorem nodup_insert (h : (m.vars.map (·.1)).Nodup) (x : String) (origin : Origin) :
    ((m.insert x origin).vars.map (·.1)).Nodup := by
  unfold Manifest.insert
  split
  · exact h
  · rename_i hx
    rw [map_append, nodup_append]
    refine ⟨h, nodup_singleton x, fun y hy z hz he => ?_⟩
    cases mem_singleton.mp hz
    obtain ⟨p, hp, rfl⟩ := mem_map.mp hy
    cases hx.symm.trans (he ▸ (Named.get?_eq_some_iff h).mpr hp)

theorem ofInserts_induct {P : Manifest → Prop} (hnil : P {})
    (hstep : ∀ m x origin, P m → P (m.insert x origin)) (ops : List (String × Origin)) :
    P (ofInserts ops) :=
  foldlRecOn ops _ hnil fun m hm op _ => hstep m op.1 op.2 hm

theorem ordered_ofInserts (ops : List (String × Origin)) : (ofInserts ops).Ordered :=
  ofInserts_induct nofun (fun _ x origin h => h.insert x origin) ops

theorem listed_iff : m.Listed ↔ m.Ordered := by
  constructor
  · intro h k v hv
    have hk := congrArg (·[k]?) h
    have hlt : k < m.size := (List.getElem?_eq_some_iff.mp hv).1
    simpa only [toList, getElem?_map, hv, getElem?_range hlt, Option.map_some,
      Option.some.injEq] using hk
  · intro h
    refine ext_getElem (by simp [toList, size]) fun k hk _ => ?_
    have hk : k < m.vars.length := by simpa [toList] using hk
    simpa [toList] using h k _ (getElem?_eq_getElem hk)

theorem regular_ofInserts (ops : List (String × Origin)) : (ofInserts ops).Regular where
  names := ofInserts_induct (P := fun m => (m.vars.map (·.1)).Nodup) nodup_nil
    (fun _ x origin h => nodup_insert h x origin) ops
  labelled := ofInserts_induct nofun (fun _ x origin h => h.insert x origin) ops
  slots := (listed_iff.mpr (ordered_ofInserts ops)) ▸ .refl _

namespace Regular

variable (h : m.Regular)
include h

theorem slotOf?_iff {x : String} {k : Slot} :
    m.slotOf? x = some k ↔ ∃ v, (x, v) ∈ m.vars ∧ v.name = x ∧ v.slot = k := by
  simp only [slotOf?, find?, Option.map_eq_some_iff, Named.get?_eq_some_iff h.names]
  exact exists_congr fun v => and_congr_right fun hv => (and_iff_right (h.labelled _ hv)).symm

/-- Slots and places go together in each of three ways, or in none. -/
theorem together : [m.Listed, m.Placed, m.Traced].TFAE := by
  refine tfae_of_cycle ?_ ?_
  · refine .cons_cons (fun hl k hk => ?_) (.cons_cons (fun hp x k hk => ?_) (.singleton _))
    · have hv := getElem?_eq_getElem (l := m.vars) hk
      exact ⟨_, by rw [get?, hv, Option.map_some], listed_iff.mp hl k _ hv⟩
    · obtain ⟨v, hv, hname, rfl⟩ := h.slotOf?_iff.mp hk
      have hmem : v ∈ m.toList := mem_map_of_mem (f := (·.2)) hv
      have hlt : v.slot < m.size :=
        mem_range.mp (h.slots.mem_iff.mp (mem_map_of_mem hmem))
      obtain ⟨u, hu, hslot⟩ := hp _ hlt
      obtain ⟨p, hpu, rfl⟩ := Option.map_eq_some_iff.mp hu
      have heq : p.2 = v := inj_on_of_nodup_map (h.slots.nodup_iff.mpr nodup_range)
        (mem_map_of_mem (mem_of_getElem? hpu)) hmem hslot
      exact ⟨_, hu, heq ▸ hname⟩
  · intro ht
    refine listed_iff.mpr fun k p hp => ?_
    have hmem := mem_of_getElem? hp
    obtain ⟨v, hv, hname⟩ := ht p.1 p.2.slot
      (h.slotOf?_iff.mpr ⟨p.2, hmem, h.labelled p hmem, rfl⟩)
    obtain ⟨q, hq, rfl⟩ := Option.map_eq_some_iff.mp hv
    rw [h.labelled q (mem_of_getElem? hq)] at hname
    refine (getElem?_inj ?_ h.names).mp ?_
    · simpa using (List.getElem?_eq_some_iff.mp hq).1
    · rw [getElem?_map, getElem?_map, hp, hq, Option.map_some, Option.map_some, hname]

theorem sorted : (⟨Named.sorted m.vars⟩ : Manifest).Regular := by
  have hperm := Named.perm_sorted m.vars
  refine ⟨(hperm.map _).nodup_iff.mpr h.names, fun p hp => h.labelled p (hperm.mem_iff.mp hp), ?_⟩
  rw [size, hperm.length_eq]
  exact ((hperm.map _).map _).trans h.slots

end Regular

theorem Ordered.pairwise (h : m.Ordered) : m.vars.Pairwise (·.2.slot < ·.2.slot) := by
  refine pairwise_iff_getElem.mpr fun i j hi hj hij => ?_
  rwa [h i _ (getElem?_eq_getElem hi), h j _ (getElem?_eq_getElem hj)]

/-- In the order of their names the variables are in their places only if they have been there
before. -/
theorem Ordered.sorted_iff (h : m.Ordered) (hn : (m.vars.map (·.1)).Nodup) :
    (⟨Named.sorted m.vars⟩ : Manifest).Ordered ↔ m.vars.Pairwise (·.1 ≤ ·.1) := by
  constructor
  · intro hs
    have heq : Named.sorted m.vars = m.vars :=
      List.Perm.eq_of_pairwise (fun _ _ _ _ hpq hqp => absurd hpq (Nat.lt_asymm hqp))
        hs.pairwise h.pairwise (Named.perm_sorted m.vars)
    exact heq ▸ Named.pairwise_sorted m.vars
  · intro hp
    rwa [Named.eq_of_pairwise hn (Named.pairwise_sorted m.vars) hp (Named.perm_sorted m.vars)]

/-- As long as variables are only inserted, slots and places go together. A manifest that is written
and read has the same slots under the same names, and grows as before, but its slots and places go
together only if the names were in order. -/
theorem slots_and_places (ops : List (String × Origin)) (hsize : (ofInserts ops).size < 2 ^ 32) :
    let m := ofInserts ops
    m.Listed ∧ m.Placed ∧ m.Traced ∧ m.Grows ∧ ∃ r, Manifest.ofData? m.toData = some r ∧
      (∀ x, r.slotOf? x = m.slotOf? x) ∧ (r.toList.map (·.slot)).Perm (range m.size) ∧
      r.Grows ∧ [r.Listed, r.Placed, r.Traced, m.vars.Pairwise (·.1 ≤ ·.1)].TFAE := by
  intro m
  have hm : m.Regular := regular_ofInserts ops
  have hordered : m.Ordered := ordered_ofInserts ops
  have hlisted := listed_iff.mpr hordered
  have hread : Manifest.ofData? m.toData = some ⟨Named.sorted m.vars⟩ := by
    refine m.ofData?_of_same (fun v hv => Nat.lt_trans ?_ hsize) rfl
    exact mem_range.mp (hm.slots.mem_iff.mp (mem_map_of_mem hv))
  have hslots := hm.sorted.slots
  rw [size, (Named.perm_sorted m.vars).length_eq] at hslots
  refine ⟨hlisted, (hm.together.out 0 1).mp hlisted, (hm.together.out 0 2).mp hlisted, grows m, _,
    hread, fun x => ?_, hslots, grows _, ?_⟩
  · rw [slotOf?, slotOf?, find?, find?, Named.get?_of_perm (Named.perm_sorted _) hm.names]
  · have hlast := listed_iff.trans (hordered.sorted_iff hm.names)
    have ht := hm.sorted.together
    exact tfae_of_cycle (.cons_cons (ht.out 0 1).mp (.cons_cons (ht.out 1 2).mp
      (.cons_cons (fun h => hlast.mp ((ht.out 2 0).mp h)) (.singleton _)))) hlast.mpr

/-- Two variables whose names have not come in order. -/
def crossed : Manifest :=
  ofInserts [("b", .parameter), ("a", .shared)]

theorem crossed_slots_and_places :
    crossed.Placed ∧ ∃ r, Manifest.ofData? crossed.toData = some r ∧ ¬ r.Traced := by
  obtain ⟨-, hplaced, -, -, r, hr, -, -, -, htogether⟩ :=
    slots_and_places [("b", .parameter), ("a", .shared)] (by decide +kernel)
  refine ⟨hplaced, r, hr, fun ht => ?_⟩
  have hsorted := (htogether.out 2 3).mp ht
  revert hsorted
  decide +kernel

/-- Read in the order of the names, the first variable is the one with the last slot. -/
theorem crossed_read : ∃ r, Manifest.ofData? crossed.toData = some r ∧ ¬ r.Listed ∧
    r.get? 0 = some ⟨1, "a", .shared⟩ := by
  refine ⟨⟨[("a", ⟨1, "a", .shared⟩), ("b", ⟨0, "b", .parameter⟩)]⟩, ?_, ?_, rfl⟩
  · decide +kernel
  · unfold Listed
    decide +kernel

end Resumable.Manifest

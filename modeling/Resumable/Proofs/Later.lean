import Resumable.Proofs.Tasks

namespace Resumable.World

open List

variable {σ κ : Type} {w w' w'' : World σ κ} {home : StorageId}

/-- The number of slots of a storage that someone holds. -/
def room (w : World σ κ) (home : StorageId) : Option Nat :=
  (w.storages[home]?.filter (0 < ·.holders)).map (·.slots.length)

def holders (w : World σ κ) (home : StorageId) : Nat :=
  w.storages[home]?.elim 0 (·.holders)

/-- The slot has been set at some time. -/
def Written (w : World σ κ) (home : StorageId) (k : Slot) : Prop :=
  .wrote home k ∈ w.accesses

/-- The task has run at some time. -/
def HasRun (w : World σ κ) (r : FutureId) : Prop :=
  ∃ i ∈ w.history, ∃ o, i.happening = .runs r o

/-- The storage has been made, and has `n` slots as long as someone holds it. -/
structure Fits (w : World σ κ) (home : StorageId) (n : Nat) : Prop where
  made : home < w.storages.size
  room : w.strays = 0 → ∀ k, w.room home = some k → k = n

/-- What is true of any world that comes after another one. -/
structure Later (w w' : World σ κ) : Prop where
  futures : w.futures.size ≤ w'.futures.size
  outcome : ∀ {f o}, w.outcome? f = some o → w'.outcome? f = some o
  storages : w.storages.size ≤ w'.storages.size
  room : w'.strays = 0 → ∀ i k, i < w.storages.size → w'.room i = some k → w.room i = some k
  accesses : w.accesses <:+ w'.accesses
  history : w.history <:+ w'.history
  strays : w.strays ≤ w'.strays

theorem Later.refl (w : World σ κ) : w.Later w :=
  ⟨Nat.le_refl _, id, Nat.le_refl _, fun _ _ _ _ h => h, suffix_rfl, suffix_rfl,
    Nat.le_refl _⟩

theorem Later.trans (h : w.Later w') (h' : w'.Later w'') : w.Later w'' where
  futures := Nat.le_trans h.futures h'.futures
  outcome := fun ho => h'.outcome (h.outcome ho)
  storages := Nat.le_trans h.storages h'.storages
  room := fun hs i k hi hk => h.room (Nat.le_zero.mp (hs ▸ h'.strays)) i k hi
    (h'.room hs i k (Nat.lt_of_lt_of_le hi h.storages) hk)
  accesses := h.accesses.trans h'.accesses
  history := h.history.trans h'.history
  strays := Nat.le_trans h.strays h'.strays

theorem Fits.later {n : Nat} (hf : w.Fits home n) (h : w.Later w') : w'.Fits home n :=
  ⟨Nat.lt_of_lt_of_le hf.made h.storages, fun hs k hk =>
    hf.room (Nat.le_zero.mp (hs ▸ h.strays)) k (h.room hs home k hf.made hk)⟩

theorem Written.later {k : Slot} (hw : w.Written home k) (h : w.Later w') : w'.Written home k :=
  h.accesses.subset hw

theorem HasRun.later {r : FutureId} (hr : w.HasRun r) (h : w.Later w') : w'.HasRun r := by
  obtain ⟨i, hi, hrun⟩ := hr
  exact ⟨i, h.history.subset hi, hrun⟩

/-- Nothing happens to futures and storages, and nothing is written down. -/
theorem later_of_eq (hf : w'.futures = w.futures) (hs : w'.storages = w.storages)
    (ha : w'.accesses = w.accesses) (hh : w'.history = w.history) (hk : w'.strays = w.strays) :
    w.Later w' where
  futures := Nat.le_of_eq (congrArg Array.size hf.symm)
  outcome := fun ho => by rw [outcome?, hf]; exact ho
  storages := Nat.le_of_eq (congrArg Array.size hs.symm)
  room := fun _ i k _ hi => by rw [room, ← hs]; exact hi
  accesses := ha ▸ suffix_rfl
  history := hh ▸ suffix_rfl
  strays := Nat.le_of_eq hk.symm

section

variable (w : World σ κ)

theorem later_grasp (held : List (Holding κ)) : w.Later (w.grasp held) :=
  later_of_eq rfl rfl rfl rfl rfl

theorem later_letGo (hands : List (Holding κ)) : w.Later (w.letGo hands) :=
  later_of_eq rfl rfl rfl rfl rfl

theorem later_record (x : Happening) : w.Later (w.record x) :=
  ⟨Nat.le_refl _, id, Nat.le_refl _, fun _ _ _ _ h => h, suffix_rfl, suffix_cons _ _,
    Nat.le_refl _⟩

theorem later_defect : w.Later w.defect :=
  later_of_eq rfl rfl rfl rfl rfl

end

theorem Later.holding {held hands : List (Holding κ)} (h : (w.grasp held).Later w') :
    w.Later (w'.letGo hands) :=
  ((later_grasp w held).trans h).trans (later_letGo w' hands)

theorem later_given (w : World σ κ) (home : StorageId) (ks : List Slot) :
    w.Later (w.given home ks) :=
  ⟨Nat.le_refl _, id, Nat.le_refl _, fun _ _ _ _ h => h, suffix_append _ _, suffix_rfl,
    Nat.le_refl _⟩

theorem later_note (w : World σ κ) (x : Access) : w.Later (w.note x) :=
  ⟨Nat.le_refl _, id, Nat.le_refl _, fun _ _ _ _ h => h, suffix_cons _ _, suffix_rfl,
    Nat.le_refl _⟩

/-! Storages. -/

section

variable {g : StorageCell → StorageCell}

theorem room_eq_some {k : Nat} :
    w.room home = some k ↔
      ∃ c, w.storages[home]? = some c ∧ 0 < c.holders ∧ c.slots.length = k := by
  simp only [room, Option.map_eq_some_iff, Option.filter_eq_some_iff, decide_eq_true_eq]
  constructor
  · rintro ⟨c, ⟨hc, hh⟩, hk⟩
    exact ⟨c, hc, hh, hk⟩
  · rintro ⟨c, hc, hh, hk⟩
    exact ⟨c, ⟨hc, hh⟩, hk⟩

theorem isAlive_iff : w.isAlive home = true ↔ 0 < w.holders home := by
  simp only [isAlive, holders]
  cases w.storages[home]? <;> simp

/-- A storage that someone holds has its slots. -/
theorem Fits.load? {n : Nat} (hf : w.Fits home n) (hs : w.strays = 0)
    (hh : 0 < w.holders home) {k : Slot} (hk : k < n) : ∃ v, w.load? home k = some v := by
  cases hc : w.storages[home]? with
  | none => simp [holders, hc] at hh
  | some c =>
    have hpos : 0 < c.holders := by simpa [holders, hc] using hh
    have hlen : c.slots.length = n := hf.room hs _ (room_eq_some.mpr ⟨c, hc, hpos, rfl⟩)
    have hlt : k < c.slots.length := hlen ▸ hk
    exact ⟨c.slots[k], by simp [World.load?, hc, hlt]⟩

/-- The world with one storage changed. -/
def changeStorage (w : World σ κ) (home : StorageId) (g : StorageCell → StorageCell) : World σ κ :=
  { w with storages := w.storages.modify home g }

theorem mem_changeStorage {c : StorageCell} (hc : c ∈ (w.changeStorage home g).storages.toList) :
    c ∈ w.storages.toList ∨ ∃ old, w.storages[home]? = some old ∧ c = g old := by
  cases hh : w.storages[home]? with
  | none =>
    left
    have hout : w.storages.size ≤ home := by simpa using hh
    simpa [changeStorage, modify_eq_self hout] using hc
  | some old =>
    obtain ⟨before, after, he, hm⟩ := exists_of_modify hh g
    rw [changeStorage, hm, mem_append, mem_cons] at hc
    rcases hc with hc | rfl | hc
    · exact .inl (by simp [he, hc])
    · exact .inr ⟨old, rfl, rfl⟩
    · exact .inl (by simp [he, hc])

theorem holders_changeStorage (i : StorageId) : (w.changeStorage home g).holders i =
    if i = home then w.storages[home]?.elim 0 fun c => (g c).holders else w.holders i := by
  simp only [holders, changeStorage, Array.getElem?_modify]
  by_cases hi : home = i
  · subst hi
    rw [if_pos rfl, if_pos rfl]
    cases w.storages[home]? <;> rfl
  · rw [if_neg hi, if_neg (Ne.symm hi)]

/-- A storage that is gone stays away, and one that is held keeps its size. -/
theorem later_changeStorage (hg : w.strays = 0 → ∀ c, w.storages[home]? = some c →
    0 < (g c).holders → 0 < c.holders ∧ (g c).slots.length = c.slots.length) :
    w.Later (w.changeStorage home g) := by
  refine ⟨Nat.le_refl _, id, by simp [changeStorage], fun hs i k _ hk => ?_, suffix_rfl,
    suffix_rfl, Nat.le_refl _⟩
  obtain ⟨c, hc, hheld, hlen⟩ := room_eq_some.mp hk
  rw [changeStorage, Array.getElem?_modify] at hc
  split at hc
  · rename_i hi
    subst hi
    obtain ⟨old, hold, rfl⟩ := Option.map_eq_some_iff.mp hc
    obtain ⟨hpos, hsize⟩ := hg hs old hold hheld
    exact room_eq_some.mpr ⟨old, hold, hpos, hsize ▸ hlen⟩
  · exact room_eq_some.mpr ⟨c, hc, hheld, hlen⟩

theorem later_store (w : World σ κ) (home : StorageId) (k : Slot) (v : Value) :
    w.Later (w.store home k v) := by
  have hset : w.Later (w.changeStorage home fun c => { c with slots := c.slots.set k v }) :=
    later_changeStorage fun _ _ _ hpos => ⟨hpos, length_set⟩
  exact hset.trans (later_note _ (.wrote home k))

theorem later_release (w : World σ κ) (home : StorageId) : w.Later (w.release home) := by
  refine later_changeStorage fun _ c _ hpos => ?_
  split at hpos
  · cases hpos
  · rename_i hmany
    rw [if_neg hmany]
    exact ⟨by omega, rfl⟩

theorem later_empty (w : World σ κ) (home : StorageId) :
    w.Later (w.changeStorage home fun _ => { slots := [], holders := 0 }) :=
  later_changeStorage fun _ _ _ hpos => absurd hpos (Nat.lt_irrefl 0)

theorem later_visit (host : Host σ κ) (w : World σ κ) (home : StorageId) :
    w.Later (w.visit host home) := by
  unfold visit
  split
  · exact (later_empty w home).trans (later_of_eq rfl rfl rfl rfl rfl)
  · exact .refl w

theorem later_addStorage (w : World σ κ) (slots : List Value) :
    w.Later (w.addStorage slots).2 := by
  refine ⟨Nat.le_refl _, id, by simp [World.addStorage], fun _ i k hi hk => ?_, suffix_rfl,
    suffix_rfl, Nat.le_refl _⟩
  obtain ⟨c, hc, hrest⟩ := room_eq_some.mp hk
  simp only [World.addStorage, Array.getElem?_push, if_neg (Nat.ne_of_lt hi)] at hc
  exact room_eq_some.mpr ⟨c, hc, hrest⟩

theorem fits_addStorage (w : World σ κ) (slots : List Value) :
    (w.addStorage slots).2.Fits w.storages.size slots.length := by
  refine ⟨by simp [World.addStorage], fun _ k hk => ?_⟩
  obtain ⟨c, hc, -, hlen⟩ := room_eq_some.mp hk
  simp only [World.addStorage, Array.getElem?_push, if_pos] at hc
  cases hc
  exact hlen.symm

/-- Someone is about to hold a storage: either it is there, or a closure has gone astray. -/
theorem later_retain_callOver (w : World σ κ) (home : StorageId) (held : List (Holding κ)) :
    w.Later (((w.callOver home).grasp held).retain home) := by
  have hcall : w.Later (w.callOver home) := by
    unfold callOver
    split
    · exact .refl w
    · exact ⟨Nat.le_refl _, id, Nat.le_refl _, fun hs => (nomatch hs), suffix_rfl,
        suffix_rfl, Nat.le_succ _⟩
  refine (hcall.trans (later_grasp _ held)).trans (later_changeStorage fun hs c hc _ => ⟨?_, rfl⟩)
  unfold callOver at hs hc
  split at hs
  · rename_i halive
    rw [if_pos halive] at hc
    have hpos := isAlive_iff.mp halive
    rw [holders, show w.storages[home]? = some c from hc] at hpos
    exact hpos
  · cases hs

end

/-! Futures. -/

section

variable {f : FutureId}

theorem outcome?_of_size_le (h : w.futures.size ≤ f) : w.outcome? f = none := by
  simp [outcome?, h]

theorem lt_of_outcome? {o : Outcome} (h : w.outcome? f = some o) : f < w.futures.size := by
  rcases Nat.lt_or_ge f w.futures.size with hlt | hge
  · exact hlt
  · rw [outcome?_of_size_le hge] at h
    cases h

theorem later_changeFuture {g : FutureCell κ → FutureCell κ}
    (hg : ∀ c, w.futures[f]? = some c → ∀ o, c.outcome = some o → (g c).outcome = some o) :
    w.Later { w with futures := w.futures.modify f g } := by
  refine ⟨by simp, fun {f' o} ho => ?_, Nat.le_refl _, fun _ _ _ _ h => h, suffix_rfl,
    suffix_rfl, Nat.le_refl _⟩
  obtain ⟨c, hc, hco⟩ := Option.bind_eq_some_iff.mp ho
  simp only [outcome?, Array.getElem?_modify]
  split
  · rename_i he
    subst he
    rw [hc]
    exact hg c hc o hco
  · rw [hc]
    exact hco

theorem later_await (w : World σ κ) (f : FutureId) (k : Continuation κ) : w.Later (w.await f k) :=
  later_changeFuture fun _ _ _ ho => ho

theorem later_suspend (w : World σ κ) (f : FutureId) (m : Machine) (r : FutureId) :
    w.Later (w.suspend f m r) :=
  (later_await w f (.resume m r)).trans (later_changeStorage fun _ _ _ hpos => ⟨hpos, rfl⟩)

theorem later_addFuture (w : World σ κ) (o : Option Outcome) : w.Later (w.addFuture o).2 := by
  refine ⟨by simp [addFuture], fun ho => ?_, Nat.le_refl _, fun _ _ _ _ h => h, suffix_rfl,
    suffix_rfl, Nat.le_refl _⟩
  rw [outcome?_addFuture_of_lt w o (lt_of_outcome? ho)]
  exact ho

theorem later_settle? {o : Outcome} {ks : List (Continuation κ)}
    (h : w.settle? f o = some (ks, w')) : w.Later w' := by
  obtain ⟨cell, hf, hnone, -, rfl⟩ := settle?_some h
  refine later_changeFuture fun c hc o' ho' => ?_
  cases hf.symm.trans hc
  cases hnone.symm.trans ho'

theorem outcome?_settle?_self {o : Outcome} {ks : List (Continuation κ)}
    (h : w.settle? f o = some (ks, w')) : w'.outcome? f = some o := by
  obtain ⟨cell, hf, -, -, rfl⟩ := settle?_some h
  simp [outcome?, Array.getElem?_modify, hf]

end

end Resumable.World

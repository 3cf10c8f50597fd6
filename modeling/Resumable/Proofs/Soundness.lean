import Resumable.Proofs.Conduct
import Resumable.Proofs.Queues

namespace Resumable

open List

namespace World

variable {σ κ : Type} (w : World σ κ) (home i : StorageId)

theorem holders_addStorage (slots : List Value) :
    (w.addStorage slots).2.holders i = if i = w.storages.size then 1 else w.holders i := by
  simp only [holders, addStorage, Array.getElem?_push]
  split
  · rfl
  · rfl

theorem holders_release :
    (w.release home).holders i = if i = home then w.holders home - 1 else w.holders i := by
  refine (holders_changeStorage i).trans ?_
  split
  · rw [holders]
    cases w.storages[home]? with
    | none => rfl
    | some c =>
      simp only [Option.elim_some]
      split
      · show 0 = c.holders - 1
        omega
      · rfl
  · rfl

/-- A storage that is there gets one more holder. -/
theorem holders_retain (h : 0 < w.holders home) :
    (w.retain home).holders i = if i = home then w.holders home + 1 else w.holders i := by
  refine (holders_changeStorage i).trans ?_
  split
  · rw [holders] at h ⊢
    cases hc : w.storages[home]? with
    | none =>
      rw [hc] at h
      cases h
    | some c => rfl
  · rfl

end World

namespace Soundness

variable {σ κ : Type} {C : Custody σ κ} {own own' : List (Cargo κ)} {w w' : World σ κ}

/-- The storages that someone needs. -/
def homes : Claim κ StorageId where
  storage := fun home => [home]
  right := fun _ => []
  continuation
    | .resume m _ => [m.home]
    | .callback .. => []

theorem count_storage (home i : StorageId) : (homes.all C (.storage home :: own) w).count i =
    (if i = home then 1 else 0) + (homes.all C own w).count i := by
  rw [Claim.all_cons, count_append]
  congr 1
  change [home].count i = _
  rw [count_singleton]
  simp only [beq_iff_eq, eq_comm (a := home)]

variable (C own w) in
/-- There was no internal fault, and whoever needs a storage counts among its holders. -/
structure Sustained : Prop where
  defects : w.defects = 0
  holders : ∀ i, (homes.all C own w).count i ≤ w.holders i

theorem Sustained.same (h : Sustained C own w) (hd : w'.defects = w.defects)
    (hh : ∀ i, w'.holders i = w.holders i) (hc : (homes.all C own' w').Perm (homes.all C own w)) :
    Sustained C own' w' := by
  refine ⟨hd.trans h.defects, fun i => ?_⟩
  rw [hc.count_eq, hh]
  exact h.holders i

theorem Sustained.addStorage (h : Sustained C own w) (slots : List Value) :
    Sustained C (.storage w.storages.size :: own) (w.addStorage slots).2 := by
  refine ⟨h.defects, fun i => ?_⟩
  have hcount : (homes.all C own (w.addStorage slots).2).count i ≤ w.holders i := h.holders i
  rw [count_storage, World.holders_addStorage]
  split
  · rename_i hi
    have hnew : w.holders i = 0 := by simp [World.holders, hi]
    omega
  · omega

theorem Sustained.release {home : StorageId} (h : Sustained C (.storage home :: own) w) :
    Sustained C own (w.release home) := by
  refine ⟨h.defects, fun i => ?_⟩
  have hcount := h.holders i
  rw [count_storage] at hcount
  rw [World.holders_release]
  change (homes.all C own w).count i ≤ _
  split at hcount
  · rename_i hi
    subst hi
    rw [if_pos rfl]
    omega
  · rename_i hi
    rw [if_neg hi]
    omega

theorem Sustained.retain (h : Sustained C own w) {home : StorageId} (hh : 0 < w.holders home) :
    Sustained C (.storage home :: own) (w.retain home) := by
  refine ⟨h.defects, fun i => ?_⟩
  have hcount : (homes.all C own (w.retain home)).count i ≤ w.holders i := h.holders i
  rw [count_storage, World.holders_retain w home i hh]
  split
  · rename_i hi
    subst hi
    omega
  · omega

theorem Sustained.idle (h : Sustained C own w) (hd : w'.defects = w.defects)
    (hs : w'.storages = w.storages)
    (hc : (homes.all C own' w').Perm (homes.all C own w)) : Sustained C own' w' :=
  h.same hd (fun i => by rw [World.holders, hs]; rfl) hc

theorem Sustained.settle? (h : Sustained C own w) {f : FutureId} {o : Outcome}
    {ks : List (Continuation κ)} (hs : w.settle? f o = some (ks, w')) :
    Sustained C (.waiting f ks :: own) w' := by
  have hperm : (homes.all C (.waiting f ks :: own) w').Perm (homes.all C own w) :=
    homes.all_settle? C hs
  obtain ⟨-, -, -, -, rfl⟩ := World.settle?_some hs
  exact h.idle rfl rfl hperm

theorem Sustained.suspend {f : FutureId} {m : Machine} {r : FutureId}
    (h : Sustained C [.storage m.home, .right r .running] w) (hf : f < w.futures.size) :
    Sustained C [] (w.suspend f m r) := by
  have hawait : Sustained C [] (w.await f (.resume m r)) := h.idle rfl rfl (homes.all_await C hf)
  refine hawait.same rfl (fun i => ?_) (.refl _)
  refine (World.holders_changeStorage i).trans ?_
  split
  · rename_i hi
    subst hi
    rfl
  · rfl

/-- Whoever needs a storage finds it. -/
theorem Sustained.alive (h : Sustained C own w) {home : StorageId}
    (hmem : .storage home ∈ own ++ w.cargo) : w.isAlive home = true := by
  have hin : home ∈ homes.all C own w := by
    refine mem_append_left _ (mem_flatMap.mpr ⟨.storage home, ?_, mem_singleton_self _⟩)
    rw [← append_assoc]
    exact mem_append_left _ hmem
  exact World.isAlive_iff.mpr (Nat.lt_of_lt_of_le (count_pos_iff.mpr hin) (h.holders home))

/-- The world when a closure over a storage is called: either it is the same, with the storage in
one more hand, or the closure has gone astray. -/
theorem call_cases (host : Host σ κ) (held : List (Holding κ)) (home : StorageId)
    (hs : (((((w.grasp held).visit host home).letGo w.hands).callOver home).retain home).strays =
      0) : w.strays = 0 ∧ 0 < w.holders home ∧
      ((((w.grasp held).visit host home).letGo w.hands).callOver home).retain home =
        w.retain home := by
  by_cases hlost : (w.grasp held).isLost host home = true
  · have hgone : (((w.grasp held).abandon home).letGo w.hands).isAlive home = false := by
      rw [Bool.eq_false_iff, Ne, World.isAlive_iff]
      change ¬0 < (w.changeStorage home fun _ => { slots := [], holders := 0 }).holders home
      rw [World.holders_changeStorage, if_pos rfl]
      cases w.storages[home]? <;> exact Nat.lt_irrefl 0
    rw [World.visit, if_pos hlost, World.callOver, hgone] at hs
    cases hs
  · rw [World.visit, if_neg hlost] at hs ⊢
    have hsame : (w.grasp held).letGo w.hands = w := rfl
    rw [hsame] at hs ⊢
    unfold World.callOver at hs ⊢
    split at hs
    · rename_i halive
      rw [if_pos halive]
      exact ⟨hs, World.isAlive_iff.mp halive, rfl⟩
    · cases hs

/-- Books about storages, as long as no closure has gone astray. -/
def accounting (C : Custody σ κ) : Accounting ⟨true, false⟩ C where
  Balanced := fun own w => w.strays = 0 → Sustained C own w
  Clean := fun w => w.strays = 0 → w.defects = 0
  clean := fun h hs => (h hs).defects
  clean_of_eq := fun h _ _ hd hs hz => hd.trans (h (hs ▸ hz))
  inert := fun h hw hs => (h (hw.strays ▸ hs)).same hw.defects hw.holders
    (.of_eq (homes.all_of_eq C hw.futures hw.hands hw.ext))
  grasp := fun {own held w} =>
    ⟨fun h hs => (h hs).idle rfl rfl (homes.all_grasp C held).symm,
      fun h hs => (h hs).idle rfl rfl (homes.all_grasp C held)⟩
  ext := fun h hp _ hs => (h hs).idle rfl rfl (homes.all_ext C hp)
  read := fun h _ hs => (h hs).idle rfl rfl (.refl _)
  wrote := fun h hs => (h hs).idle rfl rfl (.refl _)
  missed := fun h _ hs => (h hs).idle rfl rfl (.refl _)
  defect := fun h hk hs => (hk rfl hs).elim
  addStorage := fun h hs => (h hs).addStorage _
  call := fun {own w home} host held h hs => by
    obtain ⟨hz, hheld, hsame⟩ := call_cases host held home hs
    rw [hsame]
    exact (h hz).retain hheld
  release := fun h hs => (h hs).release
  alive := fun h _ hs hmem => (h hs).alive hmem
  ready := fun h hs => (h hs).idle rfl rfl (.of_eq (homes.all_addFuture C _))
  fresh := fun h hs => (h hs).idle rfl rfl (.of_eq (homes.all_addFuture C _))
  source := fun {own w e} h _ hc hs => (h hs).idle rfl rfl
    ((homes.all_ext C (.of_eq (by rw [hc]; rfl))).trans (.of_eq (homes.all_addFuture C none)))
  start := fun h hs => (h hs).idle rfl rfl (.refl _)
  settle := fun {own w w' f o ks} h hw hs => by
    have hz : w.strays = 0 := by
      obtain ⟨-, -, -, -, rfl⟩ := World.settle?_some hw
      exact hs
    have hfree : Sustained C own w := (h hz).idle rfl rfl (.refl _)
    exact hfree.settle? hw
  settleSource := fun {own w w' f o ks} h _ hw hs => by
    have hz : w.strays = 0 := by
      obtain ⟨-, -, -, -, rfl⟩ := World.settle?_some hw
      exact hs
    exact (h hz).settle? hw
  refused := fun h _ =>
    ⟨fun hs => (h hs).idle rfl rfl (.refl _), fun hs => (h hs).idle rfl rfl (.refl _)⟩
  attach := fun h hf _ hs => (h hs).idle rfl rfl (homes.all_await C hf)
  nil := fun h hs => (h hs).idle rfl rfl (.refl _)
  resume := fun h _ hs => (h hs).idle rfl rfl (.refl _)
  callback := fun h hs => (h hs).idle rfl rfl (.refl _)
  run := fun h _ hs => (h hs).idle rfl rfl (homes.all_grasp C [.future _])
  suspend := fun h _ hf _ hs => ((h hs).suspend hf).idle rfl rfl (.refl _)
  ended := fun h _ hs => (h hs).idle rfl rfl (.refl _)
  host := fun h hs => (h hs).idle rfl rfl (.refl _)

end Soundness

/-- A chain of a method that could have been written. -/
def Chain.OfSource (c : Chain) : Prop :=
  ∃ (m : Method) (limit : Nat), m.isSource true = true ∧ m.split limit = .ok (some c)

theorem Chain.OfSource.meets {c : Chain} (hc : c.OfSource) : c.Meets ⟨true, false⟩ := by
  obtain ⟨m, limit, hm, h⟩ := hc
  exact ⟨fun _ => Method.sound_of_split h hm, nofun⟩

/-- As long as no closure is called whose storage is gone, no internal fault is raised, whatever
programs do with methods that could have been written. -/
theorem no_defects {σ : Type} (library : Library σ Chain.OfSource) (memory : σ)
    (p : Program σ Chain.OfSource) (n : Nat) (h : (library.leaves memory p n).strays = 0) :
    (library.leaves memory p n).defects = 0 :=
  library.leaves_clean (A := Soundness.accounting _) (fun _ => Chain.OfSource.meets) memory p n
    (fun _ => ⟨rfl, fun _ => Nat.le_refl 0⟩) h

/-- A closure over the slots is called between two yields, and its storage is there. -/
theorem lambdaYield_no_defects :
    ∃ c : { c : Chain // Chain.OfSource c }, c.1 = lambdaChain ∧
      ((silentLibrary Chain.OfSource).leaves () (.twice c [.int 4]) 20).strays = 0 ∧
      ((silentLibrary Chain.OfSource).leaves () (.twice c [.int 4]) 20).defects = 0 := by
  let c : { c : Chain // Chain.OfSource c } :=
    ⟨lambdaChain, lambdaYield, 30, by decide +kernel, by decide +kernel⟩
  have hs : ((silentLibrary Chain.OfSource).leaves () (.twice c [.int 4]) 20).strays = 0 := by
    decide +kernel
  exact ⟨c, rfl, hs, no_defects _ _ _ _ hs⟩

end Resumable

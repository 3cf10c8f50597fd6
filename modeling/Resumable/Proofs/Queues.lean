import Mathlib.Data.List.Perm.Basic
import Resumable.Proofs.Accounting

namespace Resumable

open List

section

variable {κ : Type}

/-- Those who wait, each with what it waits on. -/
def queue (futures : Array (FutureCell κ)) : List (FutureId × Continuation κ) :=
  futures.toList.zipIdx.flatMap fun (c, f) => c.waiting.map (f, ·)

theorem mem_queue {futures : Array (FutureCell κ)} {f : FutureId} {k : Continuation κ} :
    (f, k) ∈ queue futures ↔ ∃ c, futures[f]? = some c ∧ k ∈ c.waiting := by
  simp only [queue, mem_flatMap, mem_map, Prod.exists, Prod.mk.injEq,
    mem_zipIdx_iff_getElem?, Array.getElem?_toList]
  constructor
  · rintro ⟨c, i, hc, k', hk, rfl, rfl⟩
    exact ⟨c, hc, hk⟩
  · rintro ⟨c, hc, hk⟩
    exact ⟨c, f, hc, k, hk, rfl, rfl⟩

theorem queue_push (futures : Array (FutureCell κ)) (o : Option Outcome) :
    queue (futures.push { outcome := o }) = queue futures := by
  simp [queue, zipIdx_append]

theorem queue_modify {futures : Array (FutureCell κ)} {f : FutureId} {c : FutureCell κ}
    (hf : futures[f]? = some c) (g : FutureCell κ → FutureCell κ) :
    ∃ before after, queue futures = before ++ (c.waiting.map (f, ·) ++ after) ∧
      queue (futures.modify f g) = before ++ ((g c).waiting.map (f, ·) ++ after) := by
  obtain ⟨hlt, hc⟩ := Array.getElem?_eq_some_iff.mp hf
  have hlt' : f < futures.toList.length := by simpa using hlt
  have hc' : futures.toList[f] = c := by simpa using hc
  refine ⟨(futures.toList.take f).zipIdx.flatMap fun (c, f) => c.waiting.map (f, ·),
    ((futures.toList.drop (f + 1)).zipIdx (f + 1)).flatMap fun (c, f) => c.waiting.map (f, ·),
    ?_, ?_⟩
  · rw [queue]
    conv_lhs => rw [← take_append_drop f futures.toList, drop_eq_getElem_cons hlt', hc']
    simp [zipIdx_append, Nat.min_eq_left (Nat.le_of_lt hlt)]
  · rw [queue, Array.toList_modify, modify_eq_take_cons_drop hlt', hc']
    simp [zipIdx_append, Nat.min_eq_left (Nat.le_of_lt hlt)]

variable {σ : Type} {w w' : World σ κ} {f : FutureId}

theorem queue_await (hf : f < w.futures.size) (k : Continuation κ) :
    (queue (w.await f k).futures).Perm ((f, k) :: queue w.futures) := by
  obtain ⟨before, after, h, h'⟩ := queue_modify (Array.getElem?_eq_getElem hf)
    fun c => { c with waiting := c.waiting ++ [k] }
  rw [World.await, h, h', map_append, append_assoc, ← append_assoc,
    ← append_assoc before]
  exact perm_middle

theorem queue_settle? {o : Outcome} {ks : List (Continuation κ)}
    (hs : w.settle? f o = some (ks, w')) :
    (queue w.futures).Perm (ks.map (f, ·) ++ queue w'.futures) := by
  obtain ⟨c, hf, -, rfl, rfl⟩ := World.settle?_some hs
  obtain ⟨before, after, h, h'⟩ := queue_modify hf fun _ => { outcome := some o }
  rw [h, h']
  exact perm_append_comm_assoc ..

end

/-- Something that cargo lays claim to. -/
structure Claim (κ α : Type) where
  storage : StorageId → List α
  right : FutureId → List α
  continuation : Continuation κ → List α

namespace Claim

variable {σ κ α : Type} (claim : Claim κ α) (C : Custody σ κ)

def cargo : Cargo κ → List α
  | .storage home => claim.storage home
  | .right f _ => claim.right f
  | .waiting _ ks => ks.flatMap claim.continuation

/-- All claims: of what is on its way, in hand and with the host, and of those who wait. -/
def all (own : List (Cargo κ)) (w : World σ κ) : List α :=
  (own ++ (w.cargo ++ C.cargo w.ext)).flatMap claim.cargo ++
    (queue w.futures).flatMap (claim.continuation ·.2)

variable {own own' : List (Cargo κ)} {w w' : World σ κ}

theorem all_cons (x : Cargo κ) :
    claim.all C (x :: own) w = claim.cargo x ++ claim.all C own w := by
  simp [all]

theorem all_of_eq (hf : w'.futures = w.futures) (hh : w'.hands = w.hands) (he : w'.ext = w.ext) :
    claim.all C own w' = claim.all C own w := by
  simp [all, World.cargo, hf, hh, he]

theorem all_perm (hf : w'.futures = w.futures)
    (hc : (own' ++ (w'.cargo ++ C.cargo w'.ext)).Perm (own ++ (w.cargo ++ C.cargo w.ext))) :
    (claim.all C own' w').Perm (claim.all C own w) := by
  rw [all, all, hf]
  exact (hc.flatMap_right _).append_right _

theorem all_ext {e : σ} (hc : (own' ++ C.cargo e).Perm (own ++ C.cargo w.ext)) :
    (claim.all C own' { w with ext := e }).Perm (claim.all C own w) := by
  refine claim.all_perm C rfl ?_
  exact (perm_append_comm_assoc ..).trans
    ((hc.append_left w.cargo).trans (perm_append_comm_assoc ..))

theorem all_grasp (held : List (Holding κ)) : (claim.all C own (w.grasp held)).Perm
    (claim.all C (held.flatMap (·.cargo) ++ own) w) := by
  refine claim.all_perm C rfl ?_
  rw [World.cargo, World.grasp, flatMap_append, append_assoc, append_assoc]
  exact perm_append_comm_assoc ..

theorem all_addFuture (o : Option Outcome) :
    claim.all C own (w.addFuture o).2 = claim.all C own w := by
  rw [all, all, World.addFuture, queue_push]
  rfl

theorem all_await {f : FutureId} {k : Continuation κ} (hf : f < w.futures.size) :
    (claim.all C own (w.await f k)).Perm (claim.continuation k ++ claim.all C own w) :=
  (((queue_await hf k).flatMap_right _).append_left _).trans (perm_append_comm_assoc ..)

theorem all_settle? {f : FutureId} {o : Outcome} {ks : List (Continuation κ)}
    (hs : w.settle? f o = some (ks, w')) :
    (claim.all C (.waiting f ks :: own) w').Perm (claim.all C own w) := by
  have hq := (queue_settle? hs).flatMap_right (claim.continuation ·.2)
  rw [flatMap_append, flatMap_map] at hq
  obtain ⟨-, -, -, -, rfl⟩ := World.settle?_some hs
  rw [all_cons]
  exact (perm_append_comm_assoc ..).trans (hq.symm.append_left _)

end Claim

end Resumable

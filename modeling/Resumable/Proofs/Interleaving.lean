import Resumable.Proofs.Segments
import Resumable.Proofs.Tasks

namespace Resumable.Interleaving

open List

variable {σ κ : Type}

/-- One of those that take part. -/
inductive Part where
  /-- A future that is settled from outside, with this outcome. -/
  | source (o : Outcome)
  /-- A future that is settled from the start. -/
  | ready (o : Outcome)
  | task (chain : Chain) (args : List Value)

/-- Something to be done, once and at any time. -/
inductive Act where
  | settle (f : FutureId) (o : Outcome)
  | run (t : Task)

/-- Make what takes part; the acts say what is to be done about it. -/
def Part.create (w : World σ κ) : Part → Except Fault (List Act × World σ κ)
  | .source o =>
    let (f, w) := w.addFuture none
    .ok ([.settle f o], w)
  | .ready o => .ok ([], (w.addFuture (some o)).2)
  | .task chain args => do
    let (t, w) ← Task.create chain args w
    return ([.run t], w)

def createAll : List Part → World σ κ → Except Fault (List Act × World σ κ)
  | [], w => .ok ([], w)
  | p :: ps, w => do
    let (acts, w) ← p.create w
    let (more, w) ← createAll ps w
    return (acts ++ more, w)

def Act.perform (host : Host σ κ) (n : Nat) : Act → Run σ κ Unit
  | .settle f o => do
    let _ ← Task.settle host n f o
  | .run t => do
    let _ ← t.run host n

/-- Do one after the other. -/
def performAll (host : Host σ κ) (n : Nat) : List Act → Run σ κ Unit
  | [] => return ()
  | a :: rest => do
    a.perform host n
    performAll host n rest

/-- The chain comes from a method without lambdas, and no closure is handed in. -/
def Part.Fits : Part → Prop
  | .source o | .ready o => o.IsPlain
  | .task chain args => (∀ v ∈ args, v.IsPlain) ∧
      ∃ (m : Method) (limit : Nat), m.isSource false = true ∧ m.split limit = .ok (some chain)

/-- The future that an act is to settle. -/
def Act.subject : Act → FutureId
  | .settle f _ => f
  | .run t => t.result

/-! Before anything runs. -/

/-- Nothing has been done yet. The acts are about different futures, and tasks have storages of
their own. -/
structure Ready (w : World σ κ) (acts : List Act) : Prop where
  once : (acts.map Act.subject).Nodup
  apart : ∀ t t', .run t ∈ acts → .run t' ∈ acts → t.machine.home = t'.machine.home → t = t'
  pending : ∀ a ∈ acts, w.futures[a.subject]? = some {}
  idle : ∀ (f : FutureId) cell, w.futures[f]? = some cell → cell.waiting = []
  plain : ∀ (f : FutureId) cell, w.futures[f]? = some cell →
    ∀ o ∈ cell.outcome, Outcome.IsPlain o
  settles : ∀ f o, .settle f o ∈ acts → o.IsPlain
  machine : ∀ t, .run t ∈ acts → t.machine.IsPlain
  chain : ∀ t, .run t ∈ acts → ∃ size, ∀ st ∈ t.machine.chain.states, st.Runs false size
  slots : ∀ t, .run t ∈ acts → ∃ slots, w.slotsAt t.machine.home = some slots ∧
    ∀ v ∈ slots, v.IsPlain

namespace Ready

variable {w : World σ κ} {acts : List Act}

theorem empty (ext : σ) : Ready ({ ext } : World σ κ) [] := by
  constructor <;> simp

section

variable (h : Ready w acts)
include h

theorem act_unique {a b : Act} (ha : a ∈ acts) (hb : b ∈ acts)
    (hab : a.subject = b.subject) : a = b :=
  inj_on_of_nodup_map h.once ha hb hab

theorem subject_lt {a : Act} (ha : a ∈ acts) : a.subject < w.futures.size :=
  (Array.getElem?_eq_some_iff.mp (h.pending a ha)).1

theorem home_lt {t : Task} (ht : .run t ∈ acts) : t.machine.home < w.storages.size := by
  obtain ⟨slots, hs, -⟩ := h.slots t ht
  obtain ⟨c, hc, -⟩ := Option.map_eq_some_iff.mp hs
  exact (Array.getElem?_eq_some_iff.mp hc).1

theorem addFuture {o : Option Outcome} (ho : ∀ x ∈ o, x.IsPlain) :
    Ready (w.addFuture o).2 acts := by
  have hcell : ∀ (f : FutureId) cell, (w.addFuture o).2.futures[f]? = some cell →
      cell = ⟨o, []⟩ ∨ w.futures[f]? = some cell := by
    intro f cell hf
    simp only [World.addFuture, Array.getElem?_push] at hf
    split at hf
    · cases hf
      exact .inl rfl
    · exact .inr hf
  refine ⟨h.once, h.apart, fun a ha => ?_, fun f cell hf => ?_, fun f cell hf => ?_, h.settles,
    h.machine, h.chain, h.slots⟩
  · have hlt := h.subject_lt ha
    simp only [World.addFuture, Array.getElem?_push]
    rw [if_neg (Nat.ne_of_lt hlt)]
    exact h.pending a ha
  · rcases hcell f cell hf with rfl | hf
    · rfl
    · exact h.idle f cell hf
  · rcases hcell f cell hf with rfl | hf
    · exact ho
    · exact h.plain f cell hf

theorem once_append {a : Act} (ha : a.subject = w.futures.size) :
    ((acts ++ [a]).map Act.subject).Nodup := by
  rw [map_append]
  refine nodup_append.mpr ⟨h.once, nodup_singleton _, fun f hf g hg => ?_⟩
  obtain ⟨b, hb, rfl⟩ := mem_map.mp hf
  obtain rfl := mem_singleton.mp hg
  have hlt := h.subject_lt hb
  rw [ha]
  exact Nat.ne_of_lt hlt

theorem pending_append {a : Act} (ha : a.subject = w.futures.size) :
    ∀ b ∈ acts ++ [a], (w.addFuture none).2.futures[b.subject]? = some {} := by
  intro b hb
  rcases mem_append.mp hb with hb | hb
  · exact (h.addFuture (o := none) nofun).pending b hb
  · obtain rfl := mem_singleton.mp hb
    simp [World.addFuture, ha]

theorem source {o : Outcome} (ho : o.IsPlain) :
    Ready (w.addFuture none).2 (acts ++ [.settle w.futures.size o]) := by
  have hw := h.addFuture (o := none) nofun
  have hrun : ∀ t, .run t ∈ acts ++ [.settle w.futures.size o] → Act.run t ∈ acts := by simp
  refine ⟨h.once_append rfl, fun t t' ht ht' => h.apart t t' (hrun t ht) (hrun t' ht'),
    h.pending_append rfl, hw.idle, hw.plain, fun f o' hf => ?_, fun t ht => h.machine t (hrun t ht),
    fun t ht => h.chain t (hrun t ht), fun t ht => h.slots t (hrun t ht)⟩
  rcases mem_append.mp hf with hf | hf
  · exact h.settles f o' hf
  · cases mem_singleton.mp hf
    exact ho

theorem addStorage (slots : List Value) : Ready (w.addStorage slots).2 acts := by
  refine ⟨h.once, h.apart, h.pending, h.idle, h.plain, h.settles, h.machine, h.chain,
    fun t ht => ?_⟩
  have hlt := h.home_lt ht
  obtain ⟨s, hs, hp⟩ := h.slots t ht
  refine ⟨s, ?_, hp⟩
  rw [← hs]
  simp only [World.slotsAt, World.addStorage, Array.getElem?_push]
  rw [if_neg (Nat.ne_of_lt hlt)]

theorem given (home : StorageId) (ks : List Slot) : Ready (w.given home ks) acts :=
  ⟨h.once, h.apart, h.pending, h.idle, h.plain, h.settles, h.machine, h.chain, h.slots⟩

end

end Ready

/-- The slots of a new machine hold its arguments and nothing else. -/
theorem isPlain_slots {chain : Chain} {args : List Value} (h : ∀ v ∈ args, v.IsPlain) :
    ∀ v ∈ Machine.slots chain args, v.IsPlain := by
  intro v hv
  rcases Machine.mem_slots hv with hv | rfl
  · exact h v hv
  · trivial

namespace Ready

variable {w : World σ κ} {acts : List Act}

theorem task (h : Ready w acts) {chain : Chain} {slots : List Value} {size : Nat}
    (hc : ∀ st ∈ chain.states, st.Runs false size) (hs : ∀ v ∈ slots, v.IsPlain) (ks : List Slot) :
    Ready (((w.addStorage slots).2.given w.storages.size ks).addFuture none).2
      (acts ++ [.run ⟨{ chain, home := w.storages.size }, w.futures.size⟩]) := by
  have hg := (h.addStorage slots).given w.storages.size ks
  have hw := hg.addFuture (o := none) nofun
  have hrun : ∀ t, .run t ∈ acts ++ [.run ⟨{ chain, home := w.storages.size }, w.futures.size⟩] →
      Act.run t ∈ acts ∨ t = ⟨{ chain, home := w.storages.size }, w.futures.size⟩ := by simp
  refine ⟨h.once_append rfl, fun t t' ht ht' heq => ?_, hg.pending_append rfl, hw.idle, hw.plain,
    fun f o hf => h.settles f o (by simpa using hf), fun t ht => ?_, fun t ht => ?_,
    fun t ht => ?_⟩
  · rcases hrun t ht with ht | rfl <;> rcases hrun t' ht' with ht' | rfl
    · exact h.apart t t' ht ht' heq
    · exact absurd heq (Nat.ne_of_lt (h.home_lt ht))
    · exact absurd heq.symm (Nat.ne_of_lt (h.home_lt ht'))
    · rfl
  · rcases hrun t ht with ht | rfl
    · exact h.machine t ht
    · exact ⟨rfl, nofun, nofun, trivial⟩
  · rcases hrun t ht with ht | rfl
    · exact h.chain t ht
    · exact ⟨size, hc⟩
  · rcases hrun t ht with ht | rfl
    · exact hw.slots t ht
    · refine ⟨slots, ?_, hs⟩
      simp [World.slotsAt, World.addStorage, World.given, World.addFuture]

theorem create (h : Ready w acts) {p : Part} (hp : p.Fits) {more : List Act} {w' : World σ κ}
    (hc : p.create w = .ok (more, w')) : Ready w' (acts ++ more) := by
  cases p with
  | source o =>
    cases hc
    exact h.source hp
  | ready o =>
    cases hc
    rw [append_nil]
    exact h.addFuture (o := some o) fun _ hx => Option.some.inj hx ▸ hp
  | task chain args =>
    obtain ⟨hargs, m, limit, hm, hsplit⟩ := hp
    cases ht : Machine.create chain .async args w with
    | error f =>
      rw [Part.create, Task.create, ht] at hc
      cases hc
    | ok r =>
      obtain ⟨m', w₁⟩ := r
      rw [Part.create, Task.create, ht] at hc
      cases hc
      obtain ⟨-, -, rfl, rfl⟩ := Machine.create_ok ht
      have hsound := Method.sound_of_split hsplit hm
      have hruns : ∀ st ∈ chain.states, st.Runs false chain.captures.size := by
        intro st hst
        obtain ⟨s, hs⟩ := mem_iff_getElem?.mp hst
        exact (hsound.settled s st hs).runs
      exact h.task hruns (isPlain_slots hargs) chain.params

/-- What has been created is ready. -/
theorem createAll (h : Ready w acts) {parts : List Part} (hp : ∀ p ∈ parts, p.Fits)
    {more : List Act} {w' : World σ κ} (hc : createAll parts w = .ok (more, w')) :
    Ready w' (acts ++ more) := by
  induction parts generalizing w acts more with
  | nil =>
    cases hc
    rwa [append_nil]
  | cons p ps ih =>
    rw [forall_mem_cons] at hp
    rw [Interleaving.createAll] at hc
    cases hfirst : p.create w with
    | error f =>
      rw [hfirst] at hc
      cases hc
    | ok r =>
      obtain ⟨first, w₁⟩ := r
      rw [hfirst] at hc
      cases hrest : Interleaving.createAll ps w₁ with
      | error f =>
        simp only [bind, Except.bind, hrest] at hc
        cases hc
      | ok r =>
        obtain ⟨rest, w₂⟩ := r
        simp only [bind, Except.bind, hrest] at hc
        cases hc
        rw [← append_assoc]
        exact ih (h.create hp.1 hfirst) hp.2 hrest

end Ready

end Resumable.Interleaving

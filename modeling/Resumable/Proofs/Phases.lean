import Resumable.Proofs.Interleaving

namespace Resumable

open List

variable {f g : FutureId} {o : Outcome} {halt : Halt} {m' : Machine} {slots' : List Value}

/-- What a task settles its future with when its machine has stopped. -/
def Halt.verdict? : Halt → Option Outcome
  | .completed v _ => some (.ok v)
  | .fault f _ => some (.error f)
  | .yielded .. => some (.error (.internal "async chain yielded a value"))
  | .awaiting .. | .timeout => none

theorem Halt.From.verdict {m : Machine} (h : halt.From m) (ho : halt.verdict? = some o) :
    o.IsPlain := by
  cases halt with
  | completed v m' =>
    cases ho
    exact h.2
  | fault f m' =>
    cases ho
    exact h.2
  | yielded v m' =>
    cases ho
    exact nofun
  | awaiting | timeout => cases ho

namespace World

variable {σ κ : Type} {w w' : World σ κ}

theorem outcome?_congr (h : w'.futures = w.futures) : w'.outcome? = w.outcome? := by
  funext f
  rw [outcome?, h]
  rfl

theorem outcome?_await (w : World σ κ) (f : FutureId) (c : Continuation κ) :
    (w.await f c).outcome? = w.outcome? := by
  funext g
  rw [outcome?, await, Array.getElem?_modify]
  split
  · rename_i heq
    subst heq
    rewrite [outcome?, Option.bind_map]
    rfl
  · rfl

theorem await_cell {c : Continuation κ} {cell : FutureCell κ}
    (h : (w.await f c).futures[g]? = some cell) : ∃ old, w.futures[g]? = some old ∧
      cell.waiting = if g = f then old.waiting ++ [c] else old.waiting := by
  rw [await, Array.getElem?_modify] at h
  split at h
  · rename_i heq
    obtain ⟨old, hold, rfl⟩ := Option.map_eq_some_iff.mp h
    refine ⟨old, hold, ?_⟩
    rw [if_pos heq.symm]
  · rename_i hne
    refine ⟨cell, h, ?_⟩
    rw [if_neg (Ne.symm hne)]

theorem outcome?_settle? {ks : List (Continuation κ)} (h : w.settle? f o = some (ks, w')) :
    w'.outcome? = Function.update w.outcome? f (some o) := by
  obtain ⟨cell, hf, -, -, rfl⟩ := settle?_some h
  funext g
  rw [outcome?, Array.getElem?_modify]
  by_cases heq : g = f
  · subst heq
    rw [Function.update_self, if_pos rfl, hf]
    rfl
  · rw [Function.update_of_ne heq, if_neg (Ne.symm heq)]
    rfl

/-- Nobody waits on a settled future, and on the others those who did. -/
theorem settle?_cell {ks : List (Continuation κ)} {cell : FutureCell κ}
    (h : w.settle? f o = some (ks, w')) (hg : w'.futures[g]? = some cell) :
    (g = f ∧ cell.waiting = []) ∨ (g ≠ f ∧ w.futures[g]? = some cell) := by
  obtain ⟨old, hf, -, -, rfl⟩ := settle?_some h
  rw [Array.getElem?_modify] at hg
  split at hg
  · rename_i heq
    subst heq
    rw [hf] at hg
    cases hg
    exact .inl ⟨rfl, rfl⟩
  · rename_i hne
    exact .inr ⟨Ne.symm hne, hg⟩

end World

def Continuation.owner {κ : Type} : Continuation κ → FutureId
  | .resume _ r => r
  | .callback _ r => r

namespace Interleaving

variable {σ κ : Type}

/-- Futures with their outcomes, as far as they have any. -/
abbrev Outcomes := FutureId → Option Outcome

def Extends (out out' : Outcomes) : Prop :=
  ∀ f o, out f = some o → out' f = some o

/-- With these outcomes a task comes to a place, after so many awaits. -/
inductive Reaches (host : Host σ κ) (w₀ : World σ κ) (out : Outcomes) (t : Task) :
    Nat → Machine → List Value → Prop where
  | start {slots : List Value} (h : w₀.slotsAt t.machine.home = some slots) :
    Reaches host w₀ out t 0 t.machine slots
  | pass {k : Nat} {m m' : Machine} {slots slots' : List Value} {f : FutureId} {o : Outcome}
    (h : Reaches host w₀ out t k m slots) (hs : Segment host m slots (.awaiting f m') slots')
    (ho : out f = some o) : Reaches host w₀ out t (k + 1) { m' with resumption := some o } slots'

section

variable {host : Host σ κ} {w₀ : World σ κ} {acts : List Act} {out out' : Outcomes} {t : Task}
  {k : Nat} {m : Machine} {slots : List Value}

section

variable (h : Reaches host w₀ out t k m slots)
include h

theorem Reaches.mono (hout : Extends out out') : Reaches host w₀ out' t k m slots := by
  induction h with
  | start h => exact .start h
  | pass _ hs ho ih => exact .pass ih hs (hout _ _ ho)

theorem Reaches.home : m.home = t.machine.home := by
  induction h with
  | start => rfl
  | pass _ hs _ ih => exact hs.later.home.trans ih

theorem Reaches.later (hw₀ : Ready w₀ acts)
    (ht : .run t ∈ acts) (hout : ∀ f o, out f = some o → o.IsPlain) :
    t.machine.Later m ∧ ∀ v ∈ slots, v.IsPlain := by
  induction h with
  | start h =>
    obtain ⟨slots, hs, hp⟩ := hw₀.slots t ht
    cases hs.symm.trans h
    exact ⟨⟨rfl, rfl, hw₀.machine t ht⟩, hp⟩
  | pass _ hs ho ih =>
    obtain ⟨hchain, hhome, hm⟩ := ih.1.trans hs.later
    refine ⟨⟨hchain, hhome, hm.token, hm.pending, fun o' ho' => ?_, hm.result⟩, hs.plain⟩
    cases ho'
    exact hout _ _ ho

/-- There is a world in which the task is at this place. -/
theorem Reaches.somewhere (hw₀ : Ready w₀ acts)
    (ht : .run t ∈ acts) : ∃ w : World σ κ, w.slotsAt m.home = some slots := by
  obtain ⟨slots₀, hs, -⟩ := hw₀.slots t ht
  exact ⟨w₀.after t.machine.home slots 0, by rw [h.home]; exact World.slotsAt_after hs _ _⟩

/-- After so many awaits there is only one place to be. -/
theorem Reaches.unique (h' : Reaches host w₀ out t k m' slots') (hw₀ : Ready w₀ acts)
    (ht : .run t ∈ acts) : m = m' ∧ slots = slots' := by
  induction h generalizing m' slots' with
  | start h =>
    cases h' with
    | start h' => exact ⟨rfl, Option.some.inj (h.symm.trans h')⟩
  | pass h hs ho ih =>
    cases h' with
    | pass h' hs' ho' =>
      obtain ⟨rfl, rfl⟩ := ih h'
      obtain ⟨w, hw⟩ := h.somewhere hw₀ ht
      obtain ⟨heq, rfl⟩ := hs.unique hs' hw
      cases heq
      cases ho.symm.trans ho'
      exact ⟨rfl, rfl⟩

end

/-- A task that stops at a place comes no further. -/
theorem Reaches.le_of_stuck {j : Nat} {slots₁ : List Value} (h : Reaches host w₀ out t j m' slots')
    (hk : Reaches host w₀ out t k m slots) (hs : Segment host m slots halt slots₁)
    (hstuck : ∀ f m₁, halt = .awaiting f m₁ → out f = none) (hw₀ : Ready w₀ acts)
    (ht : .run t ∈ acts) : j ≤ k := by
  induction h with
  | start => exact Nat.zero_le k
  | pass h' hs' ho ih =>
    rename_i j m' _ _ _ f _
    refine Nat.succ_le_of_lt (Nat.lt_of_le_of_ne ih ?_)
    rintro rfl
    obtain ⟨rfl, rfl⟩ := h'.unique hk hw₀ ht
    obtain ⟨w, hw⟩ := hk.somewhere hw₀ ht
    have hnone := hstuck f _ (hs.unique hs' hw).1
    rw [hnone] at ho
    cases ho

end

/-- Outcomes that contain all that must come about. -/
structure Closed (host : Host σ κ) (w₀ : World σ κ) (acts : List Act) (top : Outcomes) :
    Prop where
  ready : Extends w₀.outcome? top
  settles : ∀ f o, .settle f o ∈ acts → top f = some o
  ends : ∀ t k m slots halt slots' o, .run t ∈ acts → Reaches host w₀ top t k m slots →
    Segment host m slots halt slots' → halt.verdict? = some o → top t.result = some o

/-- Where a task is. The number says how many awaits it has behind it. -/
inductive Phase where
  | fresh
  /-- Its machine is to run next. -/
  | called (k : Nat) (m : Machine)
  | parked (k : Nat) (f : FutureId) (m : Machine)
  /-- Its future is to be settled next. -/
  | ended (k : Nat) (o : Outcome)
  | gone (k : Nat)

namespace Phase

/-- Whatever a task does leads to a later stage. -/
def stage : Phase → Nat
  | .fresh => 0
  | .called k _ => 2 * k + 1
  | .parked k _ _ | .ended k _ => 2 * k + 2
  | .gone k => 2 * k + 3

/-- The task waits, or there is nothing left to do for it. -/
def isCalm : Phase → Bool
  | .parked .. | .gone _ => true
  | .fresh | .called .. | .ended .. => false

def isParked : Phase → Bool
  | .parked .. => true
  | .fresh | .called .. | .ended .. | .gone _ => false

end Phase

abbrev Phases := FutureId → Phase

/-- What is true of a task in a phase. -/
def Stands (host : Host σ κ) (w₀ w : World σ κ) (t : Task) : Phase → Prop
  | .fresh => w.outcome? t.result = none ∧ w.slotsAt t.machine.home = w₀.slotsAt t.machine.home
  | .called k m => w.outcome? t.result = none ∧ ∃ slots,
      w.slotsAt t.machine.home = some slots ∧ Reaches host w₀ w.outcome? t k m slots
  | .parked k f m' => w.outcome? t.result = none ∧ ∃ m slots slots',
      w.slotsAt t.machine.home = some slots' ∧ Reaches host w₀ w.outcome? t k m slots ∧
      Segment host m slots (.awaiting f m') slots'
  | .ended k o => w.outcome? t.result = none ∧ ∃ m slots halt slots',
      Reaches host w₀ w.outcome? t k m slots ∧ Segment host m slots halt slots' ∧
      halt.verdict? = some o
  | .gone k => ∃ m slots halt slots' o, Reaches host w₀ w.outcome? t k m slots ∧
      Segment host m slots halt slots' ∧ halt.verdict? = some o ∧ w.outcome? t.result = some o

/-- The world is as the phases say. -/
structure Account (host : Host σ κ) (w₀ : World σ κ) (acts : List Act) (w : World σ κ)
    (phase : Phases) : Prop where
  size : w.futures.size = w₀.futures.size
  ready : Extends w₀.outcome? w.outcome?
  plain : ∀ f o, w.outcome? f = some o → o.IsPlain
  sources : ∀ f o o', .settle f o ∈ acts → w.outcome? f = some o' → o' = o
  /-- No outcome has come about without need. -/
  needed : ∀ top, Closed host w₀ acts top → Extends w.outcome? top
  waiting : ∀ (f : FutureId) cell, w.futures[f]? = some cell → ∀ c ∈ cell.waiting,
    ∃ t k m, .run t ∈ acts ∧ c = .resume m t.result ∧ phase t.result = .parked k f m
  once : ∀ (f : FutureId) cell, w.futures[f]? = some cell →
    (cell.waiting.map Continuation.owner).Nodup
  parked : ∀ t k f m, .run t ∈ acts → phase t.result = .parked k f m → w.outcome? f = none ∧
    ∀ cell, w.futures[f]? = some cell → .resume m t.result ∈ cell.waiting
  stands : ∀ t, .run t ∈ acts → Stands host w₀ w t (phase t.result)

section

variable {host : Host σ κ} {w₀ w w' : World σ κ} {acts : List Act} {phase : Phases} {t : Task}

theorem Stands.mono {p : Phase} (h : Stands host w₀ w t p)
    (hout : Extends w.outcome? w'.outcome?) (hr : w'.outcome? t.result = w.outcome? t.result)
    (hs : w'.slotsAt t.machine.home = w.slotsAt t.machine.home) : Stands host w₀ w' t p := by
  cases p with
  | fresh => exact ⟨hr.trans h.1, hs.trans h.2⟩
  | called k m =>
    obtain ⟨hnone, slots, hslots, hreach⟩ := h
    exact ⟨hr.trans hnone, slots, hs.trans hslots, hreach.mono hout⟩
  | parked k f m' =>
    obtain ⟨hnone, m, slots, slots', hslots, hreach, hseg⟩ := h
    exact ⟨hr.trans hnone, m, slots, slots', hs.trans hslots, hreach.mono hout, hseg⟩
  | ended k o =>
    obtain ⟨hnone, m, slots, halt, slots', hreach, hseg⟩ := h
    exact ⟨hr.trans hnone, m, slots, halt, slots', hreach.mono hout, hseg⟩
  | gone k =>
    obtain ⟨m, slots, halt, slots', o, hreach, hseg, hv, ho⟩ := h
    exact ⟨m, slots, halt, slots', o, hreach.mono hout, hseg, hv, hr.trans ho⟩

namespace Account

section

variable (h : Account host w₀ acts w phase)
include h

theorem congr (hf : w'.futures = w.futures)
    (hs : w'.storages = w.storages) : Account host w₀ acts w' phase := by
  have hout := World.outcome?_congr hf
  refine ⟨by rw [hf]; exact h.size, by rw [hout]; exact h.ready, by rw [hout]; exact h.plain,
    by rw [hout]; exact h.sources, by rw [hout]; exact h.needed, by rw [hf]; exact h.waiting,
    by rw [hf]; exact h.once, by rw [hout, hf]; exact h.parked, fun t ht => ?_⟩
  refine (h.stands t ht).mono (by rw [hout]; exact fun _ _ => id) (by rw [hout]) ?_
  rw [World.slotsAt, hs]
  rfl

section

variable (hw₀ : Ready w₀ acts) (ht : .run t ∈ acts)
include hw₀ ht

theorem stands_update (hout : w'.outcome? = w.outcome?)
    (hs : ∀ home, home ≠ t.machine.home → w'.slotsAt home = w.slotsAt home) {p : Phase}
    (hp : Stands host w₀ w' t p) (t' : Task) (ht' : .run t' ∈ acts) :
    Stands host w₀ w' t' (Function.update phase t.result p t'.result) := by
  by_cases heq : t'.result = t.result
  · cases hw₀.act_unique ht' ht heq
    rw [Function.update_self]
    exact hp
  · rw [Function.update_of_ne heq]
    refine (h.stands t' ht').mono (by rw [hout]; exact fun _ _ => id) (by rw [hout]) (hs _ ?_)
    intro hhome
    exact heq (congrArg Task.result (hw₀.apart t' t ht' ht hhome))

theorem update (hf : w'.futures = w.futures)
    (hs : ∀ home, home ≠ t.machine.home → w'.slotsAt home = w.slotsAt home)
    (hold : (phase t.result).isParked = false) {p : Phase} (hnew : p.isParked = false)
    (hp : Stands host w₀ w' t p) : Account host w₀ acts w' (Function.update phase t.result p) := by
  have hout := World.outcome?_congr hf
  have hparked : ∀ r k f m, Function.update phase t.result p r = .parked k f m ↔
      phase r = .parked k f m := by
    intro r k f m
    by_cases hr : r = t.result
    · subst hr
      rw [Function.update_self]
      constructor
      · rintro rfl
        cases hnew
      · intro hr
        rw [hr] at hold
        cases hold
    · rw [Function.update_of_ne hr]
  refine ⟨by rw [hf]; exact h.size, by rw [hout]; exact h.ready, by rw [hout]; exact h.plain,
    by rw [hout]; exact h.sources, by rw [hout]; exact h.needed, ?_, by rw [hf]; exact h.once, ?_,
    h.stands_update hw₀ ht hout hs hp⟩
  · rw [hf]
    simp only [hparked]
    exact h.waiting
  · rw [hout, hf]
    simp only [hparked]
    exact h.parked

theorem park (hs : ∀ home, home ≠ t.machine.home → w'.slotsAt home = w.slotsAt home)
    (hold : (phase t.result).isParked = false) {k : Nat} {m : Machine}
    (hf : w'.futures = (w.await f (.resume m t.result)).futures) (hpending : w.outcome? f = none)
    (hp : Stands host w₀ w' t (.parked k f m)) :
    Account host w₀ acts w' (Function.update phase t.result (.parked k f m)) := by
  have hout : w'.outcome? = w.outcome? :=
    (World.outcome?_congr hf).trans (World.outcome?_await ..)
  -- who waits already is not this task
  have hnot : ∀ (g : FutureId) old, w.futures[g]? = some old → ∀ c ∈ old.waiting,
      ∃ t' k' m', .run t' ∈ acts ∧ t'.result ≠ t.result ∧ c = .resume m' t'.result ∧
        phase t'.result = .parked k' g m' := by
    intro g old hg c hc
    obtain ⟨t', k', m', ht', rfl, hphase⟩ := h.waiting g old hg c hc
    refine ⟨t', k', m', ht', fun heq => ?_, rfl, hphase⟩
    rw [← heq, hphase] at hold
    cases hold
  refine ⟨?_, by rw [hout]; exact h.ready, by rw [hout]; exact h.plain,
    by rw [hout]; exact h.sources, by rw [hout]; exact h.needed, fun g cell hg c hc => ?_,
    fun g cell hg => ?_, fun t' k' g m' ht' hphase => ?_, fun t' ht' => ?_⟩
  · rw [hf, World.await]
    simpa using h.size
  · obtain ⟨old, hgold, hwaiting⟩ := World.await_cell (hf ▸ hg)
    have hold' : c ∈ old.waiting → ∃ t' k' m', .run t' ∈ acts ∧ c = .resume m' t'.result ∧
        Function.update phase t.result (.parked k f m) t'.result = .parked k' g m' := by
      intro hc
      obtain ⟨t', k', m', ht', hne, rfl, hphase⟩ := hnot g old hgold c hc
      exact ⟨t', k', m', ht', rfl, by rw [Function.update_of_ne hne]; exact hphase⟩
    rw [hwaiting] at hc
    split at hc
    · rename_i heq
      subst heq
      rcases mem_append.mp hc with hc | hc
      · exact hold' hc
      · obtain rfl := mem_singleton.mp hc
        exact ⟨t, k, m, ht, rfl, Function.update_self ..⟩
    · exact hold' hc
  · obtain ⟨old, hgold, hwaiting⟩ := World.await_cell (hf ▸ hg)
    rw [hwaiting]
    split
    · rw [map_append]
      refine nodup_append.mpr ⟨h.once g old hgold, nodup_singleton _, ?_⟩
      intro r hr r' hr'
      obtain ⟨c, hc, rfl⟩ := mem_map.mp hr
      obtain rfl := mem_singleton.mp hr'
      obtain ⟨t', k', m', ht', hne, rfl, -⟩ := hnot g old hgold c hc
      exact hne
    · exact h.once g old hgold
  · rw [hout]
    by_cases heq : t'.result = t.result
    · rw [heq, Function.update_self] at hphase
      cases hphase
      refine ⟨hpending, fun cell hcell => ?_⟩
      obtain ⟨old, -, hwaiting⟩ := World.await_cell (hf ▸ hcell)
      rw [hwaiting, if_pos rfl, heq]
      simp
    · rw [Function.update_of_ne heq] at hphase
      obtain ⟨hnone, hmem⟩ := h.parked t' k' g m' ht' hphase
      refine ⟨hnone, fun cell hcell => ?_⟩
      obtain ⟨old, hgold, hwaiting⟩ := World.await_cell (hf ▸ hcell)
      rw [hwaiting]
      split
      · exact mem_append_left _ (hmem old hgold)
      · exact hmem old hgold
  · exact h.stands_update hw₀ ht hout hs hp t' ht'

end

end

end Account

/-- An outcome that is to be given to a future. -/
inductive Due (acts : List Act) (phase : Phases) : FutureId → Outcome → Prop where
  | source {f : FutureId} {o : Outcome} (h : .settle f o ∈ acts) : Due acts phase f o
  | task {t : Task} {k : Nat} {o : Outcome} (h : .run t ∈ acts)
    (hp : phase t.result = .ended k o) : Due acts phase t.result o

/-- The phases after a future is settled. -/
def woken (phase : Phases) (f : FutureId) (o : Outcome) : Phases := fun r =>
  match phase r with
  | .parked k g m =>
    if g = f then .called (k + 1) { m with resumption := some o } else .parked k g m
  | .ended k o' => if r = f then .gone k else .ended k o'
  | p => p

theorem Due.source_eq {o' : Outcome} (h : Due acts phase f o) (hw₀ : Ready w₀ acts)
    (ha : .settle f o' ∈ acts) : o = o' := by
  cases h with
  | source h =>
    cases hw₀.act_unique h ha rfl
    rfl
  | task h => cases hw₀.act_unique h ha rfl

theorem Due.task_ended (h : Due acts phase f o) (hw₀ : Ready w₀ acts) (ht : .run t ∈ acts)
    (hf : t.result = f) : ∃ k, phase t.result = .ended k o := by
  cases h with
  | source h => cases hw₀.act_unique ht h hf
  | task h hp =>
    cases hw₀.act_unique ht h hf
    exact ⟨_, hp⟩

namespace Account

section

variable (h : Account host w₀ acts w phase)
include h

theorem due_plain (hw₀ : Ready w₀ acts) (hdue : Due acts phase f o) : o.IsPlain := by
  cases hdue with
  | source ha => exact hw₀.settles f o ha
  | task ht hp =>
    have hstands := h.stands _ ht
    rw [hp] at hstands
    obtain ⟨-, m, slots, halt, slots', -, hseg, hv⟩ := hstands
    exact hseg.later.verdict hv

theorem due_needed (hdue : Due acts phase f o) {top : Outcomes}
    (htop : Closed host w₀ acts top) : top f = some o := by
  cases hdue with
  | source ha => exact htop.settles f o ha
  | task ht hp =>
    have hstands := h.stands _ ht
    rw [hp] at hstands
    obtain ⟨-, m, slots, halt, slots', hreach, hseg, hv⟩ := hstands
    exact htop.ends _ _ m slots halt slots' o ht (hreach.mono (h.needed top htop)) hseg hv

theorem stands_woken (hw₀ : Ready w₀ acts)
    (hdue : Due acts phase f o) {ks : List (Continuation κ)} (hs : w.settle? f o = some (ks, w'))
    (hgrow : Extends w.outcome? w'.outcome?) (ht : .run t ∈ acts) :
    Stands host w₀ w' t (woken phase f o t.result) := by
  have hout := World.outcome?_settle? hs
  have hslots : w'.slotsAt t.machine.home = w.slotsAt t.machine.home := by
    obtain ⟨_, -, -, -, rfl⟩ := World.settle?_some hs
    rfl
  have hstands := h.stands t ht
  by_cases hf : t.result = f
  · obtain ⟨k, hphase⟩ := hdue.task_ended hw₀ ht hf
    simp only [woken, hphase, if_pos hf]
    rw [hphase] at hstands
    obtain ⟨-, m, slots, halt, slots', hreach, hseg, hv⟩ := hstands
    refine ⟨m, slots, halt, slots', o, hreach.mono hgrow, hseg, hv, ?_⟩
    rw [hout, hf, Function.update_self]
  · have hr : w'.outcome? t.result = w.outcome? t.result := by
      rw [hout, Function.update_of_ne hf]
    have hmono := hstands.mono hgrow hr hslots
    cases hphase : phase t.result with
    | parked k g m =>
      rw [hphase] at hmono
      simp only [woken, hphase]
      split
      · rename_i hg
        subst hg
        obtain ⟨hnone, m₀, slots, slots', hslots', hreach, hseg⟩ := hmono
        exact ⟨hnone, slots', hslots', hreach.pass hseg (by rw [hout, Function.update_self])⟩
      · exact hmono
    | ended k o' =>
      rw [hphase] at hmono
      simp only [woken, hphase, if_neg hf]
      exact hmono
    | fresh | called | gone =>
      rw [hphase] at hmono
      simp only [woken, hphase]
      exact hmono

theorem settle (hw₀ : Ready w₀ acts) (hdue : Due acts phase f o)
    {ks : List (Continuation κ)} (hs : w.settle? f o = some (ks, w')) :
    Account host w₀ acts w' (woken phase f o) := by
  have hout := World.outcome?_settle? hs
  obtain ⟨cell₀, hf, hnone, -, hw'⟩ := World.settle?_some hs
  have hpending : w.outcome? f = none := by rw [World.outcome?, hf]; exact hnone
  have hcases : ∀ g o', w'.outcome? g = some o' → (g = f ∧ o' = o) ∨ w.outcome? g = some o' := by
    intro g o' ho'
    rw [hout] at ho'
    by_cases hg : g = f
    · subst hg
      rw [Function.update_self] at ho'
      exact .inl ⟨rfl, (Option.some.inj ho').symm⟩
    · rw [Function.update_of_ne hg] at ho'
      exact .inr ho'
  have hgrow : Extends w.outcome? w'.outcome? := by
    intro g o' ho'
    rw [hout, Function.update_of_ne]
    · exact ho'
    · rintro rfl
      rw [hpending] at ho'
      cases ho'
  refine ⟨?_, fun g o' ho' => hgrow g o' (h.ready g o' ho'), fun g o' ho' => ?_,
    fun g o₁ o' ha ho' => ?_, fun top htop g o' ho' => ?_, fun g cell hg c hc => ?_,
    fun g cell hg => ?_, fun t k g m ht hphase => ?_,
    fun t ht => h.stands_woken hw₀ hdue hs hgrow ht⟩
  · rw [hw']
    simpa using h.size
  · rcases hcases g o' ho' with ⟨rfl, rfl⟩ | ho'
    · exact h.due_plain hw₀ hdue
    · exact h.plain g o' ho'
  · rcases hcases g o' ho' with ⟨rfl, rfl⟩ | ho'
    · exact hdue.source_eq hw₀ ha
    · exact h.sources g o₁ o' ha ho'
  · rcases hcases g o' ho' with ⟨rfl, rfl⟩ | ho'
    · exact h.due_needed hdue htop
    · exact h.needed top htop g o' ho'
  · rcases World.settle?_cell hs hg with ⟨-, hnil⟩ | ⟨hne, hg⟩
    · rw [hnil] at hc
      cases hc
    · obtain ⟨t, k, m, ht, rfl, hphase⟩ := h.waiting g cell hg c hc
      refine ⟨t, k, m, ht, rfl, ?_⟩
      simp only [woken, hphase, if_neg hne]
  · rcases World.settle?_cell hs hg with ⟨-, hnil⟩ | ⟨-, hg⟩
    · rw [hnil]
      exact nodup_nil
    · exact h.once g cell hg
  · have hne : phase t.result = .parked k g m ∧ g ≠ f := by
      simp only [woken] at hphase
      split at hphase
      · split at hphase
        · cases hphase
        · rename_i hp hg
          cases hphase
          exact ⟨hp, hg⟩
      · split at hphase <;> cases hphase
      · rename_i hp _
        exact absurd hphase (hp k g m)
    obtain ⟨hnone', hmem⟩ := h.parked t k g m ht hne.1
    refine ⟨by rw [hout, Function.update_of_ne hne.2]; exact hnone', fun cell hg => ?_⟩
    rcases World.settle?_cell hs hg with ⟨heq, -⟩ | ⟨-, hg⟩
    · exact absurd heq hne.2
    · exact hmem cell hg

end

end Account

end

end Interleaving

end Resumable

import Resumable.Proofs.Conduct
import Resumable.Proofs.Confluence
import Resumable.Proofs.Equality
import Resumable.Proofs.Queues

namespace Resumable

open List

/-! What can be seen of a task at an instant. -/

/-- The task that something happens to. -/
def Happening.task? : Happening → Option FutureId
  | .runs r _ | .waits r _ | .ends r _ => some r
  | .host => none

/-- What happened last to a task. -/
def lastOf {κ : Type} (history : List (Instant κ)) (r : FutureId) : Option Happening :=
  (history.map (·.happening)).find? (·.task? == some r)

section

variable {κ : Type}
variable {i : Instant κ} {history : List (Instant κ)}

theorem task?_of_last {r : FutureId} {x : Happening} (h : lastOf history r = some x) :
    x.task? = some r := by
  simpa using find?_some h

/-- Something happened last to a task that has been started. -/
theorem exists_last {r : FutureId} {o : Option Outcome} (hi : i ∈ history)
    (ho : i.happening = .runs r o) : ∃ x, lastOf history r = some x := by
  refine Option.isSome_iff_exists.mp (find?_isSome.mpr ⟨_, mem_map_of_mem hi, ?_⟩)
  rw [ho]
  simp [Happening.task?]

theorem lastOf_cons (i : Instant κ) (history : List (Instant κ)) (r : FutureId) :
    lastOf (i :: history) r =
      if i.happening.task? = some r then some i.happening else lastOf history r := by
  simp only [lastOf, map_cons, find?_cons]
  by_cases h : i.happening.task? = some r
  · simp [h]
  · have hne : (i.happening.task? == some r) = false := by simpa using h
    simp [hne, h]

/-- The futures on which a task has continuations, of the given ones. -/
def registered (ks : List (FutureId × Continuation κ)) (r : FutureId) : List FutureId :=
  ks.filterMap fun
    | (f, .resume _ r') => if r' = r then some f else none
    | (_, .callback ..) => none

theorem mem_registered {ks : List (FutureId × Continuation κ)} {r f : FutureId} :
    f ∈ registered ks r ↔ ∃ m, (f, .resume m r) ∈ ks := by
  constructor
  · intro h
    obtain ⟨⟨g, k⟩, hmem, he⟩ := mem_filterMap.mp h
    cases k with
    | resume m r' =>
      by_cases hr : r' = r
      · subst hr
        simp only [if_true, Option.some.injEq] at he
        exact ⟨m, he ▸ hmem⟩
      · simp [hr] at he
    | callback key next => cases he
  · rintro ⟨m, hmem⟩
    exact mem_filterMap.mpr ⟨_, hmem, by simp⟩

/-- Those in hand who are to run next, each with what it waited on. -/
def Holding.draining : Holding κ → List (FutureId × Continuation κ)
  | .waiting f ks => ks.map (f, ·)
  | _ => []

def Holding.isFuture (r : FutureId) : Holding κ → Bool
  | .future f => f == r
  | _ => false

namespace Instant

variable (i : Instant κ)

def outcome? (f : FutureId) : Option Outcome :=
  i.futures[f]?.bind (·.outcome)

/-- How often a task is being run. -/
def runs (r : FutureId) : Nat :=
  i.hands.countP (·.isFuture r)

/-- The futures where continuations of a task are queued. -/
def queued (r : FutureId) : List FutureId :=
  registered (queue i.futures) r

/-- The settled futures of which continuations of a task are still to run. -/
def draining (r : FutureId) : List FutureId :=
  registered (i.hands.flatMap (·.draining)) r

end Instant

/-- What a task that has been started may be doing. -/
inductive Condition where
  | running
  | suspended (on : FutureId)
  | finished

/-- A task is found in a condition: it runs once, and has no continuation; its future is pending,
and it has one continuation, queued on a pending future or in the rest of what the settlement of
that future has to run; or its future is settled, and it has no continuation. -/
def Instant.Finds (i : Instant κ) (r : FutureId) : Condition → Prop
  | .running => i.runs r = 1 ∧ i.outcome? r = none ∧ i.queued r = [] ∧ i.draining r = []
  | .suspended f => i.runs r = 0 ∧ i.outcome? r = none ∧
    (i.queued r = [f] ∧ i.draining r = [] ∧ i.outcome? f = none ∨
      i.queued r = [] ∧ i.draining r = [f] ∧ (i.outcome? f).isSome = true)
  | .finished => i.runs r = 0 ∧ (i.outcome? r).isSome = true ∧ i.queued r = [] ∧ i.draining r = []

theorem Instant.Finds.unique {r : FutureId} {c c' : Condition} (h : i.Finds r c)
    (h' : i.Finds r c') : c = c' := by
  cases c with
  | running =>
    cases c' with
    | running => rfl
    | suspended f => exact absurd (h.1.symm.trans h'.1) (by decide)
    | finished => exact absurd (h.1.symm.trans h'.1) (by decide)
  | suspended f =>
    cases c' with
    | running => exact absurd (h.1.symm.trans h'.1) (by decide)
    | suspended f' =>
      rcases h.2.2 with ⟨hq, hd, -⟩ | ⟨hq, hd, -⟩ <;>
        rcases h'.2.2 with ⟨hq', hd', -⟩ | ⟨hq', hd', -⟩
      · cases hq.symm.trans hq'
        rfl
      · cases hq.symm.trans hq'
      · cases hq.symm.trans hq'
      · cases hd.symm.trans hd'
        rfl
    | finished =>
      rw [Instant.Finds, h.2.1] at h'
      exact absurd h'.2.1 nofun
  | finished =>
    cases c' with
    | running => exact absurd (h.1.symm.trans h'.1) (by decide)
    | suspended f' =>
      rw [Instant.Finds, h'.2.1] at h
      exact absurd h.2.1 nofun
    | finished => rfl

/-- What last happened to a task says in which condition it is found. -/
def Instant.Accords (i : Instant κ) (r : FutureId) : Happening → Prop
  | .runs .. => i.Finds r .running ∨ i.Finds r .finished
  | .waits _ f => i.Finds r (.suspended f)
  | .ends .. => i.Finds r .finished
  | .host => True

/-- What happens to a task follows from what happened to it before: it starts once; it runs on with
the outcome of the future on which it waited, or with one that had been there; it waits or ends
when it has been running; and nobody else settles its future. -/
def Instant.Follows (i : Instant κ) (past : List (Instant κ)) : Prop :=
  match i.happening with
  | .runs r none => lastOf past r = none ∧ i.Finds r .running
  | .runs r (some o) =>
    ((∃ o', lastOf past r = some (.runs r o')) ∨
      ∃ f, lastOf past r = some (.waits r f) ∧ i.outcome? f = some o) ∧ i.Finds r .running
  | .waits r _ => ∃ o, lastOf past r = some (.runs r o)
  | .ends _ fresh => fresh = true
  | .host => True

/-- Every task that has been started is found in exactly one condition, and what happened to it last
says in which. -/
def Instant.Knows (i : Instant κ) (history : List (Instant κ)) : Prop :=
  ∀ r o, (∃ j ∈ history, j.happening = .runs r o) →
    ∃ h, lastOf history r = some h ∧ i.Accords r h ∧ ∃! c, i.Finds r c

theorem Instant.knows (h : ∀ r h, lastOf history r = some h → i.Accords r h) : i.Knows history := by
  rintro r o ⟨j, hj, ho⟩
  obtain ⟨x, hx⟩ := exists_last hj ho
  have hc : ∃ c, i.Finds r c := by
    have ha := h r x hx
    cases x with
    | runs => exact ha.elim (⟨_, ·⟩) (⟨_, ·⟩)
    | waits r' f => exact ⟨.suspended f, ha⟩
    | ends => exact ⟨.finished, ha⟩
    | host => cases task?_of_last hx
  obtain ⟨c, hc⟩ := hc
  exact ⟨x, hx, h r x hx, c, hc, fun c' hc' => hc'.unique hc⟩

/-- At each instant, what happens follows, and all tasks are found as they should be. -/
def Regular : List (Instant κ) → Prop
  | [] => True
  | i :: past =>
    (i.Follows past ∧ ∀ r h, lastOf (i :: past) r = some h → i.Accords r h) ∧ Regular past

theorem Regular.at {after before : List (Instant κ)} (h : Regular (after ++ i :: before)) :
    i.Follows before ∧ i.Knows (i :: before) := by
  induction after with
  | nil => exact ⟨h.1.1, Instant.knows h.1.2⟩
  | cons j after ih => exact ih h.2

end

/-! Rights. -/

namespace Lifecycle

/-- The futures that someone may settle. -/
def rights {κ : Type} : Claim κ FutureId where
  storage := fun _ => []
  right := fun f => [f]
  continuation
    | .resume _ r => [r]
    | .callback _ next => [next]

section

variable {κ : Type}

theorem count_continuations {ks : List (FutureId × Continuation κ)} {r : FutureId}
    (h : ∀ f key, (f, .callback key r) ∉ ks) :
    (ks.flatMap (rights.continuation ·.2)).count r = (registered ks r).length := by
  induction ks with
  | nil => rfl
  | cons p ks ih =>
    obtain ⟨f, k⟩ := p
    have hrest := ih fun f key hmem => h f key (mem_cons_of_mem _ hmem)
    rw [flatMap_cons, count_append, hrest]
    cases k with
    | resume m r' =>
      by_cases hr : r' = r
      · simp [rights, registered, hr, Nat.add_comm]
      · simp [rights, registered, hr]
    | callback key next =>
      have hne : next ≠ r := fun he => h f key (he ▸ mem_cons_self)
      simp [rights, registered, hne]

theorem count_hands {hands : List (Holding κ)} {r : FutureId} :
    ((hands.flatMap (·.cargo)).flatMap rights.cargo).count r =
      hands.countP (·.isFuture r) +
        ((hands.flatMap (·.draining)).flatMap (rights.continuation ·.2)).count r := by
  induction hands with
  | nil => rfl
  | cons x hands ih =>
    rw [flatMap_cons, flatMap_append, count_append, ih, flatMap_cons,
      flatMap_append, count_append, countP_cons]
    cases x with
    | future f =>
      by_cases hf : f = r
      · simp [Holding.cargo, Holding.draining, Holding.isFuture, Claim.cargo, rights, hf]
        omega
      · simp [Holding.cargo, Holding.draining, Holding.isFuture, Claim.cargo, rights, hf]
    | waiting f ks =>
      have hks : (ks.map (f, ·)).flatMap (rights.continuation ·.2) =
          ks.flatMap rights.continuation := flatMap_map ..
      show ((ks.flatMap rights.continuation) ++ []).count r + _ =
        _ + 0 + (((ks.map (f, ·)).flatMap _).count r + _)
      rw [hks, append_nil]
      omega
    | values | outcome | storage | machine | evaluation =>
      simp [Holding.cargo, Holding.draining, Holding.isFuture, Claim.cargo, rights]

end

/-! Books about rights. -/

section

variable {σ κ : Type}

/-- Someone waits on `f` because this is what happened last to the task; callbacks settle futures
that no task has. -/
def Waits (w : World σ κ) (f : FutureId) : Continuation κ → Prop
  | .resume _ r => lastOf w.history r = some (.waits r f)
  | .callback _ next => lastOf w.history next = none

/-- What cargo says about the task whose right it is. -/
def Rightful (w : World σ κ) : Cargo κ → Prop
  | .storage _ => True
  | .right r .fresh => lastOf w.history r = none
  | .right r .running => ∀ h, lastOf w.history r = some h → ∃ o, h = .runs r o
  | .right r (.due o) => ∃ f, lastOf w.history r = some (.waits r f) ∧ w.outcome? f = some o
  | .waiting f ks => (w.outcome? f).isSome = true ∧ ∀ k ∈ ks, Waits w f k

/-- Each right is in one place only, and lasts until the future is settled. What happened last to a
task is known from where its right is. -/
structure Ordered (C : Custody σ κ) (own : List (Cargo κ)) (w : World σ κ) : Prop where
  cargo : ∀ x ∈ own ++ (w.cargo ++ C.cargo w.ext), Rightful w x
  queued : ∀ p ∈ queue w.futures, w.outcome? p.1 = none ∧ Waits w p.1 p.2
  distinct : (rights.all C own w ++ C.sources w.ext).Nodup
  pending : ∀ r ∈ rights.all C own w, r < w.futures.size ∧ w.outcome? r = none
  sources : ∀ f ∈ C.sources w.ext, f < w.futures.size
  known : ∀ r h, lastOf w.history r = some h → r ∈ rights.all C own w ∨
    (w.outcome? r).isSome = true ∧ ∀ f, h ≠ .waits r f

variable {C : Custody σ κ} {own own' : List (Cargo κ)} {w w' : World σ κ}

/-- Nothing has happened to the tasks in question. -/
theorem Waits.of_last {f : FutureId} {k : Continuation κ} (h : Waits w f k)
    (hh : ∀ r ∈ rights.continuation k, lastOf w'.history r = lastOf w.history r) :
    Waits w' f k := by
  cases k with
  | resume m r =>
    have hr := hh r mem_cons_self
    exact hr.trans h
  | callback key next =>
    have hr := hh next mem_cons_self
    exact hr.trans h

theorem Rightful.of_last {x : Cargo κ} (h : Rightful w x)
    (hh : ∀ r ∈ rights.cargo x, lastOf w'.history r = lastOf w.history r)
    (ho : ∀ f o, w.outcome? f = some o → w'.outcome? f = some o) : Rightful w' x := by
  cases x with
  | storage => trivial
  | right r stage =>
    have hr := hh r mem_cons_self
    cases stage with
    | fresh => exact hr.trans h
    | running => exact fun y hy => h y (hr.symm.trans hy)
    | due o =>
      obtain ⟨f, hf, hout⟩ := h
      exact ⟨f, hr.trans hf, ho f o hout⟩
  | waiting f ks =>
    refine ⟨?_, fun k hk => ?_⟩
    · obtain ⟨o, hout⟩ := Option.isSome_iff_exists.mp h.1
      rw [ho f o hout]
      rfl
    · exact (h.2 k hk).of_last fun r hr => hh r (mem_flatMap.mpr ⟨k, hk, hr⟩)

namespace Ordered

variable {own₀ : List (Cargo κ)} {x : Happening} {k : Continuation κ}

section

variable (h : Ordered C own w)
include h

/-- A task to which something has happened is known by a future that exists. -/
theorem lt_of_last {r : FutureId} (hx : lastOf w.history r = some x) : r < w.futures.size := by
  rcases h.known r x hx with hmem | ⟨hout, -⟩
  · exact (h.pending r hmem).1
  · obtain ⟨o, ho⟩ := Option.isSome_iff_exists.mp hout
    exact World.lt_of_outcome? ho

section

variable (hf : w'.futures = w.futures) (hh : w'.history = w.history)
  (hs : C.sources w'.ext = C.sources w.ext)
include hf hh hs

theorem same (hc : ∀ x ∈ own' ++ (w'.cargo ++ C.cargo w'.ext),
      x ∈ own ++ (w.cargo ++ C.cargo w.ext) ∨ Rightful w x)
    (hr : (rights.all C own' w').Perm (rights.all C own w)) : Ordered C own' w' := by
  have ho : ∀ f, w'.outcome? f = w.outcome? f := fun f => by
    rw [World.outcome?, hf]
    rfl
  have hl : ∀ r, lastOf w'.history r = lastOf w.history r := fun r => by rw [hh]
  refine ⟨fun x hx => ?_, fun p hp => ?_, ?_, fun r hmem => ?_, fun f hmem => ?_,
    fun r x hx => ?_⟩
  · have hold : Rightful w x := (hc x hx).elim (h.cargo x) id
    exact hold.of_last (fun r _ => hl r) fun f o hfo => (ho f).trans hfo
  · rw [hf] at hp
    obtain ⟨hout, hwaits⟩ := h.queued p hp
    exact ⟨(ho p.1).trans hout, hwaits.of_last fun r _ => hl r⟩
  · rw [hs]
    exact ((hr.append_right _).nodup_iff).mpr h.distinct
  · rw [hf, ho]
    exact h.pending r (hr.mem_iff.mp hmem)
  · rw [hf]
    exact h.sources f (hs ▸ hmem)
  · rw [hl] at hx
    rw [ho]
    exact (h.known r x hx).imp_left hr.mem_iff.mpr

theorem perm (hc : (own' ++ (w'.cargo ++ C.cargo w'.ext)).Perm
    (own ++ (w.cargo ++ C.cargo w.ext))) : Ordered C own' w' :=
  h.same hf hh hs (fun _ hx => .inl (hc.mem_iff.mp hx)) (rights.all_perm C hf hc)

end

theorem inert (hw : w.Inert w') : Ordered C own w' :=
  h.perm hw.futures hw.history (by rw [hw.ext])
    (.of_eq (by rw [World.cargo, World.cargo, hw.hands, hw.ext]))

end

theorem grasp_iff {held : List (Holding κ)} :
    Ordered C own (w.grasp held) ↔ Ordered C (held.flatMap (·.cargo) ++ own) w := by
  have hc : (own ++ ((w.grasp held).cargo ++ C.cargo w.ext)).Perm
      (held.flatMap (·.cargo) ++ own ++ (w.cargo ++ C.cargo w.ext)) := by
    have hcargo : (w.grasp held).cargo = held.flatMap (·.cargo) ++ w.cargo := by
      rw [World.cargo, World.grasp, flatMap_append]
      rfl
    rw [hcargo, append_assoc, append_assoc]
    exact (perm_append_comm_assoc _ _ _)
  exact ⟨fun h => h.perm rfl rfl rfl hc.symm, fun h => h.perm rfl rfl rfl hc⟩

section

variable (h : Ordered C own w)
include h

theorem storages (hf : w'.futures = w.futures)
    (hh : w'.history = w.history) (hhands : w'.hands = w.hands) (he : w'.ext = w.ext)
    (hc : ∀ x ∈ own', x ∈ own ∨ ∃ home, x = .storage home)
    (hr : own'.flatMap rights.cargo = own.flatMap rights.cargo) : Ordered C own' w' := by
  have hcargo : w'.cargo = w.cargo := by rw [World.cargo, World.cargo, hhands]
  refine h.same hf hh (by rw [he]) (fun x hx => ?_) (.of_eq ?_)
  · rw [hcargo, he] at hx
    rcases mem_append.mp hx with hx | hx
    · rcases hc x hx with hx | ⟨home, rfl⟩
      · exact .inl (mem_append_left _ hx)
      · exact .inr trivial
    · exact .inl (mem_append_right _ hx)
  · rw [Claim.all, Claim.all, hf, he, hcargo, flatMap_append, hr, ← flatMap_append]

theorem addFuture (o : Option Outcome) : Ordered C own (w.addFuture o).2 := by
  have hold : ∀ {f}, f < w.futures.size → (w.addFuture o).2.outcome? f = w.outcome? f :=
    fun hf => w.outcome?_addFuture_of_lt o hf
  have hlater : ∀ f o', w.outcome? f = some o' → (w.addFuture o).2.outcome? f = some o' :=
    fun f o' ho => (hold (World.lt_of_outcome? ho)).trans ho
  refine ⟨fun x hx => ?_, fun p hp => ?_, ?_, fun r hmem => ?_, fun f hmem => ?_,
    fun r x hx => ?_⟩
  · exact (h.cargo x hx).of_last (fun _ _ => rfl) hlater
  · have hp' : p ∈ queue w.futures := queue_push w.futures o ▸ hp
    obtain ⟨c, hc, -⟩ := mem_queue.mp hp'
    obtain ⟨hout, hwaits⟩ := h.queued p hp'
    rw [hold (Array.getElem?_eq_some_iff.mp hc).1]
    exact ⟨hout, hwaits.of_last fun _ _ => rfl⟩
  · rw [rights.all_addFuture]
    exact h.distinct
  · rw [rights.all_addFuture] at hmem
    obtain ⟨hlt, hout⟩ := h.pending r hmem
    rw [hold hlt, World.addFuture, Array.size_push]
    exact ⟨Nat.lt_succ_of_lt hlt, hout⟩
  · rw [World.addFuture, Array.size_push]
    exact Nat.lt_succ_of_lt (h.sources f hmem)
  · rw [rights.all_addFuture, hold (h.lt_of_last hx)]
    exact h.known r x hx

theorem fresh : Ordered C (.right w.futures.size .fresh :: own) (w.addFuture none).2 := by
  have hnew := h.addFuture none
  have hall : rights.all C (.right w.futures.size .fresh :: own) (w.addFuture none).2 =
      w.futures.size :: rights.all C own w := by
    rw [rights.all_cons, rights.all_addFuture]
    rfl
  refine ⟨fun x hx => ?_, hnew.queued, ?_, fun r hmem => ?_, hnew.sources, fun r x hx => ?_⟩
  · rcases mem_cons.mp hx with rfl | hx
    · show lastOf w.history w.futures.size = none
      refine Option.eq_none_iff_forall_ne_some.mpr fun x hx => ?_
      exact Nat.lt_irrefl _ (h.lt_of_last hx)
    · exact hnew.cargo x hx
  · rw [hall, cons_append]
    refine nodup_cons.mpr ⟨fun hmem => ?_, h.distinct⟩
    rcases mem_append.mp hmem with hmem | hmem
    · exact Nat.lt_irrefl _ (h.pending _ hmem).1
    · exact Nat.lt_irrefl _ (h.sources _ hmem)
  · rw [hall] at hmem
    rcases mem_cons.mp hmem with rfl | hmem
    · exact ⟨by simp [World.addFuture], w.outcome?_addFuture none⟩
    · exact hnew.pending r (by rw [rights.all_addFuture]; exact hmem)
  · rw [rights.all_cons]
    exact (hnew.known r x hx).imp_left (mem_append_right _)

theorem source {e : σ}
    (hs : C.sources e = w.futures.size :: C.sources w.ext) (hc : C.cargo e = C.cargo w.ext) :
    Ordered C own { (w.addFuture none).2 with ext := e } := by
  have hnew := h.addFuture none
  have hcargo : (own ++ C.cargo e).Perm (own ++ C.cargo (w.addFuture none).2.ext) :=
    .of_eq (by rw [hc]; rfl)
  have hall := rights.all_ext C hcargo
  refine ⟨fun x hx => ?_, fun p hp => ?_, ?_, fun r hmem => ?_, fun f hmem => ?_,
    fun r x hx => ?_⟩
  · refine (hnew.cargo x ?_).of_last (fun _ _ => rfl) fun _ _ => id
    have hx' : x ∈ own ++ (w.cargo ++ C.cargo e) := hx
    rw [hc] at hx'
    exact hx'
  · obtain ⟨hout, hwaits⟩ := hnew.queued p hp
    exact ⟨hout, hwaits.of_last fun _ _ => rfl⟩
  · show (rights.all C own _ ++ C.sources e).Nodup
    rw [hs, ((hall.trans (.of_eq (rights.all_addFuture C none))).append_right _).nodup_iff,
      perm_middle.nodup_iff]
    refine nodup_cons.mpr ⟨fun hmem => ?_, h.distinct⟩
    rcases mem_append.mp hmem with hmem | hmem
    · exact Nat.lt_irrefl _ (h.pending _ hmem).1
    · exact Nat.lt_irrefl _ (h.sources _ hmem)
  · exact hnew.pending r (hall.mem_iff.mp hmem)
  · have hmem' : f ∈ C.sources e := hmem
    rw [hs] at hmem'
    rcases mem_cons.mp hmem' with rfl | hmem'
    · show w.futures.size < (w.futures.push _).size
      rw [Array.size_push]
      exact Nat.lt_succ_self _
    · exact hnew.sources f hmem'
  · exact (hnew.known r x hx).imp_left hall.mem_iff.mpr

end

/-- A future is settled by someone whose right that was, or that nobody needed. Those who waited on
it are on their way. -/
theorem settle (h : Ordered C own₀ w) {f : FutureId} {o : Outcome} {ks : List (Continuation κ)}
    (hs : w.settle? f o = some (ks, w')) (hown : ∀ x ∈ own, x ∈ own₀)
    (hsub : List.Sublist (rights.all C own w) (rights.all C own₀ w)) (hf : f ∉ rights.all C own w)
    (hrest : ∀ r ∈ rights.all C own₀ w, r = f ∨ r ∈ rights.all C own w)
    (hlast : ∀ g, lastOf w.history f ≠ some (.waits f g)) :
    Ordered C (.waiting f ks :: own) w' := by
  have hall : (rights.all C (.waiting f ks :: own) w').Perm (rights.all C own w) :=
    rights.all_settle? C hs
  have hqueue := queue_settle? hs
  have hlater := World.later_settle? hs
  have hself := World.outcome?_settle?_self hs
  obtain ⟨cell, hcell, hnone, hks, rfl⟩ := World.settle?_some hs
  have hother : ∀ {r}, r ≠ f → World.outcome?
      { w with futures := w.futures.modify f fun _ => { outcome := some o } } r = w.outcome? r := by
    intro r hr
    simp [World.outcome?, Array.getElem?_modify, Ne.symm hr]
  have hpend : w.outcome? f = none := by
    rw [World.outcome?, hcell]
    exact hnone
  refine ⟨fun x hx => ?_, fun p hp => ?_, ?_, fun r hmem => ?_, fun g hmem => ?_,
    fun r x hx => ?_⟩
  · rcases mem_cons.mp hx with rfl | hx
    · refine ⟨by rw [hself]; rfl, fun k hk => ?_⟩
      have hp : (f, k) ∈ queue w.futures :=
        hqueue.mem_iff.mpr (mem_append_left _ (mem_map_of_mem hk))
      exact (h.queued _ hp).2.of_last fun _ _ => rfl
    · refine Rightful.of_last (w := w) (h.cargo x ?_) (fun _ _ => rfl) fun _ _ => hlater.outcome
      rcases mem_append.mp hx with hx | hx
      · exact mem_append_left _ (hown x hx)
      · exact mem_append_right _ hx
  · have hp' : p ∈ queue w.futures := hqueue.mem_iff.mpr (mem_append_right _ hp)
    obtain ⟨hout, hwaits⟩ := h.queued p hp'
    have hne : p.1 ≠ f := by
      rintro he
      obtain ⟨c, hc, hk⟩ := mem_queue.mp (show (p.1, p.2) ∈ _ from hp)
      rw [he, Array.getElem?_modify, if_pos rfl, hcell] at hc
      cases hc
      cases hk
    exact ⟨(hother hne).trans hout, hwaits.of_last fun _ _ => rfl⟩
  · rw [(hall.append_right _).nodup_iff]
    exact h.distinct.sublist (hsub.append_right _)
  · have hr := hall.mem_iff.mp hmem
    obtain ⟨hlt, hout⟩ := h.pending r (hsub.subset hr)
    have hne : r ≠ f := fun he => hf (he ▸ hr)
    exact ⟨Nat.lt_of_lt_of_le hlt hlater.futures, (hother hne).trans hout⟩
  · exact Nat.lt_of_lt_of_le (h.sources g hmem) hlater.futures
  · by_cases hr : r = f
    · subst hr
      refine .inr ⟨by rw [hself]; rfl, fun g hg => hlast g (hg ▸ hx)⟩
    · rcases h.known r x hx with hmem | hout
      · rcases hrest r hmem with he | hmem
        · exact absurd he hr
        · exact .inl (hall.mem_iff.mpr hmem)
      · rw [hother hr]
        exact .inr hout

/-- Someone waits, and takes a right along. What has happened meanwhile concerns nobody else. -/
theorem await (h : Ordered C own₀ w) {f : FutureId} (hf : f < w.futures.size)
    (ho : w.outcome? f = none) (hown : ∀ x ∈ own, x ∈ own₀)
    (hall : (rights.all C own₀ w).Perm (rights.continuation k ++ rights.all C own w))
    (hfutures : w'.futures = (w.await f k).futures) (hhands : w'.hands = w.hands)
    (he : w'.ext = w.ext)
    (hlast : ∀ r, r ∉ rights.continuation k → lastOf w'.history r = lastOf w.history r)
    (hk : Waits w' f k) : Ordered C own w' := by
  have hout : ∀ g, w'.outcome? g = w.outcome? g := by
    intro g
    rw [World.outcome?, hfutures, World.outcome?, World.await, Array.getElem?_modify]
    split
    · cases w.futures[g]? <;> rfl
    · rfl
  have hsize : w'.futures.size = w.futures.size := by
    rw [hfutures, World.await, Array.size_modify]
  have hcargo : w'.cargo = w.cargo := by rw [World.cargo, World.cargo, hhands]
  have hall' : (rights.all C own w').Perm (rights.all C own₀ w) := by
    refine List.Perm.trans ?_ ((rights.all_await C hf).trans hall.symm)
    exact .of_eq (rights.all_of_eq C hfutures hhands he)
  -- nobody else has the right that `k` takes along
  have hothers : ∀ r ∈ rights.all C own w, r ∉ rights.continuation k := by
    have hnodup := (nodup_append.mp h.distinct).1
    rw [hall.nodup_iff] at hnodup
    exact fun r hr hr' => (nodup_append.mp hnodup).2.2 r hr' r hr rfl
  refine ⟨fun x hx => ?_, fun p hp => ?_, ?_, fun r hmem => ?_, fun g hmem => ?_,
    fun r x hx => ?_⟩
  · rw [hcargo, he] at hx
    have hclaims : ∀ r ∈ rights.cargo x, r ∈ rights.all C own w := fun r hr =>
      mem_append_left _ (mem_flatMap.mpr ⟨x, hx, hr⟩)
    have hold : Rightful w x := h.cargo x <| by
      rcases mem_append.mp hx with hx | hx
      · exact mem_append_left _ (hown x hx)
      · exact mem_append_right _ hx
    exact hold.of_last (fun r hr => hlast r (hothers r (hclaims r hr)))
      fun g o hg => (hout g).trans hg
  · rw [hfutures] at hp
    rcases mem_cons.mp ((queue_await hf k).mem_iff.mp hp) with rfl | hp
    · exact ⟨(hout f).trans ho, hk⟩
    · obtain ⟨hnone, hwaits⟩ := h.queued p hp
      refine ⟨(hout p.1).trans hnone, hwaits.of_last fun r hr => hlast r (hothers r ?_)⟩
      exact mem_append_right _ (mem_flatMap.mpr ⟨p, hp, hr⟩)
  · rw [he, (hall'.append_right _).nodup_iff]
    exact h.distinct
  · rw [hsize, hout]
    exact h.pending r (hall'.mem_iff.mp hmem)
  · rw [hsize]
    exact h.sources g (he ▸ hmem)
  · rw [hout, hall'.mem_iff]
    by_cases hr : r ∈ rights.continuation k
    · exact .inl (hall.mem_iff.mpr (mem_append_left _ hr))
    · exact h.known r x ((hlast r hr).symm.trans hx)

/-- Something happens to a task whose right is in hand, or that nobody has a right to any more. -/
theorem record (h : Ordered C own₀ w) {r : FutureId} (hf : w'.futures = w.futures)
    (he : w'.ext = w.ext) (hlast : ∀ r', r' ≠ r → lastOf w'.history r' = lastOf w.history r')
    (hc : ∀ x ∈ own ++ (w'.cargo ++ C.cargo w'.ext),
      Rightful w' x ∨ x ∈ own₀ ++ (w.cargo ++ C.cargo w.ext) ∧ r ∉ rights.cargo x)
    (hq : ∀ p ∈ queue w.futures, r ∉ rights.continuation p.2)
    (hr : (rights.all C own w').Perm (rights.all C own₀ w))
    (hknown : ∀ x, lastOf w'.history r = some x → r ∈ rights.all C own₀ w ∨
      (w.outcome? r).isSome = true ∧ ∀ f, x ≠ .waits r f) : Ordered C own w' := by
  have ho : ∀ f, w'.outcome? f = w.outcome? f := fun f => by
    rw [World.outcome?, hf]
    rfl
  refine ⟨fun x hx => ?_, fun p hp => ?_, ?_, fun r' hmem => ?_, fun f hmem => ?_,
    fun r' x hx => ?_⟩
  · rcases hc x hx with hx | ⟨hx, hne⟩
    · exact hx
    · exact (h.cargo x hx).of_last (fun r' hr' => hlast r' fun he => hne (he ▸ hr'))
        fun f o hfo => (ho f).trans hfo
  · rw [hf] at hp
    obtain ⟨hout, hwaits⟩ := h.queued p hp
    exact ⟨(ho p.1).trans hout,
      hwaits.of_last fun r' hr' => hlast r' fun he => hq p hp (he ▸ hr')⟩
  · rw [he, (hr.append_right _).nodup_iff]
    exact h.distinct
  · rw [hf, ho]
    exact h.pending r' (hr.mem_iff.mp hmem)
  · rw [hf]
    exact h.sources f (he ▸ hmem)
  · rw [ho, hr.mem_iff]
    by_cases he : r' = r
    · subst he
      exact hknown x hx
    · exact h.known r' x ((hlast r' he).symm.trans hx)

/-- Those who are to run next waited on a future that is settled now. -/
theorem draining (h : Ordered C own w) {f : FutureId} (hk : (f, k) ∈ w.hands.flatMap (·.draining)) :
    (w.outcome? f).isSome = true ∧ Waits w f k := by
  obtain ⟨x, hx, hmem⟩ := mem_flatMap.mp hk
  cases x with
  | waiting g ks =>
    obtain ⟨k', hk', he⟩ := mem_map.mp hmem
    cases he
    have hcargo : .waiting f ks ∈ w.cargo := mem_flatMap.mpr ⟨_, hx, mem_cons_self⟩
    have hright := h.cargo _ (mem_append_right _ (mem_append_left _ hcargo))
    exact ⟨hright.1, hright.2 k hk'⟩
  | _ => cases hmem

section

variable (h : Ordered C own w) (hown : ∀ x ∈ own, ∃ home, x = .storage home)
  (hhost : ∀ x ∈ C.cargo w.ext, (∃ home, x = .storage home) ∨ ∃ f, x = .right f .fresh)
  {r : FutureId} {last : Happening} (hlast : lastOf w.history r = some last)
include h hown hhost hlast

/-- The right of a task that has been started is in one of three places. -/
theorem count_rights (x : Happening) : (rights.all C own w).count r =
    Instant.runs ⟨x, w.futures, w.hands⟩ r + (Instant.draining ⟨x, w.futures, w.hands⟩ r).length +
      (Instant.queued ⟨x, w.futures, w.hands⟩ r).length := by
  have hclaims : (own.flatMap rights.cargo).count r = 0 := by
    refine count_eq_zero.mpr fun hmem => ?_
    obtain ⟨y, hy, hr⟩ := mem_flatMap.mp hmem
    obtain ⟨home, rfl⟩ := hown y hy
    cases hr
  have hext : ((C.cargo w.ext).flatMap rights.cargo).count r = 0 := by
    refine count_eq_zero.mpr fun hmem => ?_
    obtain ⟨y, hy, hr⟩ := mem_flatMap.mp hmem
    rcases hhost y hy with ⟨home, rfl⟩ | ⟨f, rfl⟩
    · cases hr
    · have hfresh := h.cargo _ (mem_append_right _ (mem_append_right _ hy))
      cases mem_singleton.mp hr
      cases hlast.symm.trans hfresh
  -- the future of a callback is no task's
  have hqueue : ∀ f key, (f, .callback key r) ∉ queue w.futures := fun f key hmem => by
    cases hlast.symm.trans (h.queued _ hmem).2
  have hhands : ∀ f key, (f, .callback key r) ∉ w.hands.flatMap (·.draining) := fun f key hmem => by
    cases hlast.symm.trans (h.draining hmem).2
  rw [Claim.all, flatMap_append, flatMap_append, count_append, count_append,
    count_append, hclaims, hext, World.cargo, count_hands, count_continuations hhands,
    count_continuations hqueue]
  simp only [Instant.runs, Instant.draining, Instant.queued]
  omega

/-- What happened last to a task says in which condition it is. -/
theorem accords (x : Happening) : Instant.Accords ⟨x, w.futures, w.hands⟩ r last := by
  have hcount := h.count_rights hown hhost hlast x
  by_cases hmem : r ∈ rights.all C own w
  · have hone : (rights.all C own w).count r = 1 :=
      count_eq_one_of_mem (nodup_append.mp h.distinct).1 hmem
    have hpending := (h.pending r hmem).2
    rw [hone] at hcount
    cases hd : Instant.draining ⟨x, w.futures, w.hands⟩ r with
    | cons f rest =>
      -- among those who are to run next
      rw [hd, length_cons] at hcount
      obtain rfl : rest = [] := length_eq_zero_iff.mp (by omega)
      have hf : f ∈ Instant.draining ⟨x, w.futures, w.hands⟩ r := hd ▸ mem_cons_self
      obtain ⟨m, hm⟩ := mem_registered.mp hf
      obtain ⟨hsettled, hwaits⟩ := h.draining hm
      cases hlast.symm.trans hwaits
      exact ⟨by omega, hpending, .inr ⟨length_eq_zero_iff.mp (by omega), hd, hsettled⟩⟩
    | nil =>
      rw [hd, length_nil] at hcount
      cases hq : Instant.queued ⟨x, w.futures, w.hands⟩ r with
      | cons f rest =>
        -- among those who wait
        rw [hq, length_cons] at hcount
        obtain rfl : rest = [] := length_eq_zero_iff.mp (by omega)
        have hf : f ∈ Instant.queued ⟨x, w.futures, w.hands⟩ r := hq ▸ mem_cons_self
        obtain ⟨m, hm⟩ := mem_registered.mp hf
        obtain ⟨hnone, hwaits⟩ := h.queued _ hm
        cases hlast.symm.trans hwaits
        exact ⟨by omega, hpending, .inl ⟨hq, hd, hnone⟩⟩
      | nil =>
        rw [hq, length_nil] at hcount
        have hruns : Instant.runs ⟨x, w.futures, w.hands⟩ r = 1 := by omega
        have hpos : 0 < w.hands.countP (·.isFuture r) := by
          rw [show w.hands.countP (·.isFuture r) = 1 from hruns]
          exact Nat.one_pos
        obtain ⟨y, hy, hyr⟩ := countP_pos_iff.mp hpos
        cases y with
        | future g =>
          obtain rfl : g = r := by simpa [Holding.isFuture] using hyr
          have hcargo : .right g .running ∈ w.cargo :=
            mem_flatMap.mpr ⟨_, hy, mem_cons_self⟩
          obtain ⟨o, rfl⟩ :=
            h.cargo _ (mem_append_right _ (mem_append_left _ hcargo)) last hlast
          exact .inl ⟨hruns, hpending, hq, hd⟩
        | _ => cases hyr
  · have hzero : (rights.all C own w).count r = 0 := count_eq_zero.mpr hmem
    rw [hzero] at hcount
    obtain ⟨hout, hne⟩ := (h.known r last hlast).resolve_left hmem
    have hfinished : Instant.Finds ⟨x, w.futures, w.hands⟩ r .finished :=
      ⟨by omega, hout, length_eq_zero_iff.mp (by omega), length_eq_zero_iff.mp (by omega)⟩
    cases last with
    | runs => exact .inr hfinished
    | waits r' f =>
      cases task?_of_last hlast
      exact absurd rfl (hne f)
    | ends => exact hfinished
    | host => trivial

end

theorem lastOf_record_self {r : FutureId} (hx : x.task? = some r) :
    lastOf (w.record x).history r = some x :=
  (lastOf_cons ..).trans (if_pos hx)

theorem lastOf_record_of_ne {r : FutureId} (hx : x.task? ≠ some r) :
    lastOf (w.record x).history r = lastOf w.history r :=
  (lastOf_cons ..).trans (if_neg hx)

theorem only {x : Cargo κ} {r : FutureId} (h : Ordered C (x :: own) w) (hr : r ∈ rights.cargo x) :
    r ∉ rights.all C own w := by
  have hnodup := (nodup_append.mp h.distinct).1
  rw [rights.all_cons] at hnodup
  exact fun hmem => (nodup_append.mp hnodup).2.2 r hr r hmem rfl

theorem not_mem_cargo {r : FutureId} (hr : r ∉ rights.all C own w) {x : Cargo κ}
    (hx : x ∈ own ++ (w.cargo ++ C.cargo w.ext)) : r ∉ rights.cargo x := fun hmem =>
  hr (mem_append_left _ (mem_flatMap.mpr ⟨x, hx, hmem⟩))

theorem not_mem_queue {r : FutureId} (hr : r ∉ rights.all C own w)
    {p : FutureId × Continuation κ} (hp : p ∈ queue w.futures) : r ∉ rights.continuation p.2 :=
  fun hmem => hr (mem_append_right _ (mem_flatMap.mpr ⟨p, hp, hmem⟩))

/-- What is written down at an instant fits the world at that instant. -/
theorem regular (h : Ordered C own (w.record x)) (hown : ∀ x ∈ own, ∃ home, x = .storage home)
    (hhost : ∀ x ∈ C.cargo w.ext, (∃ home, x = .storage home) ∨ ∃ f, x = .right f .fresh)
    (hpast : Regular w.history) (hfollows : Instant.Follows ⟨x, w.futures, w.hands⟩ w.history) :
    Regular (w.record x).history :=
  ⟨⟨hfollows, fun _ _ hl => h.accords hown hhost hl x⟩, hpast⟩

theorem run {home : StorageId} {r : FutureId} {stage : Stage} (o : Option Outcome)
    (h : Ordered C [.right r stage, .storage home] w) :
    Ordered C [.storage home] ((w.grasp [.future r]).record (.runs r o)) := by
  have hone : r ∉ rights.all C [.storage home] w := h.only mem_cons_self
  have hlast : lastOf ((w.grasp [.future r]).record (.runs r o)).history r = some (.runs r o) :=
    lastOf_record_self rfl
  refine h.record rfl rfl (fun r' hr' => ?_) (fun x hx => ?_) (fun p hp => not_mem_queue hone hp) ?_
    fun x hx => ?_
  · exact lastOf_record_of_ne fun he => hr' (by cases he; rfl)
  · have hx' : x ∈ .storage home :: .right r .running :: (w.cargo ++ C.cargo w.ext) := hx
    rcases mem_cons.mp hx' with rfl | hx'
    · exact .inl trivial
    rcases mem_cons.mp hx' with rfl | hx'
    · exact .inl fun y hy => ⟨o, (Option.some.inj (hlast.symm.trans hy)).symm⟩
    · exact .inr ⟨mem_append_right _ hx', not_mem_cargo hone (mem_append_right _ hx')⟩
  · exact (rights.all_grasp C [.future r]).trans (.of_eq rfl)
  · refine .inl ?_
    rw [rights.all_cons]
    exact mem_cons_self

theorem suspend {m : Machine} {r f : FutureId}
    (h : Ordered C [.right r .running, .storage m.home] w) (hf : f < w.futures.size)
    (ho : w.outcome? f = none) : Ordered C [] ((w.suspend f m r).record (.waits r f)) := by
  refine h.await (k := .resume m r) hf ho nofun ?_ rfl rfl rfl (fun r' hr' => ?_) ?_
  · rw [rights.all_cons, rights.all_cons]
    exact .of_eq rfl
  · exact lastOf_record_of_ne fun he => hr' (by cases he; exact mem_cons_self)
  · exact lastOf_record_self rfl

theorem ended {r : FutureId} {o : Outcome} (h : Ordered C own w) (ho : w.outcome? r = some o) :
    Ordered C own (w.record (.ends r true)) := by
  have hnone : r ∉ rights.all C own w := fun hmem => by
    rw [(h.pending r hmem).2] at ho
    cases ho
  refine h.record rfl rfl (fun r' hr' => ?_) (fun x hx => .inr ⟨hx, not_mem_cargo hnone hx⟩)
    (fun p hp => not_mem_queue hnone hp) (.refl _) fun x hx => .inr ⟨by rw [ho]; rfl, ?_⟩
  · exact lastOf_record_of_ne fun he => hr' (by cases he; rfl)
  · cases (lastOf_record_self rfl).symm.trans hx
    exact nofun

theorem host (h : Ordered C own w) : Ordered C own (w.record .host) := by
  have hl : ∀ r, lastOf (w.record .host).history r = lastOf w.history r := fun r =>
    lastOf_record_of_ne nofun
  refine ⟨fun x hx => ?_, fun p hp => ?_, h.distinct, h.pending, h.sources, fun r x hx => ?_⟩
  · exact (h.cargo x hx).of_last (fun r _ => hl r) fun _ _ => id
  · exact ⟨(h.queued p hp).1, (h.queued p hp).2.of_last fun r _ => hl r⟩
  · exact h.known r x ((hl r).symm.trans hx)

end Ordered

/-- What happens when a task runs follows from what happened to it before. -/
theorem Ordered.follows {home : StorageId} {r : FutureId} {stage : Stage} {o : Option Outcome}
    (h : Ordered C [.right r stage, .storage home] w) (hs : stage.Allows w r o)
    (hhost : ∀ x ∈ C.cargo w.ext, (∃ home, x = .storage home) ∨ ∃ f, x = .right f .fresh) :
    Instant.Follows ⟨.runs r o, w.futures, .future r :: w.hands⟩ w.history := by
  have hright : Rightful w (.right r stage) := h.cargo _ mem_cons_self
  have hpending : w.outcome? r = none := by
    refine (h.pending r ?_).2
    rw [rights.all_cons]
    exact mem_cons_self
  have hfinds : Instant.Finds ⟨.runs r o, w.futures, .future r :: w.hands⟩ r .running := by
    have hstorage : ∀ x ∈ [(.storage home : Cargo κ)], ∃ home, x = .storage home :=
      fun x hx => ⟨home, mem_singleton.mp hx⟩
    rcases (h.run o).accords hstorage hhost (lastOf_record_self rfl) (.runs r o) with hr | hr
    · exact hr
    · have hsome : (w.outcome? r).isSome = true := hr.2.1
      rw [hpending] at hsome
      cases hsome
  cases stage with
  | fresh =>
    cases hs
    exact ⟨hright, hfinds⟩
  | running =>
    obtain ⟨v, rfl⟩ := Option.isSome_iff_exists.mp hs.1
    obtain ⟨-, i, hi, o', ho'⟩ := hs
    obtain ⟨x, hx⟩ := exists_last hi ho'
    obtain ⟨o', rfl⟩ := hright x hx
    exact ⟨.inl ⟨o', hx⟩, hfinds⟩
  | due v =>
    cases hs
    exact ⟨.inr hright, hfinds⟩

/-- What the host has in its part of the world has not been started. -/
def Idle (C : Custody σ κ) : Prop :=
  ∀ e, ∀ x ∈ C.cargo e, (∃ home, x = .storage home) ∨ ∃ f, x = .right f .fresh

/-- Books about rights, and about what has happened. -/
def accounting (C : Custody σ κ) (hC : Idle C) : Accounting ⟨false, false⟩ C where
  Balanced := fun own w => Ordered C own w ∧ Regular w.history
  Clean := fun w => Regular w.history
  clean := fun h => h.2
  clean_of_eq := fun h _ hh _ _ => hh ▸ h
  inert := fun h hw => ⟨h.1.inert hw, hw.history ▸ h.2⟩
  grasp := and_congr_left' Ordered.grasp_iff
  ext := fun {own own' w e} h hp hs => by
    refine ⟨h.1.perm rfl rfl hs ?_, h.2⟩
    exact (List.perm_append_comm_assoc ..).trans
      ((hp.append_left _).trans (List.perm_append_comm_assoc ..))
  read := fun h _ => ⟨h.1.perm rfl rfl rfl (.refl _), h.2⟩
  wrote := fun h => ⟨h.1.perm rfl rfl rfl (.refl _), h.2⟩
  missed := fun h _ => ⟨h.1.perm rfl rfl rfl (.refl _), h.2⟩
  defect := fun h _ => ⟨h.1.perm rfl rfl rfl (.refl _), h.2⟩
  addStorage := fun h => ⟨h.1.storages rfl rfl rfl rfl
    (fun x hx => (List.mem_cons.mp hx).elim (fun he => .inr ⟨_, he⟩) .inl) rfl, h.2⟩
  call := fun {own w home} host held h => by
    have hsame : (((((w.grasp held).visit host home).letGo w.hands).callOver home).retain home) =
        { w with
          storages := (((((w.grasp held).visit host home).letGo w.hands).callOver home).retain
            home).storages
          strays := (((((w.grasp held).visit host home).letGo w.hands).callOver home).retain
            home).strays
          forsaken := ((w.grasp held).visit host home).forsaken } := by
      unfold World.callOver World.visit
      split <;> split <;> rfl
    rw [hsame]
    exact ⟨h.1.storages rfl rfl rfl rfl
      (fun x hx => (List.mem_cons.mp hx).elim (fun he => .inr ⟨_, he⟩) .inl) rfl, h.2⟩
  release := fun h => ⟨h.1.storages rfl rfl rfl rfl
    (fun x hx => .inl (List.mem_cons_of_mem _ hx)) rfl, h.2⟩
  alive := fun _ hs => nomatch hs
  ready := fun h => ⟨h.1.addFuture _, h.2⟩
  fresh := fun h => ⟨h.1.fresh, h.2⟩
  source := fun h hs hc => ⟨h.1.source hs hc, h.2⟩
  start := fun {own w f} h => by
    have hfresh : lastOf w.history f = none := h.1.cargo _ List.mem_cons_self
    refine ⟨h.1.same rfl rfl rfl (fun x hx => ?_) (.refl _), h.2⟩
    rcases List.mem_cons.mp hx with rfl | hx
    · refine .inr fun y hy => ?_
      cases hfresh.symm.trans hy
    · exact .inl (List.mem_cons_of_mem _ hx)
  settle := fun {own w w' f o ks} h hs => by
    have hright : Rightful w (.right f .running) := h.1.cargo _ List.mem_cons_self
    have hlast : ∀ g, lastOf w.history f ≠ some (.waits f g) := fun g hg => by
      obtain ⟨o', ho'⟩ := hright _ hg
      cases ho'
    refine ⟨h.1.settle hs (fun _ => List.mem_cons_of_mem _) ?_ (h.1.only List.mem_cons_self)
      (fun r hr => ?_) hlast, ?_⟩
    · rw [rights.all_cons]
      exact List.sublist_append_right ..
    · rw [rights.all_cons] at hr
      exact (List.mem_append.mp hr).imp_left List.mem_singleton.mp
    · obtain ⟨-, -, -, -, rfl⟩ := World.settle?_some hs
      exact h.2
  settleSource := fun {own w w' f o ks} h hf hs => by
    have hmine : f ∉ rights.all C own w := fun hmem =>
      (List.nodup_append.mp h.1.distinct).2.2 f hmem f hf rfl
    have hlast : ∀ g, lastOf w.history f ≠ some (.waits f g) := fun g hg => by
      rcases h.1.known f _ hg with hmem | ⟨-, hne⟩
      · exact hmine hmem
      · exact hne g rfl
    refine ⟨h.1.settle hs (fun _ => id) (.refl _) hmine (fun r => .inr) hlast, ?_⟩
    obtain ⟨-, -, -, -, rfl⟩ := World.settle?_some hs
    exact h.2
  refused := fun {w f o} h hs => by
    have hmem : f ∈ rights.all C [.right f .running] w := by
      rw [rights.all_cons]
      exact List.mem_cons_self
    obtain ⟨hlt, hout⟩ := h.1.pending f hmem
    have hcell := Array.getElem?_eq_getElem hlt
    rw [World.outcome?, hcell] at hout
    rw [World.settle?_pending hcell hout] at hs
    cases hs
  attach := fun {own w f key next} h hf ho => by
    have hfresh : lastOf w.history next = none := h.1.cargo _ List.mem_cons_self
    refine ⟨h.1.await (k := .callback key next) hf ho (fun _ => List.mem_cons_of_mem _) ?_ rfl rfl
      rfl (fun _ _ => rfl) hfresh, h.2⟩
    rw [rights.all_cons]
    exact .refl _
  nil := fun {own w f} h => by
    refine ⟨h.1.same rfl rfl rfl (fun x hx => .inl (List.mem_cons_of_mem _ hx)) ?_, h.2⟩
    rw [rights.all_cons]
    exact .refl _
  resume := fun {own w f m r o ks} h ho => by
    obtain ⟨hsettled, hwaits⟩ := h.1.cargo _ List.mem_cons_self
    refine ⟨h.1.same rfl rfl rfl (fun x hx => ?_) ?_, h.2⟩
    · rcases List.mem_cons.mp hx with rfl | hx
      · exact .inr trivial
      rcases List.mem_cons.mp hx with rfl | hx
      · exact .inr ⟨f, hwaits _ List.mem_cons_self, ho⟩
      rcases List.mem_cons.mp hx with rfl | hx
      · exact .inr ⟨hsettled, fun k hk => hwaits k (List.mem_cons_of_mem _ hk)⟩
      · exact .inl (List.mem_cons_of_mem _ hx)
    · simp only [rights.all_cons]
      exact .refl _
  callback := fun {own w f key next ks} h => by
    obtain ⟨hsettled, hwaits⟩ := h.1.cargo _ List.mem_cons_self
    refine ⟨h.1.same rfl rfl rfl (fun x hx => ?_) ?_, h.2⟩
    · rcases List.mem_cons.mp hx with rfl | hx
      · exact .inr (hwaits _ List.mem_cons_self)
      rcases List.mem_cons.mp hx with rfl | hx
      · exact .inr ⟨hsettled, fun k hk => hwaits k (List.mem_cons_of_mem _ hk)⟩
      · exact .inl (List.mem_cons_of_mem _ hx)
    · simp only [rights.all_cons]
      exact .refl _
  run := fun {w home r stage o} h hs => by
    have hord : Ordered C [.right r stage, .storage home] w :=
      h.1.perm rfl rfl rfl ((List.Perm.swap ..).append_right _)
    have hstorage : ∀ x ∈ [(.storage home : Cargo κ)], ∃ home, x = .storage home :=
      fun x hx => ⟨home, List.mem_singleton.mp hx⟩
    exact ⟨hord.run o, (hord.run o).regular hstorage (hC _) h.2 (hord.follows hs (hC _))⟩
  suspend := fun {w f m r} h hr hf ho => by
    have hord : Ordered C [.right r .running, .storage m.home] w :=
      h.1.perm rfl rfl rfl ((List.Perm.swap ..).append_right _)
    have hright : Rightful w (.right r .running) := hord.cargo _ List.mem_cons_self
    obtain ⟨i, hi, o', ho'⟩ := hr
    obtain ⟨x, hx⟩ := exists_last hi ho'
    obtain ⟨o, rfl⟩ := hright x hx
    exact ⟨hord.suspend hf ho, (hord.suspend hf ho).regular nofun (hC _) h.2 ⟨o, hx⟩⟩
  ended := fun h ho => ⟨h.1.ended ho, (h.1.ended ho).regular nofun (hC _) h.2 rfl⟩
  host := fun h => ⟨h.1.host, h.1.host.regular nofun (hC _) h.2 trivial⟩

theorem idle_desk (S : Standard) : Idle (Desk.custody σ κ S) := by
  intro d x hx
  rcases mem_append.mp hx with hx | hx
  · obtain ⟨t, -, hx⟩ := mem_flatMap.mp hx
    rcases mem_cons.mp hx with rfl | hx
    · exact .inl ⟨_, rfl⟩
    · exact .inr ⟨_, mem_singleton.mp hx⟩
  · obtain ⟨e, -, hx⟩ := mem_flatMap.mp hx
    obtain ⟨m, -, rfl⟩ := mem_map.mp hx
    exact .inl ⟨_, rfl⟩

end

end Lifecycle

/-- The life of tasks, whatever programs do. At every instant each task that has been started runs,
waits or has ended, and it does only one of these. It is not run while it is running. It waits with
one continuation, which runs it on once, with the outcome of the future on which it waited. Nobody
else settles its future. At the end, those who still wait do so on futures that are pending. -/
theorem task_lifecycle {σ : Type} {P : Chain → Prop} (library : Library σ P) (memory : σ)
    (p : Program σ P) (n : Nat) :
    (∀ after i before, (library.leaves memory p n).history = after ++ i :: before →
      i.Follows before ∧ i.Knows (i :: before)) ∧
    ∀ answer w, library.perform memory p n = .ok answer w →
      Instant.Knows ⟨.host, w.futures, []⟩ w.history := by
  let A := Lifecycle.accounting _ (@Lifecycle.idle_desk σ (Callback σ P) ⟨false, false⟩)
  have hmeets : ∀ c, P c → c.Meets ⟨false, false⟩ := fun c _ => ⟨nofun, nofun⟩
  have hstart : A.Balanced [] { ext := { memory } } :=
    ⟨⟨nofun, nofun, nodup_nil, nofun, nofun, nofun⟩, trivial⟩
  refine ⟨fun after i before hsplit => ?_, fun answer w hw => ?_⟩
  · have hregular : Regular (library.leaves memory p n).history :=
      library.leaves_clean hmeets memory p n hstart
    exact (hsplit ▸ hregular).at
  · have hdoes := library.perform_proper hmeets memory p n hstart
    rw [hw] at hdoes
    have hbalanced : A.Balanced [] w := hdoes.1.proper.balanced
    have hhands : w.hands = [] := hdoes.1.hands
    rw [← hhands]
    exact Instant.knows fun r h hl =>
      hbalanced.1.accords nofun (Lifecycle.idle_desk _ w.ext) hl .host

/-- A task is started and waits on a source, which is settled. -/
def Program.relayed {P : Chain → Prop} (c : { c : Chain // P c }) : Program Unit P :=
  .source fun source => .task c [.future source] none fun
    | .error _ => .done (.ok .unit)
    | .ok result => .start result fun _ => .settle source (.ok (.int 5)) fun _ => .done (.ok .unit)

/-- The settlement of the source runs the task on, once, and then it has ended. -/
theorem relay_lifecycle :
    ∃ c : { c : Chain // ∃ m limit, Method.split m limit = .ok (some c) },
      ((silentLibrary _).leaves () (.relayed c) 20).history.map (·.happening) =
        [.ends 1 true, .runs 1 (some (.ok (.int 5))), .host, .waits 1 0, .runs 1 none, .host, .host,
          .host] ∧
      ∀ after i before,
        ((silentLibrary _).leaves () (.relayed c) 20).history = after ++ i :: before →
          i.Follows before ∧ i.Knows (i :: before) := by
  let c : { c : Chain // ∃ m limit, Method.split m limit = .ok (some c) } :=
    ⟨Interleaving.relayChain, Interleaving.relay, 10, by decide +kernel⟩
  have hs : ((silentLibrary _).leaves () (.relayed c) 20).history.map (·.happening) =
      [.ends 1 true, .runs 1 (some (.ok (.int 5))), .host, .waits 1 0, .runs 1 none, .host, .host,
        .host] := by decide +kernel
  exact ⟨c, hs, (task_lifecycle _ _ _ _).1⟩

end Resumable

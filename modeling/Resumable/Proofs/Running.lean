import Resumable.Enumerator
import Resumable.Proofs.Machines
import Resumable.Task

namespace Resumable

variable {σ κ : Type} {S : Standard} {C : Custody σ κ} {A : Accounting S C} {host : Host σ κ}
  {n : Nat} {own : List (Cargo κ)} {w w' : World σ κ}
variable {e : Enumerator} {args : List Value} {chain : Chain} {t : Task} {α : Type}

namespace World

/-- Nothing is said about the value. -/
abbrev Anything {α : Type} (_ : World σ κ) (_ : α) : Prop :=
  True

theorem Does.weaken {G G' : World σ κ → α → Prop} {r : EStateM.Result Timeout (World σ κ) α}
    (h : Does A own G w r) (hG : ∀ w' v, w.Later w' → G w' v → G' w' v) : Does A own G' w r := by
  cases r with
  | ok v w' => exact ⟨h.1, hG w' v h.1.later h.2⟩
  | error e w' => exact h

/-- Whether a future can be settled is seen from the futures. -/
theorem settle?_eq_none {f : FutureId} {o : Outcome} (h : w.settle? f o = none)
    (hf : w'.futures = w.futures) : w'.settle? f o = none := by
  unfold settle? at h ⊢
  rw [hf]
  split at h
  · cases h
  · rfl

end World

namespace Task

open World (Does Anything Keeps)

/-- What it comes to when someone settles a future: it is settled, or it had been before. -/
def Results (f : FutureId) (o : Outcome) (w w' : World σ κ) : Bool → Prop
  | true => w'.outcome? f = some o
  | false => w.settle? f o = none ∧ w' = w

variable (A host n) in
/-- Whoever brings what is needed may settle, deliver, drive and finish. -/
structure Tends : Prop where
  settle : ∀ {f o w}, w.Proper A [.right f .running] → Outcome.Proper S w o →
    Does A [] (Results f o w) w (settle host n f o w)
  deliver : ∀ {f o ks w}, w.Proper A [.waiting f ks] → w.outcome? f = some o →
    (∀ k ∈ ks, Continuation.Proper S w k) → Does A [] Anything w (deliver host n f o ks w)
  drive : ∀ {m r stage w}, w.Proper A [.storage m.home, .right r stage] →
    stage.Allows w r m.resumption → m.Ready S w → (S.strict = true → m.chain.kind = .async) →
    Does A [] Anything w (drive host n m r w)
  finish : ∀ {m rest r o w}, w.Proper A [.storage m.home, .right r .running] →
    Outcome.Proper S w o → Does A [] Anything w (finish host n m rest r o w)

namespace Tends

variable (h : Tends A host n)
include h

/-- A pending future is settled, with everything that follows from that. -/
theorem settle_waiting {f : FutureId} {o : Outcome} {ks : List (Continuation κ)}
    (hw : w.Stocked S C) (ho : Outcome.Proper S w o) (hs : w.settle? f o = some (ks, w'))
    (hb : A.Balanced [.waiting f ks] w') :
    Does A [] (Results f o w) w (Task.settle host (n + 1) f o w) := by
  obtain ⟨hstock, hk⟩ := hw.settle? ho hs
  have hf := World.outcome?_settle?_self hs
  have hh : w'.hands = w.hands := by
    obtain ⟨-, -, -, -, rfl⟩ := World.settle?_some hs
    rfl
  have hd := h.deliver ⟨hstock, hb⟩ hf hk
  rw [Task.settle_pending hs]
  simp only [Bind.bind, EStateM.bind]
  cases hr : Task.deliver host n f o ks w' with
  | error e w'' =>
    rw [hr] at hd
    exact hd
  | ok v w'' =>
    rw [hr] at hd
    exact ⟨⟨hd.1.proper, (World.later_settle? hs).trans hd.1.later, hd.1.hands.trans hh⟩,
      hd.1.later.outcome hf⟩

theorem next_settle {f : FutureId} {o : Outcome} (hw : w.Proper A [.right f .running])
    (ho : Outcome.Proper S w o) :
    Does A [] (Results f o w) w (Task.settle host (n + 1) f o w) := by
  cases hs : w.settle? f o with
  | none =>
    rw [settle_refused hs]
    exact ⟨⟨⟨hw.stocked, (A.refused hw.balanced hs).1⟩, .refl w, rfl⟩, hs, rfl⟩
  | some p => exact h.settle_waiting hw.stocked ho hs (A.settle hw.balanced hs)

theorem answer [host.Safe A] (a : α) (key : κ) {o : Outcome} {next : FutureId}
    (held : List (Holding κ)) (hheld : held.flatMap (·.cargo) = [.right next .running])
    (hw : w.Proper A [.right next .fresh]) (ho : Outcome.Proper S w o) :
    Does A [] (fun _ v => v = a) w
      ((World.holding held (host.callback key o) >>= fun answer =>
        Task.settle host n next answer >>= fun _ => pure a) w) := by
  have hstart : w.Proper A (held.flatMap (·.cargo) ++ []) := by
    rw [hheld]
    exact ⟨hw.stocked, A.start hw.balanced⟩
  have hasked : Does A [] (Outcome.Proper S) (w.grasp held) (host.callback key o (w.grasp held)) :=
    Host.Safe.callback (World.Proper.grasp hstart) (ho.later (World.later_grasp w held))
  have hcall := Does.holding (G := Outcome.Proper S) (fun _ _ _ => Outcome.Proper.later) hasked
  rw [hheld] at hcall
  refine hcall.bind fun answer w₁ hk hanswer => ?_
  exact (h.settle hk.proper hanswer).bind fun _ w₂ hk₂ _ => ⟨.refl hk₂.proper, rfl⟩

theorem next_deliver [host.Safe A] {f : FutureId} {o : Outcome} {ks : List (Continuation κ)}
    (hw : w.Proper A [.waiting f ks]) (ho : w.outcome? f = some o)
    (hks : ∀ k ∈ ks, Continuation.Proper S w k) :
    Does A [] Anything w (Task.deliver host (n + 1) f o ks w) := by
  have hout := hw.stocked.outcome ho
  -- after one continuation, the others are next
  have hrest : ∀ {rest : List (Continuation κ)} {w₁}, (∀ k ∈ rest, Continuation.Proper S w k) →
      Keeps A [.waiting f rest] w w₁ → Does A [] Anything w₁ (Task.deliver host n f o rest w₁) :=
    fun hrest hk => h.deliver hk.proper (hk.later.outcome ho)
      fun k hk' => (hrest k hk').later hk.later
  cases ks with
  | nil =>
    rw [Task.deliver]
    exact ⟨⟨⟨hw.stocked, A.nil hw.balanced⟩, .refl w, rfl⟩, trivial⟩
  | cons k rest =>
    rw [List.forall_mem_cons] at hks
    let held : List (Holding κ) := [.outcome o, .waiting f rest]
    have hl := World.later_grasp w held
    cases k with
    | resume m r =>
      rw [Task.deliver]
      have hbal : A.Balanced [.waiting f rest, .storage m.home, .right r (.due o)] w :=
        A.perm (A.resume hw.balanced ho) ((List.Perm.swap ..).trans (.cons _ (.swap ..)))
      have hgrasp : (w.grasp held).Proper A [.storage m.home, .right r (.due o)] :=
        World.Proper.grasp ⟨hw.stocked, hbal⟩
      have hm := (hks.1.1.later hl).resumed (hout.later hl)
      have hd := Does.holding (G := Anything) (fun _ _ _ _ _ => trivial)
        (h.drive (m := { m with resumption := some o }) hgrasp rfl hm hks.1.2)
      exact hd.bind fun _ w₁ hk _ => hrest hks.2 hk
    | callback key next =>
      rw [Task.deliver]
      have hbal : A.Balanced [.waiting f rest, .right next .fresh] w :=
        A.perm (A.callback hw.balanced) (List.Perm.swap ..)
      have hgrasp : (w.grasp held).Proper A [.right next .fresh] :=
        World.Proper.grasp ⟨hw.stocked, hbal⟩
      have hd := Does.holding (G := fun _ v => v = ()) (fun _ _ _ _ _ => rfl)
        (h.answer () key [.future next] rfl hgrasp (hout.later hl))
      exact hd.bind fun _ w₁ hk _ => hrest hks.2 hk

theorem proceed {m : Machine} {r : FutureId} {halt : Halt}
    (hw : w.Proper A [.storage m.home, .right r .running]) (hran : w.HasRun r)
    (hhalt : halt.Proper S w m) (hkind : S.strict = true → m.chain.kind = .async) :
    Does A [] Anything w (Task.proceed host n r halt w) := by
  cases halt with
  | awaiting f m' =>
    obtain ⟨⟨hhome, hchain⟩, hm', hf, -⟩ := hhalt
    rw [← hhome] at hw
    rw [← hchain] at hkind
    rw [Task.proceed]
    cases ho : w.outcome? f with
    | some o =>
      have hout := hw.stocked.outcome ho
      exact h.drive (m := { m' with resumption := some o }) hw ⟨rfl, hran⟩ (hm'.resumed hout) hkind
    | none =>
      have hl := (World.later_suspend w f m' r).trans (World.later_record _ (.waits r f))
      exact ⟨⟨⟨(hw.stocked.suspend f r hm' hkind).record _, A.suspend hw.balanced hran hf ho⟩, hl,
        rfl⟩, trivial⟩
  | completed v m' | fault v m' =>
    obtain ⟨⟨hhome, -⟩, hv⟩ := hhalt
    rw [← hhome] at hw
    exact h.finish hw hv
  | yielded v m' =>
    -- only iterators yield
    obtain ⟨⟨hhome, -⟩, -, -, hiterator⟩ := hhalt
    rw [← hhome] at hw
    have hstrict : S.strict = true → w.strays ≠ 0 :=
      fun hs => by cases (hkind hs).symm.trans (hiterator hs)
    have hk := hw.defect hstrict
    exact .after hk (h.finish hk.proper (by rintro _ ⟨⟩))
  | timeout => exact hhalt.elim

theorem next_drive [host.Safe A] {m : Machine} {r : FutureId} {stage : Stage}
    (hw : w.Proper A [.storage m.home, .right r stage]) (hs : stage.Allows w r m.resumption)
    (hm : m.Ready S w) (hkind : S.strict = true → m.chain.kind = .async) :
    Does A [] Anything w (Task.drive host (n + 1) m r w) := by
  let w₁ := (w.grasp [.future r]).record (.runs r m.resumption)
  have hl : w.Later w₁ := (World.later_grasp w _).trans (World.later_record _ _)
  have hw₁ : w₁.Proper A [.storage m.home] :=
    ⟨(hw.stocked.grasp _).record _, A.run hw.balanced hs⟩
  have hrun : Machine.Runs A m w₁ (m.run host n w₁) := Machine.run_proper (hm.later hl) hw₁
  rcases hr : m.run host n w₁ with ⟨halt, w₂⟩
  rw [hr] at hrun
  rw [drive_succ hr]
  rcases hrun.stopped with ⟨rfl, hc⟩ | ⟨hk, hhalt⟩
  · exact A.clean_of_eq hc rfl rfl rfl rfl
  have hback : (w₂.letGo w.hands).Proper A [.storage m.home, .right r .running] :=
    (hk.proper.letGo hk.hands).perm (List.Perm.swap ..)
  have hlast := hk.later.trans (World.later_letGo w₂ w.hands)
  have hran : w₁.HasRun r := ⟨_, List.mem_cons_self, _, rfl⟩
  exact .after ⟨hback, hl.trans hlast, rfl⟩
    (h.proceed hback (hran.later hlast) (hhalt.later (World.later_letGo _ _)) hkind)

theorem next_finish {m : Machine} {rest : List Value} {r : FutureId} {o : Outcome}
    (hw : w.Proper A [.storage m.home, .right r .running]) (ho : Outcome.Proper S w o) :
    Does A [] Anything w (Task.finish host (n + 1) m rest r o w) := by
  let held : List (Holding κ) := [.machine m, .values rest]
  have hgrasp : (w.grasp held).Proper A [.right r .running] := World.Proper.grasp hw
  have hd := h.settle hgrasp (ho.later (World.later_grasp w held))
  rw [Task.finish]
  simp only [Bind.bind, EStateM.bind, World.holding]
  cases hs : Task.settle host n r o (w.grasp held) with
  | error e w₁ =>
    rw [hs] at hd
    exact A.clean_of_eq hd rfl rfl rfl rfl
  | ok fresh w₁ =>
    rw [hs] at hd
    obtain ⟨hk, hfresh⟩ := hd
    have hl := hk.later.holding.trans (World.later_release (w₁.letGo w.hands) m.home)
    have hlast := hl.trans (World.later_record _ (.ends r fresh))
    cases fresh with
    | true =>
      have hout : (w₁.letGo w.hands).outcome? r = some o := hfresh
      have hfree := (hk.proper.letGo hk.hands).release
      exact ⟨⟨⟨hfree.proper.stocked.record _, A.ended hfree.proper.balanced hout⟩, hlast, rfl⟩,
        trivial⟩
    | false =>
      obtain ⟨hnone, rfl⟩ := hfresh
      have hfree := hw.release
      exact ⟨⟨⟨hfree.proper.stocked.record _,
        (A.refused hfree.proper.balanced (World.settle?_eq_none hnone rfl)).2⟩, hlast, rfl⟩,
        trivial⟩

end Tends

theorem tends [host.Safe A] (n : Nat) : Tends A host n := by
  induction n with
  | zero =>
    refine ⟨fun hw _ => ?_, fun hw _ _ => ?_, fun hw _ _ _ => ?_, fun hw _ => ?_⟩
    all_goals exact A.clean hw.balanced
  | succ n ih => exact ⟨ih.next_settle, ih.next_deliver, ih.next_drive, ih.next_finish⟩

theorem settle_source [host.Safe A] {f : FutureId} {o : Outcome} (hw : w.Proper A [])
    (hf : f ∈ C.sources w.ext) (ho : Outcome.Proper S w o) :
    Does A [] Anything w (settle host n f o w) := by
  cases n with
  | zero => exact A.clean hw.balanced
  | succ n =>
    cases hs : w.settle? f o with
    | none =>
      rw [settle_refused hs]
      exact ⟨.refl hw, trivial⟩
    | some p =>
      exact ((tends n).settle_waiting hw.stocked ho hs (A.settleSource hw.balanced hf hs)).weaken
        fun _ _ _ _ => trivial

/-- What a callback waits on may be pending or settled. -/
theorem continueWith_proper [host.Safe A] {f : FutureId} {key : κ} (hw : w.Proper A [])
    (hf : f < w.futures.size) :
    Does A [] (fun w' next => next < w'.futures.size) w (continueWith host n f key w) := by
  let w₁ := (w.addFuture none).2
  have hl : w.Later w₁ := World.later_addFuture w none
  have hw₁ : w₁.Proper A [.right w.futures.size .fresh] :=
    ⟨hw.stocked.addFuture nofun, A.fresh hw.balanced⟩
  have hmade : w.futures.size < w₁.futures.size := by simp [w₁, World.addFuture]
  cases ho : w₁.outcome? f with
  | none =>
    rw [continueWith_pending ho]
    have hbal : A.Balanced [] (w₁.await f (.callback key w.futures.size)) :=
      A.attach hw₁.balanced (Nat.lt_of_lt_of_le hf hl.futures) ho
    have hawait := World.later_await w₁ f (.callback key w.futures.size)
    exact ⟨⟨⟨hw₁.stocked.await f trivial, hbal⟩, hl.trans hawait, rfl⟩,
      Nat.lt_of_lt_of_le hmade hawait.futures⟩
  | some o =>
    rw [continueWith_settled ho]
    refine .after ⟨hw₁, hl, rfl⟩ (((tends n).answer w.futures.size key
      [.future w.futures.size, .outcome o] rfl hw₁ (hw₁.stocked.outcome ho)).weaken ?_)
    rintro w₂ _ hl₂ rfl
    exact Nat.lt_of_lt_of_le hmade hl₂.futures

/-- A new task has its storage, and may settle its future. -/
theorem create_proper (hc : chain.Meets S) (hw : w.Proper A []) (hargs : ∀ v ∈ args, v.Proper S w)
    (h : create chain args w = .ok (t, w')) :
    Keeps A [.storage t.machine.home, .right t.result .fresh] w w' ∧ t.machine.Ready S w' ∧
      t.machine.chain.kind = .async ∧ t.machine.resumption = none ∧ t.result < w'.futures.size := by
  unfold create at h
  cases hm : Machine.create chain .async args w with
  | error f =>
    rw [hm] at h
    cases h
  | ok p =>
    obtain ⟨m, w₁⟩ := p
    rw [hm] at h
    cases h
    obtain ⟨hk, hready, hkind⟩ := Machine.create_proper hc hw hargs hm
    have hl := World.later_addFuture w₁ none
    obtain ⟨-, -, rfl, -⟩ := Machine.create_ok hm
    exact ⟨⟨⟨hk.proper.stocked.addFuture nofun,
      A.perm (A.fresh hk.proper.balanced) (List.Perm.swap ..)⟩, hk.later.trans hl, hk.hands⟩,
      hready.later hl, hkind, rfl, by simp⟩

end Task

namespace Enumerator

/-- The storage of an enumerator, until it is exhausted. -/
def cargo (e : Enumerator) : List (Cargo κ) :=
  e.machine.toList.map (.storage ·.home)

/-- The enumerator may be advanced. -/
structure Proper (S : Standard) (w : World σ κ) (e : Enumerator) : Prop where
  ready : ∀ m ∈ e.machine, m.Ready S w ∧ m.chain.kind = .iterator
  current : ∀ v ∈ e.current, v.Proper S w

theorem Proper.later (he : e.Proper S w) (h : w.Later w') : e.Proper S w' :=
  ⟨fun m hm => ⟨(he.ready m hm).1.later h, (he.ready m hm).2⟩,
    fun v hv => (he.current v hv).later h⟩

end Enumerator

def Advance.Proper (S : Standard) (w : World σ κ) : Advance → Prop
  | .yielded v => v.Proper S w
  | .fault f => f.Proper S w
  | .done | .exhausted => True

namespace Enumerator

open World (Does Keeps)

theorem create_proper (hc : chain.Meets S) (hw : w.Proper A []) (hargs : ∀ v ∈ args, v.Proper S w)
    (h : create chain args w = .ok (e, w')) : Keeps A e.cargo w w' ∧ e.Proper S w' := by
  unfold create at h
  cases hm : Machine.create chain .iterator args w with
  | error f =>
    rw [hm] at h
    cases h
  | ok p =>
    obtain ⟨m, w₁⟩ := p
    rw [hm] at h
    cases h
    obtain ⟨hk, hready, hkind⟩ := Machine.create_proper hc hw hargs hm
    refine ⟨hk, fun m' hm' => ?_, nofun⟩
    cases hm'
    exact ⟨hready, hkind⟩

/-- What it may come to when an enumerator is used: the enumerator that is left has its storage. -/
def Comes {α : Type} (A : Accounting S C) (G : World σ κ → α → Prop) (w : World σ κ) :
    EStateM.Result Timeout (World σ κ) (α × Enumerator) → Prop
  | .ok (v, e) w' => Keeps A e.cargo w w' ∧ e.Proper S w' ∧ G w' v
  | .error _ w' => A.Clean w'

theorem proper_finished : finished.Proper S w :=
  ⟨nofun, nofun⟩

theorem advance_proper [host.Safe A] (he : e.Proper S w) (hw : w.Proper A e.cargo) :
    Comes A (Advance.Proper S) w (e.advance host n w) := by
  unfold advance
  cases hm : e.machine with
  | none => exact ⟨.refl hw, he, trivial⟩
  | some m =>
    obtain ⟨hready, hkind⟩ := he.ready m hm
    rw [cargo, hm] at hw
    let held : List (Holding κ) := [.values e.current.toList]
    have hgrasp : (w.grasp held).Proper A [.storage m.home] := World.Proper.grasp hw
    have hrun : Machine.Runs A m (w.grasp held) (m.run host n (w.grasp held)) :=
      Machine.run_proper (hready.later (World.later_grasp w held)) hgrasp
    simp only []
    rcases hr : m.run host n (w.grasp held) with ⟨halt, w₁⟩
    rw [hr] at hrun
    rcases hrun.stopped with ⟨rfl, hc⟩ | ⟨hk, hhalt⟩
    · exact A.clean_of_eq hc rfl rfl rfl rfl
    have hback : Keeps A [.storage m.home] w (w₁.letGo w.hands) :=
      ⟨hk.proper.letGo hk.hands, hk.later.holding, rfl⟩
    have hfree := hback.proper.release
    have hhalt := hhalt.later (World.later_letGo w₁ w.hands)
    cases halt with
    | yielded v m' =>
      obtain ⟨⟨hhome, hchain⟩, hm', hv, -⟩ := hhalt
      rw [← hhome] at hback
      refine ⟨hback, ⟨fun x hx => ?_, fun x hx => ?_⟩, hv⟩
      · cases hx
        exact ⟨hm', hchain ▸ hkind⟩
      · cases hx
        exact hv
    | completed v m' => exact ⟨hback.trans hfree, proper_finished, trivial⟩
    | fault f m' => exact ⟨hback.trans hfree, proper_finished, hhalt.2.later hfree.later⟩
    | awaiting f m' =>
      -- only tasks await
      have hdefect := hfree.proper.defect fun hs => nomatch hkind.symm.trans (hhalt.2.2.2 hs)
      exact ⟨hback.trans (hfree.trans hdefect), proper_finished, nofun⟩
    | timeout => exact hhalt.elim

theorem dispose_proper [host.Safe A] (he : e.Proper S w) (hw : w.Proper A e.cargo) :
    Comes A (fun w' r => ∀ f ∈ r, Fault.Proper S w' f) w (e.dispose host n w) := by
  unfold dispose
  cases hm : e.machine with
  | none => exact ⟨.refl hw, he, nofun⟩
  | some m =>
    rw [cargo, hm] at hw
    have hu : Does A [.storage m.home] _ w (m.unwind host n w) :=
      Machine.unwind_proper (he.ready m hm).1.poised.proper hw
    simp only [Bind.bind, EStateM.bind]
    cases hr : m.unwind host n w with
    | error e w₁ =>
      rw [hr] at hu
      exact hu
    | ok r w₁ =>
      rw [hr] at hu
      have hfree := hu.1.proper.release
      exact ⟨hu.1.trans hfree, proper_finished, fun f hf => (hu.2 f hf).later hfree.later⟩

end Enumerator

end Resumable

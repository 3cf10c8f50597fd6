import Resumable.Proofs.Phases
import Resumable.Proofs.Queues

namespace Resumable

open List

/-- Where one of the futures comes from: it is settled from outside, or continues another one. -/
inductive Descent (κ : Type) (size : Nat) where
  | source (o : Outcome)
  | after (parent : Fin size) (callback : κ)

/-- Futures, each numbered higher than the one that it continues. -/
structure Forest (κ : Type) where
  size : Nat
  descent : Fin size → Descent κ size
  rooted : ∀ i p key, descent i = .after p key → p < i

namespace Forest

open Interleaving (Extends)

variable {σ κ : Type}

/-- The outcome that a future is to have. -/
def value (F : Forest κ) (answer : κ → Outcome → Outcome) (i : Fin F.size) : Outcome :=
  match h : F.descent i with
  | .source o => o
  | .after p key =>
    have : p < i := F.rooted i p key h
    answer key (F.value answer p)
termination_by i.val

/-- One thing to be done: a future is made, or a source is settled. -/
inductive Act (size : Nat) where
  | make (i : Fin size)
  | settle (i : Fin size)
  deriving DecidableEq

/-- Which future each of them is, as far as they have been made. -/
abbrev Names (F : Forest κ) := Fin F.size → Option FutureId

variable {F : Forest κ}

/-- Do one thing. Nothing is done with a future that has not been made. -/
def Act.perform (host : Host σ κ) (n : Nat) (names : F.Names) : Act F.size → Run σ κ F.Names
  | .make i =>
    match F.descent i with
    | .source _ => do
      let (f, w) := (← get).addFuture none
      set w
      return Function.update names i (some f)
    | .after p key =>
      match names p with
      | none => return names
      | some f => do
        let next ← Task.continueWith host n f key
        return Function.update names i (some next)
  | .settle i =>
    match F.descent i, names i with
    | .source o, some f => do
      let _ ← Task.settle host n f o
      return names
    | _, _ => return names

def performAll (host : Host σ κ) (n : Nat) : F.Names → List (Act F.size) → Run σ κ F.Names
  | names, [] => return names
  | names, a :: acts => do
    let names ← a.perform host n names
    performAll host n names acts

/-- An order of doing everything once: a future is made before it is settled or continued. -/
structure Order (F : Forest κ) (acts : List (Act F.size)) : Prop where
  once : acts.Nodup
  settled : ∀ i o, F.descent i = .source o → [.make i, .settle i].Sublist acts
  continued : ∀ i p key, F.descent i = .after p key → [.make p, .make i].Sublist acts

/-- Callbacks that do nothing but answer. -/
def Answers (host : Host σ κ) (answer : κ → Outcome → Outcome) : Prop :=
  ∀ key o, host.callback key o = pure (answer key o)

section

variable {answer : κ → Outcome → Outcome} {i p : Fin F.size} {o : Outcome} {key : κ}

theorem value_source (h : F.descent i = .source o) : F.value answer i = o := by
  rw [value]
  split
  · next o' h' =>
    cases h'.symm.trans h
    rfl
  · next p key h' => cases h'.symm.trans h

theorem value_after (h : F.descent i = .after p key) :
    F.value answer i = answer key (F.value answer p) := by
  rw [value]
  split
  · next o h' => cases h'.symm.trans h
  · next p' key' h' =>
    cases h'.symm.trans h
    rfl

end

/-- A future that continues another one waits on it, unless it is settled itself. -/
def Served (names : F.Names) (w : World σ κ) (i : Fin F.size) : Prop :=
  ∀ f p key g, names i = some f → F.descent i = .after p key → names p = some g →
    (∃ o, w.outcome? f = some o) ∨
      w.outcome? g = none ∧ (g, .callback key f) ∈ queue w.futures

/-- The world as it should be between two things that are done, but for the futures to which
something is still `due`. -/
structure Stands (F : Forest κ) (answer : κ → Outcome → Outcome) (names : F.Names)
    (due : Fin F.size → Prop) (w : World σ κ) : Prop where
  apart : ∀ i j f, names i = some f → names j = some f → i = j
  known : ∀ i f, names i = some f → f < w.futures.size
  parent : ∀ i f p key, names i = some f → F.descent i = .after p key → ∃ g, names p = some g
  value : ∀ i f o, names i = some f → w.outcome? f = some o → o = F.value answer i
  waits : ∀ p g k, names p = some g → (g, k) ∈ queue w.futures →
    ∃ i key f, k = .callback key f ∧ F.descent i = .after p key ∧ names i = some f
  served : ∀ i, ¬due i → Served names w i

/-- Those whose callbacks are among these continuations. -/
def Owed (names : F.Names) (ks : List (Continuation κ)) (i : Fin F.size) : Prop :=
  ∃ key f, names i = some f ∧ .callback key f ∈ ks

namespace Stands

variable {answer : κ → Outcome → Outcome} {names : F.Names} {due due' : Fin F.size → Prop}
  {w w' : World σ κ} {i p : Fin F.size} {f g : FutureId}

theorem of_futures (h : Stands F answer names due w) (hf : w'.futures = w.futures) :
    Stands F answer names due w' := by
  have ho := World.outcome?_congr hf
  refine ⟨h.apart, hf ▸ h.known, h.parent, ho ▸ h.value, hf ▸ h.waits, fun i hi => ?_⟩
  rw [Served, hf, ho]
  exact h.served i hi

theorem weaken (h : Stands F answer names due w) (hd : ∀ i, due i → due' i) :
    Stands F answer names due' w :=
  { h with served := fun i hi => h.served i (mt (hd i) hi) }

theorem discharge (h : Stands F answer names (fun j => j = i ∨ due j) w)
    (hi : Served names w i) : Stands F answer names due w := by
  refine { h with served := fun j hj => ?_ }
  by_cases hji : j = i
  · exact hji ▸ hi
  · exact h.served j (by simp [hji, hj])

theorem add (h : Stands F answer names due w) (hi : names i = none)
    (hparent : ∀ p key, F.descent i = .after p key → ∃ g, names p = some g) :
    Stands F answer (Function.update names i (some w.futures.size)) (fun j => j = i ∨ due j)
      (w.addFuture none).2 := by
  have hold : ∀ {j g}, Function.update names i (some w.futures.size) j = some g →
      j = i ∧ g = w.futures.size ∨ j ≠ i ∧ names j = some g ∧ g < w.futures.size := by
    intro j g hj
    by_cases hji : j = i
    · subst hji
      rw [Function.update_self] at hj
      exact .inl ⟨rfl, (Option.some.inj hj).symm⟩
    · rw [Function.update_of_ne hji] at hj
      exact .inr ⟨hji, hj, h.known j g hj⟩
  have hqueue : queue (w.addFuture none).2.futures = queue w.futures := queue_push ..
  have hnew : ∀ {j g}, names j = some g →
      Function.update names i (some w.futures.size) j = some g := by
    intro j g hj
    rw [Function.update_of_ne (by rintro rfl; cases hi.symm.trans hj)]
    exact hj
  refine ⟨fun j k f hj hk => ?_, fun j f hj => ?_, fun j f p key hj hp => ?_, fun j f o hj ho => ?_,
    fun p g k hp hk => ?_, fun j hj => ?_⟩
  · rcases hold hj with ⟨rfl, rfl⟩ | ⟨-, hj, hlt⟩ <;> rcases hold hk with ⟨rfl, hf⟩ | ⟨-, hk, hlt'⟩
    · rfl
    · exact absurd hlt' (Nat.lt_irrefl _)
    · exact absurd hlt (hf ▸ Nat.lt_irrefl _)
    · exact h.apart j k f hj hk
  · rw [World.addFuture, Array.size_push]
    rcases hold hj with ⟨-, rfl⟩ | ⟨-, -, hlt⟩
    · exact Nat.lt_succ_self _
    · exact Nat.lt_succ_of_lt hlt
  · have hmade : ∃ g, names p = some g := by
      rcases hold hj with ⟨rfl, -⟩ | ⟨-, hj, -⟩
      · exact hparent p key hp
      · exact h.parent j f p key hj hp
    exact hmade.imp fun _ => hnew
  · rcases hold hj with ⟨-, rfl⟩ | ⟨-, hj, hlt⟩
    · cases (World.outcome?_addFuture w none).symm.trans ho
    · rw [World.outcome?_addFuture_of_lt w none hlt] at ho
      exact h.value j f o hj ho
  · rw [hqueue] at hk
    rcases hold hp with ⟨-, rfl⟩ | ⟨-, hp, -⟩
    · obtain ⟨c, hc, -⟩ := mem_queue.mp hk
      exact absurd (Array.getElem?_eq_some_iff.mp hc).1 (Nat.lt_irrefl _)
    · obtain ⟨j, key, f, rfl, hj, hf⟩ := h.waits p g k hp hk
      exact ⟨j, key, f, rfl, hj, hnew hf⟩
  · intro f p key g hf hp hg
    obtain ⟨hji, hjd⟩ := not_or.mp hj
    rcases hold hf with ⟨hji', -⟩ | ⟨-, hf, hlt⟩
    · exact absurd hji' hji
    · obtain ⟨g', hg'⟩ := h.parent j f p key hf hp
      cases (hnew hg').symm.trans hg
      rw [World.outcome?_addFuture_of_lt w none hlt, hqueue,
        World.outcome?_addFuture_of_lt w none (h.known p g hg')]
      exact h.served j hjd f p key g hf hp hg'

section

variable (h : Stands F answer names (fun j => j = i ∨ due j) w)
include h

theorem attach {key : κ} (hi : names i = some f) (hp : F.descent i = .after p key)
    (hg : names p = some g) (ho : w.outcome? g = none) :
    Stands F answer names due (w.await g (.callback key f)) := by
  have hqueue := queue_await (h.known p g hg) (.callback key f)
  have hout := World.outcome?_await w g (.callback key f)
  refine discharge (i := i) ⟨h.apart, ?_, h.parent, hout ▸ h.value, fun q g' k hq hk => ?_,
    fun j hj => ?_⟩ ?_
  · intro j g' hj
    exact Nat.lt_of_lt_of_eq (h.known j g' hj) Array.size_modify.symm
  · rcases mem_cons.mp (hqueue.mem_iff.mp hk) with heq | hk
    · cases heq
      cases h.apart q p g hq hg
      exact ⟨i, key, f, rfl, hp, hi⟩
    · exact h.waits q g' k hq hk
  · intro f' q key' g' hf' hq hg'
    rw [hout]
    refine (h.served j hj f' q key' g' hf' hq hg').imp_right fun ⟨hnone, hmem⟩ => ⟨hnone, ?_⟩
    exact hqueue.mem_iff.mpr (mem_cons_of_mem _ hmem)
  · intro f' q key' g' hf' hq hg'
    cases hi.symm.trans hf'
    cases hp.symm.trans hq
    cases hg.symm.trans hg'
    rw [hout]
    exact .inr ⟨ho, hqueue.mem_iff.mpr mem_cons_self⟩

/-- Once a future has its outcome, that is due to those who waited on it. -/
theorem settle {ks : List (Continuation κ)}
    (hi : names i = some f)
    (hs : w.settle? f (F.value answer i) = some (ks, w')) :
    Stands F answer names (fun j => Owed names ks j ∨ due j) w' := by
  have hqueue : ∀ g k, (g, k) ∈ queue w.futures ↔ g = f ∧ k ∈ ks ∨ (g, k) ∈ queue w'.futures := by
    intro g k
    rw [(queue_settle? hs).mem_iff, mem_append, mem_map]
    simp [eq_comm, and_comm]
  have hempty : ∀ k, (f, k) ∉ queue w'.futures := by
    intro k hk
    obtain ⟨c, hc, hk⟩ := mem_queue.mp hk
    rcases World.settle?_cell hs hc with ⟨-, hnil⟩ | ⟨hne, -⟩
    · rw [hnil] at hk
      cases hk
    · exact hne rfl
  have hout := World.outcome?_settle? hs
  have hself : w'.outcome? f = some (F.value answer i) := by rw [hout, Function.update_self]
  have hother : ∀ g, g ≠ f → w'.outcome? g = w.outcome? g := fun g hg => by
    rw [hout, Function.update_of_ne hg]
  have hsize : w.futures.size = w'.futures.size := by
    obtain ⟨-, -, -, -, rfl⟩ := World.settle?_some hs
    exact Array.size_modify.symm
  refine ⟨h.apart, fun j g hj => hsize ▸ h.known j g hj, h.parent, fun j g o hj ho => ?_,
    fun p g k hp hk => ?_, fun j hj => ?_⟩
  · by_cases hg : g = f
    · subst hg
      cases h.apart j i g hj hi
      exact (Option.some.inj (hself.symm.trans ho)).symm
    · rw [hother g hg] at ho
      exact h.value j g o hj ho
  · exact h.waits p g k hp ((hqueue g k).mpr (.inr hk))
  · intro g p key q hg hp hq
    by_cases hgf : g = f
    · rw [hgf]
      exact .inl ⟨_, hself⟩
    have hji : j ≠ i := by
      rintro rfl
      exact hgf (Option.some.inj (hg.symm.trans hi))
    obtain ⟨hno, hnd⟩ := not_or.mp hj
    rw [hother g hgf]
    refine (h.served j (by simp [hji, hnd]) g p key q hg hp hq).imp_right ?_
    rintro ⟨hnone, hmem⟩
    -- one that waited on the future just settled is among those it is due to
    rcases (hqueue q _).mp hmem with ⟨-, hk⟩ | hmem
    · exact absurd ⟨key, g, hg, hk⟩ hno
    · refine ⟨?_, hmem⟩
      rw [hother q ?_, hnone]
      rintro rfl
      exact hempty _ hmem

end

end Stands

section

variable {host : Host σ κ} {answer : κ → Outcome → Outcome} {names : F.Names}
variable {w : World σ κ} {i : Fin F.size} {due : Fin F.size → Prop}

/-- Handing an outcome to those who waited on a future, when each of them can be settled. -/
theorem deliver_stands (hh : Answers host answer)
    (ih : ∀ j, i < j → ∀ {w : World σ κ} {due : Fin F.size → Prop} {f : FutureId},
      Stands F answer names (fun k => k = j ∨ due k) w → names j = some f →
      ∃ fresh w', Task.Ends (fun _ n => Task.settle host n f (F.value answer j)) w fresh w' ∧
        Stands F answer names due w' ∧ Extends w.outcome? w'.outcome?) (g : FutureId)
    (ks : List (Continuation κ))
    (hks : ∀ k ∈ ks, ∃ j key f, k = .callback key f ∧ F.descent j = .after i key ∧ names j = some f)
    (h : Stands F answer names (fun j => Owed names ks j ∨ due j) w) :
    ∃ w', Task.Ends (fun _ n => Task.deliver host n g (F.value answer i) ks) w () w' ∧
      Stands F answer names due w' ∧ Extends w.outcome? w'.outcome? := by
  induction ks generalizing w with
  | nil =>
    refine ⟨w, (Task.Ends.pure () w).succ fun _ _ => rfl, h.weaken ?_, fun _ _ ho => ho⟩
    rintro j (⟨_, _, -, hm⟩ | hd)
    · cases hm
    · exact hd
  | cons k ks rest =>
    obtain ⟨hk, hmore⟩ := forall_mem_cons.mp hks
    obtain ⟨j, key, f, rfl, hj, hf⟩ := hk
    let held : List (Holding κ) := [.outcome (F.value answer i), .waiting g ks]
    have hstart : Stands F answer names (fun x => x = j ∨ Owed names ks x ∨ due x)
        (w.grasp held) := by
      refine Stands.of_futures (h.weaken ?_) rfl
      rintro x (⟨key', f', hx, hm⟩ | hd)
      · rcases mem_cons.mp hm with he | hm
        · cases he
          exact .inl (h.apart x j f hx hf)
        · exact .inr (.inl ⟨key', f', hx, hm⟩)
      · exact .inr (.inr hd)
    obtain ⟨fresh, w₁, hends, hstands, hkeeps⟩ := ih j (F.rooted j i key hj) hstart hf
    have hgone : Stands F answer names (fun x => Owed names ks x ∨ due x) (w₁.letGo w.hands) :=
      hstands.of_futures rfl
    obtain ⟨w₂, hends', hstands', hkeeps'⟩ := rest hmore hgone
    refine ⟨w₂, ?_, hstands', fun x o ho => hkeeps' x o (hkeeps x o ho)⟩
    have hcall : Task.Ends
        (fun _ _ => World.holding [.future f] (host.callback key (F.value answer i)))
        (w.grasp held) (F.value answer j) (w.grasp held) := by
      refine ⟨0, fun _ _ _ _ => ?_⟩
      rw [hh, value_after hj]
      rfl
    exact ((hcall.bind (y := fun _ n a => Task.settle host n f a >>= fun _ => pure ())
      (hends.andThen (Task.Ends.pure () _))).holding.andThen hends').succ fun _ _ => rfl

theorem settle_stands (hh : Answers host answer) (i : Fin F.size) {f : FutureId}
    (h : Stands F answer names (fun k => k = i ∨ due k) w) (hi : names i = some f) :
    ∃ fresh w', Task.Ends (fun _ n => Task.settle host n f (F.value answer i)) w fresh w' ∧
      Stands F answer names due w' ∧ Extends w.outcome? w'.outcome? ∧
      w'.outcome? f = some (F.value answer i) := by
  -- those who wait on a future come after it in the forest
  induction hk : F.size - i.val using Nat.strong_induction_on generalizing i w due f with
  | _ k ih =>
    obtain ⟨cell, hf⟩ : ∃ cell, w.futures[f]? = some cell :=
      ⟨_, Array.getElem?_eq_getElem (h.known i f hi)⟩
    cases hc : cell.outcome with
    | some o =>
      have ho : w.outcome? f = some o := by rw [World.outcome?, hf]; exact hc
      have hserved : Served names w i := fun g _ _ _ hg _ _ =>
        .inl ⟨o, Option.some.inj (hi.symm.trans hg) ▸ ho⟩
      refine ⟨false, w, ?_, h.discharge hserved, fun _ _ hx => hx, h.value i f o hi ho ▸ ho⟩
      exact (Task.Ends.pure false w).succ fun _ _ =>
        Task.settle_refused (World.settle?_eq_none_of_settled w _ ho)
    | none =>
      have hpending := World.settle?_pending hf hc (F.value answer i)
      have hwaits : ∀ k ∈ cell.waiting, ∃ j key g, k = .callback key g ∧
          F.descent j = .after i key ∧ names j = some g :=
        fun k hk => h.waits i f k hi (mem_queue.mpr ⟨_, hf, hk⟩)
      obtain ⟨w', hends, hstands, hkeeps⟩ := deliver_stands hh
        (fun j hj _ _ _ hs hn => by
          obtain ⟨fresh, w', he, hs', hkeep, -⟩ :=
            ih (F.size - j.val) (by have := j.isLt; omega) j hs hn rfl
          exact ⟨fresh, w', he, hs', hkeep⟩)
        f _ hwaits (h.settle hi hpending)
      have hout := World.outcome?_settle? hpending
      refine ⟨true, w', ?_, hstands, fun g o ho => hkeeps g o ?_, hkeeps f _ ?_⟩
      · exact (hends.andThen (Task.Ends.pure true w')).succ fun _ _ => Task.settle_pending hpending
      · have hg : g ≠ f := by
          rintro rfl
          rw [World.outcome?, hf] at ho
          cases hc.symm.trans ho
        rw [hout, Function.update_of_ne hg, ho]
      · rw [hout, Function.update_self]

theorem extends_addFuture (w : World σ κ) : Extends w.outcome? (w.addFuture none).2.outcome? := by
  intro f o ho
  have hf : f < w.futures.size := by
    by_contra hf
    rw [World.outcome?, Array.getElem?_eq_none (Nat.le_of_not_lt hf)] at ho
    cases ho
  rw [World.outcome?_addFuture_of_lt w none hf, ho]

theorem continue_stands (hh : Answers host answer) {p : Fin F.size} {g : FutureId} {key : κ}
    (hd : F.descent i = .after p key)
    (h : Stands F answer names (fun j => j = i ∨ False) (w.addFuture none).2)
    (hi : names i = some w.futures.size) (hp : names p = some g) :
    ∃ w', Task.Ends (fun _ n => Task.continueWith host n g key) w w.futures.size w' ∧
      Stands F answer names (fun _ => False) w' ∧
      Extends (w.addFuture none).2.outcome? w'.outcome? := by
  cases ho : (w.addFuture none).2.outcome? g with
  | none =>
    refine ⟨_, ⟨0, fun _ n _ _ => Task.continueWith_pending ho⟩, h.attach hi hd hp ho, ?_⟩
    rw [World.outcome?_await]
    exact fun _ _ ho => ho
  | some o =>
    obtain ⟨fresh, w', hends, hstands, hkeeps, -⟩ := settle_stands hh i h hi
    refine ⟨w', ?_, hstands, hkeeps⟩
    have hcall : Task.Ends
        (fun _ _ => World.holding [.future w.futures.size, .outcome o] (host.callback key o))
        (w.addFuture none).2 (F.value answer i) (w.addFuture none).2 := by
      refine ⟨0, fun _ _ _ _ => ?_⟩
      rw [hh, value_after hd, h.value p g o hp ho]
      rfl
    exact (hcall.bind (y := fun _ n a => Task.settle host n w.futures.size a >>= fun _ =>
      pure w.futures.size) (hends.andThen (Task.Ends.pure _ _))).congr fun _ _ =>
        Task.continueWith_settled ho

theorem make_stands (hh : Answers host answer) (h : Stands F answer names (fun _ => False) w)
    (hi : names i = none) (hparent : ∀ p key, F.descent i = .after p key → ∃ g, names p = some g) :
    ∃ w', Task.Ends (fun _ n => (Act.make i).perform host n names) w
        (Function.update names i (some w.futures.size)) w' ∧
      Stands F answer (Function.update names i (some w.futures.size)) (fun _ => False) w' ∧
      Extends w.outcome? w'.outcome? := by
  have hadd := h.add hi hparent
  have hkeeps := extends_addFuture w
  cases hd : F.descent i with
  | source o =>
    refine ⟨(w.addFuture none).2, (Task.Ends.pure _ _).congr fun _ n => ?_, hadd.discharge ?_,
      hkeeps⟩
    · simp only [Act.perform, hd]
      rfl
    · intro f p key g _ hp
      cases hd.symm.trans hp
  | after p key =>
    obtain ⟨g, hg⟩ := hparent p key hd
    have hg' : Function.update names i (some w.futures.size) p = some g := by
      rw [Function.update_of_ne (by rintro rfl; cases hi.symm.trans hg), hg]
    obtain ⟨w', hends, hstands, hkeeps'⟩ :=
      continue_stands hh hd hadd (Function.update_self ..) hg'
    refine ⟨w', ?_, hstands, fun f o ho => hkeeps' f o (hkeeps f o ho)⟩
    refine (hends.bind (y := fun _ _ next => pure (Function.update names i (some next)))
      (Task.Ends.pure _ _)).congr fun _ n => ?_
    simp only [Act.perform, hd, hg]

end

/-- What has been achieved by doing these things. -/
structure Achieved (answer : κ → Outcome → Outcome) (acts : List (Act F.size)) (names : F.Names)
    (w : World σ κ) : Prop where
  stands : Stands F answer names (fun _ => False) w
  made : ∀ i, (∃ f, names i = some f) ↔ .make i ∈ acts
  settled : ∀ i o, F.descent i = .source o → .settle i ∈ acts →
    ∃ f o', names i = some f ∧ w.outcome? f = some o'

namespace Order

variable {before after : List (Act F.size)}

theorem mem_before {a b : Act F.size} (hn : (before ++ a :: after).Nodup)
    (h : [b, a].Sublist (before ++ a :: after)) : b ∈ before := by
  obtain ⟨l₁, l₂, hl, h₁, h₂⟩ := sublist_append_iff.mp h
  cases l₁ with
  | nil =>
    have ha : a ∉ after := (nodup_cons.mp (nodup_append.mp hn).2.1).1
    subst hl
    rcases sublist_cons_iff.mp h₂ with h₂ | ⟨r, hr, h₂⟩
    · exact absurd (h₂.subset (by simp)) ha
    · cases hr
      exact absurd (h₂.subset (by simp)) ha
  | cons c l₁ =>
    cases (cons.inj hl).1
    exact h₁.subset mem_cons_self

variable {host : Host σ κ} {answer : κ → Outcome → Outcome} {names : F.Names} {w : World σ κ}

theorem make (hh : Answers host answer) {i : Fin F.size}
    (h : F.Order (before ++ .make i :: after)) (ha : Achieved answer before names w) :
    ∃ names' w', Task.Ends (fun _ n => (Act.make i).perform host n names) w names' w' ∧
      Achieved answer (before ++ [.make i]) names' w' := by
  have hi : names i = none := by
    refine Option.eq_none_iff_forall_ne_some.mpr fun f hf => ?_
    exact disjoint_of_nodup_append h.once ((ha.made i).mp ⟨f, hf⟩) mem_cons_self
  have hparent : ∀ p key, F.descent i = .after p key → ∃ g, names p = some g := fun p key hd =>
    (ha.made p).mpr (mem_before h.once (h.continued i p key hd))
  obtain ⟨w', hends, hstands, hkeeps⟩ := make_stands hh ha.stands hi hparent
  refine ⟨_, w', hends, hstands, fun j => ?_, fun j o hd hj => ?_⟩
  · by_cases hji : j = i
    · subst hji
      simp
    · simp [hji, ha.made j]
  · obtain ⟨f, o', hf, ho⟩ := ha.settled j o hd (by simpa using hj)
    refine ⟨f, o', ?_, hkeeps f o' ho⟩
    rw [Function.update_of_ne (by rintro rfl; cases hi.symm.trans hf), hf]

theorem settle (hh : Answers host answer) {i : Fin F.size}
    (h : F.Order (before ++ .settle i :: after)) (ha : Achieved answer before names w) :
    ∃ names' w', Task.Ends (fun _ n => (Act.settle i).perform host n names) w names' w' ∧
      Achieved answer (before ++ [.settle i]) names' w' := by
  have hmade : ∀ j, (∃ f, names j = some f) ↔ .make j ∈ before ++ [.settle i] := by
    simpa using ha.made
  cases hd : F.descent i with
  | after p key =>
    refine ⟨names, w, (Task.Ends.pure _ _).congr fun _ n => ?_, ha.stands, hmade,
      fun j o hj hmem => ?_⟩
    · simp only [Act.perform, hd]
    · have hji : j ≠ i := by
        rintro rfl
        cases hd.symm.trans hj
      exact ha.settled j o hj (by simpa [hji] using hmem)
  | source o =>
    obtain ⟨f, hf⟩ := (ha.made i).mpr (mem_before h.once (h.settled i o hd))
    have hdue : Stands F answer names (fun j => j = i ∨ False) w := ha.stands.weaken nofun
    obtain ⟨fresh, w', hends, hstands, hkeeps, hout⟩ := settle_stands hh i hdue hf
    rw [value_source hd] at hends hout
    refine ⟨names, w', (hends.andThen (Task.Ends.pure names _)).congr fun _ n => ?_, hstands,
      hmade, fun j o' hj hmem => ?_⟩
    · simp only [Act.perform, hd, hf]
    · by_cases hji : j = i
      · exact ⟨f, o, hji ▸ hf, hout⟩
      · obtain ⟨g, o'', hg, ho⟩ := ha.settled j o' hj (by simpa [hji] using hmem)
        exact ⟨g, o'', hg, hkeeps g o'' ho⟩

theorem performAll (hh : Answers host answer) (h : F.Order (before ++ after))
    (ha : Achieved answer before names w) :
    ∃ names' w', Task.Ends (fun _ n => performAll host n names after) w names' w' ∧
      Achieved answer (before ++ after) names' w' := by
  induction after generalizing before names w with
  | nil => exact ⟨names, w, .pure _ _, by simpa using ha⟩
  | cons a after ih =>
    have hstep : ∃ names' w', Task.Ends (fun _ n => a.perform host n names) w names' w' ∧
        Achieved answer (before ++ [a]) names' w' := by
      cases a with
      | make i => exact make hh h ha
      | settle i => exact settle hh h ha
    obtain ⟨names₁, w₁, hends, ha₁⟩ := hstep
    obtain ⟨names₂, w₂, hends', ha₂⟩ := ih (by simpa using h) ha₁
    refine ⟨names₂, w₂, ?_, by simpa using ha₂⟩
    exact hends.bind (y := fun _ n names => Forest.performAll host n names after) hends'

end Order

namespace Achieved

variable {answer : κ → Outcome → Outcome} {acts : List (Act F.size)} {names : F.Names}
  {w : World σ κ}

/-- When all is done, every future has its outcome: a source has been settled, and no other future
waits any more once the one before it is settled. -/
theorem outcome (h : Achieved answer acts names w) (hacts : F.Order acts) (i : Fin F.size) :
    ∃ f, names i = some f ∧ w.outcome? f = some (F.value answer i) := by
  suffices ∃ f o, names i = some f ∧ w.outcome? f = some o by
    obtain ⟨f, o, hf, ho⟩ := this
    exact ⟨f, hf, h.stands.value i f o hf ho ▸ ho⟩
  induction hk : i.val using Nat.strong_induction_on generalizing i with
  | _ k ih =>
    cases hd : F.descent i with
    | source o => exact h.settled i o hd ((hacts.settled i o hd).subset (by simp))
    | after p key =>
      obtain ⟨g, o, hg, ho⟩ := ih p.val (hk ▸ F.rooted i p key hd) p rfl
      obtain ⟨f, hf⟩ := (h.made i).mpr ((hacts.continued i p key hd).subset (by simp))
      rcases h.stands.served i not_false f p key g hf hd hg with ⟨o', ho'⟩ | ⟨hnone, -⟩
      · exact ⟨f, o', hf, ho'⟩
      · cases hnone.symm.trans ho

end Achieved

/-- The outcomes of futures that continue one another do not depend on the order in which they are
made and their sources settled. -/
theorem outcomes_of_order (F : Forest κ) {host : Host σ κ} {answer : κ → Outcome → Outcome}
    (hh : Answers host answer) :
    (∀ i, F.value answer i = match F.descent i with
      | .source o => o
      | .after p key => answer key (F.value answer p)) ∧
    ∀ acts, F.Order acts → ∀ w : World σ κ, ∃ names w',
      Task.Ends (fun _ n => performAll host n (fun _ => none) acts) w names w' ∧
      Function.Injective names ∧
      ∀ i, ∃ f, names i = some f ∧ w'.outcome? f = some (F.value answer i) := by
  refine ⟨fun i => ?_, fun acts hacts w => ?_⟩
  · split
    · next o hd => exact value_source hd
    · next p key hd => exact value_after hd
  · have hstart : Achieved answer ([] : List (Act F.size)) (fun _ => none) w :=
      ⟨⟨nofun, nofun, nofun, nofun, nofun, nofun⟩, by simp, by simp⟩
    obtain ⟨names, w', hends, ha⟩ :=
      Order.performAll hh (show F.Order ([] ++ acts) from hacts) hstart
    have hall := ha.outcome hacts
    refine ⟨names, w', hends, fun i j hij => ?_, hall⟩
    obtain ⟨f, hf, -⟩ := hall i
    exact ha.stands.apart i j f hf (hij ▸ hf)

def recover : Outcome → Outcome
  | .ok v => .ok v
  | .error _ => .ok .unit

/-- Two sources, of which the second fails, and three futures that continue them. -/
def branching : Forest (Outcome → Outcome) where
  size := 5
  descent
    | 0 => .source (.ok (.bool true))
    | 1 => .after 0 fun _ => .error .divisionByZero
    | 2 => .after 1 recover
    | 3 => .source (.error .cancelled)
    | 4 => .after 3 recover
  rooted
    | 0, _, _, h | 3, _, _, h => nomatch h
    | 1, _, _, h | 2, _, _, h | 4, _, _, h => by cases h; decide

def applying : Host Unit (Outcome → Outcome) where
  call _ _ := pure (.error .cancelled)
  callback key o := pure (key o)
  keeps _ := []

/-- One future waits, is settled, and is continued only then. -/
def mixedOrder : List (Act branching.size) :=
  show List (Act 5) from [.make 3, .make 0, .make 1, .settle 0, .make 2, .settle 3, .make 4]

theorem order_mixed : branching.Order mixedOrder where
  once := by decide
  settled
    | (0 : Fin 5), _, _ | (3 : Fin 5), _, _ => by decide
    | (1 : Fin 5), _, h | (2 : Fin 5), _, h | (4 : Fin 5), _, h => nomatch h
  continued
    | (0 : Fin 5), _, _, h | (3 : Fin 5), _, _, h => nomatch h
    | (1 : Fin 5), _, _, h | (2 : Fin 5), _, _, h | (4 : Fin 5), _, _, h => by cases h; decide

theorem branching_outcomes : branching.Order mixedOrder ∧ Answers applying (fun key o => key o) ∧
    ∃ names w', Task.Ends (fun _ n => performAll applying n (fun _ => none) mixedOrder)
        { ext := () } names w' ∧
      ∃ f, names (2 : Fin 5) = some f ∧ w'.outcome? f = some (.ok .unit) := by
  have hh : Answers applying (fun key o => key o) := fun _ _ => rfl
  obtain ⟨hvalue, hall⟩ := outcomes_of_order branching hh
  obtain ⟨names, w', hends, -, hout⟩ := hall mixedOrder order_mixed { ext := () }
  have hone : branching.value (fun key o => key o) (1 : Fin 5) = .error .divisionByZero :=
    hvalue (1 : Fin 5)
  have htwo : branching.value (fun key o => key o) (2 : Fin 5) = .ok .unit :=
    (hvalue (2 : Fin 5)).trans (congrArg recover hone)
  exact ⟨order_mixed, hh, names, w', hends, htwo ▸ hout (2 : Fin 5)⟩

end Forest

end Resumable

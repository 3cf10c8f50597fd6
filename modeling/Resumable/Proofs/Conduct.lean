import Resumable.Proofs.Programs
import Resumable.Proofs.Running

namespace Resumable

open List

variable {f : FutureId} {home : StorageId} {o : Outcome} {chain : Chain} {t : Task}

/-! What lies on the desk. -/

section

variable {σ σ' κ : Type} {S : Standard} {w w' : World σ' κ}

/-- A task that has not been started. -/
structure Task.Proper (S : Standard) (w : World σ' κ) (t : Task) : Prop where
  ready : t.machine.Ready S w
  kind : t.machine.chain.kind = .async
  fresh : t.machine.resumption = none

def Task.cargo (t : Task) : List (Cargo κ) :=
  [.storage t.machine.home, .right t.result .fresh]

/-- Everything on the desk can be used. -/
structure Desk.Proper (S : Standard) (w : World σ' κ) (d : Desk σ) : Prop where
  closures : ∀ v ∈ d.closures, v.Proper S w
  tasks : ∀ t ∈ d.tasks, t.Proper S w
  enumerators : ∀ p ∈ d.enumerators, p.2.Proper S w

theorem Desk.Proper.later {d : Desk σ} (hd : d.Proper S w) (h : w.Later w') : d.Proper S w' where
  closures := fun v hv => (hd.closures v hv).later h
  tasks := fun t ht => ⟨(hd.tasks t ht).ready.later h, (hd.tasks t ht).kind, (hd.tasks t ht).fresh⟩
  enumerators := fun p hp => (hd.enumerators p hp).later h

def Desk.cargo (d : Desk σ) : List (Cargo κ) :=
  d.tasks.flatMap (·.cargo) ++ d.enumerators.flatMap (·.2.cargo)

variable (σ κ S) in
def Desk.custody : Custody (Desk σ) κ where
  cargo := Desk.cargo
  sources := fun d => d.sources
  Kept := fun w => w.ext.Proper S w
  later := fun h hl he => he ▸ h.later hl

end

section

variable {α : Type}

theorem perm_eraseP {p : α → Bool} {l : List α} {a : α} (h : l.find? p = some a) :
    l.Perm (a :: l.eraseP p) := by
  obtain ⟨ha, before, after, rfl, hnot⟩ := find?_eq_some_iff_append.mp h
  have hbefore : ∀ b ∈ before, ¬p b = true := fun b hb => by simpa using hnot b hb
  rw [eraseP_append_right _ hbefore, eraseP_cons_of_pos ha]
  exact perm_middle

theorem perm_taken {taken own rest all : List α} (h : all.Perm (taken ++ rest)) :
    ((taken ++ own) ++ rest).Perm (own ++ all) := by
  rw [append_assoc]
  exact (perm_append_comm_assoc ..).trans (h.symm.append_left own)

end

namespace World

section

variable {σ κ : Type} {S : Standard} {A : Accounting S (Desk.custody σ κ S)}
  {own own' : List (Cargo κ)} {w w' : World (Desk σ) κ}

theorem later_desk (w : World (Desk σ) κ) (d : Desk σ) : w.Later { w with ext := d } :=
  later_of_eq rfl rfl rfl rfl rfl

theorem Stocked.desk (h : w.Stocked S (Desk.custody σ κ S)) {d : Desk σ} (hd : d.Proper S w) :
    Stocked S (Desk.custody σ κ S) { w with ext := d } :=
  have hl := later_desk w d
  ⟨fun c hmem v hv => (h.slots c hmem v hv).later hl,
    fun c hmem o ho => (h.outcomes c hmem o ho).later hl,
    fun c hmem k hk => (h.waiting c hmem k hk).later hl, hd.later hl⟩

theorem Proper.desk (h : w.Proper A own) {d : Desk σ} (hd : d.Proper S w)
    (hc : (own' ++ d.cargo).Perm (own ++ w.ext.cargo)) (hs : d.sources = w.ext.sources) :
    Keeps A own' w { w with ext := d } :=
  ⟨⟨h.stocked.desk hd, A.ext h.balanced hc hs⟩, later_desk w d, rfl⟩

/-- Programs name only what there is. -/
theorem Stocked.allow (h : w.Stocked S (Desk.custody σ κ S)) (v : Value) :
    (w.allow v).Proper S w := by
  cases v with
  | closure id =>
    rw [World.allow]
    cases hf : w.ext.closures.find? (·.closure? == some id) with
    | none => trivial
    | some c => exact h.kept.closures c (mem_of_find?_eq_some hf)
  | future f =>
    rw [World.allow]
    split
    · assumption
    · trivial
  | _ => trivial

theorem Stocked.allow_outcome (h : w.Stocked S (Desk.custody σ κ S)) (o : Outcome) :
    Outcome.Proper S w (o.mapValue w.allow) := by
  cases o with
  | ok v => exact h.allow v
  | error f =>
    cases f with
    | thrown v | notAwaitable v =>
      rintro x hx
      cases hx
      exact h.allow v
    | _ => exact nofun

variable (h : w.Proper A own)
include h

theorem Proper.learn {vs : List Value} (hvs : ∀ v ∈ vs, v.Proper S w) :
    Keeps A own w (w.learn vs) := by
  refine h.desk ⟨fun v hv => ?_, h.stocked.kept.tasks, h.stocked.kept.enumerators⟩ (.refl _) rfl
  rcases mem_append.mp hv with hv | hv
  · exact hvs v (mem_filter.mp hv).1
  · exact h.stocked.kept.closures v hv

theorem Proper.takeTask? (ht : w.takeTask? f = some (t, w')) :
    Keeps A (t.cargo ++ own) w w' ∧ t.Proper S w' := by
  obtain ⟨t', hfind, he⟩ := Option.bind_eq_some_iff.mp ht
  cases he
  have hperm := perm_eraseP hfind
  have hk : Keeps A (t.cargo ++ own) w
      { w with ext := { w.ext with tasks := w.ext.tasks.eraseP (·.result == f) } } := by
    refine h.desk ⟨h.stocked.kept.closures,
      fun t' ht' => h.stocked.kept.tasks t' (mem_of_mem_eraseP ht'),
      h.stocked.kept.enumerators⟩ (perm_taken ?_) rfl
    rw [Desk.cargo, Desk.cargo, ← append_assoc]
    exact (hperm.flatMap_right _).append_right _
  have hmem := h.stocked.kept.tasks t (mem_of_find?_eq_some hfind)
  exact ⟨hk, hmem.ready.later hk.later, hmem.kind, hmem.fresh⟩

theorem Proper.takeEnumerator? {e : Enumerator} (he : w.takeEnumerator? home = some (e, w')) :
    Keeps A (e.cargo ++ own) w w' ∧ e.Proper S w' := by
  obtain ⟨p, hfind, hp⟩ := Option.bind_eq_some_iff.mp he
  cases hp
  have hperm := perm_eraseP hfind
  have hk : Keeps A (p.2.cargo ++ own) w
      { w with ext := { w.ext with
        enumerators := w.ext.enumerators.eraseP (·.1 == home) } } := by
    refine h.desk ⟨h.stocked.kept.closures, h.stocked.kept.tasks,
      fun q hq => h.stocked.kept.enumerators q (mem_of_mem_eraseP hq)⟩ (perm_taken ?_) rfl
    exact ((hperm.flatMap_right _).append_left _).trans (perm_append_comm_assoc ..)
  exact ⟨hk, (h.stocked.kept.enumerators p (mem_of_find?_eq_some hfind)).later hk.later⟩

end

section

variable {σ κ : Type} {S : Standard} {A : Accounting S (Desk.custody σ κ S)}
  {own : List (Cargo κ)} {w : World (Desk σ) κ}

theorem Proper.putTask (h : w.Proper A (t.cargo ++ own)) (ht : t.Proper S w) :
    Keeps A own w (w.putTask t) := by
  refine h.desk ⟨h.stocked.kept.closures, forall_mem_cons.mpr ⟨ht, h.stocked.kept.tasks⟩,
    h.stocked.kept.enumerators⟩ (perm_taken ?_).symm rfl
  rw [Desk.cargo, flatMap_cons, append_assoc]
  exact .refl _

theorem Proper.putEnumerator {e : Enumerator} (h : w.Proper A (e.cargo ++ own))
    (he : e.Proper S w) : Keeps A own w (w.putEnumerator home e) := by
  refine h.desk ⟨h.stocked.kept.closures, h.stocked.kept.tasks,
    forall_mem_cons.mpr ⟨he, h.stocked.kept.enumerators⟩⟩ (perm_taken ?_).symm rfl
  rw [Desk.cargo, flatMap_cons]
  exact perm_append_comm_assoc ..

end

end World

/-! Programs. -/

section

variable {σ κ : Type} {S : Standard} {w : World σ κ}

theorem Fault.proper_values {f : Fault} (hf : f.Proper S w) :
    ∀ v ∈ f.value?.toList, v.Proper S w :=
  fun v hv => hf v (Option.mem_toList.mp hv)

theorem Outcome.proper_values (ho : Outcome.Proper S w o) : ∀ v ∈ o.values, v.Proper S w := by
  cases o with
  | ok v => exact fun x hx => mem_singleton.mp hx ▸ ho
  | error f => exact Fault.proper_values ho

theorem Advance.proper_values {r : Advance} (hr : r.Proper S w) :
    ∀ v ∈ r.values, v.Proper S w := by
  cases r with
  | yielded v => exact fun x hx => mem_singleton.mp hx ▸ hr
  | fault f => exact Fault.proper_values hr
  | done | exhausted => exact nofun

end

section

variable {σ : Type} {P : Chain → Prop} {S : Standard}
  {A : Accounting S (Desk.custody σ (Callback σ P) S)} {host : Host (Desk σ) (Callback σ P)}
  {n : Nat} {w : World (Desk σ) (Callback σ P)}

open World (Does Keeps Anything)

section

variable (h : w.Proper A [])
include h

theorem World.Proper.turn : Keeps A [] w (w.record .host) :=
  ⟨⟨h.stocked.record _, A.host h.balanced⟩, later_record w _, rfl⟩

theorem World.Proper.tokens (tokens : Array Bool) : Keeps A [] w { w with tokens } := by
  have hl : w.Later { w with tokens } := later_of_eq rfl rfl rfl rfl rfl
  exact ⟨⟨h.stocked.same hl rfl rfl rfl,
    A.inert h.balanced ⟨rfl, rfl, fun _ => rfl, rfl, rfl, rfl, rfl, rfl, rfl⟩⟩, hl, rfl⟩

theorem World.Proper.newSource : Keeps A [] w { (w.addFuture none).2 with
    ext := { w.ext with sources := w.futures.size :: w.ext.sources } } := by
  have hs : (w.addFuture none).2.Stocked S _ := h.stocked.addFuture nofun
  exact ⟨⟨hs.desk ⟨hs.kept.closures, hs.kept.tasks, hs.kept.enumerators⟩,
    A.source h.balanced rfl rfl⟩, (later_addFuture w none).trans (later_desk _ _), rfl⟩

theorem World.Proper.addSettled (ho : Outcome.Proper S w o) :
    Keeps A [] w (w.addFuture (some o)).2 :=
  ⟨⟨h.stocked.addFuture fun _ hx => Option.some.inj hx ▸ ho, A.ready h.balanced⟩,
    later_addFuture w _, rfl⟩

theorem World.Proper.newTask (hc : chain.Meets S) (args : List Value)
    (token : Option TokenId) : Keeps A [] w (w.newTask chain args token).2 := by
  rw [World.newTask]
  split
  · exact .refl h
  · rename_i t w₁ hcreate
    obtain ⟨hk, hready, hkind, hfresh, -⟩ :=
      Task.create_proper hc h (by simp [h.stocked.allow]) hcreate
    exact hk.trans (World.Proper.putTask hk.proper ⟨hready.withToken token, hkind, hfresh⟩)

theorem World.Proper.newEnumerator (hc : chain.Meets S) (args : List Value)
    (token : Option TokenId) : Keeps A [] w (w.newEnumerator chain args token).2 := by
  rw [World.newEnumerator]
  split
  · exact .refl h
  · rename_i e w₁ hcreate
    obtain ⟨hk, he⟩ := Enumerator.create_proper hc h (by simp [h.stocked.allow]) hcreate
    refine hk.trans (World.Proper.putEnumerator ?_ ⟨fun m hm => ?_, he.current⟩)
    · have hcargo : (e.withToken token).cargo = (e.cargo : List (Cargo (Callback σ P))) := by
        rw [Enumerator.cargo, Enumerator.cargo, Enumerator.withToken]
        cases e.machine <;> rfl
      rw [hcargo, append_nil]
      exact hk.proper
    · obtain ⟨m', hm', rfl⟩ := Option.map_eq_some_iff.mp hm
      exact ⟨(he.ready m' hm').1.withToken token, (he.ready m' hm').2⟩

theorem World.Proper.learnOutcome (f : FutureId) :
    Keeps A [] w (w.learn ((w.outcome? f).toList.flatMap Outcome.values)) := by
  refine h.learn fun v hv => ?_
  obtain ⟨o, ho, hv⟩ := mem_flatMap.mp hv
  exact Outcome.proper_values (h.stocked.outcome (Option.mem_toList.mp ho)) v hv

end

namespace Desk

theorem attach_proper [host.Safe A] {callback : Callback σ P} (hw : w.Proper A []) :
    Does A [] Anything w (attach host (Task.engine host n) f callback w) := by
  show Does A [] Anything w ((if f < w.futures.size then
    some <$> Task.continueWith host n f callback else pure none) w)
  split
  · rename_i hf
    exact (Task.continueWith_proper hw hf).bind fun _ _ hk _ => ⟨.refl hk.proper, trivial⟩
  · exact ⟨.refl hw, trivial⟩

theorem settle_proper [host.Safe A] (hw : w.Proper A []) :
    Does A [] Anything w (settle (Task.engine host n) f o w) := by
  show Does A [] Anything w ((if f ∈ w.ext.sources then
    some <$> Task.settle host n f (o.mapValue w.allow) else pure none) w)
  split
  · rename_i hf
    exact (Task.settle_source hw hf (hw.stocked.allow_outcome o)).bind
      fun _ _ hk _ => ⟨.refl hk.proper, trivial⟩
  · exact ⟨.refl hw, trivial⟩

theorem start_proper [host.Safe A] (hw : w.Proper A []) :
    Does A [] Anything w (start (Task.engine host n) f w) := by
  simp only [start, get_bind]
  cases htake : w.takeTask? f with
  | none => exact ⟨.refl hw, trivial⟩
  | some p =>
    obtain ⟨hk, ht⟩ := hw.takeTask? htake
    exact .after hk (((Task.tends n).drive hk.proper ht.fresh ht.ready fun _ => ht.kind).bind
      fun _ _ hk₃ _ => ⟨.refl hk₃.proper, trivial⟩)

theorem use_proper {α : Type} {G : World (Desk σ) (Callback σ P) → α → Prop}
    {x : Enumerator → Run (Desk σ) (Callback σ P) (α × Enumerator)} {values : α → List Value}
    (hx : ∀ {e w}, Enumerator.Proper S w e → w.Proper A e.cargo → Enumerator.Comes A G w (x e w))
    (hv : ∀ {w a}, G w a → ∀ v ∈ values a, v.Proper S w) (hw : w.Proper A []) :
    Does A [] Anything w (use home x values w) := by
  simp only [use, get_bind]
  cases htake : w.takeEnumerator? home with
  | none => exact ⟨.refl hw, trivial⟩
  | some p =>
    obtain ⟨e, w₁⟩ := p
    obtain ⟨hk, he⟩ := hw.takeEnumerator? htake
    rw [append_nil] at hk
    have hc := hx he hk.proper
    simp only [set_bind]
    simp only [bind, EStateM.bind]
    cases hr : x e w₁ with
    | error _ w₂ =>
      rw [hr] at hc
      exact hc
    | ok q w₂ =>
      rw [hr] at hc
      obtain ⟨hk₂, he₂, hG⟩ := hc
      have hput : Keeps A [] w₂ (w₂.putEnumerator home q.2) :=
        World.Proper.putEnumerator (by rw [append_nil]; exact hk₂.proper) he₂
      have hlearn := hput.proper.learn fun v hmem => (hv hG v hmem).later hput.later
      exact ⟨hk.trans (hk₂.trans (hput.trans hlearn)), trivial⟩

theorem abandon_proper (hw : w.Proper A []) : Does A [] Anything w (abandon home w) := by
  simp only [abandon, get_bind]
  cases htake : w.takeEnumerator? home with
  | none => exact ⟨.refl hw, trivial⟩
  | some p =>
    obtain ⟨e, w₁⟩ := p
    obtain ⟨hk, he⟩ := hw.takeEnumerator? htake
    rw [append_nil, Enumerator.cargo] at hk
    simp only [set_bind]
    cases hm : e.machine with
    | none =>
      rw [hm] at hk
      exact ⟨hk, trivial⟩
    | some m =>
      rw [hm] at hk
      exact ⟨hk.trans hk.proper.release, trivial⟩

end Desk

theorem Program.does [host.Safe A] (hP : ∀ c, P c → c.Meets S) (p : Program σ P)
    (hw : w.Proper A []) : Does A [] (Outcome.Proper S) w (p.run host n w) := by
  -- a turn, what is done in it, and then the rest
  have hturn : ∀ {α : Type} {x : Run (Desk σ) (Callback σ P) α} {k : α → Program σ P}
      {w : World (Desk σ) (Callback σ P)}, w.Proper A [] →
      (∀ {w}, w.Proper A [] → Does A [] Anything w (x w)) →
      (∀ a {w}, w.Proper A [] → Does A [] (Outcome.Proper S) w ((k a).run host n w)) →
      Does A [] (Outcome.Proper S) w ((x >>= fun a => (k a).run host n) (w.record .host)) :=
    fun hw hx hk => .after hw.turn ((hx hw.turn.proper).bind fun a _ h _ => hk a h.proper)
  induction p generalizing w with
  | done o => exact ⟨.refl hw, hw.stocked.allow_outcome o⟩
  | consult k ih => exact .after hw.turn (ih _ hw.turn.proper)
  | remember memory k ih =>
    have hdesk := hw.turn.proper.stocked.kept
    have hk := hw.turn.trans (hw.turn.proper.desk (d := { w.ext with memory })
      ⟨hdesk.closures, hdesk.tasks, hdesk.enumerators⟩ (.refl _) rfl)
    exact .after hk (ih hk.proper)
  | source k ih =>
    have hk := hw.turn.trans hw.turn.proper.newSource
    exact .after hk (ih _ hk.proper)
  | ready o k ih =>
    have hw₁ := hw.turn.proper
    have hk := hw.turn.trans (hw₁.addSettled (hw₁.stocked.allow_outcome o))
    exact .after hk (ih _ hk.proper)
  | look f k ih =>
    have hk := hw.turn.trans (hw.turn.proper.learnOutcome f)
    exact .after hk (ih _ hk.proper)
  | attach f callback k _ ih => exact hturn hw Desk.attach_proper ih
  | settle f o k ih => exact hturn hw Desk.settle_proper ih
  | newToken k ih =>
    have hk := hw.turn.trans (hw.turn.proper.tokens (w.tokens.push false))
    exact .after hk (ih _ hk.proper)
  | cancel t k ih =>
    have hk := hw.turn.trans (hw.turn.proper.tokens (w.tokens.setIfInBounds t true))
    exact .after hk (ih hk.proper)
  | isCancelled t k ih => exact .after hw.turn (ih _ hw.turn.proper)
  | task chain args token k ih =>
    have hk := hw.turn.trans (hw.turn.proper.newTask (hP chain.1 chain.2) args token)
    exact .after hk (ih _ hk.proper)
  | start f k ih => exact hturn hw Desk.start_proper ih
  | enumerate chain args token k ih =>
    have hk := hw.turn.trans (hw.turn.proper.newEnumerator (hP chain.1 chain.2) args token)
    exact .after hk (ih _ hk.proper)
  | advance home k ih =>
    exact hturn hw (Desk.use_proper Enumerator.advance_proper Advance.proper_values) ih
  | dispose home k ih =>
    refine hturn hw (Desk.use_proper Enumerator.dispose_proper fun hG v hv => ?_) ih
    obtain ⟨f, hf, hv⟩ := mem_flatMap.mp hv
    exact Fault.proper_values (hG f (Option.mem_toList.mp hf)) v hv
  | abandon home k ih => exact hturn hw Desk.abandon_proper ih

namespace Library

section

variable (hP : ∀ c, P c → c.Meets S)
include hP

/-- Functions and callbacks of a library may be called. -/
theorem host_safe (A : Accounting S (Desk.custody σ (Callback σ P) S))
    (library : Library σ P) (n : Nat) : (library.host n).Safe A := by
  induction n with
  | zero => exact ⟨fun hw _ => A.clean hw.balanced, fun hw _ => A.clean hw.balanced⟩
  | succ n ih =>
    have hprogram : ∀ (p : Program σ P) {w}, w.Proper A [] →
        Does A [] (Outcome.Proper S) w (p.run (library.host n) n w) := fun p _ hw => p.does hP hw
    refine ⟨fun hw hargs => ?_, fun hw ho => ?_⟩
    · have hk := hw.learn hargs
      exact .after hk (hprogram _ hk.proper)
    · have hk := hw.learn (Outcome.proper_values ho)
      exact .after hk (hprogram _ hk.proper)

section

variable (library : Library σ P) (memory : σ) (p : Program σ P) (n : Nat)
  (hstart : A.Balanced [] { ext := { memory } })
include hstart

/-- Whatever a program does, the books are in order from the beginning to the end. -/
theorem perform_proper :
    Does A [] (Outcome.Proper S) { ext := { memory } } (library.perform memory p n) := by
  have hsafe := library.host_safe hP A n
  exact p.does hP ⟨⟨nofun, nofun, nofun, nofun, nofun, nofun⟩, hstart⟩

theorem leaves_clean : A.Clean (library.leaves memory p n) := by
  have hp := library.perform_proper hP memory p n hstart
  rw [leaves]
  cases hr : library.perform memory p n with
  | ok o w =>
    rw [hr] at hp
    exact A.clean hp.1.proper.balanced
  | error e w =>
    rw [hr] at hp
    exact hp

end

end

end Library

end

end Resumable

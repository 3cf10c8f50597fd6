import Resumable.Proofs.Detours

namespace Resumable

open List

variable {σ κ α β : Type}

/-! Tasks. -/

/-- A computation that in the end has in hand what it had before. -/
def Restores (x : Run σ κ α) : Prop :=
  ∀ w, (lastly (x w)).hands = w.hands

namespace Restores

theorem pure (v : α) : Restores (Pure.pure v : Run σ κ α) :=
  fun _ => rfl

theorem bind {x : Run σ κ α} {f : α → Run σ κ β} (hx : Restores x) (hf : ∀ v, Restores (f v)) :
    Restores (x >>= f) := by
  intro w
  have hw := hx w
  show (lastly (EStateM.bind x f w)).hands = w.hands
  unfold EStateM.bind
  cases hr : x w with
  | ok v w' => exact (hf v w').trans (by rw [← hw, hr]; rfl)
  | error e w' => exact (by rw [← hw, hr]; rfl)

theorem holding (x : Run σ κ α) (held : List (Holding κ)) : Restores (World.holding held x) := by
  intro w
  unfold World.holding
  cases x (w.grasp held) <;> rfl

theorem task (host : Host σ κ) (n : Nat) :
    (∀ f o, Restores (Task.settle host n f o)) ∧ (∀ f o ks, Restores (Task.deliver host n f o ks)) ∧
    (∀ m r, Restores (Task.drive host n m r)) ∧
    ∀ m vs r o, Restores (Task.finish host n m vs r o) := by
  induction n with
  | zero => exact ⟨fun _ _ _ => rfl, fun _ _ _ _ => rfl, fun _ _ _ => rfl, fun _ _ _ _ _ => rfl⟩
  | succ n ih =>
    obtain ⟨hsettle, hdeliver, hdrive, hfinish⟩ := ih
    refine ⟨fun f o w => ?_, fun f o ks => ?_, fun m r w => ?_, fun m vs r o => ?_⟩
    · cases hs : w.settle? f o with
      | none => rw [Task.settle_refused hs]; rfl
      | some p =>
        obtain ⟨ks, w'⟩ := p
        rw [Task.settle_pending hs, ((hdeliver f o ks).bind fun _ => .pure true) w']
        obtain ⟨-, -, -, -, rfl⟩ := World.settle?_some hs
        rfl
    · cases ks with
      | nil => exact .pure ()
      | cons k ks => cases k <;> exact (holding _ _).bind fun _ => hdeliver f o ks
    · have hproceed : ∀ halt (v : World σ κ), (lastly (Task.proceed host n r halt v)).hands =
          v.hands := by
        intro halt v
        cases halt with
        | awaiting f m =>
          simp only [Task.proceed]
          cases v.outcome? f with
          | some o => exact hdrive _ r v
          | none => rfl
        | completed u m => exact hfinish m [] r (.ok u) v
        | fault f m => exact hfinish m [] r (.error f) v
        | yielded u m => exact hfinish m [u] r _ v.defect
        | timeout => rfl
      rw [Task.drive_succ rfl, hproceed]
      rfl
    · exact (holding _ _).bind fun _ _ => rfl

end Restores

theorem Sources.continueWith_bind {ι : Type} (sources : Sources σ κ ι α) (f : FutureId)
    (wait : ι → World σ κ → World σ κ) (callback : ι → Outcome → Run σ κ α) (g : ι → Run σ κ β) :
    sources.continueWith f wait callback >>= g = sources.make >>= fun next => get >>= fun w =>
      match w.outcome? f with
      | none => modify (wait next) >>= fun _ => g next
      | some o => callback next o >>= fun a => sources.settle next a >>= fun _ => g next := by
  simp only [Sources.continueWith, bind_assoc]
  refine bind_congr fun next => bind_congr fun w => ?_
  cases w.outcome? f <;> simp only [bind_assoc, pure_bind]

/-- Something is done in the annex and nowhere else. -/
def Aside (x : Run (Annexed σ) κ α) : Prop :=
  ∀ w, ∃ a annex, x w = .ok a (w.withAnnex annex)

section

variable {k : Nat} {x : Run (Desk σ) κ α} {y : Run (Annexed σ) κ α}

theorem Alongside.after_aside {z : Run (Annexed σ) κ β} {y : β → Run (Annexed σ) κ α} (hz : Aside z)
    (h : ∀ b, Alongside k x (y b)) : Alongside k x (z >>= y) := by
  refine ⟨fun w hs => ?_, fun w w' hw => ?_⟩
  · obtain ⟨b, -, -⟩ := hz (w.beside {} [] [])
    exact (h b).astray w hs
  · obtain ⟨b, annex, hb⟩ := hz w'
    have heq : (z >>= y) w' = y b (w'.withAnnex annex) := by
      show EStateM.bind z y w' = _
      rw [EStateM.bind, hb]
    rw [heq]
    exact (h b).agree w _ (hw.withAnnex annex)

theorem Alongside.then_aside {x : Run (Desk σ) κ Unit} {y : Run (Annexed σ) κ Unit}
    {z : Unit → Run (Annexed σ) κ Unit} (h : Alongside k x y) (hz : Aside (z ())) :
    Alongside k x (y >>= z) := by
  refine ⟨h.astray, fun w w' hw => (h.agree w w' hw).imp_right fun hr => ?_⟩
  show SameEnd _ _ (EStateM.bind y z w')
  unfold EStateM.bind
  generalize x w = r at hr ⊢
  generalize y w' = r' at hr ⊢
  cases hr with
  | error e hv => exact .error e hv
  | @ok v v' u hv =>
    obtain ⟨_, annex, hz⟩ := hz v'
    simp only [hz]
    exact .ok _ (hv.withAnnex annex)

/-- What has one more future in hand, until it has the same again. -/
theorem Alongside.holdingMore (h : Alongside k x y) (hx : Restores x) (held : List (Holding κ)) :
    Alongside k x (World.holding held y) := by
  refine ⟨h.astray, fun w w' hw => ?_⟩
  have hmore : w.Fuller k (w'.grasp held) := by
    obtain ⟨annex, hands, history, hk, hh, hs⟩ := hw
    exact ⟨annex, held ++ hands, history, hk, hh.trans (sublist_append_right ..), hs⟩
  have hback := hx w
  refine (h.agree w _ hmore).imp_right fun hr => ?_
  unfold World.holding
  generalize x w = r at hr hback ⊢
  generalize y (w'.grasp held) = r' at hr ⊢
  have hrest : ∀ {v : World (Desk σ) κ} {v'}, v.Fuller k v' → v.hands = w.hands →
      v.Fuller k (v'.letGo w'.hands) := fun {v _} hv hb =>
    hv.letGo (hb ▸ hw.hands : v.hands.Sublist w'.hands)
  cases hr with
  | ok a hv => exact .ok a (hrest hv hback)
  | error e hv => exact .error e (hrest hv hback)

end

/-- Both engines do the same. -/
structure Engine.Alongside (k : Nat) (E : Engine (Desk σ) κ) (E' : Engine (Annexed σ) κ) :
    Prop where
  settle : ∀ f o, Resumable.Alongside k (E.settle f o) (E'.settle f o)
  deliver : ∀ f o ks, Resumable.Alongside k (E.deliver f o ks) (E'.deliver f o ks)
  drive : ∀ m r, Resumable.Alongside k (E.drive m r) (E'.drive m r)
  finish : ∀ m vs r o, Resumable.Alongside k (E.finish m vs r o) (E'.finish m vs r o)

section

variable {k : Nat} {drive : Machine → FutureId → Run (Desk σ) κ Unit}
  {drive' : Machine → FutureId → Run (Annexed σ) κ Unit}
  (hdrive : ∀ m r, Alongside k (drive m r) (drive' m r))
include hdrive

/-- A continuation that is attached to a settled future runs as the task goes on. -/
theorem alongside_await (hr : ∀ m r, Restores (drive m r)) (f : FutureId) (m : Machine)
    (r : FutureId) :
    Alongside k (Awaits.shortcut.await drive f m r) (Awaits.detour.await drive' f m r) := by
  have hwait : ∀ next, Alongside k
      (modify fun w => (w.suspend f m r).record (.waits r f) : Run (Desk σ) κ Unit)
      (modify (fun w => ((w.suspend f m r).record (.waits r f)).promise r next) >>= fun _ =>
        pure ()) := by
    refine fun next => .then_aside (.modify _ _ (fun _ hs => hs) fun w w' hw => ?_) fun w =>
      ⟨(), w.annex, rfl⟩
    have hsuspend := hw.change (·.suspend f m r) (·.suspend f m r) {}
    exact (hsuspend.record (.waits r f)).withAnnex _
  have hgo : ∀ o next, Alongside k (drive { m with resumption := some o } r)
      (World.holding [.future f] (drive' { m with resumption := some o } r) >>= fun u =>
        Annex.sources.settle next u >>= fun _ => pure ()) := fun o next =>
    ((hdrive _ r).holdingMore (hr _ r) _).then_aside fun _ => ⟨_, _, rfl⟩
  have heq : Awaits.detour.await drive' f m r = _ :=
    Annex.sources.continueWith_bind f _ _ fun _ => pure ()
  rw [heq]
  refine Alongside.after_aside (fun w => ⟨_, _, rfl⟩) fun next => .get fun w => ?_
  have hsame : ∀ w', w.Fuller k w' → w'.outcome? f = w.outcome? f := by
    rintro _ ⟨⟩
    rfl
  cases ho : w.outcome? f with
  | none => exact ⟨_, _, hwait next, rfl, fun w' hw => by rw [hsame w' hw, ho]⟩
  | some o => exact ⟨_, _, hgo o next, rfl, fun w' hw => by rw [hsame w' hw, ho]⟩

theorem alongside_resume (m : Machine) (r : FutureId) :
    Alongside k (Awaits.shortcut.resume drive m r) (Awaits.detour.resume drive' m r) := by
  refine Alongside.after_aside (z := modifyGet (·.takePromise r)) (fun w => ⟨_, _, rfl⟩)
    fun next => (hdrive m r).then_aside fun w => ?_
  cases next with
  | none => exact ⟨(), w.annex, rfl⟩
  | some next => exact ⟨_, _, rfl⟩

end

namespace Engine.Alongside

variable {k n : Nat} {host : Host (Desk σ) κ} {host' : Host (Annexed σ) κ} {E : Engine (Desk σ) κ}
  {E' : Engine (Annexed σ) κ}

theorem next (h : E.Alongside k E') (hr : ∀ m r, Restores (E.drive m r))
    (hh : host.Alongside k host') :
    (Engine.next .shortcut host n E).Alongside k (Engine.next .detour host' n E') where
  settle f o := by
    have heq : ∀ {τ : Type} (awaits : Awaits τ κ) (host : Host τ κ) (E : Engine τ κ),
        (Engine.next awaits host n E).settle f o = taking (·.settle? f o) (pure false) fun ks =>
          E.deliver f o ks >>= fun _ => pure true := by
      intro τ awaits host E
      funext w
      simp only [Engine.next, taking, get_bind]
      cases w.settle? f o <;> rfl
    rw [heq, heq]
    refine .taking (fun w annex hands history => ?_) (fun w p hs => ?_) (.pure false) fun ks =>
      (h.deliver f o ks).bind fun _ => .pure true
    · have hcell : (w.beside annex hands history).futures[f]? = w.futures[f]? := rfl
      simp only [World.settle?, hcell]
      rcases w.futures[f]? with _ | ⟨_ | _, _⟩ <;> rfl
    · obtain ⟨-, -, -, -, hv⟩ := World.settle?_some hs
      rw [hv]
      exact ⟨rfl, rfl, rfl⟩
  deliver f o ks := by
    rcases ks with _ | ⟨key, ks⟩
    · exact .pure ()
    cases key with
    | resume m r =>
      exact ((alongside_resume h.drive _ r).holding _).bind fun _ => h.deliver f o ks
    | callback key next =>
      have hcall := ((hh.callback key o).holding [.future next]).bind fun answer =>
        (h.settle next answer).bind fun _ => .pure ()
      exact (Resumable.Alongside.holding hcall _).bind fun _ => h.deliver f o ks
  drive m r := by
    have hrun : Resumable.Alongside k (Task.running host n m r) (Task.running host' n m r) :=
      Alongside.holding
        ((Resumable.Alongside.record _).bind fun _ => Machine.accord_runs hh.bond n m) _
    refine hrun.bind fun halt => ?_
    cases halt with
    | awaiting f m => exact alongside_await h.drive hr f m r
    | completed v m => exact h.finish m [] r (.ok v)
    | fault f m => exact h.finish m [] r (.error f)
    | yielded v m => exact Resumable.Alongside.defect.bind fun _ => h.finish m [v] r _
    | timeout => exact .throw _
  finish m vs r o := by
    refine ((h.settle r o).holding _).bind fun fresh =>
      .modify _ _ (fun _ hs => hs) fun w w' hw => ?_
    exact (hw.change (·.release m.home) (·.release m.home) {}).record _

/-- Whether it takes the shortcut or not makes no difference to a task. -/
theorem after (hh : host.Alongside k host') (n : Nat) :
    (Task.engine host n).Alongside k (Engine.after .detour host' n) := by
  induction n with
  | zero =>
    exact ⟨fun _ _ => .throw _, fun _ _ _ => .throw _, fun _ _ => .throw _, fun _ _ _ _ => .throw _⟩
  | succ n ih =>
    rw [← Engine.after_shortcut, Engine.after, Engine.after_shortcut]
    exact ih.next (Restores.task host n).2.2.1 hh

end Engine.Alongside

/-! What programs do at the desk. -/

variable {k n : Nat} {P : Chain → Prop}

section

variable {host : Host (Desk σ) κ} {host' : Host (Annexed σ) κ} {E : Engine (Desk σ) κ}
  {E' : Engine (Annexed σ) κ}

theorem alongside_continueWith (hh : host.Alongside k host') (h : E.Alongside k E') (f : FutureId)
    (key : κ) :
    Alongside k (host.continueWith E.settle f key) (host'.continueWith E'.settle f key) := by
  have heq : ∀ {τ : Type} (host : Host τ κ) settle, host.continueWith settle f key =
      act (·.addFuture none) >>= fun next => act (fun w => (w.outcome? f, w)) >>= fun
        | none => modify (·.await f (.callback key next)) >>= fun _ => pure next
        | some o => World.holding [.future next, .outcome o] (host.callback key o) >>= fun answer =>
          settle next answer >>= fun _ => pure next := fun host settle =>
    (bind_pure _).symm.trans (Sources.continueWith_bind _ f _ _ pure)
  rw [heq, heq]
  refine (Alongside.act _ _ {}).bind fun next => (Alongside.act _ _ {}).bind fun o => ?_
  cases o with
  | none =>
    exact (Alongside.change (·.await f (.callback key next))
      (·.await f (.callback key next)) {}).bind fun _ => .pure next
  | some o =>
    exact ((hh.callback key o).holding _).bind fun answer =>
      (h.settle next answer).bind fun _ => .pure next

theorem alongside_attach (hh : host.Alongside k host') (h : E.Alongside k E') (f : FutureId)
    (callback : κ) :
    Alongside k (Desk.attach host E f callback) (Desk.attach host' E' f callback) := by
  have hsize := Alongside.act (k := k) (fun w : World (Desk σ) κ => (w.futures.size, w))
    (fun w => (w.futures.size, w)) {}
  have hr := hsize.bind (f := fun size => if f < size then
      some <$> host.continueWith E.settle f callback else pure none)
    (g := fun size => if f < size then
      some <$> host'.continueWith E'.settle f callback else pure none) fun size => by
    split
    · exact (alongside_continueWith hh h f callback).bind fun next => .pure (some next)
    · exact .pure none
  exact hr

theorem alongside_settle (h : E.Alongside k E') (f : FutureId) (o : Outcome) :
    Alongside k (Desk.settle E f o) (Desk.settle E' f o) := by
  have hlook := Alongside.act (k := k)
    (fun w : World (Desk σ) κ => ((w.ext.sources, o.mapValue w.allow), w))
    (fun w => ((w.ext.sources, o.mapValue w.allow), w)) {}
  have hr := hlook.bind (f := fun p => if f ∈ p.1 then some <$> E.settle f p.2 else pure none)
    (g := fun p => if f ∈ p.1 then some <$> E'.settle f p.2 else pure none) fun p => by
    split
    · exact (h.settle f p.2).bind fun fresh => .pure (some fresh)
    · exact .pure none
  exact hr

theorem alongside_start (h : E.Alongside k E') (f : FutureId) :
    Alongside k (Desk.start E f) (Desk.start E' f) := by
  have heq : ∀ {τ : Type} (E : Engine (Desk τ) κ), Desk.start E f =
      taking (·.takeTask? f) (pure false) fun t =>
        E.drive t.machine t.result >>= fun _ => pure true := by
    intro τ E
    funext w
    simp only [Desk.start, taking, get_bind]
    cases w.takeTask? f <;> rfl
  rw [heq, heq]
  refine .taking (fun w annex hands history => ?_) (fun w => ?_) (.pure false) fun t =>
    (h.drive t.machine t.result).bind fun _ => .pure true
  · show (w.ext.tasks.find? (·.result == f)).bind _ = _
    simp only [World.takeTask?]
    cases w.ext.tasks.find? (·.result == f) <;> rfl
  · simp only [World.takeTask?]
    cases w.ext.tasks.find? (·.result == f)
    · rintro _ ⟨⟩
    · rintro _ ⟨⟩
      exact ⟨rfl, rfl, rfl⟩

theorem alongside_enumerator {x : Enumerator → Run (Desk σ) κ α}
    {y : Enumerator → Run (Annexed σ) κ α} {z : Run (Desk σ) κ α} {z' : Run (Annexed σ) κ α}
    (hz : Alongside k z z') (home : StorageId) (hx : ∀ e, Alongside k (x e) (y e)) :
    Alongside k (taking (·.takeEnumerator? home) z x) (taking (·.takeEnumerator? home) z' y) := by
  refine .taking (fun w annex hands history => ?_) (fun w => ?_) hz hx
  · show (w.ext.enumerators.find? (·.1 == home)).bind _ = _
    simp only [World.takeEnumerator?]
    cases w.ext.enumerators.find? (·.1 == home) <;> rfl
  · simp only [World.takeEnumerator?]
    cases w.ext.enumerators.find? (·.1 == home)
    · rintro _ ⟨⟩
    · rintro _ ⟨⟩
      exact ⟨rfl, rfl, rfl⟩

theorem Desk.use_eq (home : StorageId) (x : Enumerator → Run (Desk σ) κ (α × Enumerator))
    (values : α → List Value) : use home x values =
      taking (·.takeEnumerator? home) (pure none) fun e => x e >>= fun p =>
        modify (fun w => (w.putEnumerator home p.2).learn (values p.1)) >>= fun _ =>
          pure (some p.1) := by
  funext w
  simp only [use, taking, get_bind]
  cases w.takeEnumerator? home <;> rfl

theorem alongside_use {x : Enumerator → Run (Desk σ) κ (α × Enumerator)}
    {y : Enumerator → Run (Annexed σ) κ (α × Enumerator)} (home : StorageId)
    (values : α → List Value) (hx : ∀ e, Alongside k (x e) (y e)) :
    Alongside k (Desk.use home x values) (Desk.use home y values) := by
  rw [Desk.use_eq, Desk.use_eq]
  refine alongside_enumerator (.pure none) home fun e => (hx e).bind fun p => ?_
  exact Accord.bind (Alongside.change _ _ {}) fun _ => .pure _

theorem Desk.abandon_eq (home : StorageId) : (abandon home : Run (Desk σ) κ Bool) =
    taking (·.takeEnumerator? home) (pure false) fun e =>
      modify (fun w => e.machine.elim w (w.release ·.home)) >>= fun _ => pure true := by
  funext w
  simp only [abandon, taking, get_bind]
  cases w.takeEnumerator? home <;> rfl

theorem alongside_abandon (home : StorageId) :
    Alongside k (Desk.abandon home : Run (Desk σ) κ Bool) (Desk.abandon home) := by
  rw [Desk.abandon_eq, Desk.abandon_eq]
  refine alongside_enumerator (.pure false) home fun e => .bind ?_ fun _ => .pure true
  cases e.machine <;> exact Alongside.change _ _ {}

end

/-! Making tasks and enumerators. -/

section

variable (chain : Chain) (args : List Value) (token : Option TokenId)

/-- A machine is made of a chain and its arguments alone. -/
theorem create_beside (w : World (Desk σ) κ) (annex : Annex) (hands : List (Holding κ))
    (history : List (Instant κ)) (kind : Kind) :
    (∃ f, Machine.create chain kind args w = .error f ∧
      Machine.create chain kind args (w.beside annex hands history) = .error f) ∨
    ∃ m v, Machine.create chain kind args w = .ok (m, v) ∧
      Machine.create chain kind args (w.beside annex hands history) =
        .ok (m, v.beside annex hands history) ∧
      v.hands = w.hands ∧ v.history = w.history ∧ v.forsaken = w.forsaken := by
  simp only [Machine.create]
  split
  · exact .inl ⟨_, rfl, rfl⟩
  · split
    · exact .inl ⟨_, rfl, rfl⟩
    · exact .inr ⟨_, _, rfl, rfl, rfl, rfl, rfl⟩

theorem answers_newTask : World.Answers
    (fun w : World (Desk σ) κ => w.newTask chain args token) (·.newTask chain args token) := by
  refine .of_forall fun w annex hands history => ?_
  have hallow : World.allow (w.beside annex hands history) = w.allow := rfl
  rcases create_beside chain (args.map w.allow) w annex hands history .async with
    ⟨f, h, h'⟩ | ⟨m, v, h, h', hfacts⟩
  · simp only [World.newTask, Task.create, hallow, h, h']
    exact ⟨rfl, rfl, rfl, rfl⟩
  · simp only [World.newTask, Task.create, hallow, h, h']
    exact ⟨rfl, hfacts⟩

theorem answers_newEnumerator : World.Answers
    (fun w : World (Desk σ) κ => w.newEnumerator chain args token)
    (·.newEnumerator chain args token) := by
  refine .of_forall fun w annex hands history => ?_
  have hallow : World.allow (w.beside annex hands history) = w.allow := rfl
  rcases create_beside chain (args.map w.allow) w annex hands history .iterator with
    ⟨f, h, h'⟩ | ⟨m, v, h, h', hfacts⟩
  · simp only [World.newEnumerator, Enumerator.create, hallow, h, h']
    exact ⟨rfl, rfl, rfl, rfl⟩
  · simp only [World.newEnumerator, Enumerator.create, hallow, h, h']
    exact ⟨rfl, hfacts⟩

end

section

variable {host : Host (Desk σ) (Callback σ P)} {host' : Host (Annexed σ) (Callback σ P)}

theorem alongside_next {x : Run (Desk σ) (Callback σ P) α} {y : Run (Annexed σ) (Callback σ P) α}
    (hx : Alongside k x y) {p : α → Program σ P}
    (hp : ∀ a, Alongside k ((p a).run host n) ((p a).serve .detour host' n)) :
    Alongside k (modify (·.record .host) >>= fun _ => x >>= fun a => (p a).run host n)
      (modify (·.record .host) >>= fun _ => y >>= fun a => (p a).serve .detour host' n) :=
  (Alongside.record .host).bind fun _ => hx.bind hp

/-- Programs do the same if the functions and callbacks do. -/
theorem alongside_program (h : host.Alongside k host') (n : Nat) (p : Program σ P) :
    Alongside k (p.run host n) (p.serve .detour host' n) := by
  have hengine := Engine.Alongside.after h n
  -- what an instruction does at once, in a form that shows what it leaves alone
  have hact : ∀ {α : Type} {p : α → Program σ P}
      (g : World (Desk σ) (Callback σ P) → α × World (Desk σ) (Callback σ P))
      (g' : World (Annexed σ) (Callback σ P) → α × World (Annexed σ) (Callback σ P)),
      World.Answers g g' →
      (∀ a, Alongside k ((p a).run host n) ((p a).serve .detour host' n)) →
      Alongside k (modify (·.record .host) >>= fun _ => act g >>= fun a => (p a).run host n)
        (modify (·.record .host) >>= fun _ => act g' >>= fun a =>
          (p a).serve .detour host' n) :=
    fun g g' hg hp => alongside_next (.act g g' hg) hp
  induction p with
  | done o =>
    exact Alongside.act (fun w => (o.mapValue w.allow, w)) (fun w => (o.mapValue w.allow, w)) {}
  | consult p ih =>
    have hr := hact (fun w => (w.ext.memory, w)) (fun w => (w.ext.memory.1, w)) {} ih
    exact hr
  | remember memory p ih =>
    refine Accord.bind (.modify _ _ (fun _ hs => hs) fun w w' hw => ?_) fun _ => ih
    exact (hw.record .host).change (fun w => { w with ext := { w.ext with memory } })
      (fun w => { w with ext := { w.ext with memory := (memory, w.ext.memory.2) } }) {}
  | source p ih =>
    have hr := hact (fun w => (w.futures.size, { (w.addFuture none).2 with
        ext := { w.ext with sources := w.futures.size :: w.ext.sources } }))
      (fun w => (w.futures.size, { (w.addFuture none).2 with
        ext := { w.ext with sources := w.futures.size :: w.ext.sources } })) {} ih
    exact hr
  | ready o p ih =>
    have hr := hact (fun w => w.addFuture (some (o.mapValue w.allow)))
      (fun w => w.addFuture (some (o.mapValue w.allow))) {} ih
    exact hr
  | look f p ih =>
    have hr := hact
      (fun w => (w.outcome? f, w.learn ((w.outcome? f).toList.flatMap Outcome.values)))
      (fun w => (w.outcome? f, w.learn ((w.outcome? f).toList.flatMap Outcome.values)))
      {} ih
    exact hr
  | attach f callback p _ ih => exact alongside_next (alongside_attach h hengine f callback) ih
  | settle f o p ih => exact alongside_next (alongside_settle hengine f o) ih
  | newToken p ih =>
    have hr := hact (·.addToken) (·.addToken) {} ih
    exact hr
  | cancel t p ih =>
    refine Accord.bind (.modify _ _ (fun _ hs => hs) fun w w' hw => ?_) fun _ => ih
    exact (hw.record .host).change (·.cancel t) (·.cancel t) {}
  | isCancelled t p ih =>
    have hr := hact (fun w => (w.isCancelled t, w)) (fun w => (w.isCancelled t, w))
      {} ih
    exact hr
  | task chain args token p ih =>
    have hr := hact (·.newTask chain.1 args token) (·.newTask chain.1 args token)
      (answers_newTask chain.1 args token) ih
    exact hr
  | start f p ih => exact alongside_next (alongside_start hengine f) ih
  | enumerate chain args token p ih =>
    have hr := hact (·.newEnumerator chain.1 args token) (·.newEnumerator chain.1 args token)
      (answers_newEnumerator chain.1 args token) ih
    exact hr
  | advance home p ih =>
    exact alongside_next (alongside_use home _ (Enumerator.alongside_advance h n)) ih
  | dispose home p ih =>
    exact alongside_next (alongside_use home _ (Enumerator.alongside_dispose h n)) ih
  | abandon home p ih => exact alongside_next (alongside_abandon home) ih

end

/-- All functions and callbacks do the same, however deep they are nested. -/
theorem Library.alongside (library : Library σ P) (n : Nat) :
    (library.host n).Alongside k (library.served .detour n) := by
  induction n with
  | zero => exact ⟨fun _ _ => rfl, fun _ _ => .throw _, fun _ _ => .throw _⟩
  | succ n ih =>
    have hlearn : ∀ vs, Alongside k (modify (·.learn vs) : Run (Desk σ) (Callback σ P) Unit)
        (modify (·.learn vs)) := fun vs => .change _ _ {}
    have hcall : ∀ name args, Alongside k ((library.host (n + 1)).call name args)
        ((library.served .detour (n + 1)).call name args) := fun name args =>
      (hlearn args).bind fun _ => alongside_program ih n _
    have hback : ∀ callback o, Alongside k ((library.host (n + 1)).callback callback o)
        ((library.served .detour (n + 1)).callback callback o) := fun callback o =>
      (hlearn o.values).bind fun _ => alongside_program ih n _
    exact ⟨fun _ _ => rfl, hcall, hback⟩

/-- The shortcut of a task that awaits a settled future makes no difference. Whatever the functions
are that methods call, from whatever world it starts: a task, or a program that runs tasks, ends in
the same way if a continuation is attached to every future that is awaited, with a source of its
own in the annex, provided that no closure is called whose method has been given up while it
waited. The futures are the same, with their outcomes and those who wait on them, and so is the
memory, where functions may write down how they are called. On the way the same has happened, in the
same order and with the same futures each time. -/
theorem shortcut_agrees {σ : Type} {P : Chain → Prop} (library : Library σ P) (depth n : Nat)
    (w : World (Desk σ) (Callback σ P)) (annex : Annex) :
    (∀ m r, (lastly (Task.drive (library.host depth) n m r w)).forsaken = w.forsaken →
      SameEnd (World.Fuller w.forsaken) (Task.drive (library.host depth) n m r w)
        ((Engine.after .detour (library.served .detour depth) n).drive m r
          (w.beside annex w.hands w.history))) ∧
    ∀ p : Program σ P, (lastly (p.run (library.host depth) n w)).forsaken = w.forsaken →
      SameEnd (World.Fuller w.forsaken) (p.run (library.host depth) n w)
        (p.serve .detour (library.served .detour depth) n
          (w.beside annex w.hands w.history)) := by
  have hhost := library.alongside (k := w.forsaken) depth
  have hstart := World.Fuller.start w annex
  refine ⟨fun m r hs => ?_, fun p hs => ?_⟩
  · have hdrive := (Engine.Alongside.after hhost n).drive m r
    exact (hdrive.agree w _ hstart).resolve_left (Nat.not_lt.mpr hs.le)
  · have hrun := alongside_program hhost n p
    exact (hrun.agree w _ hstart).resolve_left (Nat.not_lt.mpr hs.le)

/-! A method that is given up. -/

/-- What functions remember: a future, and a closure. -/
structure Pockets where
  future : Value := .unit
  closure : Value := .unit

/-- The memory is all that they keep. -/
def pocketLibrary (P : Chain → Prop) : Library Pockets P where
  call
    | "keep", [v] => .consult fun s => .remember { s with closure := v } (.done (.ok .unit))
    | "kept", [] => .consult fun s => .done (.ok s.closure)
    | "future", [] => .consult fun s => .done (.ok s.future)
    | "drop", [] => .consult fun s => .remember { s with future := .unit } (.done (.ok .unit))
    | "ready", [v] => .ready (.ok v) fun f => .done (.ok (.future f))
    | _, _ => .done (.ok .unit)
  keeps desk := [.values [desk.memory.future, desk.memory.closure]]

/-- The future that functions remember. -/
def rememberedFuture : Expr :=
  .call {} (.var {} "future") []

/-- A settled future with a value. -/
def readyFuture (e : Expr) : Expr :=
  .call {} (.var {} "ready") [e]

/-- It gives away a closure over its variable and awaits a future. -/
def lender (awaited : Expr) : Method :=
  { name := "lender", params := [],
    body :=
      [.bind {} "x" (.int {} 41),
        .eval {} (.call {} (.var {} "keep") [.lambda {} [] [.ret {} (some (.var {} "x"))]]),
        .eval {} (.await {} awaited), .ret {} (some (.var {} "x"))] }

/-- It awaits a settled future, whose value is the future on which the other may wait, and then
calls the closure. -/
def borrower (before : Block) : Method :=
  { name := "borrower", params := [],
    body :=
      .eval {} (.await {} (readyFuture rememberedFuture)) ::
        (before ++ [.bind {} "c" (.call {} (.var {} "kept") []),
          .ret {} (some (.call {} (.var {} "c") []))]) }

/-- The chain of a method that can be split. -/
def Method.chain (m : Method) : Chain :=
  match m.split 20 with
  | .ok (some c) => c
  | _ => { name := m.name, kind := .async, states := [], handlers := [], captures := ⟨[]⟩,
           params := [] }

/-- A lender and then a borrower are started. -/
def lending (awaited : Expr) (before : Block) : Program Pockets fun _ => True :=
  .source fun f => .remember { future := .future f } <|
    .task ⟨(lender awaited).chain, trivial⟩ [] none fun
      | .error e => .done (.error e)
      | .ok first => .start first fun _ => .task ⟨(borrower before).chain, trivial⟩ [] none fun
        | .error e => .done (.error e)
        | .ok second => .start second fun _ => .look second fun o => .done (o.getD (.ok .unit))

/-- The closure may be that of a lender that waits, or that of one that has ended, where it finds no
storage. -/
theorem lending_agrees :
    let w : World (Desk Pockets) (Callback Pockets fun _ => True) := { ext := { memory := {} } }
    let plain (awaited : Expr) := (lending awaited []).run ((pocketLibrary _).host 3) 14 w
    let detour (awaited : Expr) := (lending awaited []).serve .detour
      ((pocketLibrary _).served .detour 3) 14 (w.beside {} [] [])
    ((lastly (plain rememberedFuture)).forsaken = 0 ∧
      SameEnd (World.Fuller 0) (plain rememberedFuture) (detour rememberedFuture)) ∧
    (lastly (plain (readyFuture (.int {} 1)))).strays = 1 ∧
      (lastly (plain (readyFuture (.int {} 1)))).forsaken = 0 ∧
      SameEnd (World.Fuller 0) (plain (readyFuture (.int {} 1)))
        (detour (readyFuture (.int {} 1))) := by
  intro w plain detour
  have hagree : ∀ awaited, (lastly (plain awaited)).forsaken = 0 →
      SameEnd (World.Fuller 0) (plain awaited) (detour awaited) := fun awaited h =>
    (shortcut_agrees (pocketLibrary _) 3 14 w {}).2 (lending awaited []) h
  have hwaits : (lastly (plain rememberedFuture)).forsaken = 0 := by decide +kernel
  have hstrays : (lastly (plain (readyFuture (.int {} 1)))).strays = 1 := by decide +kernel
  have hends : (lastly (plain (readyFuture (.int {} 1)))).forsaken = 0 := by decide +kernel
  exact ⟨⟨hwaits, hagree _ hwaits⟩, hstrays, hends, hagree _ hends⟩

/-- The answer is a number, or the text of an internal fault. -/
def shown {τ : Type} : EStateM.Result Timeout τ Outcome → Option (Int64 ⊕ String)
  | .ok (.ok (.int k)) _ => some (.inl k)
  | .ok (.error (.internal text)) _ => some (.inr text)
  | _ => none

/-- When the borrower first drops the last other reference to the future on which the lender waits,
the lender is given up, and its closure finds no storage. Behind a continuation, the future that has
been awaited is still in hand, and with it that reference. -/
theorem dropped_lender_differs :
    let w : World (Desk Pockets) (Callback Pockets fun _ => True) := { ext := { memory := {} } }
    let p := lending rememberedFuture [.eval {} (.call {} (.var {} "drop") [])]
    shown (p.run ((pocketLibrary _).host 3) 14 w) = some (.inr "no storage for slot $0") ∧
      shown (p.serve .detour ((pocketLibrary _).served .detour 3) 14 (w.beside {} [] [])) =
        some (.inl 41) := by
  decide +kernel

end Resumable

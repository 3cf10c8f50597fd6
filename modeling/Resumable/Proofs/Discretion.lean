import Resumable.Proofs.Locality

namespace Resumable

open List

section

variable {ε τ τ' α β : Type} {S : τ → Prop} {R : τ → τ' → Prop}

/-- Both end in the same way, in related states. -/
inductive SameEnd (R : τ → τ' → Prop) :
    EStateM.Result ε τ α → EStateM.Result ε τ' α → Prop where
  | ok {s : τ} {s' : τ'} (v : α) (h : R s s') : SameEnd R (.ok v s) (.ok v s')
  | error {s : τ} {s' : τ'} (e : ε) (h : R s s') : SameEnd R (.error e s) (.error e s')

/-- From related states, both end in the same way and in related states. -/
def Agree (R : τ → τ' → Prop) (x : EStateM ε τ α) (y : EStateM ε τ' α) : Prop :=
  ∀ s s', R s s' → SameEnd R (x s) (y s')

theorem Agree.pure (v : α) : Agree R (Pure.pure v : EStateM ε τ α) (Pure.pure v) :=
  fun _ _ h => .ok v h

/-- Something is done before and undone after, whichever way it ends. -/
def within (g : τ → τ) (k : τ → τ → τ) (x : EStateM ε τ α) : EStateM ε τ α := fun s =>
  match x (g s) with
  | .ok v t => .ok v (k s t)
  | .error e t => .error e (k s t)

/-- From related states, both end in the same way and in related states, unless the first has gone
astray. From there nothing leads back. -/
structure Accord (S : τ → Prop) (R : τ → τ' → Prop) (x : EStateM ε τ α) (y : EStateM ε τ' α) :
    Prop where
  astray : ∀ s, S s → S (lastly (x s))
  agree : ∀ s s', R s s' → S (lastly (x s)) ∨ SameEnd R (x s) (y s')

theorem bind_eq_thenDo (x : EStateM ε τ α) (f : α → EStateM ε τ β) : x >>= f =
    thenDo x fun | .ok v => f v | .error e => throw e := by
  funext s
  show EStateM.bind x f s = _
  unfold EStateM.bind thenDo
  cases x s <;> rfl

namespace Accord

/-- Nothing ever goes astray. -/
theorem agrees {x : EStateM ε τ α} {y : EStateM ε τ' α} (h : Accord (fun _ => False) R x y) :
    Agree R x y :=
  fun s s' hs => (h.agree s s' hs).resolve_left id

theorem pure (v : α) : Accord S R (Pure.pure v : EStateM ε τ α) (Pure.pure v) :=
  ⟨fun _ h => h, fun _ _ h => .inr (.ok v h)⟩

theorem throw (e : ε) : Accord S R (MonadExcept.throw e : EStateM ε τ α) (MonadExcept.throw e) :=
  ⟨fun _ h => h, fun _ _ h => .inr (.error e h)⟩

theorem thenDo {ε' : Type} {x : EStateM ε τ α} {y : EStateM ε τ' α}
    {k : Except ε α → EStateM ε' τ β} {l : Except ε α → EStateM ε' τ' β} (hx : Accord S R x y)
    (hk : ∀ r, Accord S R (k r) (l r)) : Accord S R (thenDo x k) (Resumable.thenDo y l) := by
  have hgone : ∀ s, S (lastly (x s)) → S (lastly (Resumable.thenDo x k s)) := by
    intro s
    unfold Resumable.thenDo
    cases x s with
    | ok v b => exact (hk (.ok v)).astray b
    | error e b => exact (hk (.error e)).astray b
  refine ⟨fun s h => hgone s (hx.astray s h), fun s s' h => ?_⟩
  rcases hx.agree s s' h with hs | hr
  · exact .inl (hgone s hs)
  · unfold Resumable.thenDo
    generalize x s = r at hr ⊢
    generalize y s' = r' at hr ⊢
    cases hr with
    | ok v h => exact (hk (.ok v)).agree _ _ h
    | error e h => exact (hk (.error e)).agree _ _ h

theorem bind {x : EStateM ε τ α} {y : EStateM ε τ' α} {f : α → EStateM ε τ β}
    {g : α → EStateM ε τ' β} (hx : Accord S R x y) (hf : ∀ v, Accord S R (f v) (g v)) :
    Accord S R (x >>= f) (y >>= g) := by
  rw [bind_eq_thenDo, bind_eq_thenDo]
  refine hx.thenDo fun r => ?_
  match r with
  | .ok v => exact hf v
  | .error e => exact .throw e

theorem modify (g : τ → τ) (g' : τ' → τ') (hs : ∀ s, S s → S (g s))
    (hr : ∀ s s', R s s' → R (g s) (g' s')) :
    Accord S R (modify g : EStateM ε τ PUnit) (modify g') :=
  ⟨hs, fun s s' h => .inr (.ok _ (hr s s' h))⟩

theorem within {x : EStateM ε τ α} {y : EStateM ε τ' α} {g : τ → τ} {g' : τ' → τ'}
    {k : τ → τ → τ} {k' : τ' → τ' → τ'} (hx : Accord S R x y) (hg : ∀ s, S s → S (g s))
    (hg' : ∀ s s', R s s' → R (g s) (g' s')) (hk : ∀ s t, S t → S (k s t))
    (hk' : ∀ s s' t t', R s s' → R t t' → R (k s t) (k' s' t')) :
    Accord S R (within g k x) (Resumable.within g' k' y) := by
  have hgone : ∀ s, S (lastly (x (g s))) → S (lastly (Resumable.within g k x s)) := by
    intro s
    unfold Resumable.within
    cases x (g s) <;> exact hk s _
  refine ⟨fun s h => hgone s (hx.astray _ (hg s h)), fun s s' h => ?_⟩
  rcases hx.agree _ _ (hg' s s' h) with hs | hr
  · exact .inl (hgone s hs)
  · unfold Resumable.within
    generalize x (g s) = r at hr ⊢
    generalize y (g' s') = r' at hr ⊢
    cases hr with
    | ok v ht => exact .inr (.ok v (hk' _ _ _ _ h ht))
    | error e ht => exact .inr (.error e (hk' _ _ _ _ h ht))

theorem get {f : τ → EStateM ε τ α} {g : τ' → EStateM ε τ' α} (hf : ∀ s, ∃ x y, Accord S R x y ∧
      f s s = x s ∧ ∀ s', R s s' → g s' s' = y s') :
    Accord S R (MonadState.get >>= f) (MonadState.get >>= g) := by
  refine ⟨fun s h => ?_, fun s s' h => ?_⟩
  · obtain ⟨x, y, hxy, hx, -⟩ := hf s
    show S (lastly (f s s))
    rw [hx]
    exact hxy.astray s h
  · obtain ⟨x, y, hxy, hx, hy⟩ := hf s
    show S (lastly (f s s)) ∨ SameEnd R (f s s) (g s' s')
    rw [hx, hy s' h]
    exact hxy.agree s s' h

end Accord

end

/-! What code does to the world. -/

variable {σ σ' κ : Type}

/-- The world of another host. -/
def World.withExt {τ : Type} (w : World σ κ) (ext : τ) : World τ κ :=
  { futures := w.futures, storages := w.storages, tokens := w.tokens, closures := w.closures,
    defects := w.defects, strays := w.strays, forsaken := w.forsaken, accesses := w.accesses,
    history := w.history, hands := w.hands, ext }

/-- A relation between worlds that code keeps, whatever it does, and does not see through, unless
something has gone astray. That can only be when a closure finds its method given up. -/
structure World.Bond (S : World σ κ → Prop) (host : Host σ κ) (host' : Host σ' κ)
    (R : World σ κ → World σ' κ → Prop) : Prop where
  load : ∀ {w w'}, R w w' → ∀ home k, w'.load? home k = w.load? home k
  status : ∀ {w w'}, R w w' → w'.status = w.status
  closures : ∀ {w w'}, R w w' → w'.closures = w.closures
  tokens : ∀ {w w'}, R w w' → w'.tokens = w.tokens
  defect : ∀ {w w'}, R w w' → R w.defect w'.defect
  note : ∀ {w w'}, R w w' → ∀ x, R (w.note x) (w'.note x)
  store : ∀ {w w'}, R w w' → ∀ home k v, R (w.store home k v) (w'.store home k v)
  closure : ∀ {w w'}, R w w' → ∀ k, R { w with closures := k } { w' with closures := k }
  grasp : ∀ {w w'}, R w w' → ∀ held, R (w.grasp held) (w'.grasp held)
  letGo : ∀ {w w' v v'}, R w w' → R v v' → R (v.letGo w.hands) (v'.letGo w'.hands)
  release : ∀ {w w'}, R w w' → ∀ home, R (w.release home) (w'.release home)
  call : ∀ name args, Accord S R (host.call name args) (host'.call name args)
  -- a closure starts
  start : ∀ {w w'}, R w w' → ∀ home held held',
    S ((((((w.grasp held).visit host home).letGo w.hands).callOver home).grasp held').retain
      home) ∨
    R ((((((w.grasp held).visit host home).letGo w.hands).callOver home).grasp held').retain home)
      ((((((w'.grasp held).visit host' home).letGo w'.hands).callOver home).grasp held').retain
        home)
  astray : ∀ {w w'}, S w → w.forsaken ≤ w'.forsaken → S w'

theorem World.holding_eq {α : Type} (held : List (Holding κ)) (x : Run σ κ α) :
    World.holding held x = within (·.grasp held) (fun w v => v.letGo w.hands) x := by
  funext w
  simp only [World.holding, within]
  cases x (w.grasp held) <;> rfl

theorem World.Bond.holding {α : Type} {S : World σ κ → Prop} {host : Host σ κ} {host' : Host σ' κ}
    {R : World σ κ → World σ' κ → Prop} (B : World.Bond S host host' R) {x : Run σ κ α}
    {y : Run σ' κ α} (h : Accord S R x y) (held : List (Holding κ)) :
    Accord S R (World.holding held x) (World.holding held y) := by
  rw [World.holding_eq, World.holding_eq]
  exact h.within (fun _ hs => B.astray hs (Nat.le_refl _)) (fun _ _ hw => B.grasp hw held)
    (fun _ _ hs => B.astray hs (Nat.le_refl _)) fun _ _ _ _ hw hv => B.letGo hw hv

/-- A closure that starts may find its method given up. -/
theorem World.forsaken_start (w : World σ κ) (host : Host σ κ) (home : StorageId)
    (held held' : List (Holding κ)) : w.forsaken ≤
      ((((((w.grasp held).visit host home).letGo w.hands).callOver home).grasp held').retain
        home).forsaken := by
  have hvisit : w.forsaken ≤ ((w.grasp held).visit host home).forsaken := by
    unfold visit
    split
    · exact Nat.le_succ _
    · exact Nat.le_refl _
  show w.forsaken ≤ ((((w.grasp held).visit host home).letGo w.hands).callOver home).forsaken
  unfold callOver
  split <;> exact hvisit

/-- Activations that differ in nothing but their worlds, and those are related. -/
inductive Activation.Over (R : World σ κ → World σ' κ → Prop) (a : Activation σ κ) :
    Activation σ' κ → Prop where
  | intro (world : World σ' κ) (h : R a.world world) : Over R a { a with world }

theorem Activation.Over.world {R : World σ κ → World σ' κ → Prop} {a : Activation σ κ}
    {b : Activation σ' κ} (h : a.Over R b) : R a.world b.world := by
  cases h with
  | intro w h => exact h

/-! The evaluator. -/

namespace Eval

/-- Code that ends in the same way in related worlds, and leaves them related, unless something has
gone astray. -/
abbrev Respects {ε α : Type} (S : World σ κ → Prop) (R : World σ κ → World σ' κ → Prop)
    (x : EStateM ε (Activation σ κ) α) (y : EStateM ε (Activation σ' κ) α) : Prop :=
  Accord (fun a => S a.world) (Activation.Over R) x y

variable {α : Type} {S : World σ κ → Prop} {host : Host σ κ} {host' : Host σ' κ}
  {home : StorageId} {R : World σ κ → World σ' κ → Prop}

theorem respects_get (o : Outcome) : Respects S R (o.get : EvalM σ κ Value) o.get := by
  cases o with
  | ok v => exact .pure v
  | error f => exact .throw _

section

variable (B : World.Bond S host host' R)
include B

theorem respects_broken (text : String) :
    Respects S R (broken text : EvalM σ κ α) (broken text) := by
  refine ⟨fun a h => B.astray h (Nat.le_refl _), ?_⟩
  rintro a _ ⟨w', h⟩
  exact .inr (.error _ ⟨_, B.defect h⟩)

theorem respects_note (x : Access) : Respects S R (note x : EvalM σ κ Unit) (note x) := by
  refine ⟨fun a h => B.astray h (Nat.le_refl _), ?_⟩
  rintro a _ ⟨w', h⟩
  exact .inr (.ok () ⟨_, B.note h x⟩)

theorem respects_missing (name : String) :
    Respects S R (missing name : EvalM σ κ α) (missing name) :=
  (respects_note B _).bind fun _ => .throw _

theorem respects_load (k : Slot) :
    Respects S R (load home k : EvalM σ κ Value) (load home k) := by
  refine (respects_note B _).bind fun _ => .get fun a => ?_
  cases hk : a.world.load? home k with
  | some v =>
    refine ⟨_, _, .pure v, rfl, ?_⟩
    rintro _ ⟨w', ha⟩
    simp only [B.load ha, hk]
  | none =>
    refine ⟨_, _, respects_broken B _, rfl, ?_⟩
    rintro _ ⟨w', ha⟩
    simp only [B.load ha, hk]
    rfl

theorem respects_store (k : Slot) (v : Value) :
    Respects S R (store home k v : EvalM σ κ Unit) (store home k v) := by
  refine .get fun a => ?_
  cases hk : a.world.load? home k with
  | some old =>
    refine ⟨_, _, .modify (fun a => { a with world := a.world.store home k v })
      (fun a => { a with world := a.world.store home k v })
      (fun a h => B.astray h (Nat.le_refl _)) ?_, rfl, ?_⟩
    · rintro a _ ⟨w', ha⟩
      exact ⟨_, B.store ha home k v⟩
    · rintro _ ⟨w', ha⟩
      simp only [B.load ha, hk]
      rfl
  | none =>
    refine ⟨_, _, respects_broken B _, rfl, ?_⟩
    rintro _ ⟨w', ha⟩
    simp only [B.load ha, hk]
    rfl

theorem respects_readVar (name : String) :
    Respects S R (readVar name : EvalM σ κ Value) (readVar name) := by
  refine .get fun a => ?_
  cases hx : a.frame.get? name with
  | some v =>
    refine ⟨_, _, .pure v, rfl, ?_⟩
    rintro _ ⟨w', -⟩
    simp only [hx]
  | none =>
    refine ⟨_, _, respects_missing B name, rfl, ?_⟩
    rintro _ ⟨w', -⟩
    simp only [hx]

theorem respects_assign (name : String) (v : Value) :
    Respects S R (assign name v : EvalM σ κ Unit) (assign name v) := by
  refine .get fun a => ?_
  cases hx : a.frame.assign? name v with
  | some frame =>
    refine ⟨_, _, .modify (fun a => { a with frame }) (fun a => { a with frame }) (fun _ h => h) ?_,
      rfl, ?_⟩
    · rintro a _ ⟨w', ha⟩
      exact .intro (a := { a with frame }) w' ha
    · rintro _ ⟨w', -⟩
      simp only [hx]
      rfl
  | none =>
    refine ⟨_, _, respects_missing B name, rfl, ?_⟩
    rintro _ ⟨w', -⟩
    simp only [hx]

theorem respects_makeClosure (ps : List String) (b : Block) :
    Respects S R (makeClosure home ps b : EvalM σ κ Value) (makeClosure home ps b) := by
  refine ⟨fun a h => B.astray h (Nat.le_refl _), ?_⟩
  rintro a _ ⟨w', ha⟩
  refine .inr ?_
  simp only [makeClosure, get_bind, B.closures ha]
  exact .ok _ ⟨_, B.closure ha _⟩

theorem respects_receive : Respects S R (receive : EvalM σ κ Value) receive := by
  refine .get fun a => ?_
  cases ho : a.resumption with
  | some o =>
    refine ⟨_, _, (Accord.modify (fun a => { a with resumption := none })
      (fun a => { a with resumption := none }) (fun _ h => h) ?_).bind fun _ => respects_get o, rfl,
      ?_⟩
    · rintro a _ ⟨w', ha⟩
      exact .intro (a := { a with resumption := none }) w' ha
    · rintro _ ⟨w', -⟩
      simp only [ho]
      rfl
  | none =>
    refine ⟨_, _, respects_broken B _, rfl, ?_⟩
    rintro _ ⟨w', -⟩
    simp only [ho]

theorem respects_callHost (name : String) (args : List Value) :
    Respects S R (callHost host name args) (callHost host' name args) := by
  have hafter : ∀ a : Activation σ κ, S (lastly (World.holding
        [.values args, .evaluation a.frame a.resumption a.operands] (host.call name args)
        a.world)) →
      S (lastly (callHost host name args a)).world := by
    rintro ⟨frame, resumption, operands, w⟩
    simp only [callHost]
    cases World.holding [.values args, .evaluation frame resumption operands]
        (host.call name args) w with
    | ok o w =>
      exact (respects_get (R := R) o).astray ⟨frame, resumption, operands, w⟩
    | error e w => exact id
  refine ⟨fun a h => hafter a ((B.holding (B.call name args) _).astray _ h), ?_⟩
  rintro a _ ⟨w', ha⟩
  rcases (B.holding (B.call name args)
    [.values args, .evaluation a.frame a.resumption a.operands]).agree _ _ ha with hs | hr
  · exact .inl (hafter a hs)
  · obtain ⟨frame, resumption, operands, w⟩ := a
    simp only [callHost]
    generalize World.holding [.values args, .evaluation frame resumption operands]
      (host.call name args) w = r at hr ⊢
    generalize World.holding [.values args, .evaluation frame resumption operands]
      (host'.call name args) w' = r' at hr ⊢
    cases hr with
    | ok o h => exact (respects_get o).agree _ _ ⟨_, h⟩
    | error e h => exact .inr (.error _ ⟨_, h⟩)

theorem astray_afterwards {a : Activation σ κ} {r : EStateM.Result Exit (Activation σ κ) Unit}
    (h : S (lastly r).world) : S (lastly (afterwards home a r)).world := by
  cases r with
  | ok v b => exact B.astray h (Nat.le_refl _)
  | error e b => cases e <;> exact B.astray h (Nat.le_refl _)

theorem respects_enter {x : ExecM σ κ Unit} {y : ExecM σ' κ Unit} (params : List String)
    (env : List (String × Value)) (args : List Value) (hx : Respects S R x y) :
    Respects S R (enter host params env home args x) (enter host' params env home args y) := by
  refine ⟨fun a h => ?_, ?_⟩
  · rw [enter_eq]
    split
    · exact h
    · exact astray_afterwards B (hx.astray _ (B.astray h (World.forsaken_start ..)))
  rintro a _ ⟨w', ha⟩
  rw [enter_eq, enter_eq]
  split
  · exact .inr (.error _ ⟨_, ha⟩)
  rcases B.start ha home (.evaluation ((Frame.mk [[], env]).defineAll (params.zip args)) none [] ::
      [.values (env.map (·.2)), .evaluation a.frame a.resumption a.operands])
      (.storage home :: [.values (env.map (·.2)), .evaluation a.frame a.resumption a.operands])
    with hs | hin
  · exact .inl (astray_afterwards B (hx.astray (inside host params env home args a) hs))
  have hin : Activation.Over R (inside host params env home args a)
      (inside host' params env home args { a with world := w' }) := .intro _ hin
  rcases hx.agree _ _ hin with hs | hr
  · exact .inl (astray_afterwards B hs)
  generalize x (inside host params env home args a) = r at hr ⊢
  generalize y (inside host' params env home args { a with world := w' }) = r' at hr ⊢
  refine .inr ?_
  cases hr with
  | @ok b _ v h =>
    cases h with
    | intro w h => exact .ok _ ⟨_, B.letGo ha (B.release h home)⟩
  | @error b _ e h =>
    cases h with
    | intro w h =>
      have ht : w.status = b.world.status := B.status h
      have hw := B.letGo ha (B.release h home)
      cases e with
      | ret v => exact .ok v ⟨_, hw⟩
      | stop s => exact .error s ⟨_, hw⟩
      | brk | cont => exact .error _ ⟨_, B.defect hw⟩

end

theorem respects_define (name : String) (v : Value) :
    Respects S R (define name v : EvalM σ κ Unit) (define name v) := by
  refine .modify _ _ (fun _ h => h) ?_
  rintro a _ ⟨w', ha⟩
  exact .intro (a := { a with frame := a.frame.define name v }) w' ha

theorem keeping_eq {ε : Type} (vs : List Value) (x : EStateM ε (Activation σ κ) α) :
    keeping vs x = within (fun a => { a with operands := vs ++ a.operands })
      (fun a b => { b with operands := a.operands }) x := by
  funext a
  simp only [keeping, within]
  cases x { a with operands := vs ++ a.operands } <;> rfl

theorem respects_keeping {ε : Type} {x : EStateM ε (Activation σ κ) α}
    {y : EStateM ε (Activation σ' κ) α} (hx : Respects S R x y) (vs : List Value) :
    Respects S R (keeping vs x) (keeping vs y) := by
  rw [keeping_eq, keeping_eq]
  refine hx.within (fun _ h => h) ?_ (fun _ _ h => h) ?_
  · rintro a _ ⟨w', ha⟩
    exact .intro (a := { a with operands := vs ++ a.operands }) w' ha
  · rintro a _ b _ ⟨w', -⟩ ⟨v', hb⟩
    exact .intro (a := { b with operands := a.operands }) v' hb

theorem lift_eq (x : EvalM σ κ α) :
    x.lift = thenDo x fun | .ok v => pure v | .error e => throw (.stop e) := by
  funext a
  unfold EvalM.lift EStateM.adaptExcept thenDo
  cases x a <;> rfl

theorem respects_lift {x : EvalM σ κ α} {y : EvalM σ' κ α} (hx : Respects S R x y) :
    Respects S R x.lift y.lift := by
  rw [lift_eq, lift_eq]
  refine hx.thenDo fun r => ?_
  cases r with
  | ok v => exact .pure v
  | error e => exact .throw _

section

variable {x y : ExecM σ κ Unit} {x' y' : ExecM σ' κ Unit}

theorem inScope_eq (x : ExecM σ κ Unit) : inScope x =
    within (fun a => { a with frame := a.frame.push })
      (fun _ b => { b with frame := b.frame.pop }) x := by
  funext a
  simp only [inScope, within]
  cases x { a with frame := a.frame.push } <;> rfl

section

variable (hx : Respects S R x x')
include hx

theorem respects_inScope : Respects S R (inScope x) (inScope x') := by
  rw [inScope_eq, inScope_eq]
  refine hx.within (fun _ h => h) ?_ (fun _ _ h => h) ?_
  · rintro a _ ⟨w', ha⟩
    exact .intro (a := { a with frame := a.frame.push }) w' ha
  · rintro a _ b _ - ⟨v', hb⟩
    exact .intro (a := { b with frame := b.frame.pop }) v' hb

theorem respects_rescue {f : Value → ExecM σ κ Unit} {f' : Value → ExecM σ' κ Unit}
    (hf : ∀ v, Respects S R (f v) (f' v)) : Respects S R (rescue x f) (rescue x' f') := by
  rw [rescue_eq, rescue_eq]
  refine hx.thenDo fun r => ?_
  match r with
  | .error (.stop (.fault e)) => exact respects_keeping (hf _) _
  | .error (.stop .timeout) | .error .brk | .error .cont | .error (.ret v) => exact .throw _
  | .ok () => exact .pure _

theorem respects_ensuring (hy : Respects S R y y') :
    Respects S R (ensuring x y) (ensuring x' y') := by
  rw [ensuring_eq, ensuring_eq]
  refine hx.thenDo fun r => ?_
  match r with
  | .error (.stop .timeout) => exact .throw _
  | .error (.stop (.fault _)) | .error .brk | .error .cont | .error (.ret v) =>
    exact (respects_keeping hy _).bind fun _ => .throw _
  | .ok () => exact hy

theorem respects_turn (hy : Respects S R y y') : Respects S R (turn x y) (turn x' y') := by
  rw [turn_eq, turn_eq]
  refine hx.thenDo fun r => ?_
  match r with
  | .ok () | .error .cont => exact hy
  | .error .brk => exact .pure _
  | .error (.stop _) | .error (.ret v) => exact .throw _

end

end

/-- All parts of the evaluator respect the relation. -/
structure Blind (S : World σ κ → Prop) (R : World σ κ → World σ' κ → Prop) (host : Host σ κ)
    (host' : Host σ' κ) (n : Nat) : Prop where
  expr : ∀ home e, Respects S R (evalExpr host home n e) (evalExpr host' home n e)
  test : ∀ home e, Respects S R (evalTest host home n e) (evalTest host' home n e)
  args : ∀ home es, Respects S R (evalArgs host home n es) (evalArgs host' home n es)
  value : ∀ home v es, Respects S R (applyValue host home n v es) (applyValue host' home n v es)
  stmt : ∀ home s, Respects S R (execStmt host home n s) (execStmt host' home n s)
  block : ∀ home ss, Respects S R (execBlock host home n ss) (execBlock host' home n ss)

namespace Blind

variable {n : Nat} (h : Blind S R host host' n) (B : World.Bond S host host' R)
include h

theorem binary (m : Mark) (op : BinaryOp) (l r : Expr) :
    Respects S R (evalExpr host home (n + 1) (.binary m op l r))
      (evalExpr host' home (n + 1) (.binary m op l r)) := by
  cases op with
  | and =>
    simp only [evalExpr]
    refine (h.test home l).bind fun b => ?_
    cases b
    · exact .pure _
    · exact (h.test home r).bind fun _ => .pure _
  | or =>
    simp only [evalExpr]
    refine (h.test home l).bind fun b => ?_
    cases b
    · exact (h.test home r).bind fun _ => .pure _
    · exact .pure _
  | _ =>
    simp only [evalExpr]
    exact (h.expr home l).bind fun v =>
      (respects_keeping (h.expr home r) [v]).bind fun u => respects_get _

include B in
theorem call (m : Mark) (c : Expr) (es : List Expr) :
    Respects S R (evalExpr host home (n + 1) (.call m c es))
      (evalExpr host' home (n + 1) (.call m c es)) := by
  cases c with
  | var m' x =>
    simp only [evalExpr]
    refine .get fun a => ?_
    cases hx : a.frame.get? x with
    | none =>
      refine ⟨_, _, (h.args home es).bind fun args => respects_callHost B x args, rfl, ?_⟩
      rintro _ ⟨w', -⟩
      simp only [hx]
    | some v =>
      refine ⟨_, _, h.value home v es, rfl, ?_⟩
      rintro _ ⟨w', -⟩
      simp only [hx]
  | _ =>
    rw [evalExpr, evalExpr]
    · exact (h.expr home _).bind fun v => h.value home v es
    all_goals simp

include B in
theorem next_expr (e : Expr) :
    Respects S R (evalExpr host home (n + 1) e) (evalExpr host' home (n + 1) e) := by
  cases e with
  | unit | bool | int | str =>
    simp only [evalExpr]
    exact .pure _
  | var m x =>
    simp only [evalExpr]
    exact respects_readVar B x
  | captured m k =>
    simp only [evalExpr]
    exact respects_load B k
  | binary m op l r => exact h.binary m op l r
  | unary m op e =>
    simp only [evalExpr]
    exact (h.expr home e).bind fun v => respects_get _
  | call m c es => exact h.call B m c es
  | lambda m ps b =>
    simp only [evalExpr]
    exact respects_makeClosure B ps b
  | resume m =>
    simp only [evalExpr]
    exact respects_receive B
  | await m e =>
    simp only [evalExpr]
    exact respects_broken B _

theorem next_test (e : Expr) :
    Respects S R (evalTest host home (n + 1) e) (evalTest host' home (n + 1) e) := by
  simp only [evalTest]
  refine (h.expr home e).bind fun v => ?_
  cases v.test with
  | ok b => exact .pure _
  | error f => exact .throw _

theorem next_args (es : List Expr) :
    Respects S R (evalArgs host home (n + 1) es) (evalArgs host' home (n + 1) es) := by
  cases es with
  | nil =>
    simp only [evalArgs]
    exact .pure _
  | cons e es =>
    simp only [evalArgs]
    exact (h.expr home e).bind fun v =>
      (respects_keeping (h.args home es) [v]).bind fun _ => .pure _

include B in
theorem next_value (v : Value) (es : List Expr) :
    Respects S R (applyValue host home (n + 1) v es) (applyValue host' home (n + 1) v es) := by
  cases v with
  | closure k params body env origin =>
    simp only [applyValue]
    exact (respects_keeping (h.args home es) _).bind fun args =>
      respects_enter B params env args (h.block origin body)
  | _ =>
    rw [applyValue, applyValue]
    · exact .throw _
    all_goals simp

theorem caught (b : Block) (c : Option Catch) :
    Respects S R (Eval.caught host home n b c) (Eval.caught host' home n b c) := by
  have hb := respects_inScope (h.block home b)
  rcases c with _ | ⟨_ | x, cb⟩
  · exact hb
  · exact respects_rescue hb fun _ => respects_inScope (h.block home cb)
  · exact respects_rescue hb fun v => respects_inScope
      ((respects_lift (respects_define x v)).bind fun _ => h.block home cb)

include B in
theorem next_stmt (s : Stmt) :
    Respects S R (execStmt host home (n + 1) s) (execStmt host' home (n + 1) s) := by
  have hexpr : ∀ e, Respects S R (evalExpr host home n e).lift (evalExpr host' home n e).lift :=
    fun e => respects_lift (h.expr home e)
  have htest : ∀ e, Respects S R (evalTest host home n e).lift (evalTest host' home n e).lift :=
    fun e => respects_lift (h.test home e)
  have hscope : ∀ b, Respects S R (inScope (execBlock host home n b))
      (inScope (execBlock host' home n b)) := fun b => respects_inScope (h.block home b)
  cases s with
  | bind m x e =>
    simp only [execStmt]
    exact (hexpr e).bind fun v => respects_lift (respects_define x v)
  | assign m x e =>
    simp only [execStmt]
    exact (hexpr e).bind fun v => respects_lift (respects_assign B x v)
  | store m k e =>
    simp only [execStmt]
    exact (hexpr e).bind fun v => respects_lift (respects_store B k v)
  | eval m e =>
    simp only [execStmt]
    exact (hexpr e).bind fun _ => .pure _
  | cond m t a b =>
    simp only [execStmt]
    refine (htest t).bind fun yes => ?_
    cases yes
    · exact hscope b
    · exact hscope a
  | loop m t b =>
    rw [execStmt_loop, execStmt_loop]
    refine (htest t).bind fun again => ?_
    cases again
    · exact .pure _
    · exact respects_turn (hscope b) (h.stmt home _)
  | attempt m b c f =>
    rw [execStmt_attempt, execStmt_attempt]
    cases f with
    | none => exact h.caught b c
    | some fb => exact respects_ensuring (h.caught b c) (hscope fb)
  | throw m e =>
    simp only [execStmt]
    exact (hexpr e).bind fun v => .throw _
  | ret m e =>
    cases e with
    | none =>
      simp only [execStmt]
      exact .throw _
    | some e =>
      simp only [execStmt]
      exact (hexpr e).bind fun v => .throw _
  | brk | cont =>
    simp only [execStmt]
    exact .throw _
  | block m b =>
    simp only [execStmt]
    exact hscope b
  | yield | yieldBreak =>
    simp only [execStmt]
    exact respects_lift (respects_broken B _)

theorem next_block (ss : Block) :
    Respects S R (execBlock host home (n + 1) ss) (execBlock host' home (n + 1) ss) := by
  cases ss with
  | nil =>
    simp only [execBlock]
    exact .pure _
  | cons s ss =>
    simp only [execBlock]
    exact (h.stmt home s).bind fun _ => h.block home ss

end Blind

theorem blind (B : World.Bond S host host' R) (n : Nat) : Blind S R host host' n := by
  induction n with
  | zero =>
    constructor <;> intros
    · rw [evalExpr, evalExpr]
      exact .throw _
    · rw [evalTest, evalTest]
      exact .throw _
    · rw [evalArgs, evalArgs]
      exact .throw _
    · rw [applyValue, applyValue]
      exact .throw _
    · rw [execStmt, execStmt]
      exact .throw _
    · rw [execBlock, execBlock]
      exact .throw _
  | succ n ih =>
    exact ⟨fun _ => ih.next_expr B, fun _ => ih.next_test, fun _ => ih.next_args,
      fun _ => ih.next_value B, fun _ => ih.next_stmt B, fun _ => ih.next_block⟩

theorem respects_execState (B : World.Bond S host host' R) (home : StorageId) (n : Nat)
    (body : Block) :
    Respects S R (execState host home n body) (execState host' home n body) := by
  have hblock := (blind B n).block home body
  have hafter : ∀ a, S (lastly (execBlock host home n body a)).world →
      S (lastly (execState host home n body a)).world := by
    intro a
    unfold execState
    cases execBlock host home n body a with
    | ok v b => exact id
    | error e b => cases e <;> exact fun h => B.astray h (Nat.le_refl _)
  refine ⟨fun a h => hafter a (hblock.astray a h), fun a a' ha => ?_⟩
  rcases hblock.agree a a' ha with hs | hr
  · exact .inl (hafter a hs)
  unfold execState
  generalize execBlock host home n body a = r at hr ⊢
  generalize execBlock host' home n body a' = r' at hr ⊢
  cases hr with
  | ok v h => exact .inr (.ok v h)
  | @error b b' e h =>
    have ht : b'.world.status = b.world.status := by
      obtain ⟨w, hw⟩ := h
      exact B.status hw
    cases e with
    | stop s => exact .inr (.error s h)
    | brk | cont => exact (respects_broken B _).agree _ _ h
    | ret v =>
      simp only [ht]
      exact (respects_broken B _).agree _ _ h

end Eval

namespace Machine

variable {S : World σ κ → Prop} {host : Host σ κ} {host' : Host σ' κ} {home : StorageId}
  {R : World σ κ → World σ' κ → Prop}

theorem respects_leave (B : World.Bond S host host' R) (n : Nat) (s : StateId) (t : Terminator) :
    Eval.Respects S R (leave host home n s t) (leave host' home n s t) := by
  have hexpr := (Eval.blind B n).expr home
  cases t with
  | goto | enter | endCleanup | complete => exact .pure _
  | branch e a b => exact ((Eval.blind B n).test home e).bind fun yes => .pure _
  | suspend p r =>
    cases p with
    | yield e => exact (hexpr e).bind fun v => .pure _
    | await e =>
      refine (hexpr e).bind fun v => ?_
      cases v with
      | future f => exact .pure _
      | _ => exact .throw _
  | ret v t =>
    cases v with
    | none => exact .pure _
    | some e => exact (hexpr e).bind fun v => .pure _
  | unreachable => exact Eval.respects_broken B _

theorem respects_execute (B : World.Bond S host host' R) (home : StorageId) (n : Nat)
    (st : State) : Eval.Respects S R (execute host home n st) (execute host' home n st) :=
  (Eval.respects_execState B home n st.body).bind fun _ => respects_leave B n st.id st.exit

/-! Machines as computations. -/

variable {α : Type}

/-- A step as a computation. -/
def steps (host : Host σ κ) (n : Nat) (m : Machine) : Run σ κ Move := fun w =>
  .ok (m.step host n w).1 (m.step host n w).2

/-- A run as a computation. -/
def runs (host : Host σ κ) (n : Nat) (m : Machine) : Run σ κ Halt := fun w =>
  .ok (m.run host n w).1 (m.run host n w).2

/-- Code that is evaluated with something in hand. -/
def evaluating (held : List (Holding κ)) (resumption : Option Outcome) (x : EvalM σ κ α) :
    EStateM Stop (World σ κ) α := fun w =>
  match x { resumption, world := w.grasp held } with
  | .ok v a => .ok v (a.world.letGo w.hands)
  | .error e a => .error e (a.world.letGo w.hands)

/-- What becomes of a step when its state has been executed. -/
def conclude (m : Machine) (st : State) : Except Stop Departure → Run σ κ Move
  | .ok d =>
    match m.idle.depart? st.id d with
    | some move => return move
    | none => do
      modify (·.defect)
      return .fault (.internal ("finally state " ++ StateId.text st.id ++
        " entered without a pending exit")) m.idle
  | .error (.fault f) => return .fault f m.idle
  | .error .timeout => return .timeout

theorem steps_eq {m : Machine} {st : State} (hst : m.chain.states[m.current]? = some st)
    (host : Host σ κ) (n : Nat) : m.steps host n = get >>= fun w =>
      if !m.inCleanup st && m.isCancelled w then pure (.fault .cancelled m.idle)
      else thenDo (evaluating [.machine m.idle] m.resumption (execute host m.home n st))
        (m.conclude st) := by
  funext w
  show _ = (if !m.inCleanup st && m.isCancelled w then _ else _ : Run σ κ Move) w
  simp only [steps, step_eq hst]
  split
  · rfl
  · simp only [thenDo, evaluating]
    cases execute host m.home n st
        { resumption := m.resumption, world := w.grasp [.machine m.idle] } with
    | ok d a =>
      simp only [conclude]
      cases m.idle.depart? st.id d <;> rfl
    | error e a => cases e <;> rfl

/-- What becomes of a run after a step. -/
def carryOn (host : Host σ κ) (n : Nat) : Move → Run σ κ Halt
  | .next m => m.runs host n
  | .yielded v m => return .yielded v m
  | .awaiting f m => return .awaiting f m
  | .completed v m => return .completed v m
  | .timeout => return .timeout
  | .fault f m => fun w =>
    match m.handle f w with
    | some (m, w) => m.runs host n w
    | none => .ok (.fault f m) w

theorem runs_succ (host : Host σ κ) (n : Nat) (m : Machine) :
    m.runs host (n + 1) = m.steps host n >>= carryOn host n := by
  funext w
  show _ = carryOn host n (m.step host n w).1 (m.step host n w).2
  simp only [runs, run]
  rcases m.step host n w with ⟨move, w'⟩
  cases move with
  | fault f m =>
    simp only [carryOn]
    cases m.handle f w' <;> rfl
  | _ => rfl

/-- A handler changes the world by no more than the variable of its clause. -/
theorem handle_cases (m : Machine) (f : Fault) :
    (∀ {σ κ : Type} (w : World σ κ), m.handle f w = none) ∨
      ∃ (m' : Machine) (slot : Option Slot), ∀ {σ κ : Type} (w : World σ κ), m.handle f w =
        some (m', slot.elim w (w.store m.home · f.toValue)) := by
  unfold handle
  cases rescue? (m.chain.covering m.current) with
  | none => exact .inl fun _ => rfl
  | some r =>
    cases r with
    | cleanup c => exact .inr ⟨_, none, fun _ => rfl⟩
    | clause c =>
      refine .inr ⟨{ m with current := c.entry }, c.slot, fun w => ?_⟩
      simp only []
      cases c.slot <;> rfl

theorem carryOn_unhandled {m : Machine} {f : Fault} (h : ∀ w : World σ κ, m.handle f w = none)
    (host : Host σ κ) (n : Nat) : carryOn host n (.fault f m) = pure (.fault f m) := by
  funext w
  simp only [carryOn, h]
  rfl

theorem carryOn_handled {m m' : Machine} {f : Fault} {put : World σ κ → World σ κ}
    (h : ∀ w : World σ κ, m.handle f w = some (m', put w)) (host : Host σ κ) (n : Nat) :
    carryOn host n (.fault f m) = modify put >>= fun _ => m'.runs host n := by
  funext w
  simp only [carryOn, h]
  rfl

theorem steps_broken {m : Machine} (hst : m.chain.states[m.current]? = none) (host : Host σ κ)
    (n : Nat) : m.steps host n = modify (·.defect) >>= fun _ =>
      pure (.fault (.internal ("no state " ++ StateId.text m.current)) m) := by
  funext w
  rw [steps, step, hst]
  rfl

theorem runCleanups_cons (host : Host σ κ) (n : Nat) (m : Machine) (f : StateId) (fs : List StateId)
    (first : Option Fault) : m.runCleanups host n (f :: fs) first =
      thenDo (evaluating [.values (first.toList.flatMap (·.value?.toList)), .machine m] none
        (Eval.execState host m.home n (m.chain.states[f]?.elim [] (·.body)))) fun
          | .ok () => m.runCleanups host n fs first
          | .error (.fault e) => m.runCleanups host n fs (first.or (some e))
          | .error .timeout => throw ⟨⟩ := by
  funext w
  simp only [runCleanups, thenDo, evaluating]
  cases Eval.execState host m.home n (m.chain.states[f]?.elim [] (·.body))
      { world := w.grasp [.values (first.toList.flatMap (·.value?.toList)), .machine m] } with
  | ok v a => rfl
  | error e a => cases e <;> rfl

section

variable (B : World.Bond S host host' R)
include B

theorem accord_evaluating {x : EvalM σ κ α} {y : EvalM σ' κ α} (h : Eval.Respects S R x y)
    (held : List (Holding κ)) (resumption : Option Outcome) :
    Accord S R (evaluating held resumption x) (evaluating held resumption y) := by
  have hafter : ∀ w : World σ κ, S (lastly (x { resumption, world := w.grasp held })).world →
      S (lastly (evaluating held resumption x w)) := by
    intro w
    unfold evaluating
    cases x { resumption, world := w.grasp held } <;> exact fun hs => B.astray hs (Nat.le_refl _)
  refine ⟨fun w hs => hafter w (h.astray _ (B.astray hs (Nat.le_refl _))), fun w w' hw => ?_⟩
  rcases h.agree _ _ (.intro (a := { resumption, world := w.grasp held }) _ (B.grasp hw held))
    with hs | hr
  · exact .inl (hafter w hs)
  unfold evaluating
  generalize x { resumption, world := w.grasp held } = r at hr ⊢
  generalize y { resumption, world := w'.grasp held } = r' at hr ⊢
  cases hr with
  | ok v ha => exact .inr (.ok v (B.letGo hw ha.world))
  | error e ha => exact .inr (.error e (B.letGo hw ha.world))

theorem accord_defect : Accord S R (modify (·.defect) : Run σ κ Unit) (modify (·.defect)) :=
  .modify _ _ (fun _ hs => B.astray hs (Nat.le_refl _)) fun _ _ hw => B.defect hw

theorem accord_steps (n : Nat) (m : Machine) : Accord S R (m.steps host n) (m.steps host' n) := by
  cases hst : m.chain.states[m.current]? with
  | none =>
    rw [steps_broken hst, steps_broken hst]
    exact (accord_defect B).bind fun _ => .pure _
  | some st =>
    rw [steps_eq hst, steps_eq hst]
    refine .get fun w => ?_
    have hsame : ∀ w', R w w' → m.isCancelled w' = m.isCancelled w := by
      intro w' hw
      have ht : w'.isCancelled = w.isCancelled :=
        funext fun t => by rw [World.isCancelled, World.isCancelled, B.tokens hw]
      rw [isCancelled, isCancelled, ht]
    by_cases hc : (!m.inCleanup st && m.isCancelled w) = true
    · refine ⟨_, _, .pure _, by rw [if_pos hc], fun w' hw => ?_⟩
      rw [hsame w' hw, if_pos hc]
    · refine ⟨_, _, Accord.thenDo (accord_evaluating B (respects_execute B m.home n st) _ _)
        (k := m.conclude st) (l := m.conclude st) fun r => ?_, by rw [if_neg hc], fun w' hw => by
          rw [hsame w' hw, if_neg hc]⟩
      cases r with
      | ok d =>
        simp only [conclude]
        cases m.idle.depart? st.id d with
        | some move => exact .pure move
        | none => exact (accord_defect B).bind fun _ => .pure _
      | error e => cases e <;> exact .pure _

theorem accord_handle {n : Nat} (ih : ∀ m : Machine, Accord S R (m.runs host n) (m.runs host' n))
    (f : Fault) (m : Machine) :
    Accord S R (carryOn host n (.fault f m)) (carryOn host' n (.fault f m)) := by
  rcases handle_cases m f with hnone | ⟨m', slot, hsome⟩
  · rw [carryOn_unhandled hnone, carryOn_unhandled hnone]
    exact .pure _
  · rw [carryOn_handled hsome, carryOn_handled hsome]
    refine Accord.bind (.modify _ _ (fun w hs => ?_) fun w w' hw => ?_) fun _ => ih m'
    · cases slot <;> exact B.astray hs (Nat.le_refl _)
    · cases slot with
      | none => exact hw
      | some k => exact B.store hw m.home k f.toValue

theorem accord_runs (n : Nat) (m : Machine) : Accord S R (m.runs host n) (m.runs host' n) := by
  induction n generalizing m with
  | zero => exact .pure Halt.timeout
  | succ n ih =>
    rw [runs_succ, runs_succ]
    refine (accord_steps B n m).bind fun move => ?_
    cases move with
    | next m => exact ih m
    | fault f m => exact accord_handle B ih f m
    | _ => exact .pure _

theorem accord_unwind (n : Nat) (m : Machine) :
    Accord S R (m.unwind host n) (m.unwind host' n) := by
  unfold unwind
  generalize m.chain.enclosingCleanups m.current = fs
  generalize (none : Option Fault) = first
  induction fs generalizing first with
  | nil => exact .pure first
  | cons f fs ih =>
    rw [runCleanups_cons, runCleanups_cons]
    refine (accord_evaluating B (Eval.respects_execState B m.home n _) _ _).thenDo fun r => ?_
    rcases r with (e | _) | _
    · exact ih _
    · exact .throw _
    · exact ih first

end

end Machine

/-! Worlds in which only machines in hand differ. -/

/-- Machines that hold the same, whatever chains they run and wherever they stand. -/
structure Machine.Twin (m m' : Machine) : Prop where
  home : m'.home = m.home
  pending : m'.pending.flatMap (·.2.futures) = m.pending.flatMap (·.2.futures)
  resumption : m'.resumption = m.resumption
  result : m'.result = m.result

inductive Holding.Alike {κ : Type} : Holding κ → Holding κ → Prop where
  | same (x : Holding κ) : Alike x x
  | machine {m m' : Machine} (h : m.Twin m') : Alike (.machine m) (.machine m')

/-- What is in hand is alike, and all the rest is the same. What has been written down is not
compared: it is there to be looked at afterwards. -/
inductive World.Alike {σ κ : Type} (w : World σ κ) : World σ κ → Prop where
  | intro (hands : List (Holding κ)) (history : List (Instant κ))
      (h : List.Forall₂ Holding.Alike w.hands hands) : Alike w { w with hands, history }

/-- The answers of the host do not depend on where the machines in hand stand. -/
def Host.Discreet {σ κ : Type} (host : Host σ κ) : Prop :=
  ∀ name args, Agree World.Alike (host.call name args) (host.call name args)

theorem Holding.alike_refl (held : List (Holding κ)) : List.Forall₂ Holding.Alike held held := by
  induction held with
  | nil => exact .nil
  | cons x held ih => exact .cons (.same x) ih

namespace World.Alike

variable {w w' : World σ κ}

theorem refl (w : World σ κ) : w.Alike w :=
  ⟨w.hands, w.history, Holding.alike_refl _⟩

theorem hands (h : w.Alike w') : List.Forall₂ Holding.Alike w.hands w'.hands := by
  cases h with
  | intro _ _ h => exact h

theorem ext (h : w.Alike w') : w'.ext = w.ext := by
  cases h
  rfl

theorem grasp (h : w.Alike w') {held held' : List (Holding κ)}
    (hh : List.Forall₂ Holding.Alike held held') : (w.grasp held).Alike (w'.grasp held') := by
  cases h with
  | intro hands history h => exact ⟨_, _, rel_append hh h⟩

theorem letGo (h : w.Alike w') {before before' : List (Holding κ)}
    (hh : List.Forall₂ Holding.Alike before before') :
    (w.letGo before).Alike (w'.letGo before') := by
  cases h with
  | intro hands history h => exact ⟨_, _, hh⟩

/-- What is held does not depend on where machines stand. -/
theorem flatMap_ofHolding (w : World σ κ) {held held' : List (Holding κ)}
    (h : List.Forall₂ Holding.Alike held held') :
    held'.flatMap w.ofHolding = held.flatMap w.ofHolding := by
  induction h with
  | nil => rfl
  | cons hx _ ih =>
    rw [flatMap_cons, flatMap_cons, ih]
    cases hx with
    | same => rfl
    | machine ht =>
      simp only [World.ofHolding, World.ofMachine, ht.home, ht.pending, ht.resumption, ht.result]

section

variable (h : w.Alike w')
include h

/-- Something is done that has nothing to do with what is in hand. -/
theorem change {g : World σ κ → World σ κ}
    (hg : ∀ hands history, g { w with hands, history } = { g w with hands, history })
    (hh : (g w).hands = w.hands) : (g w).Alike (g w') := by
  cases h with
  | intro hands history h => exact hg hands history ▸ ⟨hands, history, hh ▸ h⟩

theorem inHand (host : Host σ κ) : w'.inHand host = w.inHand host := by
  cases h with
  | intro hands history h =>
    show (hands ++ host.keeps w.ext).flatMap w.ofHolding = _
    rw [World.inHand, flatMap_append, flatMap_append, flatMap_ofHolding w h]

theorem isLost (host : Host σ κ) (home : StorageId) : w'.isLost host home = w.isLost host home := by
  have hin := h.inHand host
  have hheld : w'.held host = w.held host := by
    cases h
    simp only [World.held, hin]
    rfl
  cases h
  simp only [World.isLost, hheld]
  rfl

theorem visit (host : Host σ κ) (home : StorageId) :
    (w.visit host home).Alike (w'.visit host home) := by
  have hl := h.isLost host home
  unfold World.visit
  rw [hl]
  split
  · cases h with
    | intro hands history h => exact ⟨hands, history, h⟩
  · exact h

theorem callOver (home : StorageId) : (w.callOver home).Alike (w'.callOver home) := by
  have ha : w'.isAlive home = w.isAlive home := by
    cases h
    rfl
  unfold World.callOver
  rw [ha]
  split
  · exact h
  · cases h with
    | intro hands history h => exact ⟨hands, history, h⟩

end

end World.Alike

/-- Code does not look at machines in hand if the host does not. -/
theorem Host.Discreet.bond {host : Host σ κ} (hh : host.Discreet) :
    World.Bond (fun _ => False) host host World.Alike where
  load h _ _ := by cases h; rfl
  status h := by cases h; rfl
  closures h := by cases h; rfl
  tokens h := by cases h; rfl
  defect h := h.change (fun _ _ => rfl) rfl
  note h x := h.change (g := (·.note x)) (fun _ _ => rfl) rfl
  store h home k v := h.change (g := (·.store home k v)) (fun _ _ => rfl) rfl
  closure h k := h.change (g := ({ · with closures := k })) (fun _ _ => rfl) rfl
  grasp h held := h.grasp (Holding.alike_refl held)
  letGo h hv := hv.letGo h.hands
  release h home := h.change (g := (·.release home)) (fun _ _ => rfl) rfl
  call name args := ⟨fun _ => False.elim, fun w w' h => .inr (hh name args w w' h)⟩
  start h home held held' := .inr
    ((((((h.grasp (Holding.alike_refl _)).visit host home).letGo h.hands).callOver
      home).grasp (Holding.alike_refl _)).change (g := (·.retain home)) (fun _ _ => rfl) rfl)
  astray := False.elim

end Resumable

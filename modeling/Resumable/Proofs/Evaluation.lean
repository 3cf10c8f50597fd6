import Resumable.Proofs.Accounting
import Resumable.Proofs.Sight

namespace Resumable

open List

section

variable {σ κ α β : Type} {S : Standard} {C : Custody σ κ}

/-! Computations on the world. -/

namespace World

section

variable (A : Accounting S C) (own : List (Cargo κ))

/-- What a computation that starts in `w` may come to. -/
def Does (G : World σ κ → α → Prop) (w : World σ κ) :
    EStateM.Result Timeout (World σ κ) α → Prop
  | .ok v w' => Keeps A own w w' ∧ G w' v
  | .error _ w' => A.Clean w'

end

/-- A storage with `n` slots that is in somebody's hands. -/
structure Serves (w : World σ κ) (home : StorageId) (n : Nat) : Prop where
  fits : w.Fits home n
  held : .storage home ∈ w.cargo

variable {A : Accounting S C} {own own' : List (Cargo κ)} {w w' : World σ κ} {home : StorageId}
  {n : Nat}
variable {G : World σ κ → α → Prop}

theorem Does.after {r : EStateM.Result Timeout (World σ κ) α} (hw : Keeps A own' w w')
    (h : Does A own G w' r) : Does A own G w r := by
  cases r with
  | ok v w'' => exact ⟨hw.trans h.1, h.2⟩
  | error e w'' => exact h

theorem Does.bind {G' : World σ κ → β → Prop} {x : Run σ κ α} {f : α → Run σ κ β}
    (hx : Does A own' G w (x w))
    (hf : ∀ v w', Keeps A own' w w' → G w' v → Does A own G' w' (f v w')) :
    Does A own G' w ((x >>= f) w) := by
  simp only [Bind.bind, EStateM.bind]
  cases hr : x w with
  | error e w' =>
    rw [hr] at hx
    exact hx
  | ok v w' =>
    rw [hr] at hx
    exact .after hx.1 (hf v w' hx.1 hx.2)

/-- What is in hand is no longer on its way. -/
theorem Does.holding (hG : ∀ w w' v, G w v → w.Later w' → G w' v) {held : List (Holding κ)}
    {x : Run σ κ α} (hx : Does A own G (w.grasp held) (x (w.grasp held))) :
    Does A (held.flatMap (·.cargo) ++ own) G w (World.holding held x w) := by
  simp only [World.holding]
  cases hr : x (w.grasp held) with
  | error e w' =>
    rw [hr] at hx
    exact A.clean_of_eq hx rfl rfl rfl rfl
  | ok v w' =>
    rw [hr] at hx
    obtain ⟨hw, hv⟩ := hx
    exact ⟨⟨hw.proper.letGo hw.hands, hw.later.holding, rfl⟩, hG _ _ v hv (later_letGo w' _)⟩

theorem Serves.later (h : w.Serves home n) (hl : w.Later w') (hh : w'.hands = w.hands) :
    w'.Serves home n := by
  refine ⟨h.fits.later hl, ?_⟩
  rw [cargo, hh]
  exact h.held

/-- The slots that code asks for are there, or a closure has gone astray. -/
theorem Proper.load? (h : w.Proper A own) (hs : w.Serves home n) {k : Slot}
    (hk : S.strict = true → k < n) (hnone : w.load? home k = none) :
    S.strict = true → w.strays ≠ 0 := by
  intro hstrict hstrays
  have halive := A.alive h.balanced hstrict hstrays (mem_append_right _ hs.held)
  obtain ⟨v, hv⟩ := hs.fits.load? hstrays (isAlive_iff.mp halive) (hk hstrict)
  cases hnone.symm.trans hv

end World

/-- The host keeps the world in order and answers with what can be used. -/
class Host.Safe (host : Host σ κ) (A : Accounting S C) : Prop where
  call : ∀ {name args w}, w.Proper A [] → (∀ v ∈ args, Value.Proper S w v) →
    World.Does A [] (Outcome.Proper S) w (host.call name args w)
  callback : ∀ {key o w}, w.Proper A [] → Outcome.Proper S w o →
    World.Does A [] (Outcome.Proper S) w (host.callback key o w)

theorem BinaryOp.proper_apply (w : World σ κ) (op : BinaryOp) (l r : Value) :
    Outcome.Proper S w (op.apply l r) := by
  unfold BinaryOp.apply
  split
  all_goals try split
  all_goals first | trivial | exact nofun

theorem UnaryOp.proper_apply (w : World σ κ) (op : UnaryOp) (v : Value) :
    Outcome.Proper S w (op.apply v) := by
  unfold UnaryOp.apply
  split
  all_goals first | trivial | exact nofun

theorem Value.proper_test (w : World σ κ) {v : Value} {f : Fault} (h : v.test = .error f) :
    f.Proper S w := by
  unfold Value.test at h
  split at h
  · cases h
  · cases h
    exact nofun

def Stmt.target? : Stmt → Option String
  | .assign _ x _ => some x
  | _ => none

/-! Evaluation. -/

namespace Activation

section

variable (A : Accounting S C) (home : StorageId) (size : Nat)

/-- Everything that an evaluation over a storage has can be used. -/
structure Proper (a : Activation σ κ) : Prop where
  world : a.world.Proper A []
  scopes : a.frame.scopes ≠ []
  frame : a.frame.All (Value.Proper S a.world)
  resumption : ∀ o ∈ a.resumption, Outcome.Proper S a.world o
  serves : a.world.Serves home size

/-- What evaluation may change. -/
structure TurnsInto (a b : Activation σ κ) : Prop where
  proper : b.Proper A home size
  later : a.world.Later b.world
  under : a.frame.Under b.frame
  hands : b.world.hands = a.world.hands

end

/-- The second activation may come after the first, as far as code can tell. -/
structure Upto (a b : Activation σ κ) : Prop where
  later : a.world.Later b.world
  under : a.frame.Under b.frame

/-- The names `xs` are in sight, and the slots `js` have been set. -/
structure Has (home : StorageId) (xs : List String) (js : List Slot) (a : Activation σ κ) :
    Prop where
  shows : a.frame.Shows xs
  written : ∀ k ∈ js, a.world.Written home k

variable {A : Accounting S C} {home : StorageId} {size : Nat} {a b c : Activation σ κ}

theorem Upto.refl (a : Activation σ κ) : a.Upto a :=
  ⟨.refl _, .refl _⟩

theorem Upto.trans (h : a.Upto b) (h' : b.Upto c) : a.Upto c :=
  ⟨h.later.trans h'.later, h.under.trans h'.under⟩

theorem Has.upto {xs : List String} {js : List Slot} (ha : a.Has home xs js) (h : a.Upto b) :
    b.Has home xs js :=
  ⟨h.under.shows ha.shows, fun k hk => (ha.written k hk).later h.later⟩

theorem Has.push {xs : List String} {js : List Slot} (ha : a.Has home xs js) :
    Has home xs js { a with frame := a.frame.push } := by
  refine ⟨fun x hx => ?_, ha.written⟩
  obtain ⟨s, hs, hsx⟩ := Frame.isSome_get?.mp (ha.shows x hx)
  exact Frame.isSome_get?.mpr ⟨s, mem_cons_of_mem _ hs, hsx⟩

theorem TurnsInto.upto (h : TurnsInto A home size a b) : a.Upto b :=
  ⟨h.later, h.under⟩

theorem TurnsInto.refl (h : a.Proper A home size) : TurnsInto A home size a a :=
  ⟨h, .refl _, .refl _, rfl⟩

theorem TurnsInto.trans (h : TurnsInto A home size a b) (h' : TurnsInto A home size b c) :
    TurnsInto A home size a c :=
  ⟨h'.proper, h.later.trans h'.later, h.under.trans h'.under, h'.hands.trans h.hands⟩

theorem Proper.inWorld (h : a.Proper A home size) {w : World σ κ}
    (hw : World.Keeps A [] a.world w) : TurnsInto A home size a { a with world := w } := by
  refine ⟨⟨hw.proper, h.scopes, ?_, ?_, h.serves.later hw.later hw.hands⟩, hw.later, .refl _,
    hw.hands⟩
  · exact fun s hs b hb => (h.frame s hs b hb).later hw.later
  · exact fun o ho => (h.resumption o ho).later hw.later

theorem Proper.withFrame (h : a.Proper A home size) {f : Frame}
    (hf : f.All (Value.Proper S a.world)) (hu : a.frame.Under f) :
    TurnsInto A home size a { a with frame := f } :=
  ⟨⟨h.world, hu.nonempty h.scopes, hf, h.resumption, h.serves⟩, .refl _, hu, rfl⟩

theorem Proper.withOperands (h : a.Proper A home size) (vs : List Value) :
    Proper A home size { a with operands := vs } :=
  ⟨h.world, h.scopes, h.frame, h.resumption, h.serves⟩

end Activation

end

namespace Eval

open Activation (TurnsInto)

variable {σ κ ε α β : Type} {S : Standard} {C : Custody σ κ}

section

variable (A : Accounting S C) (home : StorageId) (size : Nat)

/-- How an evaluation that starts with `a` may end short of a value. -/
def StopsSafely (a : Activation σ κ) : Stop → Activation σ κ → Prop
  | .fault f, b => TurnsInto A home size a b ∧ f.Proper S b.world
  | .timeout, b => A.Clean b.world

/-- The same for code that may return if `ret`, and leave the loop around it if `loop`. -/
def ExitsSafely (ret loop : Bool) (a : Activation σ κ) : Exit → Activation σ κ → Prop
  | .stop s, b => StopsSafely A home size a s b
  | .brk, b | .cont, b => (S.strict = true → loop = true) ∧ TurnsInto A home size a b
  | .ret v, b => (S.strict = true → ret = true) ∧ TurnsInto A home size a b ∧ v.Proper S b.world

/-- A rule for how computations may end short of a value. -/
structure Verdict (ε : Type) where
  Ends : Activation σ κ → ε → Activation σ κ → Prop
  after : ∀ {a b e c}, TurnsInto A home size a b → Ends b e c → Ends a e c
  operands : ∀ {a e b} (vs us : List Value),
    Ends { a with operands := vs } e b → Ends a e { b with operands := us }

variable {A home size}

theorem StopsSafely.after {a b c : Activation σ κ} {s : Stop} (h : TurnsInto A home size a b)
    (hs : StopsSafely A home size b s c) : StopsSafely A home size a s c := by
  cases s with
  | fault f => exact ⟨h.trans hs.1, hs.2⟩
  | timeout => exact hs

theorem turnsInto_operands {a b : Activation σ κ} (vs us : List Value)
    (h : TurnsInto A home size { a with operands := vs } b) :
    TurnsInto A home size a { b with operands := us } :=
  ⟨h.proper.withOperands us, h.later, h.under, h.hands⟩

theorem StopsSafely.operands {a b : Activation σ κ} {s : Stop} (vs us : List Value)
    (h : StopsSafely A home size { a with operands := vs } s b) :
    StopsSafely A home size a s { b with operands := us } := by
  cases s with
  | fault f => exact ⟨turnsInto_operands vs us h.1, h.2⟩
  | timeout => exact h

variable (A home size)

def Verdict.stop : Verdict A home size Stop :=
  ⟨StopsSafely A home size, .after, .operands⟩

def Verdict.exit (ret loop : Bool) : Verdict A home size Exit where
  Ends := ExitsSafely A home size ret loop
  after := by
    intro a b e c h he
    cases e with
    | stop s => exact StopsSafely.after h he
    | brk | cont => exact ⟨he.1, h.trans he.2⟩
    | ret v => exact ⟨he.1, h.trans he.2.1, he.2.2⟩
  operands := by
    intro a e b vs us h
    cases e with
    | stop s => exact StopsSafely.operands vs us h
    | brk | cont => exact ⟨h.1, turnsInto_operands vs us h.2⟩
    | ret v => exact ⟨h.1, turnsInto_operands vs us h.2.1, h.2.2⟩

variable {A home size}

/-- What a computation that starts with `a` may come to. -/
def Does (V : Verdict A home size ε) (G : Activation σ κ → α → Prop)
    (a : Activation σ κ) : EStateM.Result ε (Activation σ κ) α → Prop
  | .ok v b => TurnsInto A home size a b ∧ G b v
  | .error e b => V.Ends a e b

/-- The computation does what it may, whenever it starts after `a`. -/
def Safe (V : Verdict A home size ε) (G : Activation σ κ → α → Prop) (a : Activation σ κ)
    (x : EStateM ε (Activation σ κ) α) : Prop :=
  ∀ b, b.Proper A home size → a.Upto b → Does V G b (x b)

end

/-- Nothing is said about the value. -/
abbrev Any (_ : Activation σ κ) (_ : α) : Prop :=
  True

/-- The value can be used. -/
abbrev Usable (S : Standard) (a : Activation σ κ) (v : Value) : Prop :=
  v.Proper S a.world

abbrev AllUsable (S : Standard) (a : Activation σ κ) (vs : List Value) : Prop :=
  ∀ v ∈ vs, v.Proper S a.world

section

variable {A : Accounting S C} {home : StorageId} {size : Nat} {V : Verdict A home size ε}
  {G : Activation σ κ → α → Prop} {G' : Activation σ κ → β → Prop} {a : Activation σ κ}

theorem Does.after {b : Activation σ κ} {r : EStateM.Result ε (Activation σ κ) α}
    (hb : TurnsInto A home size a b) (h : Does V G b r) : Does V G a r := by
  cases r with
  | ok v c => exact ⟨hb.trans h.1, h.2⟩
  | error e c => exact V.after hb h

theorem Does.bind {x : EStateM ε (Activation σ κ) α} {f : α → EStateM ε (Activation σ κ) β}
    (hx : Does V G a (x a))
    (hf : ∀ b, TurnsInto A home size a b → ∀ v, G b v → Does V G' b (f v b)) :
    Does V G' a ((x >>= f) a) := by
  simp only [Bind.bind, EStateM.bind]
  cases hxa : x a with
  | error e b =>
    rw [hxa] at hx
    exact hx
  | ok v b =>
    rw [hxa] at hx
    exact .after hx.1 (hf b hx.1 v hx.2)

theorem Does.lift {ret loop : Bool} {x : EvalM σ κ α}
    (hx : Does (.stop A home size) G a (x a)) :
    Does (.exit A home size ret loop) G a (x.lift a) := by
  simp only [EvalM.lift, EStateM.adaptExcept]
  cases hxa : x a <;> rw [hxa] at hx <;> exact hx

namespace Safe

variable {x : EStateM ε (Activation σ κ) α}

theorem pure {v : α} (h : ∀ b, a.Upto b → G b v) :
    Safe V G a (Pure.pure v : EStateM ε (Activation σ κ) α) :=
  fun b hb hab => ⟨.refl hb, h b hab⟩

theorem throw {e : ε} (h : ∀ b, b.Proper A home size → a.Upto b → V.Ends b e b) :
    Safe V G a (MonadExcept.throw e : EStateM ε (Activation σ κ) α) :=
  fun b hb hab => h b hb hab

theorem weaken {G' : Activation σ κ → α → Prop} (hx : Safe V G a x) (h : ∀ b v, G b v → G' b v) :
    Safe V G' a x := by
  intro b hb hab
  have hr := hx b hb hab
  cases hxb : x b with
  | ok v c =>
    rw [hxb] at hr
    exact ⟨hr.1, h c v hr.2⟩
  | error e c =>
    rw [hxb] at hr
    exact hr

theorem since (hx : Safe V G a x) : Safe V (fun b v => a.Upto b ∧ G b v) a x := by
  intro b hb hab
  have hr := hx b hb hab
  cases hxb : x b with
  | ok v c =>
    rw [hxb] at hr
    exact ⟨hr.1, hab.trans hr.1.upto, hr.2⟩
  | error e c =>
    rw [hxb] at hr
    exact hr

theorem bind {f : α → EStateM ε (Activation σ κ) β} (hx : Safe V G a x)
    (hf : ∀ b, a.Upto b → ∀ v, G b v → Safe V G' b (f v)) : Safe V G' a (x >>= f) :=
  fun b hb hab => (hx b hb hab).bind fun c hc v hv =>
    hf c (hab.trans hc.upto) v hv c hc.proper (.refl c)

theorem thenDo {ε' : Type} {V' : Verdict A home size ε'}
    {f : Except ε α → EStateM ε' (Activation σ κ) β} (hx : Safe V G a x)
    (hok : ∀ b, a.Upto b → ∀ v, G b v → Safe V' G' b (f (.ok v)))
    (herr : ∀ b e c, a.Upto b → V.Ends b e c → Does V' G' b (f (.error e) c)) :
    Safe V' G' a (Resumable.thenDo x f) := by
  intro b hb hab
  have hr := hx b hb hab
  simp only [Resumable.thenDo]
  cases hxb : x b with
  | ok v c =>
    rw [hxb] at hr
    exact .after hr.1 (hok c (hab.trans hr.1.upto) v hr.2 c hr.1.proper (.refl c))
  | error e c =>
    rw [hxb] at hr
    exact herr b e c hab hr

theorem keeping (hG : ∀ b v us, G b v → G { b with operands := us } v) (hx : Safe V G a x)
    (vs : List Value) : Safe V G a (keeping vs x) := by
  intro b hb hab
  have hr := hx { b with operands := vs ++ b.operands } (hb.withOperands _) ⟨hab.later, hab.under⟩
  simp only [Eval.keeping]
  cases hxb : x { b with operands := vs ++ b.operands } with
  | ok v c =>
    rw [hxb] at hr
    exact ⟨turnsInto_operands _ _ hr.1, hG c v _ hr.2⟩
  | error e c =>
    rw [hxb] at hr
    exact V.operands _ _ hr

theorem lift {ret loop : Bool} {x : EvalM σ κ α} (hx : Safe (.stop A home size) G a x) :
    Safe (.exit A home size ret loop) G a x.lift :=
  fun b hb hab => (hx b hb hab).lift

end Safe

end

/-! The operations. -/

section

variable {A : Accounting S C} {home : StorageId} {size : Nat} {a : Activation σ κ}
variable {G : Activation σ κ → α → Prop} {x : String} {k : Slot}

theorem safe_raise {f : Fault} (hf : f.Proper S a.world) :
    Safe (.stop A home size) G a (raise f : EvalM σ κ α) :=
  .throw fun _ hb hab => ⟨.refl hb, hf.later hab.later⟩

theorem does_broken (ha : a.Proper A home size) (hs : S.strict = true → a.world.strays ≠ 0)
    (text : String) : Does (.stop A home size) G a ((broken text : EvalM σ κ α) a) :=
  ⟨ha.inWorld (ha.world.defect hs), nofun⟩

theorem safe_broken (hs : S.strict = false) (text : String) :
    Safe (.stop A home size) G a (broken text : EvalM σ κ α) :=
  fun _ hb _ => does_broken hb (fun h => nomatch hs.symm.trans h) text

theorem safe_get {o : Outcome} (ho : Outcome.Proper S a.world o) :
    Safe (.stop A home size) (Usable S) a (o.get : EvalM σ κ Value) := by
  cases o with
  | ok v => exact .pure fun _ hb => Value.Proper.later ho hb.later
  | error f => exact safe_raise ho

theorem does_missing (ha : a.Proper A home size) (hd : S.definite = false) (x : String) :
    Does (.stop A home size) G a ((missing x : EvalM σ κ α) a) :=
  ⟨ha.inWorld (ha.world.missed hd), nofun⟩

theorem load_apply (home : StorageId) (k : Slot) (b : Activation σ κ) :
    (load home k : EvalM σ κ Value) b =
      (match (b.world.note (.read home k)).load? home k with
        | some v => pure v
        | none => missingSlot k : EvalM σ κ Value)
        { b with world := b.world.note (.read home k) } :=
  rfl

theorem safe_load (hk : S.strict = true → k < size)
    (hset : S.definite = true → a.world.Written home k) :
    Safe (.stop A home size) (Usable S) a (load home k : EvalM σ κ Value) := by
  intro b hb hab
  have hb' := hb.inWorld (hb.world.read fun h => (hset h).later hab.later)
  rw [load_apply]
  refine .after hb' ?_
  cases hv : (b.world.note (.read home k)).load? home k with
  | some v => exact ⟨.refl hb'.proper, hb'.proper.world.stocked.load hv⟩
  | none => exact does_broken hb'.proper (hb'.proper.world.load? hb'.proper.serves hk hv) _

theorem store_apply (home : StorageId) (k : Slot) (v : Value) (b : Activation σ κ) :
    (store home k v : EvalM σ κ Unit) b =
      (match b.world.load? home k with
        | some _ => set { b with world := b.world.store home k v }
        | none => missingSlot k : EvalM σ κ Unit) b :=
  rfl

theorem safe_store (hk : S.strict = true → k < size) {v : Value} (hv : v.Proper S a.world) :
    Safe (.stop A home size) (fun b _ => b.world.Written home k) a
      (store home k v : EvalM σ κ Unit) := by
  intro b hb hab
  rw [store_apply]
  cases hl : b.world.load? home k with
  | some u =>
    exact ⟨hb.inWorld (hb.world.store home k (hv.later hab.later)), mem_cons_self⟩
  | none => exact does_broken hb (hb.world.load? hb.serves hk hl) _

theorem indefinite {b : Activation σ κ} (hx : S.definite = true → (a.frame.get? x).isSome = true)
    (hab : a.Upto b) (hnone : b.frame.get? x = none) : S.definite = false := by
  cases hd : S.definite with
  | false => rfl
  | true =>
    have hshow : a.frame.Shows [x] := fun y hy => mem_singleton.mp hy ▸ hx hd
    have hsome := hab.under.shows hshow x (mem_singleton.mpr rfl)
    rw [hnone] at hsome
    cases hsome

theorem safe_readVar (hx : S.definite = true → (a.frame.get? x).isSome = true) :
    Safe (.stop A home size) (Usable S) a (readVar x : EvalM σ κ Value) := by
  intro b hb hab
  simp only [readVar, get_bind]
  cases hv : b.frame.get? x with
  | some v => exact ⟨.refl hb, hb.frame.get? hv⟩
  | none => exact does_missing hb (indefinite hx hab hv) x

theorem safe_define (x : String) {v : Value} (hv : v.Proper S a.world) :
    Safe (.stop A home size) (fun b _ => b.frame.Shows [x]) a (define x v : EvalM σ κ Unit) :=
  fun b hb hab => ⟨hb.withFrame (hb.frame.define x (hv.later hab.later))
    (Frame.under_define b.frame x v), Frame.shows_define hb.scopes x v⟩

theorem safe_assign (hx : S.definite = true → (a.frame.get? x).isSome = true) {v : Value}
    (hv : v.Proper S a.world) : Safe (.stop A home size) Any a (assign x v : EvalM σ κ Unit) := by
  intro b hb hab
  simp only [assign, get_bind]
  cases hf : b.frame.assign? x v with
  | some f =>
    exact ⟨hb.withFrame (hb.frame.assign? (hv.later hab.later) hf) (Frame.under_assign hf), trivial⟩
  | none =>
    refine does_missing hb (indefinite hx hab ?_) x
    cases hv' : b.frame.get? x with
    | none => rfl
    | some u => exact absurd hf (Frame.assign?_ne_none (by rw [hv']; rfl) v)

theorem safe_makeClosure {xs : List String} {js : List Slot} (ha : a.Has home xs js)
    {ps : List String} {b : Block} (hb : Stmt.FitIn S size (xs ++ ps) js true false b) :
    Safe (.stop A home size) (Usable S) a (makeClosure home ps b : EvalM σ κ Value) := by
  intro c hc hac
  have hc' := hc.inWorld hc.world.newClosure
  have hhas := ha.upto hac
  refine ⟨hc', ⟨size, xs ++ ps, js, hc'.proper.serves.fits, fun x hx => ?_, hhas.written, hb⟩, ?_⟩
  · exact (mem_append.mp hx).imp_left (hhas.shows.snapshot x)
  · exact Value.properIn_iff.mpr hc'.proper.frame.snapshot

theorem does_receive (ha : a.Proper A home size) {o : Outcome} (ho : a.resumption = some o) :
    Does (.stop A home size) (Usable S) a ((receive : EvalM σ κ Value) a) := by
  have hnext : TurnsInto A home size a { a with resumption := none } :=
    ⟨⟨ha.world, ha.scopes, ha.frame, nofun, ha.serves⟩, .refl _, .refl _, rfl⟩
  simp only [receive, get_bind, ho]
  exact .after hnext (safe_get (a := a) (ha.resumption o ho) _ hnext.proper ⟨.refl _, .refl _⟩)

theorem safe_receive (hs : S.strict = false) :
    Safe (.stop A home size) (Usable S) a (receive : EvalM σ κ Value) := by
  intro b hb _
  cases ho : b.resumption with
  | some o => exact does_receive hb ho
  | none =>
    simp only [receive, get_bind, ho]
    exact safe_broken hs _ b hb (.refl b)

theorem safe_callHost (host : Host σ κ) [hh : host.Safe A] (x : String) {args : List Value}
    (hargs : AllUsable S a args) :
    Safe (.stop A home size) (Usable S) a (callHost host x args) := by
  intro b hb hab
  let held : List (Holding κ) := [.values args, .evaluation b.frame b.resumption b.operands]
  have hcall : World.Does A [] (Outcome.Proper S) b.world
      (World.holding held (host.call x args) b.world) := by
    have hstart : (b.world.grasp held).Proper A [] := World.Proper.grasp hb.world
    refine World.Does.holding (G := Outcome.Proper S) (fun _ _ _ => Outcome.Proper.later)
      (hh.call hstart fun v hv => ?_)
    exact (hargs v hv).later (hab.later.trans (World.later_grasp _ held))
  simp only [callHost]
  cases hr : World.holding held (host.call x args) b.world with
  | error e w' =>
    rw [hr] at hcall
    exact hcall
  | ok o w' =>
    rw [hr] at hcall
    have ht := hb.inWorld hcall.1
    exact .after ht (safe_get (a := { b with world := w' }) hcall.2 _ ht.proper (.refl _))

/-! Code with a way out. -/

section

variable {ret loop : Bool} {x y : ExecM σ κ Unit}

theorem turnsInto_scope {b c : Activation σ κ}
    (h : TurnsInto A home size { b with frame := b.frame.push } c) (hb : b.frame.scopes ≠ []) :
    TurnsInto A home size b { c with frame := c.frame.pop } :=
  ⟨⟨h.proper.world, h.under.pop.nonempty hb, h.proper.frame.pop, h.proper.resumption,
    h.proper.serves⟩, h.later, h.under.pop, h.hands⟩

theorem Safe.inScope (hx : Safe (.exit A home size ret loop) Any
      { a with frame := a.frame.push } x) :
    Safe (.exit A home size ret loop) Any a (inScope x) := by
  intro b hb hab
  have hr := hx { b with frame := b.frame.push }
    ⟨hb.world, cons_ne_nil _ _, hb.frame.push, hb.resumption, hb.serves⟩
    ⟨hab.later, hab.under.push⟩
  simp only [Eval.inScope]
  cases hxb : x { b with frame := b.frame.push } with
  | ok v c =>
    rw [hxb] at hr
    exact ⟨turnsInto_scope hr.1 hb.scopes, trivial⟩
  | error e c =>
    rw [hxb] at hr
    cases e with
    | stop s =>
      cases s with
      | fault f => exact ⟨turnsInto_scope hr.1 hb.scopes, hr.2⟩
      | timeout => exact hr
    | brk | cont => exact ⟨hr.1, turnsInto_scope hr.2 hb.scopes⟩
    | ret v => exact ⟨hr.1, turnsInto_scope hr.2.1 hb.scopes, hr.2.2⟩

theorem Safe.rescue {f : Value → ExecM σ κ Unit} (hx : Safe (.exit A home size ret loop) Any a x)
    (hf : ∀ b, a.Upto b → ∀ v, Usable S b v → Safe (.exit A home size ret loop) Any b (f v)) :
    Safe (.exit A home size ret loop) Any a (rescue x f) := by
  rw [rescue_eq]
  refine hx.thenDo (fun _ _ _ _ => .pure fun _ _ => trivial) fun b e c hab he => ?_
  match e with
  | .stop (.fault f) =>
    have hrest := (hf c (hab.trans he.1.upto) _ he.2.toValue).keeping (fun _ _ _ => id)
      f.value?.toList
    exact .after he.1 (hrest c he.1.proper (.refl c))
  | .stop .timeout | .brk | .cont | .ret v => exact he

/-- An exit that had somewhere to go has somewhere to go later. -/
theorem ExitsSafely.again {b c : Activation σ κ} {e : Exit} (he : e ≠ .stop .timeout)
    (h : ExitsSafely A home size ret loop b e c) : TurnsInto A home size b c ∧
      ∀ d, d.Proper A home size → c.Upto d → ExitsSafely A home size ret loop d e d := by
  match e with
  | .stop .timeout => exact absurd rfl he
  | .stop (.fault f) => exact ⟨h.1, fun d hd hcd => ⟨.refl hd, h.2.later hcd.later⟩⟩
  | .brk | .cont => exact ⟨h.2, fun d hd _ => ⟨h.1, .refl hd⟩⟩
  | .ret v => exact ⟨h.2.1, fun d hd hcd => ⟨h.1, .refl hd, h.2.2.later hcd.later⟩⟩

theorem Safe.ensuring (hx : Safe (.exit A home size ret loop) Any a x)
    (hy : ∀ b, a.Upto b → Safe (.exit A home size ret loop) Any b y) :
    Safe (.exit A home size ret loop) Any a (ensuring x y) := by
  rw [ensuring_eq]
  refine hx.thenDo (fun b hab _ _ => hy b hab) fun b e c hab he => ?_
  have hend : e ≠ .stop .timeout → Does (.exit A home size ret loop) Any b
      ((Eval.keeping (Exit.values e) y >>= fun _ => (MonadExcept.throw e : ExecM σ κ Unit)) c) := by
    intro hne
    obtain ⟨ht, hagain⟩ := ExitsSafely.again hne he
    have hrest : Safe (.exit A home size ret loop) Any c
        (Eval.keeping (Exit.values e) y >>= fun _ => (MonadExcept.throw e : ExecM σ κ Unit)) :=
      ((hy c (hab.trans ht.upto)).keeping (fun _ _ _ => id) _).bind fun d hd _ _ =>
        .throw fun d' hd' hdd' => hagain d' hd' (hd.trans hdd')
    exact .after ht (hrest c ht.proper (.refl c))
  match e with
  | .stop .timeout => exact he
  | .stop (.fault f) | .brk | .cont | .ret v => exact hend nofun

theorem Safe.turn (hx : Safe (.exit A home size ret true) Any a x)
    (hy : ∀ b, a.Upto b → Safe (.exit A home size ret loop) Any b y) :
    Safe (.exit A home size ret loop) Any a (turn x y) := by
  rw [turn_eq]
  refine hx.thenDo (fun b hab _ _ => hy b hab) fun b e c hab he => ?_
  match e with
  | .cont => exact .after he.2 (hy c (hab.trans he.2.upto) c he.2.proper (.refl c))
  | .brk => exact ⟨he.2, trivial⟩
  | .stop s | .ret v => exact he

end

/-! Closures. -/

section

variable {origin : StorageId} {room : Nat} {host : Host σ κ} {params : List String}
  {env : List (String × Value)} {args : List Value}

theorem later_inside : a.world.Later (inside host params env origin args a).world := by
  refine World.Later.trans ?_ (World.later_retain_callOver _ _ _)
  exact (((World.later_grasp a.world _).trans (World.later_visit host _ origin)).trans
    (World.later_letGo _ _))

theorem hands_inside : (inside host params env origin args a).world.hands =
    .storage origin :: [.values (env.map (·.2)), .evaluation a.frame a.resumption a.operands] ++
      a.world.hands := by
  have hcall : ∀ w : World σ κ, (w.callOver origin).hands = w.hands := by
    intro w
    unfold World.callOver
    split <;> rfl
  show .storage origin :: [.values (env.map (·.2)),
    .evaluation a.frame a.resumption a.operands] ++ ((World.letGo _ _).callOver origin).hands = _
  rw [hcall]
  rfl

theorem proper_inside (ha : a.Proper A home size) (hf : a.world.Fits origin room)
    (henv : ∀ b ∈ env, b.2.Proper S a.world) (hargs : AllUsable S a args) :
    (inside host params env origin args a).Proper A origin room := by
  have hlater : a.world.Later (inside host params env origin args a).world := later_inside
  have hframe : (inside host params env origin args a).frame.All (Value.Proper S a.world) := by
    refine Frame.All.defineAll ?_ fun b hb => hargs b.2 (of_mem_zip hb).2
    rintro s hs
    rcases mem_cons.mp hs with rfl | hs
    · exact nofun
    · obtain rfl := mem_singleton.mp hs
      exact henv
  have hscopes : (inside host params env origin args a).frame.scopes ≠ [] :=
    (Frame.under_defineAll _ _).nonempty nofun
  refine ⟨ha.world.call host origin _ rfl, hscopes,
    fun s hs b hb => (hframe s hs b hb).later hlater, nofun, ⟨hf.later hlater, ?_⟩⟩
  rw [World.cargo, hands_inside]
  exact mem_cons_self

theorem keeps_afterwards {b : Activation σ κ}
    (ht : TurnsInto A origin room (inside host params env origin args a) b) :
    World.Keeps A [] a.world ((b.world.release origin).letGo a.world.hands) ∧
      b.world.Later ((b.world.release origin).letGo a.world.hands) := by
  have hgone : (b.world.letGo a.world.hands).Proper A [.storage origin] :=
    ht.proper.world.letGo (ht.hands.trans hands_inside)
  have hfirst : b.world.Later (b.world.letGo a.world.hands) := World.later_letGo _ _
  have hlater : b.world.Later ((b.world.release origin).letGo a.world.hands) :=
    hfirst.trans (World.later_release _ origin)
  exact ⟨⟨hgone.release.proper, (later_inside.trans ht.later).trans hlater, rfl⟩, hlater⟩

theorem safe_enter {body : ExecM σ κ Unit} (hf : a.world.Fits origin room)
    (henv : ∀ b ∈ env, b.2.Proper S a.world) (hargs : AllUsable S a args)
    (hbody : ∀ b : Activation σ κ, a.world.Later b.world → args.length = params.length →
      b.frame = (Frame.mk [[], env]).defineAll (params.zip args) →
      Safe (.exit A origin room true false) Any b body) :
    Safe (.stop A home size) (Usable S) a (enter host params env origin args body) := by
  intro b hb hab
  rw [enter_eq]
  split
  · exact ⟨.refl hb, nofun⟩
  rename_i hlen
  let start := inside host params env origin args b
  have hs : start.Proper A origin room := proper_inside hb (hf.later hab.later)
    (fun p hp => (henv p hp).later hab.later) fun v hv => (hargs v hv).later hab.later
  have hr := hbody start (hab.later.trans later_inside) (Decidable.not_not.mp hlen) rfl start hs
    (.refl start)
  have hafter : ∀ {c}, TurnsInto A origin room start c →
      TurnsInto A home size b { b with world := (c.world.release origin).letGo b.world.hands } ∧
        c.world.Later ((c.world.release origin).letGo b.world.hands) :=
    fun ht => (keeps_afterwards ht).imp_left hb.inWorld
  cases hc : body start with
  | ok v c =>
    rw [hc] at hr
    exact ⟨(hafter hr.1).1, trivial⟩
  | error e c =>
    rw [hc] at hr
    match e with
    | .ret v => exact ⟨(hafter hr.2.1).1, hr.2.2.later (hafter hr.2.1).2⟩
    | .stop (.fault f) => exact ⟨(hafter hr.1).1, hr.2.later (hafter hr.1).2⟩
    | .stop .timeout => exact A.clean_of_eq hr rfl rfl rfl rfl
    | .brk | .cont =>
      have ht := (hafter hr.2).1
      exact .after ht (does_broken ht.proper (fun h => nomatch hr.1 h) _)

end

end

/-! The evaluator. -/

/-- What a statement that has ended has done for those after it. -/
structure Done (home : StorageId) (s : Stmt) (a : Activation σ κ) : Prop where
  shows : a.frame.Shows s.binds
  written : ∀ k ∈ s.sets, a.world.Written home k

/-- What the statements of a block have done. -/
structure AllDone (home : StorageId) (ss : Block) (a : Activation σ κ) : Prop where
  shows : a.frame.Shows (Stmt.bindsIn ss)
  written : ∀ k ∈ Stmt.setsIn ss, a.world.Written home k

/-- Code that meets the standard is safe. -/
structure Safely (host : Host σ κ) (A : Accounting S C) (n : Nat) : Prop where
  expr : ∀ {home size xs js a e}, a.Has home xs js → e.Fit S size xs js →
    Safe (.stop A home size) (Usable S) a (evalExpr host home n e)
  test : ∀ {home size xs js a e}, a.Has home xs js → e.Fit S size xs js →
    Safe (.stop A home size) Any a (evalTest host home n e)
  args : ∀ {home size xs js a es}, a.Has home xs js → Expr.FitIn S size xs js es →
    Safe (.stop A home size) (AllUsable S) a (evalArgs host home n es)
  value : ∀ {home size xs js a v es}, a.Has home xs js → Usable S a v →
    Expr.FitIn S size xs js es →
    Safe (.stop A home size) (Usable S) a (applyValue host home n v es)
  stmt : ∀ {home size xs js ret loop a s}, a.Has home xs js → s.Fit S size xs js ret loop →
    Safe (.exit A home size ret loop) (fun b _ => Done home s b) a (execStmt host home n s)
  block : ∀ {home size xs js ret loop a ss}, a.Has home xs js →
    Stmt.FitIn S size xs js ret loop ss →
    Safe (.exit A home size ret loop) (fun b _ => AllDone home ss b) a (execBlock host home n ss)

section

variable {host : Host σ κ} {A : Accounting S C} {home : StorageId} {size n : Nat}
  {xs : List String} {js : List Slot} {a : Activation σ κ}

theorem Done.of_nil {s : Stmt} (hb : s.binds = []) (hs : s.sets = []) : Done home s a :=
  ⟨by rw [hb]; nofun, by rw [hs]; nofun⟩

theorem Done.has {s : Stmt} {b : Activation σ κ} (hd : Done home s b) (ha : a.Has home xs js)
    (hab : a.Upto b) : b.Has home (xs ++ s.binds) (js ++ s.sets) :=
  ⟨(ha.upto hab).shows.append hd.shows, forall_mem_append.mpr ⟨(ha.upto hab).written, hd.written⟩⟩

/-- The statements that begin with the value of an expression, however that is come by. -/
theorem does_simple {ret loop : Bool} {s : Stmt} {e : Expr} (he : s.operand? = some e)
    (ha : a.Has home xs js) (hk : S.strict = true → s.storesIn size = true)
    (ht : S.definite = true → ∀ x ∈ s.target?, x ∈ xs)
    (hx : Does (.stop A home size) (Usable S) a (evalExpr host home n e a)) :
    Does (.exit A home size ret loop) (fun b _ => Done home s b) a
      (execStmt host home (n + 1) s a) := by
  cases s with
  | bind m x e =>
    cases he
    simp only [execStmt]
    refine hx.lift.bind fun b hab v hv => ?_
    exact ((safe_define x hv).lift.weaken fun c _ hc => ⟨hc, forall_mem_nil _⟩) b hab.proper
      (.refl b)
  | assign m x e =>
    cases he
    simp only [execStmt]
    refine hx.lift.bind fun b hab v hv => ?_
    have hx : S.definite = true → (b.frame.get? x).isSome = true :=
      fun hd => (ha.upto hab.upto).shows x (ht hd x rfl)
    exact ((safe_assign hx hv).lift.weaken fun _ _ _ => .of_nil rfl rfl) b hab.proper (.refl b)
  | store m k e =>
    cases he
    simp only [execStmt]
    refine hx.lift.bind fun b hab v hv => ?_
    have hk : S.strict = true → k < size := fun hs => of_decide_eq_true (hk hs)
    exact ((safe_store hk hv).lift.weaken fun c _ hc =>
      ⟨forall_mem_nil _, fun j hj => mem_singleton.mp hj ▸ hc⟩) b hab.proper (.refl b)
  | eval m e =>
    cases he
    simp only [execStmt]
    exact hx.lift.bind fun b hab v hv => ⟨.refl hab.proper, .of_nil rfl rfl⟩
  | throw m e =>
    cases he
    simp only [execStmt]
    refine hx.lift.bind fun b hab v hv => ⟨.refl hab.proper, fun u hu => ?_⟩
    cases hu
    exact hv
  | _ => cases he

namespace Safely

variable (h : Safely host A n)
include h

theorem binary (m : Mark) (op : BinaryOp) {l r : Expr} (ha : a.Has home xs js)
    (hl : l.Fit S size xs js) (hr : r.Fit S size xs js) :
    Safe (.stop A home size) (Usable S) a (evalExpr host home (n + 1) (.binary m op l r)) := by
  cases op with
  | and =>
    simp only [evalExpr]
    refine (h.test ha hl).bind fun b hab t _ => ?_
    cases t
    · exact .pure fun _ _ => trivial
    · exact (h.test (ha.upto hab) hr).bind fun _ _ _ _ => .pure fun _ _ => trivial
  | or =>
    simp only [evalExpr]
    refine (h.test ha hl).bind fun b hab t _ => ?_
    cases t
    · exact (h.test (ha.upto hab) hr).bind fun _ _ _ _ => .pure fun _ _ => trivial
    · exact .pure fun _ _ => trivial
  | _ =>
    simp only [evalExpr]
    refine (h.expr ha hl).bind fun b hab v _ => ?_
    refine ((h.expr (ha.upto hab) hr).keeping (fun _ _ _ => id) [v]).bind fun c _ u _ => ?_
    exact safe_get (BinaryOp.proper_apply c.world _ v u)

theorem call [host.Safe A] (m : Mark) {c : Expr} {es : List Expr} (ha : a.Has home xs js)
    (hc : (∀ m x, c ≠ .var m x) → c.Fit S size xs js) (hes : Expr.FitIn S size xs js es) :
    Safe (.stop A home size) (Usable S) a (evalExpr host home (n + 1) (.call m c es)) := by
  cases c with
  | var m' x =>
    simp only [evalExpr]
    intro b hb hab
    rw [get_bind]
    cases hx : b.frame.get? x with
    | none =>
      have hcall : Safe (.stop A home size) (Usable S) a
          (evalArgs host home n es >>= callHost host x) :=
        (h.args ha hes).bind fun c _ vs hvs => safe_callHost host x hvs
      exact hcall b hb hab
    | some v => exact h.value (ha.upto hab) (hb.frame.get? hx) hes b hb (.refl b)
  | _ =>
    rw [evalExpr]
    · exact (h.expr ha (hc (by simp))).bind fun b hab v hv => h.value (ha.upto hab) hv hes
    · simp

theorem next_expr [host.Safe A] {e : Expr} (ha : a.Has home xs js) (he : e.Fit S size xs js) :
    Safe (.stop A home size) (Usable S) a (evalExpr host home (n + 1) e) := by
  cases e with
  | unit | bool | int | str =>
    simp only [evalExpr]
    exact .pure fun _ _ => trivial
  | var m x =>
    simp only [evalExpr]
    exact safe_readVar fun hd => ha.shows x (he hd)
  | captured m k =>
    simp only [evalExpr]
    exact safe_load he.1 fun hd => ha.written k (he.2 hd)
  | binary m op l r => exact h.binary m op ha he.1 he.2
  | unary m op e =>
    simp only [evalExpr]
    exact (h.expr (e := e) ha he).bind fun b _ v _ => safe_get (UnaryOp.proper_apply b.world op v)
  | call m c es => exact h.call m ha he.1 he.2
  | lambda m ps b =>
    simp only [evalExpr]
    exact safe_makeClosure ha he
  | resume m =>
    simp only [evalExpr]
    exact safe_receive he
  | await m e =>
    simp only [evalExpr]
    exact safe_broken he _

theorem next_test {e : Expr} (ha : a.Has home xs js) (he : e.Fit S size xs js) :
    Safe (.stop A home size) Any a (evalTest host home (n + 1) e) := by
  simp only [evalTest]
  refine (h.expr ha he).bind fun b _ v _ => ?_
  cases ht : v.test with
  | ok t => exact .pure fun _ _ => trivial
  | error f => exact safe_raise (Value.proper_test b.world ht)

theorem next_args {es : List Expr} (ha : a.Has home xs js) (hes : Expr.FitIn S size xs js es) :
    Safe (.stop A home size) (AllUsable S) a (evalArgs host home (n + 1) es) := by
  cases es with
  | nil =>
    simp only [evalArgs]
    exact .pure fun _ _ => forall_mem_nil _
  | cons e es =>
    simp only [evalArgs]
    refine (h.expr ha hes.1).bind fun b hab v hv => ?_
    refine ((h.args (ha.upto hab) hes.2).keeping (fun _ _ _ => id) [v]).bind fun c hbc vs hvs => ?_
    refine .pure fun d hcd => forall_mem_cons.mpr ⟨?_, fun u hu => (hvs u hu).later hcd.later⟩
    exact hv.later (hbc.trans hcd).later

theorem next_value {v : Value} {es : List Expr} (ha : a.Has home xs js) (hv : Usable S a v)
    (hes : Expr.FitIn S size xs js es) :
    Safe (.stop A home size) (Usable S) a (applyValue host home (n + 1) v es) := by
  cases v with
  | closure i ps body env origin =>
    obtain ⟨⟨room, ys, ks, hf, hy, hk, hb⟩, henv⟩ := hv
    simp only [applyValue]
    refine ((h.args ha hes).keeping (fun _ _ _ => id) _).bind fun b hab vs hvs => ?_
    refine safe_enter (hf.later hab.later) ?_ hvs fun c hbc hlen hframe => ?_
    · exact Value.properIn_iff.mp (Value.ProperIn.later henv hab.later)
    -- the body finds the variables of the closure and its arguments
    have henvshow : (Frame.mk [[], env]).Shows (env.map (·.1)) := fun x hx =>
      Frame.isSome_get?.mpr ⟨env, by simp, Named.isSome_get?.mpr hx⟩
    have hargshow := Frame.shows_defineAll (f := ⟨[[], env]⟩) (cons_ne_nil _ _) (ps.zip vs)
    rw [map_fst_zip (Nat.le_of_eq hlen.symm)] at hargshow
    have hhas : c.Has origin ys ks := by
      refine ⟨fun x hx => ?_, fun k hk' => (hk k hk').later (hab.later.trans hbc)⟩
      rw [hframe]
      rcases hy x hx with hx | hx
      · exact (Frame.under_defineAll _ _).shows henvshow x hx
      · exact hargshow x hx
    exact (h.block hhas hb).weaken fun _ _ _ => trivial
  | _ =>
    rw [applyValue]
    · exact safe_raise (f := .typeError _) (by rintro _ ⟨⟩)
    · simp

theorem scope {ret loop : Bool} {b : Block} (ha : a.Has home xs js)
    (hb : Stmt.FitIn S size xs js ret loop b) :
    Safe (.exit A home size ret loop) Any a (inScope (execBlock host home n b)) := by
  exact Safe.inScope ((h.block ha.push hb).weaken fun _ _ _ => trivial)

theorem caught {ret loop : Bool} {b : Block} {c : Option Catch} (ha : a.Has home xs js)
    (hb : Stmt.FitIn S size xs js ret loop b) (hc : Stmt.ClauseFit S size xs js ret loop c) :
    Safe (.exit A home size ret loop) Any a (Eval.caught host home n b c) := by
  have hbody := h.scope ha hb
  match c with
  | none => exact hbody
  | some (.mk none cb) =>
    simp only [Eval.caught]
    refine hbody.rescue fun d had _ _ => h.scope (ha.upto had) ?_
    simpa [Stmt.ClauseFit] using hc
  | some (.mk (some x) cb) =>
    simp only [Eval.caught]
    refine hbody.rescue fun d had v hv => Safe.inScope ?_
    have hd : d.Has home xs js := ha.upto had
    have hv : Usable S { d with frame := d.frame.push } v := hv
    refine (safe_define x hv).lift.bind fun b' hb' _ hx => ?_
    have hb'' := hd.push.upto hb'
    exact (h.block ⟨hb''.shows.append hx, hb''.written⟩ hc).weaken fun _ _ _ => trivial

theorem next_stmt {ret loop : Bool} {s : Stmt} (ha : a.Has home xs js)
    (hs : s.Fit S size xs js ret loop) :
    Safe (.exit A home size ret loop) (fun b _ => Done home s b) a
      (execStmt host home (n + 1) s) := by
  cases s with
  | bind m x e =>
    exact fun b hb hab => does_simple rfl (ha.upto hab) (fun _ => rfl) nofun (h.expr ha hs b hb hab)
  | assign m x e =>
    refine fun b hb hab => does_simple rfl (ha.upto hab) (fun _ => rfl) (fun hd y hy => ?_)
      (h.expr ha hs.2 b hb hab)
    cases hy
    exact hs.1 hd
  | store m k e =>
    exact fun b hb hab => does_simple rfl (ha.upto hab) (fun hd => decide_eq_true (hs.1 hd)) nofun
      (h.expr ha hs.2 b hb hab)
  | eval m e =>
    exact fun b hb hab => does_simple rfl (ha.upto hab) (fun _ => rfl) nofun (h.expr ha hs b hb hab)
  | throw m e =>
    exact fun b hb hab => does_simple rfl (ha.upto hab) (fun _ => rfl) nofun (h.expr ha hs b hb hab)
  | cond m t x y =>
    simp only [execStmt]
    refine (h.test ha hs.1).lift.bind fun b hab yes _ => ?_
    refine Safe.weaken (G := Any) ?_ fun _ _ _ => .of_nil rfl rfl
    cases yes
    · exact h.scope (ha.upto hab) hs.2.2
    · exact h.scope (ha.upto hab) hs.2.1
  | loop m t b =>
    rw [execStmt_loop]
    refine (h.test ha hs.1).lift.bind fun c hac again _ => ?_
    refine Safe.weaken (G := Any) ?_ fun _ _ _ => .of_nil rfl rfl
    cases again
    · exact .pure fun _ _ => trivial
    · refine (h.scope (ha.upto hac) hs.2).turn fun d hcd => ?_
      exact (h.stmt (ha.upto (hac.trans hcd)) hs).weaken fun _ _ _ => trivial
  | attempt m b c f =>
    rw [execStmt_attempt]
    have hguard := h.caught ha hs.1 hs.2.1
    refine Safe.weaken (G := Any) ?_ fun _ _ _ => .of_nil rfl rfl
    cases f with
    | none => exact hguard
    | some fb => exact hguard.ensuring fun d had => h.scope (ha.upto had) hs.2.2
  | ret m e =>
    cases e with
    | none =>
      simp only [execStmt]
      exact .throw fun b hb _ => ⟨hs, .refl hb, trivial⟩
    | some e =>
      simp only [execStmt]
      exact (h.expr ha hs.2).lift.bind fun b _ v hv =>
        .throw fun c hc hbc => ⟨hs.1, .refl hc, hv.later hbc.later⟩
  | brk | cont =>
    simp only [execStmt]
    exact .throw fun b hb _ => ⟨hs, .refl hb⟩
  | block m b =>
    simp only [execStmt]
    exact (h.scope ha hs).weaken fun _ _ _ => .of_nil rfl rfl
  | yield | yieldBreak =>
    simp only [execStmt]
    exact (safe_broken hs _).lift

theorem next_block {ret loop : Bool} {ss : List Stmt} (ha : a.Has home xs js)
    (hss : Stmt.FitIn S size xs js ret loop ss) :
    Safe (.exit A home size ret loop) (fun b _ => AllDone home ss b) a
      (execBlock host home (n + 1) ss) := by
  cases ss with
  | nil =>
    simp only [execBlock]
    exact .pure fun _ _ => ⟨forall_mem_nil _, forall_mem_nil _⟩
  | cons s ss =>
    simp only [execBlock]
    refine (h.stmt ha hss.1).bind fun b hab _ hd => ?_
    refine (h.block (hd.has ha hab) hss.2).since.weaken fun c _ hc => ⟨?_, ?_⟩
    · exact (hc.1.under.shows hd.shows).append hc.2.shows
    · exact forall_mem_append.mpr
        ⟨fun k hk => (hd.written k hk).later hc.1.later, hc.2.written⟩

end Safely

theorem safely (host : Host σ κ) (A : Accounting S C) [host.Safe A] (n : Nat) :
    Safely host A n := by
  induction n with
  | zero =>
    constructor <;> intros
    · rw [evalExpr]
      exact .throw fun b hb _ => A.clean hb.world.balanced
    · rw [evalTest]
      exact .throw fun b hb _ => A.clean hb.world.balanced
    · rw [evalArgs]
      exact .throw fun b hb _ => A.clean hb.world.balanced
    · rw [applyValue]
      exact .throw fun b hb _ => A.clean hb.world.balanced
    · rw [execStmt]
      exact .throw fun b hb _ => A.clean hb.world.balanced
    · rw [execBlock]
      exact .throw fun b hb _ => A.clean hb.world.balanced
  | succ n ih =>
    exact ⟨ih.next_expr, ih.next_test, ih.next_args, ih.next_value, ih.next_stmt, ih.next_block⟩

end

end Eval

end Resumable

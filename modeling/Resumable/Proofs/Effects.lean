import Resumable.Proofs.Discretion
import Resumable.Proofs.Later
import Resumable.Proofs.Sight

namespace Resumable

open List

variable {e : Exit} {es : List Expr} {S : Nat → Prop} {env : List (String × Value)}

mutual

/-- The names that a statement assigns to, outside of its lambdas. -/
def Stmt.assigned : Stmt → List String
  | .assign _ x _ => [x]
  | .cond _ _ a b => Stmt.assignedIn a ++ Stmt.assignedIn b
  | .loop _ _ b | .block _ b => Stmt.assignedIn b
  | .attempt _ b c f => Stmt.assignedIn b ++ Stmt.assignedClause c ++ Stmt.assignedCleanup f
  | .bind .. | .store .. | .eval .. | .throw .. | .yield .. | .yieldBreak _ | .ret .. | .brk _
  | .cont _ => []

def Stmt.assignedClause : Option Catch → List String
  | none => []
  | some (.mk _ b) => Stmt.assignedIn b

def Stmt.assignedCleanup : Option (List Stmt) → List String
  | none => []
  | some b => Stmt.assignedIn b

def Stmt.assignedIn : List Stmt → List String
  | [] => []
  | s :: ss => s.assigned ++ Stmt.assignedIn ss

end

/-- What code may do to the code around it. -/
structure Effect where
  /-- The names that it may declare in the innermost scope. -/
  declares : List String := []
  /-- The names that it may assign to. -/
  assigns : List String := []
  /-- Inside so many loops it does not jump out of them. -/
  stays : Nat → Prop := fun _ => True

def Stmt.effect (s : Stmt) : Effect :=
  ⟨s.binds, s.assigned, fun d => s.escape d = none⟩

def Stmt.effectIn (ss : List Stmt) : Effect :=
  ⟨Stmt.bindsIn ss, Stmt.assignedIn ss, fun d => Stmt.escapeIn d ss = none⟩

/-- The exit leads out of code that stands inside so many loops. -/
def Exit.Leaves (depth : Nat) : Exit → Prop
  | .stop _ => False
  | .brk | .cont => depth = 0
  | .ret _ => True

/-! How the variables of a frame may change. -/

namespace Frame

/-- The value of a name in one scope; the innermost scope has number 0. -/
def valueIn (f : Frame) (i : Nat) (x : String) : Option Value :=
  f.scopes[i]?.bind (·.get? x)

/-- The names `new` may come to the innermost scope, and the names `xs` may get other values. All
else stays as it is. -/
structure Alters (new xs : List String) (f g : Frame) : Prop where
  scopes : g.scopes.length = f.scopes.length
  outer : ∀ i x, 0 < i → (g.valueIn i x).isSome = (f.valueIn i x).isSome
  kept : ∀ x, (f.valueIn 0 x).isSome = true → (g.valueIn 0 x).isSome = true
  gained : ∀ x, (g.valueIn 0 x).isSome = true → (f.valueIn 0 x).isSome = true ∨ x ∈ new
  values : ∀ i x, x ∉ xs → (i = 0 → x ∉ new) → g.valueIn i x = f.valueIn i x

variable {f g h : Frame} {new new' xs xs' : List String} {x : String} {v : Value}

@[simp] theorem valueIn_push_succ (f : Frame) (i : Nat) (x : String) :
    f.push.valueIn (i + 1) x = f.valueIn i x := rfl

@[simp] theorem valueIn_pop (f : Frame) (i : Nat) (x : String) :
    f.pop.valueIn i x = f.valueIn (i + 1) x := by
  simp [valueIn, pop]

theorem Alters.refl (new xs : List String) (f : Frame) : f.Alters new xs f :=
  ⟨rfl, fun _ _ _ => rfl, fun _ => id, fun _ => .inl, fun _ _ _ _ => rfl⟩

theorem Alters.trans (hfg : f.Alters new xs g) (hgh : g.Alters new xs h) : f.Alters new xs h where
  scopes := hgh.scopes.trans hfg.scopes
  outer i x hi := (hgh.outer i x hi).trans (hfg.outer i x hi)
  kept x hx := hgh.kept x (hfg.kept x hx)
  gained x hx := (hgh.gained x hx).elim (hfg.gained x) .inr
  values i x hx hn := (hgh.values i x hx hn).trans (hfg.values i x hx hn)

theorem Alters.mono (hfg : f.Alters new xs g) (hn : new ⊆ new') (hx : xs ⊆ xs') :
    f.Alters new' xs' g where
  scopes := hfg.scopes
  outer := hfg.outer
  kept := hfg.kept
  gained x hg := (hfg.gained x hg).imp_right (hn ·)
  values i x hx' hn' := hfg.values i x (fun h => hx' (hx h)) fun hi h => hn' hi (hn h)

/-- What has happened inside of a scope, when the scope has ended. -/
theorem Alters.pop (hfg : f.push.Alters new xs g) : f.Alters [] xs g.pop where
  scopes := by
    have hlen : g.scopes.length = f.scopes.length + 1 := hfg.scopes
    simp [Frame.pop, hlen]
  outer i x _ := by
    rw [valueIn_pop, hfg.outer (i + 1) x (Nat.succ_pos i), valueIn_push_succ]
  kept x hx := by
    rw [valueIn_pop, hfg.outer 1 x Nat.one_pos]
    exact hx
  gained x hx := by
    rw [valueIn_pop, hfg.outer 1 x Nat.one_pos] at hx
    exact .inl hx
  values i x hx _ := by
    rw [valueIn_pop, hfg.values (i + 1) x hx nofun, valueIn_push_succ]

theorem valueIn_define (f : Frame) (x y : String) (v : Value) (i : Nat)
    (h : i = 0 → y ≠ x) : (f.define x v).valueIn i y = f.valueIn i y := by
  obtain ⟨scopes⟩ := f
  cases scopes with
  | nil => rfl
  | cons s rest =>
    cases i with
    | zero => exact Named.get?_put_of_ne s v (h rfl)
    | succ i => rfl

theorem alters_define (f : Frame) (x : String) (v : Value) (xs : List String) :
    f.Alters [x] xs (f.define x v) where
  scopes := length_scopes_define f x v
  outer i y hi := by rw [valueIn_define f x y v i fun h => absurd h (Nat.ne_of_gt hi)]
  kept y hy := by
    obtain ⟨scopes⟩ := f
    cases scopes with
    | nil => cases hy
    | cons s rest =>
      by_cases hxy : y = x
      · subst hxy
        exact congrArg Option.isSome (Named.get?_put_self s y v)
      · rw [valueIn_define _ x y v 0 fun _ => hxy]
        exact hy
  gained y hy := by
    by_cases hxy : y = x
    · exact .inr (mem_singleton.mpr hxy)
    · rw [valueIn_define f x y v 0 fun _ => hxy] at hy
      exact .inl hy
  values i y _ hn := valueIn_define f x y v i fun hi => ne_of_not_mem_cons (hn hi)

theorem get?_assign_bindings {s t : Bindings} (hs : Bindings.assign? x v s = some t) (y : String) :
    (t.get? y).isSome = (s.get? y).isSome ∧ (y ≠ x → t.get? y = s.get? y) := by
  refine ⟨?_, fun hy => ?_⟩
  · rw [Bool.eq_iff_iff, Named.isSome_get?, Named.isSome_get?, names_assign hs]
  · induction s generalizing t with
    | nil => cases hs
    | cons p s ih =>
      obtain ⟨z, old⟩ := p
      rw [Bindings.assign?] at hs
      split at hs
      · rename_i hz
        cases hs
        have hne : (y == z) = false := beq_eq_false_iff_ne.mpr (hz ▸ hy)
        simp only [Named.get?, lookup_cons, hne]
      · obtain ⟨t₁, ht₁, rfl⟩ := Option.map_eq_some_iff.mp hs
        have hrest : t₁.lookup y = s.lookup y := ih ht₁
        simp only [Named.get?, lookup_cons, hrest]

theorem valueIn_assign (hg : f.assign? x v = some g) : g.scopes.length = f.scopes.length ∧
    ∀ i y, (g.valueIn i y).isSome = (f.valueIn i y).isSome ∧
      (y ≠ x → g.valueIn i y = f.valueIn i y) := by
  obtain ⟨ss⟩ := f
  obtain ⟨ts, hts, rfl⟩ := Option.map_eq_some_iff.mp hg
  clear hg
  dsimp only at hts
  induction ss generalizing ts with
  | nil => cases hts
  | cons s ss ih =>
    rw [assign?.go] at hts
    split at hts
    · rename_i t ht
      cases hts
      refine ⟨rfl, fun i y => ?_⟩
      cases i with
      | zero => exact get?_assign_bindings ht y
      | succ i => exact ⟨rfl, fun _ => rfl⟩
    · obtain ⟨ts₁, hts₁, rfl⟩ := Option.map_eq_some_iff.mp hts
      obtain ⟨hlen, hvalues⟩ := ih ts₁ hts₁
      refine ⟨congrArg (· + 1) hlen, fun i y => ?_⟩
      cases i with
      | zero => exact ⟨rfl, fun _ => rfl⟩
      | succ i => exact hvalues i y

theorem alters_assign (hg : f.assign? x v = some g) (new : List String) : f.Alters new [x] g := by
  obtain ⟨hlen, hvalues⟩ := valueIn_assign hg
  refine ⟨hlen, fun i y _ => (hvalues i y).1, fun y hy => ?_, fun y hy => ?_, fun i y hy _ => ?_⟩
  · rw [(hvalues 0 y).1]
    exact hy
  · rw [(hvalues 0 y).1] at hy
    exact .inl hy
  · exact (hvalues i y).2 (ne_of_not_mem_cons hy)

end Frame

/-! Code that comes to no pause. -/

mutual

/-- The closures in a value come to no pause when they are called. -/
def Value.Calm : Value → Prop
  | .closure _ _ body env _ =>
    (∃ size, Stmt.runIn true size true false body = true) ∧ Value.CalmIn env
  | .unit | .bool _ | .int _ | .str _ | .future _ => True

def Value.CalmIn : List (String × Value) → Prop
  | [] => True
  | (_, v) :: rest => v.Calm ∧ Value.CalmIn rest

end

def Fault.Calm (f : Fault) : Prop :=
  ∀ v ∈ f.value?, v.Calm

def Outcome.Calm : Outcome → Prop
  | .ok v => v.Calm
  | .error f => f.Calm

/-- The faults of an evaluator that comes to a pause, which it does not know. -/
def Fault.IsPause : Fault → Prop
  | .internal text => text = "yield outside a lowered state" ∨
      text = "await reached the evaluator without being lowered"
  | _ => False

section

variable {σ κ : Type}

def World.Calm (w : World σ κ) : Prop :=
  ∀ c ∈ w.storages.toList, ∀ v ∈ c.slots, v.Calm

/-- A host that brings in no other closures than calm ones. It may rely on an invariant of what is
its own and of futures. -/
def Host.Calm (host : Host σ κ) (I : σ → Array (FutureCell κ) → Prop) : Prop :=
  ∀ {name args w o w'}, (∀ v ∈ args, v.Calm) → w.Calm → I w.ext w.futures →
    host.call name args w = .ok o w' → o.Calm ∧ w'.Calm ∧ I w'.ext w'.futures

/-- The fault is an answer of the host to a call that code may come to under the invariant. -/
def Host.Answers (host : Host σ κ) (I : σ → Array (FutureCell κ) → Prop) (f : Fault) : Prop :=
  ∃ name args w w', (∀ v ∈ args, v.Calm) ∧ w.Calm ∧ I w.ext w.futures ∧
    host.call name args w = .ok (.error f) w'

/-- All that code finds is calm, and the host has what it relies on. -/
structure Activation.Calm (I : σ → Array (FutureCell κ) → Prop) (a : Activation σ κ) : Prop where
  frame : a.frame.All Value.Calm
  world : a.world.Calm
  inv : I a.world.ext a.world.futures

/-- An exit by the fault of a pause is the doing of the host. -/
def Exit.Calm (host : Host σ κ) (I : σ → Array (FutureCell κ) → Prop) : Exit → Prop
  | .stop (.fault f) => f.Calm ∧ (f.IsPause → host.Answers I f)
  | .ret v => v.Calm
  | .stop .timeout | .brk | .cont => True

theorem Value.calmIn_iff {bs : List (String × Value)} :
    Value.CalmIn bs ↔ ∀ b ∈ bs, b.2.Calm := by
  induction bs with
  | nil => exact iff_of_true trivial nofun
  | cons b bs ih => rw [Value.CalmIn, ih, forall_mem_cons]

theorem Fault.Calm.toValue {f : Fault} (h : f.Calm) : f.toValue.Calm := by
  cases f with
  | thrown v => exact h v rfl
  | _ => trivial

variable {host : Host σ κ}

/-- The operations on values go wrong in ways of their own. -/
theorem BinaryOp.calm_apply (op : BinaryOp) (l r : Value) :
    (op.apply l r).Calm ∧ ∀ f, op.apply l r = .error f → ¬ f.IsPause := by
  unfold BinaryOp.apply
  split
  all_goals try split
  all_goals first | exact ⟨trivial, nofun⟩ | exact ⟨nofun, fun _ h => by cases h; exact id⟩

theorem UnaryOp.calm_apply (op : UnaryOp) (v : Value) :
    (op.apply v).Calm ∧ ∀ f, op.apply v = .error f → ¬ f.IsPause := by
  unfold UnaryOp.apply
  split
  all_goals first | exact ⟨trivial, nofun⟩ | exact ⟨nofun, fun _ h => by cases h; exact id⟩

theorem Value.calm_test {v : Value} {f : Fault} (h : v.test = .error f) :
    f.Calm ∧ ¬ f.IsPause := by
  unfold Value.test at h
  split at h
  · cases h
  · cases h
    exact ⟨nofun, id⟩

namespace World

variable {w : World σ κ}

section

variable (h : w.Calm)
include h

theorem Calm.load? {home : StorageId} {k : Slot} {v : Value}
    (hv : w.load? home k = some v) : v.Calm := by
  obtain ⟨c, hc, hv⟩ := Option.bind_eq_some_iff.mp hv
  rw [← Array.getElem?_toList] at hc
  exact h c (mem_of_getElem? hc) v (mem_of_getElem? hv)

theorem Calm.changeStorage (home : StorageId) {g : StorageCell → StorageCell}
    (hg : ∀ c, ∀ v ∈ (g c).slots, v ∈ c.slots ∨ v.Calm) : (w.changeStorage home g).Calm := by
  intro c hc v hv
  rcases mem_changeStorage hc with hc | ⟨old, hold, rfl⟩
  · exact h c hc v hv
  · rw [← Array.getElem?_toList] at hold
    exact (hg old v hv).elim (h old (mem_of_getElem? hold) v) id

theorem Calm.store (home : StorageId) (k : Slot) {v : Value} (hv : v.Calm) :
    (w.store home k v).Calm := by
  refine h.changeStorage home fun c u hu => ?_
  rcases mem_or_eq_of_mem_set hu with hu | rfl
  · exact .inl hu
  · exact .inr hv

theorem Calm.release (home : StorageId) : (w.release home).Calm := by
  refine h.changeStorage home fun c v hv => ?_
  split at hv
  · cases hv
  · exact .inl hv

theorem Calm.visit (host : Host σ κ) (home : StorageId) : (w.visit host home).Calm := by
  unfold World.visit
  split
  · exact h.changeStorage home fun _ _ => nofun
  · exact h

theorem Calm.callOver (home : StorageId) : (w.callOver home).Calm := by
  unfold World.callOver
  split <;> exact h

end

end World

/-- A call of a closure starts from its variables and its arguments. -/
theorem Activation.Calm.inside {I : σ → Array (FutureCell κ) → Prop} {a : Activation σ κ}
    (h : a.Calm I) (host : Host σ κ) (params : List String) (henv : Value.CalmIn env)
    (home : StorageId) {args : List Value} (hargs : ∀ v ∈ args, v.Calm) :
    (Eval.inside host params env home args a).Calm I := by
  refine ⟨?_, ?_, ?_⟩
  · refine Frame.All.defineAll ?_ fun b hb => hargs b.2 (of_mem_zip hb).2
    intro s hs b hb
    rcases mem_cons.mp hs with rfl | hs
    · cases hb
    · cases mem_singleton.mp hs
      exact Value.calmIn_iff.mp henv b hb
  · refine World.Calm.changeStorage (World.Calm.callOver ?_ home) home fun _ _ => .inl
    exact World.Calm.visit (w := a.world.grasp _) h.world host home
  · have hinv := h.inv
    simp only [Eval.inside, World.callOver, World.visit]
    split <;> split <;> exact hinv

end

/-! How code may end. -/

/-- A host that code runs with, and what it keeps to if code is to come to no pause. -/
structure Setting (σ κ : Type) where
  host : Host σ κ
  calm : Prop
  inv : σ → Array (FutureCell κ) → Prop
  call : calm → host.Calm inv

namespace Setting

open Eval

variable {σ κ ε α β : Type}

section

variable (C : Setting σ κ) (E : Effect)

/-- What is true of an exit, and of what it leaves. If steps run out, all may be left undone. -/
def Stops (e : Exit) (b : Activation σ κ) : Prop :=
  (∀ d, E.stays d → ¬ e.Leaves d) ∧
    (C.calm → e = .stop .timeout ∨ b.Calm C.inv ∧ e.Calm C.host C.inv)

/-- How code that is given `a` may end: normally with a value that has `P`, or by an exit. -/
def Ends (exit : ε → Exit) (P : α → Prop) (a : Activation σ κ) :
    EStateM.Result ε (Activation σ κ) α → Prop
  | .ok v b => a.frame.Alters E.declares E.assigns b.frame ∧ (C.calm → b.Calm C.inv ∧ P v)
  | .error e b => a.frame.Alters E.declares E.assigns b.frame ∧ C.Stops E (exit e) b

/-- Code that always ends in these ways. -/
def Does (exit : ε → Exit) (P : α → Prop) (x : EStateM ε (Activation σ κ) α) : Prop :=
  ∀ a, (C.calm → a.Calm C.inv) → C.Ends E exit P a (x a)

/-- A statement has no value. -/
abbrev Runs (x : ExecM σ κ Unit) : Prop :=
  C.Does E id (fun _ => True) x

/-- An expression has no effect. -/
abbrev Gives (P : α → Prop) (x : EvalM σ κ α) : Prop :=
  C.Does {} Exit.stop P x

end

variable {C : Setting σ κ} {E E' : Effect} {exit : ε → Exit} {P : α → Prop} {Q : β → Prop}

theorem Stops.calm {b : Activation σ κ} (h : C.Stops E e b) (he : e ≠ .stop .timeout)
    (hc : C.calm) : b.Calm C.inv ∧ e.Calm C.host C.inv :=
  (h.2 hc).resolve_left he

namespace Does

theorem pure {v : α} (hv : C.calm → P v) : C.Does E exit P (Pure.pure v) :=
  fun a ha => ⟨.refl _ _ a.frame, fun hc => ⟨ha hc, hv hc⟩⟩

theorem throw {e : ε} (hs : ∀ d, E.stays d → ¬ (exit e).Leaves d)
    (he : C.calm → (exit e).Calm C.host C.inv) : C.Does E exit P (MonadExcept.throw e) :=
  fun a ha => ⟨.refl _ _ a.frame, hs, fun hc => .inr ⟨ha hc, he hc⟩⟩

theorem timeout {e : ε} (he : exit e = .stop .timeout) : C.Does E exit P (MonadExcept.throw e) :=
  fun a _ => ⟨.refl _ _ a.frame, fun _ _ => he ▸ id, fun _ => .inl he⟩

theorem mono {x : EStateM ε (Activation σ κ) α} (hx : C.Does E exit P x)
    (hd : E.declares ⊆ E'.declares) (ha : E.assigns ⊆ E'.assigns)
    (hs : ∀ d, E'.stays d → E.stays d) : C.Does E' exit P x := by
  intro a hcalm
  have hxa := hx a hcalm
  cases hr : x a with
  | ok v b =>
    rw [hr] at hxa
    exact ⟨hxa.1.mono hd ha, hxa.2⟩
  | error e b =>
    rw [hr] at hxa
    exact ⟨hxa.1.mono hd ha, fun d h => hxa.2.1 d (hs d h), hxa.2.2⟩

theorem thenDo {δ : Type} {exit' : δ → Exit} {x : EStateM ε (Activation σ κ) α}
    {k : Except ε α → EStateM δ (Activation σ κ) β} (hx : C.Does { E with stays := S } exit P x)
    (hk : ∀ v, (C.calm → P v) → C.Does E exit' Q (k (.ok v)))
    (he : ∀ e b, C.Stops { E with stays := S } (exit e) b → C.Ends E exit' Q b (k (.error e) b)) :
    C.Does E exit' Q (thenDo x k) := by
  intro a ha
  have hxa := hx a ha
  have hafter : ∀ {b r}, a.frame.Alters E.declares E.assigns b.frame →
      C.Ends E exit' Q b r → C.Ends E exit' Q a r := by
    intro b r hab hr
    cases r with
    | ok v c => exact ⟨hab.trans hr.1, hr.2⟩
    | error e c => exact ⟨hab.trans hr.1, hr.2⟩
  simp only [Resumable.thenDo]
  cases hr : x a with
  | ok v b =>
    rw [hr] at hxa
    exact hafter hxa.1 (hk v (fun hc => (hxa.2 hc).2) b fun hc => (hxa.2 hc).1)
  | error e b =>
    rw [hr] at hxa
    exact hafter hxa.1 (he e b hxa.2)

theorem bind {x : EStateM ε (Activation σ κ) α} {f : α → EStateM ε (Activation σ κ) β}
    (hx : C.Does E exit P x) (hf : ∀ v, (C.calm → P v) → C.Does E exit Q (f v)) :
    C.Does E exit Q (x >>= f) := by
  rw [bind_eq_thenDo]
  exact hx.thenDo hf fun e b hs => ⟨.refl _ _ b.frame, hs⟩

theorem get {f : Activation σ κ → EStateM ε (Activation σ κ) α}
    (hf : ∀ a, (C.calm → a.Calm C.inv) → C.Does E exit P (f a)) :
    C.Does E exit P (MonadState.get >>= f) :=
  fun a ha => hf a ha a ha

theorem keeping {x : EStateM ε (Activation σ κ) α} (hx : C.Does E exit P x) (vs : List Value) :
    C.Does E exit P (keeping vs x) := by
  intro a ha
  have hxa := hx { a with operands := vs ++ a.operands } fun hc =>
    ⟨(ha hc).frame, (ha hc).world, (ha hc).inv⟩
  simp only [Eval.keeping]
  cases hr : x { a with operands := vs ++ a.operands } with
  | ok v b =>
    rw [hr] at hxa
    exact ⟨hxa.1, fun hc => (hxa.2 hc).imp_left fun h => ⟨h.frame, h.world, h.inv⟩⟩
  | error e b =>
    rw [hr] at hxa
    exact ⟨hxa.1, hxa.2.1, fun hc =>
      (hxa.2.2 hc).imp_right fun h => ⟨⟨h.1.frame, h.1.world, h.1.inv⟩, h.2⟩⟩

theorem lift {x : EvalM σ κ α} (hx : C.Gives P x) : C.Does E id P x.lift := by
  have hmono : C.Does E Exit.stop P x :=
    hx.mono (nil_subset _) (nil_subset _) fun _ _ => trivial
  intro a ha
  have hxa := hmono a ha
  simp only [EvalM.lift, EStateM.adaptExcept]
  cases hr : x a <;> rw [hr] at hxa <;> exact hxa

variable {x y : ExecM σ κ Unit}

theorem inScope (new : List String) (hx : C.Runs { E with declares := new } x) :
    C.Runs E (inScope x) := by
  intro a ha
  have hxa := hx { a with frame := a.frame.push } fun hc =>
    ⟨(ha hc).frame.push, (ha hc).world, (ha hc).inv⟩
  have hpop : ∀ {f g : Frame}, f.push.Alters new E.assigns g →
      f.Alters E.declares E.assigns g.pop := fun h =>
    h.pop.mono (nil_subset _) (List.Subset.refl _)
  simp only [Eval.inScope]
  cases hr : x { a with frame := a.frame.push } with
  | ok v b =>
    rw [hr] at hxa
    exact ⟨hpop hxa.1, fun hc => (hxa.2 hc).imp_left fun h => ⟨h.frame.pop, h.world, h.inv⟩⟩
  | error e b =>
    rw [hr] at hxa
    exact ⟨hpop hxa.1, hxa.2.1, fun hc =>
      (hxa.2.2 hc).imp_right fun h => ⟨⟨h.1.frame.pop, h.1.world, h.1.inv⟩, h.2⟩⟩

theorem rescue {f : Value → ExecM σ κ Unit} (hx : C.Runs E x)
    (hf : ∀ v, (C.calm → v.Calm) → C.Runs E (f v)) : C.Runs E (rescue x f) := by
  rw [rescue_eq]
  refine hx.thenDo (fun _ _ => .pure fun _ => trivial) fun e b hs => ?_
  match e with
  | .stop (.fault e) =>
    have hcalm := hs.calm nofun
    exact (hf _ fun hc => (hcalm hc).2.1.toValue).keeping _ b fun hc => (hcalm hc).1
  | .stop .timeout | .brk | .cont | .ret v => exact ⟨.refl _ _ b.frame, hs⟩

/-- A cleanup may replace an exit by one of its own. -/
theorem ensuring (hx : C.Runs E x) (hy : C.Runs E y) : C.Runs E (ensuring x y) := by
  rw [ensuring_eq]
  refine hx.thenDo (fun _ _ => hy) fun e b hs => ?_
  match e with
  | .stop .timeout => exact ⟨.refl _ _ b.frame, hs⟩
  | .stop (.fault _) | .brk | .cont | .ret v =>
    have hcalm := hs.calm nofun
    exact (hy.keeping _).bind (fun _ _ => .throw hs.1 fun hc => (hcalm hc).2) b
      fun hc => (hcalm hc).1

theorem turn (hx : C.Runs { E with stays := S } x) (hS : ∀ d, E.stays d → S (d + 1))
    (hy : C.Runs E y) : C.Runs E (turn x y) := by
  rw [turn_eq]
  refine hx.thenDo (fun _ _ => hy) fun e b hs => ?_
  match e with
  | .cont => exact hy b fun hc => (hs.calm nofun hc).1
  | .brk => exact ⟨.refl _ _ b.frame, fun hc => ⟨(hs.calm nofun hc).1, trivial⟩⟩
  | .stop s => exact ⟨.refl _ _ b.frame, fun _ _ => id, hs.2⟩
  | .ret v => exact ⟨.refl _ _ b.frame, fun d hd => hs.1 (d + 1) (hS d hd), hs.2⟩

end Does

/-! Operations. -/

theorem gives_raise {f : Fault} (hf : f.Calm) (hp : ¬ f.IsPause) : C.Gives P (raise f) :=
  .throw (fun _ _ => id) fun _ => ⟨hf, fun h => absurd h hp⟩

theorem gives_get {o : Outcome} (ho : o.Calm ∧ ∀ f, o = .error f → ¬ f.IsPause) :
    C.Gives Value.Calm o.get := by
  cases o with
  | ok v => exact .pure fun _ => ho.1
  | error f => exact gives_raise ho.1 (ho.2 f rfl)

theorem gives_broken {text : String} (ht : C.calm → ¬ (Fault.internal text).IsPause) :
    C.Gives P (broken text) :=
  fun a ha => ⟨.refl _ _ a.frame, fun _ _ => id, fun hc =>
    .inr ⟨⟨(ha hc).frame, (ha hc).world, (ha hc).inv⟩, nofun, fun h => absurd h (ht hc)⟩⟩

theorem gives_missing (x : String) : C.Gives P (missing x) :=
  fun a ha => ⟨.refl _ _ a.frame, fun _ _ => id, fun hc =>
    .inr ⟨⟨(ha hc).frame, (ha hc).world, (ha hc).inv⟩, nofun, False.elim⟩⟩

theorem gives_missingSlot (k : Slot) : C.Gives P (missingSlot k) := by
  refine gives_broken fun _ => ?_
  rintro (h | h)
  all_goals
    have hhead := congrArg (fun t => t.toList.head?) h
    simp at hhead

theorem gives_load (home : StorageId) (k : Slot) : C.Gives Value.Calm (load home k) := by
  have hnote : C.Gives (fun _ => True) (note (.read home k)) := fun a ha =>
    ⟨.refl _ _ a.frame, fun hc => ⟨⟨(ha hc).frame, (ha hc).world, (ha hc).inv⟩, trivial⟩⟩
  refine hnote.bind fun _ _ => .get fun a ha => ?_
  cases hv : a.world.load? home k with
  | some v => exact .pure fun hc => (ha hc).world.load? hv
  | none => exact gives_missingSlot k

theorem gives_store (home : StorageId) (k : Slot) {v : Value} (hv : C.calm → v.Calm) :
    C.Gives (fun _ => True) (store home k v) := by
  intro a ha
  simp only [store, get_bind]
  cases a.world.load? home k with
  | some old =>
    exact ⟨.refl _ _ a.frame, fun hc =>
      ⟨⟨(ha hc).frame, (ha hc).world.store home k (hv hc), (ha hc).inv⟩, trivial⟩⟩
  | none => exact gives_missingSlot k a ha

theorem gives_readVar (x : String) : C.Gives Value.Calm (readVar x) := by
  refine .get fun a ha => ?_
  cases hv : a.frame.get? x with
  | some v => exact .pure fun hc => (ha hc).frame.get? hv
  | none => exact gives_missing x

theorem does_define (x : String) {v : Value} (hv : C.calm → v.Calm) (hx : x ∈ E.declares) :
    C.Does E id (fun _ => True) (define x v).lift :=
  fun a ha => ⟨(a.frame.alters_define x v E.assigns).mono (cons_subset.mpr ⟨hx, nil_subset _⟩)
    (List.Subset.refl _), fun hc =>
      ⟨⟨(ha hc).frame.define x (hv hc), (ha hc).world, (ha hc).inv⟩, trivial⟩⟩

theorem does_assign (x : String) {v : Value} (hv : C.calm → v.Calm) (hx : x ∈ E.assigns) :
    C.Does E id (fun _ => True) (assign x v).lift := by
  intro a ha
  cases hf : a.frame.assign? x v with
  | some f =>
    simp only [EvalM.lift, EStateM.adaptExcept, assign, get_bind, hf]
    exact ⟨(Frame.alters_assign hf E.declares).mono (List.Subset.refl _)
      (cons_subset.mpr ⟨hx, nil_subset _⟩), fun hc =>
        ⟨⟨(ha hc).frame.assign? (hv hc) hf, (ha hc).world, (ha hc).inv⟩, trivial⟩⟩
  | none =>
    have hmissing : C.Does E id (fun _ => True) (missing x : EvalM σ κ Unit).lift :=
      (gives_missing x).lift
    have hrun : (assign x v : EvalM σ κ Unit).lift a = (missing x : EvalM σ κ Unit).lift a := by
      simp only [EvalM.lift, EStateM.adaptExcept, assign, get_bind, hf]
    rw [hrun]
    exact hmissing a ha

theorem gives_makeClosure (home : StorageId) (params : List String) {size : Nat} {b : Block}
    (hb : C.calm → Stmt.runIn true size true false b = true) :
    C.Gives Value.Calm (makeClosure home params b) :=
  fun a ha => ⟨.refl _ _ a.frame, fun hc => ⟨⟨(ha hc).frame, (ha hc).world, (ha hc).inv⟩,
    ⟨size, hb hc⟩, Value.calmIn_iff.mpr (ha hc).frame.snapshot⟩⟩

theorem gives_receive (hno : ¬ C.calm) : C.Gives Value.Calm receive := by
  intro a ha
  simp only [receive, get_bind]
  cases a.resumption with
  | some o =>
    cases o with
    | ok v => exact ⟨.refl _ _ a.frame, fun hc => absurd hc hno⟩
    | error f => exact ⟨.refl _ _ a.frame, fun _ _ => id, fun hc => absurd hc hno⟩
  | none => exact gives_broken (fun hc => absurd hc hno) a ha

theorem gives_callHost (name : String) {args : List Value} (hargs : C.calm → ∀ v ∈ args, v.Calm) :
    C.Gives Value.Calm (callHost C.host name args) := by
  rintro ⟨frame, resumption, operands, w⟩ ha
  simp only [callHost, World.holding]
  cases hr : C.host.call name args
      (w.grasp [.values args, .evaluation frame resumption operands]) with
  | error e v => exact ⟨.refl _ _ frame, fun _ _ => id, fun _ => .inl rfl⟩
  | ok o v =>
    have hcalm : C.calm → o.Calm ∧ Activation.Calm C.inv
        ⟨frame, resumption, operands, v.letGo w.hands⟩ := by
      intro hc
      obtain ⟨ho, hv, hi⟩ := C.call hc (w := w.grasp _) (hargs hc) (ha hc).world (ha hc).inv hr
      exact ⟨ho, (ha hc).frame, hv, hi⟩
    cases o with
    | ok u => exact ⟨.refl _ _ frame, fun hc => (hcalm hc).symm⟩
    | error f =>
      exact ⟨.refl _ _ frame, fun _ _ => id, fun hc =>
        .inr ⟨(hcalm hc).2, (hcalm hc).1, fun _ =>
          ⟨_, _, w.grasp _, _, hargs hc, (ha hc).world, (ha hc).inv, hr⟩⟩⟩

theorem not_isPause_escaped (he : e = .brk ∨ e = .cont) (status : FutureId → Status) :
    ¬ (Fault.internal (Exit.debug status e ++ " escaped a closure")).IsPause := by
  rcases he with rfl | rfl <;> rintro (h | h)
  all_goals
    have hhead := congrArg (fun t => t.toList.head?) h
    simp [Exit.debug] at hhead

/-- A closure has variables of its own. What it does to the world stays when the call is over; a
jump out of it becomes a fault, which is not that of a pause. -/
theorem gives_enter (params : List String) (henv : C.calm → Value.CalmIn env) (home : StorageId)
    {args : List Value} (hargs : C.calm → ∀ v ∈ args, v.Calm) {body : ExecM σ κ Unit}
    (hbody : C.Runs E body) : C.Gives Value.Calm (enter C.host params env home args body) := by
  intro a ha
  rw [enter_eq]
  split
  · exact gives_raise (f := .arity _ _) nofun id a ha
  have hrun := hbody (inside C.host params env home args a) fun hc =>
    (ha hc).inside C.host params (henv hc) home (hargs hc)
  cases hr : body (inside C.host params env home args a) with
  | ok u b =>
    rw [hr] at hrun
    exact ⟨.refl _ _ a.frame, fun hc =>
      ⟨⟨(ha hc).frame, (hrun.2 hc).1.world.release home, (hrun.2 hc).1.inv⟩, trivial⟩⟩
  | error e b =>
    rw [hr] at hrun
    have hcalm : e ≠ .stop .timeout → C.calm → Activation.Calm C.inv
        { a with world := (b.world.release home).letGo a.world.hands } ∧ e.Calm C.host C.inv :=
      fun he hc => (Stops.calm hrun.2 he hc).imp_left fun h =>
        ⟨(ha hc).frame, h.world.release home, h.inv⟩
    match e, hcalm with
    | .ret v, hcalm => exact ⟨.refl _ _ a.frame, hcalm nofun⟩
    | .stop .timeout, _ => exact ⟨.refl _ _ a.frame, fun _ _ => id, fun _ => .inl rfl⟩
    | .stop (.fault f), hcalm =>
      exact ⟨.refl _ _ a.frame, fun _ _ => id, fun hc => .inr (hcalm nofun hc)⟩
    | .brk, hcalm =>
      exact gives_broken (P := Value.Calm)
        (fun _ => not_isPause_escaped (.inl rfl) b.world.status) _ fun hc => (hcalm nofun hc).1
    | .cont, hcalm =>
      exact gives_broken (P := Value.Calm)
        (fun _ => not_isPause_escaped (.inr rfl) b.world.status) _ fun hc => (hcalm nofun hc).1

/-! The evaluator. -/

variable (C) in
/-- The evaluator keeps to the effects of statements, and to what is calm if the code is so. -/
structure Keeps (n : Nat) : Prop where
  expr : ∀ home size e, (C.calm → e.runs true size = true) →
    C.Gives Value.Calm (evalExpr C.host home n e)
  test : ∀ home size e, (C.calm → e.runs true size = true) →
    C.Gives (fun _ => True) (evalTest C.host home n e)
  args : ∀ home size es, (C.calm → Expr.runIn true size es = true) →
    C.Gives (fun vs => ∀ v ∈ vs, v.Calm) (evalArgs C.host home n es)
  value : ∀ home size v es, (C.calm → v.Calm) → (C.calm → Expr.runIn true size es = true) →
    C.Gives Value.Calm (applyValue C.host home n v es)
  stmt : ∀ home size ret loop s, (C.calm → s.runs true size ret loop = true) →
    C.Runs s.effect (execStmt C.host home n s)
  block : ∀ home size ret loop ss, (C.calm → Stmt.runIn true size ret loop ss = true) →
    C.Runs (Stmt.effectIn ss) (execBlock C.host home n ss)

theorem both {p q : Bool} (h : C.calm → (p && q) = true) :
    (C.calm → p = true) ∧ (C.calm → q = true) :=
  ⟨fun hc => (Bool.and_eq_true_iff.mp (h hc)).1, fun hc => (Bool.and_eq_true_iff.mp (h hc)).2⟩

namespace Keeps

variable {n : Nat} (h : C.Keeps n) (home : StorageId) {size : Nat} {ret loop : Bool}
include h

theorem binary (m : Mark) (op : BinaryOp) {l r : Expr} (hl : C.calm → l.runs true size = true)
    (hr : C.calm → r.runs true size = true) :
    C.Gives Value.Calm (evalExpr C.host home (n + 1) (.binary m op l r)) := by
  have hl' := h.test home size l hl
  have hr' := h.test home size r hr
  cases op with
  | and =>
    simp only [evalExpr]
    refine hl'.bind fun b _ => ?_
    cases b
    · exact .pure fun _ => trivial
    · exact hr'.bind fun _ _ => .pure fun _ => trivial
  | or =>
    simp only [evalExpr]
    refine hl'.bind fun b _ => ?_
    cases b
    · exact hr'.bind fun _ _ => .pure fun _ => trivial
    · exact .pure fun _ => trivial
  | _ =>
    simp only [evalExpr]
    exact (h.expr home size l hl).bind fun v _ => ((h.expr home size r hr).keeping [v]).bind
      fun u _ => gives_get (BinaryOp.calm_apply _ v u)

theorem call (m : Mark) {c : Expr} (hc : C.calm → c.runs true size = true)
    (hes : C.calm → Expr.runIn true size es = true) :
    C.Gives Value.Calm (evalExpr C.host home (n + 1) (.call m c es)) := by
  cases c with
  | var mark x =>
    simp only [evalExpr]
    refine .get fun a ha => ?_
    cases hv : a.frame.get? x with
    | none => exact (h.args home size es hes).bind fun vs hvs => gives_callHost x hvs
    | some v => exact h.value home size v es (fun hc => (ha hc).frame.get? hv) hes
  | _ =>
    rw [evalExpr]
    · exact (h.expr home size _ hc).bind fun v hv => h.value home size v es hv hes
    · simp

theorem next_expr {e : Expr} (he : C.calm → e.runs true size = true) :
    C.Gives Value.Calm (evalExpr C.host home (n + 1) e) := by
  cases e with
  | unit | bool | int | str =>
    simp only [evalExpr]
    exact .pure fun _ => trivial
  | var m x =>
    simp only [evalExpr]
    exact gives_readVar x
  | captured m k =>
    simp only [evalExpr]
    exact gives_load home k
  | binary m op l r => exact h.binary home m op (both he).1 (both he).2
  | unary m op e =>
    simp only [evalExpr]
    exact (h.expr home size e he).bind fun v _ => gives_get (UnaryOp.calm_apply op v)
  | call m c es => exact h.call home m (both he).1 (both he).2
  | lambda m ps b =>
    simp only [evalExpr]
    exact gives_makeClosure home ps (both he).2
  | resume m =>
    simp only [evalExpr]
    exact gives_receive fun hc => by cases he hc
  | await m e =>
    simp only [evalExpr]
    exact gives_broken fun hc => by cases he hc

theorem next_test {e : Expr} (he : C.calm → e.runs true size = true) :
    C.Gives (fun _ => True) (evalTest C.host home (n + 1) e) := by
  simp only [evalTest]
  refine (h.expr home size e he).bind fun v _ => ?_
  cases hv : v.test with
  | ok b => exact .pure fun _ => trivial
  | error f => exact gives_raise (Value.calm_test hv).1 (Value.calm_test hv).2

theorem next_args (hes : C.calm → Expr.runIn true size es = true) :
    C.Gives (fun vs => ∀ v ∈ vs, v.Calm) (evalArgs C.host home (n + 1) es) := by
  cases es with
  | nil =>
    simp only [evalArgs]
    exact .pure fun _ => forall_mem_nil _
  | cons e es =>
    simp only [evalArgs]
    exact (h.expr home size e (both hes).1).bind fun v hv =>
      ((h.args home size es (both hes).2).keeping [v]).bind fun vs hvs =>
        .pure fun hc => forall_mem_cons.mpr ⟨hv hc, hvs hc⟩

theorem next_value {v : Value} (hv : C.calm → v.Calm)
    (hes : C.calm → Expr.runIn true size es = true) :
    C.Gives Value.Calm (applyValue C.host home (n + 1) v es) := by
  cases v with
  | closure id params body env origin =>
    simp only [applyValue]
    refine ((h.args home size es hes).keeping _).bind fun args hargs => ?_
    by_cases hc : C.calm
    · obtain ⟨size', hbody⟩ := (hv hc).1
      exact gives_enter params (fun hc => (hv hc).2) origin hargs
        (h.block origin size' true false body fun _ => hbody)
    · exact gives_enter params (fun hc => (hv hc).2) origin hargs
        (h.block origin 0 true false body fun hc' => absurd hc' hc)
  | _ =>
    rw [applyValue]
    · exact gives_raise (by rintro _ ⟨⟩) id
    · simp

theorem scope {E : Effect} {b : Block} (hb : C.calm → Stmt.runIn true size ret loop b = true)
    (ha : Stmt.assignedIn b ⊆ E.assigns) (hs : ∀ d, E.stays d → Stmt.escapeIn d b = none) :
    C.Runs E (inScope (execBlock C.host home n b)) :=
  .inScope _ ((h.block home size ret loop b hb).mono (List.Subset.refl _) ha hs)

theorem caught {E : Effect} {b : Block} {c : Option Catch}
    (hb : C.calm → Stmt.runIn true size ret loop b = true)
    (hc : C.calm → Stmt.clauseRuns true size ret loop c = true)
    (ha : Stmt.assignedIn b ++ Stmt.assignedClause c ⊆ E.assigns)
    (hs : ∀ d, E.stays d → Stmt.escapeIn d b = none ∧ clauseEscape d c = none) :
    C.Runs E (caught C.host home n b c) := by
  obtain ⟨hab, hac⟩ := append_subset.mp ha
  have hbody := h.scope home hb hab fun d hd => (hs d hd).1
  match c with
  | none => exact hbody
  | some (.mk none cb) =>
    exact hbody.rescue fun _ _ => h.scope home hc hac fun d hd => (hs d hd).2
  | some (.mk (some x) cb) =>
    simp only [Eval.caught]
    exact hbody.rescue fun v hv => .inScope (x :: Stmt.bindsIn cb) <|
      (does_define x hv mem_cons_self).bind fun _ _ =>
        (h.block home size ret loop cb hc).mono (subset_cons_self _ _) hac
          fun d hd => (hs d hd).2

theorem next_stmt {s : Stmt} (hs : C.calm → s.runs true size ret loop = true) :
    C.Runs s.effect (execStmt C.host home (n + 1) s) := by
  have hexpr : ∀ {E : Effect} e, (C.calm → e.runs true size = true) →
      C.Does E id Value.Calm (evalExpr C.host home n e).lift := fun e he =>
    (h.expr home size e he).lift
  have htest : ∀ {E : Effect} t, (C.calm → t.runs true size = true) →
      C.Does E id (fun _ => True) (evalTest C.host home n t).lift := fun t ht =>
    (h.test home size t ht).lift
  cases s with
  | bind m x e =>
    simp only [execStmt]
    exact (hexpr e hs).bind fun v hv => does_define x hv mem_cons_self
  | assign m x e =>
    simp only [execStmt]
    exact (hexpr e hs).bind fun v hv => does_assign x hv mem_cons_self
  | store m k e =>
    simp only [execStmt]
    exact (hexpr e (both hs).2).bind fun v hv => (gives_store home k hv).lift
  | eval m e =>
    simp only [execStmt]
    exact (hexpr e hs).bind fun _ _ => .pure fun _ => trivial
  | throw m e =>
    simp only [execStmt]
    refine (hexpr e hs).bind fun v hv => .throw (fun _ _ => id) fun hc => ⟨?_, False.elim⟩
    rintro _ ⟨⟩
    exact hv hc
  | cond m t a b =>
    simp only [execStmt]
    have hab := both (both hs).1
    refine (htest t hab.1).bind fun yes _ => ?_
    cases yes
    · exact h.scope home (both hs).2 (subset_append_right _ _) fun d hd =>
        (Option.or_eq_none_iff.mp hd).2
    · exact h.scope home hab.2 (subset_append_left _ _) fun d hd =>
        (Option.or_eq_none_iff.mp hd).1
  | loop m t b =>
    rw [execStmt_loop]
    refine (htest t (both hs).1).bind fun again _ => ?_
    cases again
    · exact .pure fun _ => trivial
    · exact Does.turn (S := fun d => Stmt.escapeIn d b = none)
        (h.scope home (both hs).2 (List.Subset.refl _) fun d hd => hd) (fun d hd => hd)
        (h.stmt home size ret loop _ hs)
  | attempt m b c f =>
    rw [execStmt_attempt]
    have hbc := both (both hs).1
    have hstays : ∀ d, (Stmt.attempt m b c f).effect.stays d →
        (Stmt.escapeIn d b = none ∧ clauseEscape d c = none) ∧ cleanupEscape d f = none := by
      intro d hd
      simp only [Stmt.effect, escape_attempt, Option.or_eq_none_iff] at hd
      exact hd
    have hguard := h.caught home (E := (Stmt.attempt m b c f).effect) hbc.1 hbc.2
      (subset_append_left _ _) fun d hd => (hstays d hd).1
    cases f with
    | none => exact hguard
    | some fb =>
      exact hguard.ensuring (h.scope home (both hs).2 (subset_append_right _ _)
        fun d hd => (hstays d hd).2)
  | ret m e =>
    cases e with
    | none =>
      simp only [execStmt]
      exact .throw (by rintro d ⟨⟩) fun _ => trivial
    | some e =>
      simp only [execStmt]
      exact (hexpr e (both hs).2).bind fun v hv => .throw (by rintro d ⟨⟩) hv
  | brk m | cont m =>
    simp only [execStmt]
    refine .throw (fun d hd (hz : d = 0) => ?_) fun _ => trivial
    subst hz
    cases hd
  | block m b =>
    simp only [execStmt]
    exact h.scope home hs (List.Subset.refl _) fun d hd => hd
  | yield | yieldBreak =>
    simp only [execStmt]
    exact (gives_broken fun hc => by cases hs hc).lift

theorem next_block {ss : Block} (hss : C.calm → Stmt.runIn true size ret loop ss = true) :
    C.Runs (Stmt.effectIn ss) (execBlock C.host home (n + 1) ss) := by
  cases ss with
  | nil =>
    simp only [execBlock]
    exact .pure fun _ => trivial
  | cons s ss =>
    simp only [execBlock]
    have hs : C.Runs (Stmt.effectIn (s :: ss)) (execStmt C.host home n s) :=
      (h.stmt home size ret loop s (both hss).1).mono (subset_append_left _ _)
        (subset_append_left _ _) fun d hd => (Option.or_eq_none_iff.mp hd).1
    exact hs.bind fun _ _ => (h.block home size ret loop ss (both hss).2).mono
      (subset_append_right _ _) (subset_append_right _ _)
      fun d hd => (Option.or_eq_none_iff.mp hd).2

end Keeps

theorem keeps (C : Setting σ κ) (n : Nat) : C.Keeps n := by
  induction n with
  | zero =>
    constructor <;> intros
    · rw [evalExpr]
      exact .timeout rfl
    · rw [evalTest]
      exact .timeout rfl
    · rw [evalArgs]
      exact .timeout rfl
    · rw [applyValue]
      exact .timeout rfl
    · rw [execStmt]
      exact .timeout rfl
    · rw [execBlock]
      exact .timeout rfl
  | succ n ih =>
    exact ⟨fun home _ _ => ih.next_expr home, fun home _ _ => ih.next_test home,
      fun home _ _ => ih.next_args home, fun home _ _ _ => ih.next_value home,
      fun home _ _ _ _ => ih.next_stmt home, fun home _ _ _ _ => ih.next_block home⟩

/-- Nothing is asked of the host. -/
def any (host : Host σ κ) : Setting σ κ :=
  ⟨host, False, fun _ _ => True, False.elim⟩

variable {host : Host σ κ} {home : StorageId} {n : Nat} {s : Stmt} {a b : Activation σ κ}

theorem alters_of_ok (h : execStmt host home n s a = .ok () b) :
    a.frame.Alters s.binds s.assigned b.frame := by
  have hend := ((any host).keeps n).stmt home 0 false false s nofun a nofun
  simp only [any, h] at hend
  exact hend.1

/-- A declaration that does not end normally declares nothing. -/
theorem alters_of_error (h : execStmt host home n s a = .error e b) :
    a.frame.Alters [] s.assigned b.frame := by
  have hend := ((any host).keeps n).stmt home 0 false false s nofun a nofun
  simp only [any, h] at hend
  cases s with
  | bind m x e =>
    clear hend
    cases n with
    | zero =>
      rw [execStmt] at h
      cases h
      exact .refl _ _ a.frame
    | succ n =>
      simp only [execStmt] at h
      rcases bind_error h with h | ⟨v, c, -, h⟩
      · have hend := Does.lift (E := {}) (((any host).keeps n).expr home 0 e nofun) a nofun
        simp only [any, h] at hend
        exact hend.1
      · cases h
  | _ => exact hend.1

end Setting

/-- However a statement ends, there are as many scopes as before. The outer ones have the same
names. The innermost one still has its names, and at most one more: that of a declaration which has
ended normally. A name has another value in a scope only if the statement assigns to it, or declares
it in the innermost one. -/
theorem scopes_balanced {σ κ : Type} (host : Host σ κ) (home : StorageId) (n : Nat) (s : Stmt)
    (a : Activation σ κ) :
    let result := Eval.execStmt host home n s a
    let before := a.frame
    let after := (lastly result).frame
    let declares := fun x => x ∈ s.binds ∧ ∃ b, result = .ok () b
    after.scopes.length = before.scopes.length ∧
      (∀ i x, 0 < i → (after.valueIn i x).isSome = (before.valueIn i x).isSome) ∧
      (∀ x, (before.valueIn 0 x).isSome = true → (after.valueIn 0 x).isSome = true) ∧
      (∀ x, (after.valueIn 0 x).isSome = true → (before.valueIn 0 x).isSome = true ∨ declares x) ∧
      ∀ i x, after.valueIn i x ≠ before.valueIn i x → x ∈ s.assigned ∨ i = 0 ∧ declares x := by
  intro result before after declares
  obtain ⟨new, hnew, halters⟩ : ∃ new, (∀ x ∈ new, declares x) ∧
      before.Alters new s.assigned after := by
    cases hr : result with
    | ok v b =>
      refine ⟨s.binds, fun x hx => ⟨hx, b, hr⟩, ?_⟩
      rw [show after = b.frame from congrArg (fun r => (lastly r).frame) hr]
      exact Setting.alters_of_ok hr
    | error e b =>
      refine ⟨[], nofun, ?_⟩
      rw [show after = b.frame from congrArg (fun r => (lastly r).frame) hr]
      exact Setting.alters_of_error hr
  refine ⟨halters.scopes, halters.outer, halters.kept,
    fun x hx => (halters.gained x hx).imp_right (hnew x), fun i x hx => ?_⟩
  by_contra hno
  rw [not_or, not_and] at hno
  exact hx (halters.values i x hno.1 fun hi hx => hno.2 hi (hnew x hx))

end Resumable

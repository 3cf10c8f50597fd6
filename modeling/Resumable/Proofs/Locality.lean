import Resumable.Proofs.Contents
import Resumable.Proofs.Patience
import Resumable.Proofs.Steps

namespace Resumable

open List

/-! Values without closures. -/

def Value.IsPlain : Value → Prop
  | .closure .. => False
  | .unit | .bool _ | .int _ | .str _ | .future _ => True

def Fault.IsPlain (f : Fault) : Prop :=
  ∀ v ∈ f.value?, v.IsPlain

def Outcome.IsPlain : Outcome → Prop
  | .ok v => v.IsPlain
  | .error f => f.IsPlain

def Stop.IsPlain : Stop → Prop
  | .fault f => f.IsPlain
  | .timeout => True

/-- The exit has nowhere to go but where `ret` and `loop` allow it. -/
def Exit.IsPlain (ret loop : Bool) : Exit → Prop
  | .stop s => s.IsPlain
  | .brk | .cont => loop = true
  | .ret v => ret = true ∧ v.IsPlain

theorem Fault.IsPlain.toValue {f : Fault} (h : f.IsPlain) : f.toValue.IsPlain := by
  cases f with
  | thrown v => exact h v rfl
  | _ => trivial

theorem BinaryOp.isPlain_apply (op : BinaryOp) (l r : Value) : (op.apply l r).IsPlain := by
  unfold BinaryOp.apply
  split
  all_goals try split
  all_goals first | trivial | exact nofun

theorem UnaryOp.isPlain_apply (op : UnaryOp) (v : Value) : (op.apply v).IsPlain := by
  unfold UnaryOp.apply
  split
  all_goals first | trivial | exact nofun

theorem Value.isPlain_test {v : Value} {f : Fault} (h : v.test = .error f) : f.IsPlain := by
  unfold Value.test at h
  split at h
  · cases h
  · cases h
    exact nofun

/-- The host answers calls and does nothing else. -/
structure Host.IsPure {σ κ : Type} (host : Host σ κ) (answer : String → List Value → Outcome) :
    Prop where
  call : ∀ name args w, host.call name args w = .ok (answer name args) w
  plain : ∀ name args, (∀ v ∈ args, v.IsPlain) → (answer name args).IsPlain

/-! Variables. -/

namespace Frame

/-- All variables have values of a kind. -/
def All (P : Value → Prop) (f : Frame) : Prop :=
  ∀ s ∈ f.scopes, ∀ b ∈ s, P b.2

variable {P : Value → Prop} {f : Frame}
variable {v : Value} {name : String}

theorem all_empty : Frame.empty.All P := by
  simp [All, empty]

theorem All.push (h : f.All P) : f.push.All P := by
  intro s hs
  rcases mem_cons.mp hs with rfl | hs
  · exact nofun
  · exact h s hs

theorem All.pop (h : f.All P) : f.pop.All P :=
  fun s hs => h s (mem_of_mem_tail hs)

theorem All.get? (h : f.All P) (hv : f.get? name = some v) : P v := by
  obtain ⟨s, hs, hb⟩ := exists_of_findSome?_eq_some hv
  exact h s hs (name, v) (mem_of_lookup hb)

theorem All.define (h : f.All P) (name : String) (hv : P v) : (f.define name v).All P := by
  obtain ⟨scopes⟩ := f
  cases scopes with
  | nil => exact h
  | cons s rest =>
    intro s' hs'
    rcases mem_cons.mp hs' with rfl | hs'
    · intro b hb
      rcases mem_cons.mp hb with rfl | hb
      · exact hv
      · exact h s mem_cons_self b (mem_of_mem_filter hb)
    · exact h s' (mem_cons_of_mem s hs')

theorem all_assign_bindings (hv : P v) {s s' : Bindings} (h : ∀ b ∈ s, P b.2)
    (hs : Bindings.assign? name v s = some s') : ∀ b ∈ s', P b.2 := by
  induction s generalizing s' with
  | nil => cases hs
  | cons p s ih =>
    obtain ⟨x, old⟩ := p
    rw [Bindings.assign?] at hs
    split at hs
    · cases hs
      rw [forall_mem_cons] at h ⊢
      exact ⟨hv, h.2⟩
    · obtain ⟨s₁, hs₁, rfl⟩ := Option.map_eq_some_iff.mp hs
      rw [forall_mem_cons] at h ⊢
      exact ⟨h.1, ih h.2 hs₁⟩

theorem all_assign_scopes (hv : P v) {ss ss' : List Bindings} (h : ∀ s ∈ ss, ∀ b ∈ s, P b.2)
    (hs : assign?.go name v ss = some ss') : ∀ s ∈ ss', ∀ b ∈ s, P b.2 := by
  induction ss generalizing ss' with
  | nil => cases hs
  | cons s ss ih =>
    rw [assign?.go] at hs
    rw [forall_mem_cons] at h
    split at hs
    · rename_i s₁ hs₁
      cases hs
      rw [forall_mem_cons]
      exact ⟨all_assign_bindings hv h.1 hs₁, h.2⟩
    · obtain ⟨ss₁, hss₁, rfl⟩ := Option.map_eq_some_iff.mp hs
      rw [forall_mem_cons]
      exact ⟨h.1, ih h.2 hss₁⟩

theorem All.assign? (h : f.All P) (hv : P v) {g : Frame} (hg : f.assign? name v = some g) :
    g.All P := by
  obtain ⟨ss, hss, rfl⟩ := Option.map_eq_some_iff.mp hg
  exact all_assign_scopes hv h hss

end Frame

/-! One's own storage. -/

/-- What is written down while code runs: how many internal faults, and which accesses. -/
structure Notes where
  defects : Nat := 0
  accesses : List Access := []

instance : Zero Notes := ⟨{}⟩

instance : Add Notes := ⟨fun d d' => ⟨d.defects + d'.defects, d'.accesses ++ d.accesses⟩⟩

namespace World

variable {σ κ : Type} {w : World σ κ} {home other : StorageId} {slots : List Value}

/-- The contents of a storage. -/
def slotsAt (w : World σ κ) (home : StorageId) : Option (List Value) :=
  w.storages[home]?.map (·.slots)

/-- The world with other contents of a storage, and with what has been written down. -/
def after (w : World σ κ) (home : StorageId) (slots : List Value) (d : Notes) : World σ κ :=
  { w with
    storages := w.storages.modify home fun c => { c with slots }
    defects := w.defects + d.defects
    accesses := d.accesses ++ w.accesses }

theorem slotsAt_after (h : w.slotsAt home = some slots) (slots' : List Value) (d : Notes) :
    (w.after home slots' d).slotsAt home = some slots' := by
  obtain ⟨c, hc, -⟩ := Option.map_eq_some_iff.mp h
  simp [slotsAt, after, Array.getElem?_modify, hc]

theorem slotsAt_after_of_ne (h : other ≠ home) (slots : List Value) (d : Notes) :
    (w.after home slots d).slotsAt other = w.slotsAt other := by
  simp [slotsAt, after, Array.getElem?_modify, Ne.symm h]

theorem after_after (slots' : List Value) (d d' : Notes) :
    (w.after home slots d).after home slots' d' = w.after home slots' (d + d') := by
  unfold after
  congr 1
  · apply Array.ext_getElem?
    intro i
    simp only [Array.getElem?_modify]
    split <;> simp [Function.comp_def]
  · exact Nat.add_assoc ..
  · exact (append_assoc ..).symm

section

variable (h : w.slotsAt home = some slots)
include h

theorem after_self : w.after home slots 0 = w := by
  unfold after
  have hs : (w.storages.modify home fun c => { c with slots }) = w.storages := by
    apply Array.ext_getElem?
    intro i
    rw [Array.getElem?_modify]
    split
    · rename_i hi
      subst hi
      obtain ⟨c, hc, rfl⟩ := Option.map_eq_some_iff.mp h
      simp [hc]
    · rfl
  rw [hs]
  rfl

theorem store_eq_after (k : Slot) (v : Value) :
    w.store home k v = w.after home (slots.set k v) { accesses := [.wrote home k] } := by
  unfold store after
  congr 1
  apply Array.ext_getElem?
  intro i
  simp only [Array.getElem?_modify]
  split
  · rename_i hi
    subst hi
    obtain ⟨c, hc, rfl⟩ := Option.map_eq_some_iff.mp h
    simp [hc]
  · rfl

theorem load?_eq (k : Slot) : w.load? home k = slots[k]? := by
  obtain ⟨c, hc, rfl⟩ := Option.map_eq_some_iff.mp h
  simp [load?, hc]

end

end World

/-! What code sees of an activation, and what it leaves. -/

/-- Variables, what an await is to receive, and the slots of one's own storage. -/
structure Scene where
  frame : Frame
  resumption : Option Outcome
  slots : List Value

structure Scene.IsPlain (s : Scene) : Prop where
  frame : s.frame.All Value.IsPlain
  resumption : ∀ o ∈ s.resumption, Outcome.IsPlain o
  slots : ∀ v ∈ s.slots, v.IsPlain

section

variable {σ κ ε α β : Type}

structure Activation.Shows (a : Activation σ κ) (home : StorageId) (s : Scene) : Prop where
  frame : a.frame = s.frame
  resumption : a.resumption = s.resumption
  slots : a.world.slotsAt home = some s.slots

def Activation.after (a : Activation σ κ) (home : StorageId) (s : Scene) (d : Notes) :
    Activation σ κ :=
  { a with
    frame := s.frame
    resumption := s.resumption
    world := a.world.after home s.slots d }

def ending : Except ε α → Activation σ κ → EStateM.Result ε (Activation σ κ) α
  | .ok v, a => .ok v a
  | .error e, a => .error e a

/-- Go on with how a computation ends, whichever way. -/
def thenDo {ε' τ : Type} (x : EStateM ε τ α) (k : Except ε α → EStateM ε' τ β) : EStateM ε' τ β :=
  fun a =>
    match x a with
    | .ok v b => k (.ok v) b
    | .error e b => k (.error e) b

/-- The result and the scene left are the same wherever a scene is found. -/
def LocalAt (home : StorageId) (P : α → Prop) (Q : ε → Prop) (s : Scene)
    (x : EStateM ε (Activation σ κ) α) : Prop :=
  ∃ (r : Except ε α) (s' : Scene) (d : Notes),
    (∀ v, r = .ok v → P v) ∧ (∀ e, r = .error e → Q e) ∧ s'.IsPlain ∧
      ∀ a : Activation σ κ, a.Shows home s → x a = ending r (a.after home s' d)

def Local (home : StorageId) (P : α → Prop) (Q : ε → Prop)
    (x : EStateM ε (Activation σ κ) α) : Prop :=
  ∀ s : Scene, s.IsPlain → LocalAt home P Q s x

variable {a : Activation σ κ} {home : StorageId} {s s' : Scene} {P : α → Prop} {P' : β → Prop}
  {Q : ε → Prop} {x : EStateM ε (Activation σ κ) α}

theorem Activation.Shows.after (h : a.Shows home s) (s' : Scene) (d : Notes) :
    (a.after home s' d).Shows home s' :=
  ⟨rfl, rfl, World.slotsAt_after h.slots _ _⟩

theorem Activation.after_after (s s' : Scene) (d d' : Notes) :
    (a.after home s d).after home s' d' = a.after home s' (d + d') := by
  simp only [Activation.after, World.after_after]

section

variable (h : a.Shows home s)
include h

theorem Activation.Shows.after_frame (frame : Frame) :
    a.after home { s with frame } 0 = { a with frame } := by
  obtain ⟨frame, resumption, operands, world⟩ := a
  obtain ⟨rfl, rfl, hs⟩ := h
  simp only [Activation.after, World.after_self hs]

theorem Activation.Shows.after_resumption (resumption : Option Outcome) :
    a.after home { s with resumption } 0 = { a with resumption } := by
  obtain ⟨frame, resumption, operands, world⟩ := a
  obtain ⟨rfl, rfl, hs⟩ := h
  simp only [Activation.after, World.after_self hs]

theorem Activation.Shows.after_store (k : Slot) (v : Value) :
    a.after home { s with slots := s.slots.set k v } { accesses := [.wrote home k] } =
      { a with world := a.world.store home k v } := by
  obtain ⟨frame, resumption, operands, world⟩ := a
  obtain ⟨rfl, rfl, hs⟩ := h
  simp only [Activation.after, World.store_eq_after hs]

theorem Activation.Shows.after_defect :
    a.after home s { defects := 1 } = { a with world := a.world.defect } := by
  obtain ⟨frame, resumption, operands, world⟩ := a
  obtain ⟨rfl, rfl, hs⟩ := h
  have hd := congrArg World.defect (World.after_self hs)
  simp only [Activation.after]
  rw [← hd]
  rfl

theorem Activation.Shows.after_note (x : Access) :
    a.after home s { accesses := [x] } = { a with world := a.world.note x } := by
  obtain ⟨frame, resumption, operands, world⟩ := a
  obtain ⟨rfl, rfl, hs⟩ := h
  have hd := congrArg (World.note · x) (World.after_self hs)
  simp only [Activation.after]
  rw [← hd]
  rfl

theorem Activation.Shows.after_self : a.after home s 0 = a := by
  obtain ⟨frame, resumption, operands, world⟩ := a
  obtain ⟨rfl, rfl, hs⟩ := h
  simp only [Activation.after, World.after_self hs]

end

namespace LocalAt

theorem intro {r : Except ε α} (s' : Scene) (hs' : s'.IsPlain) (d : Notes)
    (hok : ∀ v, r = .ok v → P v) (herror : ∀ e, r = .error e → Q e)
    (hrun : ∀ a : Activation σ κ, a.Shows home s → x a = ending r (a.after home s' d)) :
    LocalAt home P Q s x :=
  ⟨r, s', d, hok, herror, hs', hrun⟩

theorem pure (hs : s.IsPlain) {v : α} (h : P v) :
    LocalAt home P Q s (Pure.pure v : EStateM ε (Activation σ κ) α) := by
  refine .intro (r := .ok v) s hs 0 ?_ nofun fun a ha => ?_
  · rintro _ ⟨⟩
    exact h
  · rw [ha.after_self]
    rfl

theorem throw (hs : s.IsPlain) {e : ε} (h : Q e) :
    LocalAt home P Q s (MonadExcept.throw e : EStateM ε (Activation σ κ) α) := by
  refine .intro (r := .error e) s hs 0 nofun ?_ fun a ha => ?_
  · rintro _ ⟨⟩
    exact h
  · rw [ha.after_self]
    rfl

theorem read {f : Activation σ κ → EStateM ε (Activation σ κ) α}
    (hf : ∀ a : Activation σ κ, a.Shows home s → f a a = x a) (hx : LocalAt home P Q s x) :
    LocalAt home P Q s (get >>= f) := by
  obtain ⟨r, s', d, hr, he, hs', hrun⟩ := hx
  refine ⟨r, s', d, hr, he, hs', fun a ha => ?_⟩
  show f a a = _
  rw [hf a ha, hrun a ha]

theorem write {f : Activation σ κ → Activation σ κ} {v : α} (h : P v) (s' : Scene)
    (hs' : s'.IsPlain) (d : Notes)
    (hf : ∀ a : Activation σ κ, a.Shows home s → a.after home s' d = f a) :
    LocalAt home P Q s (fun a => .ok v (f a)) := by
  refine .intro (r := .ok v) s' hs' d ?_ nofun fun a ha => ?_
  · rintro _ ⟨⟩
    exact h
  · rw [hf a ha]
    rfl

end LocalAt

namespace Local

theorem pure {v : α} (h : P v) : Local home P Q (Pure.pure v : EStateM ε (Activation σ κ) α) :=
  fun _ hs => .pure hs h

theorem throw {e : ε} (h : Q e) :
    Local home P Q (MonadExcept.throw e : EStateM ε (Activation σ κ) α) :=
  fun _ hs => .throw hs h

theorem bind {f : α → EStateM ε (Activation σ κ) β} (hx : Local home P Q x)
    (hf : ∀ v, P v → Local home P' Q (f v)) : Local home P' Q (x >>= f) := by
  intro s hs
  obtain ⟨r, s₁, d, hr, he, hs₁, hrun⟩ := hx s hs
  cases r with
  | error e =>
    refine ⟨.error e, s₁, d, nofun, ?_, hs₁, fun a ha => ?_⟩
    · rintro _ ⟨⟩
      exact he e rfl
    · show EStateM.bind x f a = _
      rw [EStateM.bind, hrun a ha]
      rfl
  | ok v =>
    obtain ⟨r', s₂, d', hr', he', hs₂, hrun'⟩ := hf v (hr v rfl) s₁ hs₁
    refine ⟨r', s₂, d + d', hr', he', hs₂, fun a ha => ?_⟩
    show EStateM.bind x f a = _
    rw [EStateM.bind, hrun a ha]
    show f v (a.after home s₁ d) = _
    rw [hrun' _ (ha.after s₁ d), Activation.after_after]

theorem thenDo {ε' : Type} {Q' : ε' → Prop} {k : Except ε α → EStateM ε' (Activation σ κ) β}
    (hx : Local home P Q x) (hok : ∀ v, P v → Local home P' Q' (k (.ok v)))
    (herror : ∀ e, Q e → Local home P' Q' (k (.error e))) : Local home P' Q' (thenDo x k) := by
  intro s hs
  obtain ⟨r, s₁, d, hr, he, hs₁, hrun⟩ := hx s hs
  have hk : LocalAt home P' Q' s₁ (k r) := by
    cases r with
    | ok v => exact hok v (hr v rfl) s₁ hs₁
    | error e => exact herror e (he e rfl) s₁ hs₁
  obtain ⟨r', s₂, d', hr', he', hs₂, hrun'⟩ := hk
  refine ⟨r', s₂, d + d', hr', he', hs₂, fun a ha => ?_⟩
  rw [← Activation.after_after, ← hrun' _ (ha.after s₁ d)]
  unfold Resumable.thenDo
  rw [hrun a ha]
  cases r <;> rfl

end Local

end

/-! The parts of the evaluator. -/

namespace Eval

variable {σ κ α : Type} {home : StorageId} {P : α → Prop}
variable {size : Nat} {v : Value} {e : Expr} {ss : Block}

theorem local_raise {f : Fault} (h : f.IsPlain) :
    Local home P Stop.IsPlain (raise f : EvalM σ κ α) :=
  .throw h

theorem local_get {o : Outcome} (h : o.IsPlain) :
    Local home Value.IsPlain Stop.IsPlain (o.get : EvalM σ κ Value) := by
  cases o with
  | ok v => exact .pure h
  | error f => exact .throw h

theorem local_broken (text : String) : Local home P Stop.IsPlain (broken text : EvalM σ κ α) := by
  intro s hs
  refine .intro (r := .error (.fault (.internal text))) s hs { defects := 1 } nofun ?_
    fun a ha => ?_
  · rintro _ ⟨⟩
    exact nofun
  · rw [ha.after_defect]
    rfl

theorem local_note (x : Access) :
    Local home (fun _ => True) Stop.IsPlain (note x : EvalM σ κ Unit) :=
  fun s hs => .write trivial s hs _ fun _ ha => ha.after_note x

theorem local_missing (name : String) :
    Local home P Stop.IsPlain (missing name : EvalM σ κ α) :=
  (local_note _).bind fun _ _ => .throw nofun

theorem local_load (k : Slot) :
    Local home Value.IsPlain Stop.IsPlain (load home k : EvalM σ κ Value) := by
  refine (local_note _).bind fun _ _ s hs => ?_
  refine .read (x := s.slots[k]?.elim (missingSlot k) pure) ?_ ?_
  · intro a ha
    rewrite [World.load?_eq ha.slots]
    cases s.slots[k]? <;> rfl
  · cases hk : s.slots[k]? with
    | some v => exact .pure hs (hs.slots v (mem_of_getElem? hk))
    | none => exact local_broken _ s hs

theorem local_store (k : Slot) (hv : v.IsPlain) :
    Local home (fun _ => True) Stop.IsPlain (store home k v : EvalM σ κ Unit) := by
  intro s hs
  cases hk : s.slots[k]? with
  | some old =>
    have hset : Scene.IsPlain { s with slots := s.slots.set k v } := by
      refine ⟨hs.frame, hs.resumption, fun u hu => ?_⟩
      rcases mem_or_eq_of_mem_set hu with hu | rfl
      · exact hs.slots u hu
      · exact hv
    refine .read (x := fun a => .ok () { a with world := a.world.store home k v }) ?_ ?_
    · intro a ha
      rw [World.load?_eq ha.slots, hk]
      rfl
    · exact .write trivial _ hset _ fun a ha => ha.after_store k v
  | none =>
    refine .read (x := missingSlot k) ?_ (local_broken _ s hs)
    intro a ha
    rw [World.load?_eq ha.slots, hk]

theorem local_readVar (name : String) :
    Local home Value.IsPlain Stop.IsPlain (readVar name : EvalM σ κ Value) := by
  intro s hs
  refine .read (x := (s.frame.get? name).elim (missing name) pure) ?_ ?_
  · intro a ha
    rewrite [ha.frame]
    cases s.frame.get? name <;> rfl
  · cases hn : s.frame.get? name with
    | some v => exact .pure hs (hs.frame.get? hn)
    | none => exact local_missing name s hs

theorem local_define (name : String) (hv : v.IsPlain) :
    Local home (fun _ => True) Stop.IsPlain (define name v : EvalM σ κ Unit) := by
  intro s hs
  refine .write trivial { s with frame := s.frame.define name v }
    ⟨hs.frame.define name hv, hs.resumption, hs.slots⟩ 0 fun a ha => ?_
  rw [ha.after_frame, ha.frame]

theorem local_assign (name : String) (hv : v.IsPlain) :
    Local home (fun _ => True) Stop.IsPlain (assign name v : EvalM σ κ Unit) := by
  intro s hs
  cases hn : s.frame.assign? name v with
  | some frame =>
    refine .read (x := fun a => .ok () { a with frame }) ?_ ?_
    · intro a ha
      rw [ha.frame, hn]
      rfl
    · exact .write trivial { s with frame } ⟨hs.frame.assign? hv hn, hs.resumption, hs.slots⟩ 0
        fun a ha => ha.after_frame frame
  | none =>
    refine .read (x := missing name) ?_ (local_missing name s hs)
    intro a ha
    rw [ha.frame, hn]

theorem local_receive : Local home Value.IsPlain Stop.IsPlain (receive : EvalM σ κ Value) := by
  intro s hs
  cases hr : s.resumption with
  | some o =>
    have hset : Scene.IsPlain { s with resumption := none } := ⟨hs.frame, nofun, hs.slots⟩
    refine .read (x := fun a => (o.get : EvalM σ κ Value) { a with resumption := none }) ?_ ?_
    · intro a ha
      rw [ha.resumption, hr]
      rfl
    · cases o with
      | ok v =>
        refine .write (hs.resumption _ hr) _ hset 0 fun a ha => ha.after_resumption none
      | error f =>
        refine .intro (r := .error (.fault f)) _ hset 0 nofun ?_ fun a ha => ?_
        · rintro _ ⟨⟩
          exact hs.resumption _ hr
        · rw [ha.after_resumption none]
          rfl
  | none =>
    refine .read (x := broken "no resumption value") ?_ (local_broken _ s hs)
    intro a ha
    rw [ha.resumption, hr]

theorem local_keeping {ε : Type} {Q : ε → Prop} {x : EStateM ε (Activation σ κ) α}
    (h : Local home P Q x) (vs : List Value) : Local home P Q (keeping vs x) := by
  intro s hs
  obtain ⟨r, s', d, hr, he, hs', hrun⟩ := h s hs
  refine ⟨r, s', d, hr, he, hs', fun a ha => ?_⟩
  simp only [keeping]
  rw [hrun { a with operands := vs ++ a.operands } ⟨ha.frame, ha.resumption, ha.slots⟩]
  cases r <;> rfl

theorem local_callHost {host : Host σ κ} {answer : String → List Value → Outcome}
    (hh : host.IsPure answer) (name : String) {args : List Value} (ha : ∀ v ∈ args, v.IsPlain) :
    Local home Value.IsPlain Stop.IsPlain (callHost host name args) := by
  intro s hs
  have hget : Local home Value.IsPlain Stop.IsPlain ((answer name args).get : EvalM σ κ Value) :=
    local_get (hh.plain name args ha)
  obtain ⟨r, s', d, hr, he, hs', hrun⟩ := hget s hs
  refine ⟨r, s', d, hr, he, hs', fun a hshow => ?_⟩
  rw [← hrun a hshow]
  simp only [callHost, World.holding, hh.call]
  rfl

theorem local_lift {ret loop : Bool} {x : EvalM σ κ α} (h : Local home P Stop.IsPlain x) :
    Local home P (Exit.IsPlain ret loop) x.lift := by
  intro s hs
  obtain ⟨r, s', d, hr, he, hs', hrun⟩ := h s hs
  refine ⟨r.mapError .stop, s', d, ?_, ?_, hs', fun a ha => ?_⟩
  · intro v hv
    cases r with
    | ok u =>
      cases hv
      exact hr _ rfl
    | error e => cases hv
  · intro e hv
    cases r with
    | ok u => cases hv
    | error e =>
      cases hv
      exact he _ rfl
  · simp only [EvalM.lift, EStateM.adaptExcept]
    rw [hrun a ha]
    cases r <;> rfl

/-! What is done next depends on how code ends. -/

theorem rescue_eq (x : ExecM σ κ Unit) (f : Value → ExecM σ κ Unit) :
    rescue x f = thenDo x fun
      | .error (.stop (.fault e)) => keeping e.value?.toList (f e.toValue)
      | .error e => throw e
      | .ok () => pure () := by
  funext a
  simp only [rescue, thenDo]
  cases x a with
  | ok v b => rfl
  | error e b =>
    cases e with
    | stop s => cases s <;> rfl
    | _ => rfl

theorem ensuring_eq (x y : ExecM σ κ Unit) :
    ensuring x y = thenDo x fun
      | .error (.stop .timeout) => throw (.stop .timeout)
      | .ok () => y
      | .error e => keeping (Exit.values e) y >>= fun _ => throw e := by
  funext a
  simp only [ensuring, thenDo]
  cases x a with
  | ok v b => rfl
  | error e b =>
    rcases e with (f | _) | _ | _ | v
    · simp only [bind, EStateM.bind]
      cases keeping _ y b <;> rfl
    · rfl
    all_goals
      simp only [bind, EStateM.bind]
      cases keeping _ y b <;> rfl

theorem turn_eq (x next : ExecM σ κ Unit) :
    turn x next = thenDo x fun
      | .ok () | .error .cont => next
      | .error .brk => pure ()
      | .error e => throw e := by
  funext a
  simp only [turn, thenDo]
  cases x a with
  | ok v b => rfl
  | error e b => cases e <;> rfl

section

variable {ret loop : Bool} {x y : ExecM σ κ Unit}

/-- Code that ends normally or by an exit that has somewhere to go. -/
abbrev Runs (home : StorageId) (ret loop : Bool) (x : ExecM σ κ Unit) : Prop :=
  Local home (fun _ => True) (Exit.IsPlain ret loop) x

section

variable (h : Runs home ret loop x)
include h

theorem local_inScope : Runs home ret loop (inScope x) := by
  intro s hs
  obtain ⟨r, s', d, hr, he, hs', hrun⟩ :=
    h { s with frame := s.frame.push } ⟨hs.frame.push, hs.resumption, hs.slots⟩
  refine ⟨r, { s' with frame := s'.frame.pop }, d, hr, he,
    ⟨hs'.frame.pop, hs'.resumption, hs'.slots⟩, fun a ha => ?_⟩
  simp only [inScope]
  rw [hrun { a with frame := a.frame.push }
    ⟨congrArg Frame.push ha.frame, ha.resumption, ha.slots⟩]
  cases r <;> rfl

theorem local_rescue {f : Value → ExecM σ κ Unit} (hf : ∀ v, v.IsPlain → Runs home ret loop (f v)) :
    Runs home ret loop (rescue x f) := by
  rw [rescue_eq]
  refine h.thenDo (fun _ _ => .pure trivial) fun e he => ?_
  match e with
  | .stop (.fault e) => exact local_keeping (hf _ (Fault.IsPlain.toValue he)) _
  | .stop .timeout | .brk | .cont | .ret v => exact .throw he

theorem local_ensuring (h' : Runs home ret loop y) : Runs home ret loop (ensuring x y) := by
  rw [ensuring_eq]
  refine h.thenDo (fun _ _ => h') fun e he => ?_
  match e with
  | .stop .timeout => exact .throw trivial
  | .stop (.fault f) | .brk | .cont | .ret v =>
    exact (local_keeping h' _).bind fun _ _ => .throw he

end

theorem local_turn {next : ExecM σ κ Unit} (h : Runs home ret true x)
    (h' : Runs home ret loop next) : Runs home ret loop (turn x next) := by
  rw [turn_eq]
  refine h.thenDo (fun _ _ => h') fun e he => ?_
  match e with
  | .cont => exact h'
  | .brk => exact .pure trivial
  | .stop s => exact .throw he
  | .ret v => exact .throw he

end

/-! The evaluator. -/

/-- Everything without lambdas keeps to itself. -/
structure Keeps (host : Host σ κ) (home : StorageId) (n : Nat) : Prop where
  expr : ∀ size e, e.runs false size = true →
    Local home Value.IsPlain Stop.IsPlain (evalExpr host home n e)
  test : ∀ size e, e.runs false size = true →
    Local home (fun _ => True) Stop.IsPlain (evalTest host home n e)
  args : ∀ size es, Expr.runIn false size es = true →
    Local home (fun vs => ∀ v ∈ vs, v.IsPlain) Stop.IsPlain (evalArgs host home n es)
  stmt : ∀ size ret loop s, s.runs false size ret loop = true →
    Runs home ret loop (execStmt host home n s)
  block : ∀ size ret loop ss, Stmt.runIn false size ret loop ss = true →
    Runs home ret loop (execBlock host home n ss)

theorem local_applyValue {host : Host σ κ} {n : Nat} (hv : v.IsPlain) (es : List Expr) :
    Local home Value.IsPlain Stop.IsPlain (applyValue host home n v es) := by
  cases n with
  | zero =>
    rw [applyValue]
    exact .throw trivial
  | succ n =>
    cases v with
    | closure => exact hv.elim
    | _ =>
      rw [applyValue]
      · exact local_raise (by rintro _ ⟨⟩)
      · simp

namespace Keeps

variable {host : Host σ κ} {answer : String → List Value → Outcome} (hh : host.IsPure answer)
  {n : Nat} (h : Keeps host home n) {size : Nat}
variable {loop ret : Bool} {e : Expr} {es : List Expr}
include h

theorem binary (m : Mark) (op : BinaryOp) {l r : Expr} (hl : l.runs false size = true)
    (hr : r.runs false size = true) :
    Local home Value.IsPlain Stop.IsPlain (evalExpr host home (n + 1) (.binary m op l r)) := by
  cases op with
  | and =>
    simp only [evalExpr]
    refine (h.test size l hl).bind fun b _ => ?_
    cases b
    · exact .pure trivial
    · exact (h.test size r hr).bind fun _ _ => .pure trivial
  | or =>
    simp only [evalExpr]
    refine (h.test size l hl).bind fun b _ => ?_
    cases b
    · exact (h.test size r hr).bind fun _ _ => .pure trivial
    · exact .pure trivial
  | _ =>
    simp only [evalExpr]
    exact (h.expr size l hl).bind fun v _ =>
      (local_keeping (h.expr size r hr) [v]).bind fun u _ =>
        local_get (BinaryOp.isPlain_apply _ v u)

include hh

theorem call (m : Mark) {c : Expr} (hc : c.runs false size = true)
    (hes : Expr.runIn false size es = true) :
    Local home Value.IsPlain Stop.IsPlain (evalExpr host home (n + 1) (.call m c es)) := by
  cases c with
  | var m' x =>
    simp only [evalExpr]
    intro s hs
    cases hx : s.frame.get? x with
    | none =>
      refine .read (x := evalArgs host home n es >>= callHost host x) ?_ ?_
      · intro a ha
        rw [ha.frame, hx]
      · exact (h.args size es hes).bind (fun vs hvs => local_callHost hh x hvs) s hs
    | some v =>
      refine .read (x := applyValue host home n v es) ?_ ?_
      · intro a ha
        rw [ha.frame, hx]
      · exact local_applyValue (hs.frame.get? hx) es s hs
  | _ =>
    rw [evalExpr]
    · exact (h.expr size _ hc).bind fun v hv => local_applyValue hv es
    · simp

theorem next_expr (he : e.runs false size = true) :
    Local home Value.IsPlain Stop.IsPlain (evalExpr host home (n + 1) e) := by
  cases e with
  | unit | bool | int | str =>
    simp only [evalExpr]
    exact .pure trivial
  | var m x =>
    simp only [evalExpr]
    exact local_readVar x
  | captured m k =>
    simp only [evalExpr]
    exact local_load k
  | binary m op l r =>
    simp only [Expr.runs, Bool.and_eq_true] at he
    exact h.binary m op he.1 he.2
  | unary m op e =>
    simp only [evalExpr]
    exact (h.expr size e he).bind fun v _ => local_get (UnaryOp.isPlain_apply op v)
  | call m c es =>
    simp only [Expr.runs, Bool.and_eq_true] at he
    exact h.call hh m he.1 he.2
  | lambda | await | resume => cases he

omit hh in
theorem next_test (he : e.runs false size = true) :
    Local home (fun _ => True) Stop.IsPlain (evalTest host home (n + 1) e) := by
  simp only [evalTest]
  refine (h.expr size e he).bind fun v _ => ?_
  cases ht : v.test with
  | ok b => exact .pure trivial
  | error f => exact local_raise (Value.isPlain_test ht)

omit hh in
theorem next_args (hes : Expr.runIn false size es = true) :
    Local home (fun vs => ∀ v ∈ vs, v.IsPlain) Stop.IsPlain (evalArgs host home (n + 1) es) := by
  cases es with
  | nil =>
    simp only [evalArgs]
    exact .pure (by simp)
  | cons e es =>
    simp only [Expr.runIn, Bool.and_eq_true] at hes
    simp only [evalArgs]
    refine (h.expr size e hes.1).bind fun v hv => ?_
    exact (local_keeping (h.args size es hes.2) [v]).bind fun vs hvs =>
      .pure (forall_mem_cons.mpr ⟨hv, hvs⟩)

omit hh in
theorem caught {b : Block} {c : Option Catch} (hb : Stmt.runIn false size ret loop b = true)
    (hc : Stmt.clauseRuns false size ret loop c = true) :
    Runs home ret loop (Eval.caught host home n b c) := by
  have hb := local_inScope (h.block size ret loop b hb)
  match c with
  | none => exact hb
  | some (.mk none cb) =>
    simp only [Eval.caught]
    exact local_rescue hb fun _ _ => local_inScope (h.block size ret loop cb hc)
  | some (.mk (some x) cb) =>
    simp only [Eval.caught]
    refine local_rescue hb fun v hv => local_inScope ?_
    exact (local_lift (local_define x hv)).bind fun _ _ => h.block size ret loop cb hc

omit hh in
theorem next_stmt {s : Stmt} (hs : s.runs false size ret loop = true) :
    Runs home ret loop (execStmt host home (n + 1) s) := by
  cases s with
  | bind m x e =>
    simp only [execStmt]
    exact (local_lift (h.expr size e hs)).bind fun v hv => local_lift (local_define x hv)
  | assign m x e =>
    simp only [execStmt]
    exact (local_lift (h.expr size e hs)).bind fun v hv => local_lift (local_assign x hv)
  | store m k e =>
    simp only [Stmt.runs, Bool.and_eq_true] at hs
    simp only [execStmt]
    exact (local_lift (h.expr size e hs.2)).bind fun v hv => local_lift (local_store k hv)
  | eval m e =>
    simp only [execStmt]
    exact (local_lift (h.expr size e hs)).bind fun _ _ => .pure trivial
  | cond m t a b =>
    simp only [Stmt.runs, Bool.and_eq_true] at hs
    simp only [execStmt]
    refine (local_lift (h.test size t hs.1.1)).bind fun yes _ => ?_
    cases yes
    · exact local_inScope (h.block size ret loop b hs.2)
    · exact local_inScope (h.block size ret loop a hs.1.2)
  | loop m t b =>
    have hwhole := hs
    simp only [Stmt.runs, Bool.and_eq_true] at hs
    rw [execStmt_loop]
    refine (local_lift (h.test size t hs.1)).bind fun again _ => ?_
    cases again
    · exact .pure trivial
    · exact local_turn (local_inScope (h.block size ret true b hs.2))
        (h.stmt size ret loop _ hwhole)
  | attempt m b c f =>
    simp only [Stmt.runs, Bool.and_eq_true] at hs
    rw [execStmt_attempt]
    have hguard := h.caught hs.1.1 hs.1.2
    cases f with
    | none => exact hguard
    | some fb => exact local_ensuring hguard (local_inScope (h.block size ret loop fb hs.2))
  | throw m e =>
    simp only [execStmt]
    refine (local_lift (h.expr size e hs)).bind fun v hv => .throw ?_
    rintro _ ⟨⟩
    exact hv
  | ret m e =>
    cases e with
    | none =>
      simp only [execStmt]
      exact .throw ⟨hs, trivial⟩
    | some e =>
      simp only [Stmt.runs, Bool.and_eq_true] at hs
      simp only [execStmt]
      exact (local_lift (h.expr size e hs.2)).bind fun v hv => .throw ⟨hs.1, hv⟩
  | brk | cont =>
    simp only [execStmt]
    exact .throw hs
  | block m b =>
    simp only [execStmt]
    exact local_inScope (h.block size ret loop b hs)
  | yield | yieldBreak => cases hs

omit hh in
theorem next_block {ss : List Stmt} (hss : Stmt.runIn false size ret loop ss = true) :
    Runs home ret loop (execBlock host home (n + 1) ss) := by
  cases ss with
  | nil =>
    simp only [execBlock]
    exact .pure trivial
  | cons s ss =>
    simp only [Stmt.runIn, Bool.and_eq_true] at hss
    simp only [execBlock]
    exact (h.stmt size ret loop s hss.1).bind fun _ _ => h.block size ret loop ss hss.2

end Keeps

variable {host : Host σ κ} {answer : String → List Value → Outcome}

theorem keeps (hh : host.IsPure answer) (home : StorageId) (n : Nat) : Keeps host home n := by
  induction n with
  | zero =>
    constructor <;> intros
    · rw [evalExpr]
      exact .throw trivial
    · rw [evalTest]
      exact .throw trivial
    · rw [evalArgs]
      exact .throw trivial
    · rw [execStmt]
      exact .throw trivial
    · rw [execBlock]
      exact .throw trivial
  | succ n ih =>
    exact ⟨fun _ _ => ih.next_expr hh, fun _ _ => ih.next_test, fun _ _ => ih.next_args,
      fun _ _ _ _ => ih.next_stmt, fun _ _ _ _ => ih.next_block⟩

/-! States. -/

section

variable (hh : host.IsPure answer)
include hh

section

variable (home : StorageId)

/-- An expression of a state: it has no lambdas, or it receives what an await brought. -/
theorem local_expr (n : Nat)
    (he : e.runs false size = true ∨ e.isResume = true) :
    Local home Value.IsPlain Stop.IsPlain (evalExpr host home n e) := by
  rcases he with he | he
  · exact (keeps hh home n).expr size e he
  · cases e with
    | resume m =>
      cases n with
      | zero =>
        rw [evalExpr]
        exact .throw trivial
      | succ n =>
        rw [evalExpr]
        exact local_receive
    | _ => cases he

theorem local_test (n : Nat)
    (he : e.runs false size = true ∨ e.isResume = true) :
    Local home (fun _ => True) Stop.IsPlain (evalTest host home n e) := by
  cases n with
  | zero =>
    rw [evalTest]
    exact .throw trivial
  | succ n =>
    rw [evalTest]
    refine (local_expr hh home n he).bind fun v _ => ?_
    cases ht : v.test with
    | ok b => exact .pure trivial
    | error f => exact local_raise (Value.isPlain_test ht)

theorem local_stmt (n : Nat) {s : Stmt}
    (hs : s.runs false size false false = true ∨ s.receives = true) :
    Runs home false false (execStmt host home n s) := by
  rcases hs with hs | hs
  · exact (keeps hh home n).stmt size false false s hs
  · cases n with
    | zero =>
      rw [execStmt]
      exact .throw trivial
    | succ n =>
      have hexpr : ∀ {e : Expr}, e.isResume = true →
          Local home Value.IsPlain (Exit.IsPlain false false) (evalExpr host home n e).lift := by
        intro e he
        have he : e.runs false size = true ∨ e.isResume = true := .inr he
        exact local_lift (local_expr hh home n he)
      cases s with
      | bind m x e =>
        simp only [execStmt]
        exact (hexpr hs).bind fun v hv => local_lift (local_define x hv)
      | assign m x e =>
        simp only [execStmt]
        exact (hexpr hs).bind fun v hv => local_lift (local_assign x hv)
      | store m k e =>
        simp only [execStmt]
        exact (hexpr hs).bind fun v hv => local_lift (local_store k hv)
      | eval m e =>
        simp only [execStmt]
        exact (hexpr hs).bind fun _ _ => .pure trivial
      | throw m e =>
        simp only [execStmt]
        refine (hexpr hs).bind fun v hv => .throw ?_
        rintro _ ⟨⟩
        exact hv
      | _ => cases hs

theorem local_block (hss : ∀ s ∈ ss, s.runs false size false false = true ∨ s.receives = true)
    (n : Nat) : Runs home false false (execBlock host home n ss) := by
  induction n generalizing ss with
  | zero =>
    rw [execBlock]
    exact .throw trivial
  | succ n ih =>
    cases ss with
    | nil =>
      rw [execBlock]
      exact .pure trivial
    | cons s ss =>
      rw [execBlock]
      rw [forall_mem_cons] at hss
      exact (local_stmt hh home n hss.1).bind fun _ _ => ih hss.2

theorem local_execState (hss : ∀ s ∈ ss, s.runs false size false false = true ∨ s.receives = true)
    (n : Nat) : Local home (fun _ => True) Stop.IsPlain (execState host home n ss) := by
  intro s hs
  obtain ⟨r, s', d, hr, he, hs', hrun⟩ := local_block hh home hss n s hs
  cases r with
  | ok _ =>
    refine ⟨.ok (), s', d, fun _ _ => trivial, by rintro _ ⟨⟩, hs', fun a ha => ?_⟩
    simp only [execState, hrun a ha]
    rfl
  | error e =>
    cases e with
    | stop stop =>
      refine ⟨.error stop, s', d, by rintro _ ⟨⟩, ?_, hs', fun a ha => ?_⟩
      · rintro _ ⟨⟩
        exact he _ rfl
      · simp only [execState, hrun a ha]
        rfl
    | brk | cont => cases he _ rfl
    | ret v => cases (he _ rfl).1

end

end

end Eval

end Resumable

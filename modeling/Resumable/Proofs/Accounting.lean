import Resumable.Proofs.Later
import Resumable.Proofs.Standards

namespace Resumable

open List

section

variable {σ κ : Type} (S : Standard) (w : World σ κ)

/-- The body of a closure meets the standard, with parameters `ps` and variables of the given
names. -/
def World.Closed (ps names : List String) (home : StorageId) (body : Block) : Prop :=
  ∃ size xs js, w.Fits home size ∧ (∀ x ∈ xs, x ∈ names ∨ x ∈ ps) ∧ (∀ k ∈ js, w.Written home k) ∧
    Stmt.FitIn S size xs js true false body

mutual

def Value.Proper : Value → Prop
  | .closure _ ps body env home => w.Closed S ps (env.map (·.1)) home body ∧ Value.ProperIn env
  | .future f => f < w.futures.size
  | .unit | .bool _ | .int _ | .str _ => True

def Value.ProperIn : List (String × Value) → Prop
  | [] => True
  | (_, v) :: rest => v.Proper ∧ Value.ProperIn rest

end

def Fault.Proper (f : Fault) : Prop :=
  ∀ v ∈ f.value?, v.Proper S w

def Outcome.Proper : Outcome → Prop
  | .ok v => v.Proper S w
  | .error f => f.Proper S w

/-- A machine of a sound chain, at one of its states. -/
structure Machine.Secure (m : Machine) : Prop where
  chain : m.chain.Sound true
  state : ∃ st, m.chain.states[m.current]? = some st
  quiet : ∀ p ∈ m.pending, ∀ t, p.2 = .goOn t → Regions.Quiet m.chain.states t

/-- What the machine reads from its slots, now or after a cleanup, has been set. -/
structure Machine.Covered (W : StateId → List Slot) (m : Machine) : Prop where
  supplied : m.chain.Supplied W
  current : ∀ k ∈ W m.current, w.Written m.home k
  next : ∀ p ∈ m.pending, ∀ t, p.2 = .goOn t → ∀ k ∈ W t, w.Written m.home k

structure Machine.Proper (m : Machine) : Prop where
  fits : w.Fits m.home m.chain.captures.size
  result : m.result.Proper S w
  faults : ∀ p ∈ m.pending, ∀ f, p.2 = .rethrow f → f.Proper S w
  resumption : ∀ o ∈ m.resumption, Outcome.Proper S w o
  secure : S.strict = true → m.Secure
  covered : S.definite = true → ∃ W, m.Covered w W

/-- The machine can go on from where it stands. -/
structure Machine.Poised (m : Machine) : Prop where
  proper : m.Proper S w
  steady : S.strict = true → Regions.Steady m.chain m

/-- It has what it is to receive there. -/
structure Machine.Ready (m : Machine) : Prop where
  poised : m.Poised S w
  received : S.strict = true →
    Regions.Quiet m.chain.states m.current ∨ m.resumption.isSome = true

def Continuation.Proper : Continuation κ → Prop
  | .resume m _ => m.Poised S w ∧ (S.strict = true → m.chain.kind = .async)
  | .callback .. => True

end

section

variable {σ κ : Type} {S : Standard} {w w' : World σ κ}

theorem World.Closed.later {ps names : List String} {home : StorageId} {body : Block}
    (hc : w.Closed S ps names home body) (h : w.Later w') : w'.Closed S ps names home body := by
  obtain ⟨size, xs, js, hf, hx, hj, hb⟩ := hc
  exact ⟨size, xs, js, hf.later h, hx, fun k hk => (hj k hk).later h, hb⟩

mutual

theorem Value.Proper.later {v : Value} (hv : v.Proper S w) (h : w.Later w') : v.Proper S w' := by
  match v with
  | .closure _ _ _ env _ => exact ⟨World.Closed.later hv.1 h, Value.ProperIn.later hv.2 h⟩
  | .future _ => exact Nat.lt_of_lt_of_le hv h.futures
  | .unit | .bool _ | .int _ | .str _ => trivial

theorem Value.ProperIn.later {env : List (String × Value)} (he : Value.ProperIn S w env)
    (h : w.Later w') : Value.ProperIn S w' env := by
  match env with
  | [] => trivial
  | (_, v) :: rest => exact ⟨Value.Proper.later he.1 h, Value.ProperIn.later he.2 h⟩

end

theorem Value.properIn_iff {env : List (String × Value)} :
    Value.ProperIn S w env ↔ ∀ p ∈ env, p.2.Proper S w := by
  induction env with
  | nil => simp [Value.ProperIn]
  | cons p env ih => simp only [Value.ProperIn, forall_mem_cons, ih]

theorem Fault.Proper.later {f : Fault} (hf : f.Proper S w) (h : w.Later w') : f.Proper S w' :=
  fun v hv => (hf v hv).later h

theorem Fault.Proper.toValue {f : Fault} (hf : f.Proper S w) : f.toValue.Proper S w := by
  cases f with
  | thrown v => exact hf v rfl
  | _ => trivial

theorem Outcome.Proper.later {o : Outcome} (ho : Outcome.Proper S w o) (h : w.Later w') :
    Outcome.Proper S w' o := by
  cases o with
  | ok v => exact Value.Proper.later ho h
  | error f => exact Fault.Proper.later ho h

theorem Machine.Covered.later {W : StateId → List Slot} {m : Machine} (hm : m.Covered w W)
    (h : w.Later w') : m.Covered w' W :=
  ⟨hm.supplied, fun k hk => (hm.current k hk).later h,
    fun p hp t ht k hk => (hm.next p hp t ht k hk).later h⟩

theorem Machine.Proper.later {m : Machine} (hm : m.Proper S w) (h : w.Later w') :
    m.Proper S w' where
  fits := hm.fits.later h
  result := hm.result.later h
  faults := fun p hp f hf => (hm.faults p hp f hf).later h
  resumption := fun o ho => (hm.resumption o ho).later h
  secure := hm.secure
  covered := fun hs => (hm.covered hs).imp fun _ hW => hW.later h

theorem Machine.Poised.later {m : Machine} (hm : m.Poised S w) (h : w.Later w') : m.Poised S w' :=
  ⟨hm.proper.later h, hm.steady⟩

theorem Machine.Ready.later {m : Machine} (hm : m.Ready S w) (h : w.Later w') : m.Ready S w' :=
  ⟨hm.poised.later h, hm.received⟩

theorem Continuation.Proper.later {k : Continuation κ} (hk : k.Proper S w) (h : w.Later w') :
    k.Proper S w' := by
  cases k with
  | resume m f => exact ⟨hk.1.later h, hk.2⟩
  | callback => trivial

end

/-! Books. -/

/-- How far someone is who may settle a future: nothing has happened, a task runs, or it is to run
on with an outcome. -/
inductive Stage where
  | fresh
  | running
  | due (o : Outcome)

/-- What a task may receive when it runs next. -/
def Stage.Allows {σ κ : Type} (w : World σ κ) (r : FutureId) : Stage → Option Outcome → Prop
  | .fresh, o => o = none
  | .running, o => o.isSome = true ∧ w.HasRun r
  | .due o, o' => o' = some o

/-- Something that is needed exactly once. -/
inductive Cargo (κ : Type) where
  | storage (home : StorageId)
  /-- The right to settle a future. -/
  | right (f : FutureId) (stage : Stage)
  | waiting (f : FutureId) (ks : List (Continuation κ))

def Holding.cargo {κ : Type} : Holding κ → List (Cargo κ)
  | .storage home => [.storage home]
  | .machine m => [.storage m.home]
  | .future f => [.right f .running]
  | .waiting f ks => [.waiting f ks]
  | .values _ | .outcome _ | .evaluation .. => []

def World.cargo {σ κ : Type} (w : World σ κ) : List (Cargo κ) :=
  w.hands.flatMap (·.cargo)

/-- What the host has in its part of the world: cargo, futures that it may settle at any time, and
what is asked of the rest. -/
structure Custody (σ κ : Type) where
  cargo : σ → List (Cargo κ)
  sources : σ → List FutureId
  Kept : World σ κ → Prop
  later : ∀ {w w'}, Kept w → w.Later w' → w'.ext = w.ext → Kept w'

/-- Nothing changes that books are kept about. -/
structure World.Inert {σ κ : Type} (w w' : World σ κ) : Prop where
  futures : w'.futures = w.futures
  storages : w'.storages.size = w.storages.size
  holders : ∀ i, w'.holders i = w.holders i
  defects : w'.defects = w.defects
  strays : w'.strays = w.strays
  accesses : w'.accesses = w.accesses
  history : w'.history = w.history
  hands : w'.hands = w.hands
  ext : w'.ext = w.ext

/-- A way to keep books. They are `Balanced` while some cargo is on its way, and `Clean` wherever
steps may run out. -/
structure Accounting {σ κ : Type} (S : Standard) (C : Custody σ κ) where
  Balanced : List (Cargo κ) → World σ κ → Prop
  Clean : World σ κ → Prop
  clean : ∀ {own w}, Balanced own w → Clean w
  clean_of_eq : ∀ {w w'}, Clean w → w'.accesses = w.accesses → w'.history = w.history →
    w'.defects = w.defects → w'.strays = w.strays → Clean w'
  inert : ∀ {own w w'}, Balanced own w → w.Inert w' → Balanced own w'
  /-- Cargo may be taken in hand. -/
  grasp : ∀ {own held w},
    Balanced own (w.grasp held) ↔ Balanced (held.flatMap (·.cargo) ++ own) w
  /-- Cargo may go to the host or come from it. -/
  ext : ∀ {own own' w e}, Balanced own w → (own' ++ C.cargo e).Perm (own ++ C.cargo w.ext) →
    C.sources e = C.sources w.ext → Balanced own' { w with ext := e }
  -- variables
  read : ∀ {own w home k}, Balanced own w → (S.definite = true → w.Written home k) →
    Balanced own (w.note (.read home k))
  wrote : ∀ {own w home k}, Balanced own w → Balanced own (w.note (.wrote home k))
  missed : ∀ {own w x}, Balanced own w → S.definite = false → Balanced own (w.note (.missed x))
  -- faults
  defect : ∀ {own w}, Balanced own w → (S.strict = true → w.strays ≠ 0) → Balanced own w.defect
  -- storages
  addStorage : ∀ {own w slots}, Balanced own w →
    Balanced (.storage w.storages.size :: own) (w.addStorage slots).2
  call : ∀ {own w home} (host : Host σ κ) (held : List (Holding κ)), Balanced own w →
    Balanced (.storage home :: own)
      (((((w.grasp held).visit host home).letGo w.hands).callOver home).retain home)
  release : ∀ {own w home}, Balanced (.storage home :: own) w → Balanced own (w.release home)
  alive : ∀ {own w home}, Balanced own w → S.strict = true → w.strays = 0 →
    .storage home ∈ own ++ w.cargo → w.isAlive home = true
  -- futures
  ready : ∀ {own w o}, Balanced own w → Balanced own (w.addFuture (some o)).2
  fresh : ∀ {own w}, Balanced own w →
    Balanced (.right w.futures.size .fresh :: own) (w.addFuture none).2
  source : ∀ {own w e}, Balanced own w → C.sources e = w.futures.size :: C.sources w.ext →
    C.cargo e = C.cargo w.ext → Balanced own { (w.addFuture none).2 with ext := e }
  start : ∀ {own w f}, Balanced (.right f .fresh :: own) w → Balanced (.right f .running :: own) w
  settle : ∀ {own w w' f o ks}, Balanced (.right f .running :: own) w →
    w.settle? f o = some (ks, w') → Balanced (.waiting f ks :: own) w'
  settleSource : ∀ {own w w' f o ks}, Balanced own w → f ∈ C.sources w.ext →
    w.settle? f o = some (ks, w') → Balanced (.waiting f ks :: own) w'
  refused : ∀ {w f o}, Balanced [.right f .running] w → w.settle? f o = none →
    Balanced [] w ∧ Balanced [] (w.record (.ends f false))
  attach : ∀ {own w f key next}, Balanced (.right next .fresh :: own) w → f < w.futures.size →
    w.outcome? f = none → Balanced own (w.await f (.callback key next))
  -- continuations
  nil : ∀ {own w f}, Balanced (.waiting f [] :: own) w → Balanced own w
  resume : ∀ {own w f m r o ks}, Balanced (.waiting f (.resume m r :: ks) :: own) w →
    w.outcome? f = some o →
    Balanced (.storage m.home :: .right r (.due o) :: .waiting f ks :: own) w
  callback : ∀ {own w f key next ks}, Balanced (.waiting f (.callback key next :: ks) :: own) w →
    Balanced (.right next .fresh :: .waiting f ks :: own) w
  -- tasks
  run : ∀ {w home r stage o}, Balanced [.storage home, .right r stage] w → stage.Allows w r o →
    Balanced [.storage home] ((w.grasp [.future r]).record (.runs r o))
  suspend : ∀ {w f m r}, Balanced [.storage m.home, .right r .running] w → w.HasRun r →
    f < w.futures.size → w.outcome? f = none → Balanced [] ((w.suspend f m r).record (.waits r f))
  ended : ∀ {w r o}, Balanced [] w → w.outcome? r = some o → Balanced [] (w.record (.ends r true))
  host : ∀ {w}, Balanced [] w → Balanced [] (w.record .host)

namespace Accounting

variable {σ κ : Type} {S : Standard} {C : Custody σ κ} (A : Accounting S C)
  {own own' : List (Cargo κ)} {w : World σ κ}

theorem perm (h : A.Balanced own w) (hp : own'.Perm own) : A.Balanced own' w :=
  A.ext h (hp.append_right _) rfl

theorem letGo {held before : List (Holding κ)} (h : A.Balanced own w)
    (hh : w.hands = held ++ before) :
    A.Balanced (held.flatMap (·.cargo) ++ own) (w.letGo before) := by
  refine A.grasp.mp ?_
  have hw : (w.letGo before).grasp held = w := by
    simp only [World.letGo, World.grasp, ← hh]
  rw [hw]
  exact h

theorem given (h : A.Balanced own w) (home : StorageId) (ks : List Slot) :
    A.Balanced own (w.given home ks) := by
  induction ks with
  | nil => exact h
  | cons k ks ih => exact A.wrote ih

end Accounting

/-! Worlds. -/

namespace World

variable {σ κ : Type}

/-- Whatever is in the world can be used. -/
structure Stocked (S : Standard) (C : Custody σ κ) (w : World σ κ) : Prop where
  slots : ∀ c ∈ w.storages.toList, ∀ v ∈ c.slots, v.Proper S w
  outcomes : ∀ c ∈ w.futures.toList, ∀ o ∈ c.outcome, Outcome.Proper S w o
  waiting : ∀ c ∈ w.futures.toList, ∀ k ∈ c.waiting, k.Proper S w
  kept : C.Kept w

/-- The world is in order, while some cargo is on its way. -/
structure Proper {S : Standard} {C : Custody σ κ} (A : Accounting S C) (own : List (Cargo κ))
    (w : World σ κ) : Prop where
  stocked : w.Stocked S C
  balanced : A.Balanced own w

variable {S : Standard} {C : Custody σ κ} {A : Accounting S C} {own own' : List (Cargo κ)}
  {w w' : World σ κ}

section

variable (h : w.Stocked S C)
include h

theorem Stocked.outcome {f : FutureId} {o : Outcome} (ho : w.outcome? f = some o) :
    Outcome.Proper S w o := by
  obtain ⟨c, hc, ho⟩ := Option.bind_eq_some_iff.mp ho
  rw [← Array.getElem?_toList] at hc
  exact h.outcomes c (mem_of_getElem? hc) o ho

theorem Stocked.load {home : StorageId} {k : Slot} {v : Value} (hv : w.load? home k = some v) :
    v.Proper S w := by
  obtain ⟨c, hc, hv⟩ := Option.bind_eq_some_iff.mp hv
  rw [← Array.getElem?_toList] at hc
  exact h.slots c (mem_of_getElem? hc) v (mem_of_getElem? hv)

theorem Stocked.same (hl : w.Later w') (hs : w'.storages = w.storages)
    (hf : w'.futures = w.futures) (he : w'.ext = w.ext) : w'.Stocked S C := by
  refine ⟨?_, ?_, ?_, C.later h.kept hl he⟩
  · rw [hs]
    exact fun c hc v hv => (h.slots c hc v hv).later hl
  · rw [hf]
    exact fun c hc o ho => (h.outcomes c hc o ho).later hl
  · rw [hf]
    exact fun c hc k hk => (h.waiting c hc k hk).later hl

theorem Stocked.grasp (held : List (Holding κ)) : (w.grasp held).Stocked S C :=
  h.same (later_grasp w held) rfl rfl rfl

theorem Stocked.letGo (hands : List (Holding κ)) : (w.letGo hands).Stocked S C :=
  h.same (later_letGo w hands) rfl rfl rfl

theorem Stocked.record (x : Happening) : (w.record x).Stocked S C :=
  h.same (later_record w x) rfl rfl rfl

theorem Stocked.note (x : Access) : (w.note x).Stocked S C :=
  h.same (later_note w x) rfl rfl rfl

theorem Stocked.defect : w.defect.Stocked S C :=
  h.same (later_defect w) rfl rfl rfl

theorem Stocked.given (home : StorageId) (ks : List Slot) : (w.given home ks).Stocked S C :=
  h.same (later_given w home ks) rfl rfl rfl

theorem Stocked.changeStorage {home : StorageId} {g : StorageCell → StorageCell}
    (hl : w.Later (w.changeStorage home g))
    (hg : ∀ c, w.storages[home]? = some c → ∀ v ∈ (g c).slots, v ∈ c.slots ∨ v.Proper S w) :
    (w.changeStorage home g).Stocked S C := by
  refine ⟨fun c hmem v hv => ?_, fun c hmem o ho => (h.outcomes c hmem o ho).later hl,
    fun c hmem k hk => (h.waiting c hmem k hk).later hl, C.later h.kept hl rfl⟩
  rcases mem_changeStorage hmem with hold | ⟨old, hold, rfl⟩
  · exact (h.slots c hold v hv).later hl
  · rcases hg old hold v hv with hv | hv
    · rw [← Array.getElem?_toList] at hold
      exact (h.slots old (mem_of_getElem? hold) v hv).later hl
    · exact hv.later hl

theorem Stocked.store (home : StorageId) (k : Slot) {v : Value} (hv : v.Proper S w) :
    (w.store home k v).Stocked S C := by
  have hset : (w.changeStorage home fun c => { c with slots := c.slots.set k v }).Stocked S C := by
    refine h.changeStorage (later_changeStorage fun _ _ _ hpos => ⟨hpos, length_set⟩)
      fun c _ u hu => ?_
    rcases mem_or_eq_of_mem_set hu with hu | rfl
    · exact .inl hu
    · exact .inr hv
  exact hset.note (.wrote home k)

theorem Stocked.release (home : StorageId) : (w.release home).Stocked S C := by
  refine h.changeStorage (later_release w home) fun c _ v hv => ?_
  split at hv
  · cases hv
  · exact .inl hv

theorem Stocked.visit (host : Host σ κ) (home : StorageId) : (w.visit host home).Stocked S C := by
  unfold World.visit
  split
  · have hgone := h.changeStorage (later_empty w home) fun _ _ _ hv => nomatch hv
    exact hgone.same (later_of_eq rfl rfl rfl rfl rfl) rfl rfl rfl
  · exact h

theorem Stocked.retain_callOver (home : StorageId) (held : List (Holding κ)) :
    (((w.callOver home).grasp held).retain home).Stocked S C := by
  have hl := later_retain_callOver w home held
  have hs : (((w.callOver home).grasp held).retain home).storages =
      (w.changeStorage home fun c => { c with holders := c.holders + 1 }).storages := by
    unfold callOver
    split <;> rfl
  have hf : (((w.callOver home).grasp held).retain home).futures = w.futures := by
    unfold callOver
    split <;> rfl
  have he : (((w.callOver home).grasp held).retain home).ext = w.ext := by
    unfold callOver
    split <;> rfl
  refine ⟨fun c hc v hv => ?_, ?_, ?_, C.later h.kept hl he⟩
  · rw [hs] at hc
    rcases mem_changeStorage hc with hc | ⟨old, hold, rfl⟩
    · exact (h.slots c hc v hv).later hl
    · rw [← Array.getElem?_toList] at hold
      exact (h.slots old (mem_of_getElem? hold) v hv).later hl
  · rw [hf]
    exact fun c hc o ho => (h.outcomes c hc o ho).later hl
  · rw [hf]
    exact fun c hc k hk => (h.waiting c hc k hk).later hl

theorem Stocked.addStorage {slots : List Value} (hs : ∀ v ∈ slots, v.Proper S w) :
    (w.addStorage slots).2.Stocked S C := by
  have hl := later_addStorage w slots
  refine ⟨fun c hc v hv => ?_, fun c hc o ho => (h.outcomes c hc o ho).later hl,
    fun c hc k hk => (h.waiting c hc k hk).later hl, C.later h.kept hl rfl⟩
  simp only [World.addStorage, Array.toList_push, mem_append, mem_singleton] at hc
  rcases hc with hc | rfl
  · exact (h.slots c hc v hv).later hl
  · exact (hs v hv).later hl

theorem Stocked.addFuture {o : Option Outcome} (ho : ∀ x ∈ o, Outcome.Proper S w x) :
    (w.addFuture o).2.Stocked S C := by
  have hl := later_addFuture w o
  have hmem : ∀ c ∈ (w.addFuture o).2.futures.toList, c ∈ w.futures.toList ∨ c = ⟨o, []⟩ := by
    simp [World.addFuture]
  refine ⟨fun c hc v hv => (h.slots c hc v hv).later hl, fun c hc x hx => ?_, fun c hc k hk => ?_,
    C.later h.kept hl rfl⟩
  · rcases hmem c hc with hc | rfl
    · exact (h.outcomes c hc x hx).later hl
    · exact (ho x hx).later hl
  · rcases hmem c hc with hc | rfl
    · exact (h.waiting c hc k hk).later hl
    · cases hk

theorem Stocked.changeFuture {f : FutureId} {g : FutureCell κ → FutureCell κ}
    (hl : w.Later { w with futures := w.futures.modify f g })
    (ho : ∀ c, w.futures[f]? = some c → ∀ o ∈ (g c).outcome, Outcome.Proper S w o)
    (hk : ∀ c, w.futures[f]? = some c → ∀ k ∈ (g c).waiting, k ∈ c.waiting ∨ k.Proper S w) :
    ({ w with futures := w.futures.modify f g } : World σ κ).Stocked S C := by
  have hmem : ∀ c ∈ (w.futures.modify f g).toList, c ∈ w.futures.toList ∨
      ∃ old, w.futures[f]? = some old ∧ c = g old := by
    intro c hc
    cases hf : w.futures[f]? with
    | none =>
      have hout : w.futures.size ≤ f := by simpa using hf
      rw [Array.toList_modify, modify_eq_self hout] at hc
      exact .inl hc
    | some old =>
      obtain ⟨before, after, he, hm⟩ := exists_of_modify hf g
      rw [hm, mem_append, mem_cons] at hc
      rcases hc with hc | rfl | hc
      · exact .inl (by simp [he, hc])
      · exact .inr ⟨old, rfl, rfl⟩
      · exact .inl (by simp [he, hc])
  refine ⟨fun c hc v hv => (h.slots c hc v hv).later hl, fun c hc o ho' => ?_, fun c hc k hk' => ?_,
    C.later h.kept hl rfl⟩
  · rcases hmem c hc with hc | ⟨old, hold, rfl⟩
    · exact (h.outcomes c hc o ho').later hl
    · exact (ho old hold o ho').later hl
  · rcases hmem c hc with hc | ⟨old, hold, rfl⟩
    · exact (h.waiting c hc k hk').later hl
    · rcases hk old hold k hk' with hk' | hk'
      · rw [← Array.getElem?_toList] at hold
        exact (h.waiting old (mem_of_getElem? hold) k hk').later hl
      · exact hk'.later hl

theorem Stocked.await (f : FutureId) {k : Continuation κ} (hk : k.Proper S w) :
    (w.await f k).Stocked S C := by
  refine h.changeFuture (later_await w f k) (fun c hc o ho => ?_) fun c _ k' hk' => ?_
  · rw [← Array.getElem?_toList] at hc
    exact h.outcomes c (mem_of_getElem? hc) o ho
  · rcases mem_append.mp hk' with hk' | hk'
    · exact .inl hk'
    · exact .inr (mem_singleton.mp hk' ▸ hk)

theorem Stocked.suspend (f : FutureId) {m : Machine} (r : FutureId) (hm : m.Poised S w)
    (hk : S.strict = true → m.chain.kind = .async) : (w.suspend f m r).Stocked S C := by
  refine (h.await f (k := .resume m r) ⟨hm, hk⟩).changeStorage
    (later_changeStorage fun _ _ _ hpos => ⟨hpos, rfl⟩) fun _ _ _ hv => .inl hv

/-- Those who waited on a future can be used when it is settled. -/
theorem Stocked.settle? {f : FutureId} {o : Outcome} {ks : List (Continuation κ)}
    (ho : Outcome.Proper S w o) (hs : w.settle? f o = some (ks, w')) :
    w'.Stocked S C ∧ ∀ k ∈ ks, k.Proper S w' := by
  have hl := later_settle? hs
  obtain ⟨cell, hf, -, rfl, rfl⟩ := settle?_some hs
  refine ⟨h.changeFuture hl (fun c _ o' ho' => ?_) nofun, fun k hk => ?_⟩
  · cases ho'
    exact ho
  · rw [← Array.getElem?_toList] at hf
    exact (h.waiting cell (mem_of_getElem? hf) k hk).later hl

end

/-- What a computation may do to the world. -/
structure Keeps (A : Accounting S C) (own : List (Cargo κ)) (w w' : World σ κ) : Prop where
  proper : w'.Proper A own
  later : w.Later w'
  hands : w'.hands = w.hands

theorem Keeps.refl (h : w.Proper A own) : Keeps A own w w :=
  ⟨h, .refl w, rfl⟩

theorem Keeps.trans {w'' : World σ κ} (h : Keeps A own' w w') (h' : Keeps A own w' w'') :
    Keeps A own w w'' :=
  ⟨h'.proper, h.later.trans h'.later, h'.hands.trans h.hands⟩

section

variable (h : w.Proper A own)
include h

theorem Proper.perm (hp : own'.Perm own) : w.Proper A own' :=
  ⟨h.stocked, A.perm h.balanced hp⟩

theorem Proper.letGo {held before : List (Holding κ)} (hh : w.hands = held ++ before) :
    (w.letGo before).Proper A (held.flatMap (·.cargo) ++ own) :=
  ⟨h.stocked.letGo before, A.letGo h.balanced hh⟩

theorem Proper.read {home : StorageId} {k : Slot} (hk : S.definite = true → w.Written home k) :
    Keeps A own w (w.note (.read home k)) :=
  ⟨⟨h.stocked.note _, A.read h.balanced hk⟩, later_note w _, rfl⟩

theorem Proper.missed {x : String} (hd : S.definite = false) : Keeps A own w (w.note (.missed x)) :=
  ⟨⟨h.stocked.note _, A.missed h.balanced hd⟩, later_note w _, rfl⟩

theorem Proper.defect (hs : S.strict = true → w.strays ≠ 0) : Keeps A own w w.defect :=
  ⟨⟨h.stocked.defect, A.defect h.balanced hs⟩, later_defect w, rfl⟩

theorem Proper.store (home : StorageId) (k : Slot) {v : Value} (hv : v.Proper S w) :
    Keeps A own w (w.store home k v) := by
  have hin : w.Inert (w.changeStorage home fun c => { c with slots := c.slots.set k v }) := by
    refine ⟨rfl, by simp [changeStorage], fun i => ?_, rfl, rfl, rfl, rfl, rfl, rfl⟩
    rw [holders_changeStorage]
    split
    · rename_i hi
      subst hi
      rfl
    · rfl
  exact ⟨⟨h.stocked.store home k hv, A.wrote (A.inert h.balanced hin)⟩, later_store w home k v, rfl⟩

theorem Proper.call (host : Host σ κ) (home : StorageId) (held : List (Holding κ))
    {caller : List (Holding κ)} (hc : caller.flatMap (·.cargo) = []) :
    ((((((w.grasp held).visit host home).letGo w.hands).callOver home).grasp
      (.storage home :: caller)).retain home).Proper A own := by
  refine ⟨(((h.stocked.grasp held).visit host home).letGo _).retain_callOver home _, ?_⟩
  have hcall : A.Balanced (.storage home :: own)
      (((((w.grasp held).visit host home).letGo w.hands).callOver home).retain home) :=
    A.call host held h.balanced
  have hcargo : (.storage home :: caller : List (Holding κ)).flatMap (·.cargo) ++ own =
      .storage home :: own := by
    rw [flatMap_cons, hc]
    rfl
  rw [← hcargo] at hcall
  exact A.grasp.mpr hcall

theorem Proper.newClosure : Keeps A own w { w with closures := w.closures + 1 } := by
  have hl : w.Later { w with closures := w.closures + 1 } := later_of_eq rfl rfl rfl rfl rfl
  exact ⟨⟨h.stocked.same hl rfl rfl rfl,
    A.inert h.balanced ⟨rfl, rfl, fun _ => rfl, rfl, rfl, rfl, rfl, rfl, rfl⟩⟩, hl, rfl⟩

end

theorem Proper.release {home : StorageId} (h : w.Proper A (.storage home :: own)) :
    Keeps A own w (w.release home) :=
  ⟨⟨h.stocked.release home, A.release h.balanced⟩, later_release w home, rfl⟩

theorem Proper.grasp {held : List (Holding κ)}
    (h : w.Proper A (held.flatMap (·.cargo) ++ own)) : (w.grasp held).Proper A own :=
  ⟨h.stocked.grasp held, A.grasp.mpr h.balanced⟩

end World

end Resumable

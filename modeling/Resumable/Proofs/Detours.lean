import Mathlib.Logic.Function.Iterate
import Resumable.Proofs.Discretion
import Resumable.Proofs.Programs
import Resumable.Proofs.Tasks

namespace Resumable

open List

variable {σ κ α β : Type}

theorem Enumerator.advance_eq (host : Host σ κ) (n : Nat) (m : Machine) (current : Option Value) :
    advance host n ⟨some m, current⟩ =
      World.holding [.values current.toList] (m.runs host n) >>= fun
        | .yielded v m => pure (.yielded v, { machine := some m, current := some v })
        | .completed .. => modify (·.release m.home) >>= fun _ => pure (.done, finished)
        | .awaiting .. => modify (·.release m.home) >>= fun _ => modify (·.defect) >>= fun _ =>
          pure (.fault (.internal "iterator chain awaited a future"), finished)
        | .fault f _ => modify (·.release m.home) >>= fun _ => pure (.fault f, finished)
        | .timeout => throw ⟨⟩ := by
  funext w
  simp only [advance, bind, EStateM.bind, World.holding, Machine.runs]
  cases (m.run host n (w.grasp [.values current.toList])).1 <;> rfl

/-- The machine of a task runs. -/
def Task.running (host : Host σ κ) (n : Nat) (m : Machine) (r : FutureId) : Run σ κ Halt :=
  World.holding [.future r] (modify (·.record (.runs r m.resumption)) >>= fun _ => m.runs host n)

theorem Task.drive_eq (host : Host σ κ) (n : Nat) (m : Machine) (r : FutureId) :
    drive host (n + 1) m r = running host n m r >>= proceed host n r := by
  funext w
  rw [drive_succ rfl]
  rfl

/-- How a task goes on at an await, and when the outcome has come, if `drive` runs tasks. -/
structure Awaits (σ κ : Type) where
  await (drive : Machine → FutureId → Run σ κ Unit) (f : FutureId) (m : Machine) (r : FutureId) :
    Run σ κ Unit
  resume (drive : Machine → FutureId → Run σ κ Unit) (m : Machine) (r : FutureId) : Run σ κ Unit

namespace Engine

/-- An engine with no steps left. -/
def spent : Engine σ κ :=
  ⟨fun _ _ => throw ⟨⟩, fun _ _ _ => throw ⟨⟩, fun _ _ => throw ⟨⟩, fun _ _ _ _ => throw ⟨⟩⟩

/-- One step more. -/
def next (awaits : Awaits σ κ) (host : Host σ κ) (n : Nat) (E : Engine σ κ) : Engine σ κ where
  settle f o := do
    match (← get).settle? f o with
    | none => return false
    | some (waiting, w) =>
      set w
      E.deliver f o waiting
      return true
  deliver f o
    | [] => return ()
    | .resume m r :: rest => do
      World.holding [.outcome o, .waiting f rest]
        (awaits.resume E.drive { m with resumption := some o } r)
      E.deliver f o rest
    | .callback key next :: rest => do
      World.holding [.outcome o, .waiting f rest] do
        let answer ← World.holding [.future next] (host.callback key o)
        let _ ← E.settle next answer
      E.deliver f o rest
  drive m r := do
    match ← Task.running host n m r with
    | .awaiting f m => awaits.await E.drive f m r
    | .completed v m => E.finish m [] r (.ok v)
    | .fault f m => E.finish m [] r (.error f)
    | .yielded v m =>
      modify (·.defect)
      E.finish m [v] r (.error (.internal "async chain yielded a value"))
    | .timeout => throw ⟨⟩
  finish m rest r o := do
    let fresh ← World.holding [.machine m, .values rest] (E.settle r o)
    modify fun w => (w.release m.home).record (.ends r fresh)

/-- The engine that awaits in a given way. -/
def after (awaits : Awaits σ κ) (host : Host σ κ) : Nat → Engine σ κ
  | 0 => spent
  | n + 1 => next awaits host n (after awaits host n)

end Engine

/-- A settled future is not waited for. -/
def Awaits.shortcut : Awaits σ κ where
  await drive f m r := do
    match (← get).outcome? f with
    | some o => drive { m with resumption := some o } r
    | none => modify fun w => (w.suspend f m r).record (.waits r f)
  resume drive := drive

/-- That is how tasks are run. -/
theorem Engine.after_shortcut (host : Host σ κ) (n : Nat) :
    Engine.after .shortcut host n = Task.engine host n := by
  induction n with
  | zero => rfl
  | succ n ih =>
    rw [after, ih]
    refine (Engine.mk.injEq ..).mpr ⟨rfl, ?_, ?_, rfl⟩
    · funext f o ks
      rcases ks with _ | ⟨k, ks⟩
      · rfl
      · cases k <;> rfl
    · funext m r
      refine Eq.trans ?_ (Task.drive_eq host n m r).symm
      refine congrArg (Task.running host n m r >>= ·) (funext fun halt => ?_)
      cases halt with
      | awaiting f m =>
        funext w
        simp only [Awaits.shortcut, Task.proceed, get_bind]
        cases w.outcome? f <;> rfl
      | _ => rfl

/-! The detour through a continuation. -/

/-- Futures for continuations that answer nothing. -/
structure Annex where
  /-- For each of them, whether it is settled. Nobody waits on them. -/
  settled : Array Bool := #[]
  /-- Tasks that wait, each with the future to settle when it has been resumed. -/
  promised : List (FutureId × Nat) := []

/-- A desk with an annex, which programs do not see. -/
abbrev Annexed (σ : Type) := Desk (σ × Annex)

namespace World

def annex (w : World (Annexed σ) κ) : Annex :=
  w.ext.memory.2

def withAnnex (w : World (Annexed σ) κ) (annex : Annex) : World (Annexed σ) κ :=
  { w with ext := { w.ext with memory := (w.ext.memory.1, annex) } }

/-- A future is to be settled when the task has been resumed. -/
def promise (w : World (Annexed σ) κ) (r : FutureId) (next : Nat) : World (Annexed σ) κ :=
  w.withAnnex { w.annex with promised := (r, next) :: w.annex.promised }

/-- The task is resumed. -/
def takePromise (w : World (Annexed σ) κ) (r : FutureId) : Option Nat × World (Annexed σ) κ :=
  (w.annex.promised.lookup r,
    w.withAnnex { w.annex with promised := w.annex.promised.eraseP (·.1 == r) })

end World

def Annex.sources : Sources (Annexed σ) κ Nat Unit where
  make := modifyGet fun w => (w.annex.settled.size,
    w.withAnnex { w.annex with settled := w.annex.settled.push false })
  settle next _ := modifyGet fun w => (w.annex.settled[next]? == some false,
    w.withAnnex { w.annex with settled := w.annex.settled.setIfInBounds next true })

/-- Every await passes through a continuation. If the future is settled, that runs at once, and
whoever attaches it still has the future in hand. -/
def Awaits.detour : Awaits (Annexed σ) κ where
  await drive f m r := do
    let _ ← Annex.sources.continueWith f
      (fun next w => ((w.suspend f m r).record (.waits r f)).promise r next) fun _ o =>
        World.holding [.future f] (drive { m with resumption := some o } r)
  resume drive m r := do
    let next ← modifyGet (·.takePromise r)
    drive m r
    match next with
    | none => return ()
    | some next =>
      let _ ← Annex.sources.settle next ()

def Practice.detour : Practice σ (σ × Annex) κ where
  view := Prod.fst
  keep memory old := (memory, old.2)
  engine := Engine.after .detour

/-! What is held, when more is in hand. -/

namespace World

section

variable (inHand : List FutureId) (holds : List (List FutureId))

/-- One round of striking. -/
def strikeRound (marks : Marks) : Marks :=
  Marks.ofList holds.length (inHand ++
    (holds.zip marks.toList).flatMap fun (fs, marked) => if marked then fs else [])

theorem strike_eq (n : Nat) (marks : Marks) :
    strike inHand holds n marks = (strikeRound inHand holds)^[n] marks := by
  induction n generalizing marks with
  | zero => rfl
  | succ n ih =>
    rw [strike, Function.iterate_succ_apply, ← ih]
    show (if strikeRound inHand holds marks == marks then _ else _) = _
    split
    · next heq =>
      have hfix : strikeRound inHand holds marks = marks := by simpa using heq
      rw [ih, hfix, Function.iterate_fixed hfix]
    · rfl

variable {inHand holds}

theorem strikeRound_mono {inHand' : List FutureId} {marks marks' : Marks} (hin : inHand ⊆ inHand')
    (hm : ∀ i, marks.has i = true → marks'.has i = true) (i : Nat)
    (h : (strikeRound inHand holds marks).has i = true) :
    (strikeRound inHand' holds marks').has i = true := by
  rw [strikeRound, Marks.has_ofList, Bool.and_eq_true, contains_iff_mem] at h ⊢
  refine ⟨?_, h.2⟩
  rcases mem_append.mp h.1 with hi | hi
  · exact mem_append_left _ (hin hi)
  · obtain ⟨⟨fs, marked⟩, hmem, hi⟩ := mem_flatMap.mp hi
    cases marked with
    | false => cases hi
    | true =>
      obtain ⟨j, hj⟩ := mem_iff_getElem?.mp hmem
      obtain ⟨hfs, hmark⟩ := getElem?_zip_eq_some.mp hj
      have hmark' : marks'[j]? = some true := by
        simpa [Marks.has] using hm j (by simpa [Marks.has] using hmark)
      refine mem_append_right _ (mem_flatMap.mpr ⟨(fs, true), ?_, hi⟩)
      refine mem_iff_getElem?.mpr ⟨j, getElem?_zip_eq_some.mpr ⟨hfs, ?_⟩⟩
      rw [Array.getElem?_toList, hmark']

/-- What is held stays so when more is in hand. -/
theorem strike_mono {inHand' : List FutureId} (hin : inHand ⊆ inHand') (n : Nat) (marks : Marks)
    (i : Nat) (h : (strike inHand holds n marks).has i = true) :
    (strike inHand' holds n marks).has i = true := by
  rw [strike_eq] at h ⊢
  induction n generalizing i with
  | zero => exact h
  | succ n ih =>
    rw [Function.iterate_succ_apply'] at h ⊢
    exact strikeRound_mono hin ih i h

end

/-- What is written down, without the hands. -/
def Instant.seen {κ : Type} (i : Instant κ) : Happening × Array (FutureCell κ) :=
  (i.happening, i.futures)

/-- The world with an annex, other hands and another history. -/
def beside (w : World (Desk σ) κ) (annex : Annex) (hands : List (Holding κ))
    (history : List (Instant κ)) : World (Annexed σ) κ :=
  { w.withExt (w.ext.map (·, annex)) with hands, history }

/-- The second world has an annex and more in hand, and is otherwise the same. At least `k` methods
have been found given up. -/
inductive Fuller (k : Nat) (w : World (Desk σ) κ) : World (Annexed σ) κ → Prop where
  | intro (annex : Annex) (hands : List (Holding κ)) (history : List (Instant κ))
      (hk : k ≤ w.forsaken) (hh : w.hands.Sublist hands)
      (hs : history.map Instant.seen = w.history.map Instant.seen) :
    Fuller k w (w.beside annex hands history)

/-- Both do the same, without a look at hands, history and annex, and leave them alone. -/
structure Apart (g : World (Desk σ) κ → World (Desk σ) κ)
    (g' : World (Annexed σ) κ → World (Annexed σ) κ) : Prop where
  same : ∀ w annex hands history, g' (beside w annex hands history) =
    (g w).beside annex hands history := by intros; rfl
  hands : ∀ w, (g w).hands = w.hands := by intros; rfl
  history : ∀ w, (g w).history = w.history := by intros; rfl
  forsaken : ∀ w, w.forsaken ≤ (g w).forsaken := by intros; exact Nat.le_refl _

/-- Both give the same answer besides. -/
structure Answers (g : World (Desk σ) κ → α × World (Desk σ) κ)
    (g' : World (Annexed σ) κ → α × World (Annexed σ) κ) : Prop where
  same : ∀ w annex hands history, g' (beside w annex hands history) =
    ((g w).1, (g w).2.beside annex hands history) := by intros; rfl
  leaves : ∀ w, (g w).2.hands = w.hands ∧ (g w).2.history = w.history ∧
    (g w).2.forsaken = w.forsaken := by intros; exact ⟨rfl, rfl, rfl⟩

theorem Answers.of_forall {g : World (Desk σ) κ → α × World (Desk σ) κ}
    {g' : World (Annexed σ) κ → α × World (Annexed σ) κ}
    (h : ∀ w annex hands history, g' (beside w annex hands history) =
      ((g w).1, (g w).2.beside annex hands history) ∧ (g w).2.hands = w.hands ∧
      (g w).2.history = w.history ∧ (g w).2.forsaken = w.forsaken) : Answers g g' :=
  ⟨fun w annex hands history => (h w annex hands history).1, fun w => (h w {} [] []).2⟩

namespace Fuller

variable {k : Nat} {w v : World (Desk σ) κ} {w' v' : World (Annexed σ) κ}

theorem start (w : World (Desk σ) κ) (annex : Annex) :
    w.Fuller w.forsaken (w.beside annex w.hands w.history) :=
  ⟨annex, w.hands, w.history, Nat.le_refl _, List.Sublist.refl _, rfl⟩

theorem hands (h : w.Fuller k w') : w.hands.Sublist w'.hands := by
  obtain ⟨_, _, _, -, hh, -⟩ := h
  exact hh

theorem grasp (h : w.Fuller k w') (held : List (Holding κ)) :
    (w.grasp held).Fuller k (w'.grasp held) := by
  obtain ⟨annex, hands, history, hk, hh, hs⟩ := h
  exact ⟨annex, held ++ hands, history, hk, hh.append_left held, hs⟩

theorem letGo (h : v.Fuller k v') {before before' : List (Holding κ)}
    (hb : before.Sublist before') : (v.letGo before).Fuller k (v'.letGo before') := by
  obtain ⟨annex, hands, history, hk, -, hs⟩ := h
  exact ⟨annex, before', history, hk, hb, hs⟩

section

variable (h : w.Fuller k w')
include h

theorem record (x : Happening) : (w.record x).Fuller k (w'.record x) := by
  obtain ⟨annex, hands, history, hk, hh, hs⟩ := h
  exact ⟨annex, hands, _, hk, hh, congrArg (_ :: ·) hs⟩

theorem change (g : World (Desk σ) κ → World (Desk σ) κ)
    (g' : World (Annexed σ) κ → World (Annexed σ) κ) (hg : Apart g g') :
    (g w).Fuller k (g' w') := by
  obtain ⟨annex, hands, history, hk, hh, hs⟩ := h
  rw [hg.same w annex hands history]
  exact ⟨annex, hands, history, hk.trans (hg.forsaken w), (hg.hands w).symm ▸ hh,
    (hg.history w).symm ▸ hs⟩

theorem withAnnex (annex : Annex) : w.Fuller k (w'.withAnnex annex) := by
  obtain ⟨_, hands, history, hk, hh, hs⟩ := h
  exact ⟨annex, hands, history, hk, hh, hs⟩

/-- A method that is given up although more is in hand is given up. -/
theorem isLost {host : Host (Desk σ) κ} {host' : Host (Annexed σ) κ}
    (hkeeps : ∀ desk annex, host'.keeps (Desk.map (·, annex) desk) = host.keeps desk)
    {home : StorageId} (hl : w'.isLost host' home = true) : w.isLost host home = true := by
  obtain ⟨annex, hands, history, -, hh, -⟩ := h
  have hin : w.inHand host ⊆
      (hands ++ host'.keeps (w.ext.map (·, annex))).flatMap w.ofHolding := by
    intro f hf
    rw [inHand, ← hkeeps w.ext annex] at hf
    obtain ⟨x, hx, hf⟩ := mem_flatMap.mp hf
    exact mem_flatMap.mpr ⟨x, (hh.append_right _).subset hx, hf⟩
  have hheld : ∀ f, (w.held host).has f = true →
      ((w.beside annex hands history).held host').has f = true :=
    fun f hf => strike_mono hin _ _ f hf
  have hsame : (w.beside annex hands history).storages = w.storages := rfl
  unfold World.isLost at hl ⊢
  rw [hsame] at hl
  split at hl
  · simp only [Bool.and_eq_true, Bool.not_eq_true', decide_eq_true_eq] at hl ⊢
    exact ⟨hl.1, Bool.eq_false_iff.mpr fun hf => Bool.eq_false_iff.mp hl.2 (hheld _ hf)⟩
  · cases hl

theorem callOver (home : StorageId) : (w.callOver home).Fuller k (w'.callOver home) := by
  obtain ⟨annex, hands, history, hk, hh, hs⟩ := h
  show Fuller k _ (if w.isAlive home then _ else _)
  unfold World.callOver
  split <;> exact ⟨annex, hands, history, hk, hh, hs⟩

end

/-- A closure starts: it finds its method given up, or nothing makes a difference. -/
theorem enter (h : w.Fuller k w') {host : Host (Desk σ) κ} {host' : Host (Annexed σ) κ}
    (hkeeps : ∀ desk annex, host'.keeps (Desk.map (·, annex) desk) = host.keeps desk)
    (home : StorageId) (held held' : List (Holding κ)) :
    k < ((((((w.grasp held).visit host home).letGo w.hands).callOver home).grasp held').retain
      home).forsaken ∨
    ((((((w.grasp held).visit host home).letGo w.hands).callOver home).grasp held').retain
        home).Fuller k
      ((((((w'.grasp held).visit host' home).letGo w'.hands).callOver home).grasp held').retain
        home) := by
  by_cases hl : (w.grasp held).isLost host home = true
  · refine .inl ?_
    have hk : k ≤ w.forsaken := by
      obtain ⟨-, -, -, hk, -, -⟩ := h
      exact hk
    have hvisit : ((w.grasp held).visit host home).forsaken = w.forsaken + 1 := by
      rw [visit, if_pos hl]
      rfl
    have hcall : ∀ v : World (Desk σ) κ, (v.callOver home).forsaken = v.forsaken := by
      intro v
      unfold World.callOver
      split <;> rfl
    show k < ((((w.grasp held).visit host home).letGo w.hands).callOver home).forsaken
    rw [hcall]
    exact hvisit ▸ Nat.lt_succ_of_le hk
  · have hl' : ¬(w'.grasp held).isLost host' home = true := fun hl' =>
      hl ((h.grasp held).isLost hkeeps hl')
    refine .inr ?_
    rw [visit, visit, if_neg hl, if_neg hl']
    exact (((h.grasp held).letGo h.hands).callOver home |>.grasp held').change
      (·.retain home) (·.retain home) {}

end Fuller

end World

/-! Code, machines and enumerators. -/

/-- Both do the same, though the second has more in hand, unless a closure finds its method given
up. -/
abbrev Alongside {ε : Type} (k : Nat) (x : EStateM ε (World (Desk σ) κ) α)
    (y : EStateM ε (World (Annexed σ) κ) α) : Prop :=
  Accord (fun w => k < w.forsaken) (World.Fuller k) x y

/-- Hosts that do the same. -/
structure Host.Alongside (k : Nat) (host : Host (Desk σ) κ) (host' : Host (Annexed σ) κ) :
    Prop where
  keeps : ∀ desk annex, host'.keeps (Desk.map (·, annex) desk) = host.keeps desk
  call : ∀ name args, Resumable.Alongside k (host.call name args) (host'.call name args)
  callback : ∀ key o, Resumable.Alongside k (host.callback key o) (host'.callback key o)

/-- Take something from the world, and use it if it is there. -/
def taking (t : World σ κ → Option (α × World σ κ)) (z : Run σ κ β) (x : α → Run σ κ β) :
    Run σ κ β := fun w =>
  match t w with
  | none => z w
  | some (a, v) => x a v

/-- Do something to the world at once, with an answer. -/
def act (g : World σ κ → α × World σ κ) : Run σ κ α := fun w =>
  .ok (g w).1 (g w).2

namespace Alongside

variable {k : Nat}

theorem holding {x : Run (Desk σ) κ α} {y : Run (Annexed σ) κ α} (h : Alongside k x y)
    (held : List (Holding κ)) : Alongside k (World.holding held x) (World.holding held y) := by
  rw [World.holding_eq, World.holding_eq]
  exact h.within (fun _ hs => hs) (fun _ _ hw => hw.grasp held) (fun _ _ hs => hs)
    fun _ _ _ _ hw hv => hv.letGo hw.hands

/-- Something is taken without a look at hands, history and annex. -/
theorem taking {x : α → Run (Desk σ) κ β} {y : α → Run (Annexed σ) κ β} {z : Run (Desk σ) κ β}
    {z' : Run (Annexed σ) κ β} {t : World (Desk σ) κ → Option (α × World (Desk σ) κ)}
    {t' : World (Annexed σ) κ → Option (α × World (Annexed σ) κ)}
    (ht : ∀ w annex hands history, t' (w.beside annex hands history) =
      (t w).map fun (a, v) => (a, v.beside annex hands history))
    (hleaves : ∀ w, ∀ p ∈ t w, p.2.hands = w.hands ∧ p.2.history = w.history ∧
      p.2.forsaken = w.forsaken)
    (hz : Alongside k z z') (hx : ∀ a, Alongside k (x a) (y a)) :
    Alongside k (taking t z x) (Resumable.taking t' z' y) := by
  unfold Resumable.taking
  refine ⟨fun w hs => ?_, ?_⟩
  · cases hw : t w with
    | none => exact hz.astray w hs
    | some p => exact (hx p.1).astray p.2 ((hleaves w p hw).2.2 ▸ hs)
  · rintro w _ ⟨annex, hands, history, hk, hh, hseen⟩
    simp only [ht w annex hands history]
    cases hw : t w with
    | none => exact hz.agree w _ ⟨annex, hands, history, hk, hh, hseen⟩
    | some p =>
      obtain ⟨hhands, hhistory, hforsaken⟩ := hleaves w p hw
      exact (hx p.1).agree p.2 _
        ⟨annex, hands, history, hforsaken ▸ hk, hhands ▸ hh, hhistory ▸ hseen⟩

theorem act (g : World (Desk σ) κ → α × World (Desk σ) κ)
    (g' : World (Annexed σ) κ → α × World (Annexed σ) κ) (hg : World.Answers g g') :
    Alongside k (act g) (Resumable.act g') := by
  show Alongside k (Resumable.taking (fun w => some (g w)) (throw ⟨⟩) pure)
    (Resumable.taking (fun w => some (g' w)) (throw ⟨⟩) pure)
  refine taking (fun w annex hands history => congrArg some (hg.same w annex hands history))
    (fun w p hp => ?_) (.throw _) .pure
  exact Option.some.inj hp ▸ hg.leaves w

theorem change (g : World (Desk σ) κ → World (Desk σ) κ)
    (g' : World (Annexed σ) κ → World (Annexed σ) κ) (hg : World.Apart g g') :
    Alongside k (modify g : Run (Desk σ) κ Unit) (modify g') :=
  .modify g g' (fun w hs => hs.trans_le (hg.forsaken w)) fun _ _ hw => hw.change g g' hg

theorem record (x : Happening) :
    Alongside k (modify (·.record x) : Run (Desk σ) κ Unit) (modify (·.record x)) :=
  .modify _ _ (fun _ hs => hs) fun _ _ hw => hw.record x

theorem defect : Alongside k (modify (·.defect) : Run (Desk σ) κ Unit) (modify (·.defect)) :=
  .change _ _ {}

theorem release (home : StorageId) :
    Alongside k (modify (·.release home) : Run (Desk σ) κ Unit) (modify (·.release home)) :=
  .change _ _ {}

end Alongside

variable {k : Nat} {host : Host (Desk σ) κ} {host' : Host (Annexed σ) κ}

theorem Host.Alongside.bond (h : host.Alongside k host') :
    World.Bond (fun w => k < w.forsaken) host host' (World.Fuller k) where
  load := by
    rintro w _ ⟨⟩ home k
    rfl
  status := by
    rintro w _ ⟨⟩
    rfl
  closures := by
    rintro w _ ⟨⟩
    rfl
  defect hw := hw.change (·.defect) (·.defect) {}
  note hw x := hw.change (·.note x) (·.note x) {}
  store hw home k v := hw.change (·.store home k v) (·.store home k v) {}
  closure hw k := hw.change ({ · with closures := k })
    ({ · with closures := k }) {}
  tokens := by
    rintro w _ ⟨⟩
    rfl
  grasp hw held := hw.grasp held
  letGo hw hv := hv.letGo hw.hands
  release hw home := hw.change (·.release home) (·.release home) {}
  call := h.call
  start hw home held held' := hw.enter h.keeps home held held'
  astray hs hle := hs.trans_le hle

namespace Enumerator

theorem alongside_advance (h : host.Alongside k host') (n : Nat) (e : Enumerator) :
    Alongside k (e.advance host n) (e.advance host' n) := by
  obtain ⟨machine, current⟩ := e
  cases machine with
  | none => exact .pure _
  | some m =>
    rw [advance_eq, advance_eq]
    refine (h.bond.holding (Machine.accord_runs h.bond n m) _).bind fun halt => ?_
    cases halt with
    | yielded v m => exact .pure _
    | completed v _ => exact (Alongside.release m.home).bind fun _ => .pure _
    | awaiting f _ =>
      exact (Alongside.release m.home).bind fun _ => Alongside.defect.bind fun _ => .pure _
    | fault f _ => exact (Alongside.release m.home).bind fun _ => .pure _
    | timeout => exact .throw _

theorem alongside_dispose (h : host.Alongside k host') (n : Nat) (e : Enumerator) :
    Alongside k (e.dispose host n) (e.dispose host' n) := by
  obtain ⟨machine, current⟩ := e
  cases machine with
  | none => exact .pure _
  | some m =>
    exact (Machine.accord_unwind h.bond n m).bind fun _ =>
      (Alongside.release m.home).bind fun _ => .pure _

end Enumerator

end Resumable

import Resumable.Proofs.Delivery
import Mathlib.Logic.Hydra
import Mathlib.Tactic.Abel

namespace Resumable

open List

namespace Delivery

open Relation
open Resumable.Task (Ends)

/-! What is left to run. -/

/-- A client that runs, or a callback that waits. -/
inductive Thread where
  | client (c : Client)
  | callback (callback : Outcome → Client)

/-- What comes of a thread in one step. -/
inductive Follows : Thread → Thread → Prop where
  | source (k f) : Follows (.client (k f)) (.client (.source k))
  | ready (o k f) : Follows (.client (k f)) (.client (.ready o k))
  | look (f k o) : Follows (.client (k o)) (.client (.look f k))
  | attach (f callback k a) : Follows (.client (k a)) (.client (.attach f callback k))
  | attached (f callback k) : Follows (.callback callback) (.client (.attach f callback k))
  | settle (f o k fresh) : Follows (.client (k fresh)) (.client (.settle f o k))
  | run (callback o) : Follows (.client (callback o)) (.callback callback)

theorem acc_callback {callback : Outcome → Client} (h : ∀ o, Acc Follows (.client (callback o))) :
    Acc Follows (.callback callback) := by
  constructor
  intro t ht
  cases ht with
  | run callback o => exact h o

theorem acc_client (c : Client) : Acc Follows (.client c) := by
  induction c with
  | done o => exact ⟨_, fun t ht => nomatch ht⟩
  | source k ih => exact ⟨_, fun t ht => by cases ht; exact ih _⟩
  | ready o k ih => exact ⟨_, fun t ht => by cases ht; exact ih _⟩
  | look f k ih => exact ⟨_, fun t ht => by cases ht; exact ih _⟩
  | settle f o k ih => exact ⟨_, fun t ht => by cases ht; exact ih _⟩
  | attach f callback k ihc ihk =>
    constructor
    intro t ht
    cases ht with
    | attach => exact ihk _
    | attached => exact acc_callback ihc

theorem wellFounded_follows : WellFounded Follows := by
  constructor
  intro t
  cases t with
  | client c => exact acc_client c
  | callback callback => exact acc_callback fun o => acc_client (callback o)

abbrev Load := Multiset Thread

/-- In one or more steps, threads have been replaced by those that follow them. -/
def Lighter : Load → Load → Prop :=
  TransGen (CutExpand Follows)

theorem wellFounded_lighter : WellFounded Lighter :=
  wellFounded_follows.cutExpand.transGen

/-- The same, or lighter. -/
def Within : Load → Load → Prop :=
  ReflTransGen (CutExpand Follows)

section

variable {a b c : Load}

theorem Lighter.add_left (h : Lighter a b) (c : Load) : Lighter (c + a) (c + b) :=
  TransGen.lift (c + ·) (fun _ _ hs => (cutExpand_add_left c).mpr hs) _ _ h

theorem Within.add_left (h : Within a b) (c : Load) : Within (c + a) (c + b) :=
  ReflTransGen.lift (c + ·) (fun _ _ hs => (cutExpand_add_left c).mpr hs) _ _ h

theorem Lighter.within (h : Lighter a b) : Within a b :=
  TransGen.to_reflTransGen h

theorem Within.trans_lighter (h : Within a b) (h' : Lighter b c) : Lighter a c :=
  TransGen.trans_right h h'

theorem Lighter.trans_within (h : Lighter a b) (h' : Within b c) : Lighter a c :=
  TransGen.trans_left h h'

theorem within_add (a b : Load) : Within b (a + b) := by
  induction a using Multiset.induction with
  | empty =>
    rw [zero_add]
    exact .refl
  | cons t a ih =>
    refine ih.tail ?_
    rw [Multiset.cons_add]
    exact ⟨0, t, nofun, by rw [add_zero, ← Multiset.singleton_add, add_comm]⟩

theorem lighter_cons (t : Thread) (a : Load) : Lighter a ({t} + a) :=
  .single ⟨0, t, nofun, by rw [add_zero, add_comm]⟩

theorem lighter_of_follows {s t : Thread} (h : Follows s t) (a : Load) :
    Lighter ({s} + a) ({t} + a) :=
  .single (cutExpand_single_add h a)

/-- A client attaches a callback and goes on. -/
theorem lighter_attach (f : FutureId) (callback : Outcome → Client) (k : FutureId → Client)
    (next : FutureId) (a : Load) :
    Lighter ({.client (k next)} + ({.callback callback} + a))
      ({.client (.attach f callback k)} + a) := by
  refine .single ⟨{.client (k next), .callback callback}, .client (.attach f callback k), ?_, ?_⟩
  · intro t ht
    rcases Multiset.mem_cons.mp ht with rfl | ht
    · exact .attach ..
    · cases Multiset.mem_singleton.mp ht
      exact .attached ..
  · rw [Multiset.insert_eq_cons, ← Multiset.singleton_add]
    abel

end

/-- The callbacks among continuations. -/
def threads : List (Continuation Key) → Load
  | [] => 0
  | .callback (callback, _) _ :: ks => {.callback callback} + threads ks
  | .resume .. :: ks => threads ks

/-- Nothing but callbacks waits. -/
def OnlyCallbacks (ks : List (Continuation Key)) : Prop :=
  ∀ k ∈ ks, ∃ callback a next, k = .callback (callback, a) next

def load (w : World Log Key) : Load :=
  (w.futures.toList.map (threads ·.waiting)).sum

def Calm (w : World Log Key) : Prop :=
  ∀ cell ∈ w.futures.toList, OnlyCallbacks cell.waiting

theorem threads_append (ks ks' : List (Continuation Key)) :
    threads (ks ++ ks') = threads ks + threads ks' := by
  induction ks with
  | nil => simp [threads]
  | cons k ks ih => cases k <;> simp [threads, ih]

theorem load_addFuture (o : Option Outcome) (w : World Log Key) :
    load (w.addFuture o).2 = load w := by
  simp [load, World.addFuture, threads]

theorem Calm.addFuture {w : World Log Key} (h : Calm w) (o : Option Outcome) :
    Calm (w.addFuture o).2 := by
  intro cell hc
  simp only [World.addFuture, Array.toList_push, mem_append, mem_singleton] at hc
  rcases hc with hc | rfl
  · exact h cell hc
  · exact nofun

section

variable {w : World Log Key} {f : FutureId} {cell : FutureCell Key}

theorem load_modify (hf : w.futures[f]? = some cell) (g : FutureCell Key → FutureCell Key) :
    threads cell.waiting + load { w with futures := w.futures.modify f g } =
      threads (g cell).waiting + load w := by
  obtain ⟨before, after, he, hm⟩ := exists_of_modify hf g
  simp only [load, hm, he, map_append, map_cons, sum_append, sum_cons]
  abel

theorem Calm.modify (h : Calm w) (hf : w.futures[f]? = some cell)
    {g : FutureCell Key → FutureCell Key} (hg : OnlyCallbacks (g cell).waiting) :
    Calm { w with futures := w.futures.modify f g } := by
  obtain ⟨before, after, he, hm⟩ := exists_of_modify hf g
  intro c hc
  rw [hm, mem_append, mem_cons] at hc
  rcases hc with hc | rfl | hc
  · exact h c (by simp [he, hc])
  · exact hg
  · exact h c (by simp [he, hc])

theorem Calm.waiting (h : Calm w) (hf : w.futures[f]? = some cell) :
    OnlyCallbacks cell.waiting := by
  rw [← Array.getElem?_toList] at hf
  exact h cell (mem_of_getElem? hf)

theorem load_await (hf : w.futures[f]? = some cell) (callback : Outcome → Client)
    (a next : FutureId) :
    load (w.await f (.callback (callback, a) next)) = {.callback callback} + load w := by
  have hl := load_modify hf fun c =>
    { c with waiting := c.waiting ++ [.callback (callback, a) next] }
  rw [threads_append, add_assoc] at hl
  exact (add_left_cancel hl).trans (by simp [threads])

theorem Calm.await (h : Calm w) (hf : w.futures[f]? = some cell) (callback : Outcome → Client)
    (a next : FutureId) : Calm (w.await f (.callback (callback, a) next)) := by
  refine h.modify hf fun k hk => ?_
  rcases mem_append.mp hk with hk | hk
  · exact h.waiting hf k hk
  · exact ⟨callback, a, next, mem_singleton.mp hk⟩

theorem load_settle? {w' : World Log Key} {o : Outcome} {ks : List (Continuation Key)}
    (h : w.settle? f o = some (ks, w')) : threads ks + load w' = load w := by
  obtain ⟨cell, hf, -, rfl, rfl⟩ := World.settle?_some h
  rw [load_modify hf, threads, zero_add]

theorem Calm.settle? {w' : World Log Key} (h : Calm w) {o : Outcome}
    {ks : List (Continuation Key)} (hs : w.settle? f o = some (ks, w')) :
    OnlyCallbacks ks ∧ Calm w' := by
  obtain ⟨cell, hf, -, rfl, rfl⟩ := World.settle?_some hs
  exact ⟨h.waiting hf, h.modify hf nofun⟩

end

/-- Clients end that weigh as much. -/
def ClientsEnd (a : Load) : Prop :=
  ∀ c w, Calm w → {.client c} + load w = a →
    ∃ answer w', Ends (fun m n => c.run (host m) n) w answer w' ∧ Calm w' ∧ Lighter (load w') a

/-- Callbacks end that weigh as much. -/
def DeliveriesEnd (a : Load) : Prop :=
  ∀ f ks o w, OnlyCallbacks ks → Calm w → threads ks + load w = a →
    ∃ w', Ends (fun m n => Task.deliver (host m) n f o ks) w () w' ∧ Calm w' ∧ Within (load w') a

theorem settle_ends {w : World Log Key} (h : Calm w) (hd : DeliveriesEnd (load w)) (f : FutureId)
    (o : Outcome) : ∃ fresh w', Ends (fun m n => Task.settle (host m) n f o) w fresh w' ∧
      Calm w' ∧ Within (load w') (load w) := by
  cases hs : w.settle? f o with
  | none =>
    exact ⟨false, w, (Ends.pure false w).succ fun m n => Task.settle_refused hs, h, .refl⟩
  | some p =>
    obtain ⟨ks, w₁⟩ := p
    obtain ⟨hks, hw₁⟩ := h.settle? hs
    obtain ⟨w', he, hw', hl⟩ := hd f ks o w₁ hks hw₁ (load_settle? hs)
    exact ⟨true, w', (he.andThen (.pure true w')).succ fun m n => Task.settle_pending hs, hw', hl⟩

theorem callback_ends {callback : Outcome → Client} {o : Outcome} {w : World Log Key} (h : Calm w)
    (hc : ClientsEnd ({.client (callback o)} + load w)) (a : FutureId) :
    ∃ answer w', Ends (fun m _ => (host m).callback (callback, a) o) w answer w' ∧ Calm w' ∧
      Lighter (load w') ({.client (callback o)} + load w) := by
  obtain ⟨answer, w₁, ⟨l, hl⟩, hw₁, hlight⟩ := hc (callback o) (note (.runs a o) w) h rfl
  refine ⟨answer, note (.answers a answer) w₁, ⟨l + 1, fun m n hm hn => ?_⟩, hw₁, hlight⟩
  obtain ⟨m, rfl⟩ : ∃ k, m = k + 1 := ⟨m - 1, by omega⟩
  show (((callback o).run (host m) m).bind _) (note (.runs a o) w) = _
  simp only [EStateM.bind, hl m m (by omega) (by omega)]
  rfl

theorem answer_ends {α : Type} {callback : Outcome → Client} {o : Outcome} {w : World Log Key}
    (h : Calm w) (hc : ClientsEnd ({.client (callback o)} + load w))
    (hd : ∀ a, Lighter a ({.client (callback o)} + load w) → DeliveriesEnd a)
    (held : List (Holding Key)) (a next : FutureId) (result : α) : ∃ w',
      Ends (fun m n => World.holding held ((host m).callback (callback, a) o) >>= fun answer =>
        Task.settle (host m) n next answer >>= fun _ => pure result) w result w' ∧ Calm w' ∧
      Lighter (load w') ({.client (callback o)} + load w) := by
  obtain ⟨answer, w₁, he₁, hw₁, hl₁⟩ := callback_ends (w := w.grasp held) h hc a
  obtain ⟨fresh, w₂, he₂, hw₂, hl₂⟩ :=
    settle_ends (w := w₁.letGo w.hands) hw₁ (hd _ hl₁) next answer
  refine ⟨w₂, ?_, hw₂, hl₂.trans_lighter hl₁⟩
  exact he₁.holding.bind
    (y := fun m n answer => Task.settle (host m) n next answer >>= fun _ => pure result)
    (he₂.andThen (.pure result w₂))

theorem deliveriesEnd {b : Load} (hc : ∀ a, Lighter a b → ClientsEnd a)
    (hd : ∀ a, Lighter a b → DeliveriesEnd a) : DeliveriesEnd b := by
  rintro f ks o w hks hw rfl
  cases ks with
  | nil =>
    refine ⟨w, (Ends.pure () w).succ fun m n => ?_, hw, within_add 0 _⟩
    rw [Task.deliver]
  | cons k ks =>
    obtain ⟨callback, a, next, rfl⟩ := hks k mem_cons_self
    have hfirst : Lighter ({.client (callback o)} + (threads ks + load w))
        ({.callback callback} + (threads ks + load w)) := lighter_of_follows (.run callback o) _
    rw [threads, add_assoc] at *
    have hrun : Lighter ({.client (callback o)} + load w)
        ({.callback callback} + (threads ks + load w)) :=
      ((within_add (threads ks) _).add_left _).trans_lighter hfirst
    obtain ⟨w₁, he₁, hw₁, hl₁⟩ := answer_ends
      (w := w.grasp [.outcome o, .waiting f ks]) hw (hc _ hrun) (fun a ha => hd a (ha.trans hrun))
      [.future next] a next ()
    have hrest : Lighter (threads ks + load w₁) ({.callback callback} + (threads ks + load w)) := by
      refine (hl₁.add_left (threads ks)).trans_within ?_
      rw [← add_assoc, add_comm (threads ks), add_assoc]
      exact hfirst.within
    obtain ⟨w₂, he₂, hw₂, hl₂⟩ := hd _ hrest f ks o (w₁.letGo w.hands)
      (fun k hk => hks k (mem_cons_of_mem _ hk)) hw₁ rfl
    refine ⟨w₂, (he₁.holding.andThen he₂).succ fun m n => ?_, hw₂, hl₂.trans hrest.within⟩
    rw [Task.deliver]

theorem attach_ends {f : FutureId} {callback : Outcome → Client} {k : FutureId → Client}
    {w : World Log Key} (h : Calm w) (hf : f < w.futures.size)
    (hc : ∀ a, Lighter a ({.client (.attach f callback k)} + load w) → ClientsEnd a)
    (hd : ∀ a, Lighter a ({.client (.attach f callback k)} + load w) → DeliveriesEnd a)
    (a : FutureId) : ∃ next w',
      Ends (fun m n => Task.continueWith (host m) n f (callback, a)) w next w' ∧ Calm w' ∧
      Lighter ({.client (k next)} + load w') ({.client (.attach f callback k)} + load w) := by
  obtain ⟨cell, hcell⟩ : ∃ cell, (w.addFuture none).2.futures[f]? = some cell :=
    ⟨_, Array.getElem?_eq_getElem (Nat.lt_of_lt_of_le hf (by simp [World.addFuture]))⟩
  cases ho : (w.addFuture none).2.outcome? f with
  | none =>
    refine ⟨w.futures.size, _, (Ends.pure _ _).congr fun m n => Task.continueWith_pending ho,
      (h.addFuture none).await hcell callback a w.futures.size, ?_⟩
    rw [load_await hcell, load_addFuture]
    exact lighter_attach f callback k _ (load w)
  | some o =>
    have hboth : Lighter ({.client (k w.futures.size)} + ({.client (callback o)} + load w))
        ({.client (.attach f callback k)} + load w) :=
      ((lighter_of_follows (.run callback o) (load w)).add_left _).trans
        (lighter_attach f callback k _ (load w))
    have hrun : Lighter ({.client (callback o)} + load w)
        ({.client (.attach f callback k)} + load w) :=
      (within_add _ _).trans_lighter hboth
    have hload := load_addFuture none w
    obtain ⟨w', he, hw', hl⟩ := answer_ends (w := (w.addFuture none).2) (o := o)
      (h.addFuture none) (hload ▸ hc _ hrun) (fun a ha => hd a ((hload ▸ ha).trans hrun))
      [.future w.futures.size, .outcome o] a w.futures.size w.futures.size
    rw [hload] at hl
    exact ⟨w.futures.size, w', he.congr fun m n => Task.continueWith_settled ho, hw',
      (hl.add_left _).trans hboth⟩

theorem clientsEnd {b : Load} (hc : ∀ a, Lighter a b → ClientsEnd a)
    (hd : ∀ a, Lighter a b → DeliveriesEnd a) : ClientsEnd b := by
  rintro c w hw rfl
  cases c with
  | done o => exact ⟨o, w, .pure o w, hw, lighter_cons _ _⟩
  | source k =>
    have hl := lighter_of_follows (.source k w.futures.size) (load w)
    obtain ⟨answer, w', he, hw', hl'⟩ := hc _ hl (k w.futures.size)
      ((note (.made w.futures.size none) w).addFuture none).2 (Calm.addFuture hw none)
      (by rw [load_addFuture]; rfl)
    exact ⟨answer, w', he, hw', hl'.trans hl⟩
  | ready o k =>
    have hl := lighter_of_follows (.ready o k w.futures.size) (load w)
    obtain ⟨answer, w', he, hw', hl'⟩ := hc _ hl (k w.futures.size)
      ((note (.made w.futures.size (some o)) w).addFuture (some o)).2 (Calm.addFuture hw (some o))
      (by rw [load_addFuture]; rfl)
    exact ⟨answer, w', he, hw', hl'.trans hl⟩
  | look f k =>
    have hl := lighter_of_follows (.look f k (w.outcome? f)) (load w)
    obtain ⟨answer, w', he, hw', hl'⟩ := hc _ hl _ w hw rfl
    exact ⟨answer, w', he, hw', hl'.trans hl⟩
  | attach f callback k =>
    by_cases hf : f < w.futures.size
    · obtain ⟨a, w₁, he₁, hw₁, hl₁⟩ := attach_ends (k := k)
        (w := note (.attaches f w.futures.size) w) hw hf hc hd w.futures.size
      obtain ⟨answer, w', he, hw', hl'⟩ := hc _ hl₁ (k a) (note (.attached a) w₁) hw₁ rfl
      refine ⟨answer, w', ?_, hw', hl'.trans hl₁⟩
      have hrun := he₁.bind
        (y := fun m n a => modify (note (.attached a)) >>= fun _ => (k a).run (host m) n)
        ((Ends.modify (note (.attached a)) w₁).andThen he)
      refine hrun.congr fun m n => ?_
      rw [Client.run]
      rw [get_bind, if_pos hf]
      rfl
    · refine ⟨_, w, (Ends.pure (.error .notSettled) w).congr fun m n => ?_, hw, lighter_cons _ _⟩
      rw [Client.run]
      rw [get_bind, if_neg hf]
  | settle f o k =>
    by_cases hf : birth w.ext f = some .source
    · obtain ⟨fresh, w₁, he₁, hw₁, hl₁⟩ :=
        settle_ends (w := note (.settles f o) w) hw (hd _ (lighter_cons _ _)) f o
      have hl : Lighter ({.client (k fresh)} + load w₁) ({.client (.settle f o k)} + load w) :=
        (hl₁.add_left _).trans_lighter (lighter_of_follows (.settle f o k fresh) (load w))
      obtain ⟨answer, w', he, hw', hl'⟩ := hc _ hl (k fresh) (note (.settled f fresh) w₁) hw₁ rfl
      refine ⟨answer, w', ?_, hw', hl'.trans hl⟩
      have hrun := he₁.bind
        (y := fun m n fresh => modify (note (.settled f fresh)) >>= fun _ =>
          (k fresh).run (host m) n)
        ((Ends.modify (note (.settled f fresh)) w₁).andThen he)
      refine hrun.congr fun m n => ?_
      rw [Client.run]
      rw [get_bind, if_pos hf]
      rfl
    · refine ⟨_, w, (Ends.pure (.error .notSettled) w).congr fun m n => ?_, hw, lighter_cons _ _⟩
      rw [Client.run]
      rw [get_bind, if_neg hf]

theorem all_end (b : Load) : ClientsEnd b ∧ DeliveriesEnd b := by
  induction b using wellFounded_lighter.induction with
  | _ b ih =>
    have hc := fun a ha => (ih a ha).1
    have hd := fun a ha => (ih a ha).2
    exact ⟨clientsEnd hc hd, deliveriesEnd hc hd⟩

/-! What a client leaves behind. -/

/-- All was as it should be, at every moment and at the end. -/
structure Delivered (w : World Log Key) : Prop where
  sound : ∀ early m late, w.ext = early ++ m :: late → Sound early m
  complete : ∀ early m late, w.ext = early ++ m :: late → Complete early m late
  whole : Whole w.ext
  outcome : ∀ f, w.outcome? f = decided w.ext f
  drained : ∀ (f : Nat) cell, w.futures[f]? = some cell → cell.outcome.isSome → cell.waiting = []
  /-- A callback has run once if its future is settled, and never if it is pending. -/
  once : ∀ f, ∀ a ∈ attachedTo w.ext f,
    (started w.ext).count a = if (w.outcome? f).isSome then 1 else 0
  /-- It has answered as often. -/
  answered : ∀ f, ∀ a ∈ attachedTo w.ext f,
    (ended w.ext).count a = if (w.outcome? f).isSome then 1 else 0

theorem kept_nil : Kept #[] [] [] [] := by
  constructor <;> simp [decided, birth, attachedTo, started, ended]

theorem Kept.delivered {w : World Log Key} (h : Kept w.futures w.ext [] [])
    (hp : Passes [] w.ext) : Delivered w := by
  have hruns : ∀ f, ∀ a ∈ attachedTo w.ext f, a ∈ started w.ext ↔ (w.outcome? f).isSome := by
    intro f a ha
    have := h.runs f a ha
    rw [append_nil, ← h.outcome f] at this
    exact this
  have hcount : ∀ f, ∀ a ∈ attachedTo w.ext f,
      (started w.ext).count a = if (w.outcome? f).isSome then 1 else 0 := by
    intro f a ha
    have honce := h.once
    rw [append_nil] at honce
    rw [honce.count]
    exact if_congr (hruns f a ha) rfl rfl
  have hends := h.answers
  rw [append_nil] at hends
  refine ⟨h.sound, ?_, hp.whole, h.outcome, fun f cell => h.drained, hcount, ?_⟩
  · intro early m late he
    simpa using hp.complete early m late he
  · intro f a ha
    rw [hends.count_eq]
    exact hcount f a ha

/-- Whatever a client does, with steps enough it comes to an end, and always the same one, where
every callback has been delivered. -/
theorem callbacks_delivered (c : Client) : ∃ answer w,
    (∃ least, ∀ n, least ≤ n → c.perform n = .ok answer w) ∧ Delivered w := by
  obtain ⟨answer, w, ⟨least, hrun⟩, -, -⟩ := (all_end _).1 c { ext := [] } nofun rfl
  refine ⟨answer, w, ⟨least, fun n hn => hrun n n hn hn⟩, ?_⟩
  obtain ⟨log, hp⟩ := client_proceeds (answering_host least) c kept_nil
    (hrun least least (Nat.le_refl _) (Nat.le_refl _))
  have hext : w.ext = log := hp.ext
  exact hp.kept.delivered (hext ▸ hp.passes)

end Delivery

end Resumable

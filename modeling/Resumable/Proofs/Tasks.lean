import Resumable.Proofs.Steps
import Resumable.Task

namespace Resumable

/-- One cell of an array changes and the others do not. -/
theorem exists_of_modify {α : Type} {xs : Array α} {i : Nat} {x : α} (h : xs[i]? = some x)
    (g : α → α) : ∃ before after, xs.toList = before ++ x :: after ∧
      (xs.modify i g).toList = before ++ g x :: after := by
  obtain ⟨hlt, hx⟩ := Array.getElem?_eq_some_iff.mp h
  obtain ⟨before, old, after, he, hl, hm⟩ :=
    List.exists_of_modify g (i := i) (l := xs.toList) (by simpa using hlt)
  obtain rfl : old = x := by
    rw [← Array.getElem?_toList, he, List.getElem?_append_right (Nat.le_of_eq hl), hl] at h
    simpa using h
  exact ⟨before, after, he, by rw [Array.toList_modify, hm]⟩

namespace World

variable {σ κ α : Type}

theorem holding_ok {held : List (Holding κ)} {x : Run σ κ α} {w w' : World σ κ} {a : α}
    (h : holding held x w = .ok a w') :
    ∃ w₁, x (w.grasp held) = .ok a w₁ ∧ w' = w₁.letGo w.hands := by
  unfold holding at h
  simp only [] at h
  split at h
  · rename_i b w₁ hx
    cases h
    exact ⟨w₁, hx, rfl⟩
  · cases h

theorem settle?_some {w w' : World σ κ} {f : FutureId} {o : Outcome} {ks : List (Continuation κ)}
    (h : w.settle? f o = some (ks, w')) : ∃ cell, w.futures[f]? = some cell ∧
      cell.outcome = none ∧ cell.waiting = ks ∧
      w' = { w with futures := w.futures.modify f fun _ => { outcome := some o } } := by
  unfold settle? at h
  split at h
  · rename_i waiting hf
    cases h
    exact ⟨_, hf, rfl, rfl, rfl⟩
  · cases h

theorem settle?_pending {w : World σ κ} {f : FutureId} {cell : FutureCell κ}
    (hf : w.futures[f]? = some cell) (hc : cell.outcome = none) (o : Outcome) :
    w.settle? f o = some (cell.waiting,
      { w with futures := w.futures.modify f fun _ => { outcome := some o } }) := by
  obtain ⟨outcome, waiting⟩ := cell
  cases hc
  unfold settle?
  rw [hf]

end World

namespace Task

variable {σ κ : Type} {host : Host σ κ} {n : Nat} {w w' : World σ κ}
variable {a f r : FutureId} {o : Outcome} {m : Machine} {key : κ} {ks : List (Continuation κ)}

theorem settle_ok {fresh : Bool} (h : settle host n f o w = .ok fresh w') :
    (w.settle? f o = none ∧ fresh = false ∧ w' = w) ∨
      ∃ k ks w₁, n = k + 1 ∧ w.settle? f o = some (ks, w₁) ∧ fresh = true ∧
        deliver host k f o ks w₁ = .ok () w' := by
  cases n with
  | zero => cases h
  | succ k =>
    rw [settle] at h
    obtain ⟨w₀, w₁, hget, h⟩ := bind_ok h
    cases hget
    cases hs : w.settle? f o with
    | none =>
      rw [hs] at h
      cases h
      exact .inl ⟨rfl, rfl, rfl⟩
    | some p =>
      obtain ⟨ks, w₁⟩ := p
      rw [hs] at h
      obtain ⟨_, w₂, hset, h⟩ := bind_ok h
      cases hset
      obtain ⟨_, w₃, hd, h⟩ := bind_ok h
      cases h
      exact .inr ⟨k, ks, w₁, rfl, rfl, rfl, hd⟩

theorem settle_refused (h : w.settle? f o = none) : settle host (n + 1) f o w = .ok false w := by
  rw [settle]
  simp only [get_bind, h]
  rfl

theorem settle_pending (h : w.settle? f o = some (ks, w')) :
    settle host (n + 1) f o w = (deliver host n f o ks >>= fun _ => pure true) w' := by
  rw [settle]
  simp only [get_bind, h]
  rfl

theorem deliver_nil (h : deliver host n f o [] w = .ok () w') : w' = w := by
  cases n with
  | zero => cases h
  | succ n =>
    rw [deliver] at h
    cases h
    rfl

theorem deliver_callback (h : deliver host n f o (.callback key a :: ks) w = .ok () w') :
    ∃ k answer fresh w₁ w₂ outer inner, n = k + 1 ∧
      host.callback key o ((w.grasp outer).grasp inner) = .ok answer w₁ ∧
      settle host k a answer (w₁.letGo (w.grasp outer).hands) = .ok fresh w₂ ∧
      deliver host k f o ks (w₂.letGo w.hands) = .ok () w' := by
  cases n with
  | zero => cases h
  | succ k =>
    rw [deliver] at h
    obtain ⟨_, w₃, hh, hd⟩ := bind_ok h
    obtain ⟨w₂, hx, rfl⟩ := World.holding_ok hh
    obtain ⟨answer, _, hh₁, hx⟩ := bind_ok hx
    obtain ⟨w₁, hc, rfl⟩ := World.holding_ok hh₁
    obtain ⟨fresh, _, hs, hx⟩ := bind_ok hx
    cases hx
    exact ⟨k, answer, fresh, w₁, w₂, _, _, rfl, hc, hs, hd⟩

theorem deliver_resume (h : deliver host n f o (.resume m r :: ks) w = .ok () w') :
    ∃ k w₁, n = k + 1 ∧
      drive host k { m with resumption := some o } r (w.grasp [.outcome o, .waiting f ks]) =
        .ok () w₁ ∧
      deliver host k f o ks (w₁.letGo w.hands) = .ok () w' := by
  cases n with
  | zero => cases h
  | succ k =>
    rw [deliver] at h
    obtain ⟨_, _, hh, hd⟩ := bind_ok h
    obtain ⟨w₁, hx, rfl⟩ := World.holding_ok hh
    exact ⟨k, w₁, rfl, hx, hd⟩

theorem finish_ok {rest : List Value} (h : finish host n m rest r o w = .ok () w') :
    ∃ k fresh w₁, n = k + 1 ∧
      settle host k r o (w.grasp [.machine m, .values rest]) = .ok fresh w₁ ∧
      w' = ((w₁.letGo w.hands).release m.home).record (.ends r fresh) := by
  cases n with
  | zero => cases h
  | succ k =>
    rw [finish] at h
    obtain ⟨fresh, _, hh, hx⟩ := bind_ok h
    obtain ⟨w₁, hs, rfl⟩ := World.holding_ok hh
    cases hx
    exact ⟨k, fresh, w₁, rfl, hs, rfl⟩

/-- The world in which it has been written down that a task runs. -/
def noteRun (r : FutureId) (m : Machine) (w : World σ κ) : World σ κ :=
  { w with history := ⟨.runs r m.resumption, w.futures, .future r :: w.hands⟩ :: w.history }

/-- What a task does when its machine has stopped. -/
def proceed (host : Host σ κ) (n : Nat) (r : FutureId) (halt : Halt) (w : World σ κ) :
    EStateM.Result Timeout (World σ κ) Unit :=
  match halt with
  | .awaiting f m =>
    match w.outcome? f with
    | some o => drive host n { m with resumption := some o } r w
    | none => .ok () ((w.suspend f m r).record (.waits r f))
  | .completed v m => finish host n m [] r (.ok v) w
  | .fault f m => finish host n m [] r (.error f) w
  | .yielded v m =>
    finish host n m [v] r (.error (.internal "async chain yielded a value")) w.defect
  | .timeout => .error ⟨⟩ w

theorem proceed_settled (ho : w.outcome? f = some o) :
    proceed host n r (.awaiting f m) w = drive host n { m with resumption := some o } r w := by
  simp only [proceed, ho]

theorem proceed_pending (ho : w.outcome? f = none) :
    proceed host n r (.awaiting f m) w = .ok () ((w.suspend f m r).record (.waits r f)) := by
  simp only [proceed, ho]

theorem drive_succ {halt : Halt}
    (h : m.run host n ((noteRun r m w).grasp [.future r]) = (halt, w')) :
    drive host (n + 1) m r w = proceed host n r halt (w'.letGo w.hands) := by
  have hrun : m.run host n ((w.grasp [.future r]).record (.runs r m.resumption)) = (halt, w') := h
  rw [drive]
  simp only [hrun]
  cases halt <;> rfl

theorem continueWith_eq (f : FutureId) (key : κ) :
    continueWith host n f key w =
      (match (w.addFuture none).2.outcome? f with
        | none => set ((w.addFuture none).2.await f (.callback key w.futures.size)) >>= fun _ =>
          pure w.futures.size
        | some o => World.holding [.future w.futures.size, .outcome o] (host.callback key o) >>=
          fun answer => settle host n w.futures.size answer >>= fun _ => pure w.futures.size :
        Run σ κ FutureId) (w.addFuture none).2 := by
  have hmake : (modifyGet (·.addFuture none) : Run σ κ FutureId) w =
      .ok w.futures.size (w.addFuture none).2 := rfl
  have hget : (get : Run σ κ _) (w.addFuture none).2 =
      .ok (w.addFuture none).2 (w.addFuture none).2 := rfl
  show Sources.continueWith _ f _ _ w = _
  simp only [Sources.continueWith, bind, EStateM.bind, hmake, hget]
  cases (w.addFuture none).2.outcome? f <;> rfl

theorem continueWith_ok (h : continueWith host n f key w = .ok a w') : a = w.futures.size ∧
      ((w.addFuture none).2.outcome? f = none ∧
          w' = (w.addFuture none).2.await f (.callback key a) ∨
        ∃ o answer fresh w₁ held, (w.addFuture none).2.outcome? f = some o ∧
          host.callback key o ((w.addFuture none).2.grasp held) = .ok answer w₁ ∧
          settle host n a answer (w₁.letGo w.hands) = .ok fresh w') := by
  rw [continueWith_eq] at h
  cases ho : (w.addFuture none).2.outcome? f with
  | none =>
    rw [ho] at h
    obtain ⟨_, _, hset, h⟩ := bind_ok h
    cases hset
    cases h
    exact ⟨rfl, .inl ⟨rfl, rfl⟩⟩
  | some o =>
    rw [ho] at h
    obtain ⟨answer, _, hh, hx⟩ := bind_ok h
    obtain ⟨w₁, hc, rfl⟩ := World.holding_ok hh
    obtain ⟨fresh, _, hs, hx⟩ := bind_ok hx
    cases hx
    exact ⟨rfl, .inr ⟨o, answer, fresh, w₁, _, rfl, hc, hs⟩⟩

theorem continueWith_pending (h : (w.addFuture none).2.outcome? f = none) :
    continueWith host n f key w =
      .ok w.futures.size ((w.addFuture none).2.await f (.callback key w.futures.size)) := by
  rw [continueWith_eq, h]
  rfl

theorem continueWith_settled (h : (w.addFuture none).2.outcome? f = some o) :
    continueWith host n f key w =
      (World.holding [.future w.futures.size, .outcome o] (host.callback key o) >>= fun answer =>
        settle host n w.futures.size answer >>= fun _ => pure w.futures.size)
        (w.addFuture none).2 := by
  rw [continueWith_eq, h]

/-! Computations that end. -/

/-- With steps enough, a computation ends, and always in the same way. -/
def Ends {σ κ α : Type} (x : Nat → Nat → Run σ κ α) (w : World σ κ) (a : α)
    (w' : World σ κ) : Prop :=
  ∃ least, ∀ m n, least ≤ m → least ≤ n → x m n w = .ok a w'

namespace Ends

variable {σ κ α β : Type} {x : Nat → Nat → Run σ κ α} {w w₁ w₂ : World σ κ} {a : α} {b : β}

theorem pure (a : α) (w : World σ κ) : Ends (fun _ _ => Pure.pure a) w a w :=
  ⟨0, fun _ _ _ _ => rfl⟩

theorem bind {y : Nat → Nat → α → Run σ κ β} (h : Ends x w a w₁)
    (h' : Ends (fun m n => y m n a) w₁ b w₂) : Ends (fun m n => x m n >>= y m n) w b w₂ := by
  obtain ⟨l, hl⟩ := h
  obtain ⟨l', hl'⟩ := h'
  refine ⟨max l l', fun m n hm hn => ?_⟩
  show (x m n).bind (y m n) w = _
  simp only [EStateM.bind, hl m n (by omega) (by omega), hl' m n (by omega) (by omega)]

theorem andThen {z : Nat → Nat → Run σ κ β} (h : Ends x w a w₁) (h' : Ends z w₁ b w₂) :
    Ends (fun m n => x m n >>= fun _ => z m n) w b w₂ :=
  h.bind h'

theorem modify (g : World σ κ → World σ κ) (w : World σ κ) :
    Ends (fun _ _ => modify g) w () (g w) :=
  ⟨0, fun _ _ _ _ => rfl⟩

theorem holding {held : List (Holding κ)} (h : Ends x (w.grasp held) a w₁) :
    Ends (fun m n => World.holding held (x m n)) w a (w₁.letGo w.hands) := by
  obtain ⟨l, hl⟩ := h
  refine ⟨l, fun m n hm hn => ?_⟩
  simp only [World.holding, hl m n hm hn]

theorem congr {y : Nat → Nat → Run σ κ α} (h : Ends x w a w₁)
    (hy : ∀ m n, y m n w₂ = x m n w) : Ends y w₂ a w₁ := by
  obtain ⟨l, hl⟩ := h
  exact ⟨l, fun m n hm hn => (hy m n).trans (hl m n hm hn)⟩

theorem succ {y : Nat → Nat → Run σ κ α} (h : Ends x w a w₁)
    (hy : ∀ m n, y m (n + 1) w₂ = x m n w) : Ends y w₂ a w₁ := by
  obtain ⟨l, hl⟩ := h
  refine ⟨l + 1, fun m n hm hn => ?_⟩
  obtain ⟨n, rfl⟩ : ∃ k, n = k + 1 := ⟨n - 1, by omega⟩
  rw [hy]
  exact hl m n (by omega) (by omega)

end Ends

end Task

/-- A host that answers every call with unit. -/
def silentHost : Host Unit Unit :=
  { call := fun _ _ => pure (.ok .unit), callback := fun _ o => pure o, keeps := fun _ => [] }

end Resumable

import Resumable.Proofs.Pauses

namespace Resumable

open List

section

variable {ε τ α β : Type}

/-- The state in which a computation ends. -/
def lastly : EStateM.Result ε τ α → τ
  | .ok _ s | .error _ s => s

theorem bind_ok {x : EStateM ε τ α} {f : α → EStateM ε τ β} {s s' : τ} {b : β}
    (h : (x >>= f) s = .ok b s') : ∃ a s₁, x s = .ok a s₁ ∧ f a s₁ = .ok b s' := by
  simp only [bind, EStateM.bind] at h
  split at h
  · rename_i a s₁ hx
    exact ⟨a, s₁, hx, h⟩
  · cases h

theorem bind_error {x : EStateM ε τ α} {f : α → EStateM ε τ β} {s s' : τ} {e : ε}
    (h : (x >>= f) s = .error e s') :
    x s = .error e s' ∨ ∃ a s₁, x s = .ok a s₁ ∧ f a s₁ = .error e s' := by
  simp only [bind, EStateM.bind] at h
  split at h
  · rename_i a s₁ hx
    exact .inr ⟨a, s₁, hx, h⟩
  · rename_i e' s₁ hx
    cases h
    exact .inl hx

theorem get_bind (f : τ → EStateM ε τ α) (s : τ) : (get >>= f) s = f s s :=
  rfl

theorem set_bind (t : τ) (f : PUnit → EStateM ε τ α) (s : τ) : (set t >>= f) s = f ⟨⟩ t :=
  rfl

end

namespace Machine

variable {σ κ : Type}
variable {host : Host σ κ} {m m' : Machine} {n : Nat} {st : State} {d : Departure}
  {home : StorageId} {v : Value} {w w' : World σ κ} {a b : Activation σ κ} {args : List Value}
  {chain : Chain} {s : StateId}

/-- A new machine stands at the entry of its chain and holds nothing but its storage. -/
theorem create_ok {kind : Kind} (h : create chain kind args w = .ok (m, w')) :
    chain.kind = kind ∧ args.length = chain.params.length ∧
      m = { chain, home := w.storages.size } ∧
      w' = (w.addStorage (slots chain args)).2.given w.storages.size chain.params := by
  unfold create at h
  split at h
  · cases h
  · rename_i hk
    split at h
    · cases h
    · rename_i ha
      cases h
      exact ⟨Decidable.not_not.mp hk, Decidable.not_not.mp ha, rfl, rfl⟩

/-- What a terminator can decide. -/
inductive Departs : Terminator → Departure → Prop where
  | goto (t) : Departs (.goto t) (.goto t)
  | yes (e a b) : Departs (.branch e a b) (.goto a)
  | no (e a b) : Departs (.branch e a b) (.goto b)
  | yielded (e v r) : Departs (.suspend (.yield e) r) (.yielded v r)
  | awaiting (e f r) : Departs (.suspend (.await e) r) (.awaiting f r)
  | finish (t) : Departs (.ret none t) (.ret none t)
  | ret (e v t) : Departs (.ret (some e) t) (.ret (some v) t)
  | enter (f x) : Departs (.enter f x) (.enter f x)
  | endCleanup : Departs .endCleanup .endCleanup
  | complete : Departs .complete .complete

theorem departs_of_leave {t : Terminator} (h : leave host home n s t a = .ok d b) :
    Departs t d := by
  cases t with
  | goto t => cases h; exact .goto t
  | branch e x y =>
    obtain ⟨yes, a₁, -, h⟩ := bind_ok h
    cases h
    cases yes
    · exact .no e x y
    · exact .yes e x y
  | suspend p r =>
    cases p with
    | yield e =>
      obtain ⟨v, a₁, -, h⟩ := bind_ok h
      cases h
      exact .yielded e v r
    | await e =>
      obtain ⟨v, a₁, -, h⟩ := bind_ok h
      cases v with
      | future f => cases h; exact .awaiting e f r
      | _ => cases h
  | ret v t =>
    cases v with
    | none => cases h; exact .finish t
    | some e =>
      obtain ⟨v, a₁, -, h⟩ := bind_ok h
      cases h
      exact .ret e v t
  | enter f x => cases h; exact .enter f x
  | endCleanup => cases h; exact .endCleanup
  | complete => cases h; exact .complete
  | unreachable => cases h

/-- The machine once what it was to receive has been taken. -/
def idle (m : Machine) : Machine :=
  { m with resumption := none }

@[simp] theorem idle_pending (m : Machine) : m.idle.pending = m.pending := rfl

/-- Run the statements of a state and evaluate its terminator. -/
def execute (host : Host σ κ) (home : StorageId) (n : Nat) (st : State) : EvalM σ κ Departure := do
  Eval.execState host home n st.body
  leave host home n st.id st.exit

theorem departs_of_execute (h : execute host home n st a = .ok d b) : Departs st.exit d := by
  obtain ⟨-, a₁, -, hleave⟩ := bind_ok h
  exact departs_of_leave hleave

theorem mem_slots (h : v ∈ slots chain args) : v ∈ args ∨ v = .unit := by
  rw [slots] at h
  refine foldlRecOn (motive := fun vs => ∀ v ∈ vs, v ∈ args ∨ v = .unit) _ _ ?_ ?_ v h
  · exact fun v hv => .inr (eq_of_mem_replicate hv)
  · intro vs hvs p hp v hv
    rcases mem_or_eq_of_mem_set hv with hv | rfl
    · exact hvs v hv
    · exact .inl (of_mem_zip hp).2

theorem step_eq (hst : m.chain.states[m.current]? = some st) (host : Host σ κ) (n : Nat)
    (w : World σ κ) :
    m.step host n w =
      if !m.inCleanup st && m.isCancelled w then (.fault .cancelled m.idle, w)
      else
        match execute host m.home n st
            { resumption := m.resumption, world := w.grasp [.machine m.idle] } with
        | .ok d a =>
          match m.idle.depart? st.id d with
          | some move => (move, a.world.letGo w.hands)
          | none =>
            let text := "finally state " ++ StateId.text st.id ++ " entered without a pending exit"
            (.fault (.internal text) m.idle, (a.world.letGo w.hands).defect)
        | .error (.fault f) a => (.fault f m.idle, a.world.letGo w.hands)
        | .error .timeout a => (.timeout, a.world.letGo w.hands) := by
  rw [step, hst]
  rfl

/-- A step that neither faults nor runs out of steps leaves its state. -/
theorem exists_departure (hst : m.chain.states[m.current]? = some st) {move : Move}
    (h : m.step host n w = (move, w')) (hf : ∀ f m', move ≠ .fault f m') (ht : move ≠ .timeout) :
    ∃ d, Departs st.exit d ∧ m.idle.depart? st.id d = some move := by
  rw [step_eq hst] at h
  split at h
  · cases h
    exact absurd rfl (hf _ _)
  · split at h
    · rename_i d a he
      split at h
      · rename_i move' hmove
        cases h
        exact ⟨d, departs_of_execute he, hmove⟩
      · cases h
        exact absurd rfl (hf _ _)
    · cases h
      exact absurd rfl (hf _ _)
    · cases h
      exact absurd rfl ht

theorem departure_of_yielded (h : m.depart? s d = some (.yielded v m')) :
    d = .yielded v m'.current := by
  cases d with
  | ret u t => cases t <;> cases h
  | endCleanup =>
    obtain ⟨a, -, ha⟩ := Option.map_eq_some_iff.mp h
    cases a <;> cases ha
  | yielded u r =>
    cases h
    rfl
  | _ => cases h

/-- A step yields only from a state that pauses at a yield. -/
theorem yield_of_step (hst : m.chain.states[m.current]? = some st)
    (h : m.step host n w = (.yielded v m', w')) :
    ∃ e, st.exit = .suspend (.yield e) m'.current := by
  obtain ⟨d, hdep, hmove⟩ := exists_departure hst h nofun nofun
  rw [departure_of_yielded hmove] at hdep
  generalize st.exit = z at hdep ⊢
  cases hdep
  exact ⟨_, rfl⟩

/-- Control passes an empty state that leads into a cleanup. -/
theorem execute_route {f x : StateId} (hb : st.body = []) (hx : st.exit = .enter f x)
    (a : Activation σ κ) :
    execute host home n st a = .error .timeout a ∨
      execute host home n st a = .ok (.enter f x) a := by
  cases n with
  | zero =>
    left
    simp only [execute, hb, Eval.execState, Eval.execBlock, bind, EStateM.bind]
    rfl
  | succ n =>
    right
    simp [execute, hb, hx, leave, Eval.execState, Eval.execBlock, bind, EStateM.bind, pure,
      EStateM.pure]

/-- The same machine later on: it runs the same chain on the same slots, under the same token. -/
structure Continues (m m' : Machine) : Prop where
  chain : m'.chain = m.chain
  home : m'.home = m.home
  token : m'.token = m.token

theorem Continues.refl (m : Machine) : m.Continues m :=
  ⟨rfl, rfl, rfl⟩

theorem Continues.trans {m₁ m₂ m₃ : Machine} (h : m₁.Continues m₂) (h' : m₂.Continues m₃) :
    m₁.Continues m₃ :=
  ⟨h'.chain.trans h.chain, h'.home.trans h.home, h'.token.trans h.token⟩

end Machine

/-- The machine after a move. -/
def Move.machine? : Move → Option Machine
  | .next m | .yielded _ m | .awaiting _ m | .completed _ m | .fault _ m => some m
  | .timeout => none

namespace Machine

variable {σ κ : Type} {m m' : Machine} {w w' : World σ κ}

theorem depart?_continues {s : StateId} {d : Departure} {move : Move}
    (h : m.depart? s d = some move) (hm : move.machine? = some m') : m.Continues m' := by
  cases d with
  | ret v t =>
    cases t <;> cases h <;> cases hm <;> exact ⟨rfl, rfl, rfl⟩
  | endCleanup =>
    obtain ⟨a, -, ha⟩ := Option.map_eq_some_iff.mp h
    cases a <;> cases ha <;> cases hm <;> exact ⟨rfl, rfl, rfl⟩
  | _ =>
    cases h
    cases hm
    exact ⟨rfl, rfl, rfl⟩

theorem step_continues {host : Host σ κ} {n : Nat}
    (hm : (m.step host n w).1.machine? = some m') : m.Continues m' := by
  have hidle : m.Continues m.idle := ⟨rfl, rfl, rfl⟩
  cases hst : m.chain.states[m.current]? with
  | none =>
    rw [step, hst] at hm
    cases hm
    exact .refl m
  | some st =>
    rw [step_eq hst] at hm
    split at hm
    · cases hm
      exact hidle
    · split at hm
      · split at hm
        · rename_i hmove
          exact hidle.trans (depart?_continues hmove hm)
        · cases hm
          exact hidle
      · cases hm
        exact hidle
      · cases hm

theorem handle_continues {f : Fault} (h : m.handle f w = some (m', w')) : m.Continues m' := by
  unfold handle at h
  split at h
  · cases h
  · cases h
    exact ⟨rfl, rfl, rfl⟩
  · cases h
    exact ⟨rfl, rfl, rfl⟩

end Machine

namespace Regions

variable {c : Chain}

/-- A machine between two steps: it knows what comes after the cleanup it stands at. -/
structure Steady (c : Chain) (m : Machine) : Prop where
  chain : m.chain = c
  state : ∃ st, c.states[m.current]? = some st
  pending : Cleans c.states m.current → ∃ a, m.pending.lookup m.current = some a ∧
    ∀ x, a = .goOn x → Link c.states c.handlers (c.enclosingCleanups m.current) x

theorem Plain.not_cleans {states : List State} {s : StateId} (hp : Plain states s) :
    ¬Cleans states s := by
  rintro ⟨st, hst, he⟩
  obtain ⟨st', hst', hc, -⟩ := hp
  cases hst.symm.trans hst'
  exact hc he

theorem Link.not_cleans {states : List State} {handlers : List Handler} {E : List StateId}
    {t : StateId} (hl : Link states handlers E t) : ¬Cleans states t := by
  cases hl with
  | stay ht | into ht => exact ht.not_cleans
  | out ht hx =>
    rintro ⟨st, hst, he⟩
    cases hst.symm.trans ht
    rw [hx] at he
    cases he

theorem Link.steady {E : List StateId} {m : Machine} (hl : Link c.states c.handlers E m.current)
    (hc : m.chain = c) : Steady c m :=
  ⟨hc, ⟨_, getElem?_eq_getElem hl.lt⟩, fun h => absurd h hl.not_cleans⟩

theorem Plain.steady {m : Machine} (hp : Plain c.states m.current) (hc : m.chain = c) :
    Steady c m :=
  ⟨hc, ⟨_, getElem?_eq_getElem hp.lt⟩, fun h => absurd h hp.not_cleans⟩

/-- Where a machine stands after a step from `s`. -/
def Moved (c : Chain) (s : StateId) : Move → Prop
  | .next m => Steady c m
  | .yielded _ m | .awaiting _ m =>
    m.chain = c ∧ Plain c.states m.current ∧ c.enclosingCleanups m.current = c.enclosingCleanups s
  | .fault _ m => m.chain = c ∧ m.current = s
  | .completed .. | .timeout => True

section

variable {σ κ : Type} (hd : Disciplined c.states c.handlers)
  (hn : ∀ (i : Nat) st, c.states[i]? = some st → st.id = i) {m : Machine} (hm : Steady c m)
include hd hn hm

/-- Wherever a terminator leads, there is a way to go. -/
theorem Steady.depart {st : State} (hst : c.states[m.current]? = some st) {d : Departure}
    (hdep : Machine.Departs st.exit d) :
    ∃ move, m.idle.depart? st.id d = some move ∧ Moved c m.current move := by
  have hfine := (hd.state m.current st hst).exit
  cases hx : st.exit with
  | goto t =>
    rw [hx] at hdep hfine
    cases hdep
    exact ⟨_, rfl, Link.steady hfine hm.chain⟩
  | branch e a b =>
    rw [hx] at hdep hfine
    cases hdep with
    | yes => exact ⟨_, rfl, Link.steady hfine.1 hm.chain⟩
    | no => exact ⟨_, rfl, Link.steady hfine.2 hm.chain⟩
  | suspend p r =>
    rw [hx] at hdep hfine
    cases hdep <;> exact ⟨_, rfl, hm.chain, hfine.1, hfine.2⟩
  | ret v t =>
    rw [hx] at hdep hfine
    cases t with
    | none => cases hdep <;> exact ⟨_, rfl, trivial⟩
    | some t => cases hdep <;> exact ⟨_, rfl, Link.steady hfine hm.chain⟩
  | enter g x =>
    rw [hx] at hdep hfine
    cases hdep
    refine ⟨_, rfl, hm.chain, ⟨_, getElem?_eq_getElem hfine.1.lt⟩, fun _ => ?_⟩
    refine ⟨.goOn x, by simp, ?_⟩
    rintro _ ⟨⟩
    have heg : c.enclosingCleanups g = c.enclosingCleanups m.current := hfine.2.1
    show Link c.states c.handlers (c.enclosingCleanups g) x
    rw [heg]
    exact hfine.2.2
  | endCleanup =>
    rw [hx] at hdep
    cases hdep
    obtain ⟨a, ha, hgo⟩ := hm.pending ⟨st, hst, hx⟩
    rw [hn _ _ hst]
    simp only [Machine.depart?, Machine.idle_pending, ha, Option.map_some]
    cases a with
    | goOn x => exact ⟨_, rfl, Link.steady (hgo x rfl) hm.chain⟩
    | rethrow f => exact ⟨_, rfl, hm.chain, rfl⟩
  | complete =>
    rw [hx] at hdep
    cases hdep
    exact ⟨_, rfl, trivial⟩
  | unreachable =>
    rw [hx] at hdep
    cases hdep

theorem Steady.step (host : Host σ κ) (n : Nat) (w : World σ κ) :
    Moved c m.current (m.step host n w).1 := by
  obtain ⟨st, hst⟩ := hm.state
  rw [Machine.step_eq (hm.chain ▸ hst)]
  split
  · exact ⟨hm.chain, rfl⟩
  · split
    · rename_i d a he
      obtain ⟨move, hmove, hmoved⟩ := hm.depart hd hn hst (Machine.departs_of_execute he)
      rw [hmove]
      exact hmoved
    · exact ⟨hm.chain, rfl⟩
    · trivial

end

/-- A fault that is taken leads to a place where a machine may stand. -/
theorem Steady.handle {σ κ : Type} (hd : Disciplined c.states c.handlers) {m m' : Machine}
    (hc : m.chain = c) {st : State} (hst : c.states[m.current]? = some st) {f : Fault}
    {w w' : World σ κ} (h : m.handle f w = some (m', w')) : Steady c m' := by
  subst hc
  have hfault := (hd.state m.current st hst).fault
  have hcov : m.chain.covering m.current =
      Handler.outward m.chain.handlers m.chain.handlers.length st.handler := by
    rw [Chain.covering, hst, Option.bind_some]
  rw [Machine.handle, hcov] at h
  split at h
  · cases h
  · rename_i l hr
    rw [hr] at hfault
    cases h
    exact Plain.steady hfault.1 rfl
  · rename_i g hr
    rw [hr] at hfault
    cases h
    exact ⟨rfl, ⟨_, getElem?_eq_getElem hfault.1.lt⟩, fun _ => ⟨.rethrow f, by simp, nofun⟩⟩

end Regions

end Resumable

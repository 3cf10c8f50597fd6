import Resumable.Proofs.Cleanup

namespace Resumable.Enumerator

open List

variable {σ κ : Type}
variable {e e' : Enumerator} {host : Host σ κ} {n : Nat} {w w' : World σ κ}

/-- What can be asked of an enumerator. -/
inductive Request where
  | advance | next | current | dispose | drop

/-- What is answered. -/
inductive Reply where
  | advanced (a : Advance)
  | next (o : Option Outcome)
  | current (v : Option Value)
  | disposed (f : Option Fault)
  | dropped

def ask (host : Host σ κ) (n : Nat) (e : Enumerator) : Request → Run σ κ (Reply × Enumerator)
  | .advance => do
    let (a, e) ← e.advance host n
    return (.advanced a, e)
  | .next => do
    let (o, e) ← e.next host n
    return (.next o, e)
  | .current => return (.current e.current, e)
  | .dispose => do
    let (f, e) ← e.dispose host n
    return (.disposed f, e)
  -- a fault is not shown
  | .drop => do
    let (_, e) ← e.dispose host n
    return (.dropped, e)

/-- The answer of an enumerator that has nothing left. -/
def Request.idle : Request → Reply
  | .advance => .advanced .exhausted
  | .next => .next none
  | .current => .current none
  | .dispose => .disposed none
  | .drop => .dropped

namespace Reply

/-- The enumerator has come to its end with this answer, if it had not before. -/
def ends : Reply → Bool
  | .advanced .done | .advanced (.fault _) | .next none | .next (some (.error _)) | .disposed _
  | .dropped => true
  | .advanced (.yielded _) | .advanced .exhausted | .next (some (.ok _)) | .current _ => false

/-- The value that has been yielded with this answer. -/
def yielded? : Reply → Option Value
  | .advanced (.yielded v) | .next (some (.ok v)) => some v
  | _ => none

/-- A fault that has come out of the method while it was advanced. -/
def isFault : Reply → Bool
  | .advanced (.fault _) | .next (some (.error _)) => true
  | _ => false

end Reply

/-- What one enumerator has become, and what has been answered meanwhile, the last first. Each time
the world is any world. -/
inductive Answered (host : Host σ κ) (e₀ : Enumerator) : List Reply → Enumerator → Prop where
  | start : Answered host e₀ [] e₀
  | ask {rs : List Reply} {e e' : Enumerator} {n : Nat} {q : Request} {r : Reply}
      {w w' : World σ κ} (h : Answered host e₀ rs e) (hq : e.ask host n q w = .ok (r, e') w') :
    Answered host e₀ (r :: rs) e'

theorem advance_cases {a : Advance} (hm : e.machine.isSome)
    (h : e.advance host n w = .ok (a, e') w') :
    (∃ v m, a = .yielded v ∧ e' = ⟨some m, some v⟩) ∨
      (a = .done ∨ ∃ f, a = .fault f) ∧ e' = finished := by
  obtain ⟨m, hm⟩ := Option.isSome_iff_exists.mp hm
  unfold advance at h
  rw [hm] at h
  simp only at h
  split at h <;> cases h
  · exact .inl ⟨_, _, rfl, rfl⟩
  · exact .inr ⟨.inl rfl, rfl⟩
  · exact .inr ⟨.inr ⟨_, rfl⟩, rfl⟩
  · exact .inr ⟨.inr ⟨_, rfl⟩, rfl⟩

/-- The next value is the current one after an advance. -/
theorem next_eq (host : Host σ κ) (n : Nat) (e : Enumerator) :
    e.next host n = do
      let (a, e') ← e.advance host n
      return (match a with
        | .yielded _ => e'.current.map .ok
        | .fault f => some (.error f)
        | .done | .exhausted => none, e') := by
  funext w
  simp only [next, bind, EStateM.bind]
  cases hadvance : e.advance host n w with
  | error => rfl
  | ok p w' =>
    obtain ⟨a, e'⟩ := p
    cases a with
    | yielded v =>
      have hcurrent : e'.current = some v := by
        cases hm : e.machine with
        | none =>
          rw [advance, hm] at hadvance
          cases hadvance
        | some m =>
          rcases advance_cases (by rw [hm]; rfl) hadvance with
            ⟨_, _, hv, rfl⟩ | ⟨hv | ⟨_, hv⟩, -⟩ <;> cases hv
          rfl
      simp [hcurrent]
    | _ => rfl

/-- Once it has come to its end, an enumerator answers at once, whatever the host is. -/
theorem ask_finished (host : Host σ κ) (n : Nat) (q : Request) (w : World σ κ) :
    finished.ask host n q w = .ok (q.idle, finished) w := by
  cases q <;> rfl

/-- One request to an enumerator that has not come to its end: it is over with it, or goes on with
the value it has yielded last. -/
theorem ask_cases {q : Request} {r : Reply} (hm : e.machine.isSome)
    (h : e.ask host n q w = .ok (r, e') w') :
    (r.ends = true ∧ e' = finished) ∨
      (r.ends = false ∧ r.isFault = false ∧ e'.machine.isSome ∧
        e'.current = r.yielded?.or e.current) := by
  cases q with
  | advance =>
    obtain ⟨⟨a, e₁⟩, w₁, hadvance, h⟩ := bind_ok h
    cases h
    rcases advance_cases hm hadvance with ⟨v, m, rfl, rfl⟩ | ⟨rfl | ⟨f, rfl⟩, rfl⟩
    · exact .inr ⟨rfl, rfl, rfl, rfl⟩
    · exact .inl ⟨rfl, rfl⟩
    · exact .inl ⟨rfl, rfl⟩
  | next =>
    obtain ⟨⟨o, e₁⟩, w₁, hnext, h⟩ := bind_ok h
    cases h
    obtain ⟨⟨a, e₂⟩, w₂, hadvance, hnext⟩ := bind_ok hnext
    rcases advance_cases hm hadvance with ⟨v, m, rfl, rfl⟩ | ⟨rfl | ⟨f, rfl⟩, rfl⟩ <;> cases hnext
    · exact .inr ⟨rfl, rfl, rfl, rfl⟩
    · exact .inl ⟨rfl, rfl⟩
    · exact .inl ⟨rfl, rfl⟩
  | current =>
    cases h
    exact .inr ⟨rfl, rfl, hm, rfl⟩
  | dispose | drop =>
    obtain ⟨⟨f, e₁⟩, w₁, hdispose, h⟩ := bind_ok h
    cases h
    obtain ⟨m, hm⟩ := Option.isSome_iff_exists.mp hm
    simp only [dispose, hm] at hdispose
    obtain ⟨_, _, -, hdispose⟩ := bind_ok hdispose
    obtain ⟨_, _, -, hdispose⟩ := bind_ok hdispose
    cases hdispose
    exact .inl ⟨rfl, rfl⟩

/-- What the answers so far tell of an enumerator that was there to be advanced. -/
structure Told (rs : List Reply) (e : Enumerator) : Prop where
  open_ : (∀ r ∈ rs, r.ends = false) → e.machine.isSome ∧ e.current = rs.findSome? Reply.yielded? ∧
    rs.countP Reply.isFault = 0
  ended : (∃ r ∈ rs, r.ends = true) → e = finished ∧ rs.countP Reply.isFault ≤ 1

theorem Told.ask {q : Request} {r : Reply} {rs : List Reply} (ht : Told rs e)
    (h : e.ask host n q w = .ok (r, e') w') : Told (r :: rs) e' := by
  by_cases hover : ∃ r ∈ rs, r.ends = true
  · -- it had come to its end before
    obtain ⟨rfl, hcount⟩ := ht.ended hover
    rw [ask_finished] at h
    cases h
    have hidle : q.idle.isFault = false := by cases q <;> rfl
    refine ⟨fun hopen => ?_, fun _ => ⟨rfl, ?_⟩⟩
    · obtain ⟨x, hx, hends⟩ := hover
      rw [hopen x (mem_cons_of_mem _ hx)] at hends
      cases hends
    · rwa [countP_cons_of_neg (by simp [hidle])]
  · have hopen : ∀ x ∈ rs, x.ends = false := fun x hx => by
      simpa using fun hends => hover ⟨x, hx, hends⟩
    obtain ⟨hm, hcurrent, hcount⟩ := ht.open_ hopen
    rcases ask_cases hm h with ⟨hends, rfl⟩ | ⟨hends, hfault, hm', hcurrent'⟩
    · refine ⟨fun hall => ?_, fun _ => ⟨rfl, ?_⟩⟩
      · rw [hall r mem_cons_self] at hends
        cases hends
      · rw [countP_cons, hcount]
        split <;> simp
    · refine ⟨fun _ => ⟨hm', ?_, ?_⟩, fun hex => ?_⟩
      · rw [hcurrent', hcurrent, findSome?_cons]
        cases r.yielded? <;> rfl
      · rw [countP_cons_of_neg (by simp [hfault]), hcount]
      · obtain ⟨x, hx, hx'⟩ := hex
        rcases mem_cons.mp hx with rfl | hx
        · rw [hends] at hx'
          cases hx'
        · exact absurd ⟨x, hx, hx'⟩ hover

theorem Answered.told {e₀ : Enumerator} {rs : List Reply} (h : Answered host e₀ rs e)
    (hm : e₀.machine.isSome) (hc : e₀.current = none) : Told rs e := by
  induction h with
  | start => exact ⟨fun _ => ⟨hm, hc, rfl⟩, fun ⟨_, hx, _⟩ => absurd hx not_mem_nil⟩
  | ask _ hq ih => exact ih.ask hq

end Resumable.Enumerator

namespace Resumable

open Enumerator

/-- Before an answer that ends it, an enumerator has the value yielded last as its current one.
Afterwards it has none and answers every request at once, with any host, even one that never
answers, and without touching the world. At most one fault comes out of advancing it, and the next
value is what is current after an advance. -/
theorem enumerator_single_pass {σ κ : Type} {chain : Chain} {args : List Value} {w₀ w₁ : World σ κ}
    {e₀ : Enumerator} (hc : Enumerator.create chain args w₀ = .ok (e₀, w₁)) (host : Host σ κ)
    {rs : List Reply} {e : Enumerator} (h : Answered host e₀ rs e) :
    ((∀ r ∈ rs, r.ends = false) →
        e.isExhausted = false ∧ e.current = rs.findSome? Reply.yielded?) ∧
      ((∃ r ∈ rs, r.ends = true) → e.isExhausted = true ∧ e.current = none ∧
        ∀ (other : Host σ κ) n q w, e.ask other n q w = .ok (q.idle, e) w) ∧
      rs.countP Reply.isFault ≤ 1 ∧
      ∀ n, e.next host n = do
        let (a, e') ← e.advance host n
        return (match a with
          | .yielded _ => e'.current.map .ok
          | .fault f => some (.error f)
          | .done | .exhausted => none, e') := by
  have hnew : e₀.machine.isSome ∧ e₀.current = none := by
    unfold Enumerator.create at hc
    cases hm : Machine.create chain .iterator args w₀ with
    | error f =>
      rw [hm] at hc
      cases hc
    | ok p =>
      rw [hm] at hc
      cases hc
      exact ⟨rfl, rfl⟩
  have htold := h.told hnew.1 hnew.2
  refine ⟨fun hopen => ?_, fun hover => ?_, ?_, fun n => next_eq host n e⟩
  · obtain ⟨hm, hcurrent, -⟩ := htold.open_ hopen
    exact ⟨by rw [isExhausted]; simpa using hm, hcurrent⟩
  · obtain ⟨rfl, -⟩ := htold.ended hover
    exact ⟨rfl, rfl, fun other n q w => ask_finished other n q w⟩
  · by_cases hover : ∃ r ∈ rs, r.ends = true
    · exact (htold.ended hover).2
    · have hopen : ∀ x ∈ rs, x.ends = false := fun x hx => by
        simpa using fun hends => hover ⟨x, hx, hends⟩
      rw [(htold.open_ hopen).2.2]
      exact Nat.zero_le 1

/-- A method that yields and then fails, as a chain. -/
def failingChain : Chain :=
  { name := "m", kind := .iterator,
    states :=
      [{ id := 0, exit := .suspend (.yield (.int {} 1)) 1 },
        { id := 1, body := [.throw {} (.int {} 2)], exit := .complete }],
    handlers := [] }

/-- The value is current until the fault, and after the fault there is nothing. -/
theorem failingChain_single_pass :
    ∃ e e' : Enumerator, e.current = some (.int 1) ∧ e'.current = none ∧
      Answered silentHost e [.advanced (.fault (.thrown (.int 2)))] e' ∧
      ∀ (other : Host Unit Unit) n q w, e'.ask other n q w = .ok (q.idle, e') w := by
  let start : Enumerator := { machine := some { chain := failingChain, home := 0 } }
  let paused : Enumerator :=
    { machine := some { chain := failingChain, home := 0, current := 1 }, current := some (.int 1) }
  let world : World Unit Unit := { storages := #[{ slots := [], holders := 1 }], ext := () }
  have hcreate : Enumerator.create failingChain [] ({ ext := () } : World Unit Unit) =
      .ok (start, world) := by with_unfolding_all rfl
  have hnext : start.ask silentHost 10 .next world =
      .ok (.next (some (.ok (.int 1))), paused) world := by
    with_unfolding_all rfl
  have hfault : paused.ask silentHost 10 .advance world =
      .ok (.advanced (.fault (.thrown (.int 2))), .finished) (world.release 0) := by
    with_unfolding_all rfl
  have hfirst := Answered.start.ask hnext
  obtain ⟨hopen, -⟩ := enumerator_single_pass hcreate silentHost hfirst
  obtain ⟨-, hover, -⟩ := enumerator_single_pass hcreate silentHost (hfirst.ask hfault)
  obtain ⟨-, hnone, hidle⟩ := hover ⟨_, List.mem_cons_self, rfl⟩
  exact ⟨paused, .finished, (hopen (by decide)).2, hnone, Answered.start.ask hfault, hidle⟩

end Resumable

import Resumable.Proofs.Locality

namespace Resumable

open List

def Departure.IsPlain : Departure → Prop
  | .yielded v _ => v.IsPlain
  | .ret v _ => ∀ u ∈ v, u.IsPlain
  | .goto _ | .awaiting .. | .enter .. | .endCleanup | .complete => True

def Aftermath.IsPlain : Aftermath → Prop
  | .goOn _ => True
  | .rethrow f => f.IsPlain

namespace Machine

/-- There is no closure in the machine, and no token. -/
structure IsPlain (m : Machine) : Prop where
  token : m.token = none
  pending : ∀ p ∈ m.pending, p.2.IsPlain
  resumption : ∀ o ∈ m.resumption, Outcome.IsPlain o
  result : m.result.IsPlain

/-- The same method, later. -/
structure Later (m m' : Machine) : Prop where
  chain : m'.chain = m.chain
  home : m'.home = m.home
  plain : m'.IsPlain

theorem Later.trans {m m₁ m₂ : Machine} (h : m.Later m₁) (h' : m₁.Later m₂) : m.Later m₂ :=
  ⟨h'.chain.trans h.chain, h'.home.trans h.home, h'.plain⟩

end Machine

/-- The machine has moved on, and carries no closure. -/
def Move.From (m : Machine) : Move → Prop
  | .next m' | .awaiting _ m' => m.Later m'
  | .yielded v m' | .completed v m' => m.Later m' ∧ v.IsPlain
  | .fault f m' => m.Later m' ∧ f.IsPlain
  | .timeout => True

def Halt.From (m : Machine) : Halt → Prop
  | .awaiting _ m' => m.Later m'
  | .yielded v m' | .completed v m' => m.Later m' ∧ v.IsPlain
  | .fault f m' => m.Later m' ∧ f.IsPlain
  | .timeout => True

theorem World.after_defect {σ κ : Type} {w : World σ κ} {home : StorageId} {slots : List Value}
    (h : w.slotsAt home = some slots) : w.after home slots { defects := 1 } = w.defect := by
  have hd := congrArg World.defect (World.after_self h)
  rw [← hd]
  rfl

/-- The first statement of a state may receive what an await brought. -/
theorem State.Runs.stmt {st : State} {lam : Bool} {size : Nat} (h : st.Runs lam size) :
    ∀ s ∈ st.body, s.runs lam size false false = true ∨ s.receives = true := by
  have hfirst := h.first
  have hlater := h.later
  cases hb : st.body with
  | nil => exact nofun
  | cons s ss =>
    rw [hb] at hfirst hlater
    rw [forall_mem_cons]
    refine ⟨?_, fun s hs => .inl (hlater s hs)⟩
    rcases hfirst s rfl with hs | hs
    · exact .inl hs
    · exact .inr hs.1

namespace Machine

variable {σ κ : Type} {host : Host σ κ} {answer : String → List Value → Outcome}
  (hh : host.IsPure answer)
include hh

theorem local_leave (home : StorageId) (n : Nat) (s : StateId) {size : Nat} {t : Terminator}
    (ht : ∀ e ∈ t.expr?, e.runs false size = true ∨ e.isResume = true) :
    Local home Departure.IsPlain Stop.IsPlain (leave host home n s t) := by
  cases t with
  | branch e a b => exact (Eval.local_test hh home n (ht e rfl)).bind fun _ _ => .pure trivial
  | suspend p r =>
    cases p with
    | yield e => exact (Eval.local_expr hh home n (ht e rfl)).bind fun v hv => .pure hv
    | await e =>
      refine (Eval.local_expr hh home n (ht e rfl)).bind fun v hv => ?_
      cases v with
      | future f => exact .pure trivial
      | _ =>
        apply Eval.local_raise
        rintro _ ⟨⟩
        exact hv
  | ret v t =>
    cases v with
    | none => exact .pure nofun
    | some e =>
      refine (Eval.local_expr hh home n (ht e rfl)).bind fun v hv => .pure ?_
      rintro _ ⟨⟩
      exact hv
  | unreachable => exact Eval.local_broken _
  | _ => exact .pure trivial

theorem local_execute (home : StorageId) (n : Nat) {size : Nat} {st : State}
    (h : st.Runs false size) :
    Local home Departure.IsPlain Stop.IsPlain (execute host home n st) := by
  have hexit : ∀ e ∈ st.exit.expr?, e.runs false size = true ∨ e.isResume = true :=
    fun e he => (h.exit e he).imp_right And.right
  exact (Eval.local_execState hh home h.stmt n).bind fun _ _ =>
    local_leave hh home n st.id hexit

omit hh in
/-- Whatever a terminator decides, the machine moves on. -/
theorem IsPlain.depart {m : Machine} (hm : m.IsPlain) {s : StateId} {d : Departure}
    (hd : d.IsPlain) {move : Move} (h : m.idle.depart? s d = some move) : move.From m := by
  have hfilter : ∀ c, ∀ p ∈ m.pending.filter (·.1 != c), p.2.IsPlain :=
    fun c p hp => hm.pending p (mem_of_mem_filter hp)
  cases d with
  | goto t | awaiting f r =>
    cases h
    exact ⟨rfl, rfl, hm.token, hm.pending, nofun, hm.result⟩
  | yielded v r =>
    cases h
    exact ⟨⟨rfl, rfl, hm.token, hm.pending, nofun, hm.result⟩, hd⟩
  | ret v t =>
    have hv : (v.getD m.result).IsPlain := by
      cases v with
      | none => exact hm.result
      | some v => exact hd v rfl
    cases t with
    | none =>
      cases h
      exact ⟨⟨rfl, rfl, hm.token, hm.pending, nofun, trivial⟩, hv⟩
    | some t =>
      cases h
      exact ⟨rfl, rfl, hm.token, hm.pending, nofun, hv⟩
  | enter c t =>
    cases h
    refine ⟨rfl, rfl, hm.token, ?_, nofun, hm.result⟩
    exact forall_mem_cons.mpr ⟨trivial, hfilter c⟩
  | endCleanup =>
    obtain ⟨after, ha, rfl⟩ := Option.map_eq_some_iff.mp h
    have hafter : after.IsPlain := hm.pending (s, after) (mem_of_lookup ha)
    cases after with
    | goOn t => exact ⟨rfl, rfl, hm.token, hfilter s, nofun, hm.result⟩
    | rethrow f => exact ⟨⟨rfl, rfl, hm.token, hfilter s, nofun, hm.result⟩, hafter⟩
  | complete =>
    cases h
    exact ⟨⟨rfl, rfl, hm.token, hm.pending, nofun, trivial⟩, hm.result⟩

omit hh in
/-- A step that is not cancelled, by how its state runs. -/
theorem step_of_execute {m : Machine} {st : State} (hst : m.chain.states[m.current]? = some st)
    {n : Nat} {w : World σ κ} (hcancel : m.isCancelled w = false) {r : Except Stop Departure}
    {b : Activation σ κ} : execute host m.home n st
      { resumption := m.resumption, world := w.grasp [.machine m.idle] } = ending r b →
    m.step host n w =
      match r with
      | .ok d =>
        match m.idle.depart? st.id d with
        | some move => (move, b.world.letGo w.hands)
        | none =>
          let text := "finally state " ++ StateId.text st.id ++ " entered without a pending exit"
          (.fault (.internal text) m.idle, (b.world.letGo w.hands).defect)
      | .error (.fault f) => (.fault f m.idle, b.world.letGo w.hands)
      | .error .timeout => (.timeout, b.world.letGo w.hands) := by
  intro hrun
  rw [step_eq hst, hcancel, Bool.and_false, if_neg Bool.false_ne_true, hrun]
  rcases r with (f | _) | d <;> rfl

/-- One step changes the own slots and nothing else. -/
theorem step_local {m : Machine} (hm : m.IsPlain) {size : Nat}
    (hc : ∀ st ∈ m.chain.states, st.Runs false size) (n : Nat) {slots : List Value}
    (hs : ∀ v ∈ slots, v.IsPlain) : ∃ move slots' d, move.From m ∧ (∀ v ∈ slots', v.IsPlain) ∧
      ∀ w : World σ κ, w.slotsAt m.home = some slots →
        m.step host n w = (move, w.after m.home slots' d) := by
  have hidle : m.Later m.idle := ⟨rfl, rfl, hm.token, hm.pending, by rintro _ ⟨⟩, hm.result⟩
  cases hst : m.chain.states[m.current]? with
  | none =>
    refine ⟨.fault (.internal ("no state " ++ StateId.text m.current)) m, slots, { defects := 1 },
      ⟨⟨rfl, rfl, hm⟩, by rintro _ ⟨⟩⟩, hs, fun w hw => ?_⟩
    rw [World.after_defect hw, step, hst]
  | some st =>
    have hrun := local_execute hh m.home n (hc st (mem_of_getElem? hst))
    obtain ⟨r, s', d, hr, he, hs', hrun⟩ :=
      hrun ⟨.empty, m.resumption, slots⟩ ⟨Frame.all_empty, hm.resumption, hs⟩
    have hcancel : ∀ w : World σ κ, m.isCancelled w = false := by
      intro w
      rw [isCancelled, hm.token]
      rfl
    have hstep := fun (w : World σ κ) (hw : w.slotsAt m.home = some slots) =>
      step_of_execute hst (hcancel w)
        (hrun { resumption := m.resumption, world := w.grasp [.machine m.idle] } ⟨rfl, rfl, hw⟩)
    cases r with
    | ok d' =>
      cases hd : m.idle.depart? st.id d' with
      | some move =>
        refine ⟨move, s'.slots, d, hm.depart (hr d' rfl) hd, hs'.slots, fun w hw => ?_⟩
        rw [hstep w hw]
        simp only [hd]
        rfl
      | none =>
        let text := "finally state " ++ StateId.text st.id ++ " entered without a pending exit"
        refine ⟨.fault (.internal text) m.idle, s'.slots, d + { defects := 1 },
          ⟨hidle, by rintro _ ⟨⟩⟩, hs'.slots, fun w hw => ?_⟩
        rw [hstep w hw]
        simp only [hd]
        rw [← World.after_after, World.after_defect (World.slotsAt_after hw _ _)]
        rfl
    | error e =>
      cases e with
      | fault f => exact ⟨.fault f m.idle, s'.slots, d, ⟨hidle, he _ rfl⟩, hs'.slots, hstep⟩
      | timeout => exact ⟨.timeout, s'.slots, d, trivial, hs'.slots, hstep⟩

omit hh in
/-- Where a fault goes, and what the clause that takes it stores. -/
theorem handle_local {m : Machine} (hm : m.IsPlain) {f : Fault} (hf : f.IsPlain)
    {slots : List Value} (hs : ∀ v ∈ slots, v.IsPlain) :
    (∀ w : World σ κ, m.handle f w = none) ∨
      ∃ m' slots' d, m.Later m' ∧ (∀ v ∈ slots', v.IsPlain) ∧
        ∀ w : World σ κ, w.slotsAt m.home = some slots →
          m.handle f w = some (m', w.after m.home slots' d) := by
  cases hr : rescue? (m.chain.covering m.current) with
  | none =>
    left
    intro w
    rw [handle, hr]
  | some r =>
    right
    cases r with
    | cleanup s =>
      refine ⟨{ m with pending := (s, .rethrow f) :: m.pending.filter (·.1 != s), current := s },
        slots, 0, ⟨rfl, rfl, hm.token, ?_, hm.resumption, hm.result⟩, hs, fun w hw => ?_⟩
      · exact forall_mem_cons.mpr
          ⟨hf, fun p hp => hm.pending p (mem_of_mem_filter hp)⟩
      · rw [handle, hr, World.after_self hw]
    | clause c =>
      have hlater : m.Later { m with current := c.entry } :=
        ⟨rfl, rfl, hm.token, hm.pending, hm.resumption, hm.result⟩
      cases hk : c.slot with
      | none =>
        refine ⟨_, slots, 0, hlater, hs, fun w hw => ?_⟩
        rw [handle, hr, World.after_self hw]
        simp only [hk]
      | some k =>
        refine ⟨_, slots.set k f.toValue, { accesses := [.wrote m.home k] }, hlater, fun v hv => ?_,
          fun w hw => ?_⟩
        · rcases mem_or_eq_of_mem_set hv with hv | rfl
          · exact hs v hv
          · exact hf.toValue
        · rw [handle, hr]
          simp only [hk]
          rw [World.store_eq_after hw]

omit hh in
theorem earlier_from {m m₁ : Machine} (h : m.Later m₁) {halt : Halt}
    (hhalt : halt.From m₁) : halt.From m := by
  cases halt with
  | awaiting f m₂ => exact h.trans hhalt
  | yielded v m₂ | completed v m₂ | fault f m₂ => exact ⟨h.trans hhalt.1, hhalt.2⟩
  | timeout => trivial

theorem run_local {m : Machine} (hm : m.IsPlain) {size : Nat}
    (hc : ∀ st ∈ m.chain.states, st.Runs false size) (n : Nat) {slots : List Value}
    (hs : ∀ v ∈ slots, v.IsPlain) : ∃ halt slots' d, halt.From m ∧ (∀ v ∈ slots', v.IsPlain) ∧
      ∀ w : World σ κ, w.slotsAt m.home = some slots →
        m.run host n w = (halt, w.after m.home slots' d) := by
  induction n generalizing m slots with
  | zero =>
    refine ⟨.timeout, slots, 0, trivial, hs, fun w hw => ?_⟩
    rw [World.after_self hw]
    rfl
  | succ n ih =>
    obtain ⟨move, slots₁, d, hmove, hs₁, hstep⟩ := step_local hh hm hc n hs
    -- the step was not the last
    have hon : ∀ {m₁ : Machine} {slots₂ : List Value} (d : Notes), m.Later m₁ →
        (∀ v ∈ slots₂, v.IsPlain) →
        (∀ w : World σ κ, w.slotsAt m.home = some slots →
          m.run host (n + 1) w = m₁.run host n (w.after m.home slots₂ d)) →
        ∃ halt slots' d, halt.From m ∧ (∀ v ∈ slots', v.IsPlain) ∧
          ∀ w : World σ κ, w.slotsAt m.home = some slots →
            m.run host (n + 1) w = (halt, w.after m.home slots' d) := by
      intro m₁ slots₂ d hlater hs₂ hrun
      obtain ⟨halt, slots', d', hhalt, hs', hrun'⟩ := ih hlater.plain (hlater.chain ▸ hc) hs₂
      refine ⟨halt, slots', d + d', earlier_from hlater hhalt, hs', fun w hw => ?_⟩
      rw [hrun w hw, hrun' _ (by rw [hlater.home]; exact World.slotsAt_after hw _ _),
        hlater.home, World.after_after]
    cases move with
    | next m₁ =>
      refine hon d hmove hs₁ fun w hw => ?_
      rw [run, hstep w hw]
    | yielded v m₁ =>
      refine ⟨.yielded v m₁, slots₁, d, hmove, hs₁, fun w hw => ?_⟩
      rw [run, hstep w hw]
    | awaiting f m₁ =>
      refine ⟨.awaiting f m₁, slots₁, d, hmove, hs₁, fun w hw => ?_⟩
      rw [run, hstep w hw]
    | completed v m₁ =>
      refine ⟨.completed v m₁, slots₁, d, hmove, hs₁, fun w hw => ?_⟩
      rw [run, hstep w hw]
    | timeout =>
      refine ⟨.timeout, slots₁, d, trivial, hs₁, fun w hw => ?_⟩
      rw [run, hstep w hw]
    | fault f m₁ =>
      have hw₁ : ∀ w : World σ κ, w.slotsAt m.home = some slots →
          (w.after m.home slots₁ d).slotsAt m₁.home = some slots₁ := by
        intro w hw
        rw [hmove.1.home]
        exact World.slotsAt_after hw _ _
      have hhandle : (∀ w : World σ κ, m₁.handle f w = none) ∨ _ :=
        handle_local hmove.1.plain hmove.2 hs₁
      rcases hhandle with hnone | ⟨m₂, slots₂, d', hlater, hs₂, hsome⟩
      · refine ⟨.fault f m₁, slots₁, d, hmove, hs₁, fun w hw => ?_⟩
        rw [run, hstep w hw]
        simp only [hnone]
      · refine hon (d + d') (hmove.1.trans hlater) hs₂ fun w hw => ?_
        rw [run, hstep w hw]
        simp only [hsome _ (hw₁ w hw)]
        rw [hmove.1.home, World.after_after]

end Machine

/-! Segments. -/

variable {σ κ : Type}

/-- The machine runs to a pause or to its end, whatever else is in the world. -/
structure Segment (host : Host σ κ) (m : Machine) (slots : List Value) (halt : Halt)
    (slots' : List Value) : Prop where
  ends : halt ≠ .timeout
  later : halt.From m
  plain : ∀ v ∈ slots', v.IsPlain
  run : ∃ least d, ∀ n, least ≤ n → ∀ w : World σ κ, w.slotsAt m.home = some slots →
    m.run host n w = (halt, w.after m.home slots' d)

theorem Segment.unique {host : Host σ κ} {m : Machine} {slots slots₁ slots₂ : List Value}
    {halt₁ halt₂ : Halt} (h₁ : Segment host m slots halt₁ slots₁)
    (h₂ : Segment host m slots halt₂ slots₂) {w : World σ κ} (hw : w.slotsAt m.home = some slots) :
    halt₁ = halt₂ ∧ slots₁ = slots₂ := by
  obtain ⟨l₁, d₁, hr₁⟩ := h₁.run
  obtain ⟨l₂, d₂, hr₂⟩ := h₂.run
  have heq := (hr₁ (max l₁ l₂) (Nat.le_max_left ..) w hw).symm.trans
    (hr₂ (max l₁ l₂) (Nat.le_max_right ..) w hw)
  obtain ⟨hhalt, hworld⟩ := Prod.mk.inj heq
  refine ⟨hhalt, ?_⟩
  have hslots := congrArg (World.slotsAt · m.home) hworld
  simp only [World.slotsAt_after hw] at hslots
  exact Option.some.inj hslots

/-- A run that ends is a segment. -/
theorem Machine.segment {host : Host σ κ} {answer : String → List Value → Outcome}
    (hh : host.IsPure answer) {m : Machine} (hm : m.IsPlain) {size : Nat}
    (hc : ∀ st ∈ m.chain.states, st.Runs false size) {n : Nat} {slots : List Value}
    (hs : ∀ v ∈ slots, v.IsPlain) {w w' : World σ κ} (hw : w.slotsAt m.home = some slots)
    {halt : Halt} (hrun : m.run host n w = (halt, w')) (hend : halt ≠ .timeout) :
    ∃ slots' d, Segment host m slots halt slots' ∧ w' = w.after m.home slots' d := by
  obtain ⟨halt', slots', d, hhalt, hs', hlocal⟩ := run_local hh hm hc n hs
  obtain ⟨rfl, rfl⟩ := Prod.mk.inj (hrun.symm.trans (hlocal w hw))
  refine ⟨slots', d, ⟨hend, hhalt, hs', n, d, fun k hk u hu => ?_⟩, rfl⟩
  rw [run_of_le hk (by rw [hlocal u hu]; exact hend), hlocal u hu]

end Resumable

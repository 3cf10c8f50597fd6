import Resumable.Proofs.Phases

namespace Resumable

open List

variable {p p' : Phase} {answer : String → List Value → Outcome} {due : Prop} {halt : Halt}
  {m' : Machine}

theorem World.settle?_none {σ κ : Type} {w : World σ κ} {f : FutureId} {o : Outcome}
    (h : w.settle? f o = none) (hf : f < w.futures.size) : w.outcome? f ≠ none := by
  intro hnone
  have hcell := Array.getElem?_eq_getElem hf
  rw [outcome?, hcell] at hnone
  rw [settle?_pending hcell hnone] at h
  cases h

/-- A machine that has stopped for good leaves its task with one thing to do. -/
theorem Task.proceed_verdict {σ κ : Type} (host : Host σ κ) {m : Machine} {o : Outcome}
    (hv : halt.verdict? = some o) (hm : halt.From m) :
    ∃ m' rest d, m'.home = m.home ∧ ∀ n r (w : World σ κ),
      proceed host n r halt w = finish host n m' rest r o { w with defects := w.defects + d } := by
  cases halt with
  | completed v m' =>
    cases hv
    exact ⟨m', [], 0, hm.1.home, fun _ _ _ => rfl⟩
  | fault f m' =>
    cases hv
    exact ⟨m', [], 0, hm.1.home, fun _ _ _ => rfl⟩
  | yielded v m' =>
    cases hv
    exact ⟨m', [v], 1, hm.1.home, fun _ _ _ => rfl⟩
  | awaiting | timeout => cases hv

namespace Interleaving

variable {σ κ : Type}

/-- A task that is due is dealt with. Another one stays as it is, or it waits, and may be woken and
dealt with. -/
def Phase.Goes (due : Prop) (p p' : Phase) : Prop :=
  (¬due ∧ p' = p) ∨ ((due ∨ p.isParked = true) ∧ p.stage < p'.stage ∧ p'.isCalm = true)

theorem Phase.Goes.of_due (h : p.Goes due p') (hdue : due) :
    p.stage < p'.stage ∧ p'.isCalm = true := by
  rcases h with h | h
  · exact absurd hdue h.1
  · exact h.2

theorem Phase.Goes.stage_le (h : p.Goes due p') : p.stage ≤ p'.stage := by
  rcases h with ⟨-, rfl⟩ | h
  · exact Nat.le_refl _
  · exact Nat.le_of_lt h.2.1

theorem Phase.Goes.trans {due' : Prop} {p₁ : Phase} (h : p.Goes due p₁) (h' : p₁.Goes due' p') :
    p.Goes (due ∨ due') p' := by
  rcases h with ⟨hnot, rfl⟩ | ⟨hwhy, hlt, hcalm⟩
  · rcases h' with ⟨hnot', rfl⟩ | ⟨hwhy', hstep⟩
    · exact .inl ⟨not_or.mpr ⟨hnot, hnot'⟩, rfl⟩
    · exact .inr ⟨hwhy'.imp_left .inr, hstep⟩
  · rcases h' with ⟨-, rfl⟩ | ⟨-, hlt', hcalm'⟩
    · exact .inr ⟨hwhy.imp_left .inl, hlt, hcalm⟩
    · exact .inr ⟨hwhy.imp_left .inl, Nat.lt_trans hlt hlt', hcalm'⟩

/-- What has happened when those that were due have been dealt with. -/
structure Progress (host : Host σ κ) (w₀ : World σ κ) (acts : List Act) (due : FutureId → Prop)
    (w : World σ κ) (phase : Phases) (w' : World σ κ) (phase' : Phases) : Prop where
  account : Account host w₀ acts w' phase'
  grows : Extends w.outcome? w'.outcome?
  tasks : ∀ t, .run t ∈ acts → (phase t.result).Goes (due t.result) (phase' t.result)

/-- These are the continuations of tasks that have been called with an outcome. -/
def Called (acts : List Act) (phase : Phases) (o : Outcome) (ks : List (Continuation κ)) : Prop :=
  ∀ c ∈ ks, ∃ t k m, .run t ∈ acts ∧ c = .resume m t.result ∧
    phase t.result = .called k { m with resumption := some o }

section

variable {host : Host σ κ} {w₀ w w₁ w' : World σ κ} {acts : List Act} {phase phase₁ phase' : Phases}
  {t : Task} {k : Nat} {m : Machine} {f : FutureId} {o : Outcome} {ks : List (Continuation κ)}

theorem Progress.trans {due due₁ due₂ : FutureId → Prop}
    (h₁ : Progress host w₀ acts due₁ w phase w₁ phase₁)
    (h₂ : Progress host w₀ acts due₂ w₁ phase₁ w' phase') (hdue : ∀ r, due r ↔ due₁ r ∨ due₂ r) :
    Progress host w₀ acts due w phase w' phase' := by
  refine ⟨h₂.account, fun g x hx => h₂.grows g x (h₁.grows g x hx), fun t ht => ?_⟩
  rw [hdue]
  exact (h₁.tasks t ht).trans (h₂.tasks t ht)

theorem Progress.hands {due : FutureId → Prop} {held before : List (Holding κ)}
    (h : Progress host w₀ acts due (w.grasp held) phase w' phase') :
    Progress host w₀ acts due w phase (w'.letGo before) phase' :=
  ⟨h.account.congr rfl rfl, h.grows, h.tasks⟩

/-- A task that has gone on is still due. -/
theorem Progress.after_update
    (h : Progress host w₀ acts (· = t.result) w₁ (Function.update phase t.result p) w' phase')
    (hp : (phase t.result).stage < p.stage) (hout : w₁.outcome? = w.outcome?) :
    Progress host w₀ acts (· = t.result) w phase w' phase' := by
  refine ⟨h.account, by rw [← hout]; exact h.grows, fun t' ht' => ?_⟩
  have hgoes := h.tasks t' ht'
  by_cases heq : t'.result = t.result
  · rw [heq, Function.update_self] at hgoes
    rw [heq]
    obtain ⟨hlt, hcalm⟩ := hgoes.of_due rfl
    exact .inr ⟨.inl rfl, Nat.lt_trans hp hlt, hcalm⟩
  · rw [Function.update_of_ne heq] at hgoes
    exact hgoes

/-- Those that have been called and are not due yet are untouched. -/
theorem Progress.called {r : FutureId} (h : Progress host w₀ acts (· = r) w phase w' phase')
    (hc : Called acts phase o ks) (hr : r ∉ ks.map Continuation.owner) :
    Called acts phase' o ks := by
  intro c hmem
  obtain ⟨t, k, m, ht, rfl, hp⟩ := hc c hmem
  refine ⟨t, k, m, ht, rfl, ?_⟩
  rcases h.tasks t ht with ⟨-, heq⟩ | ⟨hdue | hparked, -⟩
  · rw [heq, hp]
  · exact absurd (mem_map.mpr ⟨_, hmem, hdue⟩) hr
  · rw [hp] at hparked
    cases hparked

namespace Account

section

variable (h : Account host w₀ acts w phase)
include h

theorem grasp (held : List (Holding κ)) : Account host w₀ acts (w.grasp held) phase :=
  h.congr rfl rfl

theorem letGo (before : List (Holding κ)) : Account host w₀ acts (w.letGo before) phase :=
  h.congr rfl rfl

theorem called (hs : w.settle? f o = some (ks, w')) :
    Called acts (woken phase f o) o ks ∧ (ks.map Continuation.owner).Nodup := by
  obtain ⟨cell, hf, -, rfl, -⟩ := World.settle?_some hs
  refine ⟨fun c hc => ?_, h.once f cell hf⟩
  obtain ⟨t, k, m, ht, rfl, hphase⟩ := h.waiting f cell hf c hc
  refine ⟨t, k + 1, m, ht, rfl, ?_⟩
  simp only [woken, hphase, if_true]

theorem settled (hw₀ : Ready w₀ acts)
    (hdue : Due acts phase f o) (hs : w.settle? f o = some (ks, w₁))
    (hd : Progress host w₀ acts (· ∈ ks.map Continuation.owner) w₁ (woken phase f o) w' phase') :
    Progress host w₀ acts (· = f) w phase w' phase' := by
  obtain ⟨cell, hf, hnone, hks, -⟩ := World.settle?_some hs
  have hout := World.outcome?_settle? hs
  refine ⟨hd.account, fun g x hx => hd.grows g x ?_, fun t ht => ?_⟩
  · rw [hout, Function.update_of_ne]
    · exact hx
    · rintro rfl
      rw [World.outcome?, hf, Option.bind_some, hnone] at hx
      cases hx
  have hgoes := hd.tasks t ht
  by_cases heq : t.result = f
  · obtain ⟨k, hphase⟩ := hdue.task_ended hw₀ ht heq
    simp only [woken, hphase, if_pos heq] at hgoes
    rw [hphase]
    refine .inr ⟨.inl heq, Nat.lt_of_lt_of_le (Nat.lt_succ_self (2 * k + 2)) hgoes.stage_le, ?_⟩
    rcases hgoes with ⟨-, hp⟩ | ⟨-, -, hcalm⟩
    · rw [hp]
      rfl
    · exact hcalm
  by_cases hmem : t.result ∈ ks.map Continuation.owner
  · -- it waited on this future
    obtain ⟨c, hc, hr⟩ := mem_map.mp hmem
    obtain ⟨t', k, m, ht', rfl, hphase⟩ := h.waiting f cell hf c (hks ▸ hc)
    have hphase' : phase t.result = .parked k f m := by
      rw [← hphase]
      exact congrArg phase hr.symm
    simp only [woken, hphase', if_true] at hgoes
    obtain ⟨hlt, hcalm⟩ := hgoes.of_due hmem
    rw [hphase']
    refine .inr ⟨.inr rfl, Nat.lt_trans ?_ hlt, hcalm⟩
    simp only [Phase.stage]
    omega
  · have hsame : woken phase f o t.result = phase t.result := by
      unfold woken
      cases hphase : phase t.result with
      | parked k g m =>
        refine if_neg ?_
        rintro rfl
        obtain ⟨-, hwaits⟩ := h.parked t k g m ht hphase
        exact hmem (mem_map.mpr ⟨_, hks ▸ hwaits cell hf, rfl⟩)
      | ended k o' => exact if_neg heq
      | fresh | called | gone => rfl
    rw [hsame] at hgoes
    rcases hgoes with ⟨-, hp⟩ | ⟨hwhy, hrest⟩
    · exact .inl ⟨heq, hp⟩
    · exact .inr ⟨.inr (hwhy.resolve_left hmem), hrest⟩

theorem called_segment (hw₀ : Ready w₀ acts)
    (hh : host.IsPure answer) (ht : .run t ∈ acts) (hp : phase t.result = .called k m) {n : Nat}
    {held : List (Holding κ)} (hrun : m.run host n (w.grasp held) = (halt, w'))
    (hend : halt ≠ .timeout) :
    ∃ slots slots' d, w.slotsAt t.machine.home = some slots ∧
      Reaches host w₀ w.outcome? t k m slots ∧ Segment host m slots halt slots' ∧
      w' = (w.grasp held).after t.machine.home slots' d := by
  have hstands := h.stands t ht
  rw [hp] at hstands
  obtain ⟨-, slots, hslots, hreach⟩ := hstands
  obtain ⟨hlater, hplain⟩ := hreach.later hw₀ ht h.plain
  obtain ⟨size, hchain⟩ := hw₀.chain t ht
  rw [← hlater.chain] at hchain
  rw [← hreach.home] at hslots ⊢
  obtain ⟨slots', d, hseg, rfl⟩ := Machine.segment hh hlater.plain hchain hplain
    (w := w.grasp held) hslots hrun hend
  exact ⟨slots, slots', d, hslots, hreach, hseg, rfl⟩

end

/-! What a called task does next. Its machine has run, and so its slots have changed. -/

section

variable (h : Account host w₀ acts w phase) (hw₀ : Ready w₀ acts) (ht : .run t ∈ acts)
  (hp : phase t.result = .called k m) {slots slots' : List Value}
  (hslots : w.slotsAt t.machine.home = some slots)
  (hreach : Reaches host w₀ w.outcome? t k m slots)
include h hw₀ ht hp hslots hreach

theorem resumes (hseg : Segment host m slots (.awaiting f m') slots') (ho : w.outcome? f = some o)
    (d : Notes) :
    Account host w₀ acts (w.after t.machine.home slots' d)
      (Function.update phase t.result (.called (k + 1) { m' with resumption := some o })) := by
  have hstands := h.stands t ht
  rw [hp] at hstands
  have hfutures : (w.after t.machine.home slots' d).futures = w.futures := rfl
  have hnew : Stands host w₀ (w.after t.machine.home slots' d) t
      (.called (k + 1) { m' with resumption := some o }) :=
    ⟨hstands.1, slots', World.slotsAt_after hslots _ _, hreach.pass hseg ho⟩
  exact h.update hw₀ ht hfutures (fun home hne => World.slotsAt_after_of_ne hne _ _)
    (by rw [hp]; rfl) rfl hnew

theorem parks (hseg : Segment host m slots (.awaiting f m') slots') (ho : w.outcome? f = none)
    (d : Notes) :
    Account host w₀ acts ((w.after t.machine.home slots' d).suspend f m' t.result)
      (Function.update phase t.result (.parked k f m')) := by
  have hstands := h.stands t ht
  rw [hp] at hstands
  have hslotsAt : ∀ home, ((w.after t.machine.home slots' d).suspend f m' t.result).slotsAt home =
      (w.after t.machine.home slots' d).slotsAt home := by
    intro home
    simp only [World.slotsAt, World.suspend, World.await, Array.getElem?_modify]
    split <;> simp [Function.comp_def]
  have hout : ((w.after t.machine.home slots' d).suspend f m' t.result).outcome? = w.outcome? :=
    World.outcome?_await ..
  refine h.park hw₀ ht (fun home hne => ?_) (by rw [hp]; rfl) rfl ho
    ⟨by rw [hout]; exact hstands.1, m, slots, slots', ?_, by rw [hout]; exact hreach, hseg⟩
  · rw [hslotsAt]
    exact World.slotsAt_after_of_ne hne _ _
  · rw [hslotsAt]
    exact World.slotsAt_after hslots _ _

omit hslots in
theorem ends (hseg : Segment host m slots halt slots') (hv : halt.verdict? = some o) (d : Notes)
    (d' : Nat) : let w' := w.after t.machine.home slots' d
    Account host w₀ acts { w' with defects := w'.defects + d' }
      (Function.update phase t.result (.ended k o)) := by
  have hstands := h.stands t ht
  rw [hp] at hstands
  have hfutures : (w.after t.machine.home slots' d).futures = w.futures := rfl
  have hnew : Stands host w₀ (w.after t.machine.home slots' d) t (.ended k o) :=
    ⟨hstands.1, m, slots, halt, slots', hreach, hseg, hv⟩
  have hw' := h.update hw₀ ht hfutures (fun home hne => World.slotsAt_after_of_ne hne _ _)
    (by rw [hp]; rfl) rfl hnew
  exact hw'.congr rfl rfl

end

theorem release (h : Account host w₀ acts w phase) (hw₀ : Ready w₀ acts) (ht : .run t ∈ acts)
    (hp : phase t.result = .gone k) :
    Account host w₀ acts (w.release t.machine.home) phase := by
  have hstands := h.stands t ht
  rw [hp] at hstands
  have hslots : ∀ home, home ≠ t.machine.home →
      (w.release t.machine.home).slotsAt home = w.slotsAt home := by
    intro home hne
    simp [World.slotsAt, World.release, Array.getElem?_modify, Ne.symm hne]
  have hfutures : (w.release t.machine.home).futures = w.futures := rfl
  have hnew : Stands host w₀ (w.release t.machine.home) t (.gone k) := hstands
  have hw' := h.update hw₀ ht hfutures hslots (by rw [hp]; rfl) rfl hnew
  rwa [← hp, Function.update_eq_self] at hw'

/-- A calm task whose future is settled is over. -/
theorem gone_of_settled (h : Account host w₀ acts w phase) (ht : .run t ∈ acts)
    (hcalm : (phase t.result).isCalm = true) (ho : w.outcome? t.result ≠ none) :
    ∃ k, phase t.result = .gone k := by
  have hstands := h.stands t ht
  cases hp : phase t.result with
  | gone k => exact ⟨k, rfl⟩
  | parked =>
    rw [hp] at hstands
    exact absurd hstands.1 ho
  | fresh | called | ended =>
    rw [hp] at hcalm
    cases hcalm

end Account

end

/-! What has happened when a computation has ended. -/

/-- With so many steps, those that are due are dealt with. -/
structure DealsWith (host : Host σ κ) (w₀ : World σ κ) (acts : List Act) (n : Nat) : Prop where
  settle : ∀ {w w' phase f o fresh}, Account host w₀ acts w phase → Due acts phase f o →
    Task.settle host n f o w = .ok fresh w' →
    w'.outcome? f ≠ none ∧ ∃ phase', Progress host w₀ acts (· = f) w phase w' phase'
  deliver : ∀ {w w' phase f o ks}, Account host w₀ acts w phase → Called acts phase o ks →
    (ks.map Continuation.owner).Nodup → Task.deliver host n f o ks w = .ok () w' →
    ∃ phase', Progress host w₀ acts (· ∈ ks.map Continuation.owner) w phase w' phase'
  drive : ∀ {w w' phase t k m}, Account host w₀ acts w phase → .run t ∈ acts →
    phase t.result = .called k m → Task.drive host n m t.result w = .ok () w' →
    ∃ phase', Progress host w₀ acts (· = t.result) w phase w' phase'
  finish : ∀ {w w' phase t k m rest o}, Account host w₀ acts w phase → .run t ∈ acts →
    phase t.result = .ended k o → m.home = t.machine.home →
    Task.finish host n m rest t.result o w = .ok () w' →
    ∃ phase', Progress host w₀ acts (· = t.result) w phase w' phase'

namespace DealsWith

variable {host : Host σ κ} {w₀ w w' : World σ κ} {acts : List Act} {phase : Phases} {n : Nat}

theorem zero : DealsWith host w₀ acts 0 := by
  constructor
  · intro w w' phase f o fresh _ _ h
    cases h
  · intro w w' phase f o ks _ _ _ h
    cases h
  · intro w w' phase t k m _ _ _ h
    cases h
  · intro w w' phase t k m rest o _ _ _ _ h
    cases h

theorem settle_succ (hw₀ : Ready w₀ acts) (hn : DealsWith host w₀ acts n) {f : FutureId}
    {o : Outcome} {fresh : Bool} (h : Account host w₀ acts w phase) (hdue : Due acts phase f o)
    (hs : Task.settle host (n + 1) f o w = .ok fresh w') :
    w'.outcome? f ≠ none ∧ ∃ phase', Progress host w₀ acts (· = f) w phase w' phase' := by
  rcases Task.settle_ok hs with ⟨hnone, -, rfl⟩ | ⟨k, ks, w₁, hk, hsome, -, hd⟩
  · have hf : f < w'.futures.size := by
      rw [h.size]
      cases hdue with
      | source ha => exact hw₀.subject_lt ha
      | task ht => exact hw₀.subject_lt ht
    have hout := World.settle?_none hnone hf
    refine ⟨hout, phase, h, fun _ _ => id, fun t ht => .inl ⟨?_, rfl⟩⟩
    rintro rfl
    obtain ⟨k, hp⟩ := hdue.task_ended hw₀ ht rfl
    have hstands := h.stands t ht
    rw [hp] at hstands
    exact hout hstands.1
  · cases hk
    obtain ⟨hcalled, hnodup⟩ := h.called hsome
    obtain ⟨phase', hprog⟩ := hn.deliver (h.settle hw₀ hdue hsome) hcalled hnodup hd
    refine ⟨?_, phase', h.settled hw₀ hdue hsome hprog⟩
    have ho := hprog.grows f o (by rw [World.outcome?_settle? hsome, Function.update_self])
    rw [ho]
    exact nofun

theorem deliver_succ (hn : DealsWith host w₀ acts n) {f : FutureId} {o : Outcome}
    {ks : List (Continuation κ)} (h : Account host w₀ acts w phase) (hc : Called acts phase o ks)
    (hnodup : (ks.map Continuation.owner).Nodup)
    (hd : Task.deliver host (n + 1) f o ks w = .ok () w') :
    ∃ phase', Progress host w₀ acts (· ∈ ks.map Continuation.owner) w phase w' phase' := by
  cases ks with
  | nil =>
    obtain rfl := Task.deliver_nil hd
    exact ⟨phase, h, fun _ _ => id, fun t ht => .inl ⟨not_mem_nil, rfl⟩⟩
  | cons c ks =>
    obtain ⟨⟨t, k, m, ht, rfl, hp⟩, hrest⟩ := forall_mem_cons.mp hc
    obtain ⟨hnot, hnodup⟩ := nodup_cons.mp hnodup
    obtain ⟨_, w₁, hk, hdrive, hd⟩ := Task.deliver_resume hd
    cases hk
    obtain ⟨phase₁, hfirst⟩ := hn.drive (h.grasp _) ht hp hdrive
    obtain ⟨phase', hlater⟩ :=
      hn.deliver (hfirst.account.letGo _) (hfirst.called hrest hnot) hnodup hd
    refine ⟨phase', hfirst.hands.trans hlater fun r => ?_⟩
    rw [map_cons, mem_cons]
    rfl

theorem finish_succ (hw₀ : Ready w₀ acts) (hn : DealsWith host w₀ acts n) {t : Task} {k : Nat}
    {m : Machine} {rest : List Value} {o : Outcome} (h : Account host w₀ acts w phase)
    (ht : .run t ∈ acts) (hp : phase t.result = .ended k o) (hm : m.home = t.machine.home)
    (hf : Task.finish host (n + 1) m rest t.result o w = .ok () w') :
    ∃ phase', Progress host w₀ acts (· = t.result) w phase w' phase' := by
  obtain ⟨_, fresh, w₁, hk, hs, rfl⟩ := Task.finish_ok hf
  cases hk
  obtain ⟨hout, phase', hprog⟩ := hn.settle (h.grasp _) (.task ht hp) hs
  have hcalm := ((hprog.tasks t ht).of_due rfl).2
  obtain ⟨k', hgone⟩ := hprog.account.gone_of_settled ht hcalm hout
  rw [hm]
  have hw' := (hprog.account.letGo w.hands).release hw₀ ht hgone
  exact ⟨phase', hw'.congr rfl rfl, hprog.grows, hprog.tasks⟩

theorem drive_succ (hw₀ : Ready w₀ acts) (hh : host.IsPure answer) (hn : DealsWith host w₀ acts n)
    {t : Task} {k : Nat} {m : Machine} (h : Account host w₀ acts w phase) (ht : .run t ∈ acts)
    (hp : phase t.result = .called k m) (hd : Task.drive host (n + 1) m t.result w = .ok () w') :
    ∃ phase', Progress host w₀ acts (· = t.result) w phase w' phase' := by
  have h : Account host w₀ acts (Task.noteRun t.result m w) phase := h.congr rfl rfl
  rcases hrun : m.run host n ((Task.noteRun t.result m w).grasp [.future t.result]) with ⟨halt, w₁⟩
  rw [Task.drive_succ hrun] at hd
  have hend : halt ≠ .timeout := by
    rintro rfl
    cases hd
  obtain ⟨slots, slots', d, hslots, hreach, hseg, rfl⟩ :=
    h.called_segment hw₀ hh ht hp hrun hend
  change Task.proceed host n t.result halt
    ((Task.noteRun t.result m w).after t.machine.home slots' d) = _ at hd
  have hstage : ∀ p : Phase, 2 * k + 1 < p.stage → (phase t.result).stage < p.stage := by
    rw [hp]
    exact fun _ => id
  cases hv : halt.verdict? with
  | some o =>
    obtain ⟨m', rest, d', hhome, hproceed⟩ := Task.proceed_verdict host hv hseg.later
    rw [hproceed] at hd
    obtain ⟨phase', hprog⟩ := hn.finish (h.ends hw₀ ht hp hreach hseg hv d d') ht
      (Function.update_self ..) (hhome.trans hreach.home) hd
    exact ⟨phase', hprog.after_update (hstage _ (Nat.lt_succ_self _)) rfl⟩
  | none =>
    cases halt with
    | awaiting f m' =>
      cases ho : w.outcome? f with
      | some o =>
        replace hd := (hd.symm.trans (Task.proceed_settled ho)).symm
        obtain ⟨phase', hprog⟩ := hn.drive (h.resumes hw₀ ht hp hslots hreach hseg ho d) ht
          (Function.update_self ..) hd
        refine ⟨phase', hprog.after_update (hstage _ ?_) rfl⟩
        simp only [Phase.stage]
        omega
      | none =>
        cases hd.symm.trans (Task.proceed_pending ho)
        have hw' := h.parks hw₀ ht hp hslots hreach hseg ho d
        refine ⟨_, hw'.congr rfl rfl, fun g x hx => ?_, fun t' ht' => ?_⟩
        · exact (congrFun (World.outcome?_await ..) g).trans hx
        · by_cases heq : t'.result = t.result
          · rw [heq, Function.update_self]
            exact .inr ⟨.inl rfl, hstage _ (Nat.lt_succ_self _), rfl⟩
          · rw [Function.update_of_ne heq]
            exact .inl ⟨heq, rfl⟩
    | timeout => exact absurd rfl hend
    | completed | fault | yielded => cases hv

end DealsWith

theorem dealsWith {host : Host σ κ} {w₀ : World σ κ} {acts : List Act} (hw₀ : Ready w₀ acts)
    (hh : host.IsPure answer) (n : Nat) : DealsWith host w₀ acts n := by
  induction n with
  | zero => exact .zero
  | succ n ih =>
    exact ⟨ih.settle_succ hw₀, ih.deliver_succ, ih.drive_succ hw₀ hh, ih.finish_succ hw₀⟩

end Interleaving

end Resumable

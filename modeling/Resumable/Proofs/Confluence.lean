import Resumable.Proofs.Equality
import Resumable.Proofs.Progress

namespace Resumable

open List

/-- A task ends when its machine stops and what comes then ends. -/
theorem Segment.drive_ends {σ κ : Type} {host : Host σ κ} {m : Machine} {slots slots' : List Value}
    {halt : Halt} (h : Segment host m slots halt slots') {w : World σ κ}
    (hw : w.slotsAt m.home = some slots) (r : FutureId) :
    ∃ d, ∀ w', Task.Ends (fun _ n => Task.proceed host n r halt)
        ((Task.noteRun r m w).after m.home slots' d) () w' →
      Task.Ends (fun _ n => Task.drive host n m r) w () w' := by
  obtain ⟨least, d, hrun⟩ := h.run
  refine ⟨d, fun w' ⟨l, hl⟩ => ⟨max l least + 1, fun i n hi hn => ?_⟩⟩
  obtain ⟨n, rfl⟩ : ∃ k, n = k + 1 := ⟨n - 1, by omega⟩
  show Task.drive host (n + 1) m r w = _
  rw [Task.drive_succ (hrun n (by omega) ((Task.noteRun r m w).grasp [.future r]) hw)]
  exact hl i n (by omega) (by omega)

namespace Interleaving

variable {σ κ : Type} {host : Host σ κ} {w₀ w w' : World σ κ} {acts : List Act}
  {phase phase' : Phases}
variable {len : FutureId → Nat} {top : Outcomes}

/-! How far tasks can come. -/

/-- With these outcomes every task comes to its end or to a future without outcome, after so many
awaits. -/
structure Limit (host : Host σ κ) (w₀ : World σ κ) (acts : List Act) (top : Outcomes)
    (len : FutureId → Nat) : Prop where
  closed : Closed host w₀ acts top
  segment : ∀ t k m slots, .run t ∈ acts → Reaches host w₀ top t k m slots →
    ∃ halt slots', Segment host m slots halt slots'
  bound : ∀ t k m slots, .run t ∈ acts → Reaches host w₀ top t k m slots → k ≤ len t.result

/-- On the way there is a segment from each place to the next. -/
theorem Reaches.segment_of_lt {out : Outcomes} {t : Task} {j k : Nat} {m m' : Machine}
    {slots slots' : List Value} (h : Reaches host w₀ out t k m slots)
    (h' : Reaches host w₀ out t j m' slots') (hjk : j < k) (hw₀ : Ready w₀ acts)
    (ht : .run t ∈ acts) : ∃ halt slots₁, Segment host m' slots' halt slots₁ := by
  induction h with
  | start => exact absurd hjk (Nat.not_lt_zero j)
  | pass h hs ho ih =>
    rcases Nat.lt_or_eq_of_le (Nat.le_of_lt_succ hjk) with hlt | rfl
    · exact ih hlt
    · obtain ⟨rfl, rfl⟩ := h'.unique h hw₀ ht
      exact ⟨_, _, hs⟩

theorem Account.last (h : Account host w₀ acts w phase) {t : Task} (ht : .run t ∈ acts)
    (hcalm : (phase t.result).isCalm = true) : ∃ k m slots halt slots',
      Reaches host w₀ w.outcome? t k m slots ∧ Segment host m slots halt slots' ∧
      (∀ f m', halt = .awaiting f m' → w.outcome? f = none) ∧
      ∀ o, halt.verdict? = some o → w.outcome? t.result = some o := by
  have hstands := h.stands t ht
  cases hp : phase t.result with
  | parked k f m' =>
    rw [hp] at hstands
    obtain ⟨-, m, slots, slots', -, hreach, hseg⟩ := hstands
    refine ⟨k, m, slots, _, slots', hreach, hseg, ?_, nofun⟩
    rintro g m₁ ⟨⟩
    exact (h.parked t k f m' ht hp).1
  | gone k =>
    rw [hp] at hstands
    obtain ⟨m, slots, halt, slots', o, hreach, hseg, hv, ho⟩ := hstands
    refine ⟨k, m, slots, halt, slots', hreach, hseg, ?_, fun o' ho' => ?_⟩
    · rintro g m₁ rfl
      cases hv
    · cases hv.symm.trans ho'
      exact ho
  | fresh | called | ended =>
    rw [hp] at hcalm
    cases hcalm

/-- When nothing is left to do, all that must come about has come about. -/
theorem Account.limit (h : Account host w₀ acts w phase) (hw₀ : Ready w₀ acts)
    (hcalm : ∀ t, .run t ∈ acts → (phase t.result).isCalm = true)
    (hsettled : ∀ f o, .settle f o ∈ acts → w.outcome? f = some o) :
    ∃ len, Limit host w₀ acts w.outcome? len := by
  have hbound : ∀ r, ∃ b, ∀ t k m slots, .run t ∈ acts → t.result = r →
      Reaches host w₀ w.outcome? t k m slots → k ≤ b := by
    intro r
    by_cases hr : ∃ t, .run t ∈ acts ∧ t.result = r
    · obtain ⟨t, ht, rfl⟩ := hr
      obtain ⟨b, m, slots, halt, slots', hreach, hseg, hstuck, -⟩ := h.last ht (hcalm t ht)
      refine ⟨b, fun t' k m' slots₁ ht' hr hreach' => ?_⟩
      cases hw₀.act_unique ht' ht hr
      exact hreach'.le_of_stuck hreach hseg hstuck hw₀ ht
    · exact ⟨0, fun t k m slots ht hr' => absurd ⟨t, ht, hr'⟩ hr⟩
  choose len hlen using hbound
  refine ⟨len, ⟨h.ready, hsettled, ?_⟩, ?_, fun t k m slots ht => hlen _ t k m slots ht rfl⟩
  · intro t k m slots halt slots' o ht hreach hseg hv
    obtain ⟨b, m₁, slots₁, halt₁, slots₁', hreach₁, hseg₁, hstuck, hverdict⟩ :=
      h.last ht (hcalm t ht)
    have hle := hreach.le_of_stuck hreach₁ hseg₁ hstuck hw₀ ht
    have hge := hreach₁.le_of_stuck hreach hseg (by rintro f m' rfl; cases hv) hw₀ ht
    obtain rfl := Nat.le_antisymm hle hge
    obtain ⟨rfl, rfl⟩ := hreach.unique hreach₁ hw₀ ht
    obtain ⟨u, hu⟩ := hreach.somewhere hw₀ ht
    obtain ⟨rfl, -⟩ := hseg.unique hseg₁ hu
    exact hverdict o hv
  · intro t k m slots ht hreach
    obtain ⟨b, m₁, slots₁, halt₁, slots₁', hreach₁, hseg₁, hstuck, -⟩ := h.last ht (hcalm t ht)
    rcases Nat.lt_or_eq_of_le (hreach.le_of_stuck hreach₁ hseg₁ hstuck hw₀ ht) with hlt | rfl
    · exact hreach₁.segment_of_lt hreach hlt hw₀ ht
    · obtain ⟨rfl, rfl⟩ := hreach.unique hreach₁ hw₀ ht
      exact ⟨halt₁, slots₁', hseg₁⟩

/-! The stages that are left. -/

def Act.room (len : FutureId → Nat) (phase : Phases) : Act → Nat
  | .settle .. => 0
  | .run t => 2 * len t.result + 3 - (phase t.result).stage

/-- How many stages the tasks have before them. -/
def room (acts : List Act) (len : FutureId → Nat) (phase : Phases) : Nat :=
  (acts.map (Act.room len phase)).sum

theorem Act.room_le {a : Act}
    (h : ∀ t, a = .run t → (phase t.result).stage ≤ (phase' t.result).stage) :
    a.room len phase' ≤ a.room len phase := by
  cases a with
  | settle => exact Nat.le_refl 0
  | run t => exact Nat.sub_le_sub_left (h t rfl) _

section

variable (h : ∀ t, .run t ∈ acts → (phase t.result).stage ≤ (phase' t.result).stage)
include h

theorem room_le : room acts len phase' ≤ room acts len phase := by
  refine sum_le_sum fun a ha => Act.room_le fun t ht => h t ?_
  rw [← ht]
  exact ha

theorem room_lt {t : Task} (ht : .run t ∈ acts)
    (hlt : (phase t.result).stage < (phase' t.result).stage)
    (hbound : (phase' t.result).stage ≤ 2 * len t.result + 3) :
    room acts len phase' < room acts len phase := by
  refine sum_lt_sum _ _ (fun a ha => Act.room_le fun t ht => h t ?_) ⟨.run t, ht, ?_⟩
  · rw [← ht]
    exact ha
  · simp only [Act.room]
    omega

end

theorem Limit.stage_le (hl : Limit host w₀ acts top len) (h : Account host w₀ acts w phase)
    {t : Task} (ht : .run t ∈ acts) : (phase t.result).stage ≤ 2 * len t.result + 3 := by
  have hk : ∀ {k m slots}, Reaches host w₀ w.outcome? t k m slots → k ≤ len t.result :=
    fun hreach => hl.bound t _ _ _ ht (hreach.mono (h.needed top hl.closed))
  have hstands := h.stands t ht
  cases hp : phase t.result with
  | fresh => exact Nat.zero_le _
  | called k m =>
    rw [hp] at hstands
    obtain ⟨-, slots, -, hreach⟩ := hstands
    have := hk hreach
    simp only [Phase.stage]
    omega
  | parked k f m =>
    rw [hp] at hstands
    obtain ⟨-, m₀, slots, slots', -, hreach, -⟩ := hstands
    have := hk hreach
    simp only [Phase.stage]
    omega
  | ended k o =>
    rw [hp] at hstands
    obtain ⟨-, m₀, slots, halt, slots', hreach, -⟩ := hstands
    have := hk hreach
    simp only [Phase.stage]
    omega
  | gone k =>
    rw [hp] at hstands
    obtain ⟨m₀, slots, halt, slots', o, hreach, -⟩ := hstands
    have := hk hreach
    simp only [Phase.stage]
    omega

theorem Limit.room_update (hl : Limit host w₀ acts top len) {t : Task} (ht : .run t ∈ acts)
    {p : Phase} (h : Account host w₀ acts w (Function.update phase t.result p))
    (hp : (phase t.result).stage < p.stage) :
    room acts len (Function.update phase t.result p) < room acts len phase := by
  have hnew : Function.update phase t.result p t.result = p := Function.update_self ..
  refine room_lt (fun t' _ => ?_) ht (by rw [hnew]; exact hp) (hl.stage_le h ht)
  by_cases heq : t'.result = t.result
  · rw [heq, hnew]
    exact Nat.le_of_lt hp
  · rw [Function.update_of_ne heq]

theorem room_woken {f : FutureId} {o : Outcome} :
    room acts len (woken phase f o) ≤ room acts len phase := by
  refine room_le fun t _ => ?_
  unfold woken
  cases phase t.result with
  | parked k g m =>
    simp only []
    split
    · simp only [Phase.stage]
      omega
    · exact Nat.le_refl _
  | ended k o' =>
    simp only []
    split
    · exact Nat.le_succ _
    · exact Nat.le_refl _
  | fresh | called | gone => exact Nat.le_refl _

/-! Computations that end. -/

/-- What has no more room than this comes to an end. -/
structure EndsWithin (host : Host σ κ) (w₀ : World σ κ) (acts : List Act) (len : FutureId → Nat)
    (b : Nat) : Prop where
  deliver : ∀ {w phase f o ks}, Account host w₀ acts w phase → Called acts phase o ks →
    (ks.map Continuation.owner).Nodup → room acts len phase ≤ b →
    ∃ w', Task.Ends (fun _ n => Task.deliver host n f o ks) w () w'
  drive : ∀ {w phase t k m}, Account host w₀ acts w phase → .run t ∈ acts →
    phase t.result = .called k m → room acts len phase ≤ b →
    ∃ w', Task.Ends (fun _ n => Task.drive host n m t.result) w () w'

section

variable {top : Outcomes} {len : FutureId → Nat} {b : Nat}

section

variable (hb : EndsWithin host w₀ acts len b) (hw₀ : Ready w₀ acts)
  (h : Account host w₀ acts w phase)
include hb hw₀ h

theorem EndsWithin.settle {f : FutureId} {o : Outcome} (hdue : Due acts phase f o)
    (hroom : room acts len phase ≤ b) :
    ∃ fresh w', Task.Ends (fun _ n => Task.settle host n f o) w fresh w' := by
  cases hs : w.settle? f o with
  | none =>
    exact ⟨false, w, (Task.Ends.pure false w).succ fun m n => Task.settle_refused hs⟩
  | some r =>
    obtain ⟨ks, w₁⟩ := r
    obtain ⟨hcalled, hnodup⟩ := h.called hs
    obtain ⟨w', he⟩ := hb.deliver (h.settle hw₀ hdue hs) hcalled hnodup
      (Nat.le_trans room_woken hroom)
    exact ⟨true, w', (he.andThen (.pure true w')).succ fun m n => Task.settle_pending hs⟩

theorem EndsWithin.finish {t : Task} {k : Nat} {o : Outcome} (ht : .run t ∈ acts)
    (hp : phase t.result = .ended k o) (hroom : room acts len phase ≤ b) (m : Machine)
    (rest : List Value) :
    ∃ w', Task.Ends (fun _ n => Task.finish host n m rest t.result o) w () w' := by
  obtain ⟨fresh, w₁, he⟩ := hb.settle hw₀ (h.grasp [.machine m, .values rest]) (.task ht hp) hroom
  refine ⟨_, (he.holding.bind (y := fun _ _ fresh => modify fun w =>
    (w.release m.home).record (.ends t.result fresh)) (.modify _ _)).succ fun i n => ?_⟩
  rw [Task.finish]

end

theorem Limit.drive_ends (hl : Limit host w₀ acts top len) (hw₀ : Ready w₀ acts)
    (hb : ∀ b' < b, EndsWithin host w₀ acts len b') {t : Task} {k : Nat} {m : Machine}
    (h : Account host w₀ acts w phase) (ht : .run t ∈ acts) (hp : phase t.result = .called k m)
    (hroom : room acts len phase ≤ b) :
    ∃ w', Task.Ends (fun _ n => Task.drive host n m t.result) w () w' := by
  have hstands := h.stands t ht
  rw [hp] at hstands
  obtain ⟨-, slots, hslots, hreach⟩ := hstands
  obtain ⟨halt, slots', hseg⟩ :=
    hl.segment t k m slots ht (hreach.mono (h.needed top hl.closed))
  have h : Account host w₀ acts (Task.noteRun t.result m w) phase := h.congr rfl rfl
  obtain ⟨d, hends⟩ := hseg.drive_ends (by rw [hreach.home]; exact hslots) t.result
  rw [hreach.home] at hends
  have hstage : ∀ p : Phase, 2 * k + 1 < p.stage → (phase t.result).stage < p.stage := by
    rw [hp]
    exact fun _ => id
  cases hv : halt.verdict? with
  | some o =>
    obtain ⟨m', rest, d', -, hproceed⟩ := Task.proceed_verdict host hv hseg.later
    have hw₁ := h.ends hw₀ ht hp hreach hseg hv d d'
    have hlt := hl.room_update ht hw₁ (hstage _ (Nat.lt_succ_self _))
    obtain ⟨w', he⟩ := (hb _ (Nat.lt_of_lt_of_le hlt hroom)).finish hw₀ hw₁ ht
      (Function.update_self ..) (Nat.le_refl _) m' rest
    exact ⟨w', hends w' (he.congr fun _ n => hproceed n t.result _)⟩
  | none =>
    cases halt with
    | awaiting f m' =>
      cases ho : w.outcome? f with
      | some o =>
        have hw₁ := h.resumes hw₀ ht hp hslots hreach hseg ho d
        have hlt := hl.room_update ht hw₁ (hstage _ (by simp only [Phase.stage]; omega))
        obtain ⟨w', he⟩ := (hb _ (Nat.lt_of_lt_of_le hlt hroom)).drive hw₁ ht
          (Function.update_self ..) (Nat.le_refl _)
        exact ⟨w', hends w' (he.congr fun _ n => Task.proceed_settled ho)⟩
      | none =>
        refine ⟨_, hends (((((Task.noteRun t.result m w).after t.machine.home slots' d).suspend f m'
          t.result)).record (.waits t.result f)) ((Task.Ends.pure () _).congr fun _ n => ?_)⟩
        exact Task.proceed_pending ho
    | timeout => exact absurd rfl hseg.ends
    | completed | fault | yielded => cases hv

theorem Limit.endsWithin (hl : Limit host w₀ acts top len) (hw₀ : Ready w₀ acts)
    {answer : String → List Value → Outcome} (hh : host.IsPure answer) (b : Nat) :
    EndsWithin host w₀ acts len b := by
  induction b using Nat.strongRecOn with
  | ind b ih =>
    refine ⟨?_, hl.drive_ends hw₀ ih⟩
    intro w phase f o ks h hcalled hnodup hroom
    cases ks with
    | nil =>
      refine ⟨w, (Task.Ends.pure () w).succ fun _ n => ?_⟩
      rw [Task.deliver]
    | cons c ks =>
      obtain ⟨⟨t, k, m, ht, rfl, hp⟩, hrest⟩ := forall_mem_cons.mp hcalled
      obtain ⟨hnot, hnodup⟩ := nodup_cons.mp hnodup
      obtain ⟨w₁, he₁⟩ := hl.drive_ends hw₀ ih (h.grasp [.outcome o, .waiting f ks]) ht hp hroom
      obtain ⟨phase₁, hfirst⟩ := he₁.elim fun n hn =>
        (dealsWith hw₀ hh n).drive (h.grasp _) ht hp (hn n n (Nat.le_refl n) (Nat.le_refl n))
      have hlt : room acts len phase₁ < room acts len phase :=
        room_lt (fun t' ht' => (hfirst.tasks t' ht').stage_le) ht
          ((hfirst.tasks t ht).of_due rfl).1 (hl.stage_le hfirst.account ht)
      obtain ⟨w₂, he₂⟩ := (ih _ (Nat.lt_of_lt_of_le hlt hroom)).deliver
        (hfirst.account.letGo w.hands) (hfirst.called hrest hnot) hnodup (Nat.le_refl _)
      refine ⟨w₂, (he₁.holding.andThen he₂).succ fun _ n => ?_⟩
      rw [Task.deliver]

end

/-! One act after the other. -/

/-- These acts are left, and the others have been done. -/
structure Left (host : Host σ κ) (w₀ : World σ κ) (acts : List Act) (todo : List Act)
    (w : World σ κ) (phase : Phases) : Prop where
  account : Account host w₀ acts w phase
  subset : ∀ a ∈ todo, a ∈ acts
  once : todo.Nodup
  fresh : ∀ t, .run t ∈ todo → phase t.result = .fresh
  calm : ∀ t, .run t ∈ acts → .run t ∉ todo → (phase t.result).isCalm = true
  settled : ∀ f o, .settle f o ∈ acts → .settle f o ∉ todo → w.outcome? f = some o

theorem Ready.left (h : Ready w₀ acts) {todo : List Act} (hperm : todo.Perm acts) :
    Left host w₀ acts todo w₀ fun _ => .fresh := by
  have hpending : ∀ a ∈ acts, w₀.outcome? a.subject = none := by
    intro a ha
    rw [World.outcome?, h.pending a ha]
    rfl
  have haccount : Account host w₀ acts w₀ fun _ => .fresh := by
    refine ⟨rfl, fun _ _ => id, fun f o ho => ?_, fun f o o' ha ho => ?_,
      fun top htop => htop.ready, fun f cell hf c hc => ?_, fun f cell hf => ?_,
      fun t k f m _ hp => ?_,
      fun t ht => ⟨hpending _ ht, rfl⟩⟩
    · obtain ⟨cell, hf, hcell⟩ := Option.bind_eq_some_iff.mp ho
      exact h.plain f cell hf o hcell
    · cases (hpending _ ha).symm.trans ho
    · rw [h.idle f cell hf] at hc
      cases hc
    · rw [h.idle f cell hf]
      exact nodup_nil
    · cases hp
  refine ⟨haccount, fun a => hperm.mem_iff.mp, ?_, fun _ _ => rfl, fun t ht hnot => ?_,
    fun f o ha hnot => ?_⟩
  · exact hperm.nodup_iff.mpr (List.Nodup.of_map _ h.once)
  · exact absurd (hperm.mem_iff.mpr ht) hnot
  · exact absurd (hperm.mem_iff.mpr ha) hnot

theorem Account.start (h : Account host w₀ acts w phase) (hw₀ : Ready w₀ acts) {t : Task}
    (ht : .run t ∈ acts) (hp : phase t.result = .fresh) :
    Account host w₀ acts w (Function.update phase t.result (.called 0 t.machine)) := by
  have hstands := h.stands t ht
  rw [hp] at hstands
  obtain ⟨slots, hslots, -⟩ := hw₀.slots t ht
  have hnew : Stands host w₀ w t (.called 0 t.machine) :=
    ⟨hstands.1, slots, hstands.2.trans hslots, .start hslots⟩
  exact h.update hw₀ ht rfl (fun _ _ => rfl) (by rw [hp]; rfl) rfl hnew

section

variable {a : Act} {todo : List Act}
variable {answer : String → List Value → Outcome} {len : FutureId → Nat} {n : Nat} {top : Outcomes}

/-- An act has been done, and with it all that follows from it. -/
theorem Left.next (h : Left host w₀ acts (a :: todo) w phase) (hw₀ : Ready w₀ acts)
    (hprog : Progress host w₀ acts (· = a.subject) w phase w' phase')
    (hdone : ∀ f o, a = .settle f o → w'.outcome? f = some o) :
    Left host w₀ acts todo w' phase' := by
  obtain ⟨hnot, hnodup⟩ := nodup_cons.mp h.once
  have ha := h.subset a mem_cons_self
  refine ⟨hprog.account, fun b hb => h.subset b (mem_cons_of_mem a hb), hnodup,
    fun t ht => ?_, fun t ht hleft => ?_, fun f o hf hleft => ?_⟩
  · have hfresh := h.fresh t (mem_cons_of_mem a ht)
    rcases hprog.tasks t (h.subset _ (mem_cons_of_mem a ht)) with ⟨-, heq⟩ | ⟨hdue | hpark, -⟩
    · rw [heq, hfresh]
    · obtain rfl := hw₀.act_unique (h.subset _ (mem_cons_of_mem a ht)) ha hdue
      exact absurd ht hnot
    · rw [hfresh] at hpark
      cases hpark
  · rcases hprog.tasks t ht with ⟨hdue, heq⟩ | ⟨-, -, hcalm⟩
    · rw [heq]
      refine h.calm t ht fun hmem => ?_
      rcases mem_cons.mp hmem with rfl | hmem
      · exact hdue rfl
      · exact hleft hmem
    · exact hcalm
  · by_cases heq : a = .settle f o
    · exact hdone f o heq
    · refine hprog.grows f o (h.settled f o hf fun hmem => ?_)
      rcases mem_cons.mp hmem with rfl | hmem
      · exact heq rfl
      · exact hleft hmem

theorem Left.perform (h : Left host w₀ acts (a :: todo) w phase) (hw₀ : Ready w₀ acts)
    (hh : host.IsPure answer) (hrun : a.perform host n w = .ok () w') :
    ∃ phase', Left host w₀ acts todo w' phase' := by
  have ha := h.subset a mem_cons_self
  cases a with
  | settle f o =>
    obtain ⟨fresh, _, hs, hret⟩ := bind_ok hrun
    cases hret
    obtain ⟨hout, phase', hprog⟩ := (dealsWith hw₀ hh n).settle h.account (.source ha) hs
    refine ⟨phase', h.next hw₀ hprog ?_⟩
    rintro _ _ ⟨⟩
    obtain ⟨o', ho'⟩ := Option.ne_none_iff_exists'.mp hout
    rw [ho', hprog.account.sources f o o' ha ho']
  | run t =>
    obtain ⟨r, _, hdrive, hret⟩ := bind_ok hrun
    cases hret
    obtain ⟨_, _, hdrive, hret⟩ := bind_ok hdrive
    cases hret
    have hp := h.fresh t mem_cons_self
    obtain ⟨phase', hprog⟩ := (dealsWith hw₀ hh n).drive (h.account.start hw₀ ha hp) ha
      (Function.update_self ..) hdrive
    exact ⟨phase', h.next hw₀ (hprog.after_update (by rw [hp]; exact Nat.one_pos) rfl) nofun⟩

theorem Left.performAll (h : Left host w₀ acts todo w phase) (hw₀ : Ready w₀ acts)
    (hh : host.IsPure answer) (hrun : performAll host n todo w = .ok () w') :
    ∃ phase', Left host w₀ acts [] w' phase' := by
  induction todo generalizing w phase with
  | nil =>
    cases hrun
    exact ⟨phase, h⟩
  | cons a todo ih =>
    obtain ⟨_, w₁, hfirst, hrest⟩ := bind_ok hrun
    obtain ⟨phase₁, h₁⟩ := h.perform hw₀ hh hfirst
    exact ih h₁ hrest

/-- When nothing is left, all has come about that must. -/
theorem Left.limit (h : Left host w₀ acts [] w phase) (hw₀ : Ready w₀ acts) :
    ∃ len, Limit host w₀ acts w.outcome? len :=
  h.account.limit hw₀ (fun t ht => h.calm t ht not_mem_nil)
    fun f o ha => h.settled f o ha not_mem_nil

theorem Left.perform_ends (h : Left host w₀ acts (a :: todo) w phase) (hw₀ : Ready w₀ acts)
    (hh : host.IsPure answer) (hl : Limit host w₀ acts top len) :
    ∃ w', Task.Ends (fun _ n => a.perform host n) w () w' := by
  have ha := h.subset a mem_cons_self
  have hb := hl.endsWithin hw₀ hh
  cases a with
  | settle f o =>
    obtain ⟨fresh, w', he⟩ := (hb _).settle hw₀ h.account (.source ha) (Nat.le_refl _)
    exact ⟨w', he.andThen (.pure () w')⟩
  | run t =>
    obtain ⟨w', he⟩ := (hb _).drive
      (h.account.start hw₀ ha (h.fresh t mem_cons_self)) ha (Function.update_self ..)
      (Nat.le_refl _)
    exact ⟨w', (he.andThen (.pure t.result w')).andThen (.pure () w')⟩

theorem Left.performAll_ends (h : Left host w₀ acts todo w phase) (hw₀ : Ready w₀ acts)
    (hh : host.IsPure answer) (hl : Limit host w₀ acts top len) :
    ∃ w', Task.Ends (fun _ n => Interleaving.performAll host n todo) w () w' := by
  induction todo generalizing w phase with
  | nil => exact ⟨w, .pure () w⟩
  | cons a todo ih =>
    obtain ⟨w₁, he₁⟩ := h.perform_ends hw₀ hh hl
    obtain ⟨phase₁, h₁⟩ := he₁.elim fun n hn =>
      h.perform hw₀ hh (hn n n (Nat.le_refl n) (Nat.le_refl n))
    obtain ⟨w', he₂⟩ := ih h₁
    exact ⟨w', he₁.andThen he₂⟩

end

/-- Tasks are run and sources are settled, each once. If this comes to an end in one order, then it
does so in every order, and every future has the same status and the same outcome. -/
theorem outcomes_independent_of_order {answer : String → List Value → Outcome}
    (hh : host.IsPure answer) {parts : List Part} (hparts : ∀ p ∈ parts, p.Fits) {ext : σ}
    (hc : createAll parts ({ ext } : World σ κ) = .ok (acts, w)) {one other : List Act}
    (hone : one.Perm acts) (hother : other.Perm acts) {n : Nat} {w₁ : World σ κ}
    (hrun : performAll host n one w = .ok () w₁) :
    ∃ w₂, (∃ least, ∀ k, least ≤ k → performAll host k other w = .ok () w₂) ∧
      ∀ f, w₂.status f = w₁.status f ∧ w₂.outcome? f = w₁.outcome? f := by
  have hw : Ready w acts := (Ready.empty ext).createAll hparts hc
  obtain ⟨phase₁, hleft₁⟩ := (hw.left hone).performAll hw hh hrun
  obtain ⟨len, hlimit₁⟩ := hleft₁.limit hw
  obtain ⟨w₂, least, hends⟩ := (hw.left hother).performAll_ends hw hh hlimit₁
  obtain ⟨phase₂, hleft₂⟩ :=
    (hw.left hother).performAll hw hh (hends least least (Nat.le_refl _) (Nat.le_refl _))
  obtain ⟨_, hlimit₂⟩ := hleft₂.limit hw
  have hsame : ∀ f, w₂.outcome? f = w₁.outcome? f := by
    intro f
    -- each of the two is contained in the other
    apply Option.ext
    intro o
    exact ⟨hleft₂.account.needed _ hlimit₁.closed f o, hleft₁.account.needed _ hlimit₂.closed f o⟩
  refine ⟨w₂, ⟨least, fun k hk => hends k k hk hk⟩, fun f => ⟨?_, hsame f⟩⟩
  rw [World.status, World.status, hsame]

/-- A method that awaits a number and returns the next one. -/
def relay : Method :=
  { name := "relay", params := ["p"],
    body :=
      [.bind {} "x" (.await {} (.var {} "p")),
        .ret {} (some (.binary {} .add (.var {} "x") (.int {} 1)))] }

def relayChain : Chain :=
  { name := "relay", kind := .async,
    states :=
      [{ id := 0, exit := .suspend (.await (.captured {} 0)) 1 },
        { id := 1, body := [.bind {} "x" (.resume {})],
          exit := .ret (some (.binary {} .add (.var {} "x") (.int {} 1))) none }],
    handlers := [],
    captures := ⟨[("p", ⟨0, "p", .parameter⟩)]⟩,
    params := [0] }

/-- A source, a task that awaits the other task, and this one, which awaits the source. -/
def relays : List Part :=
  [.source (.ok (.int 5)), .task relayChain [.future 2], .task relayChain [.future 0]]

def firstRelay : Task := ⟨{ chain := relayChain, home := 0 }, 1⟩

def secondRelay : Task := ⟨{ chain := relayChain, home := 1 }, 2⟩

def relayWorld : World Unit Unit :=
  { futures := #[{}, {}, {}]
    storages := #[{ slots := [.future 2], holders := 1 }, { slots := [.future 0], holders := 1 }]
    accesses := [.wrote 1 0, .wrote 0 0]
    ext := () }

def relayedWorld : World Unit Unit :=
  { futures :=
      #[{ outcome := some (.ok (.int 5)) }, { outcome := some (.ok (.int 7)) },
        { outcome := some (.ok (.int 6)) }]
    storages := #[{ slots := [], holders := 0 }, { slots := [], holders := 0 }]
    accesses := [.read 0 0, .read 1 0, .wrote 1 0, .wrote 0 0]
    history :=
      let early : FutureCell Unit := { outcome := some (.ok (.int 5)) }
      let middle : FutureCell Unit := { outcome := some (.ok (.int 6)) }
      let late : FutureCell Unit := { outcome := some (.ok (.int 7)) }
      [⟨.ends 1 true, #[early, late, middle], []⟩,
        ⟨.runs 1 (some (.ok (.int 6))), #[early, {}, middle], [.future 1]⟩,
        ⟨.runs 1 none, #[early, {}, middle], [.future 1]⟩,
        ⟨.ends 2 true, #[early, {}, middle], []⟩,
        ⟨.runs 2 (some (.ok (.int 5))), #[early, {}, {}], [.future 2]⟩,
        ⟨.runs 2 none, #[early, {}, {}], [.future 2]⟩]
    ext := () }

/-- Nobody has to wait when the source is settled first, and everybody when it is settled last. -/
theorem relays_independent_of_order :
    ∃ w, (∃ least, ∀ k, least ≤ k →
        performAll silentHost k [.run firstRelay, .run secondRelay, .settle 0 (.ok (.int 5))]
          relayWorld = .ok () w) ∧
      ∀ f, w.status f = relayedWorld.status f ∧ w.outcome? f = relayedWorld.outcome? f := by
  have hpure : silentHost.IsPure fun _ _ => .ok .unit := ⟨fun _ _ _ => rfl, fun _ _ _ => trivial⟩
  have hsplit : relay.split 10 = .ok (some relayChain) := by decide +kernel
  have hsource : relay.isSource false = true := by decide
  have htask : ∀ f, (Part.task relayChain [.future f]).Fits := by
    intro f
    refine ⟨fun v hv => ?_, relay, 10, hsource, hsplit⟩
    obtain rfl := mem_singleton.mp hv
    trivial
  have hparts : ∀ p ∈ relays, p.Fits := by
    intro p hp
    simp only [relays, mem_cons, not_mem_nil, or_false] at hp
    rcases hp with rfl | rfl | rfl
    · trivial
    · exact htask 2
    · exact htask 0
  have hcreate : createAll relays ({ ext := () } : World Unit Unit) =
      .ok ([.settle 0 (.ok (.int 5)), .run firstRelay, .run secondRelay], relayWorld) := by rfl
  have hlast : [.run firstRelay, .run secondRelay, .settle 0 (.ok (.int 5))].Perm
      [Act.settle 0 (.ok (.int 5)), .run firstRelay, .run secondRelay] :=
    (List.Perm.swap ..).symm.cons _ |>.trans (List.Perm.swap ..)
  have hrun : performAll silentHost 10 [.settle 0 (.ok (.int 5)), .run secondRelay, .run firstRelay]
      relayWorld = .ok () relayedWorld := by decide +kernel
  exact outcomes_independent_of_order hpure hparts hcreate ((List.Perm.swap ..).cons _) hlast hrun

end Interleaving

end Resumable

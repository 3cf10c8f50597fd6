import Resumable.Proofs.Runnable

namespace Resumable

open List Stmt

def Expr.isResume : Expr → Bool
  | .resume _ => true
  | _ => false

/-- The statement first receives what an await brought. -/
def Stmt.receives : Stmt → Bool
  | .bind _ _ e | .assign _ _ e | .store _ _ e | .eval _ e | .throw _ e => e.isResume
  | _ => false

/-- The expression that a statement without blocks begins with, unless it is a jump. -/
def Stmt.operand? : Stmt → Option Expr
  | .bind _ _ e | .assign _ _ e | .store _ _ e | .eval _ e | .throw _ e => some e
  | _ => none

/-- The slot that the statement stores to is among the first `size`. -/
def Stmt.storesIn (size : Nat) : Stmt → Bool
  | .store _ k _ => k < size
  | _ => true

/-- The first thing that the state does is to receive what an await brought. -/
def State.receives (st : State) : Bool :=
  match st.body with
  | [] => st.exit.expr?.any Expr.isResume
  | s :: _ => s.receives

/-- The evaluator can run the state with `size` slots, once there is something to receive. -/
structure State.Runs (lam : Bool) (size : Nat) (st : State) : Prop where
  first : ∀ s ∈ st.body.head?,
    s.runs lam size false false = true ∨ s.receives = true ∧ s.storesIn size = true
  later : ∀ s ∈ st.body.tail, s.runs lam size false false = true
  exit : ∀ e ∈ st.exit.expr?, e.runs lam size = true ∨ st.body = [] ∧ e.isResume = true
  reached : st.exit ≠ .unreachable

variable {lam : Bool}
variable {st : State} {f lo₁ n s y : Nat} {e e' : Expr} {fb : Block} {t : Terminator} {z : StateId}
  {J' : Targets} {clause : Option (StateId × Option String)} {g : HandlerId} {p₁ : Point}
  {ret : Bool}

theorem Expr.isResume_of_isSource (h : e.isSource lam = true) : e.isResume = false := by
  cases e <;> first | rfl | cases h

theorem Expr.isResume_of_runs (h : e.runs lam n = true) : e.isResume = false := by
  cases e <;> first | rfl | cases h

theorem Stmt.receives_of_runs {s : Stmt} {loop : Bool} (h : s.runs lam n ret loop = true) :
    s.receives = false := by
  cases s with
  | bind | assign | eval | throw => exact Expr.isResume_of_runs h
  | store _ k e =>
    simp only [runs, Bool.and_eq_true] at h
    exact Expr.isResume_of_runs h.2
  | _ => rfl

theorem Stmt.runs_of_mem {loop : Bool} {ss : Block} (h : Stmt.runIn lam n ret loop ss = true) :
    ∀ s ∈ ss, s.runs lam n ret loop = true := by
  induction ss with
  | nil => nofun
  | cons s ss ih =>
    simp only [runIn, Bool.and_eq_true] at h
    exact forall_mem_cons.mpr ⟨h.1, ih h.2⟩

namespace Regions

section

variable (states : List State) (handlers : List Handler)

/-- The state receives nothing. -/
def Quiet (s : Nat) : Prop :=
  ∃ st, states[s]? = some st ∧ st.receives = false

/-- What a clause around `h` takes goes on in a state that receives nothing. -/
def Lands (h : Option HandlerId) : Prop :=
  ∀ c, Machine.rescue? (Handler.outward handlers handlers.length h) = some (.clause c) →
    Quiet states c.entry

/-- What is known about a state of a table with `size` slots. -/
structure Settled (lam : Bool) (size : Nat) (st : State) : Prop where
  runs : st.Runs lam size
  next : ∀ t ∈ st.exit.successors, Quiet states t ∨ ∃ e, st.exit = .suspend (.await e) t
  lands : Lands states handlers st.handler
  cleans : st.exit = .endCleanup → st.receives = false

end

end Regions

namespace Layout

open Regions

variable {T : Table} {h : Option HandlerId} {J : Targets} {ss : Block} {p q : Point} {lo hi : Nat}

/-- The statements of the state up to the point can be run, once there is something to receive. -/
def Filled (lam : Bool) (T : Table) (p : Point) : Prop :=
  ∀ st, T.states[p.state]? = some st → ∀ (k : Nat) s, k < p.done → st.body[k]? = some s →
    s.runs lam 0 false false = true ∨ k = 0 ∧ s.receives = true ∧ s.storesIn 0 = true

theorem Filled.start (s : Nat) : Filled lam T ⟨s, 0⟩ := by
  intro st hst k x hk hx
  exact absurd hk (Nat.not_lt_zero k)

theorem Filled.step {s : Stmt} (hf : Filled lam T p) (ha : At T p s)
    (hs : s.runs lam 0 false false = true ∨
      p.done = 0 ∧ s.receives = true ∧ s.storesIn 0 = true) :
    Filled lam T ⟨p.state, p.done + 1⟩ := by
  intro st hst k x hk hx
  rcases Nat.lt_or_eq_of_le (Nat.le_of_lt_succ hk) with hk | rfl
  · exact hf st hst k x hk hx
  · obtain ⟨st', hst', hs'⟩ := ha
    cases hst.symm.trans hst'
    cases hx.symm.trans hs'
    exact hs

/-- A state that ends at its first point receives nothing, unless its terminator does. -/
theorem Ends.quiet (he : Ends T p t) (hd : p.done = 0) (ht : ∀ e ∈ t.expr?, e.isResume = false) :
    Quiet T.states p.state := by
  obtain ⟨st, hst, hlen, rfl⟩ := he
  refine ⟨st, hst, ?_⟩
  rw [State.receives, eq_nil_of_length_eq_zero (hlen.trans hd)]
  cases hx : st.exit.expr? with
  | none => rfl
  | some e => exact ht e hx

theorem At.quiet {s : Stmt} (ha : At T p s) (hd : p.done = 0) (hs : s.receives = false) :
    Quiet T.states p.state := by
  obtain ⟨st, hst, hs'⟩ := ha
  refine ⟨st, hst, ?_⟩
  rw [hd] at hs'
  cases hb : st.body with
  | nil => simp [hb] at hs'
  | cons x xs =>
    simp only [hb, getElem?_cons_zero, Option.some.injEq] at hs'
    rw [State.receives, hb, hs']
    exact hs

theorem Taken.quiet (ht : Taken T h e e' p p₁ lo lo₁) (hs : e.isSource lam = true)
    (he : Ends T p₁ t) (hx : t.expr? = some e') (hd : p.done = 0) : Quiet T.states p.state := by
  cases ht with
  | whole _ =>
    refine he.quiet hd ?_
    rw [hx]
    rintro _ ⟨⟩
    exact Expr.isResume_of_isSource hs
  | await m ha hp _ =>
    refine hp.quiet hd ?_
    rintro _ ⟨⟩
    exact Expr.isResume_of_isSource hs

theorem Receives.source {s s' : Stmt} (hr : Splitting.Receives s e s')
    (hs : s.isSource lam = true) :
    e.isSource lam = true ∧ s'.receives = true ∧ s'.storesIn 0 = true := by
  cases hr with
  | store => cases hs
  | _ => exact ⟨hs, rfl, rfl⟩

/-- A block of the source starts in a state that receives nothing, if that is where it starts. -/
theorem Laid.quiet (hl : Laid T h J ss p q lo hi) (hs : Stmt.areSource lam ss = true)
    (hd : p.done = 0) (hq : q.done = 0 → Quiet T.states q.state) : Quiet T.states p.state := by
  induction hl with
  | nil => exact hq hd
  | flat hf hp _ _ =>
    simp only [areSource, Bool.and_eq_true] at hs
    exact hp.quiet hd (receives_of_runs (runs_of_isFlat hs.1 hf))
  | receive hr _ hp =>
    simp only [areSource, Bool.and_eq_true] at hs
    refine hp.quiet hd ?_
    rintro _ ⟨⟩
    exact Expr.isResume_of_isSource (Receives.source hr hs.1).1
  | yield _ hp =>
    simp only [areSource, Bool.and_eq_true] at hs
    refine hp.quiet hd ?_
    rintro _ ⟨⟩
    exact Expr.isResume_of_isSource hs.1
  | leave hj hp => exact hp.quiet hd (by cases hj <;> nofun)
  | value he _ hp =>
    simp only [areSource, Bool.and_eq_true] at hs
    exact he.quiet hs.1 hp rfl hd
  | when ht hp | either ht hp =>
    simp only [areSource, isSource, Bool.and_eq_true] at hs
    exact ht.quiet hs.1.1.1 hp rfl hd
  | loop hh ht hp =>
    simp only [areSource, isSource, Bool.and_eq_true] at hs
    cases hh with
    | here => exact ht.quiet hs.1.1 hp rfl rfl
    | new he _ => exact he.quiet hd nofun
  | group hg _ _ ihb ihr =>
    simp only [areSource, Bool.and_eq_true] at hs
    refine ihb ?_ hd fun hd₁ => ihr hs.2 hd₁ hq
    cases hg with
    | block m b => exact hs.1
    | attempt m b => simpa [isSource, clauseIsSource, cleanupIsSource] using hs.1
  | caught _ _ _ hp | cleaned _ _ _ _ hp | both _ _ _ _ _ _ hp => exact hp.quiet hd nofun

/-! Every state of a block. -/

theorem runIn_of_checkCleanup (hf : Splitting.checkCleanup fb = .ok ())
    (hs : Stmt.areSource lam fb = true) : Stmt.runIn lam 0 false false fb = true := by
  unfold Splitting.checkCleanup at hf
  split at hf
  · cases hf
  · rename_i hp
    split at hf
    · cases hf
    · rename_i hx
      refine runIn_of_census fb 0 hs ?_ hx
      clear hs hf hx
      induction fb with
      | nil => rfl
      | cons s fb ih =>
        simp only [find?_cons] at hp
        split at hp
        · cases hp
        · rename_i hsp
          have hs := Census.pauses_eq_false.mp hsp
          have hfb := Census.pauses_eq_false.mp (ih hp)
          rw [censusIn, Census.pauses_eq_false, Census.yields_add, Census.awaits_add]
          omega

theorem Ends.settled (he : Ends T p t) (hf : Filled lam T p)
    (hx : ∀ e ∈ t.expr?, e.runs lam 0 = true ∨ p.done = 0 ∧ e.isResume = true)
    (hh : Covered T p.state h) (hl : Lands T.states T.handlers h)
    (hn : ∀ x ∈ t.successors, Quiet T.states x ∨ ∃ e, t = .suspend (.await e) x)
    (hst : T.states[p.state]? = some st) (ht : t ≠ .unreachable := by rintro ⟨⟩)
    (hc : t ≠ .endCleanup := by rintro ⟨⟩) : Settled T.states T.handlers lam 0 st := by
  obtain ⟨st', hst', hlen, rfl⟩ := he
  cases hst.symm.trans hst'
  obtain ⟨st', hst', rfl⟩ := hh
  cases hst.symm.trans hst'
  refine ⟨⟨?_, ?_, ?_, ht⟩, hn, hl, fun h => absurd h hc⟩
  · intro s hs
    rw [head?_eq_getElem?] at hs
    have hlt : 0 < st.body.length := (List.getElem?_eq_some_iff.mp hs).1
    exact (hf st hst 0 s (hlen ▸ hlt) hs).imp_right (·.2)
  · intro s hs
    obtain ⟨k, hk⟩ := mem_iff_getElem?.mp hs
    rw [getElem?_tail] at hk
    have hlt := (List.getElem?_eq_some_iff.mp hk).1
    rcases hf st hst (k + 1) s (hlen ▸ hlt) hk with hr | hr
    · exact hr
    · exact absurd hr.1 (Nat.succ_ne_zero k)
  · intro e he
    refine (hx e he).imp_right fun hd => ⟨?_, hd.2⟩
    exact eq_nil_of_length_eq_zero (hlen.trans hd.1)

theorem Ends.quiet_goto (he : Ends T q (.goto z)) (hd : q.done = 0) : Quiet T.states q.state :=
  he.quiet hd nofun

theorem Ends.settled_goto (he : Ends T p (.goto z)) (hf : Filled lam T p) (hh : Covered T p.state h)
    (hl : Lands T.states T.handlers h) (hz : Quiet T.states z)
    (hst : T.states[p.state]? = some st) :
    Settled T.states T.handlers lam 0 st := by
  refine he.settled hf (by rintro _ ⟨⟩) hh hl ?_ hst
  intro x hx
  cases mem_singleton.mp hx
  exact .inl hz

/-- A block that goes on to `z` where it stops. -/
theorem Ends.closes (he : Ends T q (.goto z)) (hh : Covered T q.state h)
    (hl : Lands T.states T.handlers h) (hz : Quiet T.states z) (hst : T.states[s]? = some st)
    (hf : Filled lam T q) (hi : s ≠ q.state → Settled T.states T.handlers lam 0 st) :
    Settled T.states T.handlers lam 0 st := by
  by_cases hs : s = q.state
  · subst hs
    exact he.settled_goto hf hh hl hz hst
  · exact hi hs

theorem Taken.settled (ht : Taken T h e e' p p₁ lo lo₁) (hs : e.isSource lam = true)
    (hf : Filled lam T p) (hh : Covered T p.state h) (hl : Lands T.states T.handlers h) :
    Filled lam T p₁ ∧ Covered T p₁.state h ∧
      (e'.runs lam 0 = true ∨ p₁.done = 0 ∧ e'.isResume = true) ∧
      ∀ s, Within p lo lo₁ s → s ≠ p₁.state → ∀ st, T.states[s]? = some st →
        Settled T.states T.handlers lam 0 st := by
  cases ht with
  | whole ha =>
    refine ⟨hf, hh, .inl (e.runs_of_isSource hs ha), fun s hin hne => ?_⟩
    omega
  | await m ha hp hr =>
    refine ⟨.start lo, hr, .inr ⟨rfl, rfl⟩, ?_⟩
    intro s hin hne st hst
    rcases hin with rfl | hin
    · refine hp.settled hf ?_ hh hl ?_ hst
      · rintro _ ⟨⟩
        exact .inl (Expr.runs_of_isSource _ hs ha)
      · intro x hx
        cases mem_singleton.mp hx
        exact .inr ⟨_, rfl⟩
    · exact absurd (show s = lo by omega) hne

/-- Where control goes from a block covered by `h` receives nothing. -/
structure Around (T : Table) (h : Option HandlerId) (J : Targets) : Prop where
  lands : Lands T.states T.handlers h
  jumps : ∀ x, Targets.Reach J x → Quiet T.states x

theorem Around.guard {cleanup : Option StateId} (hn : Numbered T.states T.handlers)
    (hg : Guards T h g clause cleanup) (hl : Lands T.states T.handlers h)
    (hc : ∀ c ∈ clause, Quiet T.states c.1) : Lands T.states T.handlers (some g) := by
  intro c hr
  rw [Reduce.outward_some hn.parent hg.2] at hr
  cases clause with
  | some l =>
    cases hr
    exact hc l rfl
  | none =>
    cases cleanup with
    | some f => cases hr
    | none => exact hl c hr

theorem Around.loop (hx : Around T h J) {head : Nat} (hy : Quiet T.states y)
    (hh : Quiet T.states head) : Around T h { J with brk := some y, cont := some head } := by
  refine ⟨hx.lands, ?_⟩
  intro x hr
  rcases Targets.reach_loop hr with rfl | rfl | hr
  · exact hy
  · exact hh
  · exact hx.jumps x hr

theorem IsRoute.quiet (hr : IsRoute T h f s y) : Quiet T.states s := by
  obtain ⟨st, hst, hb, he, -⟩ := hr
  exact ⟨st, hst, by rw [State.receives, hb, he]; rfl⟩

theorem IsCleanup.receives (hc : IsCleanup T h f fb) (hr : Stmt.runIn lam 0 false false fb = true)
    (hst : T.states[f]? = some st) : st.receives = false := by
  obtain ⟨st', hst', hb, he, -⟩ := hc
  cases hst.symm.trans hst'
  rw [State.receives, hb, he]
  cases fb with
  | nil => rfl
  | cons s fb => exact receives_of_runs (runs_of_mem hr s (mem_cons_self ..))

theorem IsCleanup.settled (hc : IsCleanup T h f fb) (hr : Stmt.runIn lam 0 false false fb = true)
    (hl : Lands T.states T.handlers h) (hst : T.states[f]? = some st) :
    Settled T.states T.handlers lam 0 st := by
  have hq := hc.receives hr hst
  obtain ⟨st', hst', rfl, he, rfl⟩ := hc
  cases hst.symm.trans hst'
  refine ⟨⟨?_, ?_, ?_, ?_⟩, ?_, hl, fun _ => hq⟩
  · exact fun s hs => .inl (runs_of_mem hr s (mem_of_mem_head? hs))
  · exact fun s hs => runs_of_mem hr s (mem_of_mem_tail hs)
  · rw [he]
    nofun
  · rw [he]
    nofun
  · rw [he]
    nofun

theorem IsRoute.settled (hr : IsRoute T h f s y) (hf : Quiet T.states f) (hy : Quiet T.states y)
    (hl : Lands T.states T.handlers h) (hst : T.states[s]? = some st) :
    Settled T.states T.handlers lam 0 st := by
  obtain ⟨st', hst', hb, he, rfl⟩ := hr
  cases hst.symm.trans hst'
  refine ⟨⟨?_, ?_, ?_, ?_⟩, ?_, hl, ?_⟩
  · rw [hb]
    rintro _ ⟨⟩
  · rw [hb]
    rintro _ ⟨⟩
  · rw [he]
    rintro _ ⟨⟩
  · rw [he]
    rintro ⟨⟩
  · rw [he]
    intro t ht
    simp only [Terminator.successors, mem_cons, not_mem_nil, or_false] at ht
    rcases ht with rfl | rfl
    · exact .inl hf
    · exact .inl hy
  · rw [he]
    rintro ⟨⟩

/-- A guarded block with its cleanup and its routes, when the states inside are known. -/
theorem Around.settled_guarded (hx : Around T h J) {r m : Nat} (hc : Covered T p.state h)
    (hp : Ends T p (.goto (lo + 2))) (hfp : Filled lam T p) (hf : IsCleanup T h (lo + 1) fb)
    (hr : Stmt.runIn lam 0 false false fb = true) (hy : Quiet T.states (lo + 2))
    (ho : Quiet T.states lo) (hroute : IsRoute T h (lo + 1) r lo)
    (routes : Routed T h (lo + 1) (lo + 2) J' J m n) (hl : Leaves T J' r (lo + 2) m)
    (hbody : ∀ (s : Nat) st, lo + 2 ≤ s → s < m → T.states[s]? = some st →
      Settled T.states T.handlers lam 0 st)
    (hs : Within p (lo + 1) n s) (hst : T.states[s]? = some st) :
    Settled T.states T.handlers lam 0 st := by
  by_cases h₁ : s = p.state
  · subst h₁
    exact hp.settled_goto hfp hc hx.lands hy hst
  by_cases h₂ : s = lo + 1
  · subst h₂
    exact hf.settled hr hx.lands hst
  by_cases h₃ : lo + 2 ≤ s ∧ s < m
  · exact hbody s st h₃.1 h₃.2 hst
  · have h₄ : m ≤ s ∧ s < n := by omega
    obtain ⟨y, hroute', hy⟩ := routes.route hroute hl h₄.1 h₄.2
    obtain ⟨st', hst', -⟩ := id hf
    refine hroute'.settled ⟨st', hst', hf.receives hr hst'⟩ ?_ hx.lands hst
    rcases hy with hy | rfl
    · exact hx.jumps y hy
    · exact ho

theorem Around.routed {first m : Nat} (hx : Around T h J) (hn : Numbered T.states T.handlers)
    (hg : Guards T h g clause (some f)) (hc : ∀ c ∈ clause, Quiet T.states c.1)
    (hr : Routed T h f first J' J m n) : Around T (some g) J' := by
  refine ⟨Around.guard hn hg hx.lands hc, ?_⟩
  intro x hreach
  obtain ⟨-, -, y, hroute, -⟩ := hr.of_reach hreach
  exact hroute.quiet

theorem Jumps.settled {s : Stmt} (hj : Jumps J s t) (hx : Around T h J) (he : Ends T p t)
    (hf : Filled lam T p) (hc : Covered T p.state h) (hst : T.states[p.state]? = some st) :
    Settled T.states T.handlers lam 0 st := by
  refine he.settled hf ?_ hc hx.lands ?_ hst ?_ ?_
  · cases hj <;> rintro _ ⟨⟩
  · intro x hm
    refine .inl (hx.jumps x (hj.reach ?_))
    cases hj <;> exact hm
  · cases hj <;> rintro ⟨⟩
  · cases hj <;> rintro ⟨⟩

theorem quiet_branch {t : Expr} {a b : Nat} (ha : Quiet T.states a) (hb : Quiet T.states b) :
    ∀ x ∈ (Terminator.branch t a b).successors, Quiet T.states x ∨
      ∃ e, Terminator.branch t a b = .suspend (.await e) x := by
  intro x hx
  have hx : x ∈ (Terminator.branch t a b).exits := hx
  rcases mem_exits_branch hx with rfl | rfl
  · exact .inl ha
  · exact .inl hb

/-- Every state of a block of the source is settled, apart from the one where it stops. -/
theorem Laid.settled (hl : Laid T h J ss p q lo hi) (hn : Numbered T.states T.handlers)
    (hs : Stmt.areSource lam ss = true) (hx : Around T h J) (hc : Covered T p.state h)
    (hp : Filled lam T p) (hq : q.done = 0 → Quiet T.states q.state) :
    Filled lam T q ∧ ∀ s, Within p lo hi s → s ≠ q.state → ∀ st, T.states[s]? = some st →
      Settled T.states T.handlers lam 0 st := by
  induction hl with
  | nil =>
    refine ⟨hp, fun s hin hne => ?_⟩
    omega
  | flat hf ha _ ih =>
    simp only [areSource, Bool.and_eq_true] at hs
    exact ih hs.2 hx hc (hp.step ha (.inl (runs_of_isFlat hs.1 hf))) hq
  | @receive h J s e s' ss p q lo hi hr he hend ho ha rest ih =>
    simp only [areSource, Bool.and_eq_true] at hs
    obtain ⟨hse, hrec⟩ := Receives.source hr hs.1
    have hfill : Filled lam T ⟨lo, 1⟩ := (Filled.start lo).step ha (.inr ⟨rfl, hrec⟩)
    obtain ⟨hfq, hrest⟩ := ih hs.2 hx ho hfill hq
    refine ⟨hfq, fun x hin hne st hst => ?_⟩
    rcases hin with rfl | hin
    · refine hend.settled hp ?_ hc hx.lands ?_ hst
      · rintro _ ⟨⟩
        exact .inl (e.runs_of_isSource hse he)
      · intro y hy
        cases mem_singleton.mp hy
        exact .inr ⟨_, rfl⟩
    · exact hrest x (by simp only [Within]; omega) hne st hst
  | @yield h J m e ss p q lo hi he hend ho rest ih =>
    simp only [areSource, Bool.and_eq_true] at hs
    obtain ⟨hfq, hrest⟩ := ih hs.2 hx ho (.start lo) hq
    refine ⟨hfq, fun x hin hne st hst => ?_⟩
    rcases hin with rfl | hin
    · refine hend.settled hp ?_ hc hx.lands ?_ hst
      · rintro _ ⟨⟩
        exact .inl (e.runs_of_isSource hs.1 he)
      · intro y hy
        cases mem_singleton.mp hy
        exact .inl (rest.quiet hs.2 rfl hq)
    · exact hrest x (by simp only [Within]; omega) hne st hst
  | @leave h J s t ss p q lo hi hj hend ho rest ih =>
    simp only [areSource, Bool.and_eq_true] at hs
    obtain ⟨hfq, hrest⟩ := ih hs.2 hx ho (.start lo) hq
    refine ⟨hfq, fun x hin hne st hst => ?_⟩
    rcases hin with rfl | hin
    · exact hj.settled hx hend hp hc hst
    · exact hrest x (by simp only [Within]; omega) hne st hst
  | @value h J m e e' t ss p p₁ q lo lo₁ hi he hj hend ho rest ih =>
    simp only [areSource, Bool.and_eq_true] at hs
    obtain ⟨hf₁, hc₁, he', htaken⟩ := he.settled hs.1 hp hc hx.lands
    obtain ⟨hfq, hrest⟩ := ih hs.2 hx ho (.start lo₁) hq
    have hle := he.le
    refine ⟨hfq, fun x hin hne st hst => ?_⟩
    by_cases h₁ : x = p₁.state
    · subst h₁
      refine hend.settled hf₁ ?_ hc₁ hx.lands ?_ hst
      · rintro _ ⟨⟩
        exact he'
      · intro y hy
        cases t with
        | none => cases hy
        | some z =>
          obtain rfl : y = z := mem_singleton.mp hy
          exact .inl (hx.jumps y (.inr (.inr ⟨_, hj, rfl⟩)))
    by_cases h₂ : Within p lo lo₁ x
    · exact htaken x h₂ h₁ st hst
    · exact hrest x (by simp only [Within] at *; omega) hne st hst
  | @when h J m t t' a ss p p₁ qa q lo y hi₁ hi ht hend hy hm yes ha rest ihy ih =>
    simp only [areSource, isSource, Bool.and_eq_true] at hs
    obtain ⟨hf₁, hc₁, ht', htaken⟩ := ht.settled hs.1.1.1 hp hc hx.lands
    obtain ⟨hfq, hrest⟩ := ih hs.2 hx hm (.start _) hq
    obtain ⟨hfa, hyes⟩ := ihy hs.1.1.2 hx hy (.start _) ha.quiet_goto
    have hmerge := rest.quiet hs.2 rfl hq
    have hle := ht.le
    have hly := yes.le.1
    refine ⟨hfq, fun x hin hne st hst => ?_⟩
    by_cases h₁ : x = p₁.state
    · subst h₁
      refine hend.settled hf₁ ?_ hc₁ hx.lands
        (quiet_branch (yes.quiet hs.1.1.2 rfl ha.quiet_goto) hmerge) hst
      rintro _ ⟨⟩
      exact ht'
    by_cases h₂ : Within p lo y x
    · exact htaken x h₂ h₁ st hst
    by_cases h₃ : Within ⟨y, 0⟩ (y + 2) hi₁ x
    · exact ha.closes (yes.covered hy) hx.lands hmerge hst hfa fun hn => hyes x h₃ hn st hst
    · exact hrest x (by simp only [Within] at *; omega) hne st hst
  | @either h J m t t' a b ss p p₁ qa qb q lo y hi₁ hi₂ hi ht hend hy hn' hm yes ha no hb rest ihy
      ihn ih =>
    simp only [areSource, isSource, Bool.and_eq_true] at hs
    obtain ⟨hf₁, hc₁, ht', htaken⟩ := ht.settled hs.1.1.1 hp hc hx.lands
    obtain ⟨hfq, hrest⟩ := ih hs.2 hx hm (.start _) hq
    obtain ⟨hfa, hyes⟩ := ihy hs.1.1.2 hx hy (.start _) ha.quiet_goto
    obtain ⟨hfb, hno⟩ := ihn hs.1.2 hx hn' (.start _) hb.quiet_goto
    have hmerge := rest.quiet hs.2 rfl hq
    have hle := ht.le
    have hly := yes.le.1
    have hln := no.le.1
    refine ⟨hfq, fun x hin hne st hst => ?_⟩
    by_cases h₁ : x = p₁.state
    · subst h₁
      refine hend.settled hf₁ ?_ hc₁ hx.lands
        (quiet_branch (yes.quiet hs.1.1.2 rfl ha.quiet_goto)
          (no.quiet hs.1.2 rfl hb.quiet_goto)) hst
      rintro _ ⟨⟩
      exact ht'
    by_cases h₂ : Within p lo y x
    · exact htaken x h₂ h₁ st hst
    by_cases h₃ : Within ⟨y, 0⟩ (y + 3) hi₁ x
    · exact ha.closes (yes.covered hy) hx.lands hmerge hst hfa fun hn => hyes x h₃ hn st hst
    by_cases h₄ : Within ⟨y + 1, 0⟩ hi₁ hi₂ x
    · exact hb.closes (no.covered hn') hx.lands hmerge hst hfb fun hn => hno x h₄ hn st hst
    · exact hrest x (by simp only [Within] at *; omega) hne st hst
  | @loop h J m t t' b ss p p₁ qb q head lo lo₁ y hi₁ hi hh ht hend hy hm body hb rest ihb ih =>
    simp only [areSource, isSource, Bool.and_eq_true] at hs
    have hch := hh.covered hc
    have hfh : Filled lam T ⟨head, 0⟩ := .start head
    obtain ⟨hf₁, hc₁, ht', htaken⟩ := ht.settled hs.1.1 hfh hch hx.lands
    obtain ⟨hfq, hrest⟩ := ih hs.2 hx hm (.start _) hq
    have hexit := rest.quiet hs.2 rfl hq
    have hhead := ht.quiet hs.1.1 hend rfl rfl
    obtain ⟨hfb, hbody⟩ := ihb hs.1.2 (hx.loop hexit hhead) hy (.start _) hb.quiet_goto
    have hlh := hh.le
    have hle := ht.le
    have hlb := body.le.1
    refine ⟨hfq, fun x hin hne st hst => ?_⟩
    by_cases h₁ : x = p₁.state
    · subst h₁
      refine hend.settled hf₁ ?_ hc₁ hx.lands
        (quiet_branch (body.quiet hs.1.2 rfl hb.quiet_goto) hexit) hst
      rintro _ ⟨⟩
      exact ht'
    by_cases h₂ : Within ⟨head, 0⟩ lo₁ y x
    · exact htaken x h₂ h₁ st hst
    by_cases h₃ : Within ⟨y, 0⟩ (y + 2) hi₁ x
    · exact hb.closes (body.covered hy) hx.lands hhead hst hfb fun hn => hbody x h₃ hn st hst
    by_cases h₄ : Within ⟨y + 1, 0⟩ hi₁ hi x
    · exact hrest x h₄ hne st hst
    · cases hh with
      | here => simp only [Within] at *; omega
      | new he _ =>
        obtain rfl : x = p.state := by simp only [Within] at *; omega
        exact he.settled_goto hp hc hx.lands hhead hst
  | @group h J s' b ss p p₁ q lo hi₁ hi hg body rest ihb ih =>
    simp only [areSource, Bool.and_eq_true] at hs
    have hsb : areSource lam b = true := by
      cases hg with
      | block m b => exact hs.1
      | attempt m b => simpa [isSource, clauseIsSource, cleanupIsSource] using hs.1
    obtain ⟨hf₁, hbody⟩ := ihb hsb hx hc hp fun hd => rest.quiet hs.2 hd hq
    obtain ⟨hfq, hrest⟩ := ih hs.2 hx (body.covered hc) hf₁ hq
    have hlb := body.le
    refine ⟨hfq, fun x hin hne st hst => ?_⟩
    by_cases h₁ : Within p₁ hi₁ hi x
    · exact hrest x h₁ hne st hst
    · refine hbody x ?_ ?_ st hst <;> omega
  | @caught h J m b x' cb ss g p qb qc q lo hi₁ hi₂ hi hg _ ho hend hy body hb hl clause hd rest ihb
      ihc ih =>
    simp only [areSource, isSource, clauseIsSource, Bool.and_eq_true] at hs
    have hclause := clause.quiet hs.1.1.2 rfl hd.quiet_goto
    have hxg : Around T (some g) J := by
      refine ⟨Around.guard hn hg hx.lands ?_, hx.jumps⟩
      rintro _ ⟨⟩
      exact hclause
    obtain ⟨hfq, hrest⟩ := ih hs.2 hx ho (.start _) hq
    obtain ⟨hfb, hbody⟩ := ihb hs.1.1.1 hxg hy (.start _) hb.quiet_goto
    obtain ⟨hfc, hcl⟩ := ihc hs.1.1.2 hx hl (.start _) hd.quiet_goto
    have hafter := rest.quiet hs.2 rfl hq
    have hlb := body.le.1
    have hlc := clause.le.1
    refine ⟨hfq, fun x hin hne st hst => ?_⟩
    by_cases h₁ : x = p.state
    · subst h₁
      exact hend.settled_goto hp hc hx.lands (body.quiet hs.1.1.1 rfl hb.quiet_goto) hst
    by_cases h₂ : Within ⟨lo + 1, 0⟩ (lo + 2) hi₁ x
    · exact hb.closes (body.covered hy) hxg.lands hafter hst hfb fun hn => hbody x h₂ hn st hst
    by_cases h₃ : Within ⟨hi₁, 0⟩ (hi₁ + 1) hi₂ x
    · exact hd.closes (clause.covered hl) hx.lands hafter hst hfc fun hn => hcl x h₃ hn st hst
    · exact hrest x (by simp only [Within] at *; omega) hne st hst
  | @cleaned h J J' m b fb ss g p qb q r lo hi₁ hi₂ hi hcf hg ho hf hend hy body hb hr routes rest
      ihb ih =>
    simp only [areSource, isSource, cleanupIsSource, Bool.and_eq_true] at hs
    have hxg : Around T (some g) J' := hx.routed hn hg (by rintro _ ⟨⟩) routes
    obtain ⟨hfq, hrest⟩ := ih hs.2 hx ho (.start _) hq
    obtain ⟨hfb, hbody⟩ := ihb hs.1.1.1 hxg hy (.start _) hb.quiet_goto
    have hlb := body.le.1
    refine ⟨hfq, fun x hin hne st hst => ?_⟩
    by_cases h₁ : Within ⟨lo, 0⟩ hi₂ hi x
    · exact hrest x h₁ hne st hst
    · refine hx.settled_guarded hc hend hp hf (runIn_of_checkCleanup hcf hs.1.2)
        (body.quiet hs.1.1.1 rfl hb.quiet_goto) (rest.quiet hs.2 rfl hq) hr.2.2 routes
        (body.leaves hb) ?_ (by simp only [Within] at *; omega) hst
      intro s st hlo hlt hst
      exact hb.closes (body.covered hy) hxg.lands hr.2.2.quiet hst hfb fun hn =>
        hbody s (by simp only [Within]; omega) hn st hst
  | @both h J J' m b x' cb fb ss g k p qb qc q r lo hi₁ hi₂ hi₃ hi hcf hg _ hk ho hf hend hy body hb
      hl clause hd hr routes rest ihb ihc ih =>
    simp only [areSource, isSource, clauseIsSource, cleanupIsSource,
      Bool.and_eq_true] at hs
    have hclause := clause.quiet hs.1.1.2 rfl hd.quiet_goto
    have hxg : Around T (some g) J' := by
      refine hx.routed hn hg ?_ routes
      rintro _ ⟨⟩
      exact hclause
    have hxk : Around T (some k) J' := hx.routed hn hk (by rintro _ ⟨⟩) routes
    obtain ⟨hfq, hrest⟩ := ih hs.2 hx ho (.start _) hq
    obtain ⟨hfb, hbody⟩ := ihb hs.1.1.1 hxg hy (.start _) hb.quiet_goto
    obtain ⟨hfc, hcl⟩ := ihc hs.1.1.2 hxk hl (.start _) hd.quiet_goto
    have hlb := body.le.1
    have hlc := clause.le.1
    refine ⟨hfq, fun x hin hne st hst => ?_⟩
    by_cases h₁ : Within ⟨lo, 0⟩ hi₃ hi x
    · exact hrest x h₁ hne st hst
    · refine hx.settled_guarded hc hend hp hf (runIn_of_checkCleanup hcf hs.1.2)
        (body.quiet hs.1.1.1 rfl hb.quiet_goto) (rest.quiet hs.2 rfl hq) hr.2.2 routes
        ((body.leaves hb).append (clause.leaves hd) (by omega) (by omega)) ?_
        (by simp only [Within] at *; omega) hst
      intro s st hlo hlt hst
      by_cases h₂ : s < hi₁
      · exact hb.closes (body.covered hy) hxg.lands hr.2.2.quiet hst hfb fun hn =>
          hbody s (by simp only [Within]; omega) hn st hst
      · exact hd.closes (clause.covered hl) hxk.lands hr.2.2.quiet hst hfc fun hn =>
          hcl s (by simp only [Within]; omega) hn st hst

/-- Every state of the table of a source body is settled, and the first one receives nothing. -/
theorem Body.settled {body : Block} (hb : Body T body) (hn : Numbered T.states T.handlers)
    (hs : Stmt.areSource lam body = true) :
    Quiet T.states 0 ∧ ∀ (s : Nat) st, T.states[s]? = some st →
      Settled T.states T.handlers lam 0 st := by
  obtain ⟨q, hl, hq⟩ := hb.laid
  obtain ⟨st₁, hst₁, hb₁, he₁, hh₁⟩ := hb.finish
  have hret : Quiet T.states Splitting.returnState :=
    ⟨st₁, hst₁, by rw [State.receives, hb₁, he₁]; rfl⟩
  have hlands : Lands T.states T.handlers none := by
    intro c hc
    simp [Machine.rescue?] at hc
  have hx : Around T none { ret := some none } := by
    refine ⟨hlands, ?_⟩
    rintro x (hr | hr | ⟨t, ht, rfl⟩)
    · cases hr
    · cases hr
    · cases ht
      exact hret
  have hqq : q.done = 0 → Quiet T.states q.state := fun hd => hq.quiet hd (by rintro _ ⟨⟩)
  obtain ⟨hfq, hall⟩ := hl.settled hn hs hx hb.entry (.start 0) hqq
  refine ⟨hl.quiet hs rfl hqq, ?_⟩
  intro s st hst
  by_cases h₁ : s = q.state
  · subst h₁
    exact hq.settled hfq (by rintro _ ⟨⟩) (hl.covered hb.entry) hlands (by rintro _ ⟨⟩) hst
  by_cases h₂ : s = 1
  · subst h₂
    cases hst₁.symm.trans hst
    refine ⟨⟨?_, ?_, ?_, ?_⟩, ?_, hh₁ ▸ hlands, ?_⟩
    · rw [hb₁]
      rintro _ ⟨⟩
    · rw [hb₁]
      rintro _ ⟨⟩
    · rw [he₁]
      rintro _ ⟨⟩
    · rw [he₁]
      rintro ⟨⟩
    · rw [he₁]
      rintro _ ⟨⟩
    · rw [he₁]
      rintro ⟨⟩
  · have hlt : s < T.states.length := (List.getElem?_eq_some_iff.mp hst).1
    exact hall s (by simp only [Within]; omega) h₁ st hst

end Layout

/-! Reduction and hoisting. -/

namespace Regions

open Reduce Hoist

section

variable {states : List State} {handlers : List Handler} {live : Nat → Prop}
  {ρ : StateId → StateId} {η : HandlerId → HandlerId} {small : List State × List Handler}

theorem receives_renumberState (st : State) : (renumberState ρ η st).receives = st.receives := by
  simp only [State.receives, renumberState, Terminator.expr?_mapStates]

theorem quiet_shrinks (h : Shrinks states handlers live ρ η small) (hs : live s)
    (hq : Quiet states s) : Quiet small.1 (ρ s) := by
  obtain ⟨st, hst, hr⟩ := hq
  exact ⟨_, h.state s st hs hst, (receives_renumberState st).trans hr⟩

theorem Quiet.lt (hq : Quiet states s) : s < states.length := by
  obtain ⟨st, hst, -⟩ := hq
  exact (List.getElem?_eq_some_iff.mp hst).1

theorem lands_shrinks (h : Shrinks states handlers live ρ η small) (hs : live s)
    (hst : states[s]? = some st) (hl : Lands states handlers st.handler) :
    Lands small.1 small.2 (renumberState ρ η st).handler := by
  intro c hc
  have hcov := h.covering s st hs hst
  simp only [covering] at hcov
  rw [hcov, Machine.rescue?_map (f := fun c => { c with entry := ρ c.entry }) (g := ρ)
    (fun _ => rfl) (fun _ => rfl)] at hc
  obtain ⟨r, hr, hmap⟩ := Option.map_eq_some_iff.mp hc
  obtain ⟨g, hg, hclause, -⟩ := Machine.mem_of_rescue? hr
  cases r with
  | cleanup f => cases hmap
  | clause c' =>
    cases hmap
    have hq := hl c' hr
    exact quiet_shrinks h (live_covering h hs hst hg (by simp [hclause c' rfl]) hq.lt) hq

theorem Settled.shrinks (h : Shrinks states handlers live ρ η small) (hs : live s)
    (hst : states[s]? = some st) (hd : Settled states handlers lam n st) :
    Settled small.1 small.2 lam n (renumberState ρ η st) := by
  have hx : (renumberState ρ η st).exit = st.exit.mapStates ρ := rfl
  refine ⟨⟨hd.runs.first, hd.runs.later, ?_, ?_⟩, ?_, lands_shrinks h hs hst hd.lands, ?_⟩
  · rw [hx, Terminator.expr?_mapStates]
    exact hd.runs.exit
  · rw [hx]
    have hr := hd.runs.reached
    cases he : st.exit with
    | unreachable => exact absurd he hr
    | _ => nofun
  · intro t ht
    rw [hx, Terminator.successors_mapStates] at ht
    obtain ⟨t₀, ht₀, rfl⟩ := mem_map.mp ht
    rcases hd.next t₀ ht₀ with hq | ⟨e, he⟩
    · exact .inl (quiet_shrinks h (live_successor h hs hst ht₀ hq.lt) hq)
    · exact .inr ⟨e, by rw [hx, he]; rfl⟩
  · intro he
    rw [receives_renumberState]
    exact hd.cleans (Terminator.mapStates_eq_endCleanup.mp he)

end

section

variable {states : List State} {handlers : List Handler} {m : Manifest}

theorem isResume_hoistExpr (m : Manifest) (e : Expr) : (hoistExpr m e).isResume = e.isResume := by
  cases e with
  | var mark x =>
    simp only [hoistExpr]
    split <;> rfl
  | _ => rfl

theorem receives_hoistStmt (m : Manifest) (s : Stmt) : (hoistStmt m s).receives = s.receives := by
  cases s with
  | bind mark x e | assign mark x e =>
    simp only [hoistStmt]
    split <;> exact isResume_hoistExpr m e
  | store mark k e | eval mark e | throw mark e => exact isResume_hoistExpr m e
  | ret mark e => cases e <;> rfl
  | attempt mark b c f =>
    rw [hoistStmt_attempt]
    rfl
  | _ => rfl

theorem storesIn_hoistStmt (hm : m.Ordered) {s : Stmt} (h : s.storesIn 0 = true) :
    (hoistStmt m s).storesIn m.size = true := by
  cases s with
  | bind mark x e | assign mark x e =>
    simp only [hoistStmt]
    split
    · rename_i k hk
      exact decide_eq_true (Manifest.lt_size_of_slotOf? hm hk)
    · rfl
  | store mark k e => cases h
  | ret mark e => cases e <;> rfl
  | attempt mark b c f =>
    rw [hoistStmt_attempt]
    rfl
  | _ => rfl

theorem receives_hoistState (m : Manifest) (st : State) :
    (hoistState m st).receives = st.receives := by
  simp only [State.receives, hoistState, hoistBlock_eq_map, Terminator.expr?_mapExpr]
  cases st.body with
  | cons s ss => exact receives_hoistStmt m s
  | nil =>
    cases st.exit.expr? with
    | none => rfl
    | some e => exact isResume_hoistExpr m e

theorem quiet_hoist (hq : Quiet states s) : Quiet (states.map (hoistState m)) s := by
  obtain ⟨st, hst, hr⟩ := hq
  refine ⟨hoistState m st, ?_, (receives_hoistState m st).trans hr⟩
  rw [getElem?_map, hst, Option.map_some]

theorem lands_hoist {h : Option HandlerId} (hl : Lands states handlers h) :
    Lands (states.map (hoistState m)) (handlers.map (hoistHandler m)) h := by
  intro c hc
  rw [length_map, outward_hoist, Machine.rescue?_map
    (φ := hoistHandler m) (f := fun c => { c with slot := c.binding.bind m.slotOf? }) (g := id)
    (fun _ => rfl) (fun h => (Option.map_id_apply ..).symm)] at hc
  obtain ⟨r, hr, hmap⟩ := Option.map_eq_some_iff.mp hc
  cases r with
  | cleanup f => cases hmap
  | clause c' =>
    cases hmap
    exact quiet_hoist (hl c' hr)

theorem Settled.hoist (hm : m.Ordered) (hd : Settled states handlers lam 0 st) :
    Settled (states.map (hoistState m)) (handlers.map (hoistHandler m)) lam m.size
      (hoistState m st) := by
  have hx : (hoistState m st).exit = st.exit.mapExpr (hoistExpr m) := rfl
  have hb : (hoistState m st).body = st.body.map (hoistStmt m) := hoistBlock_eq_map m st.body
  refine ⟨⟨?_, ?_, ?_, ?_⟩, ?_, lands_hoist hd.lands, ?_⟩
  · intro s hs
    rw [hb, head?_map] at hs
    obtain ⟨s', hs', rfl⟩ := Option.map_eq_some_iff.mp hs
    rcases hd.runs.first s' hs' with hr | ⟨hr, hk⟩
    · exact .inl (runs_hoistStmt (fun _ _ => Manifest.lt_size_of_slotOf? hm) false false s' hr)
    · exact .inr ⟨(receives_hoistStmt m s').trans hr, storesIn_hoistStmt hm hk⟩
  · intro s hs
    rw [hb, ← map_tail] at hs
    obtain ⟨s', hs', rfl⟩ := mem_map.mp hs
    exact runs_hoistStmt (fun _ _ => Manifest.lt_size_of_slotOf? hm) false false s'
      (hd.runs.later s' hs')
  · intro e he
    rw [hx, Terminator.expr?_mapExpr] at he
    obtain ⟨e', he', rfl⟩ := Option.map_eq_some_iff.mp he
    rcases hd.runs.exit e' he' with hr | ⟨hn, hr⟩
    · exact .inl (runs_hoistExpr (fun _ _ => Manifest.lt_size_of_slotOf? hm) e' hr)
    · exact .inr ⟨by rw [hb, hn]; rfl, (isResume_hoistExpr m e').trans hr⟩
  · rw [hx]
    have hr := hd.runs.reached
    cases he : st.exit with
    | unreachable => exact absurd he hr
    | suspend p r => cases p <;> nofun
    | _ => nofun
  · intro t ht
    rw [hx, Terminator.successors_mapExpr] at ht
    rcases hd.next t ht with hq | ⟨e, he⟩
    · exact .inl (quiet_hoist hq)
    · exact .inr ⟨hoistExpr m e, by rw [hx, he]; rfl⟩
  · intro he
    rw [receives_hoistState]
    exact hd.cleans (Terminator.mapExpr_eq_endCleanup.mp he)

end

end Regions

/-- A chain that can do nothing it should not, with lambdas in it only if `lam`. -/
structure Chain.Sound (lam : Bool) (c : Chain) : Prop where
  disciplined : Regions.Disciplined c.states c.handlers
  number : ∀ (i : Nat) st, c.states[i]? = some st → st.id = i
  settled : ∀ (s : Nat) st, c.states[s]? = some st →
    Regions.Settled c.states c.handlers lam c.captures.size st
  entry : Regions.Quiet c.states Chain.entry
  pauses : ∀ (s : Nat) st, c.states[s]? = some st → ∀ z r, st.exit = .suspend z r → z.kind = c.kind

/-- Splitting a method of the source makes a sound chain. -/
theorem Method.sound_of_split {m : Method} {limit : Nat} {c : Chain}
    (h : m.split limit = .ok (some c)) (hs : m.isSource lam = true) : c.Sound lam := by
  obtain ⟨kind, -, hc⟩ := m.exists_of_split h
  obtain ⟨C⟩ := Method.compiled hc
  have hordered : c.captures.Ordered := by
    rw [C.captures]
    exact Hoist.ordered_manifest _ _ _
  obtain ⟨hq, hsettled⟩ := C.body.settled C.numbered (m.isSource_rename.trans hs)
  refine ⟨C.disciplined, fun i st => C.id_eq, ?_, ?_, fun s st hst z r hx => m.pause_kind h hst hx⟩
  · intro s st hst
    rw [C.states, getElem?_map] at hst
    obtain ⟨st₁, hst₁, rfl⟩ := Option.map_eq_some_iff.mp hst
    obtain ⟨s₀, st₀, hlive, hst₀, -, rfl⟩ := C.shrinks.onto s st₁ hst₁
    rw [C.states, C.handlers]
    exact ((hsettled s₀ st₀ hst₀).shrinks C.shrinks hlive hst₀).hoist hordered
  · rw [C.states]
    have he := Regions.quiet_shrinks C.shrinks C.shrinks.entry hq
    rw [C.shrinks.entry_eq] at he
    exact Regions.quiet_hoist he

end Resumable

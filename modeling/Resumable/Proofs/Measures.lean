import Resumable.Proofs.Finished
import Mathlib.Algebra.GroupWithZero.Nat
import Mathlib.Algebra.Order.BigOperators.Group.List
import Mathlib.Algebra.Order.Group.Nat

namespace Resumable

open List Stmt

variable {s : Stmt} {as : List State} {e : Draft} {fb : Block} {st : State}

/-- How much a statement of a state, its terminator and the name of a split clause count. -/
structure Measure where
  stmt : Stmt → Nat
  exit : Terminator → Nat
  fault : String → Nat := fun _ => 0

namespace Measure

variable (μ : Measure)

def block (ss : Block) : Nat :=
  (ss.map μ.stmt).sum

def state (st : State) : Nat :=
  μ.block st.body + μ.exit st.exit

def states (sts : List State) : Nat :=
  (sts.map μ.state).sum

def faults (xs : List String) : Nat :=
  (xs.map μ.fault).sum

/-- Terminators count for what they evaluate, wherever they lead. -/
structure Plain : Prop where
  mapExits : ∀ f t, μ.exit (t.mapExits f) = μ.exit t
  goto : ∀ s, μ.exit (.goto s) = 0
  enter : ∀ f s, μ.exit (.enter f s) = 0
  endCleanup : μ.exit .endCleanup = 0
  complete : μ.exit .complete = 0
  unreachable : μ.exit .unreachable = 0

theorem block_singleton (s : Stmt) : μ.block [s] = μ.stmt s := by
  simp [block]

theorem block_append (ss ts : Block) : μ.block (ss ++ ts) = μ.block ss + μ.block ts := by
  simp [block]

theorem faults_append (xs ys : List String) : μ.faults (xs ++ ys) = μ.faults xs + μ.faults ys := by
  simp [faults]

theorem states_append (as bs : List State) : μ.states (as ++ bs) = μ.states as + μ.states bs := by
  simp [states]

theorem states_modify {i : Nat} (h : as[i]? = some st) (f : State → State) :
    μ.states (as.modify i f) + μ.state st = μ.states as + μ.state (f st) := by
  induction as generalizing i with
  | nil => simp at h
  | cons a as ih =>
    cases i with
    | zero =>
      cases h
      simp only [states, modify_zero_cons, map_cons, sum_cons]
      omega
    | succ i =>
      have := ih h
      simp only [states, modify_succ_cons, map_cons, sum_cons] at this ⊢
      omega

theorem state_le_states {i : Nat} (h : as[i]? = some st) : μ.state st ≤ μ.states as :=
  le_sum_of_mem (mem_map_of_mem (mem_of_getElem? h))

/-- Two states share what is counted. -/
theorem state_add_state_le {i j : Nat} {st' : State} (hij : i < j) (h : as[i]? = some st)
    (h' : as[j]? = some st') : μ.state st + μ.state st' ≤ μ.states as := by
  induction as generalizing i j with
  | nil => cases h
  | cons a as ih =>
    obtain ⟨j, rfl⟩ := Nat.exists_eq_add_one.mpr (Nat.zero_lt_of_lt hij)
    cases i with
    | zero =>
      cases h
      have hle : μ.state st' ≤ μ.states as := μ.state_le_states h'
      exact Nat.add_le_add_left hle _
    | succ i =>
      exact Nat.le_trans (ih (Nat.lt_of_succ_lt_succ hij) h h') (Nat.le_add_left ..)

theorem states_eq_zero (h : ∀ st ∈ as, st.body = [] ∧ μ.exit st.exit = 0) : μ.states as = 0 := by
  induction as with
  | nil => rfl
  | cons a as ih =>
    obtain ⟨⟨hb, he⟩, hrest⟩ := forall_mem_cons.mp h
    have := ih hrest
    simp only [states] at this
    simp [states, state, block, hb, he, this]

theorem states_mapIdx {f : Nat → State → State} (h : ∀ i st, μ.state (f i st) = μ.state st) :
    μ.states (as.mapIdx f) = μ.states as := by
  have hmap : (as.mapIdx f).map μ.state = as.map μ.state := by
    apply ext_getElem?
    intro i
    simp [Function.comp_def, h]
  rw [states, hmap, states]

end Measure

namespace Splitting

theorem expr?_mapExits (f : StateId → StateId) (t : Terminator) :
    (t.mapExits f).expr? = t.expr? := by
  cases t with
  | suspend p r => cases p <;> rfl
  | _ => rfl

theorem expr?_settle (T : Table) (t : Terminator) : (T.settle t).expr? = t.expr? := by
  unfold Table.settle
  split
  · split <;> rfl
  · rfl

end Splitting

namespace Draft

variable {μ : Measure} {d : Draft}

/-- Where terminators count for what they evaluate, the table counts as much as the draft. -/
theorem states_table {f : Option Expr → Nat} (hμ : ∀ t, μ.exit t = f t.expr?) (d : Draft) :
    μ.states d.table.states = μ.states d.states := by
  have hmap : d.table.states.map μ.state = d.states.map μ.state := by
    apply ext_getElem?
    intro i
    rw [getElem?_map, getElem?_table, Option.map_map, getElem?_map]
    have hst : μ.state ∘ d.table.finish id = μ.state := by
      funext st
      simp only [Function.comp_apply, Measure.state, Table.finish, hμ, Splitting.expr?_settle,
        Splitting.expr?_mapExits]
    rw [hst]
  rw [Measure.states, hmap, Measure.states]

/-- The total of a draft. -/
def total (μ : Measure) (d : Draft) : Nat :=
  μ.states d.states + μ.faults d.caught

theorem total_push (h : d.current < d.nextId) (s : Stmt) :
    (d.push s).total μ = d.total μ + μ.stmt s := by
  have hmod := μ.states_modify (getElem?_eq_getElem h)
    fun st => { st with body := st.body ++ [s] }
  simp only [Measure.state, Measure.block_append, Measure.block_singleton] at hmod
  simp only [total, push]
  omega

theorem total_setExit {s : Nat} (hst : d.states[s]? = some st) (he : μ.exit st.exit = 0)
    (t : Terminator) : (d.setExit s t).total μ = d.total μ + μ.exit t := by
  have hmod := μ.states_modify hst fun st => { st with exit := t }
  simp only [Measure.state] at hmod
  simp only [total, setExit]
  omega

section

variable (hμ : μ.Plain)
include hμ

theorem total_close (hd : d.Ready) (t : Terminator) :
    (d.close t).total μ = d.total μ + μ.exit t := by
  obtain ⟨st, hst, hx, -⟩ := hd.open_
  exact total_setExit hst (hx ▸ hμ.unreachable) t

theorem total_createIn (d : Draft) (h : Option HandlerId) :
    (d.createIn h).2.total μ = d.total μ := by
  simp [total, createIn, Measure.states, Measure.state, Measure.block, hμ.unreachable]

theorem total_extend (d : Draft) (k : Nat) : (d.extend k).total μ = d.total μ := by
  have hnew : μ.states ((range k).map fun i =>
      ({ id := d.nextId + i, handler := d.handler } : State)) = 0 := by
    apply μ.states_eq_zero
    intro st hst
    obtain ⟨i, -, rfl⟩ := mem_map.mp hst
    exact ⟨rfl, hμ.unreachable⟩
  rw [total, extend, Measure.states_append, hnew, Nat.add_zero, total]

theorem total_moveOn (hd : d.Ready) (k : Nat) (t : Terminator) :
    (d.moveOn k t).total μ = d.total μ + μ.exit t := by
  obtain ⟨st, hst, hx, -⟩ := hd.open_
  have hkept : (d.extend k).states[d.current]? = some st := by
    rw [getElem?_extend, if_neg (fun h => absurd h.1 (Nat.not_le_of_lt hd.lt)), hst]
  have h := total_setExit hkept (hx ▸ hμ.unreachable) t
  rwa [total_extend hμ] at h

theorem total_pause (hd : d.Ready) (p : Pause) :
    (d.pause p).total μ = d.total μ + μ.exit (.suspend p d.nextId) := by
  rw [pause_eq, total_moveOn hμ hd]

theorem total_leave (hd : d.Ready) (t : Terminator) :
    (d.leave t).total μ = d.total μ + μ.exit t := by
  rw [leave_eq d t hd.lt, total_moveOn hμ hd]

theorem total_flowTo (hd : d.Ready) (s : StateId) : (d.flowTo s).total μ = d.total μ := by
  rw [hd.flowTo, total_close hμ hd, hμ.goto, Nat.add_zero]

theorem total_route (d : Draft) (first last cleanup : StateId) :
    (d.route first last cleanup).total μ = d.total μ := by
  have hold : μ.states (d.states.mapIdx fun i s => if first ≤ i && i < last
      then { s with exit := s.exit.mapExits (d.redirect first last) } else s) =
      μ.states d.states := by
    apply μ.states_mapIdx
    intro i st
    split
    · simp only [Measure.state, hμ.mapExits]
    · rfl
  have hnew : μ.states ((d.outsideExits first last).mapIdx fun i t =>
      ({ id := d.nextId + i, exit := .enter cleanup t, handler := d.handler } : State)) = 0 := by
    apply μ.states_eq_zero
    intro st hst
    obtain ⟨i, hi, rfl⟩ := mem_mapIdx.mp hst
    exact ⟨rfl, hμ.enter ..⟩
  rw [total, states_route, Measure.states_append, hold, hnew, Nat.add_zero]
  rfl

end

end Draft

namespace Splitting

open Draft

variable {μ : Measure} {d d' : Draft} (hμ : μ.Plain)
include hμ

theorem total_openBlock (hd : d.Ready) (k : Nat) (cleanup : Option StateId) :
    (openBlock k cleanup d).total μ = d.total μ := by
  have hex := ((Extends.refl d).extend hd.lt hd.lt k).addHandler cleanup d.handler
  obtain ⟨st, hst, hx, -⟩ := hd.open_
  have hkept : ((d.extend k).addHandler cleanup d.handler).2.states[d.current]? = some st := by
    have hs : ((d.extend k).addHandler cleanup d.handler).2.states = (d.extend k).states := rfl
    rw [hs, getElem?_extend, if_neg (fun h => absurd h.1 (Nat.not_le_of_lt hd.lt)), hst]
  have hopen : (((d.extend k).addHandler cleanup d.handler).2.createIn
      (some d.handlers.length)).2.states[d.current]? = some st := by
    rw [getElem?_createIn, if_neg, hkept]
    exact Nat.ne_of_lt (Nat.lt_of_lt_of_le hd.lt hex.le)
  have h := total_setExit hopen (hx ▸ hμ.unreachable) (.goto (d.extend k).nextId)
  rw [total_createIn hμ, hμ.goto, Nat.add_zero] at h
  exact h.trans (total_extend hμ d k)

theorem total_openClause (g : HandlerId) (x : Option String) (cleanup : Option StateId)
    (outer : Option HandlerId) (d : Draft) :
    (openClause g x cleanup outer d).total μ = d.total μ + μ.faults x.toList := by
  rw [openClause_eq, total, Measure.faults_append, ← Nat.add_assoc]
  exact congrArg (· + _) (total_createIn hμ d _)

/-- The statements of the cleanup are all that is added to a guarded block when it is over. -/
theorem total_closeCleaned {h : Option HandlerId} (cleanup : Block)
    (hb : e.Blank (d.nextId + 1) h) :
    (closeCleaned d cleanup e).total μ = e.total μ + μ.block cleanup := by
  obtain ⟨st, hst, hbody, hx, -⟩ := hb
  have hfill : (fillState d cleanup e).states = e.states.modify (d.nextId + 1)
      fun st => { st with body := st.body ++ cleanup, exit := .endCleanup } := by
    rw [fillState, foldl_push_eq]
    exact modify_modify_eq ..
  have hmod := μ.states_modify hst
    fun st => { st with body := st.body ++ cleanup, exit := .endCleanup }
  simp only [Measure.state, Measure.block_append, hx, hμ.unreachable, hμ.endCleanup] at hmod
  have hroute : (closeCleaned d cleanup e).total μ =
      ((fillState d cleanup e).route (d.nextId + 2) e.nextId (d.nextId + 1)).total μ := rfl
  have hcaught : (fillState d cleanup e).caught = e.caught := by
    rw [fillState, foldl_push_eq]
    rfl
  rw [hroute, total_route hμ, total, hfill, hcaught, total]
  omega

/-- What a terminator evaluates, with the pause before it if it is an await. The rest of the
statement counts `n`. -/
theorem Takes.total_eq {e e' : Expr} (ht : Takes e e' d d') (hd : d.Ready) (t : Expr → Terminator)
    {k n : Nat} (hwhole : e.awaits = 0 → k = μ.exit (t e) + n)
    (hawait : ∀ m o, e = .await m o → o.awaits = 0 →
      k = μ.exit (.suspend (.await o) d.nextId) + μ.exit (t (.resume { span := m.span })) + n) :
    d'.total μ + μ.exit (t e') + n = d.total μ + k := by
  cases ht with
  | whole he =>
    rw [hwhole he]
    omega
  | await m he =>
    rw [total_pause hμ hd, hawait m _ rfl he]
    omega

end Splitting

/-- What a statement of the source counts is what the pieces count that splitting makes of it: the
statement itself if it stays whole, and otherwise pauses, tests, and what is left of it. -/
structure Measure.Counts (μ : Measure) (g : Stmt → Nat) : Prop extends μ.Plain where
  flat : ∀ s, s.isFlat = true → g s = μ.stmt s
  receive : ∀ s e s' r, Splitting.Receives s e s' → e.awaits = 0 →
    g s = μ.exit (.suspend (.await e) r) + μ.stmt s'
  yield : ∀ m e r, e.awaits = 0 → g (.yield m e) = μ.exit (.suspend (.yield e) r)
  leave : ∀ loops s t, Splitting.Leaves loops s t → g s = μ.exit t
  value : ∀ m e t, e.awaits = 0 → g (.ret m (some e)) = μ.exit (.ret (some e) t)
  value_await : ∀ m m' e r t, e.awaits = 0 → g (.ret m (some (.await m' e))) =
    μ.exit (.suspend (.await e) r) + μ.exit (.ret (some (.resume { span := m'.span })) t)
  cond : ∀ m t a b y n, (Stmt.cond m t a b).isFlat = false → t.awaits = 0 →
    g (.cond m t a b) = μ.exit (.branch t y n) + ((a.map g).sum + (b.map g).sum)
  cond_await : ∀ m m' e a b r y n, e.awaits = 0 → g (.cond m (.await m' e) a b) =
    μ.exit (.suspend (.await e) r) + μ.exit (.branch (.resume { span := m'.span }) y n) +
      ((a.map g).sum + (b.map g).sum)
  loop : ∀ m t b y n, (Stmt.loop m t b).isFlat = false → t.awaits = 0 →
    g (.loop m t b) = μ.exit (.branch t y n) + (b.map g).sum
  loop_await : ∀ m m' e b r y n, e.awaits = 0 → g (.loop m (.await m' e) b) =
    μ.exit (.suspend (.await e) r) + μ.exit (.branch (.resume { span := m'.span }) y n) +
      (b.map g).sum
  group : ∀ s b, Splitting.Groups s b → s.isFlat = false → g s = (b.map g).sum
  caught : ∀ m b x cb, (Stmt.attempt m b (some (.mk x cb)) none).isFlat = false →
    g (.attempt m b (some (.mk x cb)) none) =
      (b.map g).sum + (μ.faults x.toList + (cb.map g).sum)
  cleaned : ∀ m b fb, (Stmt.attempt m b none (some fb)).isFlat = false →
    Splitting.checkCleanup fb = .ok () →
    g (.attempt m b none (some fb)) = (b.map g).sum + μ.block fb
  both : ∀ m b x cb fb, (Stmt.attempt m b (some (.mk x cb)) (some fb)).isFlat = false →
    Splitting.checkCleanup fb = .ok () →
    g (.attempt m b (some (.mk x cb)) (some fb)) =
      (b.map g).sum + (μ.faults x.toList + (cb.map g).sum) + μ.block fb

namespace Splitting

open Draft

variable {μ : Measure} {g : Stmt → Nat}

theorem total_switchTo (d : Draft) (s : StateId) : (d.switchTo s).total μ = d.total μ := rfl

theorem total_setHandler (d : Draft) (h : Option HandlerId) :
    (d.setHandler h).total μ = d.total μ := rfl

theorem total_openHead (hμ : μ.Plain) {d : Draft} (hd : d.Ready) :
    (openHead d).2.total μ = d.total μ := by
  unfold openHead
  split
  · rfl
  · rw [total_moveOn hμ hd, hμ.goto, Nat.add_zero]

theorem ne_cleanup_openBlock (d : Draft) (cleanup : Option StateId) :
    d.nextId + 1 ≠ (openBlock 2 cleanup d).current := by
  rw [current_openBlock]
  exact Nat.ne_of_lt (Nat.lt_succ_self _)

theorem ne_cleanup_openClause {d : Draft} {cleanup : Option StateId}
    (h : Goes (openBlock 2 cleanup d) e) (x : Option String) (after : StateId) :
    d.nextId + 1 ≠ (openClause d.handlers.length x cleanup d.handler (e.flowTo after)).current := by
  rw [current_openClause, nextId_flowTo]
  exact Nat.ne_of_lt (Nat.lt_trans (Nat.lt_succ_self _) h.lt_of_openBlock)

/-- Splitting a block adds what its statements count. -/
theorem Splits.total_eq (hc : μ.Counts g) {kind : Kind} {loops : List LoopEnds} {ss : Block}
    {d d' : Draft} (h : Splits kind loops ss d d') (hd : d.Ready) :
    d'.total μ = d.total μ + (ss.map g).sum := by
  have hμ := hc.toPlain
  induction h with
  | nil => rfl
  | @flat loops s ss d d' hs rest ih =>
    rw [ih (goes_push hd s).ready, total_push hd.lt, map_cons, sum_cons, hc.flat s hs]
    omega
  | @receive loops s e s' ss d d' hr he rest ih =>
    have h₁ := (goes_pause hd (.await e)).ready
    rw [ih (goes_push h₁ s').ready, total_push h₁.lt, total_pause hμ hd, map_cons,
      sum_cons, hc.receive s e s' d.nextId hr he]
    omega
  | @yield loops m e ss d d' he rest ih =>
    rw [ih (goes_pause hd _).ready, total_pause hμ hd, map_cons, sum_cons,
      hc.yield m e d.nextId he]
    omega
  | @leave loops s t ss d d' hl rest ih =>
    rw [ih (goes_leave hd _).ready, total_leave hμ hd, map_cons, sum_cons,
      hc.leave loops s t hl]
    omega
  | @value loops m e e' ss d d₁ d' hk he rest ih =>
    have h₁ := (he.goes hd).ready
    have htaken := he.total_eq hμ hd (fun v => .ret (some v) (some returnState)) (n := 0)
      (hc.value m e _) (by rintro m' o rfl; exact hc.value_await m m' o _ _)
    rw [ih (goes_leave h₁ _).ready, total_leave hμ h₁, map_cons, sum_cons]
    omega
  | @when loops m t t' a ss d d₁ d₂ d' hn ht yes rest ihy ih =>
    have h₁ := (ht.goes hd).ready
    have hm := h₁.moveOn Nat.two_pos (.branch t' d₁.nextId (d₁.nextId + 1))
    obtain ⟨hy, hhy⟩ := yes.goes hm
    have hb := Back.goes_of_moveOn h₁ hy hhy (d₁.nextId + 1) Nat.one_pos Nat.one_lt_two
    have htaken := ht.total_eq hμ hd (.branch · d₁.nextId (d₁.nextId + 1))
      (hc.cond m t a [] _ _ hn) (by rintro m' o rfl; exact hc.cond_await m m' o a [] _ _ _)
    have hmove := total_moveOn hμ h₁ 2 (.branch t' d₁.nextId (d₁.nextId + 1))
    have hflow := total_flowTo hμ hy.ready (d₁.nextId + 1)
    have hyes := ihy hm
    have hrest := ih hb.ready
    rw [total_switchTo] at hrest
    simp only [map_nil, sum_nil, Nat.add_zero, map_cons, sum_cons] at htaken ⊢
    omega
  | @either loops m t t' a b ss d d₁ d₂ d₃ d' hn ht yes no rest ihy ihn ih =>
    have h₁ := (ht.goes hd).ready
    have hm := h₁.moveOn (Nat.succ_pos 2) (.branch t' d₁.nextId (d₁.nextId + 1))
    obtain ⟨hy, hhy⟩ := yes.goes hm
    have hback := Back.of_moveOn hy (d₁.nextId + 2) Nat.one_pos (by omega)
    have hb := Back.goes_of_moveOn h₁ hy hhy (d₁.nextId + 2) Nat.one_pos (by omega)
    obtain ⟨hno, hhn⟩ := no.goes hb.ready
    have hbl := hback.blank (blank_moveOn h₁.lt _ (by omega : 2 < 3))
      (Nat.ne_of_gt (Nat.lt_add_of_pos_right Nat.two_pos))
    have hlast := (Back.switchTo hno (d₁.nextId + 2) hbl.lt (Nat.succ_ne_self _)).goes_from h₁ hb
      (Nat.le_add_right ..) hbl
      ((handler_flowTo ..).trans (hhn.trans ((handler_flowTo ..).trans hhy)))
    have htaken := ht.total_eq hμ hd (.branch · d₁.nextId (d₁.nextId + 1))
      (hc.cond m t a b _ _ hn) (by rintro m' o rfl; exact hc.cond_await m m' o a b _ _ _)
    have hmove := total_moveOn hμ h₁ 3 (.branch t' d₁.nextId (d₁.nextId + 1))
    have hflow := total_flowTo hμ hy.ready (d₁.nextId + 2)
    have hflow' := total_flowTo hμ hno.ready (d₁.nextId + 2)
    have hyes := ihy hm
    have hother := ihn hb.ready
    have hrest := ih hlast.ready
    rw [total_switchTo] at hother hrest
    simp only [map_cons, sum_cons]
    omega
  | @loop loops m t t' b ss d d₁ d₂ d' hn ht body rest ihb ih =>
    have h₀ := (goes_openHead hd).ready
    have h₁ := (ht.goes h₀).ready
    have hm := h₁.moveOn Nat.two_pos (.branch t' d₁.nextId (d₁.nextId + 1))
    obtain ⟨hy, hhy⟩ := body.goes hm
    have hb := Back.goes_of_moveOn h₁ hy hhy (openHead d).1 Nat.one_pos Nat.one_lt_two
    have hhead := total_openHead hμ hd
    have htaken := ht.total_eq hμ h₀ (.branch · d₁.nextId (d₁.nextId + 1))
      (hc.loop m t b _ _ hn) (by rintro m' o rfl; exact hc.loop_await m m' o b _ _ _)
    have hmove := total_moveOn hμ h₁ 2 (.branch t' d₁.nextId (d₁.nextId + 1))
    have hflow := total_flowTo hμ hy.ready (openHead d).1
    have hbody := ihb hm
    have hrest := ih hb.ready
    rw [total_switchTo] at hrest
    simp only [map_cons, sum_cons]
    omega
  | @group loops s b ss d d₁ d' hn hg body rest ihb ih =>
    obtain ⟨h₁, -⟩ := body.goes hd
    rw [ih h₁.ready, ihb hd, map_cons, sum_cons, hc.group s b hg hn]
    omega
  | @caught loops m b x cb ss d d₁ d₂ d' hn body clause rest ihb ihc ih =>
    have h₁ := goes_openBlock hd 1 none
    obtain ⟨h₂, -⟩ := body.goes h₁.ready
    have h₃ := goes_openClause (h₁.trans h₂ hd) hd x none d.nextId
    obtain ⟨h₄, -⟩ := clause.goes h₃.ready
    have hbl := blank_openClause (h₂.blank (blank_after hd none Nat.one_pos)
      (ne_current_openBlock d none Nat.one_pos) d.nextId) d.handlers.length x none d.handler
    have h₅ := (Back.setHandler h₄ d.nextId hbl.lt (ne_current_openClause h₂ x d.nextId)
      d.handler).goes_from hd h₃ (Nat.le_refl _) hbl rfl
    have hopen := total_openBlock hμ hd 1 none
    have hflow := total_flowTo hμ h₂.ready d.nextId
    have hclause := total_openClause hμ d.handlers.length x none d.handler (d₁.flowTo d.nextId)
    have hflow' := total_flowTo hμ h₄.ready d.nextId
    have hbody := ihb h₁.ready
    have hcaught := ihc h₃.ready
    have hrest := ih h₅.ready
    rw [total_switchTo, total_setHandler] at hrest
    rw [map_cons, sum_cons, hc.caught m b x cb hn]
    omega
  | @cleaned loops m b fb ss d d₁ d' hn hf body rest ihb ih =>
    have h₁ := goes_openBlock hd 2 (some (d.nextId + 1))
    obtain ⟨h₂, -⟩ := body.goes h₁.ready
    have hbl := h₂.blank (blank_after hd _ Nat.two_pos) (ne_current_openBlock d _ Nat.two_pos)
      d.nextId
    have hcl := h₂.blank (blank_openBlock hd (some (d.nextId + 1)) Nat.one_lt_two)
      (ne_cleanup_openBlock d _) d.nextId
    have h₃ := goes_closeCleaned (h₁.trans h₂ hd) hd (Nat.lt_of_succ_lt h₂.lt_of_openBlock) hbl fb
    have hopen := total_openBlock hμ hd 2 (some (d.nextId + 1))
    have hflow := total_flowTo hμ h₂.ready d.nextId
    have hclose := total_closeCleaned hμ fb hcl
    have hbody := ihb h₁.ready
    have hrest := ih h₃.ready
    rw [map_cons, sum_cons, hc.cleaned m b fb hn hf]
    omega
  | @both loops m b x cb fb ss d d₁ d₂ d' hn hf body clause rest ihb ihc ih =>
    have h₁ := goes_openBlock hd 2 (some (d.nextId + 1))
    obtain ⟨h₂, -⟩ := body.goes h₁.ready
    have hbl := h₂.blank (blank_after hd _ Nat.two_pos) (ne_current_openBlock d _ Nat.two_pos)
      d.nextId
    have hcl := h₂.blank (blank_openBlock hd (some (d.nextId + 1)) Nat.one_lt_two)
      (ne_cleanup_openBlock d _) d.nextId
    have h₃ := goes_openClause (h₁.trans h₂ hd) hd x (some (d.nextId + 1)) d.nextId
    obtain ⟨h₄, -⟩ := clause.goes h₃.ready
    have hlt : d.nextId + 1 < d₂.nextId := by
      have := h₄.le
      have := h₂.lt_of_openBlock
      rw [nextId_openClause, nextId_flowTo] at *
      omega
    have hcl' := h₄.blank (blank_openClause hcl d.handlers.length x (some (d.nextId + 1)) d.handler)
      (ne_cleanup_openClause h₂ x d.nextId) d.nextId
    have h₅ := goes_closeCleaned (h₃.trans h₄ hd) hd hlt
      (h₄.blank (blank_openClause hbl ..) (ne_current_openClause h₂ x d.nextId) d.nextId) fb
    have hopen := total_openBlock hμ hd 2 (some (d.nextId + 1))
    have hflow := total_flowTo hμ h₂.ready d.nextId
    have hclause := total_openClause hμ d.handlers.length x (some (d.nextId + 1)) d.handler
      (d₁.flowTo d.nextId)
    have hflow' := total_flowTo hμ h₄.ready d.nextId
    have hclose := total_closeCleaned hμ fb hcl'
    have hbody := ihb h₁.ready
    have hcaught := ihc h₃.ready
    have hrest := ih h₅.ready
    rw [map_cons, sum_cons, hc.both m b x cb fb hn hf]
    omega

theorem total_splitBody (hc : μ.Counts g) {kind : Kind} {body : Block} {d : Draft}
    (h : splitBody kind body = .ok d) : d.total μ = (body.map g).sum := by
  obtain ⟨e, he, hd⟩ := bind_eq_ok h
  have hs := splits_block kind [] body he
  obtain ⟨hg, -⟩ := hs.goes ready_start
  have hstart : start.total μ = 0 := by
    apply μ.states_eq_zero
    intro st hst
    rcases mem_cons.mp hst with rfl | hst
    · exact ⟨rfl, hc.unreachable⟩
    · cases mem_singleton.mp hst
      exact ⟨rfl, hc.complete⟩
  have htotal := hs.total_eq hc ready_start
  cases hd
  rw [if_pos hg.ready.isOpen, total_close hc.toPlain hg.ready, hc.complete]
  omega

end Splitting

end Resumable

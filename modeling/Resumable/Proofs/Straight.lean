import Resumable.Proofs.Acceptance
import Resumable.Proofs.Reception

namespace Resumable

open List
open Stmt hiding bind

variable {kind : Kind} {j n u : Nat} {d : Draft} {head ts : Block} {m : Method}

/-- If the statement pauses, it is one pause and what is done with its outcome. -/
def Stmt.isSimple : Stmt → Bool
  | .yield .. => true
  | .bind _ _ e | .assign _ _ e | .store _ _ e | .eval _ e | .throw _ e => e.isWhole
  | _ => false

def Stmt.isStraight (s : Stmt) : Bool :=
  s.isFlat || s.isSimple

/-- The state before point `i` of a straight body: what is left of the statement of the last point,
and the statements up to this one. After the last point there is nothing more to come. -/
def straightState (ss : Block) (i : Nat) : State where
  id := i
  body := ([] :: (ss.filter (!·.isFlat)).map Stmt.pieces)[i]?.getD [] ++
    (ss.splitOnP (!·.isFlat))[i]?.getD []
  exit := (Stmt.pointsIn ss)[i]?.elim .complete (.suspend · (i + 1))

mutual

theorem Expr.kind_of_mem_points (e : Expr) {p : Pause} (h : p ∈ e.points) : p.kind = .async := by
  match e with
  | .await _ e =>
    rcases mem_cons.mp h with rfl | h
    · rfl
    · exact e.kind_of_mem_points h
  | .binary _ _ l r =>
    rcases mem_append.mp h with h | h
    · exact l.kind_of_mem_points h
    · exact r.kind_of_mem_points h
  | .unary _ _ e => exact e.kind_of_mem_points h
  | .call _ c es =>
    rcases mem_append.mp h with h | h
    · exact c.kind_of_mem_points h
    · exact Expr.kind_of_mem_pointsIn es h
  | .unit _ | .bool .. | .int .. | .str .. | .var .. | .lambda .. | .captured .. | .resume _ =>
    simp [Expr.points] at h

theorem Expr.kind_of_mem_pointsIn (es : List Expr) {p : Pause} (h : p ∈ Expr.pointsIn es) :
    p.kind = .async := by
  match es with
  | [] => cases h
  | e :: es =>
    rcases mem_append.mp h with h | h
    · exact e.kind_of_mem_points h
    · exact Expr.kind_of_mem_pointsIn es h

end

namespace Splitting

/-- A statement that is one pause, and what is left of it when the pause is over. -/
inductive Halts : Stmt → Pause → Block → Prop where
  | yield (m e) (he : e.awaits = 0) : Halts (.yield m e) (.yield e) []
  | await {s e s'} (hr : Receives s e s') (he : e.awaits = 0) : Halts s (.await e) [s']

variable {s : Stmt} {p : Pause} {left : Block}

theorem Halts.not_flat (h : Halts s p left) : s.isFlat = false := by
  cases h with
  | yield m e => simp [isFlat, pauses, census, Census.pauses]
  | await hr =>
    apply not_flat_of_awaits
    cases hr <;> exact Expr.awaits_await_pos {} _

theorem Halts.points (h : Halts s p left) : s.points = [p] := by
  cases h with
  | yield m e he => rw [points, Expr.points_eq_nil he]
  | await hr he => cases hr <;> simp only [points, Expr.points, Expr.points_eq_nil he]

theorem Halts.pieces (h : Halts s p left) : s.pieces = left := by
  have hn := h.not_flat
  cases h with
  | yield m e => simp [pieces, hn]
  | await hr => cases hr <;> simp [pieces, hn]

theorem noAwait_of_awaits {e : Expr} (he : e.awaits = 0) (place : Position) :
    noAwait e place = .ok () := by
  rw [noAwait, e.firstAwait_of_awaits place he]

theorem Halts.splitStmt (h : Halts s p left) (kind : Kind) (loops : List LoopEnds) (d : Draft) :
    splitStmt kind loops s d = .ok (left.foldl Draft.push (d.pause p)) := by
  have hn := h.not_flat
  rw [splitStmt.eq_def, hn]
  cases h with
  | yield m e he => simp [noAwait_of_awaits he, bind, Except.bind, pure, Except.pure]
  | await hr he =>
    cases hr <;> simp [takeAwait, noAwait_of_awaits he, bind, Except.bind, pure, Except.pure]

/-- In a body whose points are of one kind, a straight statement that does not stay whole is one
pause. -/
theorem halts_of_isStraight (hs : s.isStraight = true) (hn : s.isFlat = false)
    (hk : ∀ p ∈ s.points, p.kind = kind) : ∃ p left, Halts s p left := by
  have hwhole : ∀ (e : Expr), s.census = e.census → s.escape 0 = none → e.isWhole = true →
      ∃ m o, e = .await m o ∧ o.awaits = 0 := by
    intro e hc hx he
    cases e with
    | await m o => exact ⟨m, o, rfl, beq_iff_eq.mp he⟩
    | _ =>
      have he := beq_iff_eq.mp he
      simp [isFlat, pauses, hc, hx, Expr.census, Census.pauses, he] at hn
  have hs : s.isSimple = true := by simpa [isStraight, hn] using hs
  cases s with
  | yield m e =>
    refine ⟨_, _, .yield m e ?_⟩
    by_contra hne
    obtain ⟨q, hq⟩ := exists_mem_of_length_pos
      (e.length_points ▸ Nat.pos_of_ne_zero hne : 0 < e.points.length)
    have hyield := hk (.yield e) (mem_cons_self ..)
    have hawait := (e.kind_of_mem_points hq).symm.trans (hk q (mem_cons_of_mem _ hq))
    cases hyield.trans hawait.symm
  | bind m x e =>
    obtain ⟨m', o, rfl, ho⟩ := hwhole e rfl rfl hs
    exact ⟨_, _, .await (.bind m x m' o) ho⟩
  | assign m x e =>
    obtain ⟨m', o, rfl, ho⟩ := hwhole e rfl rfl hs
    exact ⟨_, _, .await (.assign m x m' o) ho⟩
  | store m k e =>
    obtain ⟨m', o, rfl, ho⟩ := hwhole e rfl rfl hs
    exact ⟨_, _, .await (.store m k m' o) ho⟩
  | eval m e =>
    obtain ⟨m', o, rfl, ho⟩ := hwhole e rfl rfl hs
    exact ⟨_, _, .await (.eval m m' o) ho⟩
  | throw m e =>
    obtain ⟨m', o, rfl, ho⟩ := hwhole e rfl rfl hs
    exact ⟨_, _, .await (.throw m m' o) ho⟩
  | _ => cases hs

end Splitting

/-! The states of a straight body. -/

/-- The states from one with the number `id` on that holds `head` already; the others have the
numbers from `next` on. -/
def straightFrom (id next : Nat) (head : Block) : Block → List State
  | [] => [{ id, body := head, exit := .complete }]
  | s :: ss =>
    if s.isFlat then straightFrom id next (head ++ [s]) ss
    else { id, body := head, exit := s.points.head?.elim .complete (.suspend · next) } ::
      straightFrom next (next + 1) s.pieces ss

/-- Every statement stays whole or is one pause. -/
def Straight (ss : Block) : Prop :=
  ∀ s ∈ ss, s.isFlat = true ∨ ∃ p left, Splitting.Halts s p left

theorem straight_of_isStraight {ss : Block} (hs : ∀ s ∈ ss, s.isStraight = true)
    (hk : ∀ p ∈ Stmt.pointsIn ss, p.kind = kind) : Straight ss := by
  intro s hmem
  cases hflat : s.isFlat with
  | true => exact .inl rfl
  | false =>
    refine .inr (Splitting.halts_of_isStraight (hs s hmem) hflat fun p hp => hk p ?_)
    rw [pointsIn_eq_flatMap]
    exact mem_flatMap.mpr ⟨s, hmem, hp⟩

/-- The number of the state with the place `j` among those from `id` on. -/
def placed (id next : Nat) : Nat → Nat
  | 0 => id
  | j + 1 => next + j

theorem getElem?_straightFrom {ss : Block} (hs : Straight ss) (id next j : Nat) (head : Block) :
    (straightFrom id next head ss)[j]? = if j ≤ (Stmt.pointsIn ss).length then some
      { id := placed id next j
        body := (head :: (ss.filter (!·.isFlat)).map Stmt.pieces)[j]?.getD [] ++
          (ss.splitOnP (!·.isFlat))[j]?.getD []
        exit := (Stmt.pointsIn ss)[j]?.elim .complete (.suspend · (next + j)) }
      else none := by
  induction ss generalizing id next j head with
  | nil => cases j <;> simp [straightFrom, pointsIn, placed]
  | cons s ss ih =>
    obtain ⟨hs, hrest⟩ := forall_mem_cons.mp hs
    rcases hs with hflat | ⟨p, left, hh⟩
    · have hpoints : pointsIn (s :: ss) = pointsIn ss := by
        rw [pointsIn, points_eq_nil (pauses_of_isFlat hflat), nil_append]
      have hfilter : (s :: ss).filter (!·.isFlat) = ss.filter (!·.isFlat) := by simp [hflat]
      have hsplit : (s :: ss).splitOnP (!·.isFlat) =
          (ss.splitOnP (!·.isFlat)).modifyHead (s :: ·) := by
        rw [splitOnP_cons_eq_if_modifyHead]
        simp [hflat]
      rw [straightFrom, if_pos hflat, ih hrest, hpoints, hfilter, hsplit]
      obtain ⟨b, bs, hb⟩ := exists_cons_of_ne_nil (splitOnP_ne_nil (!·.isFlat) ss)
      rw [hb]
      cases j <;> simp
    · have hflat := hh.not_flat
      have hpoints : pointsIn (s :: ss) = p :: pointsIn ss := by
        rw [pointsIn, hh.points, singleton_append]
      have hsplit : (s :: ss).splitOnP (!·.isFlat) = [] :: ss.splitOnP (!·.isFlat) := by
        rw [splitOnP_cons_eq_if_modifyHead]
        simp [hflat]
      have hfilter : ((s :: ss).filter (!·.isFlat)).map pieces =
          left :: (ss.filter (!·.isFlat)).map pieces := by
        simp [hflat, hh.pieces]
      rw [straightFrom, if_neg (Bool.eq_false_iff.mp hflat), hpoints, hsplit, hfilter, hh.points,
        hh.pieces]
      cases j with
      | zero => simp [placed]
      | succ j =>
        have hplaced : placed next (next + 1) j = placed id next (j + 1) := by
          cases j with
          | zero => rfl
          | succ j => simp only [placed]; omega
        rw [getElem?_cons_succ, ih hrest, hplaced]
        simp [Nat.add_assoc, Nat.add_comm 1]

theorem length_straightFrom {ss : Block} (hs : Straight ss) (id next : Nat) (head : Block) :
    (straightFrom id next head ss).length = (Stmt.pointsIn ss).length + 1 := by
  apply Nat.le_antisymm
  · apply getElem?_eq_none_iff.mp
    rw [getElem?_straightFrom hs, if_neg (Nat.not_succ_le_self _)]
  · apply Nat.succ_le_of_lt
    apply Nat.lt_of_not_le
    intro hle
    have hnone := getElem?_eq_none_iff.mpr hle
    rw [getElem?_straightFrom hs, if_pos (Nat.le_refl _)] at hnone
    cases hnone

/-! The draft. -/

namespace Splitting

open Draft

theorem modify_eq_set {α : Type} {l : List α} {i : Nat} {a : α} (h : l[i]? = some a) (f : α → α) :
    l.modify i f = l.set i (f a) := by
  rw [modify_eq_set_getElem?, h]
  rfl

/-- The open state is closed by a pause, and what is left of the statement begins the next. -/
theorem foldl_push_pause (hh : d.handler = none)
    (hst : d.states[d.current]? = some { id := d.current, body := head }) (p : Pause)
    (left : Block) :
    left.foldl Draft.push (d.pause p) = { d with
      states := d.states.set d.current
        { id := d.current, body := head, exit := .suspend p d.nextId } ++
          [{ id := d.nextId, body := left }]
      current := d.nextId } := by
  have hlt : d.current < d.states.length := (List.getElem?_eq_some_iff.mp hst).1
  have hpause : (d.pause p).states = d.states.set d.current
      { id := d.current, body := head, exit := .suspend p d.nextId } ++ [{ id := d.nextId }] := by
    have hold : (d.states ++ [({ id := d.nextId } : State)])[d.current]? =
        some { id := d.current, body := head } := by
      rw [getElem?_append_left hlt, hst]
    have hmod := modify_eq_set hold fun st => { st with exit := .suspend p d.nextId }
    rw [set_append, if_pos hlt] at hmod
    rw [← hmod, ← hh]
    rfl
  have hnew : (d.pause p).states[d.nextId]? = some { id := d.nextId } := by
    rw [hpause, getElem?_append_right (by simp [nextId])]
    simp [nextId]
  have hset : (d.pause p).states.modify d.nextId (fun st => { st with body := st.body ++ left }) =
      d.states.set d.current { id := d.current, body := head, exit := .suspend p d.nextId } ++
        [{ id := d.nextId, body := left }] := by
    rw [modify_eq_set hnew, hpause, set_append, if_neg (by simp [nextId])]
    simp [nextId]
  rw [foldl_push_eq, ← hset]
  rfl

/-- A straight block goes on from the open state, and each pause is followed by a new one. -/
theorem splitBlock_straight (kind : Kind) (loops : List LoopEnds) {ss : Block} (hs : Straight ss)
    (hh : d.handler = none) (hst : d.states[d.current]? = some { id := d.current, body := head }) :
    ∃ d', splitBlock kind loops ss d = .ok d' ∧ d'.isOpen = true ∧ d'.handlers = d.handlers ∧
      d'.caught = d.caught ∧ ∃ first rest, straightFrom d.current d.nextId head ss = first :: rest ∧
        (d'.close .complete).states = d.states.set d.current first ++ rest := by
  have hlt : d.current < d.nextId := (List.getElem?_eq_some_iff.mp hst).1
  induction ss generalizing d head with
  | nil =>
    refine ⟨d, rfl, ?_, rfl, rfl, _, _, rfl, ?_⟩
    · simp [isOpen, hst, Terminator.isUnreachable]
    · rw [append_nil]
      exact modify_eq_set hst _
  | cons s ss ih =>
    obtain ⟨hs, hrest⟩ := forall_mem_cons.mp hs
    rcases hs with hflat | ⟨p, left, hhalt⟩
    · have hpush : (d.push s).states = d.states.set d.current
          { id := d.current, body := head ++ [s] } := modify_eq_set hst _
      have hst' : (d.push s).states[(d.push s).current]? =
          some { id := d.current, body := head ++ [s] } := by
        rw [hpush]
        exact getElem?_set_self hlt
      obtain ⟨d', hd', hopen, hhandlers, hcaught, first, rest, hfrom, hstates⟩ :=
        ih (d := d.push s) hrest hh hst' (nextId_push d s ▸ hlt)
      refine ⟨d', ?_, hopen, hhandlers, hcaught, first, rest, ?_, ?_⟩
      · rw [splitBlock, splitStmt.eq_def, if_pos hflat]
        exact hd'
      · rw [straightFrom, if_pos hflat, ← hfrom, nextId_push]
        rfl
      · rw [hstates, hpush]
        exact congrArg (· ++ rest) (set_set ..)
    · have hpause := foldl_push_pause hh hst p left
      let d₁ : Draft := { d with
        states := d.states.set d.current
          { id := d.current, body := head, exit := .suspend p d.nextId } ++
            [{ id := d.nextId, body := left }]
        current := d.nextId }
      have hlen : d₁.nextId = d.nextId + 1 := by simp [d₁, nextId]
      have hst' : d₁.states[d₁.current]? = some { id := d₁.current, body := left } := by
        simp [d₁, nextId]
      obtain ⟨d', hd', hopen, hhandlers, hcaught, first, rest, hfrom, hstates⟩ :=
        ih (d := d₁) hrest hh hst' (hlen ▸ Nat.lt_succ_self _)
      refine ⟨d', ?_, hopen, hhandlers, hcaught,
        { id := d.current, body := head, exit := .suspend p d.nextId }, first :: rest, ?_, ?_⟩
      · rw [splitBlock, hhalt.splitStmt, hpause]
        exact hd'
      · rw [straightFrom, if_neg (Bool.eq_false_iff.mp hhalt.not_flat), hhalt.points,
          hhalt.pieces, ← hfrom, hlen]
        rfl
      · rw [hstates]
        simp [d₁, nextId]

end Splitting

/-! What is live in the table. -/

/-- The states of a straight body stand in the table, with the return state after the first. -/
structure Spread (ss : Block) (T : List State) : Prop where
  length : T.length = (Stmt.pointsIn ss).length + 2
  state : ∀ j ≤ (Stmt.pointsIn ss).length, T[placed 0 2 j]? = some { straightState ss j with
    id := placed 0 2 j
    exit := (Stmt.pointsIn ss)[j]?.elim .complete (.suspend · (2 + j)) }
  finish : T[1]? = some { id := 1, exit := .complete }

theorem placed_lt (hj : j ≤ n) : placed 0 2 j < n + 2 := by
  cases j with
  | zero => exact Nat.succ_pos _
  | succ j =>
    simp only [placed]
    omega

theorem exists_placed (hu : u < n + 2) (hne : u ≠ 1) : ∃ j ≤ n, placed 0 2 j = u := by
  match u with
  | 0 => exact ⟨0, Nat.zero_le _, rfl⟩
  | u + 2 => exact ⟨u + 1, by omega, Nat.add_comm 2 u⟩

namespace Splitting

/-- A straight body is split into its states, and nothing covers them. -/
theorem splitBody_straight (kind : Kind) {ss : Block} (hs : Straight ss) :
    ∃ d, splitBody kind ss = .ok d ∧ Spread ss d.states ∧ d.handlers = [] ∧ d.caught = [] := by
  obtain ⟨d, hd, hopen, hhandlers, hcaught, first, rest, hfrom, hstates⟩ :=
    splitBlock_straight (d := start) kind [] hs rfl rfl
  have hsplit : splitBody kind ss = .ok (d.close .complete) := by
    rw [splitBody, hd]
    show Except.ok _ = _
    rw [if_pos hopen]
  have hstates : (d.close .complete).states =
      first :: { id := 1, exit := .complete } :: rest := hstates
  have hfrom : straightFrom 0 2 [] ss = first :: rest := hfrom
  refine ⟨d.close .complete, hsplit, ⟨?_, ?_, ?_⟩, hhandlers, hcaught⟩
  · have hlen := length_straightFrom hs 0 2 []
    rw [hfrom, length_cons] at hlen
    rw [hstates, length_cons, length_cons, hlen]
  · intro j hj
    have hget := getElem?_straightFrom hs 0 2 j []
    rw [if_pos hj, hfrom] at hget
    refine Eq.trans ?_ hget
    rw [hstates]
    cases j with
    | zero => rfl
    | succ j =>
      rw [placed, Nat.add_comm 2 j]
      rfl
  · rw [hstates]
    rfl

end Splitting

namespace Spread

open Reduce

variable {ss : Block} {T : List State} (h : Spread ss T)
include h

theorem cases {st : State} (hst : T[u]? = some st) :
    st.exit = .complete ∧ st.handler = none ∨
      ∃ j p, u = placed 0 2 j ∧ (Stmt.pointsIn ss)[j]? = some p ∧ st.exit = .suspend p (2 + j) ∧
        st.handler = none := by
  have hlt := (List.getElem?_eq_some_iff.mp hst).1
  rw [h.length] at hlt
  by_cases hu : u = 1
  · subst hu
    cases hst.symm.trans h.finish
    exact .inl ⟨rfl, rfl⟩
  · obtain ⟨j, hj, rfl⟩ := exists_placed hlt hu
    cases hst.symm.trans (h.state j hj)
    cases hp : (pointsIn ss)[j]? with
    | none => exact .inl ⟨rfl, rfl⟩
    | some p => exact .inr ⟨j, p, rfl, hp, rfl, rfl⟩

theorem finishReturns : finishReturns T = T := by
  apply ext_getElem?
  intro u
  rw [getElem?_finishReturns]
  cases hst : T[u]? with
  | none => rfl
  | some st =>
    rcases h.cases hst with ⟨hx, -⟩ | ⟨j, p, -, -, hx, -⟩
    · simp [hx]
    · simp [hx]

theorem mem_next {t : Nat} (ht : t ∈ next T [] u) : ∃ j, j < (Stmt.pointsIn ss).length ∧
    u = placed 0 2 j ∧ t = 2 + j := by
  unfold Reduce.next at ht
  cases hst : T[u]? with
  | none =>
    rw [hst] at ht
    cases ht
  | some st =>
    rw [hst] at ht
    rcases h.cases hst with ⟨hx, hh⟩ | ⟨j, p, hu, hp, hx, hh⟩
    · simp [hx, Terminator.successors, covering, hh] at ht
    · simp [hx, Terminator.successors, covering, hh] at ht
      exact ⟨j, (List.getElem?_eq_some_iff.mp hp).1, hu, ht⟩

/-- Control comes to every state but the return state. -/
theorem live_iff : u ∈ liveStates T [] ↔ u < T.length ∧ u ≠ 1 := by
  constructor
  · intro hu
    refine ⟨lt_of_live hu, ?_⟩
    rintro rfl
    obtain ⟨v, -, hv, -⟩ := live_from hu nofun
    obtain ⟨j, -, -, hj⟩ := h.mem_next hv
    omega
  · intro hu
    rw [h.length] at hu
    obtain ⟨j, hj, rfl⟩ := exists_placed hu.1 hu.2
    clear hu
    induction j with
    | zero => exact live_entry [] (h.length ▸ Nat.succ_pos _)
    | succ j ih =>
      have hp := getElem?_eq_getElem hj
      refine live_next (ih (Nat.le_of_succ_le hj)) ?_ (h.length ▸ placed_lt hj)
      show 2 + j ∈ _
      rw [Reduce.next, h.state j (Nat.le_of_succ_le hj), hp]
      exact mem_append_left _ (mem_singleton_self _)

theorem has_stateMarks (u : Nat) : (stateMarks T []).has u = true ↔ u < T.length ∧ u ≠ 1 :=
  Reduce.has_stateMarks.trans h.live_iff

theorem countP_take (hn : Numbered T []) {k : Nat} (hk : k ≤ T.length) :
    (T.take k).countP (fun st => (stateMarks T []).has st.id) = if k ≤ 1 then k else k - 1 := by
  induction k with
  | zero => rfl
  | succ k ih =>
    have hst := getElem?_eq_getElem hk
    have hstep : (T.take (k + 1)).countP (fun st => (stateMarks T []).has st.id) =
        (T.take k).countP (fun st => (stateMarks T []).has st.id) +
          if (stateMarks T []).has k = true then 1 else 0 := by
      rw [take_add_one, hst, countP_append, Option.toList_some, countP_singleton,
        hn.state k _ hst]
    rw [hstep, ih (Nat.le_of_succ_le hk)]
    by_cases hk1 : k = 1
    · rw [if_neg fun hm => ((h.has_stateMarks k).mp hm).2 hk1, hk1]
      rfl
    · rw [if_pos ((h.has_stateMarks k).mpr ⟨hk, hk1⟩)]
      split <;> split <;> omega

theorem live_placed (hj : j ≤ (Stmt.pointsIn ss).length) : placed 0 2 j ∈ liveStates T [] := by
  refine h.live_iff.mpr ⟨h.length ▸ placed_lt hj, ?_⟩
  cases j with
  | zero => exact nofun
  | succ j =>
    simp only [placed]
    omega

/-- The states get the numbers of their places in the body. -/
theorem stateNumber_placed (hn : Numbered T []) (hj : j ≤ (Stmt.pointsIn ss).length) :
    stateNumber T [] (placed 0 2 j) = j := by
  have hlt : placed 0 2 j < T.length := h.length ▸ placed_lt hj
  have hcount := rank_eq_countP hn.state (by simp [stateMarks])
    (Reduce.has_stateMarks.mpr (h.live_placed hj))
  refine hcount.trans ((h.countP_take hn (Nat.le_of_lt hlt)).trans ?_)
  cases j with
  | zero => rfl
  | succ j =>
    rw [placed, if_neg (by omega)]
    omega

/-- The live part of the table are the states of the body, one after the other. -/
theorem livePart (hn : Numbered T []) : livePart T [] =
    ((List.range ((Stmt.pointsIn ss).length + 1)).map (straightState ss), []) := by
  refine Prod.ext (ext_getElem? fun k => ?_) rfl
  show _ = ((range ((pointsIn ss).length + 1)).map (straightState ss))[k]?
  by_cases hk : k ≤ (pointsIn ss).length
  · have hget := getElem?_livePart hn (h.live_placed hk) (h.state k hk)
    rw [h.stateNumber_placed hn hk] at hget
    rw [hget, getElem?_map, getElem?_range (Nat.lt_succ_of_le hk), Option.map_some]
    congr 1
    have hexit : ((pointsIn ss)[k]?.elim Terminator.complete (.suspend · (2 + k))).mapStates
        (Reduce.stateNumber T []) = (straightState ss k).exit := by
      cases hp : (pointsIn ss)[k]? with
      | none => simp [straightState, hp, Terminator.mapStates, Terminator.mapExits]
      | some p =>
        have hlt : k + 1 ≤ (pointsIn ss).length := (List.getElem?_eq_some_iff.mp hp).1
        have hnext : Reduce.stateNumber T [] (2 + k) = k + 1 := h.stateNumber_placed hn hlt
        simp [straightState, hp, Terminator.mapStates, Terminator.mapExits, hnext]
    simp only [renumberState, h.stateNumber_placed hn hk, hexit]
    rfl
  · have hnone : ((range ((pointsIn ss).length + 1)).map (straightState ss))[k]? = none := by
      apply getElem?_eq_none
      rw [length_map, length_range]
      omega
    rw [hnone]
    cases hst : (Reduce.livePart T []).1[k]? with
    | none => rfl
    | some st =>
      obtain ⟨s, old, hlive, -, hnum, -⟩ := exists_of_getElem?_livePart hn hst
      obtain ⟨hlt, hne⟩ := h.live_iff.mp hlive
      obtain ⟨j, hj, rfl⟩ := exists_placed (h.length ▸ hlt) hne
      rw [h.stateNumber_placed hn hj] at hnum
      exact absurd (hnum ▸ hj) hk

end Spread

/-! Straight methods. -/

/-- Nothing in a statement that stays whole ends the iteration. -/
theorem Stmt.yieldBreaks_of_isFlat {s : Stmt} (h : s.isFlat = true) : s.census.yieldBreaks = 0 := by
  by_contra hne
  have hc : censusIn [s] = s.census := by
    simp only [censusIn]
    rfl
  have hpos : 0 < (censusIn [s]).yieldBreaks := hc ▸ Nat.pos_of_ne_zero hne
  obtain ⟨n, hn, hy⟩ := (censusIn_iff Census.additive_yieldBreaks [] [s]).mp hpos
  have hclosed := ((isFlat_iff s).mp h).2
  exact hclosed n hn (.inr (.inl ((own_yieldBreaks_pos _).mp hy)))

/-- A straight body whose points are of one kind does nothing else that makes it what it is. -/
theorem Straight.census {ss : Block} (hs : Straight ss)
    (hk : ∀ p ∈ Stmt.pointsIn ss, p.kind = kind) :
    (Stmt.censusIn ss).yieldBreaks = 0 ∧
      (kind = .iterator → (Stmt.censusIn ss).awaits = 0) ∧
      (kind = .async → (Stmt.censusIn ss).yields = 0) := by
  induction ss with
  | nil => exact ⟨rfl, fun _ => rfl, fun _ => rfl⟩
  | cons s ss ih =>
    obtain ⟨hs, hrest⟩ := forall_mem_cons.mp hs
    have hkinds := forall_mem_append.mp hk
    obtain ⟨hbreaks, hawaits, hyields⟩ := ih hrest hkinds.2
    rw [censusIn, Census.yieldBreaks_add, Census.awaits_add, Census.yields_add, hbreaks]
    rcases hs with hflat | ⟨p, left, hhalt⟩
    · have hpauses := Census.pauses_eq_false.mp (pauses_of_isFlat hflat)
      refine ⟨by rw [yieldBreaks_of_isFlat hflat], fun h => ?_, fun h => ?_⟩
      · rw [hawaits h]
        omega
      · rw [hyields h]
        omega
    · have hp := hkinds.1 p (hhalt.points ▸ mem_singleton_self p)
      cases hhalt with
      | yield m e he =>
        cases hp
        refine ⟨rfl, fun h => ?_, nofun⟩
        rw [hawaits h, census, Census.awaits_add]
        exact congrArg (0 + · + 0) he
      | await hr he =>
        cases hp
        refine ⟨by cases hr <;> rfl, nofun, fun h => ?_⟩
        rw [hyields h]
        cases hr <;> rfl

theorem Straight.kind_eq (hs : Straight m.body) (hpos : 0 < (Stmt.pointsIn m.body).length)
    (hk : ∀ p ∈ Stmt.pointsIn m.body, p.kind = kind) :
    m.kind = kind ∧ ∀ limit, m.split limit = some <$> m.rename.toChain kind limit := by
  obtain ⟨hbreaks, hawaits, hyields⟩ := hs.census hk
  rw [length_pointsIn] at hpos
  have hkind : m.kind = kind := by
    unfold Method.kind
    cases kind with
    | iterator => rw [if_pos (Method.yields_iff.mpr (by rw [hawaits rfl] at hpos; exact hpos))]
    | async =>
      rw [if_neg fun h => Nat.lt_irrefl 0 ((hyields rfl) ▸ Method.yields_iff.mp h)]
  refine ⟨hkind, fun limit => hkind ▸ Method.split_of_unmixed ?_ ?_⟩
  · rw [Method.yields_iff, Method.awaits_iff]
    omega
  · rw [Method.yields_iff, Method.awaits_iff, Method.yieldBreaks_iff]
    cases kind with
    | iterator => have := hawaits rfl; omega
    | async => have := hyields rfl; omega

/-! Naming the bindings of a straight body anew. -/

def State.nameless (st : State) : State :=
  { st with body := Stmt.namelessIn st.body, exit := st.exit.mapExpr Expr.nameless }

/-- The statements are the same but for their names, and so are the pieces they come to. -/
structure Stmt.Like (s t : Stmt) : Prop where
  isFlat : s.isFlat = t.isFlat
  nameless : s.nameless = t.nameless
  pieces : Stmt.namelessIn s.pieces = Stmt.namelessIn t.pieces

namespace Binding

open Splitting

theorem halts_renameStmt (scope : Scope) {s : Stmt} (b : Bound) {p : Pause} {left : Block}
    (h : Halts s p left) : ∃ p' left', Halts (renameStmt scope s b).1.1 p' left' ∧
      Stmt.namelessIn left' = Stmt.namelessIn left := by
  cases h with
  | yield m e he => exact ⟨_, _, .yield m _ ((awaits_renameExpr scope e b).trans he), rfl⟩
  | @await s e s' hr he =>
    have he := (awaits_renameExpr scope e b).trans he
    cases hr with
    | bind m x m' => exact ⟨_, _, .await (.bind m _ m' _) he, rfl⟩
    | assign m x m' => exact ⟨_, _, .await (.assign m _ m' _) he, rfl⟩
    | store m k m' => exact ⟨_, _, .await (.store m k m' _) he, rfl⟩
    | eval m m' => exact ⟨_, _, .await (.eval m m' _) he, rfl⟩
    | throw m m' => exact ⟨_, _, .await (.throw m m' _) he, rfl⟩

theorem straight_renameBlock (scope : Scope) {ss : Block} (b : Bound) (hs : Straight ss) :
    Straight (renameBlock scope ss b).1 := by
  induction ss generalizing scope b with
  | nil => exact nofun
  | cons s ss ih =>
    obtain ⟨hs, hrest⟩ := forall_mem_cons.mp hs
    refine forall_mem_cons.mpr ⟨?_, ih _ _ hrest⟩
    rcases hs with hflat | ⟨p, left, hh⟩
    · exact .inl ((isFlat_renameStmt scope s b).trans hflat)
    · obtain ⟨p', left', hh', _⟩ := halts_renameStmt scope b hh
      exact .inr ⟨p', left', hh'⟩

theorem like_renameBlock (scope : Scope) {ss : Block} (b : Bound) (hs : Straight ss) :
    List.Forall₂ Stmt.Like (renameBlock scope ss b).1 ss := by
  induction ss generalizing scope b with
  | nil => exact .nil
  | cons s ss ih =>
    obtain ⟨hs, hrest⟩ := forall_mem_cons.mp hs
    have hflat := isFlat_renameStmt scope s b
    have hname := nameless_renameStmt scope s b
    refine .cons ⟨hflat, hname, ?_⟩ (ih _ _ hrest)
    rcases hs with hs | ⟨p, left, hh⟩
    · rw [pieces_flat (hflat.trans hs), pieces_flat hs, namelessIn, hname]
      rfl
    · obtain ⟨p', left', hh', hleft⟩ := halts_renameStmt scope b hh
      rw [hh'.pieces, hh.pieces, hleft]

end Binding

theorem pieces_like {ss : Block} (h : List.Forall₂ Stmt.Like ss ts) :
    ((ss.filter (!·.isFlat)).map Stmt.pieces).map Stmt.namelessIn =
      ((ts.filter (!·.isFlat)).map Stmt.pieces).map Stmt.namelessIn := by
  induction h with
  | nil => rfl
  | @cons s t ss ts hst _ ih =>
    have hflat := hst.isFlat
    cases ht : t.isFlat with
    | true =>
      rw [ht] at hflat
      rw [filter_cons_of_neg (by simp [hflat]), filter_cons_of_neg (by simp [ht]), ih]
    | false =>
      rw [ht] at hflat
      rw [filter_cons_of_pos (by simp [hflat]), filter_cons_of_pos (by simp [ht]),
        map_cons, map_cons, map_cons, map_cons, hst.pieces, ih]

theorem splitOnP_like {ss : Block} (h : List.Forall₂ Stmt.Like ss ts) :
    (ss.splitOnP (!·.isFlat)).map Stmt.namelessIn =
      (ts.splitOnP (!·.isFlat)).map Stmt.namelessIn := by
  induction h with
  | nil => rfl
  | @cons s t ss ts hst _ ih =>
    rw [splitOnP_cons_eq_if_modifyHead, splitOnP_cons_eq_if_modifyHead, hst.isFlat]
    split
    · rw [map_cons, map_cons, ih]
    · obtain ⟨b, bs, hb⟩ := exists_cons_of_ne_nil (splitOnP_ne_nil (!·.isFlat) ss)
      obtain ⟨c, cs, hc⟩ := exists_cons_of_ne_nil (splitOnP_ne_nil (!·.isFlat) ts)
      rw [hb, hc, map_cons, map_cons, cons.injEq] at ih
      rw [hb, hc, modifyHead_cons, modifyHead_cons, map_cons, map_cons,
        namelessIn, namelessIn, hst.nameless, ih.1, ih.2]

theorem Stmt.namelessIn_append (ss ts : Block) :
    Stmt.namelessIn (ss ++ ts) = Stmt.namelessIn ss ++ Stmt.namelessIn ts := by
  induction ss with
  | nil => rfl
  | cons s ss ih => rw [cons_append, namelessIn, ih, namelessIn, cons_append]

/-- Names apart, a part of a straight body is found in its list of parts. -/
theorem namelessIn_getD (bs : List Block) (i : Nat) :
    Stmt.namelessIn (bs[i]?.getD []) = (bs.map Stmt.namelessIn)[i]?.getD [] := by
  rw [getElem?_map]
  cases bs[i]? <;> rfl

/-- Names apart, the states of a straight body stay what they are when its bindings are named
anew. -/
theorem Method.straightState_rename (hs : Straight m.body) (i : Nat) :
    (straightState m.rename.body i).nameless = (straightState m.body i).nameless := by
  have hlike : List.Forall₂ Stmt.Like m.rename.body m.body := Binding.like_renameBlock _ _ hs
  have hexit : ∀ ss : Block, (straightState ss i).exit.mapExpr Expr.nameless =
      ((pointsIn ss).map Pause.nameless)[i]?.elim .complete (.suspend · (i + 1)) := by
    intro ss
    rw [straightState, getElem?_map]
    cases hp : (pointsIn ss)[i]? with
    | none => rfl
    | some p => cases p <;> rfl
  have hbody : ∀ ss : Block, namelessIn (straightState ss i).body =
      ([] :: ((ss.filter (!·.isFlat)).map pieces).map namelessIn)[i]?.getD [] ++
        ((ss.splitOnP (!·.isFlat)).map namelessIn)[i]?.getD [] := by
    intro ss
    rw [straightState, namelessIn_append, namelessIn_getD, namelessIn_getD, map_cons]
    rfl
  rw [State.nameless, State.nameless, hexit, hexit, hbody, hbody, m.points_rename,
    pieces_like hlike, splitOnP_like hlike]
  rfl

/-- All but the last of the states of a straight body end in a pause. -/
theorem countP_straightState (M : Manifest) (ss : Block) :
    ((List.range ((Stmt.pointsIn ss).length + 1)).map
      (fun i => Hoist.hoistState M (straightState ss i))).countP (·.exit.isSuspension) =
        (Stmt.pointsIn ss).length := by
  have hexit : ∀ i, (Hoist.hoistState M (straightState ss i)).exit.isSuspension =
      decide (i < (pointsIn ss).length) := by
    intro i
    show ((straightState ss i).exit.mapExpr (Hoist.hoistExpr M)).isSuspension = _
    rw [straightState]
    cases hp : (pointsIn ss)[i]? with
    | none => exact (decide_eq_false (Nat.not_lt.mpr (getElem?_eq_none_iff.mp hp))).symm
    | some p =>
      rw [decide_eq_true (List.getElem?_eq_some_iff.mp hp).1]
      cases p <;> rfl
  simp only [countP_map, Function.comp_def, hexit]
  rw [range_succ, countP_append, countP_eq_length.mpr (by simp), length_range]
  simp

/-- A body that pauses at its top only, at points of one kind, is cut exactly there: there is one
state before each point and one after the last, and no handler. Naming the bindings anew and
moving them to slots changes nothing else in them. -/
theorem straight_line_split {m : Method} {kind : Kind} {limit : Nat}
    (hs : ∀ s ∈ m.body, s.isStraight = true) (hpos : 0 < (Stmt.pointsIn m.body).length)
    (hkind : ∀ p ∈ Stmt.pointsIn m.body, p.kind = kind)
    (hlimit : (Stmt.pointsIn m.body).length + 1 ≤ limit) :
    ∃ c, m.split limit = .ok (some c) ∧ c.kind = kind ∧ c.handlers = [] ∧
      c.suspensions = (Stmt.pointsIn m.body).length ∧
      c.states = (List.range ((Stmt.pointsIn m.body).length + 1)).map
        (fun i => Hoist.hoistState c.captures (straightState m.rename.body i)) ∧
      ∀ i, (straightState m.rename.body i).nameless = (straightState m.body i).nameless := by
  have hstraight := straight_of_isStraight hs hkind
  have hrename : Straight m.rename.body := Binding.straight_renameBlock _ _ hstraight
  have hlen : (pointsIn m.rename.body).length = (pointsIn m.body).length := by
    simpa using congrArg length m.points_rename
  obtain ⟨d, hd, hspread, hhandlers, -⟩ := Splitting.splitBody_straight kind hrename
  have hnum : Numbered d.states [] := by
    have hnum := (Splitting.splitBody_laid hd).2
    unfold Draft.table at hnum
    rwa [hspread.finishReturns, hhandlers] at hnum
  have hlive : Reduce.livePart (Reduce.finishReturns d.states) d.handlers =
      ((range ((pointsIn m.body).length + 1)).map (straightState m.rename.body), []) := by
    rw [hspread.finishReturns, hhandlers, hspread.livePart hnum, hlen]
  obtain ⟨hk, hsplit⟩ := hstraight.kind_eq hpos hkind
  rw [hsplit limit]
  unfold Method.toChain
  have hshort : ¬ limit < ((range ((pointsIn m.body).length + 1)).map
    (straightState m.rename.body)).length := by
    rw [length_map, length_range]
    omega
  simp only [hd, hlive, bind, Except.bind, gt_iff_lt, if_neg hshort]
  refine ⟨_, rfl, rfl, rfl, ?_, map_map, m.straightState_rename hstraight⟩
  have hcount := fun M => countP_straightState M m.rename.body
  simp only [hlen] at hcount
  rw [Chain.suspensions, map_map]
  exact hcount _

/-- A method with two points, one of them at the end of a `let`, and statements around them. -/
def twoAwaits : Method where
  name := "m"
  params := ["x"]
  body :=
    [.eval {} (.call {} (.var {} "f") [.var {} "x"]),
     .bind {} "y" (.await {} (.call {} (.var {} "g") [])),
     .eval {} (.call {} (.var {} "f") [.var {} "y"]),
     .eval {} (.await {} (.var {} "x"))]

/-- The first state of three stops at the first point, the second takes its outcome, and the last
takes the outcome of the second. -/
theorem twoAwaits_split : ∃ c, twoAwaits.split 3 = .ok (some c) ∧ c.kind = .async ∧
    c.handlers = [] ∧ c.suspensions = 2 ∧
    c.states = [0, 1, 2].map
      (fun i => Hoist.hoistState c.captures (straightState twoAwaits.rename.body i)) ∧
    straightState twoAwaits.body 1 =
      { id := 1
        body := [.bind {} "y" (.resume {}), .eval {} (.call {} (.var {} "f") [.var {} "y"])]
        exit := .suspend (.await (.var {} "x")) 2 } := by
  have hpoints : pointsIn twoAwaits.body =
      [.await (.call {} (.var {} "g") []), .await (.var {} "x")] := by decide +kernel
  obtain ⟨c, hc, hkind, hhandlers, hcount, hstates, -⟩ :=
    @straight_line_split twoAwaits .async 3 (by decide +kernel)
      (by rw [hpoints]; decide) (by rw [hpoints]; decide) (by rw [hpoints]; decide)
  rw [hpoints] at hcount hstates
  exact ⟨c, hc, hkind, hhandlers, hcount, hstates, by decide +kernel⟩

end Resumable

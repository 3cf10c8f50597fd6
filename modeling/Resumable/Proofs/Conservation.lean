import Resumable.Proofs.Measures
import Resumable.Proofs.Pauses
import Mathlib.Data.List.Perm.Basic

namespace Resumable

open List Stmt

variable {s : Stmt} {fb : Block}

/-! The pauses of a body. -/

/-- What a terminator pauses at, if it does. -/
def Terminator.pause? : Terminator → Option Pause
  | .suspend p _ => some p
  | _ => none

mutual

/-- What an expression awaits, outside of lambdas. -/
def Expr.points : Expr → List Pause
  | .await _ e => .await e :: e.points
  | .binary _ _ l r => l.points ++ r.points
  | .unary _ _ e => e.points
  | .call _ c es => c.points ++ Expr.pointsIn es
  | .unit _ | .bool .. | .int .. | .str .. | .var .. | .lambda .. | .captured .. | .resume _ => []

def Expr.pointsIn : List Expr → List Pause
  | [] => []
  | e :: es => e.points ++ Expr.pointsIn es

end

mutual

/-- What a statement hands out and awaits, outside of lambdas, in the order of the source. -/
def Stmt.points : Stmt → List Pause
  | .bind _ _ e | .assign _ _ e | .store _ _ e | .eval _ e | .throw _ e | .ret _ (some e) =>
    e.points
  | .yield _ e => .yield e :: e.points
  | .cond _ t a b => t.points ++ Stmt.pointsIn a ++ Stmt.pointsIn b
  | .loop _ t b => t.points ++ Stmt.pointsIn b
  | .attempt _ b c f => Stmt.pointsIn b ++ Stmt.clausePoints c ++ Stmt.cleanupPoints f
  | .block _ b => Stmt.pointsIn b
  | .ret _ none | .yieldBreak _ | .brk _ | .cont _ => []

def Stmt.clausePoints : Option Catch → List Pause
  | none => []
  | some (.mk _ b) => Stmt.pointsIn b

def Stmt.cleanupPoints : Option (List Stmt) → List Pause
  | none => []
  | some b => Stmt.pointsIn b

def Stmt.pointsIn : List Stmt → List Pause
  | [] => []
  | s :: ss => s.points ++ Stmt.pointsIn ss

end

mutual

theorem Expr.length_points (e : Expr) : e.points.length = e.awaits := by
  match e with
  | .await _ e =>
    simp only [Expr.points, Expr.awaits, length_cons, e.length_points]
    omega
  | .binary _ _ l r =>
    simp only [Expr.points, Expr.awaits, length_append, l.length_points, r.length_points]
  | .unary _ _ e => simp only [Expr.points, Expr.awaits, e.length_points]
  | .call _ c es =>
    simp only [Expr.points, Expr.awaits, length_append, c.length_points,
      Expr.length_pointsIn es]
  | .unit _ | .bool .. | .int .. | .str .. | .var .. | .lambda .. | .captured .. | .resume _ =>
    simp only [Expr.points, Expr.awaits, length_nil]

theorem Expr.length_pointsIn (es : List Expr) : (Expr.pointsIn es).length = Expr.awaitsIn es := by
  match es with
  | [] => rfl
  | e :: es =>
    simp only [Expr.pointsIn, Expr.awaitsIn, length_append, e.length_points,
      Expr.length_pointsIn es]

end

mutual

/-- A body has as many points as it yields and awaits. -/
theorem Stmt.length_points (s : Stmt) :
    s.points.length = s.census.yields + s.census.awaits := by
  match s with
  | .bind _ _ e | .assign _ _ e | .store _ _ e | .eval _ e | .throw _ e | .ret _ (some e) =>
    simp only [points, census, Expr.census, e.length_points, Nat.zero_add]
  | .yield _ e =>
    simp only [points, census, Expr.census, Census.yields_add, Census.awaits_add,
      length_cons, e.length_points]
    omega
  | .cond _ t a b =>
    simp only [points, census, Expr.census, Census.yields_add, Census.awaits_add,
      length_append, t.length_points, length_pointsIn a, length_pointsIn b]
    omega
  | .loop _ t b =>
    simp only [points, census, Expr.census, Census.yields_add, Census.awaits_add,
      length_append, t.length_points, length_pointsIn b]
    omega
  | .attempt _ b c f =>
    simp only [points, Binding.census_attempt, Census.yields_add, Census.awaits_add,
      length_append, length_pointsIn b, length_clausePoints c,
      length_cleanupPoints f]
    omega
  | .block _ b => simp only [points, census, length_pointsIn b]
  | .ret _ none | .yieldBreak _ | .brk _ | .cont _ =>
    simp only [points, census, length_nil]

theorem Stmt.length_clausePoints (c : Option Catch) : (Stmt.clausePoints c).length =
    (Binding.clauseCensus c).yields + (Binding.clauseCensus c).awaits := by
  match c with
  | none => rfl
  | some (.mk _ b) => exact length_pointsIn b

theorem Stmt.length_cleanupPoints (f : Option (List Stmt)) : (Stmt.cleanupPoints f).length =
    (Binding.cleanupCensus f).yields + (Binding.cleanupCensus f).awaits := by
  match f with
  | none => rfl
  | some b => exact length_pointsIn b

theorem Stmt.length_pointsIn (ss : List Stmt) : (Stmt.pointsIn ss).length =
    (Stmt.censusIn ss).yields + (Stmt.censusIn ss).awaits := by
  match ss with
  | [] => rfl
  | s :: ss =>
    simp only [pointsIn, censusIn, Census.yields_add, Census.awaits_add,
      length_append, s.length_points, length_pointsIn ss]
    omega

end

theorem Expr.points_eq_nil {e : Expr} (h : e.awaits = 0) : e.points = [] :=
  eq_nil_of_length_eq_zero (e.length_points.trans h)

theorem Stmt.points_eq_nil (h : s.pauses = false) : s.points = [] := by
  apply eq_nil_of_length_eq_zero
  simp only [pauses, Census.pauses, decide_eq_false_iff_not] at h
  rw [s.length_points]
  omega

theorem Stmt.pauses_of_isFlat (h : s.isFlat = true) : s.pauses = false := by
  simp only [isFlat, Bool.and_eq_true, Bool.not_eq_true'] at h
  exact h.1

theorem Stmt.pointsIn_eq_flatMap (ss : Block) : Stmt.pointsIn ss = ss.flatMap Stmt.points := by
  induction ss with
  | nil => rfl
  | cons s ss ih => rw [pointsIn, ih, flatMap_cons]

/-- A cleanup that is accepted pauses nowhere. -/
theorem Splitting.pauses_of_checkCleanup (h : checkCleanup fb = .ok ()) :
    ∀ s ∈ fb, s.pauses = false := by
  unfold checkCleanup at h
  split at h
  · cases h
  · next hnone =>
    intro s hs
    exact Bool.eq_false_iff.mpr (find?_eq_none.mp hnone s hs)

theorem Stmt.pointsIn_cleanup (h : Splitting.checkCleanup fb = .ok ()) : Stmt.pointsIn fb = [] := by
  rw [pointsIn_eq_flatMap, flatMap_eq_nil_iff]
  exact fun s hs => points_eq_nil (Splitting.pauses_of_checkCleanup h s hs)

namespace Measure

/-- How often a state pauses at `p`. -/
def pauses (p : Pause) : Measure where
  stmt _ := 0
  exit t := t.pause?.toList.count p

theorem sum_points (p : Pause) (ss : Block) :
    (ss.map fun s => s.points.count p).sum = (Stmt.pointsIn ss).count p := by
  rw [pointsIn_eq_flatMap, count_flatMap]
  rfl

theorem block_pauses (p : Pause) (ss : Block) : (pauses p).block ss = 0 := by
  simp [block, pauses]

theorem faults_pauses (p : Pause) (xs : List String) : (pauses p).faults xs = 0 := by
  simp [faults, pauses]

/-- The points of a body are the pauses that it is split into. -/
theorem counts_pauses (p : Pause) : (pauses p).Counts fun s => s.points.count p where
  mapExits f t := by cases t <;> rfl
  goto _ := rfl
  enter _ _ := rfl
  endCleanup := rfl
  complete := rfl
  unreachable := rfl
  flat s hs := by simp [points_eq_nil (pauses_of_isFlat hs), pauses]
  receive s e s' r hr he := by
    cases hr <;> simp [points, Expr.points, Expr.points_eq_nil he, pauses, Terminator.pause?]
  yield m e r he := by simp [points, Expr.points_eq_nil he, pauses, Terminator.pause?]
  leave loops s t hl := by cases hl <;> simp [points, pauses, Terminator.pause?]
  value m e t he := by simp [points, Expr.points_eq_nil he, pauses, Terminator.pause?]
  value_await m m' e r t he := by
    simp [points, Expr.points, Expr.points_eq_nil he, pauses, Terminator.pause?]
  cond m t a b y n hn ht := by
    rw [sum_points, sum_points]
    simp [points, Expr.points_eq_nil ht, pauses, Terminator.pause?]
  cond_await m m' e a b r y n he := by
    have hpoints : (cond m (.await m' e) a b).points =
        [.await e] ++ (pointsIn a ++ pointsIn b) := by
      simp [points, Expr.points, Expr.points_eq_nil he]
    rw [sum_points, sum_points, hpoints, count_append, count_append]
    rfl
  loop m t b y n hn ht := by
    rw [sum_points]
    simp [points, Expr.points_eq_nil ht, pauses, Terminator.pause?]
  loop_await m m' e b r y n he := by
    have hpoints : (loop m (.await m' e) b).points = [.await e] ++ pointsIn b := by
      simp [points, Expr.points, Expr.points_eq_nil he]
    rw [sum_points, hpoints, count_append]
    rfl
  group s b hg hn := by
    rw [sum_points]
    cases hg <;> simp [points, clausePoints, cleanupPoints]
  caught m b x cb hn := by
    rw [sum_points, sum_points, faults_pauses]
    simp [points, clausePoints, cleanupPoints]
  cleaned m b fb hn hf := by
    rw [sum_points, block_pauses]
    simp [points, clausePoints, cleanupPoints, pointsIn_cleanup hf]
  both m b x cb fb hn hf := by
    rw [sum_points, sum_points, block_pauses, faults_pauses]
    simp [points, clausePoints, cleanupPoints, pointsIn_cleanup hf]

end Measure

/-! The statements of a body. -/

mutual

/-- The statements that a statement puts into states: itself if it stays whole, what is left of it
when its await is over, and otherwise those of the blocks inside of it. A cleanup stays as it is. -/
def Stmt.pieces (s : Stmt) : List Stmt :=
  if s.isFlat then [s] else
  match s with
  | .bind m x (.await m' _) => [.bind m x (.resume { span := m'.span })]
  | .assign m x (.await m' _) => [.assign m x (.resume { span := m'.span })]
  | .store m k (.await m' _) => [.store m k (.resume { span := m'.span })]
  | .eval m (.await m' _) => [.eval m (.resume { span := m'.span })]
  | .throw m (.await m' _) => [.throw m (.resume { span := m'.span })]
  | .cond _ _ a b => Stmt.piecesIn a ++ Stmt.piecesIn b
  | .loop _ _ b | .block _ b => Stmt.piecesIn b
  | .attempt _ b c f => Stmt.piecesIn b ++ Stmt.clausePieces c ++ f.getD []
  | _ => []

def Stmt.clausePieces : Option Catch → List Stmt
  | none => []
  | some (.mk _ b) => Stmt.piecesIn b

def Stmt.piecesIn : List Stmt → List Stmt
  | [] => []
  | s :: ss => s.pieces ++ Stmt.piecesIn ss

end

theorem Stmt.piecesIn_eq_flatMap (ss : Block) : Stmt.piecesIn ss = ss.flatMap Stmt.pieces := by
  induction ss with
  | nil => rfl
  | cons s ss ih => rw [piecesIn, ih, flatMap_cons]

theorem Stmt.pieces_flat (hs : s.isFlat = true) : s.pieces = [s] := by
  rw [pieces.eq_def, if_pos hs]

/-- A statement with an await of its own does not stay whole. -/
theorem Stmt.not_flat_of_awaits (h : 0 < s.census.awaits) : s.isFlat = false := by
  have hpauses : s.pauses = true := by
    simp only [pauses, Census.pauses, decide_eq_true_iff]
    omega
  simp [isFlat, hpauses]

namespace Measure

/-- How often `s` stands in a state. -/
def occurrences (s : Stmt) : Measure where
  stmt s' := [s'].count s
  exit _ := 0

theorem sum_pieces (s : Stmt) (ss : Block) :
    (ss.map fun s' => s'.pieces.count s).sum = (Stmt.piecesIn ss).count s := by
  rw [piecesIn_eq_flatMap, count_flatMap]
  rfl

theorem block_occurrences (s : Stmt) (ss : Block) : (occurrences s).block ss = ss.count s := by
  induction ss with
  | nil => rfl
  | cons s' ss ih =>
    rw [count_cons, ← ih]
    simp only [block, occurrences, map_cons, sum_cons, count_singleton]
    omega

theorem faults_occurrences (s : Stmt) (xs : List String) : (occurrences s).faults xs = 0 := by
  simp [faults, occurrences]

/-- The pieces of a body are the statements that it is split into. -/
theorem counts_occurrences (s : Stmt) : (occurrences s).Counts fun s' => s'.pieces.count s where
  mapExits _ _ := rfl
  goto _ := rfl
  enter _ _ := rfl
  endCleanup := rfl
  complete := rfl
  unreachable := rfl
  flat s' hs := by rw [pieces_flat hs]; rfl
  receive s₀ e s' r hr he := by
    have hn : s₀.isFlat = false := by
      apply not_flat_of_awaits
      cases hr <;> simp only [census, Expr.census, Expr.awaits] <;> omega
    cases hr <;> simp [Stmt.pieces, hn, occurrences]
  yield m e r he := by
    have hn : (Stmt.yield m e).isFlat = false := by
      simp [Stmt.isFlat, Stmt.pauses, Stmt.census, Census.pauses]
    simp [pieces, hn, occurrences]
  leave loops s' t hl := by
    have hn : s'.isFlat = false := by
      cases hl <;> simp [isFlat, escape]
    cases hl <;> simp [pieces, hn, occurrences]
  value m e t he := by
    have hn : (ret m (some e)).isFlat = false := by simp [isFlat, escape]
    simp [pieces, hn, occurrences]
  value_await m m' e r t he := by
    have hn : (ret m (some (.await m' e))).isFlat = false := by
      simp [isFlat, escape]
    simp [pieces, hn, occurrences]
  cond m t a b y n hn ht := by
    rw [sum_pieces, sum_pieces]
    simp [pieces, hn, occurrences]
  cond_await m m' e a b r y n he := by
    have hn : (cond m (.await m' e) a b).isFlat = false := by
      apply not_flat_of_awaits
      simp only [census, Census.awaits_add, Expr.census, Expr.awaits]
      omega
    rw [sum_pieces, sum_pieces]
    simp [pieces, hn, occurrences]
  loop m t b y n hn ht := by
    rw [sum_pieces]
    simp [pieces, hn, occurrences]
  loop_await m m' e b r y n he := by
    have hn : (loop m (.await m' e) b).isFlat = false := by
      apply not_flat_of_awaits
      simp only [census, Census.awaits_add, Expr.census, Expr.awaits]
      omega
    rw [sum_pieces]
    simp [pieces, hn, occurrences]
  group s' b hg hn := by
    rw [sum_pieces]
    cases hg <;> simp [pieces, hn, clausePieces]
  caught m b x cb hn := by
    rw [sum_pieces, sum_pieces, faults_occurrences]
    simp [pieces, hn, clausePieces]
  cleaned m b fb hn hf := by
    rw [sum_pieces, block_occurrences]
    simp [pieces, hn, clausePieces]
  both m b x cb fb hn hf := by
    rw [sum_pieces, sum_pieces, block_occurrences, faults_occurrences]
    simp [pieces, hn, clausePieces, Nat.add_assoc]

end Measure

namespace Splitting

open Draft

variable {kind : Kind} {body : Block} {d : Draft}

/-- The pauses of the table of a body are those of the body. -/
theorem perm_pauses (h : splitBody kind body = .ok d) :
    (d.states.filterMap (·.exit.pause?)).Perm (Stmt.pointsIn body) := by
  apply perm_iff_count.mpr
  intro p
  have htotal := total_splitBody (Measure.counts_pauses p) h
  rw [Measure.sum_points] at htotal
  have hstate : (Measure.pauses p).state = fun st => st.exit.pause?.toList.count p := by
    funext st
    rw [Measure.state, Measure.block_pauses, Nat.zero_add]
    rfl
  rw [← htotal, filterMap_eq_flatMap_toList, count_flatMap, total, Measure.states, hstate,
    Measure.faults_pauses]
  rfl

/-- The statements of the table of a body are the pieces of the body. -/
theorem perm_statements (h : splitBody kind body = .ok d) :
    (d.states.flatMap (·.body)).Perm (Stmt.piecesIn body) := by
  apply perm_iff_count.mpr
  intro s
  have htotal := total_splitBody (Measure.counts_occurrences s) h
  rw [Measure.sum_pieces] at htotal
  have hstate : (Measure.occurrences s).state = fun st => st.body.count s := by
    funext st
    rw [Measure.state, Measure.block_occurrences]
    rfl
  rw [← htotal, count_flatMap, total, Measure.states, hstate, Measure.faults_occurrences]
  rfl

end Splitting

end Resumable

import Resumable.Proofs.Compiled

namespace Resumable

variable {z : Pause} {r : StateId} {limit s : Nat} {st : State} {t : Terminator} {c : Chain}
  {m : Method}

/-- The body has pauses of this sort. -/
def Census.Has (c : Census) : Pause → Prop
  | .yield _ => 0 < c.yields
  | .await _ => 0 < c.awaits

namespace Census

@[simp] theorem yields_add (a b : Census) : (a + b).yields = a.yields + b.yields := rfl

@[simp] theorem yieldBreaks_add (a b : Census) :
    (a + b).yieldBreaks = a.yieldBreaks + b.yieldBreaks := rfl

@[simp] theorem awaits_add (a b : Census) : (a + b).awaits = a.awaits + b.awaits := rfl

theorem Has.add_left {a : Census} {p : Pause} (h : a.Has p) (b : Census) : (a + b).Has p := by
  cases p <;> exact Nat.lt_of_lt_of_le h (Nat.le_add_right ..)

theorem Has.add_right {b : Census} {p : Pause} (h : b.Has p) (a : Census) : (a + b).Has p := by
  cases p <;> exact Nat.lt_of_lt_of_le h (Nat.le_add_left ..)

end Census

theorem Expr.awaits_await_pos (m : Mark) (e : Expr) : 0 < (Expr.await m e).awaits := by
  rw [Expr.awaits]
  omega

namespace Layout

variable {T : Table} {h : Option HandlerId} {J : Targets} {ss : Block} {p q : Point} {lo hi : Nat}

/-- A state that pauses is none of those that end otherwise. -/
theorem Ends.ne_state (he : Ends T p t) (ht : t.isSuspension = false) (hst : T.states[s]? = some st)
    (hx : st.exit = .suspend z r) : s ≠ p.state := by
  rintro rfl
  rw [← he.exit_eq hst, hx] at ht
  cases ht

theorem IsCleanup.ne_state {f : Nat} {fb : Block} (hf : IsCleanup T h f fb)
    (hst : T.states[s]? = some st) (hx : st.exit = .suspend z r) : s ≠ f := by
  rintro rfl
  obtain ⟨st', hst', -, he, -⟩ := hf
  cases hst.symm.trans hst'
  rw [he] at hx
  cases hx

theorem Routed.not_suspend {cleanup : StateId} {first r' after : Nat} {J' : Targets}
    (hr : Routed T h cleanup first J' J lo hi) (ha : IsRoute T h cleanup r' after)
    (hl : Leaves T J' r' first lo) (hst : T.states[s]? = some st) (hx : st.exit = .suspend z r) :
    ¬(lo ≤ s ∧ s < hi) := by
  rintro ⟨hlo, hhi⟩
  obtain ⟨y, ⟨st', hst', -, he, -⟩, -⟩ := hr.route ha hl hlo hhi
  cases hst.symm.trans hst'
  rw [he] at hx
  cases hx

theorem Taken.pauses {e e' : Expr} {p₁ : Point} {lo₁ : Nat} (ht : Taken T h e e' p p₁ lo lo₁)
    (hs : Within p lo lo₁ s) (hne : s ≠ p₁.state) (hst : T.states[s]? = some st)
    (hx : st.exit = .suspend z r) : e.census.Has z := by
  cases ht with
  | whole _ =>
    omega
  | await m _ hp _ =>
    rcases hs with rfl | hs
    · rw [hp.exit_eq hst] at hx
      cases hx
      exact Expr.awaits_await_pos m _
    · exact absurd (show s = lo by omega) hne

/-- A state that pauses comes from a statement that does. -/
theorem Laid.pauses (hl : Laid T h J ss p q lo hi) (hs : Within p lo hi s) (hne : s ≠ q.state)
    (hst : T.states[s]? = some st) (hx : st.exit = .suspend z r) : (Stmt.censusIn ss).Has z := by
  induction hl generalizing s st with
  | nil =>
    omega
  | flat _ _ _ ih => exact (ih hs hne hst hx).add_right _
  | receive hr _ hp _ _ _ ih =>
    rcases hs with rfl | hs
    · rw [hp.exit_eq hst] at hx
      cases hx
      refine Census.Has.add_left ?_ _
      cases hr <;> simp only [Census.Has, Stmt.census, Expr.census, Expr.awaits] <;> omega
    · exact (ih (by simp only [Within]; omega) hne hst hx).add_right _
  | yield _ hp _ _ ih =>
    rcases hs with rfl | hs
    · rw [hp.exit_eq hst] at hx
      cases hx
      refine Census.Has.add_left ?_ _
      simp only [Census.Has, Stmt.census, Census.yields_add]
      omega
    · exact (ih (by simp only [Within]; omega) hne hst hx).add_right _
  | leave hj hp _ _ ih =>
    rcases hs with rfl | hs
    · refine absurd rfl (hp.ne_state ?_ hst hx)
      cases hj <;> rfl
    · exact (ih (by simp only [Within]; omega) hne hst hx).add_right _
  | @value h J m e e' t ss p p₁ q lo lo₁ hi he hj hp _ _ ih =>
    have hle := he.le
    by_cases h₁ : s = p₁.state
    · exact absurd h₁ (hp.ne_state rfl hst hx)
    by_cases h₂ : Within p lo lo₁ s
    · exact (he.pauses h₂ h₁ hst hx).add_left _
    · exact (ih (by simp only [Within] at *; omega) hne hst hx).add_right _
  | @when h J m t t' a ss p p₁ qa q lo y hi₁ hi ht hp _ _ yes ha rest ihy ih =>
    have hle := ht.le
    have hly := yes.le.1
    by_cases h₁ : s = p₁.state
    · exact absurd h₁ (hp.ne_state rfl hst hx)
    by_cases h₂ : Within p lo y s
    · exact (((ht.pauses h₂ h₁ hst hx).add_left _).add_left _).add_left _
    by_cases h₃ : Within ⟨y, 0⟩ (y + 2) hi₁ s
    · exact (((ihy h₃ (ha.ne_state rfl hst hx) hst hx).add_right _).add_left _).add_left _
    · exact (ih (by simp only [Within] at *; omega) hne hst hx).add_right _
  | @either h J m t t' a b ss p p₁ qa qb q lo y hi₁ hi₂ hi ht hp _ _ _ yes ha no hb rest ihy ihn
      ih =>
    have hle := ht.le
    have hly := yes.le.1
    have hln := no.le.1
    by_cases h₁ : s = p₁.state
    · exact absurd h₁ (hp.ne_state rfl hst hx)
    by_cases h₂ : Within p lo y s
    · exact (((ht.pauses h₂ h₁ hst hx).add_left _).add_left _).add_left _
    by_cases h₃ : Within ⟨y, 0⟩ (y + 3) hi₁ s
    · exact (((ihy h₃ (ha.ne_state rfl hst hx) hst hx).add_right _).add_left _).add_left _
    by_cases h₄ : Within ⟨y + 1, 0⟩ hi₁ hi₂ s
    · exact ((ihn h₄ (hb.ne_state rfl hst hx) hst hx).add_right _).add_left _
    · exact (ih (by simp only [Within] at *; omega) hne hst hx).add_right _
  | @loop h J m t t' b ss p p₁ qb q head lo lo₁ y hi₁ hi hh ht hp _ _ body hb rest ihb ih =>
    have hlh := hh.le
    have hle := ht.le
    have hlb := body.le.1
    by_cases h₁ : s = p₁.state
    · exact absurd h₁ (hp.ne_state rfl hst hx)
    by_cases h₂ : Within ⟨head, 0⟩ lo₁ y s
    · exact ((ht.pauses h₂ h₁ hst hx).add_left _).add_left _
    by_cases h₃ : Within ⟨y, 0⟩ (y + 2) hi₁ s
    · exact ((ihb h₃ (hb.ne_state rfl hst hx) hst hx).add_right _).add_left _
    by_cases h₄ : Within ⟨y + 1, 0⟩ hi₁ hi s
    · exact (ih h₄ hne hst hx).add_right _
    · cases hh with
      | here => simp only [Within] at *; omega
      | new he _ => exact absurd (by simp only [Within] at *; omega) (he.ne_state rfl hst hx)
  | @group h J s' b ss p p₁ q lo hi₁ hi hg body rest ihb ih =>
    have hlb := body.le
    by_cases h₁ : Within p₁ hi₁ hi s
    · exact (ih h₁ hne hst hx).add_right _
    · have hin := ihb (s := s) (by omega)
        (by omega) hst hx
      refine Census.Has.add_left ?_ _
      cases hg with
      | block m b => exact hin
      | attempt m b => exact (hin.add_left _).add_left _
  | @caught h J m b x cb ss g p qb qc q lo hi₁ hi₂ hi _ _ _ hp _ body hb _ clause hd rest ihb ihc
      ih =>
    have hlb := body.le.1
    have hlc := clause.le.1
    have h₁ := hp.ne_state rfl hst hx
    by_cases h₂ : Within ⟨lo + 1, 0⟩ (lo + 2) hi₁ s
    · exact (((ihb h₂ (hb.ne_state rfl hst hx) hst hx).add_left _).add_left _).add_left _
    by_cases h₃ : Within ⟨hi₁, 0⟩ (hi₁ + 1) hi₂ s
    · exact (((ihc h₃ (hd.ne_state rfl hst hx) hst hx).add_right _).add_left _).add_left _
    · exact (ih (by simp only [Within] at *; omega) hne hst hx).add_right _
  | @cleaned h J J' m b fb ss g p qb q r' lo hi₁ hi₂ hi _ _ _ hf hp _ body hb hr routes rest ihb
      ih =>
    have hlb := body.le.1
    have h₁ := hp.ne_state rfl hst hx
    have h₂ := hf.ne_state hst hx
    by_cases h₃ : Within ⟨lo + 2, 0⟩ (lo + 3) hi₁ s
    · exact (((ihb h₃ (hb.ne_state rfl hst hx) hst hx).add_left _).add_left _).add_left _
    have h₄ := routes.not_suspend hr.2.2 (body.leaves hb) hst hx
    exact (ih (by simp only [Within] at *; omega) hne hst hx).add_right _
  | @both h J J' m b x cb fb ss g k p qb qc q r' lo hi₁ hi₂ hi₃ hi _ _ _ _ _ hf hp _ body hb _
      clause hd hr routes rest ihb ihc ih =>
    have hlb := body.le.1
    have hlc := clause.le.1
    have h₁ := hp.ne_state rfl hst hx
    have h₂ := hf.ne_state hst hx
    by_cases h₃ : Within ⟨lo + 2, 0⟩ (lo + 3) hi₁ s
    · exact (((ihb h₃ (hb.ne_state rfl hst hx) hst hx).add_left _).add_left _).add_left _
    by_cases h₄ : Within ⟨hi₁, 0⟩ (hi₁ + 1) hi₂ s
    · exact (((ihc h₄ (hd.ne_state rfl hst hx) hst hx).add_right _).add_left _).add_left _
    have h₅ := routes.not_suspend hr.2.2
      ((body.leaves hb).append (clause.leaves hd) (by omega) (by omega)) hst hx
    exact (ih (by simp only [Within] at *; omega) hne hst hx).add_right _

theorem Body.pauses {body : Block} (hb : Body T body) (hst : T.states[s]? = some st)
    (hx : st.exit = .suspend z r) : (Stmt.censusIn body).Has z := by
  obtain ⟨q, hl, hq⟩ := hb.laid
  obtain ⟨st₁, hst₁, -, he₁, -⟩ := hb.finish
  have hlt : s < T.states.length := (List.getElem?_eq_some_iff.mp hst).1
  have hne : s ≠ 1 := by
    rintro rfl
    cases hst₁.symm.trans hst
    rw [he₁] at hx
    cases hx
  exact hl.pauses (by simp only [Within]; omega) (hq.ne_state rfl hst hx) hst hx

end Layout

/-! Renaming. -/

namespace Binding

mutual

theorem awaits_renameExpr (scope : Scope) (e : Expr) (b : Bound) :
    (renameExpr scope e b).1.awaits = e.awaits := by
  match e with
  | .binary m op l r =>
    exact congrArg₂ (· + ·) (awaits_renameExpr scope l _) (awaits_renameExpr scope r _)
  | .unary m op e => exact awaits_renameExpr scope e _
  | .call m c es =>
    exact congrArg₂ (· + ·) (awaits_renameExpr scope c _) (awaits_renameExprs scope es _)
  | .await m e => exact congrArg (1 + ·) (awaits_renameExpr scope e _)
  | .lambda m ps b => rfl
  | .unit m | .bool m _ | .int m _ | .str m _ | .var m _ | .captured m _ | .resume m => rfl

theorem awaits_renameExprs (scope : Scope) (es : List Expr) (b : Bound) :
    Expr.awaitsIn (renameExprs scope es b).1 = Expr.awaitsIn es := by
  match es with
  | [] => rfl
  | e :: es =>
    exact congrArg₂ (· + ·) (awaits_renameExpr scope e _) (awaits_renameExprs scope es _)

end

theorem census_renameExpr (scope : Scope) (e : Expr) (b : Bound) :
    (renameExpr scope e b).1.census = e.census :=
  congrArg (fun n => ({ awaits := n } : Census)) (awaits_renameExpr scope e b)

/-- How often a catch clause pauses. -/
def clauseCensus : Option Catch → Census
  | none => {}
  | some (.mk _ b) => Stmt.censusIn b

def cleanupCensus : Option Block → Census
  | none => {}
  | some b => Stmt.censusIn b

theorem census_attempt (m : Mark) (x : Block) (c : Option Catch) (f : Option Block) :
    (Stmt.attempt m x c f).census = Stmt.censusIn x + clauseCensus c + cleanupCensus f := by
  rcases c with - | ⟨y, cb⟩ <;> cases f <;> simp only [Stmt.census, clauseCensus, cleanupCensus]

mutual

theorem census_renameStmt (scope : Scope) (s : Stmt) (b : Bound) :
    (renameStmt scope s b).1.1.census = s.census := by
  match s with
  | .bind m x e | .assign m x e | .eval m e | .throw m e | .ret m (some e) | .store m k e =>
    exact census_renameExpr scope e b
  | .cond m t x y =>
    exact congrArg₂ (· + ·) (congrArg₂ (· + ·) (census_renameExpr scope t _)
      (census_renameBlock scope x _)) (census_renameBlock scope y _)
  | .loop m t x =>
    exact congrArg₂ (· + ·) (census_renameExpr scope t _) (census_renameBlock scope x _)
  | .attempt m x c f =>
    have h : (renameStmt scope (.attempt m x c f) b).1.1 = .attempt m (renameBlock scope x b).1
      (renameClause scope c (renameBlock scope x b).2).1
      (renameCleanup scope f (renameClause scope c (renameBlock scope x b).2).2).1 := rfl
    rw [h, census_attempt, census_attempt, census_renameBlock scope x, census_renameClause scope c,
      census_renameCleanup scope f]
  | .yield m e => exact congrArg (({ yields := 1 } : Census) + ·) (census_renameExpr scope e _)
  | .block m x => exact census_renameBlock scope x _
  | .ret m none | .yieldBreak m | .brk m | .cont m => rfl

theorem census_renameClause (scope : Scope) (c : Option Catch) (b : Bound) :
    clauseCensus (renameClause scope c b).1 = clauseCensus c := by
  match c with
  | none => rfl
  | some (.mk none x) => exact census_renameBlock scope x _
  | some (.mk (some y) x) => exact census_renameBlock _ x _

theorem census_renameCleanup (scope : Scope) (f : Option Block) (b : Bound) :
    cleanupCensus (renameCleanup scope f b).1 = cleanupCensus f := by
  match f with
  | none => rfl
  | some x => exact census_renameBlock scope x _

theorem census_renameBlock (scope : Scope) (ss : Block) (b : Bound) :
    Stmt.censusIn (renameBlock scope ss b).1 = Stmt.censusIn ss := by
  match ss with
  | [] => rfl
  | s :: ss =>
    exact congrArg₂ (· + ·) (census_renameStmt scope s _) (census_renameBlock _ ss _)

end

end Binding

/-! Chains. -/

/-- The kind of method that pauses in this way. -/
def Pause.kind : Pause → Kind
  | .yield _ => .iterator
  | .await _ => .async

theorem Terminator.exists_of_mapExpr_suspend {f : Expr → Expr} (h : t.mapExpr f = .suspend z r) :
    ∃ z', t = .suspend z' r ∧ z'.kind = z.kind := by
  cases t with
  | suspend p r' => cases p <;> cases h <;> exact ⟨_, rfl, rfl⟩
  | _ => cases h

theorem Terminator.exists_of_mapStates_suspend {f : StateId → StateId}
    (h : t.mapStates f = .suspend z r) : ∃ r', t = .suspend z r' := by
  cases t with
  | suspend p r' => cases h; exact ⟨_, rfl⟩
  | _ => cases h

/-- A method is split after its bindings have been renamed, as what its pauses make of it. -/
theorem Method.exists_of_split (h : m.split limit = .ok (some c)) :
    ∃ kind, (Stmt.censusIn m.body).kind m.name = .ok (some kind) ∧
      m.rename.toChain kind limit = .ok c := by
  unfold Method.split at h
  simp only [] at h
  split at h
  · obtain ⟨k, hk, h⟩ := Splitting.bind_eq_ok h
    cases k with
    | none => cases h
    | some kind =>
      simp only [Functor.map, Except.map] at h
      split at h
      · cases h
      · rename_i c' hc
        cases h
        exact ⟨kind, hk, hc⟩
  · cases h

theorem Method.census_rename (m : Method) :
    Stmt.censusIn m.rename.body = Stmt.censusIn m.body :=
  Binding.census_renameBlock _ m.body _

theorem Census.Has.kind_eq {c : Census} {method : String} {kind : Kind} (hz : c.Has z)
    (h : c.kind method = .ok (some kind)) : z.kind = kind := by
  unfold Census.kind at h
  cases z with
  | yield e =>
    have hy : 0 < c.yields := hz
    simp only [hy, if_true] at h
    split at h
    · cases h
    · cases h
      rfl
  | await e =>
    have ha : 0 < c.awaits := hz
    simp only [ha, if_true, decide_true, Bool.and_true, decide_eq_true_eq] at h
    split at h
    · cases h
    · split at h
      · omega
      · cases h
        rfl

/-- A chain pauses only as its kind allows. -/
theorem Method.pause_kind (h : m.split limit = .ok (some c)) (hst : c.states[s]? = some st)
    (hx : st.exit = .suspend z r) : z.kind = c.kind := by
  obtain ⟨kind, hk, hc⟩ := m.exists_of_split h
  obtain ⟨C⟩ := Method.compiled hc
  rw [C.states, List.getElem?_map] at hst
  obtain ⟨st₁, hst₁, rfl⟩ := Option.map_eq_some_iff.mp hst
  obtain ⟨z₁, hx₁, hz⟩ := Terminator.exists_of_mapExpr_suspend hx
  obtain ⟨s₀, st₀, -, hst₀, -, rfl⟩ := C.shrinks.onto s st₁ hst₁
  obtain ⟨r₀, hx₀⟩ := Terminator.exists_of_mapStates_suspend hx₁
  have hhas := C.body.pauses hst₀ hx₀
  rw [m.census_rename] at hhas
  rw [← hz, C.kind_eq]
  exact hhas.kind_eq hk

end Resumable

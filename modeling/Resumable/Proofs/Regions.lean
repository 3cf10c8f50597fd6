import Resumable.Machine
import Resumable.Proofs.Finished
import Resumable.Proofs.Reduction

namespace Resumable

open List

variable {f first g head lo' lo₁ m n r s x y : Nat} {st : State} {fb : Block} {J' : Targets}
  {e e' : Expr} {t : Terminator} {clause : Option (StateId × Option String)} {p₁ : Point}
  {cleanup : StateId}

namespace Regions

open Reduce

section

variable (states : List State) (handlers : List Handler)

/-- The cleanups around what `h` covers, innermost first. -/
def around (h : Option HandlerId) : List StateId :=
  (Handler.outward handlers handlers.length h).filterMap (·.cleanup)

/-- The cleanups around a state, innermost first. -/
def enclosing (s : StateId) : List StateId :=
  around handlers (states[s]?.bind (·.handler))

/-- A state that is neither a cleanup nor a route into one. -/
def Plain (s : StateId) : Prop :=
  ∃ st, states[s]? = some st ∧ st.exit ≠ .endCleanup ∧ ∀ f x, st.exit ≠ .enter f x

def Cleans (s : StateId) : Prop :=
  ∃ st, states[s]? = some st ∧ st.exit = .endCleanup

/-- Where control may go that stands inside of the cleanups `E`. -/
inductive Link (E : List StateId) (t : StateId) : Prop where
  | stay (ht : Plain states t) (he : enclosing states handlers t = E)
  | into (ht : Plain states t) {f : StateId} (he : enclosing states handlers t = f :: E)
      (hf : f ∉ E) (hc : Cleans states f)
  | out {f x : StateId} {st : State} (ht : states[t]? = some st) (hx : st.exit = .enter f x)
      (he : E = f :: enclosing states handlers t)

/-- Where a fault may go that is raised inside of the cleanups `E`. -/
def Caught (E : List StateId) : Option Machine.Rescue → Prop
  | none => E = []
  | some (.clause c) => Plain states c.entry ∧ enclosing states handlers c.entry = E
  | some (.cleanup f) => Cleans states f ∧ E = f :: enclosing states handlers f

/-- A terminator that stands inside of the cleanups `E` leads where it may. -/
def Fine (E : List StateId) : Terminator → Prop
  | .suspend _ r => Plain states r ∧ enclosing states handlers r = E
  | .enter f x => Cleans states f ∧ enclosing states handlers f = E ∧ Link states handlers E x
  | .complete | .ret _ none => E = []
  | .goto t | .ret _ (some t) => Link states handlers E t
  | .branch _ a b => Link states handlers E a ∧ Link states handlers E b
  | .endCleanup | .unreachable => True

/-- What the regions ask of one state. -/
structure Orderly (s : StateId) (st : State) : Prop where
  exit : Fine states handlers (enclosing states handlers s) st.exit
  fault : Caught states handlers (enclosing states handlers s)
    (Machine.rescue? (Handler.outward handlers handlers.length st.handler))
  nodup : (enclosing states handlers s).Nodup
  cleans : ∀ f ∈ enclosing states handlers s, Cleans states f
  route : ∀ f x, st.exit = .enter f x → st.body = []
  fresh : st.exit = .endCleanup → s ∉ enclosing states handlers s

/-- Every state keeps to the regions, and control begins outside of all of them. -/
structure Disciplined : Prop where
  entry : Plain states Chain.entry
  outside : enclosing states handlers Chain.entry = []
  state : ∀ (s : Nat) st, states[s]? = some st → Orderly states handlers s st

end

section

variable {T : Table} {h : Option HandlerId}

open Layout

theorem enclosing_eq (hc : Covered T s h) :
    enclosing T.states T.handlers s = around T.handlers h := by
  obtain ⟨st, hst, rfl⟩ := hc
  rw [enclosing, hst, Option.bind_some]

theorem around_guard (hn : Numbered T.states T.handlers) {g : HandlerId} {cleanup : Option StateId}
    (hg : Guards T h g clause cleanup) :
    around T.handlers (some g) = cleanup.toList ++ around T.handlers h := by
  rw [around, outward_some hn.parent hg.2]
  cases cleanup <;> rfl

end

end Regions

namespace Layout

open Regions

variable {T : Table} {h : Option HandlerId} {J : Targets} {ss : Block} {p q : Point} {lo hi : Nat}

theorem Ends.exit_eq (he : Ends T p t) (hst : T.states[p.state]? = some st) : st.exit = t := by
  obtain ⟨st', hs, -, ht⟩ := he
  cases hst.symm.trans hs
  exact ht

theorem Ends.plain (he : Ends T p t) (hc : t ≠ .endCleanup := by rintro ⟨⟩)
    (hr : ∀ f x, t ≠ .enter f x := by rintro _ _ ⟨⟩) : Plain T.states p.state := by
  obtain ⟨st, hs, -, rfl⟩ := he
  exact ⟨st, hs, hc, hr⟩

theorem Taken.plain (ht : Taken T h e e' p p₁ lo lo₁) (hp : Plain T.states p₁.state) :
    Plain T.states p.state := by
  cases ht with
  | whole _ => exact hp
  | await m _ he _ => exact he.plain

/-- A block starts in a plain state if it stops in one. -/
theorem Laid.plain (hl : Laid T h J ss p q lo hi) (hq : Plain T.states q.state) :
    Plain T.states p.state := by
  induction hl with
  | nil => exact hq
  | flat _ _ _ ih => exact ih hq
  | receive _ _ hp | yield _ hp | caught _ _ _ hp | cleaned _ _ _ _ hp | both _ _ _ _ _ _ hp =>
    exact hp.plain
  | leave hj hp => cases hj <;> exact hp.plain
  | value he _ hp | when he hp | either he hp => exact he.plain hp.plain
  | loop hh ht hp =>
    cases hh with
    | here => exact ht.plain hp.plain
    | new he _ => exact he.plain
  | group _ _ _ ihb ihr => exact ihb (ihr hq)

/-- The states of a block. -/
abbrev Within (p : Point) (lo hi s : Nat) : Prop :=
  s = p.state ∨ lo ≤ s ∧ s < hi

theorem Taken.le (ht : Taken T h e e' p p₁ lo lo₁) : lo ≤ lo₁ ∧ Within p lo lo₁ p₁.state := by
  cases ht with
  | whole _ => exact ⟨Nat.le_refl _, .inl rfl⟩
  | await => exact ⟨Nat.le_succ _, .inr ⟨Nat.le_refl _, Nat.lt_succ_self _⟩⟩

theorem Heads.le (hh : Heads T h p s lo lo₁) : lo ≤ lo₁ ∧ Within p lo lo₁ s := by
  cases hh with
  | here => exact ⟨Nat.le_refl _, .inl rfl⟩
  | new => exact ⟨Nat.le_succ _, .inr ⟨Nat.le_refl _, Nat.lt_succ_self _⟩⟩

/-- A block stops in one of its states. -/
theorem Laid.le (hl : Laid T h J ss p q lo hi) : lo ≤ hi ∧ Within p lo hi q.state := by
  induction hl with
  | nil => exact ⟨Nat.le_refl _, .inl rfl⟩
  | flat _ _ _ ih => exact ih
  | receive _ _ _ _ _ _ ih | yield _ _ _ _ ih | leave _ _ _ _ ih =>
    simp only [Within] at ih ⊢
    omega
  | value he _ _ _ _ ih =>
    have := he.le
    simp only [Within] at ih this ⊢
    omega
  | when he _ _ _ _ _ _ ihy ih =>
    have := he.le
    simp only [Within] at ihy ih this ⊢
    omega
  | either he _ _ _ _ _ _ _ _ _ ihy ihn ih =>
    have := he.le
    simp only [Within] at ihy ihn ih this ⊢
    omega
  | loop hh he _ _ _ _ _ _ ihb ih =>
    have := he.le
    have := hh.le
    simp only [Within] at *
    omega
  | group _ _ _ ihb ih =>
    omega
  | caught _ _ _ _ _ _ _ _ _ _ _ ihb ihc ih =>
    simp only [Within] at ihb ihc ih ⊢
    omega
  | cleaned _ _ _ _ _ _ _ _ _ hr _ ihb ih =>
    have := hr.le
    simp only [Within] at ihb ih ⊢
    omega
  | both _ _ _ _ _ _ _ _ _ _ _ _ _ _ hr _ ihb ihc ih =>
    have := hr.le
    simp only [Within] at ihb ihc ih ⊢
    omega

/-- One of the jumps leads to `x`, at least in the end. -/
def Targets.Reach (J : Targets) (x : Nat) : Prop :=
  J.brk = some x ∨ J.cont = some x ∨ ∃ t, J.ret = some t ∧ x = t.getD Splitting.returnState

theorem Jumps.reach {s : Stmt} (hj : Jumps J s t) (hx : x ∈ t.exits) : Targets.Reach J x := by
  cases hj with
  | @yieldBreak m t h | @ret m t h =>
    cases t with
    | none => cases hx
    | some y =>
      cases mem_singleton.mp hx
      exact .inr (.inr ⟨_, h, rfl⟩)
  | brk m h =>
    cases mem_singleton.mp hx
    exact .inl h
  | cont m h =>
    cases mem_singleton.mp hx
    exact .inr (.inl h)

/-- A route stands between a jump out of the guarded block and the same jump further out. -/
theorem Routed.of_reach {first : StateId} {lo hi : Nat} (hr : Routed T h cleanup first J' J lo hi)
    (hx : Targets.Reach J' x) :
    lo ≤ x ∧ x < hi ∧ ∃ y, IsRoute T h cleanup x y ∧ Targets.Reach J y := by
  rcases hx with hx | hx | ⟨t, ht, rfl⟩
  · obtain ⟨hlo, hhi, y, hy, hroute⟩ := hr.brk x hx
    exact ⟨hlo, hhi, y, hroute, .inl hy⟩
  · obtain ⟨hlo, hhi, y, hy, hroute⟩ := hr.cont x hx
    exact ⟨hlo, hhi, y, hroute, .inr (.inl hy)⟩
  · obtain ⟨s, t', rfl, hlo, hhi, hy, hroute⟩ := hr.ret t ht
    exact ⟨hlo, hhi, _, hroute, .inr (.inr ⟨t', hy, rfl⟩)⟩

/-- Control leaves the states from `lo` up to `hi` by the jumps, or to `r`. -/
def Leaves (T : Table) (J : Targets) (r lo hi : Nat) : Prop :=
  ∀ (s : Nat) st, lo ≤ s → s < hi → T.states[s]? = some st → ∀ x : Nat, x ∈ st.exit.exits →
    lo ≤ x ∧ x < hi ∨ Targets.Reach J x ∨ x = r

/-- Every route is one of those, or the one that the block falls through to. -/
theorem Routed.route {after : Nat} {lo hi : Nat} (hr : Routed T h cleanup first J' J lo hi)
    (ha : IsRoute T h cleanup r after) (hx : Leaves T J' r first lo) (hlo : lo ≤ s) (hhi : s < hi) :
    ∃ y, IsRoute T h cleanup s y ∧ (Targets.Reach J y ∨ y = after) := by
  obtain ⟨u, st, hu, hlt, hst, hs⟩ := hr.used s hlo hhi
  rcases hx u st hu hlt hst s hs with hs | hs | rfl
  · omega
  · obtain ⟨-, -, y, hroute, hy⟩ := hr.of_reach hs
    exact ⟨y, hroute, .inl hy⟩
  · exact ⟨after, ha, .inr rfl⟩

theorem Taken.exits (ht : Taken T h e e' p p₁ lo lo₁) (hs : Within p lo lo₁ s) (hne : s ≠ p₁.state)
    (hst : T.states[s]? = some st) (hx : x ∈ st.exit.exits) : Within p lo lo₁ x := by
  cases ht with
  | whole _ =>
    omega
  | await m _ hp _ =>
    rcases hs with rfl | hs
    · rw [hp.exit_eq hst] at hx
      obtain rfl := mem_singleton.mp hx
      exact .inr ⟨Nat.le_refl _, Nat.lt_succ_self _⟩
    · exact absurd (show s = lo by omega) hne

/-- The state where a block stops goes on to `z`; for the others something else is known. -/
theorem Ends.stops {z : StateId} (he : Ends T q (.goto z)) (hst : T.states[s]? = some st)
    (hx : x ∈ st.exit.exits) {P : Prop} (hp : s ≠ q.state → P) : P ∨ x = z := by
  by_cases hs : s = q.state
  · subst hs
    rw [he.exit_eq hst] at hx
    exact .inr (mem_singleton.mp hx)
  · exact .inl (hp hs)

theorem Targets.reach_loop (hx : Targets.Reach { J with brk := some y, cont := some head } x) :
    x = y ∨ x = head ∨ Targets.Reach J x := by
  rcases hx with hx | hx | hx
  · exact .inl (Option.some.inj hx).symm
  · exact .inr (.inl (Option.some.inj hx).symm)
  · exact .inr (.inr (.inr (.inr hx)))

theorem mem_exits_branch {a b : Nat} (hx : x ∈ (Terminator.branch e a b).exits) :
    x = a ∨ x = b := by
  simpa [Terminator.exits, Terminator.successors] using hx

/-- A guarded block with its cleanup and its routes: inside of it control stays, or it goes where
the routes lead. -/
theorem exits_guarded (hp : Ends T p (.goto (lo + 2))) (hc : IsCleanup T h (lo + 1) fb)
    (hr : m ≤ r ∧ r < n ∧ IsRoute T h (lo + 1) r lo)
    (routes : Routed T h (lo + 1) (lo + 2) J' J m n) (hl : Leaves T J' r (lo + 2) m)
    (hs : Within p (lo + 1) n s) (hst : T.states[s]? = some st) (hx : x ∈ st.exit.exits)
    (hm : lo + 2 < m) : lo ≤ x ∧ x < n ∨ Targets.Reach J x := by
  have hle := routes.le
  by_cases h₁ : s = p.state
  · subst h₁
    rw [hp.exit_eq hst] at hx
    cases mem_singleton.mp hx
    exact .inl (by omega)
  by_cases h₂ : s = lo + 1
  · subst h₂
    obtain ⟨st', hst', -, he, -⟩ := hc
    cases hst.symm.trans hst'
    rw [he] at hx
    cases hx
  by_cases h₃ : lo + 2 ≤ s ∧ s < m
  · rcases hl s st h₃.1 h₃.2 hst x hx with hw | hj | rfl
    · exact .inl (by omega)
    · obtain ⟨hlo, hhi, -⟩ := routes.of_reach hj
      exact .inl (by omega)
    · exact .inl (by omega)
  · have h₄ : m ≤ s ∧ s < n := by omega
    obtain ⟨y, ⟨st', hst', -, he, -⟩, hy⟩ := routes.route hr.2.2 hl h₄.1 h₄.2
    cases hst.symm.trans hst'
    rw [he] at hx
    cases mem_singleton.mp hx
    rcases hy with hy | rfl
    · exact .inr hy
    · exact .inl (by omega)

/-- Control leaves a block by its jumps alone, apart from the state where it stops. -/
theorem Laid.exits (hl : Laid T h J ss p q lo hi) (hs : Within p lo hi s) (hne : s ≠ q.state)
    (hst : T.states[s]? = some st) (hx : x ∈ st.exit.exits) :
    Within p lo hi x ∨ Targets.Reach J x := by
  induction hl generalizing s st x with
  | nil =>
    omega
  | flat _ _ _ ih => exact ih hs hne hst hx
  | receive _ _ hp _ _ rest ih | yield _ hp _ rest ih =>
    have hle := rest.le.1
    rcases hs with rfl | hs
    · rw [hp.exit_eq hst] at hx
      obtain rfl := mem_singleton.mp hx
      exact .inl (.inr ⟨Nat.le_refl _, hle⟩)
    · refine (ih ?_ hne hst hx).imp_left ?_ <;> simp only [Within] <;> omega
  | leave hj hp _ rest ih =>
    rcases hs with rfl | hs
    · rw [hp.exit_eq hst] at hx
      exact .inr (hj.reach hx)
    · refine (ih ?_ hne hst hx).imp_left ?_ <;> simp only [Within] <;> omega
  | @value h J m e e' t ss p p₁ q lo lo₁ hi he hj hp _ rest ih =>
    have hle := he.le
    by_cases h₁ : s = p₁.state
    · subst h₁
      rw [hp.exit_eq hst] at hx
      cases t with
      | none => cases hx
      | some y =>
        cases mem_singleton.mp hx
        exact .inr (.inr (.inr ⟨_, hj, rfl⟩))
    · have hrest := rest.le.1
      by_cases h₂ : Within p lo lo₁ s
      · have := he.exits h₂ h₁ hst hx
        omega
      · refine (ih ?_ hne hst hx).imp_left ?_ <;> simp only [Within] at * <;> omega
  | @when h J m t t' a ss p p₁ qa q lo y hi₁ hi ht hp _ _ yes ha rest ihy ih =>
    have hle := ht.le
    have hly := yes.le.1
    have hlr := rest.le.1
    by_cases h₁ : s = p₁.state
    · subst h₁
      rw [hp.exit_eq hst] at hx
      have := mem_exits_branch hx
      omega
    by_cases h₂ : Within p lo y s
    · have := ht.exits h₂ h₁ hst hx
      omega
    by_cases h₃ : Within ⟨y, 0⟩ (y + 2) hi₁ s
    · rcases ha.stops hst hx fun hn => ihy h₃ hn hst hx with (hw | hj) | rfl
      · exact .inl (by simp only [Within] at *; omega)
      · exact .inr hj
      · exact .inl (by omega)
    · refine (ih ?_ hne hst hx).imp_left ?_ <;> simp only [Within] at * <;> omega
  | @either h J m t t' a b ss p p₁ qa qb q lo y hi₁ hi₂ hi ht hp _ _ _ yes ha no hb rest ihy ihn
      ih =>
    have hle := ht.le
    have hly := yes.le.1
    have hln := no.le.1
    have hlr := rest.le.1
    by_cases h₁ : s = p₁.state
    · subst h₁
      rw [hp.exit_eq hst] at hx
      have := mem_exits_branch hx
      omega
    by_cases h₂ : Within p lo y s
    · have := ht.exits h₂ h₁ hst hx
      omega
    by_cases h₃ : Within ⟨y, 0⟩ (y + 3) hi₁ s
    · rcases ha.stops hst hx fun hn => ihy h₃ hn hst hx with (hw | hj) | rfl
      · exact .inl (by simp only [Within] at *; omega)
      · exact .inr hj
      · exact .inl (by omega)
    by_cases h₄ : Within ⟨y + 1, 0⟩ hi₁ hi₂ s
    · rcases hb.stops hst hx fun hn => ihn h₄ hn hst hx with (hw | hj) | rfl
      · exact .inl (by simp only [Within] at *; omega)
      · exact .inr hj
      · exact .inl (by omega)
    · refine (ih ?_ hne hst hx).imp_left ?_ <;> simp only [Within] at * <;> omega
  | @loop h J m t t' b ss p p₁ qb q head lo lo₁ y hi₁ hi hh ht hp _ _ body hb rest ihb ih =>
    have hlh := hh.le
    have hle := ht.le
    have hlb := body.le.1
    have hlr := rest.le.1
    by_cases h₁ : s = p₁.state
    · subst h₁
      rw [hp.exit_eq hst] at hx
      have := mem_exits_branch hx
      omega
    by_cases h₂ : Within ⟨head, 0⟩ lo₁ y s
    · have := ht.exits h₂ h₁ hst hx
      simp only [Within] at *
      omega
    by_cases h₃ : Within ⟨y, 0⟩ (y + 2) hi₁ s
    · rcases hb.stops hst hx fun hn => ihb h₃ hn hst hx with (hw | hj) | rfl
      · exact .inl (by simp only [Within] at *; omega)
      · rcases Targets.reach_loop hj with rfl | rfl | hj
        · exact .inl (by omega)
        · exact .inl (by omega)
        · exact .inr hj
      · exact .inl (by omega)
    by_cases h₄ : Within ⟨y + 1, 0⟩ hi₁ hi s
    · refine (ih h₄ hne hst hx).imp_left ?_
      simp only [Within] at *
      omega
    · cases hh with
      | here => simp only [Within] at *; omega
      | new he _ =>
        obtain rfl : s = p.state := by simp only [Within] at *; omega
        rw [he.exit_eq hst] at hx
        cases mem_singleton.mp hx
        exact .inl (by omega)
  | @group h J s' b ss p p₁ q lo hi₁ hi _ body rest ihb ih =>
    have hlb := body.le
    have hlr := rest.le.1
    by_cases h₁ : Within p₁ hi₁ hi s
    · refine (ih h₁ hne hst hx).imp_left ?_
      omega
    · refine (ihb ?_ ?_ hst hx).imp_left ?_ <;> omega
  | @caught h J m b x' cb ss g p qb qc q lo hi₁ hi₂ hi _ _ _ hp _ body hb _ clause hd rest ihb ihc
      ih =>
    have hlb := body.le.1
    have hlc := clause.le.1
    have hlr := rest.le.1
    by_cases h₁ : s = p.state
    · subst h₁
      rw [hp.exit_eq hst] at hx
      cases mem_singleton.mp hx
      exact .inl (by omega)
    by_cases h₂ : Within ⟨lo + 1, 0⟩ (lo + 2) hi₁ s
    · rcases hb.stops hst hx fun hn => ihb h₂ hn hst hx with (hw | hj) | rfl
      · exact .inl (by simp only [Within] at *; omega)
      · exact .inr hj
      · exact .inl (by omega)
    by_cases h₃ : Within ⟨hi₁, 0⟩ (hi₁ + 1) hi₂ s
    · rcases hd.stops hst hx fun hn => ihc h₃ hn hst hx with (hw | hj) | rfl
      · exact .inl (by simp only [Within] at *; omega)
      · exact .inr hj
      · exact .inl (by omega)
    · refine (ih ?_ hne hst hx).imp_left ?_ <;> simp only [Within] at * <;> omega
  | @cleaned h J J' m b fb ss g p qb q r lo hi₁ hi₂ hi _ _ _ hc hp _ body hb hr routes rest ihb
      ih =>
    have hlb := body.le.1
    have hlr := rest.le.1
    have hlo := routes.le
    have hbody : Leaves T J' r (lo + 2) hi₁ := by
      intro s st hs hlt hst x hx
      have hin : Within ⟨lo + 2, 0⟩ (lo + 3) hi₁ s := by simp only [Within]; omega
      rcases hb.stops hst hx fun hn => ihb hin hn hst hx with (hw | hj) | rfl
      · exact .inl (by simp only [Within] at hw; omega)
      · exact .inr (.inl hj)
      · exact .inr (.inr rfl)
    by_cases h₁ : s = lo ∨ hi₂ ≤ s ∧ s < hi
    · refine (ih h₁ hne hst hx).imp_left ?_
      simp only [Within]
      omega
    · have hin : Within p (lo + 1) hi₂ s := by omega
      refine (exits_guarded hp hc hr routes hbody hin hst hx (by omega)).imp_left ?_
      omega
  | @both h J J' m b x' cb fb ss g k p qb qc q r lo hi₁ hi₂ hi₃ hi _ _ _ _ _ hc hp _ body hb _
      clause hd hr routes rest ihb ihc ih =>
    have hlb := body.le.1
    have hlc := clause.le.1
    have hlr := rest.le.1
    have hlo := routes.le
    have hbody : Leaves T J' r (lo + 2) hi₂ := by
      intro s st hs hlt hst x hx
      by_cases hin : Within ⟨lo + 2, 0⟩ (lo + 3) hi₁ s
      · rcases hb.stops hst hx fun hn => ihb hin hn hst hx with (hw | hj) | rfl
        · exact .inl (by simp only [Within] at hw; omega)
        · exact .inr (.inl hj)
        · exact .inr (.inr rfl)
      · have hin : Within ⟨hi₁, 0⟩ (hi₁ + 1) hi₂ s := by simp only [Within] at *; omega
        rcases hd.stops hst hx fun hn => ihc hin hn hst hx with (hw | hj) | rfl
        · exact .inl (by simp only [Within] at hw; omega)
        · exact .inr (.inl hj)
        · exact .inr (.inr rfl)
    by_cases h₁ : s = lo ∨ hi₃ ≤ s ∧ s < hi
    · refine (ih h₁ hne hst hx).imp_left ?_
      simp only [Within]
      omega
    · have hin : Within p (lo + 1) hi₃ s := by omega
      refine (exits_guarded hp hc hr routes hbody hin hst hx (by omega)).imp_left ?_
      omega

theorem Laid.leaves (hl : Laid T h J ss ⟨lo, 0⟩ q (lo + 1) hi) (he : Ends T q (.goto r)) :
    Leaves T J r lo hi := by
  intro s st hs hlt hst x hx
  have hin : Within ⟨lo, 0⟩ (lo + 1) hi s := by simp only [Within]; omega
  have hle := hl.le.1
  rcases he.stops hst hx fun hn => hl.exits hin hn hst hx with (hw | hj) | rfl
  · exact .inl (by simp only [Within] at hw; omega)
  · exact .inr (.inl hj)
  · exact .inr (.inr rfl)

theorem Leaves.append (h₁ : Leaves T J r lo m) (h₂ : Leaves T J r m hi) (hlo : lo ≤ m)
    (hhi : m ≤ hi) : Leaves T J r lo hi := by
  intro s st hs hlt hst x hx
  by_cases hm : s < m
  · exact (h₁ s st hs hm hst x hx).imp_left fun hw => ⟨hw.1, Nat.lt_of_lt_of_le hw.2 hhi⟩
  · exact (h₂ s st (Nat.not_lt.mp hm) hlt hst x hx).imp_left fun hw => ⟨Nat.le_trans hlo hw.1, hw.2⟩

/-! Every state of a block keeps to the regions. -/

/-- What holds around a block covered by `h`, whose states start from `lo` on. -/
structure Context (T : Table) (h : Option HandlerId) (J : Targets) (lo : Nat) : Prop where
  fault : Caught T.states T.handlers (around T.handlers h)
    (Machine.rescue? (Handler.outward T.handlers T.handlers.length h))
  nodup : (around T.handlers h).Nodup
  cleans : ∀ f ∈ around T.handlers h, Cleans T.states f
  lt : ∀ f : Nat, f ∈ around T.handlers h → f < lo
  lands : ∀ x, Targets.Reach J x → Link T.states T.handlers (around T.handlers h) x
  ends : J.ret = some none → around T.handlers h = []

theorem Context.mono (hx : Context T h J lo) (hle : lo ≤ lo') : Context T h J lo' :=
  ⟨hx.fault, hx.nodup, hx.cleans, fun f hf => Nat.lt_of_lt_of_le (hx.lt f hf) hle, hx.lands,
    hx.ends⟩

theorem link_stay (hc : Covered T s h) (hs : Plain T.states s) :
    Link T.states T.handlers (around T.handlers h) s :=
  .stay hs (enclosing_eq hc)

theorem Context.orderly (hx : Context T h J lo) (hc : Covered T s h) (hst : T.states[s]? = some st)
    (hf : Fine T.states T.handlers (around T.handlers h) st.exit)
    (hr : ∀ f x, st.exit = .enter f x → st.body = []) (hs : st.exit = .endCleanup → lo ≤ s) :
    Orderly T.states T.handlers s st := by
  rw [← enclosing_eq hc] at hf
  obtain ⟨st', hst', hh⟩ := hc
  cases hst.symm.trans hst'
  have he : enclosing T.states T.handlers s = around T.handlers h := enclosing_eq ⟨st, hst, hh⟩
  refine ⟨hf, ?_, ?_, ?_, hr, ?_⟩
  · rw [he, hh]
    exact hx.fault
  · rw [he]
    exact hx.nodup
  · rw [he]
    exact hx.cleans
  · intro hend hmem
    rw [he] at hmem
    exact absurd (hx.lt s hmem) (Nat.not_lt.mpr (hs hend))

theorem Context.ends_orderly (hx : Context T h J lo) (hc : Covered T p.state h) (he : Ends T p t)
    (hf : Fine T.states T.handlers (around T.handlers h) t) (hst : T.states[p.state]? = some st)
    (hp : t ≠ .endCleanup := by rintro ⟨⟩) (hr : ∀ f x, t ≠ .enter f x := by rintro _ _ ⟨⟩) :
    Orderly T.states T.handlers p.state st := by
  have ht := he.exit_eq hst
  subst ht
  exact hx.orderly hc hst hf (fun f x h => absurd h (hr f x)) fun h => absurd h hp

theorem Context.fine_jump (hx : Context T h J lo) {s : Stmt} (hj : Jumps J s t) :
    Fine T.states T.handlers (around T.handlers h) t := by
  cases hj with
  | @yieldBreak m t hr | @ret m t hr =>
    cases t with
    | none => exact hx.ends hr
    | some y => exact hx.lands y (.inr (.inr ⟨_, hr, rfl⟩))
  | brk m hb => exact hx.lands _ (.inl hb)
  | cont m hc => exact hx.lands _ (.inr (.inl hc))

theorem Taken.orderly (ht : Taken T h e e' p p₁ lo lo₁) (hx : Context T h J lo)
    (hc : Covered T p.state h) (hp : Plain T.states p₁.state) :
    Covered T p₁.state h ∧ ∀ s, Within p lo lo₁ s → s ≠ p₁.state → ∀ st, T.states[s]? = some st →
      Orderly T.states T.handlers s st := by
  cases ht with
  | whole _ =>
    refine ⟨hc, fun s hs hne => ?_⟩
    omega
  | await m _ he hr =>
    refine ⟨hr, ?_⟩
    intro s hs hne st hst
    rcases hs with rfl | hs
    · exact hx.ends_orderly hc he ⟨hp, enclosing_eq hr⟩ hst
    · exact absurd (show s = lo by omega) hne

/-- A block stops in a state covered by the same handler as the one it starts in. -/
theorem Laid.covered (hl : Laid T h J ss p q lo hi) (hc : Covered T p.state h) :
    Covered T q.state h := by
  induction hl with
  | nil => exact hc
  | flat _ _ _ ih => exact ih hc
  | receive _ _ _ ho _ _ ih | yield _ _ ho _ ih | leave _ _ ho _ ih | value _ _ _ ho _ ih =>
    exact ih ho
  | when _ _ _ hm _ _ _ _ ih | either _ _ _ _ hm _ _ _ _ _ _ _ ih => exact ih hm
  | loop _ _ _ _ hx _ _ _ _ ih => exact ih hx
  | group _ _ _ ihb ih => exact ih (ihb hc)
  | caught _ _ ho _ _ _ _ _ _ _ _ _ _ ih => exact ih ho
  | cleaned _ _ ho _ _ _ _ _ _ _ _ _ ih => exact ih ho
  | both _ _ _ _ ho _ _ _ _ _ _ _ _ _ _ _ _ _ ih => exact ih ho

theorem IsCleanup.cleans (hc : IsCleanup T h f fb) : Cleans T.states f ∧ Covered T f h := by
  obtain ⟨st, hst, -, he, hh⟩ := hc
  exact ⟨⟨st, hst, he⟩, ⟨st, hst, hh⟩⟩

/-- From inside of a region, a route leads out of it. -/
theorem IsRoute.link (hr : IsRoute T h f s y) (hn : Numbered T.states T.handlers)
    (hg : Guards T h g clause (some f)) :
    Link T.states T.handlers (around T.handlers (some g)) s := by
  obtain ⟨st, hst, -, he, hh⟩ := hr
  refine .out hst he ?_
  rw [enclosing_eq ⟨st, hst, hh⟩]
  exact around_guard hn hg

section

variable (hx : Context T h J lo)
include hx

theorem Context.guarded (hn : Numbered T.states T.handlers)
    (hg : Guards T h g clause (some f)) (hc : IsCleanup T h f fb) (hf : lo ≤ f)
    (hl : ∀ c ∈ clause, Plain T.states c.1 ∧
      enclosing T.states T.handlers c.1 = around T.handlers (some g))
    (hr : Routed T h f first J' J m n) (hlt : f < lo') : Context T (some g) J' lo' := by
  have har : around T.handlers (some g) = f :: around T.handlers h := around_guard hn hg
  obtain ⟨hclean, hcov⟩ := hc.cleans
  refine ⟨?_, ?_, ?_, ?_, ?_, ?_⟩
  · rw [Reduce.outward_some hn.parent hg.2]
    cases clause with
    | none => exact ⟨hclean, by rw [har, enclosing_eq hcov]⟩
    | some c => exact hl c rfl
  · rw [har]
    exact nodup_cons.mpr ⟨fun hm => absurd (hx.lt f hm) (Nat.not_lt.mpr hf), hx.nodup⟩
  · rw [har]
    exact forall_mem_cons.mpr ⟨hclean, hx.cleans⟩
  · intro x hm
    rw [har] at hm
    rcases mem_cons.mp hm with rfl | hm
    · exact hlt
    · exact Nat.lt_of_lt_of_le (hx.lt x hm) (Nat.le_trans hf (Nat.le_of_lt hlt))
  · intro x hreach
    obtain ⟨-, -, y, hroute, -⟩ := hr.of_reach hreach
    exact hroute.link hn hg
  · intro hret
    obtain ⟨s, t, hnone, -⟩ := hr.ret none hret
    cases hnone

/-- The cleanup of a guarded block, and the routes into it. -/
theorem Context.cleanup_orderly (hc : IsCleanup T h f fb) (hf : lo ≤ f)
    (hst : T.states[f]? = some st) : Orderly T.states T.handlers f st := by
  obtain ⟨st', hst', -, he, hh⟩ := hc
  cases hst.symm.trans hst'
  refine hx.orderly ⟨st, hst, hh⟩ hst ?_ ?_ fun _ => hf
  · rw [he]
    trivial
  · intro f x hr
    rw [he] at hr
    cases hr

theorem Context.route_orderly (hc : IsCleanup T h f fb)
    (hr : IsRoute T h f s y) (hy : Link T.states T.handlers (around T.handlers h) y)
    (hst : T.states[s]? = some st) : Orderly T.states T.handlers s st := by
  obtain ⟨st', hst', hb, he, hh⟩ := hr
  cases hst.symm.trans hst'
  obtain ⟨hclean, hcov⟩ := hc.cleans
  refine hx.orderly ⟨st, hst, hh⟩ hst ?_ (fun _ _ _ => hb) ?_
  · rw [he]
    exact ⟨hclean, enclosing_eq hcov, hy⟩
  · intro hend
    rw [he] at hend
    cases hend

/-- A guarded block with its cleanup and its routes, when the states inside are known to keep to
the regions. -/
theorem Context.orderly_guarded (hn : Numbered T.states T.handlers)
    (hc : Covered T p.state h) (hg : Guards T h g clause (some (lo + 1)))
    (hp : Ends T p (.goto (lo + 2))) (hf : IsCleanup T h (lo + 1) fb)
    (hy : Covered T (lo + 2) (some g)) (hpy : Plain T.states (lo + 2))
    (ho : Link T.states T.handlers (around T.handlers h) lo)
    (hr : m ≤ r ∧ r < n ∧ IsRoute T h (lo + 1) r lo)
    (routes : Routed T h (lo + 1) (lo + 2) J' J m n) (hl : Leaves T J' r (lo + 2) m)
    (hbody : ∀ (s : Nat) st, lo + 2 ≤ s → s < m → T.states[s]? = some st →
      Orderly T.states T.handlers s st)
    (hs : Within p (lo + 1) n s) (hst : T.states[s]? = some st) :
    Orderly T.states T.handlers s st := by
  by_cases h₁ : s = p.state
  · subst h₁
    refine hx.ends_orderly hc hp (.into hpy ?_ ?_ hf.cleans.1) hst
    · exact (enclosing_eq hy).trans (around_guard hn hg)
    · exact fun hm => absurd (hx.lt _ hm) (Nat.not_lt.mpr (Nat.le_succ _))
  by_cases h₂ : s = lo + 1
  · subst h₂
    exact hx.cleanup_orderly hf (Nat.le_succ _) hst
  by_cases h₃ : lo + 2 ≤ s ∧ s < m
  · exact hbody s st h₃.1 h₃.2 hst
  · have h₄ : m ≤ s ∧ s < n := by omega
    obtain ⟨y, hroute, hy⟩ := routes.route hr.2.2 hl h₄.1 h₄.2
    refine hx.route_orderly hf hroute ?_ hst
    rcases hy with hy | rfl
    · exact hx.lands y hy
    · exact ho

theorem Context.ended {z : Nat} (he : Ends T q (.goto z))
    (hc : Covered T q.state h) (hz : Link T.states T.handlers (around T.handlers h) z)
    (hst : T.states[s]? = some st) (ih : s ≠ q.state → Orderly T.states T.handlers s st) :
    Orderly T.states T.handlers s st := by
  by_cases hs : s = q.state
  · subst hs
    exact hx.ends_orderly hc he hz hst
  · exact ih hs

end

theorem Heads.covered (hh : Heads T h p s lo lo₁) (hc : Covered T p.state h) : Covered T s h := by
  cases hh with
  | here => exact hc
  | new _ hr => exact hr

theorem Context.loop (hx : Context T h J lo) (hy : Link T.states T.handlers (around T.handlers h) y)
    (hh : Link T.states T.handlers (around T.handlers h) head) (hle : lo ≤ lo') :
    Context T h { J with brk := some y, cont := some head } lo' := by
  refine ⟨hx.fault, hx.nodup, hx.cleans, (hx.mono hle).lt, ?_, hx.ends⟩
  intro x hr
  rcases Targets.reach_loop hr with rfl | rfl | hr
  · exact hy
  · exact hh
  · exact hx.lands x hr

/-- Every state of a block keeps to the regions, apart from the one where it stops. -/
theorem Laid.orderly (hl : Laid T h J ss p q lo hi) (hn : Numbered T.states T.handlers)
    (hx : Context T h J lo) (hc : Covered T p.state h) (hq : Plain T.states q.state)
    (hs : Within p lo hi s) (hne : s ≠ q.state) (hst : T.states[s]? = some st) :
    Orderly T.states T.handlers s st := by
  induction hl generalizing s st with
  | nil =>
    omega
  | flat _ _ _ ih => exact ih hx hc hq hs hne hst
  | receive _ _ hp ho _ rest ih | yield _ hp ho rest ih =>
    rcases hs with rfl | hs
    · exact hx.ends_orderly hc hp ⟨rest.plain hq, enclosing_eq ho⟩ hst
    · exact ih (hx.mono (Nat.le_succ _)) ho hq (by simp only [Within]; omega) hne hst
  | leave hj hp ho rest ih =>
    rcases hs with rfl | hs
    · have hfine := hx.fine_jump hj
      cases hj <;> exact hx.ends_orderly hc hp hfine hst
    · exact ih (hx.mono (Nat.le_succ _)) ho hq (by simp only [Within]; omega) hne hst
  | @value h J m e e' t ss p p₁ q lo lo₁ hi he hj hp ho rest ih =>
    have hle := he.le
    obtain ⟨hc₁, ht⟩ := he.orderly hx hc hp.plain
    by_cases h₁ : s = p₁.state
    · subst h₁
      refine hx.ends_orderly hc₁ hp ?_ hst
      cases t with
      | none => exact hx.ends hj
      | some y => exact hx.lands y (.inr (.inr ⟨_, hj, rfl⟩))
    by_cases h₂ : Within p lo lo₁ s
    · exact ht s h₂ h₁ st hst
    · exact ih (hx.mono (by omega)) ho hq (by simp only [Within] at *; omega) hne hst
  | @when h J m t t' a ss p p₁ qa q lo y hi₁ hi ht hp hy hm yes ha rest ihy ih =>
    have hle := ht.le
    have hly := yes.le.1
    obtain ⟨hc₁, htk⟩ := ht.orderly hx hc hp.plain
    have hpa := ha.plain
    by_cases h₁ : s = p₁.state
    · subst h₁
      exact hx.ends_orderly hc₁ hp
        ⟨link_stay hy (yes.plain hpa), link_stay hm (rest.plain hq)⟩ hst
    by_cases h₂ : Within p lo y s
    · exact htk s h₂ h₁ st hst
    by_cases h₃ : Within ⟨y, 0⟩ (y + 2) hi₁ s
    · exact hx.ended ha (yes.covered hy) (link_stay hm (rest.plain hq)) hst fun hn =>
        ihy (hx.mono (by omega)) hy hpa h₃ hn hst
    · exact ih (hx.mono (by omega)) hm hq (by simp only [Within] at *; omega) hne hst
  | @either h J m t t' a b ss p p₁ qa qb q lo y hi₁ hi₂ hi ht hp hy hn' hm yes ha no hb rest ihy ihn
      ih =>
    have hle := ht.le
    have hly := yes.le.1
    have hln := no.le.1
    obtain ⟨hc₁, htk⟩ := ht.orderly hx hc hp.plain
    have hpa := ha.plain
    have hpb := hb.plain
    have hmerge := link_stay hm (rest.plain hq)
    by_cases h₁ : s = p₁.state
    · subst h₁
      exact hx.ends_orderly hc₁ hp
        ⟨link_stay hy (yes.plain hpa), link_stay hn' (no.plain hpb)⟩ hst
    by_cases h₂ : Within p lo y s
    · exact htk s h₂ h₁ st hst
    by_cases h₃ : Within ⟨y, 0⟩ (y + 3) hi₁ s
    · exact hx.ended ha (yes.covered hy) hmerge hst fun hn =>
        ihy (hx.mono (by omega)) hy hpa h₃ hn hst
    by_cases h₄ : Within ⟨y + 1, 0⟩ hi₁ hi₂ s
    · exact hx.ended hb (no.covered hn') hmerge hst fun hn =>
        ihn (hx.mono (by omega)) hn' hpb h₄ hn hst
    · exact ih (hx.mono (by omega)) hm hq (by simp only [Within] at *; omega) hne hst
  | @loop h J m t t' b ss p p₁ qb q head lo lo₁ y hi₁ hi hh ht hp hy hm body hb rest ihb ih =>
    have hlh := hh.le
    have hle := ht.le
    have hlb := body.le.1
    have hch := hh.covered hc
    have hp₁ := hp.plain
    obtain ⟨hc₁, htk⟩ := ht.orderly (hx.mono hlh.1) hch hp₁
    have hpb := hb.plain
    have hhead := link_stay hch (ht.plain hp₁)
    have hexit := link_stay hm (rest.plain hq)
    by_cases h₁ : s = p₁.state
    · subst h₁
      exact hx.ends_orderly hc₁ hp ⟨link_stay hy (body.plain hpb), hexit⟩ hst
    by_cases h₂ : Within ⟨head, 0⟩ lo₁ y s
    · exact htk s h₂ h₁ st hst
    by_cases h₃ : Within ⟨y, 0⟩ (y + 2) hi₁ s
    · exact hx.ended hb (body.covered hy) hhead hst fun hn =>
        ihb (hx.loop hexit hhead (by omega)) hy hpb h₃ hn hst
    by_cases h₄ : Within ⟨y + 1, 0⟩ hi₁ hi s
    · exact ih (hx.mono (by omega)) hm hq h₄ hne hst
    · cases hh with
      | here => simp only [Within] at *; omega
      | new he _ =>
        obtain rfl : s = p.state := by simp only [Within] at *; omega
        exact hx.ends_orderly hc he hhead hst
  | @group h J s' b ss p p₁ q lo hi₁ hi _ body rest ihb ih =>
    have hlb := body.le
    have hp₁ := rest.plain hq
    have hc₁ := body.covered hc
    by_cases h₁ : Within p₁ hi₁ hi s
    · exact ih (hx.mono hlb.1) hc₁ hq h₁ hne hst
    · refine ihb hx hc hp₁ ?_ ?_ hst <;> omega
  | @caught h J m b x' cb ss g p qb qc q lo hi₁ hi₂ hi hg _ ho hp hy body hb hl clause hd rest ihb
      ihc ih =>
    have hlb := body.le.1
    have hlc := clause.le.1
    have hpb := hb.plain
    have hpc := hd.plain
    have hafter := link_stay ho (rest.plain hq)
    have har : around T.handlers (some g) = around T.handlers h := around_guard hn hg
    have hxg : Context T (some g) J (lo + 2) := by
      refine ⟨?_, har ▸ hx.nodup, har ▸ hx.cleans, har ▸ (hx.mono (Nat.le_add_right _ 2)).lt,
        har ▸ hx.lands, har ▸ hx.ends⟩
      rw [Reduce.outward_some hn.parent hg.2]
      exact ⟨clause.plain hpc, by rw [har, enclosing_eq hl]⟩
    by_cases h₁ : s = p.state
    · subst h₁
      exact hx.ends_orderly hc hp (har ▸ link_stay hy (body.plain hpb)) hst
    by_cases h₂ : Within ⟨lo + 1, 0⟩ (lo + 2) hi₁ s
    · exact hxg.ended hb (body.covered hy) (har ▸ hafter) hst fun hn => ihb hxg hy hpb h₂ hn hst
    by_cases h₃ : Within ⟨hi₁, 0⟩ (hi₁ + 1) hi₂ s
    · exact hx.ended hd (clause.covered hl) hafter hst fun hn =>
        ihc (hx.mono (by omega)) hl hpc h₃ hn hst
    · exact ih (hx.mono (by omega)) ho hq (by simp only [Within] at *; omega) hne hst
  | @cleaned h J J' m b fb ss g p qb q r lo hi₁ hi₂ hi _ hg ho hf hp hy body hb hr routes rest ihb
      ih =>
    have hlb := body.le.1
    have hpb := hb.plain
    have hxg : Context T (some g) J' (lo + 3) :=
      hx.guarded hn hg hf (Nat.le_succ _) (by rintro _ ⟨⟩) routes (by omega)
    by_cases h₁ : Within ⟨lo, 0⟩ hi₂ hi s
    · exact ih (hx.mono (by have := routes.le; omega)) ho hq h₁ hne hst
    · refine hx.orderly_guarded hn hc hg hp hf hy (body.plain hpb) (link_stay ho (rest.plain hq)) hr
        routes (body.leaves hb) ?_ (by simp only [Within] at *; omega) hst
      intro s st hs hlt hst
      exact hxg.ended hb (body.covered hy) (hr.2.2.link hn hg) hst fun hn =>
        ihb hxg hy hpb (by simp only [Within]; omega) hn hst
  | @both h J J' m b x' cb fb ss g k p qb qc q r lo hi₁ hi₂ hi₃ hi _ hg _ hk ho hf hp hy body hb hl
      clause hd hr routes rest ihb ihc ih =>
    have hlb := body.le.1
    have hlc := clause.le.1
    have hpb := hb.plain
    have hpc := hd.plain
    have hgk : around T.handlers (some k) = around T.handlers (some g) :=
      (around_guard hn hk).trans (around_guard hn hg).symm
    have hxg : Context T (some g) J' (lo + 3) := by
      refine hx.guarded hn hg hf (Nat.le_succ _) ?_ routes (by omega)
      intro c hc'
      cases hc'
      exact ⟨clause.plain hpc, (enclosing_eq hl).trans hgk⟩
    have hxk : Context T (some k) J' (hi₁ + 1) :=
      hx.guarded hn hk hf (Nat.le_succ _) (by rintro _ ⟨⟩) routes (by omega)
    by_cases h₁ : Within ⟨lo, 0⟩ hi₃ hi s
    · exact ih (hx.mono (by have := routes.le; omega)) ho hq h₁ hne hst
    · refine hx.orderly_guarded hn hc hg hp hf hy (body.plain hpb) (link_stay ho (rest.plain hq)) hr
        routes ((body.leaves hb).append (clause.leaves hd) (by omega) (by omega)) ?_
        (by simp only [Within] at *; omega) hst
      intro s st hs hlt hst
      by_cases h₂ : s < hi₁
      · exact hxg.ended hb (body.covered hy) (hr.2.2.link hn hg) hst fun hn =>
          ihb hxg hy hpb (by simp only [Within]; omega) hn hst
      · exact hxk.ended hd (clause.covered hl) (hr.2.2.link hn hk) hst fun hn =>
          ihc hxk hl hpc (by simp only [Within]; omega) hn hst

/-- The table of a body keeps to the regions. -/
theorem Body.disciplined {body : Block} (hb : Body T body) (hn : Numbered T.states T.handlers) :
    Disciplined T.states T.handlers := by
  obtain ⟨q, hl, hq⟩ := hb.laid
  have hnil : around T.handlers none = [] := by simp [around]
  have hpq := hq.plain
  obtain ⟨st₁, hst₁, -, he₁, hh₁⟩ := hb.finish
  have hret : Link T.states T.handlers [] Splitting.returnState :=
    .stay ⟨st₁, hst₁, by simp [he₁], by simp [he₁]⟩ ((enclosing_eq ⟨st₁, hst₁, hh₁⟩).trans hnil)
  have hx : Context T none { ret := some none } 2 := by
    refine ⟨?_, by simp [hnil], by simp [hnil], by simp [hnil], ?_, fun _ => hnil⟩
    · simp [Caught, hnil, Machine.rescue?]
    · intro x hr
      rcases hr with hr | hr | ⟨t, ht, rfl⟩
      · cases hr
      · cases hr
      · cases ht
        rwa [hnil]
  refine ⟨hl.plain hpq, (enclosing_eq hb.entry).trans hnil, ?_⟩
  intro s st hst
  by_cases h₁ : s = q.state
  · subst h₁
    exact hx.ends_orderly (hl.covered hb.entry) hq hnil hst
  by_cases h₂ : s = 1
  · subst h₂
    cases hst₁.symm.trans hst
    refine hx.orderly ⟨st₁, hst, hh₁⟩ hst ?_ (by simp [he₁]) (by simp [he₁])
    rw [he₁]
    exact hnil
  · have hlt : s < T.states.length := (List.getElem?_eq_some_iff.mp hst).1
    exact hl.orderly hn hx hb.entry hpq (by simp only [Within]; omega) h₁ hst

end Layout

end Resumable

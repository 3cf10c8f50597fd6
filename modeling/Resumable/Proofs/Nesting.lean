import Resumable.Proofs.Compiled

namespace Resumable

open List

variable {f g m n r s y : Nat} {st : State} {t : Terminator} {hs inner outer : List Handler}
  {J' : Targets} {e : Expr} {fb : Block}

namespace Regions

section

variable (T : Table)

/-- The clauses around what `h` covers, innermost first. -/
def clausesAround (h : Option HandlerId) : List Landing :=
  (Handler.outward T.handlers T.handlers.length h).filterMap (·.clause)

/-- The clauses around a state, innermost first. -/
def clauses (s : StateId) : List Landing :=
  clausesAround T (T.states[s]?.bind (·.handler))

/-- Guards from inside out, with their clauses and cleanups in place. -/
def Nested : List Handler → Prop
  | [] => True
  | g :: outer =>
    (∀ l ∈ g.clause, Plain T.states l.entry ∧
      enclosing T.states T.handlers l.entry = (g :: outer).filterMap (·.cleanup) ∧
      clauses T l.entry = outer.filterMap (·.clause) ∧ ∀ x ∈ l.binding, x ∈ T.caught) ∧
    (∀ f ∈ g.cleanup, Cleans T.states f ∧
      enclosing T.states T.handlers f = outer.filterMap (·.cleanup) ∧
      clauses T f = outer.filterMap (·.clause)) ∧
    Nested outer

/-- The number of cleanups around a state. -/
def depth (s : StateId) : Nat :=
  (enclosing T.states T.handlers s).length

/-- A terminator that stands inside of the cleanups `E` leads no deeper, except into a guarded
block at its first state. -/
def Opens (E : List StateId) : Terminator → Prop
  | .goto t =>
    depth T t ≤ E.length ∨ ∃ f : Nat, enclosing T.states T.handlers t = f :: E ∧ t = f + 1
  | t => ∀ x ∈ t.successors, depth T x ≤ E.length

/-- What is known about the guards around a state and about where it leads. -/
structure Placed (s : StateId) (st : State) : Prop where
  guarded : ∀ g ∈ st.handler, g < T.handlers.length
  nested : Nested T (Handler.outward T.handlers T.handlers.length st.handler)
  opens : Opens T (enclosing T.states T.handlers s) st.exit
  reached : st.exit ≠ .unreachable

end

variable {T : Table}

theorem Opens.of_depth {E : List StateId} (h : ∀ x ∈ t.successors, depth T x ≤ E.length) :
    Opens T E t := by
  cases t with
  | goto t => exact .inl (h t (mem_singleton.mpr rfl))
  | _ => exact h

theorem Nested.further (h : Nested T hs) (he : hs = inner ++ outer) : Nested T outer := by
  induction inner generalizing hs with
  | nil =>
    subst he
    exact h
  | cons x inner ih =>
    subst he
    exact ih h.2.2 rfl

theorem Nested.cleanup {f : StateId} {g : Handler} (h : Nested T hs) (he : hs = inner ++ g :: outer)
    (hf : g.cleanup = some f) :
    Cleans T.states f ∧ enclosing T.states T.handlers f = outer.filterMap (·.cleanup) ∧
      clauses T f = outer.filterMap (·.clause) :=
  (h.further he).2.1 f hf

theorem Nested.clause {l : Landing} {g : Handler} (h : Nested T hs) (he : hs = inner ++ g :: outer)
    (hl : g.clause = some l) :
    Plain T.states l.entry ∧
      enclosing T.states T.handlers l.entry = (g :: outer).filterMap (·.cleanup) ∧
      clauses T l.entry = outer.filterMap (·.clause) ∧ ∀ x ∈ l.binding, x ∈ T.caught :=
  (h.further he).1 l hl

end Regions

namespace Layout

open Regions

variable {T : Table} {h : Option HandlerId} {J : Targets} {ss : Block} {p q : Point} {lo hi : Nat}

/-- What holds around a block covered by `h`. -/
structure Setting (T : Table) (h : Option HandlerId) (J : Targets) : Prop where
  guarded : ∀ g ∈ h, g < T.handlers.length
  nested : Nested T (Handler.outward T.handlers T.handlers.length h)
  jumps : ∀ x, Targets.Reach J x → depth T x ≤ (around T.handlers h).length

theorem clauses_eq (hc : Covered T s h) : clauses T s = clausesAround T h := by
  obtain ⟨st, hst, rfl⟩ := hc
  rw [clauses, hst, Option.bind_some]

theorem depth_eq (hc : Covered T s h) : depth T s = (around T.handlers h).length :=
  congrArg length (enclosing_eq hc)

theorem Setting.placed (hx : Setting T h J) (hc : Covered T s h) (hst : T.states[s]? = some st)
    (ho : Opens T (around T.handlers h) st.exit) (hr : st.exit ≠ .unreachable) : Placed T s st := by
  rw [← enclosing_eq hc] at ho
  obtain ⟨st', hst', rfl⟩ := hc
  cases hst.symm.trans hst'
  exact ⟨hx.guarded, hx.nested, ho, hr⟩

theorem Setting.ends (hx : Setting T h J) (hc : Covered T p.state h) (he : Ends T p t)
    (ho : Opens T (around T.handlers h) t) (hst : T.states[p.state]? = some st)
    (hr : t ≠ .unreachable := by rintro ⟨⟩) : Placed T p.state st := by
  have ht := he.exit_eq hst
  subst ht
  exact hx.placed hc hst ho hr

/-- A terminator whose states are all covered by the same handler. -/
theorem opens_covered (ht : ∀ x ∈ t.successors, Covered T x h) : Opens T (around T.handlers h) t :=
  .of_depth fun x hx => Nat.le_of_eq (depth_eq (ht x hx))

theorem opens_goto {t : Nat} (ht : Covered T t h) : Opens T (around T.handlers h) (.goto t) :=
  .inl (Nat.le_of_eq (depth_eq ht))

theorem opens_suspend {z : Pause} (hr : Covered T r h) :
    Opens T (around T.handlers h) (.suspend z r) := by
  refine opens_covered fun x hx => ?_
  cases mem_singleton.mp hx
  exact hr

theorem opens_branch {a b : Nat} (ha : Covered T a h) (hb : Covered T b h) :
    Opens T (around T.handlers h) (.branch e a b) := by
  refine opens_covered fun x hx => ?_
  rcases mem_exits_branch (e := e) hx with rfl | rfl
  · exact ha
  · exact hb

theorem Setting.opens_ret (hx : Setting T h J) {v : Option Expr} {t : Option StateId}
    (hj : J.ret = some t) : Opens T (around T.handlers h) (.ret v t) := by
  refine .of_depth fun x hm => hx.jumps x (.inr (.inr ⟨t, hj, ?_⟩))
  obtain rfl : t = some x := by simpa [Terminator.successors] using hm
  rfl

theorem Setting.opens_jump (hx : Setting T h J) {s : Stmt} (hj : Jumps J s t) :
    Opens T (around T.handlers h) t := by
  cases hj with
  | yieldBreak m hr | ret m hr => exact hx.opens_ret hr
  | brk m hb => exact .inl (hx.jumps _ (.inl hb))
  | cont m hc => exact .inl (hx.jumps _ (.inr (.inl hc)))

theorem Setting.loop (hx : Setting T h J) {head : Nat} (hy : Covered T y h)
    (hh : Covered T head h) : Setting T h { J with brk := some y, cont := some head } := by
  refine ⟨hx.guarded, hx.nested, fun x hr => ?_⟩
  rcases Targets.reach_loop hr with rfl | rfl | hr
  · exact Nat.le_of_eq (depth_eq hy)
  · exact Nat.le_of_eq (depth_eq hh)
  · exact hx.jumps x hr

theorem Taken.placed {e' : Expr} {p₁ : Point} {lo₁ : Nat} (ht : Taken T h e e' p p₁ lo lo₁)
    (hx : Setting T h J) (hc : Covered T p.state h) :
    Covered T p₁.state h ∧ ∀ s, Within p lo lo₁ s → s ≠ p₁.state → ∀ st, T.states[s]? = some st →
      Placed T s st := by
  cases ht with
  | whole _ =>
    refine ⟨hc, fun s hs hne => ?_⟩
    omega
  | await m _ he hr =>
    refine ⟨hr, fun s hs hne st hst => ?_⟩
    rcases hs with rfl | hs
    · exact hx.ends hc he (opens_suspend hr) hst
    · exact absurd (show s = lo by omega) hne

theorem Setting.ended (hx : Setting T h J) {z : Nat} (he : Ends T q (.goto z))
    (hc : Covered T q.state h) (hz : depth T z ≤ (around T.handlers h).length)
    (hst : T.states[s]? = some st) (ih : s ≠ q.state → Placed T s st) : Placed T s st := by
  by_cases hs : s = q.state
  · subst hs
    exact hx.ends hc he (.inl hz) hst
  · exact ih hs

/-- A guard inside of `h`, with its clause and its cleanup. -/
theorem Setting.nested_guard (hx : Setting T h J) (hn : Numbered T.states T.handlers)
    {g : HandlerId} {clause : Option (StateId × Option String)} {cleanup : Option StateId}
    (hg : Guards T h g clause cleanup)
    (hl : ∀ c ∈ clause, Plain T.states c.1 ∧
      enclosing T.states T.handlers c.1 = around T.handlers (some g) ∧
      clauses T c.1 = clausesAround T h ∧ ∀ x ∈ c.2, x ∈ T.caught)
    (hf : ∀ f ∈ cleanup, ∃ fb, IsCleanup T h f fb) :
    Nested T (Handler.outward T.handlers T.handlers.length (some g)) := by
  have hout := Reduce.outward_some hn.parent hg.2
  rw [hout]
  refine ⟨?_, ?_, hx.nested⟩
  · intro l hm
    obtain ⟨c, hc, rfl⟩ := Option.map_eq_some_iff.mp hm
    rw [← hout]
    exact hl c hc
  · intro f hm
    obtain ⟨fb, hc⟩ := hf f hm
    exact ⟨hc.cleans.1, enclosing_eq hc.cleans.2, clauses_eq hc.cleans.2⟩

theorem Guards.lt {g : HandlerId} {clause : Option (StateId × Option String)}
    {cleanup : Option StateId} (hg : Guards T h g clause cleanup) : g < T.handlers.length :=
  (List.getElem?_eq_some_iff.mp hg.2).1

theorem Setting.guarded_block (hx : Setting T h J) (hn : Numbered T.states T.handlers)
    {clause : Option (StateId × Option String)} {first : Nat} (hg : Guards T h g clause (some f))
    (hf : IsCleanup T h f fb) (hl : ∀ c ∈ clause, Plain T.states c.1 ∧
      enclosing T.states T.handlers c.1 = around T.handlers (some g) ∧
      clauses T c.1 = clausesAround T h ∧ ∀ x ∈ c.2, x ∈ T.caught)
    (hr : Routed T h f first J' J m n) : Setting T (some g) J' := by
  refine ⟨?_, hx.nested_guard hn hg hl ?_, fun x hreach => ?_⟩
  · rintro _ ⟨⟩
    exact hg.lt
  · rintro _ ⟨⟩
    exact ⟨fb, hf⟩
  · obtain ⟨-, -, y, ⟨st, hst, -, -, hh⟩, -⟩ := hr.of_reach hreach
    rw [depth_eq ⟨st, hst, hh⟩, around_guard hn hg]
    simp

/-- A guarded block with its cleanup and its routes, when the states inside are known. -/
theorem Setting.placed_guarded (hx : Setting T h J) (hn : Numbered T.states T.handlers)
    {clause : Option (StateId × Option String)} (hc : Covered T p.state h)
    (hg : Guards T h g clause (some (lo + 1))) (hp : Ends T p (.goto (lo + 2)))
    (hf : IsCleanup T h (lo + 1) fb) (hy : Covered T (lo + 2) (some g)) (ho : Covered T lo h)
    (hr : m ≤ r ∧ r < n ∧ IsRoute T h (lo + 1) r lo)
    (routes : Routed T h (lo + 1) (lo + 2) J' J m n) (hl : Leaves T J' r (lo + 2) m)
    (hbody : ∀ (s : Nat) st, lo + 2 ≤ s → s < m → T.states[s]? = some st → Placed T s st)
    (hs : Within p (lo + 1) n s) (hst : T.states[s]? = some st) : Placed T s st := by
  by_cases h₁ : s = p.state
  · subst h₁
    refine hx.ends hc hp (.inr ⟨lo + 1, ?_, rfl⟩) hst
    exact (enclosing_eq hy).trans (around_guard hn hg)
  by_cases h₂ : s = lo + 1
  · subst h₂
    obtain ⟨st', hst', -, he, hh⟩ := hf
    cases hst.symm.trans hst'
    refine hx.placed ⟨st, hst, hh⟩ hst ?_ ?_ <;> rw [he]
    · rintro _ ⟨⟩
    · rintro ⟨⟩
  by_cases h₃ : lo + 2 ≤ s ∧ s < m
  · exact hbody s st h₃.1 h₃.2 hst
  · have h₄ : m ≤ s ∧ s < n := by omega
    obtain ⟨y, ⟨st', hst', -, he, hh⟩, hy⟩ := routes.route hr.2.2 hl h₄.1 h₄.2
    cases hst.symm.trans hst'
    refine hx.placed ⟨st, hst, hh⟩ hst ?_ (by rw [he]; rintro ⟨⟩)
    rw [he]
    refine .of_depth fun x hm => ?_
    simp only [Terminator.successors, mem_cons, not_mem_nil, or_false] at hm
    rcases hm with rfl | rfl
    · exact Nat.le_of_eq (depth_eq hf.cleans.2)
    · rcases hy with hy | rfl
      · exact hx.jumps x hy
      · exact Nat.le_of_eq (depth_eq ho)

theorem IsRoute.depth_le {clause : Option (StateId × Option String)} (hr : IsRoute T h f s y)
    (hn : Numbered T.states T.handlers) (hg : Guards T h g clause (some f)) :
    depth T s ≤ (around T.handlers (some g)).length := by
  obtain ⟨st, hst, -, -, hh⟩ := hr
  rw [depth_eq ⟨st, hst, hh⟩, around_guard hn hg]
  simp

/-- Every state of a block is in its place, apart from the one where the block stops. -/
theorem Laid.placed (hl : Laid T h J ss p q lo hi) (hn : Numbered T.states T.handlers)
    (hx : Setting T h J) (hc : Covered T p.state h) (hq : Plain T.states q.state)
    (hs : Within p lo hi s) (hne : s ≠ q.state) (hst : T.states[s]? = some st) : Placed T s st := by
  induction hl generalizing s st with
  | nil =>
    omega
  | flat _ _ _ ih => exact ih hx hc hq hs hne hst
  | receive _ _ hp ho _ rest ih | yield _ hp ho rest ih =>
    rcases hs with rfl | hs
    · exact hx.ends hc hp (opens_suspend ho) hst
    · exact ih hx ho hq (by simp only [Within]; omega) hne hst
  | leave hj hp ho rest ih =>
    rcases hs with rfl | hs
    · have hopens := hx.opens_jump hj
      cases hj <;> exact hx.ends hc hp hopens hst
    · exact ih hx ho hq (by simp only [Within]; omega) hne hst
  | @value h J m e e' t ss p p₁ q lo lo₁ hi he hj hp ho rest ih =>
    have hle := he.le
    obtain ⟨hc₁, ht⟩ := he.placed hx hc
    by_cases h₁ : s = p₁.state
    · subst h₁
      exact hx.ends hc₁ hp (hx.opens_ret hj) hst
    by_cases h₂ : Within p lo lo₁ s
    · exact ht s h₂ h₁ st hst
    · exact ih hx ho hq (by simp only [Within] at *; omega) hne hst
  | @when h J m t t' a ss p p₁ qa q lo y hi₁ hi ht hp hy hm yes ha rest ihy ih =>
    have hle := ht.le
    have hly := yes.le.1
    obtain ⟨hc₁, htk⟩ := ht.placed hx hc
    by_cases h₁ : s = p₁.state
    · subst h₁
      exact hx.ends hc₁ hp (opens_branch hy hm) hst
    by_cases h₂ : Within p lo y s
    · exact htk s h₂ h₁ st hst
    by_cases h₃ : Within ⟨y, 0⟩ (y + 2) hi₁ s
    · exact hx.ended ha (yes.covered hy) (Nat.le_of_eq (depth_eq hm)) hst fun hn =>
        ihy hx hy ha.plain h₃ hn hst
    · exact ih hx hm hq (by simp only [Within] at *; omega) hne hst
  | @either h J m t t' a b ss p p₁ qa qb q lo y hi₁ hi₂ hi ht hp hy hn' hm yes ha no hb rest ihy ihn
      ih =>
    have hle := ht.le
    have hly := yes.le.1
    have hln := no.le.1
    obtain ⟨hc₁, htk⟩ := ht.placed hx hc
    have hmerge := Nat.le_of_eq (depth_eq hm)
    by_cases h₁ : s = p₁.state
    · subst h₁
      exact hx.ends hc₁ hp (opens_branch hy hn') hst
    by_cases h₂ : Within p lo y s
    · exact htk s h₂ h₁ st hst
    by_cases h₃ : Within ⟨y, 0⟩ (y + 3) hi₁ s
    · exact hx.ended ha (yes.covered hy) hmerge hst fun hn =>
        ihy hx hy ha.plain h₃ hn hst
    by_cases h₄ : Within ⟨y + 1, 0⟩ hi₁ hi₂ s
    · exact hx.ended hb (no.covered hn') hmerge hst fun hn =>
        ihn hx hn' hb.plain h₄ hn hst
    · exact ih hx hm hq (by simp only [Within] at *; omega) hne hst
  | @loop h J m t t' b ss p p₁ qb q head lo lo₁ y hi₁ hi hh ht hp hy hm body hb rest ihb ih =>
    have hlh := hh.le
    have hle := ht.le
    have hlb := body.le.1
    have hch := hh.covered hc
    obtain ⟨hc₁, htk⟩ := ht.placed hx hch
    by_cases h₁ : s = p₁.state
    · subst h₁
      exact hx.ends hc₁ hp (opens_branch hy hm) hst
    by_cases h₂ : Within ⟨head, 0⟩ lo₁ y s
    · exact htk s h₂ h₁ st hst
    by_cases h₃ : Within ⟨y, 0⟩ (y + 2) hi₁ s
    · exact hx.ended hb (body.covered hy) (Nat.le_of_eq (depth_eq hch)) hst fun hn =>
        ihb (hx.loop hm hch) hy hb.plain h₃ hn hst
    by_cases h₄ : Within ⟨y + 1, 0⟩ hi₁ hi s
    · exact ih hx hm hq h₄ hne hst
    · cases hh with
      | here => simp only [Within] at *; omega
      | new he _ =>
        obtain rfl : s = p.state := by simp only [Within] at *; omega
        exact hx.ends hc he (opens_goto hch) hst
  | @group h J s' b ss p p₁ q lo hi₁ hi _ body rest ihb ih =>
    have hlb := body.le
    by_cases h₁ : Within p₁ hi₁ hi s
    · exact ih hx (body.covered hc) hq h₁ hne hst
    · refine ihb hx hc (rest.plain hq) ?_ ?_ hst <;> omega
  | @caught h J m b x' cb ss g p qb qc q lo hi₁ hi₂ hi hg hx' ho hp hy body hb hl clause hd rest ihb
      ihc ih =>
    have hlb := body.le.1
    have hlc := clause.le.1
    have hpc := hd.plain
    have har : around T.handlers (some g) = around T.handlers h := around_guard hn hg
    have hafter := Nat.le_of_eq (depth_eq ho)
    have hxg : Setting T (some g) J := by
      refine ⟨?_, hx.nested_guard hn hg ?_ (by rintro _ ⟨⟩), har ▸ hx.jumps⟩
      · rintro _ ⟨⟩
        exact hg.lt
      · rintro _ ⟨⟩
        exact ⟨clause.plain hpc, (enclosing_eq hl).trans har.symm, clauses_eq hl, hx'⟩
    by_cases h₁ : s = p.state
    · subst h₁
      exact hx.ends hc hp (har ▸ opens_goto hy) hst
    by_cases h₂ : Within ⟨lo + 1, 0⟩ (lo + 2) hi₁ s
    · exact hxg.ended hb (body.covered hy) (har ▸ hafter) hst fun hn =>
        ihb hxg hy hb.plain h₂ hn hst
    by_cases h₃ : Within ⟨hi₁, 0⟩ (hi₁ + 1) hi₂ s
    · exact hx.ended hd (clause.covered hl) hafter hst fun hn => ihc hx hl hpc h₃ hn hst
    · exact ih hx ho hq (by simp only [Within] at *; omega) hne hst
  | @cleaned h J J' m b fb ss g p qb q r lo hi₁ hi₂ hi _ hg ho hf hp hy body hb hr routes rest ihb
      ih =>
    have hlb := body.le.1
    have hxg : Setting T (some g) J' := hx.guarded_block hn hg hf (by rintro _ ⟨⟩) routes
    by_cases h₁ : Within ⟨lo, 0⟩ hi₂ hi s
    · exact ih hx ho hq h₁ hne hst
    · refine hx.placed_guarded hn hc hg hp hf hy ho hr routes (body.leaves hb) ?_
        (by simp only [Within] at *; omega) hst
      intro s st hs hlt hst
      exact hxg.ended hb (body.covered hy) (hr.2.2.depth_le hn hg) hst fun hn =>
        ihb hxg hy hb.plain (by simp only [Within]; omega) hn hst
  | @both h J J' m b x' cb fb ss g k p qb qc q r lo hi₁ hi₂ hi₃ hi _ hg hx' hk ho hf hp hy body hb
      hl clause hd hr routes rest ihb ihc ih =>
    have hlb := body.le.1
    have hlc := clause.le.1
    have hpc := hd.plain
    have hgk : around T.handlers (some k) = around T.handlers (some g) :=
      (around_guard hn hk).trans (around_guard hn hg).symm
    have hck : clausesAround T (some k) = clausesAround T h := by
      rw [clausesAround, Reduce.outward_some hn.parent hk.2]
      rfl
    have hxg : Setting T (some g) J' := by
      refine hx.guarded_block hn hg hf ?_ routes
      rintro _ ⟨⟩
      exact ⟨clause.plain hpc, (enclosing_eq hl).trans hgk, (clauses_eq hl).trans hck, hx'⟩
    have hxk : Setting T (some k) J' := hx.guarded_block hn hk hf (by rintro _ ⟨⟩) routes
    by_cases h₁ : Within ⟨lo, 0⟩ hi₃ hi s
    · exact ih hx ho hq h₁ hne hst
    · refine hx.placed_guarded hn hc hg hp hf hy ho hr routes
        ((body.leaves hb).append (clause.leaves hd) (by omega) (by omega)) ?_
        (by simp only [Within] at *; omega) hst
      intro s st hs hlt hst
      by_cases h₂ : s < hi₁
      · exact hxg.ended hb (body.covered hy) (hr.2.2.depth_le hn hg) hst fun hn =>
          ihb hxg hy hb.plain (by simp only [Within]; omega) hn hst
      · exact hxk.ended hd (clause.covered hl) (hr.2.2.depth_le hn hk) hst fun hn =>
          ihc hxk hl hpc (by simp only [Within]; omega) hn hst

/-- Every state of the table of a body is in its place. -/
theorem Body.placed {body : Block} (hb : Body T body) (hn : Numbered T.states T.handlers)
    (hst : T.states[s]? = some st) : Placed T s st := by
  obtain ⟨q, hl, hq⟩ := hb.laid
  obtain ⟨st₁, hst₁, -, he₁, hh₁⟩ := hb.finish
  have hx : Setting T none { ret := some none } := by
    refine ⟨nofun, by simp [Nested], fun x hr => ?_⟩
    rcases hr with hr | hr | ⟨t, ht, rfl⟩
    · cases hr
    · cases hr
    · cases ht
      exact Nat.le_of_eq (depth_eq ⟨st₁, hst₁, hh₁⟩)
  by_cases h₁ : s = q.state
  · subst h₁
    exact hx.ends (hl.covered hb.entry) hq (.of_depth nofun) hst
  by_cases h₂ : s = 1
  · subst h₂
    cases hst₁.symm.trans hst
    refine hx.placed ⟨st, hst, hh₁⟩ hst ?_ ?_ <;> rw [he₁] <;> nofun
  · have hlt : s < T.states.length := (List.getElem?_eq_some_iff.mp hst).1
    exact hl.placed hn hx hb.entry hq.plain (by simp only [Within]; omega) h₁ hst

end Layout

end Resumable

import Resumable.Proofs.Names
import Resumable.Proofs.Enclosure

namespace Resumable

open List Stmt

variable {st : State} {s : Stmt} {t : Terminator} {e : Expr} {A A' : Nat → List String}
  {J' : Targets} {f r x y : Nat} {fb : Block}

/-- Apart from those set aside by `P`, the occurrences are of the given names. -/
def Reached (P : Occurrence → Prop) (xs : List String) (os : List Occurrence) : Prop :=
  ∀ o ∈ os, P o ∨ o.name ∈ xs

namespace Reached

variable {P : Occurrence → Prop} {xs ys : List String} {os os' : List Occurrence}

theorem nil : Reached P xs [] :=
  nofun

theorem mono (h : Reached P xs os) (hs : xs ⊆ ys) : Reached P ys os :=
  fun o ho => (h o ho).imp_right (hs ·)

theorem append : Reached P xs (os ++ os') ↔ Reached P xs os ∧ Reached P xs os' :=
  forall_mem_append

theorem without : Reached P xs (Occurrence.without ys os) ↔ Reached P (xs ++ ys) os := by
  constructor
  · intro h o ho
    by_cases hy : o.name ∈ ys
    · exact .inr (mem_append_right _ hy)
    · exact (h o (Occurrence.mem_without.mpr ⟨ho, hy⟩)).imp_right (mem_append_left _)
  · intro h o ho
    obtain ⟨hm, hy⟩ := Occurrence.mem_without.mp ho
    refine (h o hm).imp_right fun hx => ?_
    exact (mem_append.mp hx).resolve_right hy

theorem cons {ss : Block} : Reached P xs (Stmt.looseIn (s :: ss)) ↔
    Reached P xs s.loose ∧ Reached P (xs ++ s.binds) (Stmt.looseIn ss) := by
  rw [looseIn, append, without]

theorem cons_of_nil {ss : Block} (hs : s.binds = []) :
    Reached P xs (Stmt.looseIn (s :: ss)) ↔
      Reached P xs s.loose ∧ Reached P xs (Stmt.looseIn ss) := by
  rw [cons, hs, append_nil]

end Reached

namespace Layout

open Regions

section

variable (T : Table) (P : Occurrence → Prop) (B : Nat → List String)

/-- The statements behind a point. -/
def behind (p : Point) : Block :=
  (T.states[p.state]?.elim [] (·.body)).take p.done

/-- The names bound when control is at a point. -/
def scopeAt (p : Point) : List String :=
  B p.state ++ Stmt.bindsIn (behind T p)

/-- The statements behind a point need no more than the names of its state. -/
def Founded (p : Point) : Prop :=
  Reached P (B p.state) (Stmt.looseIn (behind T p))

/-- Where the faults of a state go, no more is bound than `xs` and the fault itself. -/
def FaultsTo (xs : List String) (h : Option HandlerId) : Prop :=
  ∀ g ∈ Handler.outward T.handlers T.handlers.length h,
    (∀ l ∈ g.clause, B l.entry ⊆ l.binding.toList ++ xs) ∧ ∀ f ∈ g.cleanup, B f ⊆ xs

/-- The names of a state are enough for it, and it leads only to states that need no more than
these and what it binds itself. -/
structure Furnished (s : StateId) (st : State) : Prop where
  body : Reached P (B s) (Stmt.looseIn st.body)
  exit : ∀ e ∈ st.exit.expr?, Reached P (B s ++ Stmt.bindsIn st.body) e.loose
  next : ∀ t ∈ st.exit.successors, B t ⊆ B s ++ Stmt.bindsIn st.body
  faults : FaultsTo T B (B s) st.handler

/-- Where control goes from a block covered by `h`, no more is bound than `xs`. -/
structure Confined (h : Option HandlerId) (J : Targets) (xs : List String) : Prop where
  faults : FaultsTo T B xs h
  jumps : ∀ x, Targets.Reach J x → B x ⊆ xs

end

variable {T : Table} {P : Occurrence → Prop} {B : Nat → List String} {h : Option HandlerId}
  {J : Targets} {ss : Block} {p q : Point} {lo hi : Nat} {xs ys : List String}

theorem subset_of_eq (h : xs = ys) : xs ⊆ ys :=
  h ▸ List.Subset.refl xs

theorem FaultsTo.mono (hl : FaultsTo T B xs h) (hs : xs ⊆ ys) : FaultsTo T B ys h := by
  intro g hg
  obtain ⟨hc, hf⟩ := hl g hg
  refine ⟨fun l hm => List.Subset.trans (hc l hm) ?_, fun f hm => List.Subset.trans (hf f hm) hs⟩
  exact append_subset.mpr
    ⟨subset_append_left .., List.Subset.trans hs (subset_append_right ..)⟩

theorem behind_start (s : Nat) : behind T ⟨s, 0⟩ = [] :=
  take_zero

theorem scopeAt_start (s : Nat) : scopeAt T B ⟨s, 0⟩ = B s := by
  rw [scopeAt, behind_start]
  exact append_nil _

theorem Founded.start (s : Nat) : Founded T P B ⟨s, 0⟩ := by
  rw [Founded, behind_start]
  exact Reached.nil

theorem behind_step (ha : At T p s) : behind T ⟨p.state, p.done + 1⟩ = behind T p ++ [s] := by
  obtain ⟨st, hst, hs⟩ := ha
  simp [behind, hst, take_add_one, hs]

theorem scopeAt_step (ha : At T p s) :
    scopeAt T B ⟨p.state, p.done + 1⟩ = scopeAt T B p ++ s.binds := by
  rw [scopeAt, behind_step ha, bindsIn_append, scopeAt, append_assoc]
  simp [bindsIn]

theorem Founded.step (hf : Founded T P B p) (ha : At T p s)
    (hs : Reached P (scopeAt T B p) s.loose) : Founded T P B ⟨p.state, p.done + 1⟩ := by
  rw [Founded, behind_step ha, looseIn_append]
  refine Reached.append.mpr ⟨hf, Reached.without.mpr ?_⟩
  exact Reached.cons.mpr ⟨hs, Reached.nil⟩

theorem behind_end (he : Ends T p t) (hst : T.states[p.state]? = some st) :
    behind T p = st.body := by
  obtain ⟨st', hst', hlen, -⟩ := he
  cases hst.symm.trans hst'
  rw [behind, hst]
  exact take_of_length_le (Nat.le_of_eq hlen)

/-- Control can come to a point of a block covered by `h`. Then the names `ys` are bound, and `xs`
were bound already where its state began. -/
structure Arrival (T : Table) (P : Occurrence → Prop) (B : Nat → List String)
    (h : Option HandlerId) (J : Targets) (p : Point) (xs ys : List String) : Prop where
  confined : Confined T B h J xs
  kept : xs ⊆ B p.state
  covered : Covered T p.state h
  scope : scopeAt T B p = ys
  founded : Founded T P B p

theorem Confined.arrival (hk : Confined T B h J xs) (hy : B y = ys) (hs : xs ⊆ ys)
    (hc : Covered T y h) : Arrival T P B h J ⟨y, 0⟩ xs ys where
  confined := hk
  kept := hy ▸ hs
  covered := hc
  scope := (scopeAt_start y).trans hy
  founded := .start y

namespace Arrival

variable (ha : Arrival T P B h J p xs ys)
include ha

theorem subset : xs ⊆ ys :=
  ha.scope ▸ List.Subset.trans ha.kept (subset_append_left ..)

theorem jumps (hx : Targets.Reach J x) : B x ⊆ ys :=
  List.Subset.trans (ha.confined.jumps x hx) ha.subset

theorem ends (he : Ends T p t) (hv : ∀ e ∈ t.expr?, Reached P ys e.loose)
    (hn : ∀ x ∈ t.successors, B x ⊆ ys) (hst : T.states[p.state]? = some st) :
    Furnished T P B p.state st := by
  have hb := behind_end he hst
  have ht := he.exit_eq hst
  have hscope := ha.scope
  have hf := ha.founded
  obtain ⟨st', hst', hh⟩ := ha.covered
  cases hst.symm.trans hst'
  subst ht
  rw [scopeAt, hb] at hscope
  rw [Founded, hb] at hf
  subst hscope
  exact ⟨hf, hv, hn, hh ▸ ha.confined.faults.mono ha.kept⟩

theorem ends_goto (he : Ends T p (.goto x)) (hx : B x ⊆ ys) (hst : T.states[p.state]? = some st) :
    Furnished T P B p.state st := by
  refine ha.ends he nofun (fun y hy => ?_) hst
  cases mem_singleton.mp hy
  exact hx

theorem ends_suspend {z : Pause} (he : Ends T p (.suspend z r))
    (hz : ∀ e, z = .yield e ∨ z = .await e → Reached P ys e.loose) (hr : B r ⊆ ys)
    (hst : T.states[p.state]? = some st) : Furnished T P B p.state st := by
  refine ha.ends he (fun e hm => ?_) (fun y hy => ?_) hst
  · cases z with
    | yield e' | await e' =>
      cases hm
      exact hz _ (by simp)
  · cases mem_singleton.mp hy
    exact hr

theorem ends_branch {a b : Nat} (he : Ends T p (.branch e a b)) (hv : Reached P ys e.loose)
    (hx : B a ⊆ ys) (hy : B b ⊆ ys) (hst : T.states[p.state]? = some st) :
    Furnished T P B p.state st := by
  refine ha.ends he (fun e' hm => ?_) (fun x hm => ?_) hst
  · cases hm
    exact hv
  · rcases mem_exits_branch (e := e) hm with rfl | rfl
    · exact hx
    · exact hy

theorem ends_ret {v : Option Expr} {t : Option StateId} (he : Ends T p (.ret v t))
    (hv : ∀ e ∈ v, Reached P ys e.loose) (hj : J.ret = some t)
    (hst : T.states[p.state]? = some st) :
    Furnished T P B p.state st := by
  refine ha.ends he hv (fun x hm => ?_) hst
  obtain rfl : t = some x := by simpa [Terminator.successors] using hm
  exact ha.jumps (.inr (.inr ⟨_, hj, rfl⟩))

theorem ends_jump (he : Ends T p t) (hj : Jumps J s t) (hst : T.states[p.state]? = some st) :
    Furnished T P B p.state st := by
  cases hj with
  | yieldBreak m hr | ret m hr => exact ha.ends_ret he nofun hr hst
  | brk m hb => exact ha.ends_goto he (ha.jumps (.inl hb)) hst
  | cont m hc => exact ha.ends_goto he (ha.jumps (.inr (.inl hc))) hst

theorem step (hp : At T p s) (hs : Reached P ys s.loose) :
    Arrival T P B h J ⟨p.state, p.done + 1⟩ xs (ys ++ s.binds) where
  confined := ha.confined
  kept := ha.kept
  covered := ha.covered
  scope := by rw [scopeAt_step hp, ha.scope]
  founded := ha.founded.step hp (by rwa [ha.scope])

theorem fresh (hy : B y = ys) (hc : Covered T y h) : Arrival T P B h J ⟨y, 0⟩ xs ys :=
  ha.confined.arrival hy ha.subset hc

theorem loop {out head : Nat} (hb : B out = ys) (hh : B head = ys) :
    Confined T B h { J with brk := some out, cont := some head } ys := by
  refine ⟨ha.confined.faults.mono ha.subset, fun x hr => ?_⟩
  rcases Targets.reach_loop hr with rfl | rfl | hr
  · exact subset_of_eq hb
  · exact subset_of_eq hh
  · exact ha.jumps hr

theorem guard (hn : Numbered T.states T.handlers) {g : HandlerId}
    {clause : Option (StateId × Option String)} {cleanup : Option StateId}
    (hg : Guards T h g clause cleanup) (hl : ∀ c ∈ clause, B c.1 = ys ++ c.2.toList)
    (hf : ∀ f ∈ cleanup, B f = ys) (hj : ∀ x, Targets.Reach J' x → B x ⊆ ys) :
    Confined T B (some g) J' ys := by
  refine ⟨fun g' hm => ?_, hj⟩
  rw [Reduce.outward_some hn.parent hg.2] at hm
  rcases mem_cons.mp hm with rfl | hm
  · refine ⟨fun l hl' => ?_, fun f hf' => subset_of_eq (hf f hf')⟩
    obtain ⟨c, hc, rfl⟩ := Option.map_eq_some_iff.mp hl'
    rw [hl c hc]
    exact append_subset.mpr ⟨subset_append_right .., subset_append_left ..⟩
  · exact ha.confined.faults.mono ha.subset g' hm

theorem cleanup (hf : IsCleanup T h f fb) (hB : B f = ys) (hb : Reached P ys (Stmt.looseIn fb))
    (hst : T.states[f]? = some st) : Furnished T P B f st := by
  obtain ⟨st', hst', hbody, he, hh⟩ := hf
  cases hst.symm.trans hst'
  refine ⟨?_, ?_, ?_, ?_⟩
  · rwa [hB, hbody]
  · rw [he]
    exact nofun
  · rw [he]
    exact nofun
  · rw [hB, hh]
    exact ha.confined.faults.mono ha.subset

theorem route {s t : Nat} (hr : IsRoute T h f s t) (hB : B s = ys) (hf : B f ⊆ ys) (ht : B t ⊆ ys)
    (hst : T.states[s]? = some st) : Furnished T P B s st := by
  obtain ⟨st', hst', hbody, he, hh⟩ := hr
  cases hst.symm.trans hst'
  refine ⟨?_, ?_, ?_, ?_⟩
  · rw [hbody]
    exact Reached.nil
  · rw [he]
    exact nofun
  · intro x hx
    rw [he] at hx
    simp only [Terminator.successors, mem_cons, not_mem_nil, or_false] at hx
    rw [hB, hbody]
    rcases hx with rfl | rfl
    · exact List.Subset.trans hf (subset_append_left ..)
    · exact List.Subset.trans ht (subset_append_left ..)
  · rw [hB, hh]
    exact ha.confined.faults.mono ha.subset

theorem guarded {m n : Nat} (hp : Ends T p (.goto (lo + 2))) (hf : IsCleanup T h (lo + 1) fb)
    (hfb : Reached P ys (Stmt.looseIn fb)) (hr : m ≤ r ∧ r < n ∧ IsRoute T h (lo + 1) r lo)
    (routes : Routed T h (lo + 1) (lo + 2) J' J m n) (hl : Leaves T J' r (lo + 2) m)
    (hB : ∀ s, lo ≤ s → s < lo + 3 ∨ m ≤ s ∧ s < n → B s = ys)
    (hbody : ∀ (s : Nat) st, lo + 2 ≤ s → s < m → T.states[s]? = some st → Furnished T P B s st)
    {s : Nat} (hs : Within p (lo + 1) n s) (hst : T.states[s]? = some st) :
    Furnished T P B s st := by
  have hcleanup : B (lo + 1) = ys := hB _ (by omega) (by omega)
  by_cases h₁ : s = p.state
  · subst h₁
    exact ha.ends_goto hp (subset_of_eq (hB _ (by omega) (by omega))) hst
  by_cases h₂ : s = lo + 1
  · subst h₂
    exact ha.cleanup hf hcleanup hfb hst
  by_cases h₃ : lo + 2 ≤ s ∧ s < m
  · exact hbody s st h₃.1 h₃.2 hst
  · have h₄ : m ≤ s ∧ s < n := by omega
    obtain ⟨y, hroute, hy⟩ := routes.route hr.2.2 hl h₄.1 h₄.2
    refine ha.route hroute (hB s ?_ (.inr h₄)) (subset_of_eq hcleanup) ?_ hst
    · omega
    · rcases hy with hy | rfl
      · exact ha.jumps hy
      · exact subset_of_eq (hB _ (Nat.le_refl _) (by omega))

end Arrival

/-! Assignments of names to states are put together from those for their parts. -/

/-- `A` below `m`, and `A'` from there on. -/
def join (m : Nat) (A A' : Nat → List String) (s : Nat) : List String :=
  if s < m then A s else A' s

/-- The two assignments agree on a stretch. -/
def Agree (A : Nat → List String) (B : Nat → List String) (lo hi : Nat) : Prop :=
  ∀ s : Nat, lo ≤ s → s < hi → B s = A s

theorem Agree.left {m : Nat} (h : Agree (join m A A') B lo hi) (hm : m ≤ hi) : Agree A B lo m := by
  intro s hs hlt
  rw [h s hs (Nat.lt_of_lt_of_le hlt hm), join, if_pos hlt]

theorem Agree.right {m : Nat} (h : Agree (join m A A') B lo hi) (hm : lo ≤ m) :
    Agree A' B m hi := by
  intro s hs hlt
  rw [h s (Nat.le_trans hm hs) hlt, join, if_neg (Nat.not_lt.mpr hs)]

theorem Agree.const {A : List String} {m : Nat} (h : Agree (fun _ => A) B lo hi) (hlo : lo ≤ m)
    (hhi : m < hi) : B m = A :=
  h m hlo hhi

/-- Control can go on from `p` to `q`, and the states between them are furnished. -/
def Carries (T : Table) (P : Occurrence → Prop) (B : Nat → List String) (h : Option HandlerId)
    (J : Targets) (p q : Point) (lo hi : Nat) (xs ys : List String) : Prop :=
  Arrival T P B h J q xs ys ∧ ∀ s, Within p lo hi s → s ≠ q.state → ∀ st, T.states[s]? = some st →
    Furnished T P B s st

theorem Taken.carries {e' : Expr} (ht : Taken T h e e' p q lo hi) (ha : Arrival T P B h J p xs ys)
    (hB : Agree (fun _ => ys) B lo hi) (he : Reached P ys e.loose) :
    Carries T P B h J p q lo hi xs ys ∧ Reached P ys e'.loose := by
  cases ht with
  | whole _ =>
    refine ⟨⟨ha, fun s hs hne => ?_⟩, he⟩
    omega
  | await m _ hp hr =>
    have hlo : B lo = ys := hB lo (Nat.le_refl _) (Nat.lt_succ_self _)
    refine ⟨⟨ha.fresh hlo hr, fun s hs hne st hst => ?_⟩, Reached.nil⟩
    rcases hs with rfl | hs
    · refine ha.ends_suspend hp ?_ (subset_of_eq hlo) hst
      rintro e (hz | hz) <;> cases hz
      exact he
    · exact absurd (show s = lo by omega) hne

theorem Heads.carries {s : Nat} (hh : Heads T h p s lo hi) (ha : Arrival T P B h J p xs ys)
    (hB : Agree (fun _ => ys) B lo hi) :
    B s = ys ∧ Carries T P B h J p ⟨s, 0⟩ lo hi xs ys := by
  cases hh with
  | here =>
    refine ⟨(scopeAt_start s).symm.trans ha.scope, ha, fun s' hs hne => ?_⟩
    omega
  | new hp hr =>
    have hlo : B lo = ys := hB lo (Nat.le_refl _) (Nat.lt_succ_self _)
    refine ⟨hlo, ha.fresh hlo hr, fun s hs hne st hst => ?_⟩
    rcases hs with rfl | hs
    · exact ha.ends_goto hp (subset_of_eq hlo) hst
    · exact absurd (show s = lo by omega) hne

/-- The states of a block that goes on to `z` where it stops. -/
theorem Carries.ended (hc : Carries T P B h J p q lo hi xs ys) {z : Nat} (he : Ends T q (.goto z))
    (hz : B z ⊆ ys) {s : Nat} (hs : Within p lo hi s) (hst : T.states[s]? = some st) :
    Furnished T P B s st := by
  by_cases hne : s = q.state
  · subst hne
    exact hc.1.ends_goto he hz hst
  · exact hc.2 s hs hne st hst

theorem Receives.loose {s' : Stmt} (hr : Splitting.Receives s e s') (hs : Reached P ys s.loose) :
    Reached P ys e.loose ∧ Reached P ys s'.loose ∧ s'.binds = s.binds := by
  cases hr with
  | assign m x m' e =>
    obtain ⟨he, hx⟩ := Reached.append.mp hs
    exact ⟨he, hx, rfl⟩
  | _ => exact ⟨hs, Reached.nil, rfl⟩

theorem Jumps.binds (hj : Jumps J s t) : s.binds = [] := by
  cases hj <;> rfl

theorem Groups.loose {b : Block} (hg : Splitting.Groups s b) :
    s.loose = Stmt.looseIn b ∧ s.binds = [] := by
  cases hg with
  | block m b => exact ⟨rfl, rfl⟩
  | attempt m b => simp [loose, looseClause, looseCleanup, binds]

/-- Names can be assigned to the states of a block that are enough for each of them, whatever is
assigned to the states around it. -/
theorem Laid.furnish (hl : Laid T h J ss p q lo hi) (hn : Numbered T.states T.handlers)
    (hss : Reached P ys (Stmt.looseIn ss)) : ∃ (A : Nat → List String) (zs : List String),
      ys ⊆ zs ∧ ∀ (B : Nat → List String) xs, Agree A B lo hi → Arrival T P B h J p xs ys →
        Carries T P B h J p q lo hi xs zs := by
  induction hl generalizing ys with
  | nil =>
    refine ⟨fun _ => ys, ys, List.Subset.refl _, fun B xs _ ha => ⟨ha, fun s hs hne => ?_⟩⟩
    omega
  | @flat h J s ss p q lo hi hs hp rest ih =>
    obtain ⟨hs, hss⟩ := Reached.cons.mp hss
    obtain ⟨A, zs, hzs, hA⟩ := ih hss
    refine ⟨A, zs, List.Subset.trans (subset_append_left ..) hzs, fun B xs hB ha => ?_⟩
    exact hA B xs hB (ha.step hp hs)
  | @receive h J s e s' ss p q lo hi hr he hp ho hat rest ih =>
    obtain ⟨hs, hss⟩ := Reached.cons.mp hss
    obtain ⟨he, hs', hbinds⟩ := Receives.loose hr hs
    obtain ⟨A, zs, hzs, hA⟩ := ih hss
    have hle := rest.le.1
    refine ⟨join (lo + 1) (fun _ => ys) A, zs, List.Subset.trans (subset_append_left ..) hzs,
      fun B xs hB ha => ?_⟩
    have hlo : B lo = ys := (hB.left hle).const (Nat.le_refl _) (Nat.lt_succ_self _)
    have hnext := (ha.fresh hlo ho).step hat hs'
    rw [hbinds] at hnext
    obtain ⟨hq, hin⟩ := hA B xs (hB.right (Nat.le_succ _)) hnext
    refine ⟨hq, fun s₁ hs₁ hne st hst => ?_⟩
    rcases hs₁ with rfl | hs₁
    · refine ha.ends_suspend hp ?_ (subset_of_eq hlo) hst
      rintro e (hz | hz) <;> cases hz
      exact he
    · exact hin s₁ (by simp only [Within]; omega) hne st hst
  | @yield h J m e ss p q lo hi he hp ho rest ih =>
    obtain ⟨hs, hss⟩ := (Reached.cons_of_nil rfl).mp hss
    obtain ⟨A, zs, hzs, hA⟩ := ih hss
    have hle := rest.le.1
    refine ⟨join (lo + 1) (fun _ => ys) A, zs, hzs, fun B xs hB ha => ?_⟩
    have hlo : B lo = ys := (hB.left hle).const (Nat.le_refl _) (Nat.lt_succ_self _)
    obtain ⟨hq, hin⟩ := hA B xs (hB.right (Nat.le_succ _)) (ha.fresh hlo ho)
    refine ⟨hq, fun s₁ hs₁ hne st hst => ?_⟩
    rcases hs₁ with rfl | hs₁
    · refine ha.ends_suspend hp ?_ (subset_of_eq hlo) hst
      rintro e (hz | hz) <;> cases hz
      exact hs
    · exact hin s₁ (by simp only [Within]; omega) hne st hst
  | @leave h J s t ss p q lo hi hj hp ho rest ih =>
    obtain ⟨-, hss⟩ := (Reached.cons_of_nil hj.binds).mp hss
    obtain ⟨A, zs, hzs, hA⟩ := ih hss
    have hle := rest.le.1
    refine ⟨join (lo + 1) (fun _ => ys) A, zs, hzs, fun B xs hB ha => ?_⟩
    have hlo : B lo = ys := (hB.left hle).const (Nat.le_refl _) (Nat.lt_succ_self _)
    obtain ⟨hq, hin⟩ := hA B xs (hB.right (Nat.le_succ _)) (ha.fresh hlo ho)
    refine ⟨hq, fun s₁ hs₁ hne st hst => ?_⟩
    rcases hs₁ with rfl | hs₁
    · exact ha.ends_jump hp hj hst
    · exact hin s₁ (by simp only [Within]; omega) hne st hst
  | @value h J m e e' t ss p p₁ q lo lo₁ hi he hj hp ho rest ih =>
    obtain ⟨hs, hss⟩ := (Reached.cons_of_nil rfl).mp hss
    obtain ⟨A, zs, hzs, hA⟩ := ih hss
    have hle := rest.le.1
    have hlt := he.le
    refine ⟨join (lo₁ + 1) (fun _ => ys) A, zs, hzs, fun B xs hB ha => ?_⟩
    have hnew := hB.left hle
    have hlo : B lo₁ = ys := hnew.const hlt.1 (Nat.lt_succ_self _)
    obtain ⟨hp₁, he'⟩ := he.carries ha (fun s h₁ h₂ => hnew s h₁ (by omega)) hs
    obtain ⟨hq, hin⟩ := hA B xs (hB.right (by omega)) (ha.fresh hlo ho)
    refine ⟨hq, fun s₁ hs₁ hne st hst => ?_⟩
    by_cases h₁ : s₁ = p₁.state
    · subst h₁
      refine hp₁.1.ends_ret hp ?_ hj hst
      rintro _ ⟨⟩
      exact he'
    by_cases h₂ : Within p lo lo₁ s₁
    · exact hp₁.2 s₁ h₂ h₁ st hst
    · exact hin s₁ (by simp only [Within] at *; omega) hne st hst
  | @when h J m t t' a ss p p₁ qa q lo y hi₁ hi ht hp hy hm yes hqa rest ihy ih =>
    obtain ⟨hs, hss⟩ := (Reached.cons_of_nil rfl).mp hss
    obtain ⟨htx, -⟩ := Reached.append.mp hs
    obtain ⟨ht', hya⟩ := Reached.append.mp htx
    obtain ⟨A₁, zs₁, hzs₁, hA₁⟩ := ihy hya
    obtain ⟨A₂, zs, hzs, hA₂⟩ := ih hss
    have hle := rest.le.1
    have hly := yes.le.1
    have hlt := ht.le
    refine ⟨join (y + 2) (fun _ => ys) (join hi₁ A₁ A₂), zs, hzs, fun B xs hB ha => ?_⟩
    have hnew := hB.left (by omega)
    have hB₁ : Agree A₁ B (y + 2) hi₁ := (hB.right (by omega)).left hle
    have hB₂ : Agree A₂ B hi₁ hi := (hB.right (by omega)).right hly
    have hBy : B y = ys := hnew.const hlt.1 (by omega)
    have hBm : B (y + 1) = ys := hnew.const (by omega) (by omega)
    obtain ⟨hp₁, he'⟩ := ht.carries ha (fun s h₁ h₂ => hnew s h₁ (by omega)) ht'
    have hyes := hA₁ B xs hB₁ (ha.fresh hBy hy)
    obtain ⟨hq, hin⟩ := hA₂ B xs hB₂ (ha.fresh hBm hm)
    refine ⟨hq, fun s₁ hs₁ hne st hst => ?_⟩
    by_cases h₁ : s₁ = p₁.state
    · subst h₁
      exact hp₁.1.ends_branch hp he' (subset_of_eq hBy) (subset_of_eq hBm) hst
    by_cases h₂ : Within p lo y s₁
    · exact hp₁.2 s₁ h₂ h₁ st hst
    by_cases h₃ : Within ⟨y, 0⟩ (y + 2) hi₁ s₁
    · exact hyes.ended hqa (hBm ▸ hzs₁) h₃ hst
    · exact hin s₁ (by simp only [Within] at *; omega) hne st hst
  | @either h J m t t' a b ss p p₁ qa qb q lo y hi₁ hi₂ hi ht hp hy hno hm yes hqa no hqb rest ihy
      ihn ih =>
    obtain ⟨hs, hss⟩ := (Reached.cons_of_nil rfl).mp hss
    obtain ⟨htx, hnb⟩ := Reached.append.mp hs
    obtain ⟨ht', hya⟩ := Reached.append.mp htx
    obtain ⟨A₁, zs₁, hzs₁, hA₁⟩ := ihy hya
    obtain ⟨A₂, zs₂, hzs₂, hA₂⟩ := ihn hnb
    obtain ⟨A₃, zs, hzs, hA₃⟩ := ih hss
    have hle := rest.le.1
    have hly := yes.le.1
    have hln := no.le.1
    have hlt := ht.le
    refine ⟨join (y + 3) (fun _ => ys) (join hi₁ A₁ (join hi₂ A₂ A₃)), zs, hzs,
      fun B xs hB ha => ?_⟩
    have hnew := hB.left (by omega)
    have hB' := hB.right (by omega)
    have hB₁ : Agree A₁ B (y + 3) hi₁ := hB'.left (by omega)
    have hB₂ : Agree A₂ B hi₁ hi₂ := (hB'.right hly).left hle
    have hB₃ : Agree A₃ B hi₂ hi := (hB'.right hly).right hln
    have hBy : B y = ys := hnew.const hlt.1 (by omega)
    have hBn : B (y + 1) = ys := hnew.const (by omega) (by omega)
    have hBm : B (y + 2) = ys := hnew.const (by omega) (by omega)
    obtain ⟨hp₁, he'⟩ := ht.carries ha (fun s h₁ h₂ => hnew s h₁ (by omega)) ht'
    have hyes := hA₁ B xs hB₁ (ha.fresh hBy hy)
    have hno := hA₂ B xs hB₂ (ha.fresh hBn hno)
    obtain ⟨hq, hin⟩ := hA₃ B xs hB₃ (ha.fresh hBm hm)
    refine ⟨hq, fun s₁ hs₁ hne st hst => ?_⟩
    by_cases h₁ : s₁ = p₁.state
    · subst h₁
      exact hp₁.1.ends_branch hp he' (subset_of_eq hBy) (subset_of_eq hBn) hst
    by_cases h₂ : Within p lo y s₁
    · exact hp₁.2 s₁ h₂ h₁ st hst
    by_cases h₃ : Within ⟨y, 0⟩ (y + 3) hi₁ s₁
    · exact hyes.ended hqa (hBm ▸ hzs₁) h₃ hst
    by_cases h₄ : Within ⟨y + 1, 0⟩ hi₁ hi₂ s₁
    · exact hno.ended hqb (hBm ▸ hzs₂) h₄ hst
    · exact hin s₁ (by simp only [Within] at *; omega) hne st hst
  | @loop h J m t t' b ss p p₁ qb q head lo lo₁ y hi₁ hi hh ht hp hy hx body hb rest ihb ih =>
    obtain ⟨hs, hss⟩ := (Reached.cons_of_nil rfl).mp hss
    obtain ⟨ht', hbb⟩ := Reached.append.mp hs
    obtain ⟨A₁, zs₁, hzs₁, hA₁⟩ := ihb hbb
    obtain ⟨A₂, zs, hzs, hA₂⟩ := ih hss
    have hle := rest.le.1
    have hlb := body.le.1
    have hlh := hh.le
    have hlt := ht.le
    refine ⟨join (y + 2) (fun _ => ys) (join hi₁ A₁ A₂), zs, hzs, fun B xs hB ha => ?_⟩
    have hnew := hB.left (by omega)
    have hB₁ : Agree A₁ B (y + 2) hi₁ := (hB.right (by omega)).left hle
    have hB₂ : Agree A₂ B hi₁ hi := (hB.right (by omega)).right hlb
    have hBy : B y = ys := hnew.const (by omega) (by omega)
    have hBx : B (y + 1) = ys := hnew.const (by omega) (by omega)
    obtain ⟨hBh, hph⟩ := hh.carries ha fun s h₁ h₂ => hnew s h₁ (by omega)
    obtain ⟨hp₁, he'⟩ := ht.carries hph.1 (fun s h₁ h₂ => hnew s (by omega) (by omega)) ht'
    have hbody := hA₁ B ys hB₁ ((ha.loop hBx hBh).arrival hBy (List.Subset.refl _) hy)
    obtain ⟨hq, hin⟩ := hA₂ B xs hB₂ (ha.fresh hBx hx)
    refine ⟨hq, fun s₁ hs₁ hne st hst => ?_⟩
    by_cases h₁ : s₁ = p₁.state
    · subst h₁
      exact hp₁.1.ends_branch hp he' (subset_of_eq hBy) (subset_of_eq hBx) hst
    by_cases h₂ : Within ⟨head, 0⟩ lo₁ y s₁
    · exact hp₁.2 s₁ h₂ h₁ st hst
    by_cases h₃ : Within ⟨y, 0⟩ (y + 2) hi₁ s₁
    · exact hbody.ended hb (hBh ▸ hzs₁) h₃ hst
    by_cases h₄ : Within ⟨y + 1, 0⟩ hi₁ hi s₁
    · exact hin s₁ h₄ hne st hst
    · exact hph.2 s₁ (by simp only [Within] at *; omega) (by simp only [Within] at *; omega) st hst
  | @group h J s b ss p p₁ q lo hi₁ hi hg body rest ihb ih =>
    obtain ⟨hloose, hbinds⟩ := Groups.loose hg
    obtain ⟨hs, hss⟩ := (Reached.cons_of_nil hbinds).mp hss
    obtain ⟨A₁, zs₁, hzs₁, hA₁⟩ := ihb (hloose ▸ hs)
    obtain ⟨A₂, zs, hzs, hA₂⟩ := ih (hss.mono hzs₁)
    have hle := rest.le
    have hlb := body.le
    refine ⟨join hi₁ A₁ A₂, zs, List.Subset.trans hzs₁ hzs, fun B xs hB ha => ?_⟩
    obtain ⟨hp₁, hin₁⟩ := hA₁ B xs (hB.left hle.1) ha
    obtain ⟨hq, hin⟩ := hA₂ B xs (hB.right hlb.1) hp₁
    refine ⟨hq, fun s₁ hs₁ hne st hst => ?_⟩
    by_cases h₁ : Within p₁ hi₁ hi s₁
    · exact hin s₁ h₁ hne st hst
    · refine hin₁ s₁ ?_ ?_ st hst <;> omega
  | @caught h J m b x cb ss g p qb qc q lo hi₁ hi₂ hi hg hx ho hp hy body hb hc clause hd rest ihb
      ihc ih =>
    obtain ⟨hs, hss⟩ := (Reached.cons_of_nil rfl).mp hss
    obtain ⟨hbc, -⟩ := Reached.append.mp hs
    obtain ⟨hbb, hcb⟩ := Reached.append.mp hbc
    obtain ⟨A₁, zs₁, hzs₁, hA₁⟩ := ihb hbb
    obtain ⟨A₂, zs₂, hzs₂, hA₂⟩ := ihc (Reached.without.mp hcb)
    obtain ⟨A₃, zs, hzs, hA₃⟩ := ih hss
    have hle := rest.le.1
    have hlb := body.le.1
    have hlc := clause.le.1
    refine ⟨join (lo + 2) (fun _ => ys) (join hi₁ A₁ (join (hi₁ + 1) (fun _ => ys ++ x.toList)
      (join hi₂ A₂ A₃))), zs, hzs, fun B xs hB ha => ?_⟩
    have hnew := hB.left (by omega)
    have hB' := hB.right (by omega)
    have hB'' := hB'.right hlb
    have hB₁ : Agree A₁ B (lo + 2) hi₁ := hB'.left (by omega)
    have hB₂ : Agree A₂ B (hi₁ + 1) hi₂ := (hB''.right (Nat.le_succ _)).left hle
    have hB₃ : Agree A₃ B hi₂ hi := (hB''.right (Nat.le_succ _)).right hlc
    have hBl : B hi₁ = ys ++ x.toList :=
      (hB''.left (by omega)).const (Nat.le_refl _) (Nat.lt_succ_self _)
    have hBo : B lo = ys := hnew.const (Nat.le_refl _) (by omega)
    have hBy : B (lo + 1) = ys := hnew.const (Nat.le_succ _) (Nat.lt_succ_self _)
    have hguard : Confined T B (some g) J ys := by
      refine ha.guard hn hg ?_ (by rintro _ ⟨⟩) fun x hr => ha.jumps hr
      rintro _ ⟨⟩
      exact hBl
    have hbody := hA₁ B ys hB₁ (hguard.arrival hBy (List.Subset.refl _) hy)
    have hclause := hA₂ B xs hB₂ (ha.confined.arrival hBl
      (List.Subset.trans ha.subset (subset_append_left ..)) hc)
    obtain ⟨hq, hin⟩ := hA₃ B xs hB₃ (ha.fresh hBo ho)
    refine ⟨hq, fun s₁ hs₁ hne st hst => ?_⟩
    by_cases h₁ : s₁ = p.state
    · subst h₁
      exact ha.ends_goto hp (subset_of_eq hBy) hst
    by_cases h₂ : Within ⟨lo + 1, 0⟩ (lo + 2) hi₁ s₁
    · exact hbody.ended hb (hBo ▸ hzs₁) h₂ hst
    by_cases h₃ : Within ⟨hi₁, 0⟩ (hi₁ + 1) hi₂ s₁
    · refine hclause.ended hd (hBo ▸ ?_) h₃ hst
      exact List.Subset.trans (subset_append_left ..) hzs₂
    · exact hin s₁ (by simp only [Within] at *; omega) hne st hst
  | @cleaned h J J' m b fb ss g p qb q r lo hi₁ hi₂ hi _ hg ho hf hp hy body hb hr routes rest ihb
      ih =>
    obtain ⟨hs, hss⟩ := (Reached.cons_of_nil rfl).mp hss
    obtain ⟨hbc, hfb⟩ := Reached.append.mp hs
    obtain ⟨hbb, -⟩ := Reached.append.mp hbc
    obtain ⟨A₁, zs₁, hzs₁, hA₁⟩ := ihb hbb
    obtain ⟨A₂, zs, hzs, hA₂⟩ := ih hss
    have hle := rest.le.1
    have hlb := body.le.1
    have hlr := routes.le
    refine ⟨join (lo + 3) (fun _ => ys) (join hi₁ A₁ (join hi₂ (fun _ => ys) A₂)), zs, hzs,
      fun B xs hB ha => ?_⟩
    have hnew := hB.left (by omega)
    have hB' := hB.right (by omega)
    have hB₁ : Agree A₁ B (lo + 3) hi₁ := hB'.left (by omega)
    have hroutes := (hB'.right hlb).left hle
    have hB₂ : Agree A₂ B hi₂ hi := (hB'.right hlb).right hlr
    have hall : ∀ s, lo ≤ s → s < lo + 3 ∨ hi₁ ≤ s ∧ s < hi₂ → B s = ys := by
      rintro s hlo (hs | hs)
      · exact hnew s hlo hs
      · exact hroutes s hs.1 hs.2
    have hBo : B lo = ys := hall lo (Nat.le_refl _) (by omega)
    have hguard : Confined T B (some g) J' ys := by
      refine ha.guard hn hg (by rintro _ ⟨⟩) ?_ fun x hx => ?_
      · rintro _ ⟨⟩
        exact hall _ (by omega) (by omega)
      · obtain ⟨hlo, hhi, -⟩ := routes.of_reach hx
        exact subset_of_eq (hall x (by omega) (.inr ⟨hlo, hhi⟩))
    have hbody := hA₁ B ys hB₁
      (hguard.arrival (hall _ (by omega) (by omega)) (List.Subset.refl _) hy)
    obtain ⟨hq, hin⟩ := hA₂ B xs hB₂ (ha.fresh hBo ho)
    refine ⟨hq, fun s₁ hs₁ hne st hst => ?_⟩
    by_cases h₁ : Within ⟨lo, 0⟩ hi₂ hi s₁
    · exact hin s₁ h₁ hne st hst
    · refine ha.guarded hp hf hfb hr routes (body.leaves hb) hall ?_
        (by simp only [Within] at *; omega) hst
      intro s st hs hlt hst
      refine hbody.ended hb ?_ (by simp only [Within]; omega) hst
      exact hall r (by omega) (.inr ⟨hr.1, hr.2.1⟩) ▸ hzs₁
  | @both h J J' m b x cb fb ss g k p qb qc q r lo hi₁ hi₂ hi₃ hi _ hg hx hk ho hf hp hy body hb hl
      clause hd hr routes rest ihb ihc ih =>
    obtain ⟨hs, hss⟩ := (Reached.cons_of_nil rfl).mp hss
    obtain ⟨hbc, hfb⟩ := Reached.append.mp hs
    obtain ⟨hbb, hcb⟩ := Reached.append.mp hbc
    obtain ⟨A₁, zs₁, hzs₁, hA₁⟩ := ihb hbb
    obtain ⟨A₂, zs₂, hzs₂, hA₂⟩ := ihc (Reached.without.mp hcb)
    obtain ⟨A₃, zs, hzs, hA₃⟩ := ih hss
    have hle := rest.le.1
    have hlb := body.le.1
    have hlc := clause.le.1
    have hlr := routes.le
    refine ⟨join (lo + 3) (fun _ => ys) (join hi₁ A₁ (join (hi₁ + 1) (fun _ => ys ++ x.toList)
      (join hi₂ A₂ (join hi₃ (fun _ => ys) A₃)))), zs, hzs, fun B xs hB ha => ?_⟩
    have hnew := hB.left (by omega)
    have hB' := hB.right (by omega)
    have hB'' := hB'.right hlb
    have hB₁ : Agree A₁ B (lo + 3) hi₁ := hB'.left (by omega)
    have hB₂ : Agree A₂ B (hi₁ + 1) hi₂ := (hB''.right (Nat.le_succ _)).left (by omega)
    have hroutes := ((hB''.right (Nat.le_succ _)).right hlc).left hle
    have hB₃ : Agree A₃ B hi₃ hi := ((hB''.right (Nat.le_succ _)).right hlc).right hlr
    have hBl : B hi₁ = ys ++ x.toList :=
      (hB''.left (by omega)).const (Nat.le_refl _) (Nat.lt_succ_self _)
    have hall : ∀ s, lo ≤ s → s < lo + 3 ∨ hi₂ ≤ s ∧ s < hi₃ → B s = ys := by
      rintro s hlo (hs | hs)
      · exact hnew s hlo hs
      · exact hroutes s hs.1 hs.2
    have hBo : B lo = ys := hall lo (Nat.le_refl _) (by omega)
    have hland : ∀ c ∈ some (hi₁, x), B c.1 = ys ++ c.2.toList := by
      rintro _ ⟨⟩
      exact hBl
    have hcleanup : ∀ f ∈ some (lo + 1), B f = ys := by
      rintro _ ⟨⟩
      exact hall _ (by omega) (by omega)
    have hjumps : ∀ x, Targets.Reach J' x → B x ⊆ ys := by
      intro x hx
      obtain ⟨hlo, hhi, -⟩ := routes.of_reach hx
      exact subset_of_eq (hall x (by omega) (.inr ⟨hlo, hhi⟩))
    have hguard := ha.guard hn hg hland hcleanup hjumps
    have haround := ha.guard hn hk (by rintro _ ⟨⟩) hcleanup hjumps
    have hbody := hA₁ B ys hB₁
      (hguard.arrival (hall _ (by omega) (by omega)) (List.Subset.refl _) hy)
    have hclause := hA₂ B ys hB₂ (haround.arrival hBl (subset_append_left ..) hl)
    obtain ⟨hq, hin⟩ := hA₃ B xs hB₃ (ha.fresh hBo ho)
    have hBr : B r = ys := hall r (by omega) (.inr ⟨hr.1, hr.2.1⟩)
    refine ⟨hq, fun s₁ hs₁ hne st hst => ?_⟩
    by_cases h₁ : Within ⟨lo, 0⟩ hi₃ hi s₁
    · exact hin s₁ h₁ hne st hst
    · refine ha.guarded hp hf hfb hr routes
        ((body.leaves hb).append (clause.leaves hd) (by omega) (by omega)) hall ?_
        (by simp only [Within] at *; omega) hst
      intro s st hs hlt hst
      by_cases h₂ : s < hi₁
      · exact hbody.ended hb (hBr ▸ hzs₁) (by simp only [Within]; omega) hst
      · refine hclause.ended hd (hBr ▸ ?_) (by simp only [Within]; omega) hst
        exact List.Subset.trans (subset_append_left ..) hzs₂

/-- Names can be assigned to the states of a whole body: those bound around it to the first, and
to each of the others what is enough for it. -/
theorem Body.furnish {body : Block} (hb : Body T body) (hn : Numbered T.states T.handlers)
    (hr : Reached P ys (Stmt.looseIn body)) : ∃ B : Nat → List String, B Chain.entry = ys ∧
      ∀ (s : Nat) st, T.states[s]? = some st → Furnished T P B s st := by
  obtain ⟨q, hl, hq⟩ := hb.laid
  obtain ⟨A, zs, -, hA⟩ := hl.furnish hn hr
  let B : Nat → List String := fun s => if s = 0 then ys else if s = 1 then [] else A s
  have hB : Agree A B 2 T.states.length := by
    intro s hs hlt
    simp only [B]
    rw [if_neg (by omega), if_neg (by omega)]
  have hk : Confined T B none { ret := some none } [] := by
    refine ⟨fun g hg => ?_, fun x hx => ?_⟩
    · rw [Reduce.outward_none] at hg
      cases hg
    · rcases hx with hx | hx | ⟨t, ht, rfl⟩
      · cases hx
      · cases hx
      · cases ht
        exact List.Subset.refl []
  have h0 : B 0 = ys := rfl
  obtain ⟨hend, hin⟩ := hA B [] hB (hk.arrival h0 (nil_subset _) hb.entry)
  refine ⟨B, rfl, fun s st hst => ?_⟩
  by_cases h₁ : s = q.state
  · subst h₁
    exact hend.ends hq nofun nofun hst
  by_cases h₂ : s = 1
  · subst h₂
    obtain ⟨st', hst', hbody, he, hh⟩ := hb.finish
    cases hst.symm.trans hst'
    refine ⟨?_, ?_, ?_, hh ▸ hk.faults⟩
    · rw [hbody]
      exact Reached.nil
    · rw [he]
      exact nofun
    · rw [he]
      exact nofun
  · have hlt : s < T.states.length := (List.getElem?_eq_some_iff.mp hst).1
    exact hin s (by simp only [Within]; omega) h₁ st hst

end Layout

/-! The live part of a table. -/

namespace Compiled

open Layout

variable {m : Method} {kind : Kind} {c : Chain} {P : Occurrence → Prop} {B : Nat → List String}
  {ys : List String}

/-- The table that the chain is made of. -/
def rest (C : Compiled m kind c) : Table :=
  { states := C.small.1, handlers := C.small.2, caught := C.table.caught }

section

variable (C : Compiled m kind c)
include C

/-- Control stays in the table, and in its live part if it is there. -/
theorem live_next {s t : Nat} (hs : C.live s)
    (ht : t ∈ Reduce.next C.table.states C.table.handlers s) : C.live t := by
  refine C.shrinks.next s t hs ht ?_
  cases hst : C.table.states[s]? with
  | none => simp [Reduce.next, hst] at ht
  | some st =>
    simp only [Reduce.next, hst] at ht
    rcases mem_append.mp ht with ht | ht
    · exact (C.orderly hst).exit.lt t ht
    · obtain ⟨g, hg, ht⟩ := mem_flatMap.mp ht
      obtain ⟨inner, outer, he⟩ := append_of_mem hg
      have hnest := (C.placed hst).nested
      rcases mem_append.mp ht with ht | ht
      · obtain ⟨l, hl, rfl⟩ := mem_map.mp ht
        exact (hnest.clause he (by simpa using hl)).1.lt
      · exact (hnest.cleanup he (by simpa using ht)).1.lt

/-- Where control can get from a state, no more is bound than the names of the state, what the
state binds and the faults that are caught. -/
theorem subset_of_next {s t : Nat} (hst : C.table.states[s]? = some st)
    (hf : Furnished C.table P B s st) (ht : t ∈ Reduce.next C.table.states C.table.handlers s)
    {x : String} (hx : x ∈ B t) : x ∈ B s ∨ x ∈ Stmt.bindsIn st.body ∨ x ∈ C.table.caught := by
  simp only [Reduce.next, hst] at ht
  rcases mem_append.mp ht with ht | ht
  · rcases mem_append.mp (hf.next t ht hx) with hx | hx
    · exact .inl hx
    · exact .inr (.inl hx)
  · obtain ⟨g, hg, ht⟩ := mem_flatMap.mp ht
    obtain ⟨hclause, hcleanup⟩ := hf.faults g hg
    rcases mem_append.mp ht with ht | ht
    · obtain ⟨l, hl, rfl⟩ := mem_map.mp ht
      have hl : g.clause = some l := by simpa using hl
      rcases mem_append.mp (hclause l hl hx) with hx | hx
      · obtain ⟨inner, outer, he⟩ := append_of_mem hg
        have hnest := (C.placed hst).nested
        exact .inr (.inr ((hnest.clause he hl).2.2.2 x (by simpa using hx)))
      · exact .inl hx
    · exact .inl (hcleanup t (by simpa using ht) hx)

/-- A name bound on every way to a live state has been bound around the body, by a clause, or in
another live state. -/
theorem origin (hB : B Chain.entry = ys)
    (hf : ∀ (s : Nat) st, C.table.states[s]? = some st → Furnished C.table P B s st) {s : Nat}
    (hs : C.live s) {x : String} (hx : x ∈ B s) :
    x ∈ ys ∨ x ∈ C.table.caught ∨ ∃ (u : Nat) (st : State), u ≠ s ∧ C.live u ∧
      C.table.states[u]? = some st ∧ x ∈ Stmt.bindsIn st.body := by
  obtain ⟨turn, hturn⟩ := C.shrinks.order
  have hmain : ∀ (n : Nat) (s : Nat), turn s = n → C.live s → x ∈ B s →
      x ∈ ys ∨ x ∈ C.table.caught ∨ ∃ (u : Nat) (st : State), turn u < turn s ∧ C.live u ∧
        C.table.states[u]? = some st ∧ x ∈ bindsIn st.body := by
    intro n
    induction n using Nat.strongRecOn with
    | _ n ih =>
      rintro s rfl hs hx
      by_cases he : s = Chain.entry
      · subst he
        exact .inl (hB ▸ hx)
      · obtain ⟨u, hu, hnext, hlt⟩ := hturn s hs he
        cases hst : C.table.states[u]? with
        | none => simp [Reduce.next, hst] at hnext
        | some st =>
          rcases C.subset_of_next hst (hf u st hst) hnext hx with hx | hx | hx
          · rcases ih _ hlt u rfl hu hx with h | h | ⟨v, st', hv, h⟩
            · exact .inl h
            · exact .inr (.inl h)
            · exact .inr (.inr ⟨v, st', Nat.lt_trans hv hlt, h⟩)
          · exact .inr (.inr ⟨u, st, hlt, hu, hst, hx⟩)
          · exact .inr (.inl hx)
  rcases hmain _ s rfl hs hx with h | h | ⟨u, st, hlt, h⟩
  · exact .inl h
  · exact .inr (.inl h)
  · exact .inr (.inr ⟨u, st, fun he => absurd hlt (by rw [he]; exact Nat.lt_irrefl _), h⟩)

/-- Names can be assigned to the states that a chain is made of: enough for each of them, and none
of them without a binding elsewhere. -/
theorem furnish (hr : Reached P ys (Stmt.looseIn m.body)) :
    ∃ B : Nat → List String, B Chain.entry = ys ∧
      ∀ (k : Nat) st, C.small.1[k]? = some st → Furnished C.rest P B k st ∧
        ∀ x ∈ B k, x ∈ ys ∨ x ∈ C.table.caught ∨ ∃ (j : Nat) (st' : State), j ≠ k ∧
          C.small.1[j]? = some st' ∧ x ∈ Stmt.bindsIn st'.body := by
  obtain ⟨B, hB, hf⟩ := C.body.furnish C.numbered hr
  classical
  let B' : Nat → List String := fun k =>
    if h : ∃ s, C.live s ∧ C.number s = k then B h.choose else []
  have hB' : ∀ s, C.live s → B' (C.number s) = B s := by
    intro s hs
    have h : ∃ u, C.live u ∧ C.number u = C.number s := ⟨s, hs, rfl⟩
    have he := C.shrinks.inj _ s h.choose_spec.1 hs h.choose_spec.2
    simp only [B', dif_pos h, he]
  have hentry : B' Chain.entry = ys := by
    have h := hB' _ C.shrinks.entry
    rwa [C.shrinks.entry_eq, hB] at h
  refine ⟨B', hentry, fun k st hst => ?_⟩
  obtain ⟨s, old, hs, hold, rfl, rfl⟩ := C.shrinks.onto k st hst
  refine ⟨?_, fun x hx => ?_⟩
  · obtain ⟨hbody, hexit, hnext, hfaults⟩ := hf s old hold
    have hlive : ∀ t, t ∈ Reduce.next C.table.states C.table.handlers s → B' (C.number t) = B t :=
      fun t ht => hB' t (C.live_next hs ht)
    simp only [Reduce.next, hold, mem_append, mem_flatMap] at hlive
    refine ⟨?_, ?_, ?_, ?_⟩
    · rw [hB' s hs]
      exact hbody
    · rw [hB' s hs, Reduce.renumberState, Terminator.expr?_mapStates]
      exact hexit
    · rw [hB' s hs, Reduce.renumberState, Terminator.successors_mapStates]
      intro t ht
      obtain ⟨u, hu, rfl⟩ := mem_map.mp ht
      rw [hlive u (.inl hu)]
      exact hnext u hu
    · rw [hB' s hs]
      have hcov := C.shrinks.covering s old hs hold
      intro g' hg'
      rw [rest, ← Reduce.covering, hcov] at hg'
      obtain ⟨g, hg, rfl⟩ := mem_map.mp hg'
      obtain ⟨hclause, hcleanup⟩ := hfaults g hg
      refine ⟨fun l' hl' => ?_, fun f' hf' => ?_⟩
      · obtain ⟨l, hl, rfl⟩ := Option.map_eq_some_iff.mp hl'
        rw [hlive l.entry (.inr ⟨g, hg, .inl (mem_map.mpr ⟨l, by simpa using hl, rfl⟩)⟩)]
        exact hclause l hl
      · obtain ⟨f, hf, rfl⟩ := Option.map_eq_some_iff.mp hf'
        rw [hlive f (.inr ⟨g, hg, .inr (by simpa using hf)⟩)]
        exact hcleanup f hf
  · rw [hB' s hs] at hx
    rcases C.origin hB hf hs hx with h | h | ⟨u, st', hne, hu, hst', hx⟩
    · exact .inl h
    · exact .inr (.inl h)
    · refine .inr (.inr ⟨C.number u, _, fun he => hne (C.shrinks.inj u s hu hs he),
        C.shrinks.state u st' hu hst', hx⟩)

end

end Compiled

end Resumable

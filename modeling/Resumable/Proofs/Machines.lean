import Resumable.Proofs.Compiled
import Resumable.Proofs.Evaluation

namespace Resumable

open List Stmt

variable {ss : Block} {d : Departure} {e : Expr} {f : Fault} {g : Handler} {halt : Halt}
  {move : Move} {o : Option Outcome} {t : StateId}

theorem Stmt.runIn_of_forall {lam : Bool} {n : Nat} {ret loop : Bool}
    (h : ∀ s ∈ ss, s.runs lam n ret loop = true) : Stmt.runIn lam n ret loop ss = true := by
  induction ss with
  | nil => rfl
  | cons s ss ih =>
    rw [forall_mem_cons] at h
    rw [runIn, h.1, ih h.2]
    rfl

theorem Stmt.operand?_of_receives {s : Stmt} (h : s.receives = true) :
    ∃ e, s.operand? = some e ∧ e.isResume = true := by
  cases s with
  | bind | assign | store | eval | throw => exact ⟨_, rfl, h⟩
  | _ => cases h

/-- The code of a state meets the standard, where the slots `js` have been set and there are `size`
slots. -/
structure State.Fit (S : Standard) (size : Nat) (js : List Slot) (st : State) : Prop where
  runs : S.strict = true → st.Runs true size
  names : S.definite = true → Reached Called [] (Stmt.looseIn st.body)
  slots : S.definite = true → Stmt.readsIn st.body ⊆ js
  exit : S.definite = true → ∀ e ∈ st.exit.expr?,
    Reached Called (Stmt.bindsIn st.body) e.loose ∧ e.reads ⊆ js ++ Stmt.setsIn st.body

/-- The values that a departure carries can be used. -/
def Departure.Proper {σ κ : Type} (S : Standard) (w : World σ κ) : Departure → Prop
  | .yielded v _ | .ret (some v) _ => v.Proper S w
  | .awaiting f _ => f < w.futures.size
  | .goto _ | .ret none _ | .enter .. | .endCleanup | .complete => True

theorem Departure.Proper.later {σ κ : Type} {S : Standard} {w w' : World σ κ} (hd : d.Proper S w)
    (h : w.Later w') : d.Proper S w' := by
  cases d with
  | yielded v => exact Value.Proper.later hd h
  | awaiting f => exact Nat.lt_of_lt_of_le hd h.futures
  | ret v =>
    cases v with
    | none => trivial
    | some v => exact Value.Proper.later hd h
  | _ => trivial

namespace Eval

open Activation (TurnsInto)

variable {σ κ : Type} {S : Standard} {C : Custody σ κ} {A : Accounting S C} {host : Host σ κ}
  {home : StorageId} {size n : Nat} {js : List Slot} {st : State} {a b : Activation σ κ}

theorem does_resume (ha : a.Proper A home size) (he : e.isResume = true)
    (hr : a.resumption.isSome = true) :
    Does (.stop A home size) (Usable S) a (evalExpr host home n e a) := by
  cases e with
  | resume m =>
    cases n with
    | zero =>
      rw [evalExpr]
      exact A.clean ha.world.balanced
    | succ n =>
      obtain ⟨o, ho⟩ := Option.isSome_iff_exists.mp hr
      rw [evalExpr]
      exact does_receive ha ho
  | _ => cases he

section

variable [host.Safe A] (ha : a.Proper A home size) (hj : ∀ k ∈ js, a.world.Written home k)
  (hf : st.Fit S size js)
  (hr : S.strict = true → st.receives = true → a.resumption.isSome = true)
include ha hj hf hr

theorem does_first {s : Stmt} (hb : st.body = s :: ss) :
    Does (.exit A home size false false) (fun b _ => Done home s b) a
      (execStmt host home n s a) := by
  have hhas : a.Has home [] js := ⟨forall_mem_nil _, hj⟩
  have hnames : S.definite = true → Reached Called [] s.loose :=
    fun hd => (Reached.cons.mp (hb ▸ hf.names hd)).1
  by_cases hrec : S.strict = true ∧ s.receives = true
  · obtain ⟨hs, hrec⟩ := hrec
    obtain ⟨e, he, hres⟩ := operand?_of_receives hrec
    have hsome := hr hs (by rw [State.receives, hb]; exact hrec)
    have hstores : s.storesIn size = true := by
      rcases (hf.runs hs).first s (by rw [hb]; rfl) with hruns | hrun
      · rw [receives_of_runs hruns] at hrec
        cases hrec
      · exact hrun.2
    have htarget : S.definite = true → ∀ x ∈ s.target?, x ∈ ([] : List String) := by
      intro hd x hx
      cases s with
      | assign m y e =>
        cases hx
        exact (hnames hd ⟨x, .written⟩ (by simp [loose])).resolve_left (by rintro ⟨⟩)
      | _ => cases hx
    cases n with
    | zero =>
      rw [execStmt]
      exact A.clean ha.world.balanced
    | succ n => exact does_simple he hhas (fun _ => hstores) htarget (does_resume ha hres hsome)
  · refine (safely host A n).stmt hhas (fit s ⟨fun hs => ?_, hnames, fun hd k hk => ?_⟩) a ha
      (.refl a)
    · rcases (hf.runs hs).first s (by rw [hb]; rfl) with hruns | hrun
      · exact hruns
      · exact absurd ⟨hs, hrun.1⟩ hrec
    · exact hf.slots hd (hb ▸ mem_readsIn_cons.mpr (.inl hk))

theorem does_block : Does (.exit A home size false false)
    (fun b _ => AllDone home st.body b ∧ (st.body = [] → b = a)) a
    (execBlock host home n st.body a) := by
  cases n with
  | zero =>
    rw [execBlock]
    exact A.clean ha.world.balanced
  | succ n =>
    cases hb : st.body with
    | nil =>
      rw [execBlock]
      exact ⟨.refl ha, ⟨forall_mem_nil _, forall_mem_nil _⟩, fun _ => rfl⟩
    | cons s ss =>
      have hmet : S.Met [] js (true && runIn true size false false ss)
          (looseIn (s :: ss)) (readsIn (s :: ss)) := by
        refine ⟨fun hs => ?_, fun hd => hb ▸ hf.names hd, fun hd => hb ▸ hf.slots hd⟩
        rw [Bool.true_and]
        refine runIn_of_forall fun x hx => (hf.runs hs).later x ?_
        rw [hb]
        exact hx
      rw [execBlock]
      refine (does_first ha hj hf hr hb).bind fun b hab _ hd => ?_
      have hhas : a.Has home [] js := ⟨forall_mem_nil _, hj⟩
      have hrest := (safely host A n).block (hd.has hhas hab.upto) (fitIn ss hmet.cons.2)
      refine (hrest.since.weaken fun c _ hc => ⟨⟨?_, ?_⟩, by rintro ⟨⟩⟩) b hab.proper (.refl b)
      · exact (hc.1.under.shows hd.shows).append hc.2.shows
      · exact forall_mem_append.mpr
          ⟨fun k hk => (hd.written k hk).later hc.1.later, hc.2.written⟩

theorem does_execState : Does (.stop A home size)
    (fun b _ => AllDone home st.body b ∧ (st.body = [] → b = a)) a
    (execState host home n st.body a) := by
  have hx : Does _ _ a (execBlock host home n st.body a) := does_block ha hj hf hr
  simp only [execState]
  cases hxa : execBlock host home n st.body a with
  | ok v b =>
    rw [hxa] at hx
    exact hx
  | error e b =>
    rw [hxa] at hx
    cases e with
    | stop s => exact hx
    | brk | cont => exact .after hx.2 (does_broken hx.2.proper (fun hs => by cases hx.1 hs) _)
    | ret v =>
      exact .after hx.2.1 (does_broken hx.2.1.proper (fun hs => by cases hx.1 hs) _)

theorem does_exit (he : e ∈ st.exit.expr?) (hab : TurnsInto A home size a b)
    (hd : AllDone home st.body b) (hsame : st.body = [] → b = a) :
    Does (.stop A home size) (Usable S) b (evalExpr host home n e b) := by
  by_cases hrec : S.strict = true ∧ e.isResume = true
  · obtain ⟨hs, hres⟩ := hrec
    have hnil : st.body = [] := by
      rcases (hf.runs hs).exit e he with hruns | hrun
      · rw [Expr.isResume_of_runs hruns] at hres
        cases hres
      · exact hrun.1
    rw [hsame hnil]
    refine does_resume ha hres (hr hs ?_)
    rw [State.receives, hnil]
    have he : st.exit.expr? = some e := he
    simp only [he, Option.any_some, hres]
  · have hhas : b.Has home (bindsIn st.body) (js ++ setsIn st.body) :=
      ⟨hd.shows, forall_mem_append.mpr
        ⟨fun k hk => (hj k hk).later hab.later, hd.written⟩⟩
    refine (safely host A n).expr hhas (Expr.fit e ⟨fun hs => ?_, fun hd => (hf.exit hd e he).1,
      fun hd => (hf.exit hd e he).2⟩) b hab.proper (.refl b)
    rcases (hf.runs hs).exit e he with hruns | hrun
    · exact hruns
    · exact absurd ⟨hs, hrun.2⟩ hrec

theorem does_leave (hab : TurnsInto A home size a b) (hd : AllDone home st.body b)
    (hsame : st.body = [] → b = a) (s : StateId) :
    Does (.stop A home size) (fun c d => d.Proper S c.world) b
      (Machine.leave host home n s st.exit b) := by
  have hexpr : ∀ e ∈ st.exit.expr?, ∀ k, Does (.stop A home size) (Usable S) b
      (evalExpr host home k e b) :=
    fun e he k => does_exit ha hj hf hr he hab hd hsame
  cases hx : st.exit with
  | goto t | enter f t | endCleanup | complete => exact ⟨.refl hab.proper, trivial⟩
  | branch e x y =>
    rw [hx] at hexpr
    have htest : Does (.stop A home size) Any b (evalTest host home n e b) := by
      cases n with
      | zero =>
        rw [evalTest]
        exact A.clean hab.proper.world.balanced
      | succ n =>
        rw [evalTest]
        refine (hexpr e rfl n).bind fun c hbc v _ => ?_
        cases ht : v.test with
        | ok t => exact ⟨.refl hbc.proper, trivial⟩
        | error f => exact ⟨.refl hbc.proper, Value.proper_test c.world ht⟩
    exact htest.bind fun c hbc _ _ => ⟨.refl hbc.proper, trivial⟩
  | suspend p r =>
    rw [hx] at hexpr
    cases p with
    | yield e => exact (hexpr e rfl n).bind fun c hbc v hv => ⟨.refl hbc.proper, hv⟩
    | await e =>
      refine (hexpr e rfl n).bind fun c hbc v hv => ?_
      cases v with
      | future f => exact ⟨.refl hbc.proper, hv⟩
      | _ =>
        refine ⟨.refl hbc.proper, fun u hu => ?_⟩
        cases hu
        exact hv
  | ret v t =>
    cases v with
    | none => exact ⟨.refl hab.proper, trivial⟩
    | some e =>
      rw [hx] at hexpr
      exact (hexpr e rfl n).bind fun c hbc v hv => ⟨.refl hbc.proper, hv⟩
  | unreachable =>
    have hs : S.strict = false := by
      cases hs : S.strict with
      | false => rfl
      | true => exact absurd hx (hf.runs hs).reached
    exact safe_broken hs _ b hab.proper (.refl b)

theorem does_execute : Does (.stop A home size)
    (fun b d => d.Proper S b.world ∧ ∀ k ∈ Stmt.setsIn st.body, b.world.Written home k) a
    (Machine.execute host home n st a) := by
  refine (does_execState ha hj hf hr).bind fun b hab _ hb => ?_
  have hl : Does _ _ b (Machine.leave host home n st.id st.exit b) :=
    does_leave ha hj hf hr hab hb.1 hb.2 st.id
  cases hx : Machine.leave host home n st.id st.exit b with
  | ok d c =>
    rw [hx] at hl
    exact ⟨hl.1, hl.2, fun k hk => (hb.1.written k hk).later hl.1.later⟩
  | error e c =>
    rw [hx] at hl
    exact hl

end

end Eval

/-! Steps. -/

section

variable {σ κ : Type} (S : Standard) (w : World σ κ)

/-- The second machine is the first one later on. -/
def Machine.Same (m m' : Machine) : Prop :=
  m'.home = m.home ∧ m'.chain = m.chain

/-- What a step of `m` may come to. -/
def Move.Proper (m : Machine) : Move → Prop
  | .next m' => m.Same m' ∧ m'.Ready S w
  | .yielded v m' =>
    m.Same m' ∧ m'.Ready S w ∧ v.Proper S w ∧ (S.strict = true → m.chain.kind = .iterator)
  | .awaiting f m' => m.Same m' ∧ m'.Poised S w ∧ f < w.futures.size ∧
    (S.strict = true → m.chain.kind = .async)
  | .completed v m' => m.Same m' ∧ v.Proper S w
  | .fault f m' => m.Same m' ∧ m'.Proper S w ∧ f.Proper S w
  | .timeout => False

/-- What a run of `m` may come to. -/
def Halt.Proper (m : Machine) : Halt → Prop
  | .yielded v m' =>
    m.Same m' ∧ m'.Ready S w ∧ v.Proper S w ∧ (S.strict = true → m.chain.kind = .iterator)
  | .awaiting f m' => m.Same m' ∧ m'.Poised S w ∧ f < w.futures.size ∧
    (S.strict = true → m.chain.kind = .async)
  | .completed v m' => m.Same m' ∧ v.Proper S w
  | .fault f m' => m.Same m' ∧ f.Proper S w
  | .timeout => False

end

theorem Halt.Proper.later {σ κ : Type} {S : Standard} {w w' : World σ κ} {m : Machine}
    (hh : halt.Proper S w m) (h : w.Later w') : halt.Proper S w' m := by
  cases halt with
  | yielded v m' =>
    obtain ⟨hsame, hm, hv, hkind⟩ := hh
    exact ⟨hsame, hm.later h, hv.later h, hkind⟩
  | awaiting f m' =>
    obtain ⟨hsame, hm, hf, hkind⟩ := hh
    exact ⟨hsame, hm.later h, Nat.lt_of_lt_of_le hf h.futures, hkind⟩
  | completed v m' => exact ⟨hh.1, hh.2.later h⟩
  | fault f m' => exact ⟨hh.1, hh.2.later h⟩
  | timeout => exact hh

namespace Machine

open Regions

variable {σ κ : Type} {S : Standard} {C : Custody σ κ} {A : Accounting S C} {host : Host σ κ}
  {n : Nat} {m m' m'' : Machine} {w : World σ κ} {st : State} {s : StateId}

theorem Same.trans (h : m.Same m') (h' : m'.Same m'') : m.Same m'' :=
  ⟨h'.1.trans h.1, h'.2.trans h.2⟩

theorem strict_false (h : S.strict = true → False) : S.strict = false := by
  cases hs : S.strict with
  | false => rfl
  | true => exact (h hs).elim

theorem Proper.fit (hm : m.Proper S w) (hst : m.chain.states[s]? = some st)
    (hs : ∀ W, m.Covered w W → ∀ k ∈ W s, w.Written m.home k) :
    ∃ js, (∀ k ∈ js, w.Written m.home k) ∧ st.Fit S m.chain.captures.size js := by
  have hruns : S.strict = true → st.Runs true m.chain.captures.size :=
    fun hstrict => ((hm.secure hstrict).chain.settled s st hst).runs
  cases hd : S.definite with
  | false =>
    have hno : ∀ {p : Prop}, S.definite = true → p := fun h => nomatch hd.symm.trans h
    exact ⟨[], nofun, hruns, fun h => hno h, fun h => hno h, fun h => hno h⟩
  | true =>
    obtain ⟨W, hW⟩ := hm.covered hd
    exact ⟨W s, hs W hW, hruns, fun _ => hW.supplied.names s st hst,
      fun _ => hW.supplied.slots s st hst, fun _ => hW.supplied.exit s st hst⟩

theorem Proper.start (hm : m.Proper S w) (hw : w.Proper A [.storage m.home])
    (ho : ∀ x ∈ o, Outcome.Proper S w x) (vs : List Value) :
    Activation.Proper A m.home m.chain.captures.size
      { resumption := o, world := w.grasp [.values vs, .machine m] } := by
  have hl := World.later_grasp w [.values vs, .machine m]
  refine ⟨World.Proper.grasp hw, nofun, Frame.all_empty, fun x hx => (ho x hx).later hl,
    hm.fits.later hl, ?_⟩
  exact mem_cons_self

section

variable (hm : m.Poised S w) (hst : m.chain.states[m.current]? = some st)
  (hset : ∀ k ∈ Stmt.setsIn st.body, w.Written m.home k)
include hm hst hset

theorem Poised.go {pending : List (StateId × Aftermath)} {result : Value}
    (ht : t ∈ st.exit.successors) (hr : result.Proper S w)
    (hp : ∀ p ∈ pending, p ∈ m.pending ∨ ∃ x ∈ st.exit.successors, p.2 = .goOn x ∧
      ∀ e, st.exit ≠ .suspend (.await e) x)
    (hs : S.strict = true → Steady m.chain { m with pending, result, current := t }) :
    Poised S w { m with pending, result, current := t } ∧
      ((∀ e, st.exit ≠ .suspend (.await e) t) →
        Ready S w { m with pending, result, current := t }) := by
  have hquiet : S.strict = true → ∀ x ∈ st.exit.successors,
      (∀ e, st.exit ≠ .suspend (.await e) x) → Quiet m.chain.states x := by
    intro hstrict x hx hne
    have hset := (hm.proper.secure hstrict).chain.settled m.current st hst
    exact (hset.next x hx).resolve_right fun ⟨e, he⟩ => hne e he
  have hpoised : Poised S w { m with pending, result, current := t } := by
    refine ⟨⟨hm.proper.fits, hr, fun p hp' f hf => ?_, hm.proper.resumption, fun hstrict => ?_,
      fun hd => ?_⟩, hs⟩
    · rcases hp p hp' with hold | ⟨x, -, hx, -⟩
      · exact hm.proper.faults p hold f hf
      · cases hx.symm.trans hf
    · refine ⟨(hm.proper.secure hstrict).chain, (hs hstrict).state, fun p hp' x hx => ?_⟩
      rcases hp p hp' with hold | ⟨y, hy, he, hne⟩
      · exact (hm.proper.secure hstrict).quiet p hold x hx
      · cases he.symm.trans hx
        exact hquiet hstrict x hy hne
    · obtain ⟨W, hW⟩ := hm.proper.covered hd
      have hnext : ∀ x ∈ st.exit.successors, ∀ k ∈ W x, w.Written m.home k := by
        intro x hx k hk
        rcases mem_append.mp (hW.supplied.next m.current st hst x hx hk) with hk | hk
        · exact hW.current k hk
        · exact hset k hk
      refine ⟨W, hW.supplied, hnext t ht, fun p hp' x hx => ?_⟩
      rcases hp p hp' with hold | ⟨y, hy, he, -⟩
      · exact hW.next p hold x hx
      · cases he.symm.trans hx
        exact hnext x hy
  exact ⟨hpoised, fun hne => ⟨hpoised, fun hstrict => .inl (hquiet hstrict t ht hne)⟩⟩

omit hset in
theorem Poised.goOn (hx : st.exit = .endCleanup) (ha : m.pending.lookup st.id = some (.goOn t)) :
    Ready S w { m with pending := m.pending.filter (·.1 != st.id), current := t } := by
  have hmem := mem_of_lookup ha
  have hsteady : S.strict = true →
      Steady m.chain { m with pending := m.pending.filter (·.1 != st.id), current := t } := by
    intro hs
    obtain ⟨a, hlook, hlink⟩ := (hm.steady hs).pending ⟨st, hst, hx⟩
    rw [← (hm.proper.secure hs).chain.number _ _ hst, ha] at hlook
    cases hlook
    exact Link.steady (hlink t rfl) rfl
  refine ⟨⟨⟨hm.proper.fits, hm.proper.result, fun p hp f hf => ?_, hm.proper.resumption,
    fun hs => ?_, fun hd => ?_⟩, hsteady⟩, fun hs => .inl ?_⟩
  · exact hm.proper.faults p (mem_of_mem_filter hp) f hf
  · exact ⟨(hm.proper.secure hs).chain, (hsteady hs).state,
      fun p hp => (hm.proper.secure hs).quiet p (mem_of_mem_filter hp)⟩
  · obtain ⟨W, hW⟩ := hm.proper.covered hd
    exact ⟨W, hW.supplied, hW.next _ hmem t rfl, fun p hp => hW.next p (mem_of_mem_filter hp)⟩
  · exact (hm.proper.secure hs).quiet _ hmem t rfl

theorem Poised.depart (hd : Departs st.exit d) (hp : d.Proper S w) :
    match m.depart? st.id d with
    | some move => move.Proper S w m
    | none => S.strict = false := by
  have hfine : S.strict = true → Fine m.chain.states m.chain.handlers
      (m.chain.enclosingCleanups m.current) st.exit := fun hs =>
    ((hm.proper.secure hs).chain.disciplined.state m.current st hst).exit
  have hkept : ∀ p ∈ m.pending, p ∈ m.pending ∨ ∃ x ∈ st.exit.successors, p.2 = .goOn x ∧
      ∀ e, st.exit ≠ .suspend (.await e) x := fun p hp => .inl hp
  have hpause : ∀ z r, st.exit = .suspend z r → S.strict = true → m.chain.kind = z.kind :=
    fun z r hx hs => ((hm.proper.secure hs).chain.pauses m.current st hst z r hx).symm
  cases hx : st.exit with
  | goto t =>
    rw [hx] at hd hfine
    cases hd
    exact ⟨⟨rfl, rfl⟩, (hm.go hst hset (by simp [hx, Terminator.successors]) hm.proper.result hkept
      fun hs => Link.steady (hfine hs) rfl).2 (by simp [hx])⟩
  | branch e x y =>
    rw [hx] at hd hfine
    cases hd with
    | yes =>
      exact ⟨⟨rfl, rfl⟩, (hm.go hst hset (by simp [hx, Terminator.successors]) hm.proper.result
        hkept fun hs => Link.steady (hfine hs).1 rfl).2 (by simp [hx])⟩
    | no =>
      exact ⟨⟨rfl, rfl⟩, (hm.go hst hset (by simp [hx, Terminator.successors]) hm.proper.result
        hkept fun hs => Link.steady (hfine hs).2 rfl).2 (by simp [hx])⟩
  | suspend p r =>
    rw [hx] at hd hfine
    have hgo := hm.go hst hset (t := r) (by simp [hx, Terminator.successors]) hm.proper.result hkept
      fun hs => Plain.steady (hfine hs).1 rfl
    cases hd with
    | yielded e v => exact ⟨⟨rfl, rfl⟩, hgo.2 (by simp [hx]), hp, hpause _ r hx⟩
    | awaiting e f => exact ⟨⟨rfl, rfl⟩, hgo.1, hp, hpause _ r hx⟩
  | ret v t =>
    rw [hx] at hd hfine
    have hresult : ∀ u : Option Value, d = .ret u t → (u.getD m.result).Proper S w := by
      intro u hu
      subst hu
      cases u with
      | none => exact hm.proper.result
      | some u => exact hp
    cases t with
    | none => cases hd <;> exact ⟨⟨rfl, rfl⟩, hresult _ rfl⟩
    | some t =>
      cases hd <;>
        exact ⟨⟨rfl, rfl⟩, (hm.go hst hset (by simp [hx, Terminator.successors]) (hresult _ rfl)
          hkept fun hs => Link.steady (hfine hs) rfl).2 (by simp [hx])⟩
  | enter f t =>
    rw [hx] at hd hfine
    cases hd
    refine ⟨⟨rfl, rfl⟩, (hm.go hst hset (by simp [hx, Terminator.successors]) hm.proper.result
      (fun p hp => ?_) fun hs => ?_).2 (by simp [hx])⟩
    · rcases mem_cons.mp hp with rfl | hp
      · exact .inr ⟨t, by simp [hx, Terminator.successors], rfl, by simp [hx]⟩
      · exact .inl (mem_of_mem_filter hp)
    · obtain ⟨hc, he, hl⟩ := hfine hs
      refine ⟨rfl, ⟨_, getElem?_eq_getElem hc.lt⟩, fun _ => ⟨.goOn t, by simp, ?_⟩⟩
      rintro x ⟨⟩
      have he : m.chain.enclosingCleanups f = m.chain.enclosingCleanups m.current := he
      exact he.symm ▸ hl
  | endCleanup =>
    rw [hx] at hd
    cases hd
    simp only [depart?]
    cases ha : m.pending.lookup st.id with
    | none =>
      refine strict_false fun hs => ?_
      obtain ⟨a, hlook, -⟩ := (hm.steady hs).pending ⟨st, hst, hx⟩
      rw [← (hm.proper.secure hs).chain.number _ _ hst, ha] at hlook
      cases hlook
    | some a =>
      cases a with
      | goOn t => exact ⟨⟨rfl, rfl⟩, hm.goOn hst hx ha⟩
      | rethrow f =>
        have hmem := mem_of_lookup ha
        refine ⟨⟨rfl, rfl⟩, ⟨hm.proper.fits, hm.proper.result, fun p hp => ?_, hm.proper.resumption,
          fun hs => ?_, fun hdef => ?_⟩, hm.proper.faults _ hmem f rfl⟩
        · exact hm.proper.faults p (mem_of_mem_filter hp)
        · exact ⟨(hm.proper.secure hs).chain, (hm.proper.secure hs).state,
            fun p hp => (hm.proper.secure hs).quiet p (mem_of_mem_filter hp)⟩
        · obtain ⟨W, hW⟩ := hm.proper.covered hdef
          exact ⟨W, hW.supplied, hW.current, fun p hp => hW.next p (mem_of_mem_filter hp)⟩
  | complete =>
    rw [hx] at hd
    cases hd
    exact ⟨⟨rfl, rfl⟩, hm.proper.result⟩
  | unreachable =>
    rw [hx] at hd
    cases hd

end

/-- Whether a machine can go on does not depend on what it receives, or on its token. -/
theorem Poised.receiving (hm : m.Poised S w) (ho : ∀ x ∈ o, Outcome.Proper S w x)
    (token : Option TokenId) : Poised S w { m with resumption := o, token } := by
  refine ⟨⟨hm.proper.fits, hm.proper.result, hm.proper.faults, ho, fun hs => ?_, fun hd => ?_⟩,
    fun hs => ?_⟩
  · exact ⟨(hm.proper.secure hs).chain, (hm.proper.secure hs).state, (hm.proper.secure hs).quiet⟩
  · obtain ⟨W, hW⟩ := hm.proper.covered hd
    exact ⟨W, hW.supplied, hW.current, hW.next⟩
  · exact ⟨rfl, (hm.steady hs).state, (hm.steady hs).pending⟩

theorem Poised.idle (hm : m.Poised S w) : m.idle.Poised S w :=
  hm.receiving (o := none) nofun m.token

theorem Poised.resumed (hm : m.Poised S w) {o : Outcome} (ho : Outcome.Proper S w o) :
    Ready S w { m with resumption := some o } :=
  ⟨hm.receiving (fun _ hx => Option.some.inj hx ▸ ho) m.token, fun _ => .inr rfl⟩

theorem Ready.withToken (hm : m.Ready S w) (token : Option TokenId) :
    Ready S w { m with token } :=
  ⟨hm.poised.receiving hm.poised.proper.resumption token, hm.received⟩

theorem proper_of_idle (h : move.Proper S w m.idle) : move.Proper S w m := by
  cases move <;> exact h

/-- What a step of a machine comes to, and the world after it. -/
def Steps (A : Accounting S C) (m : Machine) (w : World σ κ) (r : Move × World σ κ) : Prop :=
  match r.1 with
  | .timeout => A.Clean r.2
  | move => World.Keeps A [.storage m.home] w r.2 ∧ move.Proper S r.2 m

def Runs (A : Accounting S C) (m : Machine) (w : World σ κ) (r : Halt × World σ κ) : Prop :=
  match r.1 with
  | .timeout => A.Clean r.2
  | halt => World.Keeps A [.storage m.home] w r.2 ∧ halt.Proper S r.2 m

theorem Runs.stopped {w' : World σ κ} (h : Runs A m w (halt, w')) :
    halt = .timeout ∧ A.Clean w' ∨
      World.Keeps A [.storage m.home] w w' ∧ halt.Proper S w' m := by
  cases halt with
  | timeout => exact .inl ⟨rfl, h⟩
  | _ => exact .inr h

theorem Steps.of_proper {w' : World σ κ} (hw : World.Keeps A [.storage m.home] w w')
    (hm : move.Proper S w' m) : Steps A m w (move, w') := by
  cases move with
  | timeout => exact hm.elim
  | _ => exact ⟨hw, hm⟩

theorem step_proper [host.Safe A] (hm : m.Ready S w) (hw : w.Proper A [.storage m.home]) :
    Steps A m w (m.step host n w) := by
  cases hst : m.chain.states[m.current]? with
  | none =>
    have hs : S.strict = false := strict_false fun hs => by
      obtain ⟨st, hst'⟩ := (hm.poised.proper.secure hs).state
      cases hst.symm.trans hst'
    have hk := hw.defect fun h => by cases hs.symm.trans h
    rw [step, hst]
    exact ⟨hk, ⟨rfl, rfl⟩, hm.poised.proper.later hk.later, by rintro _ ⟨⟩⟩
  | some st =>
    rw [step_eq hst]
    have hidle := hm.poised.idle
    split
    · exact ⟨.refl hw, ⟨rfl, rfl⟩, hidle.proper, by rintro _ ⟨⟩⟩
    obtain ⟨js, hjs, hfit⟩ := hm.poised.proper.fit hst fun W hW => hW.current
    have hl := World.later_grasp w [.machine m.idle]
    have hstart : Activation.Proper A m.home m.chain.captures.size
        { resumption := m.resumption, world := w.grasp [.machine m.idle] } :=
      ⟨World.Proper.grasp hw, cons_ne_nil _ _, Frame.all_empty,
        fun x hx => (hm.poised.proper.resumption x hx).later hl,
        hm.poised.proper.fits.later hl, mem_cons_self⟩
    have hr : S.strict = true → st.receives = true → m.resumption.isSome = true := by
      intro hs hrec
      refine (hm.received hs).resolve_left ?_
      rintro ⟨st', hst', hq⟩
      cases hst.symm.trans hst'
      rw [hrec] at hq
      cases hq
    have hx : Eval.Does _ _ _ (execute host m.home n st _) :=
      Eval.does_execute hstart (fun k hk => (hjs k hk).later hl) hfit hr
    -- what the state leaves behind, once the machine is no longer in hand
    have hleft : ∀ {a : Activation σ κ}, Activation.TurnsInto A m.home m.chain.captures.size
        { resumption := m.resumption, world := w.grasp [.machine m.idle] } a →
        World.Keeps A [.storage m.home] w (a.world.letGo w.hands) :=
      fun h => ⟨h.proper.world.letGo h.hands, h.later.holding, rfl⟩
    cases hrun : execute host m.home n st
        { resumption := m.resumption, world := w.grasp [.machine m.idle] } with
    | ok d a =>
      rw [hrun] at hx
      obtain ⟨ht, hd, hset⟩ := hx
      have hk := hleft ht
      have hlast := World.later_letGo a.world w.hands
      have hdep : Departs st.exit d := by
        obtain ⟨_, a₁, -, hleave⟩ := bind_ok hrun
        exact departs_of_leave hleave
      have hmove := (hidle.later hk.later).depart hst (fun k hk => (hset k hk).later hlast) hdep
        (hd.later hlast)
      simp only []
      cases hdp : m.idle.depart? st.id d with
      | some move =>
        rw [hdp] at hmove
        exact .of_proper hk (proper_of_idle hmove)
      | none =>
        rw [hdp] at hmove
        have hk' := hk.trans (hk.proper.defect fun h => by cases hmove.symm.trans h)
        exact ⟨hk', ⟨rfl, rfl⟩, hidle.proper.later hk'.later, by rintro _ ⟨⟩⟩
    | error e a =>
      rw [hrun] at hx
      cases e with
      | fault f =>
        have hk := hleft hx.1
        exact ⟨hk, ⟨rfl, rfl⟩, hidle.proper.later hk.later,
          hx.2.later (World.later_letGo a.world w.hands)⟩
      | timeout => exact A.clean_of_eq hx rfl rfl rfl rfl

/-- A clause takes a fault, whose value is in its slot if there is one. -/
theorem Proper.land (hm : m.Proper S w) (hg : g ∈ m.chain.covering m.current) {c : Landing}
    (hc : g.clause = some c) (hset : ∀ k ∈ c.slot.toList, w.Written m.home k)
    (hs : S.strict = true → Plain m.chain.states c.entry ∧ Quiet m.chain.states c.entry) :
    Ready S w { m with current := c.entry } := by
  have hsteady : S.strict = true → Steady m.chain { m with current := c.entry } :=
    fun h => Plain.steady (hs h).1 rfl
  refine ⟨⟨⟨hm.fits, hm.result, hm.faults, hm.resumption, fun h => ?_, fun hd => ?_⟩, hsteady⟩,
    fun h => .inl (hs h).2⟩
  · exact ⟨(hm.secure h).chain, (hsteady h).state, (hm.secure h).quiet⟩
  · obtain ⟨W, hW⟩ := hm.covered hd
    refine ⟨W, hW.supplied, fun k hk => ?_, hW.next⟩
    rcases mem_append.mp (hW.supplied.clause m.current g hg c hc hk) with hk | hk
    · exact hset k hk
    · exact hW.current k hk

/-- A cleanup runs because of a fault, which goes on after it. -/
theorem Proper.clean (hm : m.Proper S w) (hg : g ∈ m.chain.covering m.current)
    (hc : g.cleanup = some s) (hf : f.Proper S w) (hs : S.strict = true → Cleans m.chain.states s) :
    Ready S w
      { m with pending := (s, .rethrow f) :: m.pending.filter (·.1 != s), current := s } := by
  have hpending : ∀ p ∈ (s, Aftermath.rethrow f) :: m.pending.filter (·.1 != s),
      p ∈ m.pending ∨ p.2 = .rethrow f := by
    intro p hp
    rcases mem_cons.mp hp with rfl | hp
    · exact .inr rfl
    · exact .inl (mem_of_mem_filter hp)
  have hsteady : S.strict = true → Steady m.chain
      { m with pending := (s, .rethrow f) :: m.pending.filter (·.1 != s), current := s } :=
    fun h => ⟨rfl, ⟨_, getElem?_eq_getElem (hs h).lt⟩,
      fun _ => ⟨.rethrow f, by simp, nofun⟩⟩
  refine ⟨⟨⟨hm.fits, hm.result, fun p hp f' hf' => ?_, hm.resumption, fun h => ?_, fun hd => ?_⟩,
    hsteady⟩, fun h => .inl ?_⟩
  · rcases hpending p hp with hold | hnew
    · exact hm.faults p hold f' hf'
    · cases hnew.symm.trans hf'
      exact hf
  · refine ⟨(hm.secure h).chain, (hsteady h).state, fun p hp t ht => ?_⟩
    rcases hpending p hp with hold | hnew
    · exact (hm.secure h).quiet p hold t ht
    · cases hnew.symm.trans ht
  · obtain ⟨W, hW⟩ := hm.covered hd
    refine ⟨W, hW.supplied, fun k hk => hW.current k ?_, fun p hp t ht => ?_⟩
    · exact hW.supplied.cleanup m.current g hg s hc hk
    · rcases hpending p hp with hold | hnew
      · exact hW.next p hold t ht
      · cases hnew.symm.trans ht
  · obtain ⟨st, hst, hend⟩ := hs h
    exact ⟨st, hst, ((hm.secure h).chain.settled s st hst).cleans hend⟩

theorem Secure.caught (hm : m.Secure) {r : Rescue}
    (hr : rescue? (m.chain.covering m.current) = some r) :
    (∀ c, r = .clause c → Plain m.chain.states c.entry ∧ Quiet m.chain.states c.entry) ∧
      ∀ s, r = .cleanup s → Cleans m.chain.states s := by
  obtain ⟨st, hst⟩ := hm.state
  have hcov : m.chain.covering m.current =
      Handler.outward m.chain.handlers m.chain.handlers.length st.handler := by
    rw [Chain.covering, hst, Option.bind_some]
  rw [hcov] at hr
  have hfault := (hm.chain.disciplined.state m.current st hst).fault
  rw [hr] at hfault
  constructor
  · rintro c rfl
    exact ⟨hfault.1, (hm.chain.settled m.current st hst).lands c hr⟩
  · rintro s rfl
    exact hfault.1

/-- A fault that is caught leaves the machine where it may run. -/
theorem handle_proper (hm : m.Proper S w) (hw : w.Proper A [.storage m.home]) (hf : f.Proper S w)
    {m' : Machine} {w' : World σ κ} (h : m.handle f w = some (m', w')) :
    World.Keeps A [.storage m.home] w w' ∧ m.Same m' ∧ m'.Ready S w' := by
  rw [handle] at h
  cases hr : rescue? (m.chain.covering m.current) with
  | none =>
    rw [hr] at h
    cases h
  | some r =>
    rw [hr] at h
    obtain ⟨g, hg, hclause, hcleanup⟩ := mem_of_rescue? hr
    have hcaught := fun hs => (hm.secure hs).caught hr
    cases r with
    | clause c =>
      have hland := fun hs => (hcaught hs).1 c rfl
      cases hslot : c.slot with
      | none =>
        simp only [hslot, Option.some.injEq, Prod.mk.injEq] at h
        obtain ⟨rfl, rfl⟩ := h
        exact ⟨.refl hw, ⟨rfl, rfl⟩,
          hm.land hg (hclause c rfl) (by rw [hslot]; rintro _ ⟨⟩) hland⟩
      | some k =>
        simp only [hslot, Option.some.injEq, Prod.mk.injEq] at h
        obtain ⟨rfl, rfl⟩ := h
        have hk := hw.store m.home k hf.toValue
        refine ⟨hk, ⟨rfl, rfl⟩, (hm.later hk.later).land hg (hclause c rfl) ?_ hland⟩
        rw [hslot]
        intro j hj
        obtain rfl := mem_singleton.mp hj
        exact mem_cons_self
    | cleanup s =>
      simp only [Option.some.injEq, Prod.mk.injEq] at h
      obtain ⟨rfl, rfl⟩ := h
      exact ⟨.refl hw, ⟨rfl, rfl⟩,
        hm.clean hg (hcleanup s rfl) hf fun hs => (hcaught hs).2 s rfl⟩

theorem run_proper [host.Safe A] (hm : m.Ready S w) (hw : w.Proper A [.storage m.home]) :
    Runs A m w (m.run host n w) := by
  induction n generalizing m w with
  | zero => exact A.clean hw.balanced
  | succ n ih =>
    have hstep : Steps A m w (m.step host n w) := step_proper hm hw
    -- a run of what the machine has become is a run of the machine
    have hrest : ∀ {m' w'}, World.Keeps A [.storage m.home] w w' → m.Same m' → m'.Ready S w' →
        Runs A m w (m'.run host n w') := by
      intro m' w' hk hsame hm'
      have hr := ih hm' (by rw [hsame.1]; exact hk.proper)
      rcases hrun : m'.run host n w' with ⟨halt, w''⟩
      rw [hrun] at hr
      cases halt with
      | timeout => exact hr
      | yielded v m'' =>
        obtain ⟨hk', hsame', hready, hv, hkind⟩ := hr
        rw [hsame.1] at hk'
        exact ⟨hk.trans hk', hsame.trans hsame', hready, hv, hsame.2 ▸ hkind⟩
      | awaiting f m'' =>
        obtain ⟨hk', hsame', hpoised, hf, hkind⟩ := hr
        rw [hsame.1] at hk'
        exact ⟨hk.trans hk', hsame.trans hsame', hpoised, hf, hsame.2 ▸ hkind⟩
      | completed v m'' | fault v m'' =>
        obtain ⟨hk', hsame', hv⟩ := hr
        rw [hsame.1] at hk'
        exact ⟨hk.trans hk', hsame.trans hsame', hv⟩
    rw [run]
    rcases hms : m.step host n w with ⟨move, w'⟩
    rw [hms] at hstep
    cases move with
    | next m' => exact hrest hstep.1 hstep.2.1 hstep.2.2
    | yielded v m' | awaiting f m' | completed v m' => exact hstep
    | timeout => exact hstep
    | fault f m' =>
      obtain ⟨hk, hsame, hm', hf⟩ := hstep
      simp only []
      cases hh : m'.handle f w' with
      | none => exact ⟨hk, hsame, hf⟩
      | some r =>
        have hw' : w'.Proper A [.storage m'.home] := by
          rw [hsame.1]
          exact hk.proper
        obtain ⟨hk', hsame', hready⟩ := handle_proper hm' hw' hf hh
        rw [hsame.1] at hk'
        exact hrest (hk.trans hk') (hsame.trans hsame') hready

/-! Leaving a machine for good. -/

theorem mem_enclosingCleanups (h : s ∈ m.chain.enclosingCleanups m.current) :
    ∃ g ∈ m.chain.covering m.current, g.cleanup = some s :=
  mem_filterMap.mp h

/-- A cleanup around the state of a machine can be run. -/
theorem Proper.fit_cleanup (hm : m.Proper S w) (hs : s ∈ m.chain.enclosingCleanups m.current) :
    ∃ js, ∃ st : State, (∀ k ∈ js, w.Written m.home k) ∧ st.Fit S m.chain.captures.size js ∧
      st.body = m.chain.states[s]?.elim [] (·.body) ∧ (S.strict = true → st.receives = false) := by
  have hcleans : S.strict = true → Cleans m.chain.states s := by
    intro hstrict
    obtain ⟨st, hst⟩ := (hm.secure hstrict).state
    exact ((hm.secure hstrict).chain.disciplined.state m.current st hst).cleans s hs
  cases hst : m.chain.states[s]? with
  | none =>
    refine ⟨[], { id := s, body := [], exit := .complete, handler := none }, nofun,
      ⟨fun _ => ⟨nofun, nofun, nofun, nofun⟩, fun _ => nofun, fun _ => nofun, fun _ => nofun⟩, rfl,
      fun _ => rfl⟩
  | some st =>
    obtain ⟨js, hjs, hfit⟩ := hm.fit hst fun W hW k hk => by
      obtain ⟨g, hg, hc⟩ := mem_enclosingCleanups hs
      exact hW.current k (hW.supplied.cleanup m.current g hg s hc hk)
    refine ⟨js, st, hjs, hfit, rfl, fun hstrict => ?_⟩
    obtain ⟨st', hst', hend⟩ := hcleans hstrict
    cases hst.symm.trans hst'
    exact ((hm.secure hstrict).chain.settled s st hst).cleans hend

theorem runCleanups_proper [host.Safe A] {ss : List StateId} {first : Option Fault}
    (hm : m.Proper S w) (hw : w.Proper A [.storage m.home])
    (hss : ss ⊆ m.chain.enclosingCleanups m.current) (hfirst : ∀ f ∈ first, f.Proper S w) :
    World.Does A [.storage m.home] (fun w' r => ∀ f ∈ r, f.Proper S w') w
      (m.runCleanups host n ss first w) := by
  induction ss generalizing w first with
  | nil => exact ⟨.refl hw, hfirst⟩
  | cons s ss ih =>
    obtain ⟨hs, hss⟩ := cons_subset.mp hss
    obtain ⟨js, st, hjs, hfit, hbody, hquiet⟩ := hm.fit_cleanup hs
    let held := first.toList.flatMap (·.value?.toList)
    have hl := World.later_grasp w [.values held, .machine m]
    have hx : Eval.Does _ _ _ (Eval.execState host m.home n st.body _) :=
      Eval.does_execState (hm.start hw (o := none) nofun held)
        (fun k hk => (hjs k hk).later hl) hfit fun h hrec => nomatch (hquiet h).symm.trans hrec
    rw [hbody] at hx
    have hleft : ∀ {a : Activation σ κ}, Activation.TurnsInto A m.home m.chain.captures.size
        { world := w.grasp [.values held, .machine m] } a →
        World.Keeps A [.storage m.home] w (a.world.letGo w.hands) :=
      fun h => ⟨h.proper.world.letGo h.hands, h.later.holding, rfl⟩
    rw [runCleanups]
    simp only []
    cases hrun : Eval.execState host m.home n (m.chain.states[s]?.elim [] (·.body))
        { world := w.grasp [.values held, .machine m] } with
    | ok v a =>
      rw [hrun] at hx
      have hk := hleft hx.1
      exact .after hk (ih (hm.later hk.later) hk.proper hss
        fun f hf => (hfirst f hf).later hk.later)
    | error e a =>
      rw [hrun] at hx
      cases e with
      | timeout => exact A.clean_of_eq hx rfl rfl rfl rfl
      | fault f =>
        have hk := hleft hx.1
        refine .after hk (ih (hm.later hk.later) hk.proper hss fun f' hf' => ?_)
        cases first with
        | none =>
          cases hf'
          exact hx.2.later (World.later_letGo a.world w.hands)
        | some f₀ => exact (hfirst f' hf').later hk.later

theorem unwind_proper [host.Safe A] (hm : m.Proper S w) (hw : w.Proper A [.storage m.home]) :
    World.Does A [.storage m.home] (fun w' r => ∀ f ∈ r, f.Proper S w') w (m.unwind host n w) :=
  runCleanups_proper hm hw (List.Subset.refl _) nofun

/-! New machines. -/

theorem length_slots (chain : Chain) (args : List Value) :
    (slots chain args).length = chain.captures.size := by
  rw [slots]
  exact foldlRecOn (motive := fun vs : List Value => vs.length = chain.captures.size) _ _
    length_replicate fun _ h _ _ => length_set.trans h

end Machine

/-- The chain meets the standard. -/
structure Chain.Meets (S : Standard) (c : Chain) : Prop where
  strict : S.strict = true → c.Sound true
  definite : S.definite = true → ∃ W, c.Supplied W

namespace Machine

open Regions

variable {σ κ : Type} {S : Standard} {C : Custody σ κ} {A : Accounting S C}
  {own : List (Cargo κ)} {w w' : World σ κ}

/-- A new machine may run, with its arguments in their slots. -/
theorem create_proper {chain : Chain} {kind : Kind} {args : List Value} {m : Machine}
    (hc : chain.Meets S) (hw : w.Proper A own) (hargs : ∀ v ∈ args, v.Proper S w)
    (h : create chain kind args w = .ok (m, w')) :
    World.Keeps A (.storage m.home :: own) w w' ∧ m.Ready S w' ∧ m.chain.kind = kind := by
  obtain ⟨hkind, -, rfl, rfl⟩ := create_ok h
  have hslots : ∀ v ∈ slots chain args, v.Proper S w := by
    intro v hv
    rcases mem_slots hv with hv | rfl
    · exact hargs v hv
    · trivial
  have hadd := World.later_addStorage w (slots chain args)
  have hgive := World.later_given (w.addStorage (slots chain args)).2 w.storages.size chain.params
  refine ⟨⟨⟨(hw.stocked.addStorage hslots).given _ _, A.given (A.addStorage hw.balanced) _ _⟩,
    hadd.trans hgive, rfl⟩, ⟨⟨⟨?_, trivial, nofun, nofun, fun hs => ?_, fun hd => ?_⟩,
    fun hs => ?_⟩, fun hs => .inl (hc.strict hs).entry⟩, hkind⟩
  · exact (length_slots chain args ▸ World.fits_addStorage w _).later hgive
  · exact ⟨hc.strict hs, (Plain.steady (hc.strict hs).disciplined.entry rfl : Steady chain
      { chain, home := w.storages.size }).state, nofun⟩
  · obtain ⟨W, hW⟩ := hc.definite hd
    refine ⟨W, hW, fun k hk => ?_, nofun⟩
    exact mem_append_left _ (mem_map.mpr ⟨k, hW.entry hk, rfl⟩)
  · exact Plain.steady (hc.strict hs).disciplined.entry rfl

end Machine

end Resumable

import Resumable.Proofs.Enclosure
import Resumable.Proofs.Equality
import Resumable.Proofs.Upholding

namespace Resumable

open Regions List

variable {σ κ : Type}

/-! How much is around a state. -/

theorem Handler.length_outward_le (handlers : List Handler) (n : Nat) (h : Option HandlerId) :
    (Handler.outward handlers n h).length ≤ n := by
  induction n generalizing h with
  | zero => simp [outward]
  | succ n ih =>
    unfold outward
    split
    · rename_i g _ he
      cases he
      split
      · exact Nat.succ_le_succ (ih _)
      · exact Nat.zero_le _
    · exact Nat.zero_le _

namespace Chain

/-- The number of clauses and cleanups around a state. -/
def height (c : Chain) (s : StateId) : Nat :=
  ((c.covering s).filterMap (·.clause)).length + (c.enclosingCleanups s).length

theorem length_enclosingCleanups_le (c : Chain) (s : StateId) :
    (c.enclosingCleanups s).length ≤ c.handlers.length :=
  (length_filterMap_le _ _).trans (Handler.length_outward_le _ _ _)

theorem height_le (c : Chain) (s : StateId) : c.height s ≤ 2 * c.handlers.length := by
  have hclauses : ((c.covering s).filterMap (·.clause)).length ≤ c.handlers.length :=
    (length_filterMap_le _ _).trans (Handler.length_outward_le _ _ _)
  have hcleanups := c.length_enclosingCleanups_le s
  rw [height]
  omega

/-- A state without statements that leads into a cleanup. -/
def Routes (c : Chain) (s : StateId) : Prop :=
  ∃ st f x, c.states[s]? = some st ∧ st.body = [] ∧ st.exit = .enter f x

end Chain

namespace Compiled

variable {method : Method} {kind : Kind} {c : Chain} (C : Compiled method kind c)

theorem length_clauses_image (hs : List Handler) :
    ((hs.map C.imageHandler).filterMap (·.clause)).length = (hs.filterMap (·.clause)).length := by
  have himage : (hs.map C.imageHandler).filterMap (·.clause) =
      (hs.filterMap (·.clause)).map C.imageLanding := by
    rw [filterMap_map, map_filterMap]
    exact filterMap_congr fun g _ => C.clause_imageHandler g
  rw [himage, length_map]

theorem length_clauses {s : Nat} {st : State} (hs : C.live s)
    (hst : C.table.states[s]? = some st) :
    ((c.covering (C.number s)).filterMap (·.clause)).length = (clauses C.table s).length := by
  rw [covering_eq hs hst, clauses, hst, Option.bind_some, clausesAround]
  exact C.length_clauses_image _

section

variable {k : Nat} {inner outer : List Handler} {g : Handler}
  (h : c.covering k = inner ++ g :: outer)

include C h

theorem length_clauses_clause {l : Landing} (hl : g.clause = some l) :
    ((c.covering l.entry).filterMap (·.clause)).length = (outer.filterMap (·.clause)).length := by
  obtain ⟨g₀, outer₀, hnest, rfl, rfl, hlive, -⟩ := C.exists_guard h
  rw [C.clause_imageHandler] at hl
  obtain ⟨l₀, hl₀, rfl⟩ := Option.map_eq_some_iff.mp hl
  obtain ⟨⟨st₀, hst₀, -⟩, -, hclauses, -⟩ := hnest.1 l₀ hl₀
  exact (C.length_clauses (hlive l₀ hl₀) hst₀).trans (hclauses ▸ (C.length_clauses_image _).symm)

theorem length_clauses_cleanup {f : StateId} (hf : g.cleanup = some f) :
    ((c.covering f).filterMap (·.clause)).length = (outer.filterMap (·.clause)).length := by
  obtain ⟨g₀, outer₀, hnest, rfl, rfl, -, hlive⟩ := C.exists_guard h
  rw [C.cleanup_imageHandler] at hf
  obtain ⟨f₀, hf₀, rfl⟩ := Option.map_eq_some_iff.mp hf
  obtain ⟨⟨st₀, hst₀, -⟩, -, hclauses⟩ := hnest.2.1 f₀ hf₀
  exact (C.length_clauses (hlive f₀ hf₀) hst₀).trans (hclauses ▸ (C.length_clauses_image _).symm)

/-- Less is around the entry of a clause than around the states whose faults it takes. -/
theorem height_clause {l : Landing} (hl : g.clause = some l) : c.height l.entry < c.height k := by
  have hcons : ((g :: outer).filterMap (·.clause)).length =
      (outer.filterMap (·.clause)).length + 1 := by simp [hl]
  rw [Chain.height, Chain.height, C.length_clauses_clause h hl, (C.clause h hl).2.1,
    Chain.enclosingCleanups, h]
  simp only [filterMap_append, length_append]
  omega

/-- Less is around a cleanup than around the states inside of it. -/
theorem height_cleanup {f : StateId} (hf : g.cleanup = some f) : c.height f < c.height k := by
  have hcons : ((g :: outer).filterMap (·.cleanup)).length =
      (outer.filterMap (·.cleanup)).length + 1 := by simp [hf]
  have hle : (outer.filterMap (·.clause)).length ≤ ((g :: outer).filterMap (·.clause)).length :=
    ((sublist_cons_self _ _).filterMap _).length_le
  rw [Chain.height, Chain.height, C.length_clauses_cleanup h hf, (C.cleanup h hf).2,
    Chain.enclosingCleanups, h]
  simp only [filterMap_append, length_append]
  omega

end

end Compiled

/-! What is known of a machine under a token. -/

/-- The machine runs the chain under the token, and all that it has pending are cleanups. -/
structure Machine.Under (c : Chain) (t : TokenId) (m : Machine) : Prop where
  chain : m.chain = c
  token : m.token = some t
  cleans : ∀ p ∈ m.pending, Cleans c.states p.1

namespace Machine

variable {c : Chain} {t : TokenId} {host : Host σ κ} {m m' : Machine} {w w' : World σ κ} {n : Nat}

theorem Under.continues (h : m.Under c t) (hc : m.Continues m')
    (hp : ∀ p ∈ m'.pending, Cleans c.states p.1) : m'.Under c t :=
  ⟨hc.chain.trans h.chain, hc.token.trans h.token, hp⟩

theorem Under.idle (h : m.Under c t) : m.idle.Under c t :=
  ⟨h.chain, h.token, h.cleans⟩

/-- A cleanup is over, and control stands somewhere. -/
theorem Under.drop (h : m.Under c t) (x : StateId) : Machine.Under c t
    { m.idle with pending := m.pending.filter (·.1 != m.current), current := x } :=
  ⟨h.chain, h.token, fun p hp => h.cleans p (mem_of_mem_filter hp)⟩

/-- A cleanup is entered. -/
theorem Under.enter (h : m.Under c t) {f : StateId} (hf : Cleans c.states f) (a : Aftermath) :
    Machine.Under c t
      { m.idle with pending := (f, a) :: m.pending.filter (·.1 != f), current := f } := by
  refine ⟨h.chain, h.token, fun p hp => ?_⟩
  rcases mem_cons.mp hp with rfl | hp
  · exact hf
  · exact h.cleans p (mem_of_mem_filter hp)

theorem Under.isCancelled (h : m.Under c t) (w : World σ κ) :
    m.isCancelled w = w.isCancelled t := by
  rw [Machine.isCancelled, h.token]
  rfl

/-- Leaving a state makes nothing pending but the cleanup it enters. -/
theorem depart?_pending {s : StateId} {d : Departure} {move : Move}
    (h : m.depart? s d = some move) (hm : move.machine? = some m') :
    ∀ p ∈ m'.pending, p ∈ m.pending ∨ ∃ x, d = .enter p.1 x := by
  intro p hp
  cases d with
  | enter f x =>
    cases h
    cases hm
    rcases mem_cons.mp hp with rfl | hp
    · exact .inr ⟨x, rfl⟩
    · exact .inl (mem_of_mem_filter hp)
  | ret v u =>
    cases u <;> cases h <;> cases hm <;> exact .inl hp
  | endCleanup =>
    obtain ⟨a, -, ha⟩ := Option.map_eq_some_iff.mp h
    cases a <;> cases ha <;> cases hm <;> exact .inl (mem_of_mem_filter hp)
  | _ =>
    cases h
    cases hm
    exact .inl hp

section

variable (hd : Disciplined c.states c.handlers) (h : m.Under c t)
include hd h

theorem Under.step (hm : (m.step host n w).1.machine? = some m') : m'.Under c t := by
  refine h.continues (step_continues hm) fun p hp => ?_
  have hcleans : ∀ p ∈ m.idle.pending, Cleans c.states p.1 := h.cleans
  cases hst : m.chain.states[m.current]? with
  | none =>
    rw [Machine.step, hst] at hm
    cases hm
    exact h.cleans p hp
  | some st =>
    rw [step_eq hst] at hm
    split at hm
    · cases hm
      exact hcleans p hp
    · split at hm
      · rename_i d a he
        split at hm
        · rename_i move hmove
          rcases depart?_pending hmove hm p hp with hp | ⟨x, rfl⟩
          · exact hcleans p hp
          · have hfine := (hd.state m.current st (h.chain ▸ hst)).exit
            have hdep := departs_of_execute he
            generalize st.exit = z at hdep hfine
            cases hdep
            exact hfine.1
        · cases hm
          exact hcleans p hp
      · cases hm
        exact hcleans p hp
      · cases hm

theorem Under.handle {st : State} (hst : c.states[m.current]? = some st) {f : Fault}
    (hm : m.handle f w = some (m', w')) : m'.Under c t := by
  refine h.continues (handle_continues hm) fun p hp => ?_
  have hfault := (hd.state m.current st hst).fault
  have hcov : m.chain.covering m.current =
      Handler.outward c.handlers c.handlers.length st.handler := by
    rw [h.chain, Chain.covering, hst, Option.bind_some]
  rw [Machine.handle, hcov] at hm
  split at hm
  · cases hm
  · cases hm
    exact h.cleans p hp
  · rename_i g hr
    rw [hr] at hfault
    cases hm
    rcases mem_cons.mp hp with rfl | hp
    · exact hfault.1
    · exact h.cleans p (mem_of_mem_filter hp)

end

/-! Runs. -/

end Machine

/-- The states that have been executed. -/
def Deed.executed (ds : List Deed) : List StateId :=
  ds.filterMap fun
    | .executes s _ => some s
    | .notices _ => none

namespace Machine

/-- What happens in a run, from one state to the next. -/
def deeds (host : Host σ κ) (n : Nat) (m : Machine) (w : World σ κ) : List Deed :=
  m.along (fun x => x.machine.deed host x.left x.world) host n w

variable {c : Chain} {t : TokenId} {host : Host σ κ} {m m' : Machine} {w w' : World σ κ} {n : Nat}

section

variable (h : m.Under c t) (hn : ∀ (i : Nat) st, c.states[i]? = some st → st.id = i)
include h hn

/-- A plain state is left as soon as cancellation is noticed. -/
theorem step_plain (hp : Plain c.states m.current) (hw : w.isCancelled t = true) :
    m.step host n w = (.fault .cancelled m.idle, w) ∧ m.deed host n w = [.notices m.current] := by
  obtain ⟨st, hst, hend, hroute⟩ := id hp
  have hlookup : m.pending.lookup st.id = none := by
    refine lookup_eq_none_iff.mpr fun p hmem => ?_
    have hclean := h.cleans p hmem
    rw [hn _ _ hst]
    simp only [bne_iff_ne, ne_eq]
    rintro heq
    exact hp.not_cleans (heq ▸ hclean)
  have hin : m.inCleanup st = false := by
    rw [inCleanup, hlookup]
    cases hx : st.exit with
    | enter f x => exact absurd hx (hroute f x)
    | _ => rfl
  have hst' : m.chain.states[m.current]? = some st := h.chain ▸ hst
  have hcond : (!m.inCleanup st && m.isCancelled w) = true := by
    rw [hin, h.isCancelled, hw]
    rfl
  rw [step_eq hst', if_pos hcond, deed, hst']
  exact ⟨rfl, if_pos hcond⟩

omit hn in
theorem step_route {st : State} {f x : StateId} (hst : c.states[m.current]? = some st)
    (hb : st.body = []) (hx : st.exit = .enter f x) :
    (m.step host n w = (.timeout, w) ∧ m.deed host n w = [.executes m.current (some .timeout)]) ∨
      (m.step host n w = (.next { m.idle with
          pending := (f, .goOn x) :: m.pending.filter (·.1 != f), current := f }, w) ∧
        m.deed host n w = [.executes m.current none]) := by
  have hst' : m.chain.states[m.current]? = some st := h.chain ▸ hst
  have hin : (!m.inCleanup st && m.isCancelled w) = false := by
    simp [inCleanup, hx]
  rw [step_eq hst', deed, hst']
  simp only [hin, Bool.false_eq_true, if_false]
  rcases @execute_route σ κ host n st m.home f x hb hx
    { resumption := m.resumption, world := w.grasp [.machine m.idle] } with he | he <;> rw [he]
  · exact .inl ⟨rfl, rfl⟩
  · exact .inr ⟨rfl, rfl⟩

/-- An entered cleanup is executed, and then control goes on or the fault is raised again. -/
theorem step_cleanup (hh : host.Upholds (·.isCancelled t = true)) (hc : Cleans c.states m.current)
    {a : Aftermath} (ha : m.pending.lookup m.current = some a) (hw : w.isCancelled t = true) :
    ∃ w' : World σ κ, w'.isCancelled t = true ∧
      ((m.step host n w = (.timeout, w') ∧
          m.deed host n w = [.executes m.current (some .timeout)]) ∨
        (∃ g, m.step host n w = (.fault g m.idle, w') ∧
          m.deed host n w = [.executes m.current (some (.fault g))]) ∨
        (m.step host n w =
            (match a with
              | .goOn x => .next { m.idle with
                  pending := m.pending.filter (·.1 != m.current), current := x }
              | .rethrow g => .fault g { m.idle with
                  pending := m.pending.filter (·.1 != m.current) }, w') ∧
          m.deed host n w = [.executes m.current none])) := by
  obtain ⟨st, hst, hx⟩ := hc
  have hst' : m.chain.states[m.current]? = some st := h.chain ▸ hst
  have hid := hn _ _ hst
  have hin : (!m.inCleanup st && m.isCancelled w) = false := by
    simp [inCleanup, hid, ha]
  have hkeep := execute_upholds (n := n) (World.lasting_isCancelled t) hh m.home st
    (a := { resumption := m.resumption, world := w.grasp [.machine m.idle] }) hw
  rw [step_eq hst', deed, hst']
  simp only [hin, Bool.false_eq_true, if_false]
  generalize he : execute host m.home n st
    { resumption := m.resumption, world := w.grasp [.machine m.idle] } = r at hkeep
  cases r with
  | error e b =>
    refine ⟨b.world.letGo w.hands, hkeep, ?_⟩
    cases e with
    | timeout => exact .inl ⟨rfl, rfl⟩
    | fault g => exact .inr (.inl ⟨g, rfl, rfl⟩)
  | ok d b =>
    refine ⟨b.world.letGo w.hands, hkeep, .inr (.inr ⟨?_, rfl⟩)⟩
    have hdep := departs_of_execute he
    rw [hx] at hdep
    cases hdep
    simp only [depart?, hid, idle_pending, ha, Option.map_some]
    cases a <;> rfl

end

/-- What a run comes to that goes on with a fault at the current state. -/
def faulting (host : Host σ κ) (n : Nat) (m : Machine) (g : Fault) (w : World σ κ) :
    List Deed × Halt :=
  match m.handle g w with
  | some (m', w') => (m'.deeds host n w', (m'.run host n w').1)
  | none => ([], .fault g m)

theorem deeds_fault {g : Fault} (h : m.step host n w = (.fault g m', w')) :
    m.deeds host (n + 1) w = m.deed host n w ++ (m'.faulting host n g w').1 ∧
      (m.run host (n + 1) w).1 = (m'.faulting host n g w').2 := by
  have honward := onward_fault h
  rw [faulting, run, h]
  simp only []
  cases hh : m'.handle g w' with
  | none =>
    rw [hh] at honward
    exact ⟨(along_last _ honward).trans (append_nil _).symm, rfl⟩
  | some next =>
    rw [hh] at honward
    exact ⟨along_onward _ honward, rfl⟩

theorem deeds_next (h : m.step host n w = (.next m', w')) :
    m.deeds host (n + 1) w = m.deed host n w ++ m'.deeds host n w' ∧
      (m.run host (n + 1) w).1 = (m'.run host n w').1 := by
  have honward := onward_next h
  exact ⟨along_onward _ honward, congrArg (·.1) (run_onward honward)⟩

theorem deeds_timeout (h : m.step host n w = (.timeout, w')) :
    m.deeds host (n + 1) w = m.deed host n w ∧ (m.run host (n + 1) w).1 = .timeout := by
  have hlast : m.onward host n w = none := by rw [onward, h]
  exact ⟨along_last _ hlast, by rw [run, h]⟩

end Machine

/-- The cleanups have been executed in this order, all of them if the run came to an end. -/
structure InTurn (fs : List StateId) (ds : List Deed) (halt : Halt) : Prop where
  some : Deed.executed ds <+: fs
  all : halt ≠ .timeout → Deed.executed ds = fs

/-- A run of at most `n` steps that does nothing but unwind. Only cleanups execute, and the empty
states on the way to them. Wherever cancellation is noticed, the cleanups around execute from
there on, innermost first. The run ends with a fault: the one that was owed, the cancellation, or
one that a cleanup has raised. It takes less than `need` steps, or a cleanup did not come to its
end. -/
structure Winds (c : Chain) (owed : Option Fault) (n need : Nat) (ds : List Deed) (halt : Halt) :
    Prop where
  cleanups : ∀ s stopped, .executes s stopped ∈ ds → Cleans c.states s ∨ c.Routes s
  noticed : ∀ before s after, ds = before ++ .notices s :: after →
    InTurn (c.enclosingCleanups s) after halt
  ended : halt = .timeout ∨ ∃ f m, halt = .fault f m ∧
    (owed = some f ∨ f = .cancelled ∨ ∃ s, .executes s (some (.fault f)) ∈ ds)
  spent : halt = .timeout → n < need ∨ ∃ s, .executes s (some .timeout) ∈ ds

namespace Winds

variable {c : Chain} {owed : Option Fault} {n need : Nat} {ds : List Deed} {halt : Halt}
  {s : StateId}

theorem weaken (h : Winds c owed n need ds halt) {owed' : Option Fault} {need' : Nat}
    (ho : ∀ f, owed = some f → owed' = some f) (hn : need ≤ need') :
    Winds c owed' n need' ds halt := by
  refine ⟨h.cleanups, h.noticed, ?_, fun ht => ?_⟩
  · rcases h.ended with ht | ⟨f, m, hf, hcause⟩
    · exact .inl ht
    · exact .inr ⟨f, m, hf, hcause.imp_left (ho f)⟩
  · exact (h.spent ht).imp_left fun hlt => Nat.lt_of_lt_of_le hlt hn

theorem nothing (hn : n < need) : Winds c owed n need [] .timeout :=
  ⟨nofun, fun before s after h => by simp at h, .inl rfl, fun _ => .inl hn⟩

theorem escaped (f : Fault) (m : Machine) : Winds c (some f) n need [] (.fault f m) :=
  ⟨nofun, fun before s after h => by simp at h, .inr ⟨f, m, rfl, .inl rfl⟩, nofun⟩

theorem stopped (hs : Cleans c.states s ∨ c.Routes s) :
    Winds c owed n need [.executes s (some .timeout)] .timeout := by
  refine ⟨?_, fun before s' after h => ?_, .inl rfl, fun _ => .inr ⟨s, mem_cons_self⟩⟩
  · intro s' stopped h
    cases mem_singleton.mp h
    exact hs
  · cases before <;> simp at h

/-- A cleanup or a route executes first, and what is owed afterwards was owed before or has been
raised by it. -/
theorem executes {owed' : Option Fault} {stopped : Option Stop}
    (hs : Cleans c.states s ∨ c.Routes s) (h : Winds c owed' n need ds halt)
    (ho : ∀ f, owed' = some f → owed = some f ∨ stopped = some (.fault f)) :
    Winds c owed (n + 1) (need + 1) (.executes s stopped :: ds) halt := by
  refine ⟨fun s' stopped' hmem => ?_, fun before s' after he => ?_, ?_, fun ht => ?_⟩
  · rcases mem_cons.mp hmem with he | hmem
    · cases he
      exact hs
    · exact h.cleanups s' stopped' hmem
  · cases before with
    | nil => cases he
    | cons d before =>
      cases he
      exact h.noticed before s' after rfl
  · rcases h.ended with ht | ⟨f, m, hf, hcause⟩
    · exact .inl ht
    · refine .inr ⟨f, m, hf, ?_⟩
      rcases hcause with howed | hcancel | ⟨s', hmem⟩
      · rcases ho f howed with howed | rfl
        · exact .inl howed
        · exact .inr (.inr ⟨s, mem_cons_self⟩)
      · exact .inr (.inl hcancel)
      · exact .inr (.inr ⟨s', mem_cons_of_mem _ hmem⟩)
  · rcases h.spent ht with hlt | ⟨s', hmem⟩
    · exact .inl (Nat.succ_lt_succ hlt)
    · exact .inr ⟨s', mem_cons_of_mem _ hmem⟩

theorem notices (h : Winds c (some .cancelled) n need ds halt)
    (ht : InTurn (c.enclosingCleanups s) ds halt) :
    Winds c owed (n + 1) (need + 1) (.notices s :: ds) halt := by
  refine ⟨fun s' stopped hmem => ?_, fun before s' after he => ?_, ?_, fun ht => ?_⟩
  · rcases mem_cons.mp hmem with he | hmem
    · cases he
    · exact h.cleanups s' stopped hmem
  · cases before with
    | nil =>
      cases he
      exact ht
    | cons d before =>
      cases he
      exact h.noticed before s' after rfl
  · rcases h.ended with ht | ⟨f, m, hf, hcause⟩
    · exact .inl ht
    · refine .inr ⟨f, m, hf, .inr ?_⟩
      rcases hcause with hcancel | hcancel | ⟨s', hmem⟩
      · cases hcancel
        exact .inl rfl
      · exact .inl hcancel
      · exact .inr ⟨s', mem_cons_of_mem _ hmem⟩
  · rcases h.spent ht with hlt | ⟨s', hmem⟩
    · exact .inl (Nat.succ_lt_succ hlt)
    · exact .inr ⟨s', mem_cons_of_mem _ hmem⟩

end Winds

namespace InTurn

variable {fs : List StateId} {ds : List Deed} {halt : Halt} {s : StateId}

theorem nothing : InTurn fs [] .timeout :=
  ⟨List.nil_prefix, fun h => absurd rfl h⟩

theorem notices (h : InTurn fs ds halt) : InTurn fs (.notices s :: ds) halt :=
  ⟨h.some, h.all⟩

theorem executes (h : InTurn fs ds halt) (stopped : Option Stop) :
    InTurn (s :: fs) (.executes s stopped :: ds) halt :=
  ⟨cons_prefix_cons.mpr ⟨rfl, h.some⟩, fun ht => congrArg (s :: ·) (h.all ht)⟩

end InTurn

namespace Compiled

variable {method : Method} {kind : Kind} {c : Chain} {t : TokenId} {host : Host σ κ}
  {m m' : Machine} {w w' : World σ κ} {n : Nat}

/-- Where a fault goes from a state: to a clause inside of the same cleanups, or to the innermost
cleanup, and in any case to a place with less around it. -/
theorem handled (C : Compiled method kind c) (h : m.Under c t) {st : State}
    (hst : c.states[m.current]? = some st) {g : Fault} (hm : m.handle g w = some (m', w')) :
    c.height m'.current < c.height m.current ∧
      (Plain c.states m'.current ∧
          c.enclosingCleanups m'.current = c.enclosingCleanups m.current ∨
        Cleans c.states m'.current ∧ m'.pending.lookup m'.current = some (.rethrow g) ∧
          c.enclosingCleanups m.current = m'.current :: c.enclosingCleanups m'.current) := by
  have hfault := (C.disciplined.state m.current st hst).fault
  have hcov : Handler.outward c.handlers c.handlers.length st.handler = c.covering m.current := by
    rw [Chain.covering, hst, Option.bind_some]
  rw [hcov] at hfault
  rw [Machine.handle, h.chain] at hm
  split at hm
  · cases hm
  · rename_i l hr
    obtain ⟨x, hx, hl, -⟩ := Machine.mem_of_rescue? hr
    obtain ⟨inner, outer, he⟩ := append_of_mem hx
    rw [hr] at hfault
    cases hm
    exact ⟨C.height_clause he (hl l rfl), .inl hfault⟩
  · rename_i f hr
    obtain ⟨x, hx, -, hf⟩ := Machine.mem_of_rescue? hr
    obtain ⟨inner, outer, he⟩ := append_of_mem hx
    rw [hr] at hfault
    cases hm
    exact ⟨C.height_cleanup he (hf f rfl), .inr ⟨hfault.1, by simp, hfault.2⟩⟩

/-- What escapes was raised outside of all cleanups. -/
theorem escapes (C : Compiled method kind c) (h : m.Under c t) {st : State}
    (hst : c.states[m.current]? = some st) {g : Fault} (hm : m.handle g w = none) :
    c.enclosingCleanups m.current = [] := by
  have hfault := (C.disciplined.state m.current st hst).fault
  have hcov : Handler.outward c.handlers c.handlers.length st.handler = c.covering m.current := by
    rw [Chain.covering, hst, Option.bind_some]
  rw [hcov] at hfault
  rw [Machine.handle, h.chain] at hm
  split at hm
  · rename_i hr
    rw [hr] at hfault
    exact hfault
  · cases hm
  · cases hm

/-- The run from here on winds, and the cleanups execute in turn. -/
structure Unwinding (c : Chain) (host : Host σ κ) (owed : Option Fault) (fs : List StateId)
    (need n : Nat) (m : Machine) (w : World σ κ) : Prop where
  winds : Winds c owed n need (m.deeds host n w) (m.run host n w).1
  turns : InTurn fs (m.deeds host n w) (m.run host n w).1

section

variable (C : Compiled method kind c)
include C

/-- A fault goes outward, if machines unwind at the places where it comes to. -/
theorem faulting_unwinds (h : m.Under c t)
    (hw : w.isCancelled t = true) {st : State} (hst : c.states[m.current]? = some st) (g : Fault)
    (hplain : ∀ m' w', Machine.Under c t m' → World.isCancelled w' t = true →
      Plain c.states m'.current →
      Unwinding c host none (c.enclosingCleanups m'.current) (c.height m'.current + 1) n m' w')
    (hcleanup : ∀ m' w', Machine.Under c t m' → World.isCancelled w' t = true →
      Cleans c.states m'.current → m'.pending.lookup m'.current = some (.rethrow g) →
      Unwinding c host (some g) (m'.current :: c.enclosingCleanups m'.current)
        (c.height m'.current + 1) n m' w') :
    Winds c (some g) n (c.height m.current) (m.faulting host n g w).1 (m.faulting host n g w).2 ∧
      InTurn (c.enclosingCleanups m.current) (m.faulting host n g w).1
        (m.faulting host n g w).2 := by
  unfold Machine.faulting
  cases hm : m.handle g w with
  | none =>
    rw [C.escapes h hst hm]
    exact ⟨.escaped g m, ⟨List.nil_prefix, fun _ => rfl⟩⟩
  | some next =>
    obtain ⟨m', w'⟩ := next
    have hu := h.handle C.disciplined hst hm
    have hw' : w'.isCancelled t = true := Machine.handle_upholds (World.lasting_isCancelled t) hm hw
    obtain ⟨hlt, ⟨hp, he⟩ | ⟨hc, ha, he⟩⟩ := C.handled h hst hm
    · have hrun := hplain m' w' hu hw' hp
      exact ⟨hrun.winds.weaken nofun hlt, he ▸ hrun.turns⟩
    · have hrun := hcleanup m' w' hu hw' hc ha
      exact ⟨hrun.winds.weaken (fun _ => id) hlt, he ▸ hrun.turns⟩

/-- From a plain state, and from a cleanup that is to raise a fault again, a cancelled machine does
nothing but unwind. -/
theorem unwinding (hh : host.Upholds (·.isCancelled t = true)) (n : Nat) :
    (∀ m (w : World σ κ), Machine.Under c t m → w.isCancelled t = true → Plain c.states m.current →
      Unwinding c host none (c.enclosingCleanups m.current) (c.height m.current + 1) n m w) ∧
    ∀ g m (w : World σ κ), Machine.Under c t m → w.isCancelled t = true →
      Cleans c.states m.current → m.pending.lookup m.current = some (.rethrow g) →
      Unwinding c host (some g) (m.current :: c.enclosingCleanups m.current)
        (c.height m.current + 1) n m w := by
  induction n with
  | zero =>
    constructor <;> intros <;> exact ⟨.nothing (Nat.zero_lt_succ _), .nothing⟩
  | succ n ih =>
    have hfault : ∀ g m (w : World σ κ), Machine.Under c t m → w.isCancelled t = true →
        (∃ st, c.states[m.current]? = some st) →
        Winds c (some g) n (c.height m.current) (m.faulting host n g w).1
            (m.faulting host n g w).2 ∧
          InTurn (c.enclosingCleanups m.current) (m.faulting host n g w).1
            (m.faulting host n g w).2 := by
      rintro g m w h hw ⟨st, hst⟩
      exact C.faulting_unwinds h hw hst g ih.1 (ih.2 g)
    constructor
    · intro m w h hw hp
      obtain ⟨hstep, hdeed⟩ := @Machine.step_plain _ _ c t host m w n h (fun _ _ => C.id_eq) hp hw
      obtain ⟨hds, hrun⟩ := Machine.deeds_fault hstep
      obtain ⟨st, hst, -⟩ := id hp
      obtain ⟨hwinds, hturns⟩ := hfault .cancelled m.idle w h.idle hw ⟨st, hst⟩
      refine ⟨?_, ?_⟩
      · rw [hds, hdeed, hrun]
        exact hwinds.notices hturns
      · rw [hds, hdeed, hrun]
        exact hturns.notices
    · intro g m w h hw hc ha
      obtain ⟨st, hst, -⟩ := id hc
      obtain ⟨w', hw', ⟨hstep, hdeed⟩ | ⟨g', hstep, hdeed⟩ | ⟨hstep, hdeed⟩⟩ :=
        @Machine.step_cleanup _ _ c t host m w n h (fun _ _ => C.id_eq) hh hc _ ha hw
      · obtain ⟨hds, hrun⟩ := Machine.deeds_timeout hstep
        refine ⟨?_, ?_⟩ <;> rw [hds, hdeed, hrun]
        · exact .stopped (.inl hc)
        · exact InTurn.nothing.executes _
      · obtain ⟨hds, hrun⟩ := Machine.deeds_fault hstep
        obtain ⟨hwinds, hturns⟩ := hfault g' m.idle w' h.idle hw' ⟨st, hst⟩
        refine ⟨?_, ?_⟩ <;> rw [hds, hdeed, hrun]
        · exact hwinds.executes (.inl hc) fun f hf => .inr (by cases hf; rfl)
        · exact hturns.executes _
      · obtain ⟨hds, hrun⟩ := Machine.deeds_fault hstep
        obtain ⟨hwinds, hturns⟩ := hfault g _ w' (h.drop m.current) hw' ⟨st, hst⟩
        refine ⟨?_, ?_⟩ <;> rw [hds, hdeed, hrun]
        · exact hwinds.executes (.inl hc) fun f hf => .inl hf
        · exact hturns.executes _

/-- Control that is on its way out of some regions still unwinds: it passes the cleanups on its
way, and where it would go on the cancellation is noticed. -/
theorem winding (hh : host.Upholds (·.isCancelled t = true)) (n : Nat) :
    (∀ E m (w : World σ κ), Machine.Under c t m → w.isCancelled t = true →
      Link c.states c.handlers E m.current →
      Winds c none n (2 * E.length + 2 * c.handlers.length + 1) (m.deeds host n w)
        (m.run host n w).1) ∧
    ∀ x m (w : World σ κ), Machine.Under c t m → w.isCancelled t = true →
      Cleans c.states m.current → m.pending.lookup m.current = some (.goOn x) →
      Link c.states c.handlers (c.enclosingCleanups m.current) x →
      Winds c none n
        (2 * (c.enclosingCleanups m.current).length + 2 * c.handlers.length + 2)
        (m.deeds host n w) (m.run host n w).1 := by
  have hplain : ∀ n (E : List StateId) m (w : World σ κ), Machine.Under c t m →
      w.isCancelled t = true → Plain c.states m.current →
      Winds c none n (2 * E.length + 2 * c.handlers.length + 1) (m.deeds host n w)
        (m.run host n w).1 := by
    intro n E m w h hw hp
    have hle := c.height_le m.current
    exact ((C.unwinding hh n).1 m w h hw hp).winds.weaken nofun (by omega)
  induction n with
  | zero =>
    constructor <;> intros <;> exact .nothing (Nat.zero_lt_succ _)
  | succ n ih =>
    constructor
    · intro E m w h hw hl
      cases hl with
      | stay hp => exact hplain (n + 1) E m w h hw hp
      | into hp => exact hplain (n + 1) E m w h hw hp
      | @out f x st hst hx he =>
        have horderly := C.disciplined.state m.current st hst
        have hb := horderly.route f x hx
        have hroute : c.Routes m.current := ⟨st, f, x, hst, hb, hx⟩
        have hfine := horderly.exit
        rw [hx] at hfine
        obtain ⟨hclean, hf, hlink⟩ := hfine
        rcases @Machine.step_route _ _ c t host m w n h st f x hst hb hx with
          ⟨hstep, hdeed⟩ | ⟨hstep, hdeed⟩
        · obtain ⟨hds, hrun⟩ := Machine.deeds_timeout hstep
          rw [hds, hdeed, hrun]
          exact .stopped (.inr hroute)
        · obtain ⟨hds, hrun⟩ := Machine.deeds_next hstep
          rw [hds, hdeed, hrun]
          have hf' : c.enclosingCleanups f = c.enclosingCleanups m.current := hf
          have hlink' : Link c.states c.handlers (c.enclosingCleanups f) x := hf' ▸ hlink
          have hrest := ih.2 x _ w (h.enter hclean (.goOn x)) hw hclean (by simp) hlink'
          refine (hrest.executes (.inr hroute) nofun).weaken (fun _ => id) ?_
          have hlen : (c.enclosingCleanups f).length + 1 = E.length := by
            rw [he, length_cons]
            exact congrArg (length · + 1) hf
          show 2 * (c.enclosingCleanups f).length + _ + 2 + 1 ≤ _
          omega
    · intro x m w h hw hc ha hl
      obtain ⟨st, hst, -⟩ := id hc
      have hle := c.height_le m.current
      obtain ⟨w', hw', ⟨hstep, hdeed⟩ | ⟨g', hstep, hdeed⟩ | ⟨hstep, hdeed⟩⟩ :=
        @Machine.step_cleanup _ _ c t host m w n h (fun _ _ => C.id_eq) hh hc _ ha hw
      · obtain ⟨hds, hrun⟩ := Machine.deeds_timeout hstep
        rw [hds, hdeed, hrun]
        exact .stopped (.inl hc)
      · obtain ⟨hds, hrun⟩ := Machine.deeds_fault hstep
        have hfault := C.faulting_unwinds h.idle hw' hst g' (C.unwinding hh n).1
          ((C.unwinding hh n).2 g')
        rw [hds, hdeed, hrun]
        refine (hfault.1.executes (.inl hc) fun f hf => .inr (by cases hf; rfl)).weaken
          (fun _ => id) ?_
        show c.height m.current + 1 ≤ _
        omega
      · obtain ⟨hds, hrun⟩ := Machine.deeds_next hstep
        rw [hds, hdeed, hrun]
        have hrest := ih.1 (c.enclosingCleanups m.current) _ w' (h.drop x) hw' hl
        exact (hrest.executes (.inl hc) nofun).weaken (fun _ => id) (by omega)

/-- Wherever a cancelled machine stands, it does nothing but unwind. It owes a fault only if it
stands at a cleanup that is to raise it again. -/
theorem winds (hh : host.Upholds (·.isCancelled t = true)) (hs : Steady c m)
    (h : m.Under c t) (hw : w.isCancelled t = true) {owed : Option Fault}
    (ho : ∀ g, Cleans c.states m.current → m.pending.lookup m.current = some (.rethrow g) →
      owed = some g) :
    Winds c owed n (4 * c.handlers.length + 3) (m.deeds host n w) (m.run host n w).1 := by
  have hheight := c.height_le m.current
  have hlen := c.length_enclosingCleanups_le m.current
  obtain ⟨st, hst⟩ := hs.state
  by_cases hc : Cleans c.states m.current
  · obtain ⟨a, ha, hgo⟩ := hs.pending hc
    cases a with
    | goOn x =>
      exact ((C.winding hh n).2 x m w h hw hc ha (hgo x rfl)).weaken nofun (by omega)
    | rethrow g =>
      have hrun := (C.unwinding hh n).2 g m w h hw hc ha
      exact hrun.winds.weaken (fun f hf => hf ▸ ho g hc ha) (by omega)
  · cases hx : st.exit with
    | enter f x =>
      have hfine := (C.disciplined.state m.current st hst).exit
      have hrun := (C.winding hh n).1 (f :: c.enclosingCleanups m.current) m w h hw
        (.out hst hx rfl)
      exact hrun.weaken nofun (by rw [length_cons]; omega)
    | _ =>
      have hp : Plain c.states m.current :=
        ⟨st, hst, fun he => hc ⟨st, hst, he⟩, fun f x he => by rw [hx] at he; cases he⟩
      exact ((C.unwinding hh n).1 m w h hw hp).winds.weaken nofun (by omega)

end

end Compiled

/-! Tasks. -/

namespace Machine

variable {c : Chain} {t : TokenId} {host : Host σ κ} {m m' : Machine} {w w' : World σ κ}
  {n : Nat}

section

variable (hd : Disciplined c.states c.handlers)
  (hn : ∀ (i : Nat) st, c.states[i]? = some st → st.id = i) (hs : Steady c m)
include hd hn hs

/-- A machine that goes on to another state has no fault to raise there. -/
theorem not_rethrow_of_next (h : m.step host n w = (.next m', w')) {g : Fault}
    (hc : Cleans c.states m'.current) : m'.pending.lookup m'.current ≠ some (.rethrow g) := by
  obtain ⟨st, hst⟩ := hs.state
  obtain ⟨d, hdep, hmove⟩ := exists_departure (hs.chain ▸ hst) h nofun nofun
  have hfine := (hd.state m.current st hst).exit
  cases hx : st.exit with
  | goto u =>
    rw [hx] at hdep hfine
    cases hdep
    cases hmove
    exact absurd hc (Link.not_cleans hfine)
  | branch e a b =>
    rw [hx] at hdep hfine
    cases hdep <;> cases hmove
    · exact absurd hc (Link.not_cleans hfine.1)
    · exact absurd hc (Link.not_cleans hfine.2)
  | ret v u =>
    rw [hx] at hdep hfine
    cases u with
    | none => cases hdep <;> cases hmove
    | some u =>
      cases hdep <;> cases hmove <;> exact absurd hc (Link.not_cleans hfine)
  | enter f x =>
    rw [hx] at hdep
    cases hdep
    cases hmove
    simp
  | endCleanup =>
    rw [hx] at hdep
    cases hdep
    obtain ⟨a, ha, hgo⟩ := hs.pending ⟨st, hst, hx⟩
    rw [hn _ _ hst] at hmove
    simp only [depart?, idle_pending, ha, Option.map_some] at hmove
    cases a with
    | goOn x =>
      cases hmove
      exact absurd hc (hgo x rfl).not_cleans
    | rethrow f => cases hmove
  | suspend p r =>
    rw [hx] at hdep
    cases hdep <;> cases hmove
  | complete =>
    rw [hx] at hdep
    cases hdep
    cases hmove
  | unreachable =>
    rw [hx] at hdep
    cases hdep

theorem onward_steady (hu : m.Under c t) (h : m.onward host n w = some (m', w')) :
    Steady c m' ∧ m'.Under c t := by
  obtain ⟨st, hst⟩ := hs.state
  have hmoved := hs.step hd hn host n w
  have hunder := fun m' => @Under.step _ _ c t host m m' w n hd hu
  unfold onward at h
  generalize m.step host n w = x at h hmoved hunder
  split at h
  · cases h
    exact ⟨hmoved, hunder _ rfl⟩
  · rename_i f m₁ w₁
    have hst₁ : c.states[m₁.current]? = some st := hmoved.2 ▸ hst
    exact ⟨Steady.handle hd hmoved.1 hst₁ h, (hunder m₁ rfl).handle hd hst₁ h⟩
  · cases h

end

theorem steady_of_mem (hd : Disciplined c.states c.handlers)
    (hn : ∀ (i : Nat) st, c.states[i]? = some st → st.id = i) (hs : Steady c m) (hu : m.Under c t)
    {x : Moment σ κ} (hx : x ∈ m.moments host n w) :
    Steady c x.machine ∧ x.machine.Under c t :=
  moments_all (P := fun m => Steady c m ∧ m.Under c t)
    (fun h hm => onward_steady hd hn hm.1 hm.2 h) ⟨hs, hu⟩ x hx

/-- A machine that waits stands at a plain state. -/
theorem plain_of_awaiting (hd : Disciplined c.states c.handlers)
    (hn : ∀ (i : Nat) st, c.states[i]? = some st → st.id = i) (hs : Steady c m)
    (hu : m.Under c t) {f : FutureId} (h : m.run host n w = (.awaiting f m', w')) :
    Plain c.states m'.current ∧ m'.Under c t := by
  rcases exists_last host n m w with ht | ⟨⟨k, m₁, w₁⟩, hx, hlast⟩
  · rw [h] at ht
    cases ht
  obtain ⟨hs₁, hu₁⟩ := steady_of_mem hd hn hs hu hx
  have hmoved := hs₁.step hd hn host k w₁
  have hunder := fun m' => @Under.step _ _ c t host m₁ m' w₁ k hd hu₁
  rw [run_of_mem hx, run] at h
  unfold onward at hlast
  generalize m₁.step host k w₁ = x at h hmoved hunder hlast
  obtain ⟨move, w₂⟩ := x
  cases move with
  | awaiting f' m₂ =>
    cases h
    exact ⟨hmoved.2.1, hunder _ rfl⟩
  | next m₂ => cases hlast
  | fault g m₂ =>
    simp only [hlast] at h
    cases h
  | yielded | completed | timeout => cases h

end Machine

namespace Task

theorem Course.plain {c : Chain} {t : TokenId} {host : Host σ κ} {start m : Machine}
    {xs : List (Moment σ κ)} (h : Course host start xs m) (hd : Disciplined c.states c.handlers)
    (hn : ∀ (i : Nat) st, c.states[i]? = some st → st.id = i)
    (hp : Plain c.states start.current) (hu : start.Under c t) :
    Plain c.states m.current ∧ m.Under c t := by
  induction h with
  | start => exact ⟨hp, hu⟩
  | resumed _ hrun o ih =>
    obtain ⟨hp, hu⟩ := Machine.plain_of_awaiting hd hn (ih.1.steady ih.2.chain) ih.2 hrun
    exact ⟨hp, hu.chain, hu.token, hu.cleans⟩

/-- A drive ends with a fault of its machine, in the world that the run has left. The fault becomes
the outcome of the future, if nobody has settled that before. -/
structure Fails (host : Host σ κ) (k : Nat) (r : FutureId) (v : World σ κ)
    (drive : EStateM.Result Timeout (World σ κ) Unit) (f : Fault) (m : Machine) (w : World σ κ) :
    Prop where
  finishes : drive = finish host k m [] r (.error f) (w.letGo v.hands)
  settles : host.Faithful → 2 ≤ k → r < w.futures.size → w.outcome? r = none →
    (lastly drive).outcome? r = some (.error f)

/-- The machine does nothing but unwind from here on, and the drive ends with its fault. -/
structure Unwinds (c : Chain) (host : Host σ κ) (owed : Option Fault) (n : Nat) (m : Machine)
    (w : World σ κ) (k : Nat) (r : FutureId) (v : World σ κ)
    (drive : EStateM.Result Timeout (World σ κ) Unit) : Prop where
  winds : Winds c owed n (4 * c.handlers.length + 3) (m.deeds host n w) (m.run host n w).1
  fails : ∀ f m' w', m.run host n w = (.fault f m', w') → Fails host k r v drive f m' w'

/-- What becomes of the drive of a task when a step is over in which its token has been
cancelled. -/
def Stops (c : Chain) (host : Host σ κ) (start : Machine) (xs : List (Moment σ κ)) (n k : Nat)
    (r : FutureId) (v : World σ κ) (drive : EStateM.Result Timeout (World σ κ) Unit) :
    Move × World σ κ → Prop
  | (.next m, w) => Unwinds c host none n m w k r v drive
  | (.fault g m, w) =>
    match m.handle g w with
    | some (m', w') => Unwinds c host (some g) n m' w' k r v drive
    | none => Fails host k r v drive g m w
  | (.awaiting f m, w) =>
    drive = proceed host k r (.awaiting f m) (w.letGo v.hands) ∧
      ∀ o, Course host start xs { m with resumption := some o }
  | (.yielded .., _) => False
  | (.completed .., _) | (.timeout, _) => True

theorem fails_of_run {host : Host σ κ} {k : Nat} {m m' : Machine} {r : FutureId}
    {v w : World σ κ} {f : Fault}
    (h : m.run host k ((noteRun r m v).grasp [.future r]) = (.fault f m', w)) :
    Fails host k r v (drive host (k + 1) m r v) f m' w := by
  refine ⟨drive_succ h, fun hh hk hr hp => ?_⟩
  obtain ⟨j, rfl⟩ : ∃ j, k = j + 2 := ⟨k - 2, by omega⟩
  rw [drive_succ h]
  exact finish_settles hh (w := w.letGo v.hands) hr hp j m' [] (.error f)

end Task

/-- Cancellation stops ordinary code but not the cleanups. If the token of a task is cancelled
before it is driven on, the machine does nothing but unwind. The same holds once the state is over
during which the token has been cancelled, unless the task ends or waits there; if it waits, it is
in the first case when it is driven on. Then the future of the task is settled with a fault: the
cancellation, one that a cleanup raised afterwards, or the one that left that state. -/
theorem cancellation_unwinds {method : Method} {limit : Nat} {c : Chain}
    (h : method.split limit = .ok (some c)) {host : Host σ κ} {t : TokenId}
    (hh : host.Upholds (·.isCancelled t = true)) {args : List Value} {w₀ w₁ : World σ κ}
    {task : Task} (hcreate : Task.create c args w₀ = .ok (task, w₁)) {xs : List (Moment σ κ)}
    {m : Machine} (hm : Task.Course host { task.machine with token := some t } xs m) (k : Nat)
    (r : FutureId) (v : World σ κ) :
    let round : Moment σ κ := ⟨k, m, (Task.noteRun r m v).grasp [.future r]⟩
    (v.isCancelled t = true →
      Task.Unwinds c host none k m round.world k r v (Task.drive host (k + 1) m r v)) ∧
    ∀ x ∈ m.moments host k round.world,
      (x.machine.step host x.left x.world).2.isCancelled t = true →
      Task.Stops c host { task.machine with token := some t } (xs ++ [round]) x.left k r v
        (Task.drive host (k + 1) m r v) (x.machine.step host x.left x.world) := by
  intro round
  obtain ⟨kind, -, hc⟩ := method.exists_of_split h
  obtain ⟨C⟩ := Method.compiled hc
  obtain ⟨⟨m', w'⟩, hmachine, ht⟩ := Splitting.bind_eq_ok hcreate
  cases ht
  obtain ⟨hkind, -, rfl, -⟩ := Machine.create_ok hmachine
  have hd := C.disciplined
  have hn : ∀ (i : Nat) st, c.states[i]? = some st → st.id = i := fun _ _ => C.id_eq
  obtain ⟨hp, hu⟩ := hm.plain hd hn hd.entry ⟨rfl, rfl, nofun⟩
  have hs := hp.steady hu.chain
  -- the drive ends as the run does, wherever the run has come to
  have hunwinds : ∀ owed n m₁ w, m.run host k round.world = m₁.run host n w →
      Winds c owed n (4 * c.handlers.length + 3) (m₁.deeds host n w) (m₁.run host n w).1 →
      Task.Unwinds c host owed n m₁ w k r v (Task.drive host (k + 1) m r v) :=
    fun owed n m₁ w hrun hwinds =>
      ⟨hwinds, fun f m' w' hf => Task.fails_of_run (hrun.trans hf)⟩
  refine ⟨fun hv => ?_, ?_⟩
  · refine hunwinds none k m _ rfl (C.winds hh hs hu ?_ fun g hc _ => absurd hc hp.not_cleans)
    exact hv
  · rintro ⟨n, m₁, w⟩ hx hcancel
    obtain ⟨hs₁, hu₁⟩ := Machine.steady_of_mem hd hn hs hu hx
    obtain ⟨st, hst⟩ := hs₁.state
    have hmoved := hs₁.step hd hn host n w
    have hunder := fun m' => @Machine.Under.step _ _ c t host m₁ m' w n hd hu₁
    have hnext := fun m' w' => @Machine.not_rethrow_of_next _ _ c host m₁ m' w w' n hd hn hs₁
    have hyields := fun x m' w' =>
      @Machine.yield_of_step _ _ host m₁ m' n st x w w' (hu₁.chain ▸ hst)
    have hrun := Machine.run_of_mem hx
    rw [Machine.run] at hrun
    simp only [] at hrun hcancel hst hmoved hunder hnext hyields ⊢
    generalize m₁.step host n w = x at *
    obtain ⟨move, w₂⟩ := x
    cases move with
    | next m₂ =>
      refine hunwinds none n m₂ w₂ hrun (C.winds hh hmoved (hunder m₂ rfl) hcancel ?_)
      exact fun g hc hl => absurd hl (hnext m₂ w₂ rfl hc)
    | fault g m₂ =>
      have hst₂ : c.states[m₂.current]? = some st := hmoved.2 ▸ hst
      simp only [Task.Stops]
      cases hhandle : m₂.handle g w₂ with
      | none =>
        simp only [hhandle] at hrun
        exact Task.fails_of_run hrun
      | some y =>
        obtain ⟨m₃, w₃⟩ := y
        simp only [hhandle] at hrun
        have hcancel₃ := Machine.handle_upholds (World.lasting_isCancelled t) hhandle hcancel
        refine hunwinds (some g) n m₃ w₃ hrun (C.winds hh (Steady.handle hd hmoved.1 hst₂ hhandle)
          ((hunder m₂ rfl).handle hd hst₂ hhandle) hcancel₃ fun f hc hl => ?_)
        obtain ⟨-, ⟨hp₃, -⟩ | ⟨-, hl₃, -⟩⟩ := C.handled (hunder m₂ rfl) hst₂ hhandle
        · exact absurd hc hp₃.not_cleans
        · cases hl.symm.trans hl₃
          rfl
    | awaiting f m₂ => exact ⟨Task.drive_succ hrun, fun o => hm.resumed hrun o⟩
    | yielded x m₂ =>
      obtain ⟨e, hx⟩ := hyields x m₂ w₂ rfl
      cases (Method.pause_kind h hst hx).trans hkind
    | completed | timeout => trivial

/-- A method that asks for its own cancellation and then awaits, inside of a guarded block. -/
def cancelledWait : Method :=
  { name := "m", params := ["p"],
    body := [.attempt {}
      [.eval {} (.call {} (.var {} "stop") []), .eval {} (.await {} (.var {} "p"))] none
      (some [.eval {} (.int {} 2)])] }

def cancelledChain : Chain :=
  { name := "m", kind := .async,
    states :=
      [{ id := 0, exit := .goto 3 }, { id := 1, exit := .complete },
        { id := 2, body := [.eval {} (.int {} 2)], exit := .endCleanup },
        { id := 3, body := [.eval {} (.call {} (.var {} "stop") [])],
          exit := .suspend (.await (.captured {} 0)) 4, handler := some 0 },
        { id := 4, body := [.eval {} (.resume {})], exit := .goto 5, handler := some 0 },
        { id := 5, exit := .enter 2 1 }],
    handlers := [{ id := 0, cleanup := some 2 }],
    captures := ⟨[("p", ⟨0, "p", .parameter⟩)]⟩,
    params := [0] }

/-- A host that cancels the first token whenever it is called. -/
def cancellingHost : Host Unit Unit :=
  { call := fun _ _ w => .ok (.ok .unit) (w.cancel 0), callback := fun _ o => pure o,
    keeps := fun _ => [] }

/-- The token is cancelled in the state that awaits. When the outcome comes, that is noticed, the
cleanup executes, and the future of the task is settled with the cancellation. -/
theorem cancelledWait_cancellation_unwinds :
    let entry : Machine := { chain := cancelledChain, home := 0, token := some 0 }
    let waiting : Machine := { entry with current := 3 }
    let resumed : Machine := { entry with current := 4, resumption := some (.ok .unit) }
    let world (cancelled : Bool) : World Unit Unit :=
      { storages := #[{ slots := [.future 0], holders := 1 }], futures := #[{}, {}],
        tokens := #[cancelled], ext := () }
    let first := (Task.noteRun 1 entry (world false)).grasp [.future 1]
    let second := (Task.noteRun 1 resumed (world true)).grasp [.future 1]
    (waiting.step cancellingHost 18 first).2.isCancelled 0 = true ∧
      Task.Stops cancelledChain cancellingHost entry ([] ++ [⟨20, entry, first⟩]) 18 20 1
        (world false) (Task.drive cancellingHost 21 entry 1 (world false))
        (waiting.step cancellingHost 18 first) ∧
      resumed.deeds cancellingHost 20 second = [.notices 4, .executes 2 none] ∧
      Task.Unwinds cancelledChain cancellingHost none 20 resumed second 20 1 (world true)
        (Task.drive cancellingHost 21 resumed 1 (world true)) ∧
      (lastly (Task.drive cancellingHost 21 resumed 1 (world true))).outcome? 1 =
        some (.error .cancelled) := by
  intro entry waiting resumed world first second
  have hsplit : cancelledWait.split 10 = .ok (some cancelledChain) := by decide +kernel
  have huphold : cancellingHost.Upholds (·.isCancelled 0 = true) := by
    intro name args w h
    simp only [World.isCancelled, cancellingHost, World.cancel, lastly, beq_iff_eq] at h ⊢
    have hlt : 0 < w.tokens.size := (Array.getElem?_eq_some_iff.mp h).1
    simp [hlt]
  have hfaithful : cancellingHost.Faithful :=
    ⟨fun _ _ _ _ _ h => h, fun _ _ _ _ _ h => h⟩
  have hcreate : ∃ w : World Unit Unit,
      Task.create cancelledChain [.future 0] { futures := #[{}], tokens := #[false], ext := () } =
        .ok (⟨{ chain := cancelledChain, home := 0 }, 1⟩, w) := ⟨_, by with_unfolding_all rfl⟩
  have hrun : ∃ w : World Unit Unit,
      entry.run cancellingHost 20 (world false) = (.awaiting 0 { entry with current := 4 }, w) :=
    ⟨_, by with_unfolding_all rfl⟩
  let after := (resumed.run cancellingHost 20 second).2
  have hfault : resumed.run cancellingHost 20 second =
      (.fault .cancelled { entry with current := 2 }, after) := by decide +kernel
  have honward : entry.onward cancellingHost 19 first = some (waiting, first) := by
    with_unfolding_all rfl
  have hcancel : (waiting.step cancellingHost 18 first).2.isCancelled 0 = true := by decide +kernel
  have hdeeds : resumed.deeds cancellingHost 20 second = [.notices 4, .executes 2 none] := by
    with_unfolding_all rfl
  obtain ⟨w, hcreate⟩ := hcreate
  obtain ⟨w', hrun⟩ := hrun
  have hmem : ⟨18, waiting, first⟩ ∈ entry.moments cancellingHost 20 first := by
    rw [Machine.moments, honward]
    exact mem_cons_of_mem _ mem_cons_self
  have hunwinds := (cancellation_unwinds hsplit huphold hcreate (.resumed .start hrun (.ok .unit))
    20 1 (world true)).1 rfl
  refine ⟨hcancel, ?_, hdeeds, hunwinds, ?_⟩
  · exact (cancellation_unwinds hsplit huphold hcreate .start 20 1 (world false)).2 _ hmem hcancel
  · exact (hunwinds.fails _ _ _ hfault).settles hfaithful (by decide) (by decide +kernel)
      (by decide +kernel)

end Resumable

import Resumable.Proofs.Distinct
import Resumable.Proofs.Scopes
import Resumable.Proofs.WellFormed

namespace Resumable

open List Stmt

variable {x : String} {st : State} {v : Captured} {caught params : List String} {k : Slot}
  {origin : Origin} {states : List State}

/-! Uses of a variable are its loose occurrences and those below its bindings. -/

namespace Hoist

/-- The occurrences in a catch clause. -/
def usesOfClause : Option Catch → List Use
  | none => []
  | some (.mk x b) => x.toList.map (⟨·, true⟩) ++ usesOfBlock b

/-- The occurrences in a cleanup. -/
def usesOfCleanup : Option (List Stmt) → List Use
  | none => []
  | some b => usesOfBlock b

theorem usesOfStmt_attempt (m : Mark) (b : Block) (c : Option Catch) (f : Option Block) :
    usesOfStmt (.attempt m b c f) = usesOfBlock b ++ usesOfClause c ++ usesOfCleanup f := by
  match c, f with
  | none, none | none, some _ | some (.mk ..), none | some (.mk ..), some _ =>
    simp [usesOfStmt, usesOfClause, usesOfCleanup]

/-- Every occurrence is a use. -/
def Shown (os : List Occurrence) (us : List Use) : Prop :=
  ∀ o ∈ os, ∃ u ∈ us, u.name = o.name

namespace Shown

variable {os os' : List Occurrence} {us us' : List Use}

theorem append (h : Shown os us) (h' : Shown os' us') : Shown (os ++ os') (us ++ us') := by
  intro o ho
  rcases mem_append.mp ho with ho | ho
  · obtain ⟨u, hu, hn⟩ := h o ho
    exact ⟨u, mem_append_left _ hu, hn⟩
  · obtain ⟨u, hu, hn⟩ := h' o ho
    exact ⟨u, mem_append_right _ hu, hn⟩

theorem more (h : Shown os us) (us' : List Use) : Shown os (us' ++ us) := by
  intro o ho
  obtain ⟨u, hu, hn⟩ := h o ho
  exact ⟨u, mem_append_right _ hu, hn⟩

theorem without (h : Shown os us) (xs : List String) : Shown (Occurrence.without xs os) us :=
  fun o ho => h o (Occurrence.mem_without.mp ho).1

theorem single (x : String) (r : Role) (w : Bool) : Shown [⟨x, r⟩] [⟨x, w⟩] := by
  intro o ho
  cases mem_singleton.mp ho
  exact ⟨_, mem_singleton.mpr rfl, rfl⟩

end Shown

mutual

theorem shown_expr (e : Expr) : Shown e.loose (usesOfExpr e) := by
  match e with
  | .var m x => exact .single x _ _
  | .binary m op l r => exact (shown_expr l).append (shown_expr r)
  | .unary m op e | .await m e => exact shown_expr e
  | .call m c es =>
    refine Shown.append ?_ (shown_exprs es)
    have hc := shown_expr c
    cases c with
    | var m x => exact .single x _ _
    | _ => exact hc
  | .lambda m ps b => exact (shown_block b).without ps
  | .unit m | .bool m _ | .int m _ | .str m _ | .captured m _ | .resume m => exact nofun

theorem shown_exprs (es : List Expr) : Shown (Expr.looseIn es) (usesOfExprs es) := by
  match es with
  | [] => exact nofun
  | e :: es => exact (shown_expr e).append (shown_exprs es)

theorem shown_stmt (s : Stmt) : Shown s.loose (usesOfStmt s) := by
  match s with
  | .bind m x e =>
    have hx : Shown [] [⟨x, true⟩] := nofun
    have h := (shown_expr e).append hx
    rwa [append_nil] at h
  | .assign m x e => exact (shown_expr e).append (.single x _ _)
  | .store m k e | .eval m e | .throw m e | .yield m e | .ret m (some e) => exact shown_expr e
  | .cond m t a b => exact ((shown_expr t).append (shown_block a)).append (shown_block b)
  | .loop m t b => exact (shown_expr t).append (shown_block b)
  | .attempt m b c f =>
    rw [usesOfStmt_attempt]
    refine ((shown_block b).append ?_).append ?_
    · match c with
      | none => exact nofun
      | some (.mk x cb) => exact ((shown_block cb).without _).more _
    · match f with
      | none => exact nofun
      | some fb => exact shown_block fb
  | .block m b => exact shown_block b
  | .ret m none | .yieldBreak m | .brk m | .cont m => exact nofun

theorem shown_block (ss : List Stmt) : Shown (Stmt.looseIn ss) (usesOfBlock ss) := by
  match ss with
  | [] => exact nofun
  | s :: ss => exact (shown_stmt s).append ((shown_block ss).without _)

end

/-- Every use is a loose occurrence, or of a name that is bound inside. -/
def Sighted (us : List Use) (os : List Occurrence) (βs : List Binder) : Prop :=
  ∀ u ∈ us, u.name ∈ Binder.names βs ∨
    ∃ o ∈ os, o.name = u.name ∧ (u.writes = true → o.role = .written)

namespace Sighted

variable {us us' : List Use} {os os' : List Occurrence} {βs βs' : List Binder}

theorem append (h : Sighted us os βs) (h' : Sighted us' os' βs') :
    Sighted (us ++ us') (os ++ os') (βs ++ βs') := by
  intro u hu
  simp only [Binder.names, map_append, mem_append] at h h' hu ⊢
  rcases hu with hu | hu
  · rcases h u hu with hb | ⟨o, ho, hn⟩
    · exact .inl (.inl hb)
    · exact .inr ⟨o, .inl ho, hn⟩
  · rcases h' u hu with hb | ⟨o, ho, hn⟩
    · exact .inl (.inr hb)
    · exact .inr ⟨o, .inr ho, hn⟩

theorem below (h : Sighted us os βs) (xs : List String) (γs : List Binder)
    (hx : ∀ x ∈ xs, x ∈ Binder.names γs) :
    Sighted us (Occurrence.without xs os) (γs ++ βs) := by
  intro u hu
  rcases h u hu with hb | ⟨o, ho, hn, hw⟩
  · exact .inl (by simp only [Binder.names, map_append]; exact mem_append_right _ hb)
  · by_cases hm : o.name ∈ xs
    · refine .inl ?_
      simp only [Binder.names, map_append]
      exact mem_append_left _ (hn ▸ hx _ hm)
    · exact .inr ⟨o, Occurrence.mem_without.mpr ⟨ho, hm⟩, hn, hw⟩

end Sighted

mutual

theorem sighted_expr (e : Expr) : Sighted (usesOfExpr e) e.loose e.binders := by
  match e with
  | .var m x =>
    intro u hu
    cases mem_singleton.mp hu
    exact .inr ⟨_, mem_singleton.mpr rfl, rfl, nofun⟩
  | .binary m op l r => exact (sighted_expr l).append (sighted_expr r)
  | .unary m op e | .await m e => exact sighted_expr e
  | .call m c es =>
    refine Sighted.append ?_ (sighted_exprs es)
    have hc := sighted_expr c
    cases c with
    | var m x =>
      intro u hu
      cases mem_singleton.mp hu
      exact .inr ⟨_, mem_singleton.mpr rfl, rfl, nofun⟩
    | _ => exact hc
  | .lambda m ps b => exact (sighted_block b).below _ _ fun x hx => by simpa [Binder.names] using hx
  | .unit m | .bool m _ | .int m _ | .str m _ | .captured m _ | .resume m => exact nofun

theorem sighted_exprs (es : List Expr) :
    Sighted (usesOfExprs es) (Expr.looseIn es) (Expr.bindersIn es) := by
  match es with
  | [] => exact nofun
  | e :: es => exact (sighted_expr e).append (sighted_exprs es)

theorem sighted_stmt (s : Stmt) : Sighted (usesOfStmt s) s.loose s.binders := by
  match s with
  | .bind m x e =>
    have hx : Sighted [⟨x, true⟩] [] [⟨x, .variable⟩] := by
      intro u hu
      cases mem_singleton.mp hu
      exact .inl (mem_singleton.mpr rfl)
    have h := (sighted_expr e).append hx
    rwa [append_nil] at h
  | .assign m x e =>
    have hx : Sighted [⟨x, true⟩] [⟨x, .written⟩] [] := by
      intro u hu
      cases mem_singleton.mp hu
      exact .inr ⟨_, mem_singleton.mpr rfl, rfl, fun _ => rfl⟩
    have h := (sighted_expr e).append hx
    rwa [append_nil] at h
  | .store m k e | .eval m e | .throw m e | .yield m e | .ret m (some e) => exact sighted_expr e
  | .cond m t a b => exact ((sighted_expr t).append (sighted_block a)).append (sighted_block b)
  | .loop m t b => exact (sighted_expr t).append (sighted_block b)
  | .attempt m b c f =>
    rw [usesOfStmt_attempt]
    refine ((sighted_block b).append ?_).append ?_
    · match c with
      | none => exact nofun
      | some (.mk x cb) =>
        have h := (sighted_block cb).below x.toList (x.toList.map (⟨·, .fault⟩))
          fun y hy => by simpa [Binder.names] using hy
        intro u hu
        rcases mem_append.mp hu with hu | hu
        · obtain ⟨y, hy, rfl⟩ := mem_map.mp hu
          exact .inl (mem_map.mpr
            ⟨_, mem_append_left _ (mem_map.mpr ⟨y, hy, rfl⟩), rfl⟩)
        · exact h u hu
    · match f with
      | none => exact nofun
      | some fb => exact sighted_block fb
  | .block m b => exact sighted_block b
  | .ret m none | .yieldBreak m | .brk m | .cont m => exact nofun

theorem sighted_block (ss : List Stmt) :
    Sighted (usesOfBlock ss) (Stmt.looseIn ss) (Stmt.bindersIn ss) := by
  match ss with
  | [] => exact nofun
  | s :: ss =>
    have h := (sighted_block ss).below s.binds s.binders fun x hx =>
      mem_map.mpr ⟨_, mem_binders_of_binds hx, rfl⟩
    intro u hu
    rcases mem_append.mp hu with hu | hu
    · rcases sighted_stmt s u hu with hb | ⟨o, ho, hn⟩
      · exact .inl (by simp only [bindersIn, Binder.names, map_append];
                       exact mem_append_left _ hb)
      · exact .inr ⟨o, mem_append_left _ ho, hn⟩
    · rcases h u hu with hb | ⟨o, ho, hn⟩
      · exact .inl hb
      · exact .inr ⟨o, mem_append_right _ ho, hn⟩

end

theorem mem_usesOfBlock_of_binds {ss : Block} (h : x ∈ Stmt.bindsIn ss) :
    ⟨x, true⟩ ∈ usesOfBlock ss := by
  induction ss with
  | nil => cases h
  | cons s ss ih =>
    rcases mem_append.mp h with h | h
    · refine mem_append_left _ ?_
      cases s with
      | bind m y e =>
        cases mem_singleton.mp h
        simp [usesOfStmt]
      | _ => cases h
    · exact mem_append_right _ (ih h)

end Hoist

/-- The loose occurrences of a state. -/
def State.loose (st : State) : List Occurrence :=
  Stmt.looseIn st.body ++
    Occurrence.without (Stmt.bindsIn st.body) (st.exit.expr?.elim [] Expr.loose)

namespace Hoist

theorem sighted_state (st : State) : Sighted (usesOfState st) st.loose st.binders := by
  have hbinds : ∀ x ∈ bindsIn st.body, x ∈ Binder.names (bindersIn st.body) := fun x hx =>
    mem_map.mpr ⟨_, mem_bindersIn_of_bindsIn hx, rfl⟩
  have hexit : Sighted (st.exit.expr?.elim [] usesOfExpr) (st.exit.expr?.elim [] Expr.loose)
      st.exit.binders := by
    unfold Terminator.binders
    cases st.exit.expr? with
    | none => exact nofun
    | some e => exact sighted_expr e
  intro u hu
  rcases mem_append.mp hu with hu | hu
  · rcases sighted_block st.body u hu with hb | ⟨o, ho, hn⟩
    · refine .inl ?_
      simp only [State.binders, Binder.names, map_append]
      exact mem_append_left _ hb
    · exact .inr ⟨o, mem_append_left _ ho, hn⟩
  · rcases hexit.below _ _ hbinds u hu with hb | ⟨o, ho, hn⟩
    · exact .inl hb
    · exact .inr ⟨o, mem_append_right _ ho, hn⟩

theorem shown_state (st : State) : Shown st.loose (usesOfState st) := by
  refine (shown_block st.body).append (Shown.without ?_ _)
  cases st.exit.expr? with
  | none => exact nofun
  | some e => exact shown_expr e

/-- The state writes the variable. -/
def Writes (st : State) (x : String) : Prop :=
  ∃ u ∈ usesOfState st, u.name = x ∧ u.writes = true

/-- The state touches the variable. -/
def Touches (st : State) (x : String) : Prop :=
  ∃ u ∈ usesOfState st, u.name = x

theorem isShared_iff {uses : List (StateId × Use)} :
    isShared uses x = true ↔ ∃ s u s' u', (s, u) ∈ uses ∧ u.name = x ∧ u.writes = true ∧
      (s', u') ∈ uses ∧ u'.name = x ∧ s ≠ s' := by
  unfold isShared
  constructor
  · intro h
    split at h
    · cases h
    · next first u hf =>
      have hu := find?_some hf
      obtain ⟨⟨s', u'⟩, hm, hp⟩ := any_eq_true.mp h
      simp only [Bool.and_eq_true, beq_iff_eq, bne_iff_ne] at hu hp
      exact ⟨first, u, s', u', mem_of_find?_eq_some hf, hu.2, hu.1, hm, hp.1, Ne.symm hp.2⟩
  · rintro ⟨s, u, s', u', hm, hx, hw, hm', hx', hne⟩
    split
    · next hf =>
      have := find?_eq_none.mp hf (s, u) hm
      simp [hx, hw] at this
    · next first v hf =>
      apply any_eq_true.mpr
      by_cases hs : s = first
      · exact ⟨(s', u'), hm', by simp [hx', ← hs, Ne.symm hne]⟩
      · exact ⟨(s, u), hm, by simp [hx, hs]⟩

end Hoist

namespace Manifest

/-- Every variable knows its name. -/
def Labelled (m : Manifest) : Prop :=
  ∀ p ∈ m.vars, p.2.name = p.1

theorem Labelled.insert {m : Manifest} (h : m.Labelled) (name : String) (origin : Origin) :
    (m.insert name origin).Labelled := by
  unfold Manifest.insert
  split
  · exact h
  · intro p hp
    rcases mem_append.mp hp with hp | hp
    · exact h p hp
    · cases mem_singleton.mp hp
      rfl

theorem Labelled.insertAll {m : Manifest} (h : m.Labelled) (names : List String) (origin : Origin) :
    (m.insertAll names origin).Labelled := by
  induction names generalizing m with
  | nil => exact h
  | cons name names ih => exact ih (h.insert name origin)

theorem mem_insert {m : Manifest} {name : String} (h : v ∈ (m.insert name origin).toList) :
    v ∈ m.toList ∨ v.name = name := by
  unfold insert at h
  split at h
  · exact .inl h
  · simp only [toList, map_append, mem_append] at h
    rcases h with h | h
    · exact .inl h
    · cases mem_singleton.mp h
      exact .inr rfl

theorem mem_insertAll {m : Manifest} {names : List String}
    (h : v ∈ (m.insertAll names origin).toList) : v ∈ m.toList ∨ v.name ∈ names := by
  induction names generalizing m with
  | nil => exact .inl h
  | cons name names ih =>
    rcases ih h with h | h
    · rcases mem_insert h with h | rfl
      · exact .inl h
      · exact .inr mem_cons_self
    · exact .inr (mem_cons_of_mem _ h)

theorem mem_of_slotOf? {m : Manifest} (h : m.Labelled) (hx : m.slotOf? x = some k) :
    ∃ v ∈ m.toList, v.name = x := by
  obtain ⟨v, hv, -⟩ := Option.map_eq_some_iff.mp hx
  have hm : (x, v) ∈ m.vars := mem_of_lookup hv
  exact ⟨v, mem_map.mpr ⟨_, hm, rfl⟩, h _ hm⟩

end Manifest

namespace Hoist

/-- Whatever has a slot is a parameter, comes from a clause, or is shared. -/
theorem mem_manifest (h : v ∈ (manifest states params caught).toList) :
    v.name ∈ params ∨ v.name ∈ caught ∨
      isShared (usesOfStates states) v.name = true := by
  rcases Manifest.mem_insertAll h with h | h
  · rcases Manifest.mem_insertAll h with h | h
    · rcases Manifest.mem_insertAll h with h | h
      · cases h
      · exact .inl h
    · exact .inr (.inl h)
  · exact .inr (.inr (mem_filter.mp h).2)

theorem labelled_manifest (states : List State) (params caught : List String) :
    (manifest states params caught).Labelled := by
  have hnil : ({} : Manifest).Labelled := nofun
  exact ((hnil.insertAll params .parameter).insertAll caught .caught).insertAll _ .shared

theorem slotOf?_shared (h : isShared (usesOfStates states) x = true) :
    ((manifest states params caught).slotOf? x).isSome := by
  refine Manifest.slotOf?_insertAll (.inl (mem_filter.mpr ⟨?_, h⟩))
  obtain ⟨s, u, -, -, hm, hx, -⟩ := isShared_iff.mp h
  exact mem_eraseDups.mpr (mem_map.mpr ⟨_, hm, hx⟩)

end Hoist

theorem Layout.Furnished.loose {T : Table} {P : Occurrence → Prop} {B : Nat → List String} {s : Nat}
    (h : Furnished T P B s st) : Reached P (B s) st.loose := by
  refine Reached.append.mpr ⟨h.body, Reached.without.mpr ?_⟩
  have he := h.exit
  cases hx : st.exit.expr? with
  | none => exact Reached.nil
  | some e => exact he e hx

namespace Compiled

open Layout Hoist

variable {m : Method} {kind : Kind} {c : Chain}

theorem binders_renumber (ρ : StateId → StateId) (η : HandlerId → HandlerId) (st : State) :
    (Reduce.renumberState ρ η st).binders = st.binders := by
  rw [State.binders, Reduce.renumberState, Terminator.binders, Terminator.expr?_mapStates]
  rfl

section

variable (C : Compiled m kind c)
include C

/-- Leaving out states and giving them new numbers keeps bindings apart. -/
theorem distinct_rest (hm : m.bound.Nodup) : Distinct C.rest m.params := by
  have hd := C.distinct hm
  refine ⟨?_, ?_, ?_, hd.caught⟩
  · intro k st hst
    obtain ⟨s, old, -, hold, -, rfl⟩ := C.shrinks.onto k st hst
    rw [binders_renumber]
    exact hd.once s old hold
  · intro j k st st' hst hst' x hx hx'
    obtain ⟨s, old, -, hold, rfl, rfl⟩ := C.shrinks.onto j st hst
    obtain ⟨u, old', -, hold', rfl, rfl⟩ := C.shrinks.onto k st' hst'
    rw [binders_renumber] at hx hx'
    rw [hd.apart s u old old' hold hold' x hx hx']
  · intro k st hst x hx
    obtain ⟨s, old, -, hold, -, rfl⟩ := C.shrinks.onto k st hst
    rw [binders_renumber] at hx
    exact hd.outside s old hold x hx

theorem mem_binders_of_rest {k : Nat} (hst : C.small.1[k]? = some st)
    {β : Binder} (hβ : β ∈ st.binders) : β ∈ Stmt.bindersIn m.body := by
  obtain ⟨s, old, -, hold, -, rfl⟩ := C.shrinks.onto k st hst
  rw [binders_renumber] at hβ
  exact C.mem_binders_of_state hold hβ

theorem isShared_iff :
    isShared (usesOfStates C.small.1) x = true ↔ ∃ (i j : Nat) (st st' : State), i ≠ j ∧
      C.small.1[i]? = some st ∧ C.small.1[j]? = some st' ∧ Writes st x ∧ Touches st' x := by
  have hid := C.shrinks.numbered.state
  rw [Hoist.isShared_iff]
  constructor
  · rintro ⟨i, u, j, u', hm, hx, hw, hm', hx', hne⟩
    obtain ⟨st, hst, hu⟩ := mem_flatMap.mp hm
    obtain ⟨st', hst', hu'⟩ := mem_flatMap.mp hm'
    obtain ⟨v, hv, he⟩ := mem_map.mp hu
    obtain ⟨v', hv', he'⟩ := mem_map.mp hu'
    cases he
    cases he'
    obtain ⟨k, hk⟩ := mem_iff_getElem?.mp hst
    obtain ⟨k', hk'⟩ := mem_iff_getElem?.mp hst'
    rw [hid k st hk, hid k' st' hk'] at hne
    exact ⟨k, k', st, st', hne, hk, hk', ⟨u, hv, hx, hw⟩, ⟨u', hv', hx'⟩⟩
  · rintro ⟨i, j, st, st', hne, hst, hst', ⟨u, hu, hx, hw⟩, ⟨u', hu', hx'⟩⟩
    refine ⟨st.id, u, st'.id, u', ?_, hx, hw, ?_, hx', ?_⟩
    · exact mem_flatMap.mpr
        ⟨st, mem_iff_getElem?.mpr ⟨i, hst⟩, mem_map.mpr ⟨u, hu, rfl⟩⟩
    · exact mem_flatMap.mpr
        ⟨st', mem_iff_getElem?.mpr ⟨j, hst'⟩, mem_map.mpr ⟨u', hu', rfl⟩⟩
    · rw [hid i st hst, hid j st' hst']
      exact hne

theorem slotOf?_cases (h : c.captures.slotOf? x = some k) :
    x ∈ m.params ∨ x ∈ C.table.caught ∨ isShared (usesOfStates C.small.1) x = true := by
  rw [C.captures] at h
  obtain ⟨v, hv, rfl⟩ := Manifest.mem_of_slotOf? (labelled_manifest _ _ _) h
  exact mem_manifest hv

/-- A loose occurrence of a state is loose in the body, or belongs to a variable or a clause. -/
theorem loose_cases {k : Nat} (hst : C.small.1[k]? = some st)
    {o : Occurrence} (ho : o ∈ st.loose) :
    o ∈ Stmt.looseIn m.body ∨ ∃ s, s ≠ .argument ∧ ⟨o.name, s⟩ ∈ Stmt.bindersIn m.body := by
  have hr : Reached (· ∈ looseIn m.body) [] (looseIn m.body) := fun o ho => .inl ho
  obtain ⟨B, -, hB⟩ := C.furnish hr
  obtain ⟨hf, horigin⟩ := hB k st hst
  rcases hf.loose o ho with h | h
  · exact .inl h
  · refine .inr ?_
    rcases horigin _ h with h | h | ⟨j, st', -, hst', h⟩
    · cases h
    · exact ⟨.fault, nofun, C.mem_binders_of_caught h⟩
    · refine ⟨.variable, nofun, C.mem_binders_of_rest hst' ?_⟩
      exact mem_append_left _ (mem_bindersIn_of_bindsIn h)

/-- What has a slot is a parameter, a variable or a caught fault. A name without a binding has one
only if it is assigned to, or has the name of an argument. -/
theorem isShared_cases (hm : m.bound.Nodup)
    (h : isShared (usesOfStates C.small.1) x = true) :
    (∃ s, s ≠ .argument ∧ ⟨x, s⟩ ∈ Stmt.bindersIn m.body) ∨
      ∃ o ∈ Stmt.looseIn m.body, o.name = x ∧
        (o.role = .written ∨ ⟨x, .argument⟩ ∈ Stmt.bindersIn m.body) := by
  obtain ⟨i, j, st, st', hne, hst, hst', ⟨u, hu, rfl, hw⟩, ⟨u', hu', hx'⟩⟩ := C.isShared_iff.mp h
  rcases sighted_state st u hu with hb | ⟨o, ho, hn, hrole⟩
  · obtain ⟨β, hβ, hname⟩ := mem_map.mp hb
    obtain ⟨y, s⟩ := β
    cases hname
    by_cases hs : s = .argument
    · -- An argument is bound in one state only, so its occurrence in the other one is loose there.
      subst hs
      rcases sighted_state st' u' hu' with hb' | ⟨o, ho, hn, -⟩
      · rw [hx'] at hb'
        exact absurd ((C.distinct_rest hm).apart i j st st' hst hst' _ hb hb') hne
      · rcases C.loose_cases hst' ho with hl | hl
        · exact .inr ⟨o, hl, hn.trans hx', .inr (C.mem_binders_of_rest hst hβ)⟩
        · rw [hn, hx'] at hl
          exact .inl hl
    · exact .inl ⟨s, hs, C.mem_binders_of_rest hst hβ⟩
  · rcases C.loose_cases hst ho with hl | hl
    · exact .inr ⟨o, hl, hn, .inl (hrole hw)⟩
    · rw [hn] at hl
      exact .inl hl

end

end Compiled

end Resumable

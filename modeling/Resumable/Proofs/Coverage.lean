import Resumable.Proofs.Captures

namespace Resumable

open List Stmt

variable {o : Occurrence} {x : String} {xs : List String} {g : Handler} {ss : Block}

/-- The slots that a statement sets for the statements after it. -/
def Stmt.sets : Stmt → List Slot
  | .store _ k _ => [k]
  | _ => []

/-- The slots set by the statements of a block themselves. -/
def Stmt.setsIn (ss : Block) : List Slot :=
  ss.flatMap Stmt.sets

mutual

/-- The slots that an expression reads, or a closure that it makes. -/
def Expr.reads : Expr → List Slot
  | .captured _ k => [k]
  | .binary _ _ l r => l.reads ++ r.reads
  | .unary _ _ e | .await _ e => e.reads
  | .call _ c es => c.reads ++ Expr.readsIn es
  | .lambda _ _ b => Stmt.readsIn b
  | .unit _ | .bool .. | .int .. | .str .. | .var .. | .resume _ => []

def Expr.readsIn : List Expr → List Slot
  | [] => []
  | e :: es => e.reads ++ Expr.readsIn es

def Stmt.reads : Stmt → List Slot
  | .bind _ _ e | .assign _ _ e | .store _ _ e | .eval _ e | .throw _ e | .yield _ e
  | .ret _ (some e) => e.reads
  | .cond _ t a b => t.reads ++ Stmt.readsIn a ++ Stmt.readsIn b
  | .loop _ t b => t.reads ++ Stmt.readsIn b
  | .attempt _ b c f => Stmt.readsIn b ++ Stmt.clauseReads c ++ Stmt.cleanupReads f
  | .block _ b => Stmt.readsIn b
  | .ret _ none | .yieldBreak _ | .brk _ | .cont _ => []

def Stmt.clauseReads : Option Catch → List Slot
  | none => []
  | some (.mk _ b) => Stmt.readsIn b

def Stmt.cleanupReads : Option (List Stmt) → List Slot
  | none => []
  | some b => Stmt.readsIn b

/-- The slots that a block reads before it has set them. -/
def Stmt.readsIn : List Stmt → List Slot
  | [] => []
  | s :: ss => s.reads ++ (Stmt.readsIn ss).filter fun k => !s.sets.contains k

end

theorem Stmt.mem_readsIn_cons {s : Stmt} {k : Slot} :
    k ∈ Stmt.readsIn (s :: ss) ↔ k ∈ s.reads ∨ k ∈ Stmt.readsIn ss ∧ k ∉ s.sets := by
  simp [readsIn]

namespace Hoist

/-- The first occurrences are those of the second that have no slot. -/
def Left (M : Manifest) (os' os : List Occurrence) : Prop :=
  ∀ o ∈ os', o ∈ os ∧ M.slotOf? o.name = none

/-- The slots belong to names that occur. -/
def Drawn (M : Manifest) (ks : List Slot) (os : List Occurrence) : Prop :=
  ∀ k ∈ ks, ∃ o ∈ os, M.slotOf? o.name = some k

/-- Arguments and caught faults have no slots. -/
def Kept (M : Manifest) (βs : List Binder) : Prop :=
  ∀ β ∈ βs, β.sort ≠ .variable → M.slotOf? β.name = none

section

variable {M : Manifest} {os os' ps ps' : List Occurrence} {ks js : List Slot} {βs γs : List Binder}

theorem Left.append (h : Left M os' os) (h' : Left M ps' ps) : Left M (os' ++ ps') (os ++ ps) := by
  intro o ho
  rcases mem_append.mp ho with ho | ho
  · exact ⟨mem_append_left _ (h o ho).1, (h o ho).2⟩
  · exact ⟨mem_append_right _ (h' o ho).1, (h' o ho).2⟩

theorem Left.without (h : Left M os' os) (xs : List String) :
    Left M (Occurrence.without xs os') (Occurrence.without xs os) := by
  intro o ho
  obtain ⟨hm, hx⟩ := Occurrence.mem_without.mp ho
  exact ⟨Occurrence.mem_without.mpr ⟨(h o hm).1, hx⟩, (h o hm).2⟩

theorem Drawn.append (h : Drawn M ks os) (h' : Drawn M js ps) : Drawn M (ks ++ js) (os ++ ps) := by
  intro k hk
  rcases mem_append.mp hk with hk | hk
  · obtain ⟨o, ho, hs⟩ := h k hk
    exact ⟨o, mem_append_left _ ho, hs⟩
  · obtain ⟨o, ho, hs⟩ := h' k hk
    exact ⟨o, mem_append_right _ ho, hs⟩

/-- Names without slots can be left out. -/
theorem Drawn.without (h : Drawn M ks os) (hx : ∀ x ∈ xs, M.slotOf? x = none) :
    Drawn M ks (Occurrence.without xs os) := by
  intro k hk
  obtain ⟨o, ho, hs⟩ := h k hk
  refine ⟨o, Occurrence.mem_without.mpr ⟨ho, fun hm => ?_⟩, hs⟩
  rw [hx _ hm] at hs
  cases hs

theorem Kept.append (h : Kept M (βs ++ γs)) : Kept M βs ∧ Kept M γs :=
  ⟨fun β hβ => h β (mem_append_left _ hβ), fun β hβ => h β (mem_append_right _ hβ)⟩

/-- Either a variable keeps its binding or its slot is set instead. -/
theorem binds_hoistStmt (M : Manifest) (s : Stmt) (hx : x ∈ s.binds) :
    M.slotOf? x = none ∧ x ∈ (hoistStmt M s).binds ∨
      ∃ k, M.slotOf? x = some k ∧ k ∈ (hoistStmt M s).sets := by
  cases s with
  | bind m y e =>
    obtain rfl : x = y := by simpa [binds] using hx
    cases hk : M.slotOf? x with
    | none => exact .inl ⟨rfl, by simp [hoistStmt, hk, binds]⟩
    | some k => exact .inr ⟨k, rfl, by simp [hoistStmt, hk, sets]⟩
  | _ => cases hx

theorem binds_hoistBlock (M : Manifest) (ss : Block) (hx : x ∈ Stmt.bindsIn ss) :
    M.slotOf? x = none ∧ x ∈ Stmt.bindsIn (hoistBlock M ss) ∨
      ∃ k, M.slotOf? x = some k ∧ k ∈ Stmt.setsIn (hoistBlock M ss) := by
  obtain ⟨s, hs, hx⟩ := mem_flatMap.mp hx
  have hm : hoistStmt M s ∈ hoistBlock M ss := by
    rw [hoistBlock_eq_map]
    exact mem_map.mpr ⟨s, hs, rfl⟩
  rcases binds_hoistStmt M s hx with ⟨hn, hx⟩ | ⟨k, hk, hs⟩
  · exact .inl ⟨hn, mem_flatMap.mpr ⟨_, hm, hx⟩⟩
  · exact .inr ⟨k, hk, mem_flatMap.mpr ⟨_, hm, hs⟩⟩

end

mutual

theorem left_expr (M : Manifest) (e : Expr) : Left M (hoistExpr M e).loose e.loose := by
  match e with
  | .var m x =>
    cases hk : M.slotOf? x with
    | none =>
      intro o ho
      simp only [hoistExpr, hk, Expr.loose, mem_singleton] at ho
      subst ho
      exact ⟨mem_singleton.mpr rfl, hk⟩
    | some k =>
      intro o ho
      simp [hoistExpr, hk, Expr.loose] at ho
  | .binary m op l r => exact (left_expr M l).append (left_expr M r)
  | .unary m op e | .await m e => exact left_expr M e
  | .call m c es =>
    refine Left.append ?_ (left_exprs M es)
    have hc := left_expr M c
    match c with
    | .var m' x =>
      intro o ho
      cases hk : M.slotOf? x with
      | none =>
        simp only [hoistExpr, hk, Expr.called, mem_singleton] at ho
        subst ho
        exact ⟨mem_singleton.mpr rfl, hk⟩
      | some k => simp [hoistExpr, hk, Expr.called, Expr.loose] at ho
    | .unit _ | .bool .. | .int .. | .str .. | .captured .. | .resume _ | .binary .. | .unary ..
    | .call .. | .lambda .. | .await .. => exact hc
  | .lambda m ps b => exact (left_block M b).without ps
  | .unit _ | .bool .. | .int .. | .str .. | .captured .. | .resume _ => exact nofun

theorem left_exprs (M : Manifest) (es : List Expr) :
    Left M (Expr.looseIn (hoistExprs M es)) (Expr.looseIn es) := by
  match es with
  | [] => exact nofun
  | e :: es => exact (left_expr M e).append (left_exprs M es)

theorem left_stmt (M : Manifest) (s : Stmt) : Left M (hoistStmt M s).loose s.loose := by
  match s with
  | .bind m x e =>
    have he := left_expr M e
    cases hk : M.slotOf? x with
    | none => rwa [hoistStmt, hk]
    | some k => rwa [hoistStmt, hk]
  | .assign m x e =>
    have he := left_expr M e
    cases hk : M.slotOf? x with
    | none =>
      rw [hoistStmt, hk]
      refine he.append fun o ho => ?_
      cases mem_singleton.mp ho
      exact ⟨mem_singleton.mpr rfl, hk⟩
    | some k =>
      rw [hoistStmt, hk]
      exact fun o ho => ⟨mem_append_left _ (he o ho).1, (he o ho).2⟩
  | .store m k e | .eval m e | .throw m e | .yield m e | .ret m (some e) => exact left_expr M e
  | .cond m t a b => exact ((left_expr M t).append (left_block M a)).append (left_block M b)
  | .loop m t b => exact (left_expr M t).append (left_block M b)
  | .attempt m b c f =>
    rw [hoistStmt_attempt]
    exact ((left_block M b).append (left_clause M c)).append (left_cleanup M f)
  | .block m b => exact left_block M b
  | .ret m none | .yieldBreak m | .brk m | .cont m => exact nofun

theorem left_clause (M : Manifest) (c : Option Catch) :
    Left M (Stmt.looseClause (hoistClause M c)) (Stmt.looseClause c) := by
  match c with
  | none => exact nofun
  | some (.mk x b) => exact (left_block M b).without x.toList

theorem left_cleanup (M : Manifest) (f : Option (List Stmt)) :
    Left M (Stmt.looseCleanup (hoistCleanup M f)) (Stmt.looseCleanup f) := by
  match f with
  | none => exact nofun
  | some b => exact left_block M b

theorem left_block (M : Manifest) (ss : List Stmt) :
    Left M (Stmt.looseIn (hoistBlock M ss)) (Stmt.looseIn ss) := by
  match ss with
  | [] => exact nofun
  | s :: ss =>
    refine (left_stmt M s).append fun o ho => ?_
    obtain ⟨ho, hb⟩ := Occurrence.mem_without.mp ho
    obtain ⟨hm, hn⟩ := left_block M ss o ho
    refine ⟨Occurrence.mem_without.mpr ⟨hm, fun hx => ?_⟩, hn⟩
    rcases binds_hoistStmt M s hx with ⟨-, hx⟩ | ⟨k, hk, -⟩
    · exact hb hx
    · rw [hn] at hk
      cases hk

end

mutual

theorem drawn_expr {M : Manifest} (e : Expr) (hs : e.slots = []) (hk : Kept M e.binders) :
    Drawn M (hoistExpr M e).reads e.loose := by
  match e with
  | .var m x =>
    cases hx : M.slotOf? x with
    | none =>
      intro k hm
      simp [hoistExpr, hx, Expr.reads] at hm
    | some k =>
      intro j hj
      simp only [hoistExpr, hx, Expr.reads, mem_singleton] at hj
      exact ⟨_, mem_singleton.mpr rfl, hj ▸ hx⟩
  | .binary m op l r =>
    obtain ⟨hl, hr⟩ := append_eq_nil_iff.mp hs
    exact (drawn_expr l hl hk.append.1).append (drawn_expr r hr hk.append.2)
  | .unary m op e | .await m e => exact drawn_expr e hs hk
  | .call m c es =>
    obtain ⟨hc, hes⟩ := append_eq_nil_iff.mp hs
    refine Drawn.append ?_ (drawn_exprs es hes hk.append.2)
    have h := drawn_expr c hc hk.append.1
    match c with
    | .var m' x =>
      intro k hm
      obtain ⟨o, ho, hn⟩ := h k hm
      obtain rfl := mem_singleton.mp ho
      exact ⟨_, mem_singleton.mpr rfl, hn⟩
    | .unit _ | .bool .. | .int .. | .str .. | .captured .. | .resume _ | .binary .. | .unary ..
    | .call .. | .lambda .. | .await .. => exact h
  | .lambda m ps b =>
    refine (drawn_block b hs hk.append.2).without fun x hx => ?_
    exact hk ⟨x, .argument⟩ (mem_append_left _ (mem_map.mpr ⟨x, hx, rfl⟩)) nofun
  | .unit _ | .bool .. | .int .. | .str .. | .resume _ => exact nofun

theorem drawn_exprs {M : Manifest} (es : List Expr) (hs : Expr.slotsIn es = [])
    (hk : Kept M (Expr.bindersIn es)) :
    Drawn M (Expr.readsIn (hoistExprs M es)) (Expr.looseIn es) := by
  match es with
  | [] => exact nofun
  | e :: es =>
    obtain ⟨he, hes⟩ := append_eq_nil_iff.mp hs
    exact (drawn_expr e he hk.append.1).append (drawn_exprs es hes hk.append.2)

theorem drawn_stmt {M : Manifest} (s : Stmt) (hs : s.slots = []) (hk : Kept M s.binders) :
    Drawn M (hoistStmt M s).reads s.loose := by
  match s with
  | .bind m x e =>
    have he := drawn_expr e hs hk.append.1
    cases hx : M.slotOf? x with
    | none => rwa [hoistStmt, hx]
    | some k => rwa [hoistStmt, hx]
  | .assign m x e =>
    have he := drawn_expr e hs hk
    have hmore : Drawn M (hoistExpr M e).reads (e.loose ++ [⟨x, .written⟩]) := by
      intro k hm
      obtain ⟨o, ho, hn⟩ := he k hm
      exact ⟨o, mem_append_left _ ho, hn⟩
    cases hx : M.slotOf? x with
    | none => rwa [hoistStmt, hx]
    | some k => rwa [hoistStmt, hx]
  | .store m k e => cases hs
  | .eval m e | .throw m e | .yield m e | .ret m (some e) => exact drawn_expr e hs hk
  | .cond m t a b =>
    obtain ⟨h, hb⟩ := append_eq_nil_iff.mp hs
    obtain ⟨ht, ha⟩ := append_eq_nil_iff.mp h
    obtain ⟨hk, hkb⟩ := hk.append
    obtain ⟨hkt, hka⟩ := hk.append
    exact ((drawn_expr t ht hkt).append (drawn_block a ha hka)).append (drawn_block b hb hkb)
  | .loop m t b =>
    obtain ⟨ht, hb⟩ := append_eq_nil_iff.mp hs
    exact (drawn_expr t ht hk.append.1).append (drawn_block b hb hk.append.2)
  | .attempt m b c f =>
    obtain ⟨h, hf⟩ := append_eq_nil_iff.mp hs
    obtain ⟨hb, hc⟩ := append_eq_nil_iff.mp h
    obtain ⟨hk, hkf⟩ := hk.append
    obtain ⟨hkb, hkc⟩ := hk.append
    rw [hoistStmt_attempt]
    exact ((drawn_block b hb hkb).append (drawn_clause c hc hkc)).append (drawn_cleanup f hf hkf)
  | .block m b => exact drawn_block b hs hk
  | .ret m none | .yieldBreak m | .brk m | .cont m => exact nofun

theorem drawn_clause {M : Manifest} (c : Option Catch) (hs : Stmt.clauseSlots c = [])
    (hk : Kept M (Stmt.clauseBinders c)) :
    Drawn M (Stmt.clauseReads (hoistClause M c)) (Stmt.looseClause c) := by
  match c with
  | none => exact nofun
  | some (.mk x b) =>
    refine (drawn_block b hs hk.append.2).without fun y hy => ?_
    exact hk ⟨y, .fault⟩ (mem_append_left _ (mem_map.mpr ⟨y, hy, rfl⟩)) nofun

theorem drawn_cleanup {M : Manifest} (f : Option (List Stmt)) (hs : Stmt.cleanupSlots f = [])
    (hk : Kept M (Stmt.cleanupBinders f)) :
    Drawn M (Stmt.cleanupReads (hoistCleanup M f)) (Stmt.looseCleanup f) := by
  match f with
  | none => exact nofun
  | some b => exact drawn_block b hs hk

theorem drawn_block {M : Manifest} (ss : List Stmt) (hs : Stmt.slotsIn ss = [])
    (hk : Kept M (Stmt.bindersIn ss)) :
    Drawn M (Stmt.readsIn (hoistBlock M ss)) (Stmt.looseIn ss) := by
  match ss with
  | [] => exact nofun
  | s :: ss =>
    obtain ⟨hs, hss⟩ := append_eq_nil_iff.mp hs
    refine (drawn_stmt s hs hk.append.1).append fun k hm => ?_
    obtain ⟨hm, hset⟩ : k ∈ readsIn (hoistBlock M ss) ∧ k ∉ (hoistStmt M s).sets := by
      simpa using hm
    obtain ⟨o, ho, hn⟩ := drawn_block ss hss hk.append.2 k hm
    refine ⟨o, Occurrence.mem_without.mpr ⟨ho, fun hx => ?_⟩, hn⟩
    rcases binds_hoistStmt M s hx with ⟨hnone, -⟩ | ⟨j, hj, hj'⟩
    · rw [hnone] at hn
      cases hn
    · rw [hn] at hj
      cases hj
      exact hset hj'

end

end Hoist

/-- What is called by its name need not be bound: the host may know it. -/
abbrev Called (o : Occurrence) : Prop :=
  o.role = .called

/-- The slots that have been set when control comes to a state are enough for it, and it leads only
to states that need no more than these and what it sets itself. -/
structure Chain.Supplied (c : Chain) (W : StateId → List Slot) : Prop where
  entry : W Chain.entry ⊆ c.params
  names : ∀ (s : Nat) st, c.states[s]? = some st → Reached Called [] (Stmt.looseIn st.body)
  slots : ∀ (s : Nat) st, c.states[s]? = some st → Stmt.readsIn st.body ⊆ W s
  exit : ∀ (s : Nat) st, c.states[s]? = some st → ∀ e ∈ st.exit.expr?,
    Reached Called (Stmt.bindsIn st.body) e.loose ∧ e.reads ⊆ W s ++ Stmt.setsIn st.body
  next : ∀ (s : Nat) st, c.states[s]? = some st → ∀ t ∈ st.exit.successors,
    W t ⊆ W s ++ Stmt.setsIn st.body
  clause : ∀ s, ∀ g ∈ c.covering s, ∀ l ∈ g.clause, W l.entry ⊆ l.slot.toList ++ W s
  cleanup : ∀ s, ∀ g ∈ c.covering s, ∀ f ∈ g.cleanup, W f ⊆ W s

namespace Compiled

open Layout Hoist

variable {m : Method} {kind : Kind} {c : Chain}
variable {k : Nat} {st : State}

/-- The slots of some names. -/
def slotsOf (c : Chain) (xs : List String) : List Slot :=
  xs.filterMap c.captures.slotOf?

theorem mem_slotsOf {k : Slot} : k ∈ slotsOf c xs ↔ ∃ x ∈ xs, c.captures.slotOf? x = some k := by
  rw [slotsOf, mem_filterMap]

section

variable (C : Compiled m kind c)
include C

theorem slots_small (hs : Stmt.slotsIn m.body = [])
    (hst : C.small.1[k]? = some st) : st.slots = [] := by
  obtain ⟨d, hd, htable⟩ := C.drafted
  obtain ⟨s, old, -, hold, -, rfl⟩ := C.shrinks.onto k st hst
  rw [htable] at hold
  have h := Splitting.slots_splitBody hd hs s old hold
  rwa [State.slots, Reduce.renumberState, Terminator.expr?_mapStates]

/-- An argument, or a fault that is caught inside of a state, is bound there and nowhere else. -/
theorem unbound_elsewhere (hm : m.bound.Nodup) {j : Nat} {st' : State}
    (hst : C.small.1[j]? = some st) (hst' : C.small.1[k]? = some st') {β : Binder}
    (hβ : β ∈ st.binders) (hs : β.sort ≠ .variable) : β.name ∉ Stmt.bindsIn st'.body := by
  intro hx
  have hd := C.distinct_rest hm
  have hv : ⟨β.name, .variable⟩ ∈ st'.binders :=
    mem_append_left _ (mem_bindersIn_of_bindsIn hx)
  have hj := hd.apart j k st st' hst hst' β.name (mem_map.mpr ⟨β, hβ, rfl⟩)
    (mem_map.mpr ⟨_, hv, rfl⟩)
  subst hj
  cases hst.symm.trans hst'
  have heq := inj_on_of_nodup_map (hd.once j st hst) hβ hv rfl
  exact hs (congrArg Binder.sort heq)

/-- A name that occurs in a state and has been bound outside of it has a slot. -/
theorem slot_of_origin (hst : C.small.1[k]? = some st) (ho : o ∈ st.loose)
    (hx : o.name ∈ m.params ∨ o.name ∈ C.table.caught ∨ ∃ (j : Nat) (st' : State), j ≠ k ∧
      C.small.1[j]? = some st' ∧ o.name ∈ Stmt.bindsIn st'.body) :
    ∃ i, c.captures.slotOf? o.name = some i := by
  rw [← Option.isSome_iff_exists, C.captures]
  rcases hx with hx | hx | ⟨j, st', hne, hst', hx⟩
  · exact slotOf?_manifest (.inl hx)
  · exact slotOf?_manifest (.inr hx)
  · obtain ⟨u, hu, hn⟩ := shown_state st o ho
    refine slotOf?_shared (C.isShared_iff.mpr ⟨j, k, st', st, hne, hst', hst, ?_, u, hu, hn⟩)
    exact ⟨_, mem_append_left _ (mem_usesOfBlock_of_binds hx), rfl, rfl⟩

/-- What has a slot is bound somewhere in the method, if what occurs without a binding is only
called and has a name of its own. -/
theorem mem_bound_of_slot (hm : m.bound.Nodup) (hs : m.Scoped) {k : Slot}
    (h : c.captures.slotOf? x = some k) : x ∈ m.bound := by
  rcases C.slotOf?_cases h with hx | hx | hx
  · exact mem_append_left _ hx
  · exact Method.mem_bound_of_binders (C.mem_binders_of_caught hx)
  · rcases C.isShared_cases hm hx with ⟨s, -, hb⟩ | ⟨o, ho, rfl, hw⟩
    · exact Method.mem_bound_of_binders hb
    · by_cases hp : o.name ∈ m.params
      · exact mem_append_left _ hp
      · obtain ⟨hr, -⟩ := hs o (Occurrence.mem_without.mpr ⟨ho, hp⟩)
        rcases hw with hw | hb
        · rw [hr] at hw
          cases hw
        · exact Method.mem_bound_of_binders hb

end

/-- What occurs without a binding: a name that is called, and that nothing in the method binds. -/
def Free (m : Method) (o : Occurrence) : Prop :=
  o.role = .called ∧ o.name ∉ m.bound

/-- Names expected at each state: enough for it, and none without a binding elsewhere. -/
def Expected (C : Compiled m kind c) (B : Nat → List String) : Prop :=
  ∀ (k : Nat) st, C.small.1[k]? = some st → Furnished C.rest (Free m) B k st ∧
    ∀ x ∈ B k, x ∈ m.params ∨ x ∈ C.table.caught ∨ ∃ (j : Nat) (st' : State), j ≠ k ∧
      C.small.1[j]? = some st' ∧ x ∈ Stmt.bindsIn st'.body

section

variable {C : Compiled m kind c} {B : Nat → List String} {k : Nat} {st : State}

/-- An argument, or a fault caught inside of a state, has no slot: no other state knows it. -/
theorem Expected.kept (hB : C.Expected B) (hm : m.bound.Nodup) (hst : C.small.1[k]? = some st) :
    Kept c.captures st.binders := by
  intro β hβ hs
  have hd := C.distinct_rest hm
  have hname : β.name ∈ Binder.names st.binders := mem_map.mpr ⟨β, hβ, rfl⟩
  obtain ⟨hcaught, hparams⟩ := hd.outside k st hst _ hname
  have helse : ∀ (u : Nat) st', C.small.1[u]? = some st' → u ≠ k → ¬ Touches st' β.name := by
    rintro u st' hst' hne ⟨use, huse, hn⟩
    rcases sighted_state st' use huse with hb | ⟨o, ho, ho', -⟩
    · rw [hn] at hb
      exact hne (hd.apart u k st' st hst' hst _ hb hname)
    · obtain ⟨hf, horigin⟩ := hB u st' hst'
      rw [hn] at ho'
      rcases hf.loose o ho with ⟨-, hfree⟩ | hx
      · exact hfree (ho' ▸ Method.mem_bound_of_binders (C.mem_binders_of_rest hst hβ))
      · rw [ho'] at hx
        rcases horigin _ hx with h | h | ⟨v, st'', -, hst'', h⟩
        · exact hparams h
        · exact hcaught h
        · exact C.unbound_elsewhere hm hst hst'' hβ hs h
  cases hk : c.captures.slotOf? β.name with
  | none => rfl
  | some i =>
    exfalso
    rcases C.slotOf?_cases hk with h | h | h
    · exact hparams h
    · exact hcaught h
    · obtain ⟨u, v, st₁, st₂, hne, hst₁, hst₂, ⟨use, huse, hn, -⟩, ht⟩ := C.isShared_iff.mp h
      by_cases hu : u = k
      · exact helse v st₂ hst₂ (fun hv => hne (hu.trans hv.symm)) ht
      · exact helse u st₁ hst₁ hu ⟨use, huse, hn⟩

/-- An expected name that occurs in the state has a slot. -/
theorem Expected.slot (hB : C.Expected B) (hst : C.small.1[k]? = some st) (ho : o ∈ st.loose)
    (hx : o.name ∈ B k) : c.captures.slotOf? o.name ≠ none := by
  intro hn
  obtain ⟨i, hi⟩ := C.slot_of_origin hst ho ((hB k st hst).2 _ hx)
  rw [hn] at hi
  cases hi

theorem Free.slot (C : Compiled m kind c) (hm : m.bound.Nodup) (hs : m.Scoped) (ho : Free m o)
    {i : Slot} : c.captures.slotOf? o.name ≠ some i :=
  fun hi => ho.2 (C.mem_bound_of_slot hm hs hi)

/-- Names that are bound inside of a state keep their binding or get a slot that is set there. -/
theorem mem_slots_of_subset {ys : List String} (h : xs ⊆ ys ++ Stmt.bindsIn ss) :
    slotsOf c xs ⊆ slotsOf c ys ++ Stmt.setsIn (hoistBlock c.captures ss) := by
  intro i hi
  obtain ⟨x, hx, hk⟩ := mem_slotsOf.mp hi
  rcases mem_append.mp (h hx) with hx | hx
  · exact mem_append_left _ (mem_slotsOf.mpr ⟨x, hx, hk⟩)
  · rcases binds_hoistBlock c.captures ss hx with ⟨hn, -⟩ | ⟨j, hj, hset⟩
    · rw [hn] at hk
      cases hk
    · rw [hk] at hj
      cases hj
      exact mem_append_right _ hset

section

variable (hB : C.Expected B)
include hB

theorem Expected.names (hst : C.small.1[k]? = some st) :
    Reached Called [] (Stmt.looseIn (hoistBlock c.captures st.body)) := by
  intro o ho
  obtain ⟨hm, hn⟩ := left_block c.captures st.body o ho
  rcases (hB k st hst).1.body o hm with h | h
  · exact .inl h.1
  · exact absurd hn (hB.slot hst (mem_append_left _ hm) h)

section

variable (hm : m.bound.Nodup) (hs : m.Scoped) (hsource : Stmt.slotsIn m.body = [])
  (hst : C.small.1[k]? = some st)
include hm hs hsource hst

theorem Expected.slots : Stmt.readsIn (hoistBlock c.captures st.body) ⊆ slotsOf c (B k) := by
  intro i hi
  have hslots := (append_eq_nil_iff.mp (C.slots_small hsource hst)).1
  obtain ⟨o, ho, hn⟩ := drawn_block st.body hslots (hB.kept hm hst).append.1 i hi
  rcases (hB k st hst).1.body o ho with h | h
  · exact absurd hn (h.slot C hm hs)
  · exact mem_slotsOf.mpr ⟨_, h, hn⟩

theorem Expected.exit {e : Expr}
    (he : st.exit.expr? = some e) :
    Reached Called (Stmt.bindsIn (hoistBlock c.captures st.body)) (hoistExpr c.captures e).loose ∧
      (hoistExpr c.captures e).reads ⊆
        slotsOf c (B k) ++ Stmt.setsIn (hoistBlock c.captures st.body) := by
  have hf := (hB k st hst).1.exit e he
  have hslots : e.slots = [] := by
    have h := (append_eq_nil_iff.mp (C.slots_small hsource hst)).2
    rwa [he] at h
  have hkept : Kept c.captures e.binders := by
    have h := (hB.kept hm hst).append.2
    rwa [Terminator.binders, he] at h
  have hloose : ∀ o ∈ e.loose, o.name ∉ bindsIn st.body → o ∈ st.loose := by
    intro o ho hb
    refine mem_append_right _ (Occurrence.mem_without.mpr ⟨?_, hb⟩)
    rwa [he]
  constructor
  · intro o ho
    obtain ⟨hm', hn⟩ := left_expr c.captures e o ho
    rcases hf o hm' with h | h
    · exact .inl h.1
    · by_cases hb : o.name ∈ bindsIn st.body
      · rcases binds_hoistBlock c.captures st.body hb with ⟨-, hb⟩ | ⟨i, hi, -⟩
        · exact .inr hb
        · rw [hn] at hi
          cases hi
      · have hx := (mem_append.mp h).resolve_right hb
        exact absurd hn (hB.slot hst (hloose o hm' hb) hx)
  · intro i hi
    obtain ⟨o, ho, hn⟩ := drawn_expr e hslots hkept i hi
    rcases hf o ho with h | h
    · exact absurd hn (h.slot C hm hs)
    · have hx : [o.name] ⊆ B k ++ bindsIn st.body :=
        cons_subset.mpr ⟨h, nil_subset _⟩
      exact mem_slots_of_subset hx (mem_slotsOf.mpr ⟨_, mem_singleton.mpr rfl, hn⟩)

end

theorem Expected.faults (hst : C.small.1[k]? = some st)
    (hg : g ∈ Handler.outward C.small.2 C.small.2.length st.handler) :
    (∀ l ∈ (hoistHandler c.captures g).clause,
        slotsOf c (B l.entry) ⊆ l.slot.toList ++ slotsOf c (B k)) ∧
      ∀ f ∈ g.cleanup, slotsOf c (B f) ⊆ slotsOf c (B k) := by
  obtain ⟨hclause, hcleanup⟩ := (hB k st hst).1.faults g hg
  constructor
  · intro l' hl' i hi
    obtain ⟨l, hl, rfl⟩ := Option.map_eq_some_iff.mp hl'
    obtain ⟨x, hx, hk⟩ := mem_slotsOf.mp hi
    rcases mem_append.mp (hclause l hl hx) with hx | hx
    · refine mem_append_left _ ?_
      rw [Option.mem_toList] at hx ⊢
      exact Option.bind_eq_some_iff.mpr ⟨x, hx, hk⟩
    · exact mem_append_right _ (mem_slotsOf.mpr ⟨x, hx, hk⟩)
  · intro f hf i hi
    obtain ⟨x, hx, hk⟩ := mem_slotsOf.mp hi
    exact mem_slotsOf.mpr ⟨x, hcleanup f hf hx, hk⟩

end

end

theorem state_hoisted (C : Compiled m kind c) (hst : c.states[k]? = some st) :
    ∃ old, C.small.1[k]? = some old ∧ st = hoistState c.captures old := by
  rw [C.states, getElem?_map] at hst
  obtain ⟨old, hold, rfl⟩ := Option.map_eq_some_iff.mp hst
  exact ⟨old, hold, rfl⟩

theorem covering_hoisted (C : Compiled m kind c) (hg : g ∈ c.covering k) :
    ∃ old g', C.small.1[k]? = some old ∧
      g' ∈ Handler.outward C.small.2 C.small.2.length old.handler ∧
      g = hoistHandler c.captures g' := by
  rw [Chain.covering] at hg
  cases hst : c.states[k]? with
  | none =>
    rw [hst, Option.bind_none, Reduce.outward_none] at hg
    cases hg
  | some st =>
    obtain ⟨old, hold, rfl⟩ := C.state_hoisted hst
    rw [hst, Option.bind_some, C.handlers, length_map, Regions.outward_hoist] at hg
    obtain ⟨g', hg', rfl⟩ := mem_map.mp hg
    exact ⟨old, g', hold, hg', rfl⟩

/-- Whatever a scoped method reads has been set before. -/
theorem supplied (C : Compiled m kind c) (hm : m.bound.Nodup) (hs : m.Scoped)
    (hsource : Stmt.slotsIn m.body = []) : ∃ W, c.Supplied W := by
  have hr : Reached (Free m) m.params (looseIn m.body) := by
    intro o ho
    by_cases hp : o.name ∈ m.params
    · exact .inr hp
    · exact .inl (hs o (Occurrence.mem_without.mpr ⟨ho, hp⟩))
  obtain ⟨B, hentry, hB⟩ := C.furnish hr
  have hB : C.Expected B := hB
  refine ⟨fun k => slotsOf c (B k), ?_, ?_, ?_, ?_, ?_, ?_, ?_⟩
  · rw [hentry, slotsOf, C.params]
    exact List.Subset.refl _
  · intro k st hst
    obtain ⟨old, hold, rfl⟩ := C.state_hoisted hst
    exact hB.names hold
  · intro k st hst
    obtain ⟨old, hold, rfl⟩ := C.state_hoisted hst
    exact hB.slots hm hs hsource hold
  · intro k st hst e' he'
    obtain ⟨old, hold, rfl⟩ := C.state_hoisted hst
    rw [hoistState, Terminator.expr?_mapExpr] at he'
    obtain ⟨e, he, rfl⟩ := Option.map_eq_some_iff.mp he'
    exact hB.exit hm hs hsource hold he
  · intro k st hst t ht
    obtain ⟨old, hold, rfl⟩ := C.state_hoisted hst
    rw [hoistState, Terminator.successors_mapExpr] at ht
    exact mem_slots_of_subset ((hB k old hold).1.next t ht)
  · intro k g hg l hl
    obtain ⟨old, g', hold, hg', rfl⟩ := C.covering_hoisted hg
    exact (hB.faults hold hg').1 l hl
  · intro k g hg f hf
    obtain ⟨old, g', hold, hg', rfl⟩ := C.covering_hoisted hg
    exact (hB.faults hold hg').2 f hf

end Compiled

theorem Method.supplied {m : Method} {limit : Nat} {c : Chain} (hm : ∀ x ∈ m.names, Unmarked x)
    (hs : m.Scoped) (hsource : Stmt.slotsIn m.body = []) (h : m.split limit = .ok (some c)) :
    ∃ W, c.Supplied W := by
  obtain ⟨kind, -, hc⟩ := m.exists_of_split h
  obtain ⟨C⟩ := Method.compiled hc
  exact C.supplied (Method.nodup_bound_rename hm) (hs.rename hm) (m.slots_rename.trans hsource)

end Resumable

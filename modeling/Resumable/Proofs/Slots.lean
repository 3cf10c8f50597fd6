import Resumable.Proofs.Measures
import Resumable.Proofs.Names
import Resumable.Splitting.Method
import Mathlib.Logic.Basic

namespace Resumable

open List Stmt

variable {m : Manifest} {x : String} {t : Terminator} {s : Stmt} {e : Expr} {k : Slot} {kind : Kind}
  {loops : List LoopEnds} {origin : Origin} {ss : Block}

mutual

/-- The slots read in an expression, also inside of its lambdas. -/
def Expr.slots : Expr → List Slot
  | .captured _ k => [k]
  | .binary _ _ l r => l.slots ++ r.slots
  | .unary _ _ e | .await _ e => e.slots
  | .call _ c es => c.slots ++ Expr.slotsIn es
  | .lambda _ _ b => Stmt.slotsIn b
  | .unit _ | .bool .. | .int .. | .str .. | .var .. | .resume _ => []

def Expr.slotsIn : List Expr → List Slot
  | [] => []
  | e :: es => e.slots ++ Expr.slotsIn es

/-- The slots read or written in a statement. -/
def Stmt.slots : Stmt → List Slot
  | .store _ k e => k :: e.slots
  | .bind _ _ e | .assign _ _ e | .eval _ e | .throw _ e | .yield _ e | .ret _ (some e) => e.slots
  | .cond _ t a b => t.slots ++ Stmt.slotsIn a ++ Stmt.slotsIn b
  | .loop _ t b => t.slots ++ Stmt.slotsIn b
  | .attempt _ b c f => Stmt.slotsIn b ++ Stmt.clauseSlots c ++ Stmt.cleanupSlots f
  | .block _ b => Stmt.slotsIn b
  | .ret _ none | .yieldBreak _ | .brk _ | .cont _ => []

def Stmt.clauseSlots : Option Catch → List Slot
  | none => []
  | some (.mk _ b) => Stmt.slotsIn b

def Stmt.cleanupSlots : Option (List Stmt) → List Slot
  | none => []
  | some b => Stmt.slotsIn b

def Stmt.slotsIn : List Stmt → List Slot
  | [] => []
  | s :: ss => s.slots ++ Stmt.slotsIn ss

end

/-- The slots named in a state. -/
def State.slots (st : State) : List Slot :=
  Stmt.slotsIn st.body ++ st.exit.expr?.elim [] Expr.slots

/-! Renaming. -/

namespace Binding

mutual

theorem slots_renameExpr (scope : Scope) (e : Expr) (b : Bound) :
    (renameExpr scope e b).1.slots = e.slots := by
  match e with
  | .binary m op l r =>
    exact congrArg₂ (· ++ ·) (slots_renameExpr scope l _) (slots_renameExpr scope r _)
  | .unary m op e | .await m e => exact slots_renameExpr scope e _
  | .call m c es =>
    exact congrArg₂ (· ++ ·) (slots_renameExpr scope c _) (slots_renameExprs scope es _)
  | .lambda m ps body => exact slots_renameBlock _ body _
  | .unit m | .bool m _ | .int m _ | .str m _ | .var m _ | .captured m _ | .resume m => rfl

theorem slots_renameExprs (scope : Scope) (es : List Expr) (b : Bound) :
    Expr.slotsIn (renameExprs scope es b).1 = Expr.slotsIn es := by
  match es with
  | [] => rfl
  | e :: es =>
    exact congrArg₂ (· ++ ·) (slots_renameExpr scope e _) (slots_renameExprs scope es _)

theorem slots_renameStmt (scope : Scope) (s : Stmt) (b : Bound) :
    (renameStmt scope s b).1.1.slots = s.slots := by
  match s with
  | .bind m x e | .assign m x e | .eval m e | .throw m e | .yield m e | .ret m (some e) =>
    exact slots_renameExpr scope e _
  | .store m k e => exact congrArg (k :: ·) (slots_renameExpr scope e _)
  | .cond m t x y =>
    exact congrArg₂ (· ++ ·)
      (congrArg₂ (· ++ ·) (slots_renameExpr scope t _) (slots_renameBlock scope x _))
      (slots_renameBlock scope y _)
  | .loop m t x =>
    exact congrArg₂ (· ++ ·) (slots_renameExpr scope t _) (slots_renameBlock scope x _)
  | .attempt m x c f =>
    exact congrArg₂ (· ++ ·)
      (congrArg₂ (· ++ ·) (slots_renameBlock scope x _) (slots_renameClause scope c _))
      (slots_renameCleanup scope f _)
  | .block m x => exact slots_renameBlock scope x _
  | .ret m none | .yieldBreak m | .brk m | .cont m => rfl

theorem slots_renameClause (scope : Scope) (c : Option Catch) (b : Bound) :
    Stmt.clauseSlots (renameClause scope c b).1 = Stmt.clauseSlots c := by
  match c with
  | none => rfl
  | some (.mk none x) => exact slots_renameBlock scope x _
  | some (.mk (some y) x) => exact slots_renameBlock _ x _

theorem slots_renameCleanup (scope : Scope) (f : Option (List Stmt)) (b : Bound) :
    Stmt.cleanupSlots (renameCleanup scope f b).1 = Stmt.cleanupSlots f := by
  match f with
  | none => rfl
  | some x => exact slots_renameBlock scope x _

theorem slots_renameBlock (scope : Scope) (ss : List Stmt) (b : Bound) :
    Stmt.slotsIn (renameBlock scope ss b).1 = Stmt.slotsIn ss := by
  match ss with
  | [] => rfl
  | s :: ss =>
    exact congrArg₂ (· ++ ·) (slots_renameStmt scope s _) (slots_renameBlock _ ss _)

end

end Binding

theorem Method.slots_rename (m : Method) : Stmt.slotsIn m.rename.body = Stmt.slotsIn m.body :=
  Binding.slots_renameBlock _ m.body _

theorem Method.length_params_rename (m : Method) : m.rename.params.length = m.params.length :=
  Binding.length_declareAll [] m.params []

/-! Splitting. -/

namespace Measure

/-- How many slots are named. -/
def slots : Measure where
  stmt s := s.slots.length
  exit t := (t.expr?.elim [] Expr.slots).length

theorem sum_slots (ss : Block) : (ss.map fun s => s.slots.length).sum = (slotsIn ss).length := by
  induction ss with
  | nil => rfl
  | cons s ss ih => simp [slotsIn, ih]

theorem counts_slots : slots.Counts fun s => s.slots.length where
  mapExits f t := by simp only [slots, Splitting.expr?_mapExits]
  goto _ := rfl
  enter _ _ := rfl
  endCleanup := rfl
  complete := rfl
  unreachable := rfl
  flat _ _ := rfl
  receive s e s' r hr he := by cases hr <;> simp [slots, Stmt.slots, Expr.slots, Terminator.expr?]
  yield m e r he := rfl
  leave loops s t hl := by cases hl <;> rfl
  value m e t he := rfl
  value_await m m' e r t he := rfl
  cond m t a b y n hn ht := by simp [sum_slots, slots, Stmt.slots, Terminator.expr?]
  cond_await m m' e a b r y n he := by
    simp [sum_slots, slots, Stmt.slots, Expr.slots, Terminator.expr?]
  loop m t b y n hn ht := by simp [sum_slots, slots, Stmt.slots, Terminator.expr?]
  loop_await m m' e b r y n he := by
    simp [sum_slots, slots, Stmt.slots, Expr.slots, Terminator.expr?]
  group s b hg hn := by
    cases hg <;> simp [sum_slots, Stmt.slots, clauseSlots, cleanupSlots]
  caught m b x cb hn := by
    simp [sum_slots, slots, faults, Stmt.slots, clauseSlots, cleanupSlots]
  cleaned m b fb hn hf := by
    simp [sum_slots, slots, block, Stmt.slots, clauseSlots, cleanupSlots]
  both m b x cb fb hn hf := by
    simp [sum_slots, slots, block, faults, Stmt.slots, clauseSlots, cleanupSlots, Nat.add_assoc]

end Measure

/-- Splitting code without slots makes states without slots. -/
theorem Splitting.slots_splitBody {body : Block} {d : Draft} (h : splitBody kind body = .ok d)
    (hs : Stmt.slotsIn body = []) :
    ∀ (i : Nat) st, d.table.states[i]? = some st → st.slots = [] := by
  intro i st hst
  have htotal := total_splitBody Measure.counts_slots h
  rw [Measure.sum_slots, hs, length_nil, Draft.total,
    ← d.states_table (f := fun e => (e.elim [] Expr.slots).length) fun _ => rfl] at htotal
  have hle := Measure.slots.state_le_states hst
  simp only [Measure.state, Measure.block, Measure.slots, Measure.sum_slots] at hle htotal
  apply eq_nil_of_length_eq_zero
  rw [State.slots, length_append]
  omega

/-! Hoisting. -/

namespace Manifest

/-- Every variable knows its place. -/
def Ordered (m : Manifest) : Prop :=
  ∀ (k : Nat) v, m.vars[k]? = some v → v.2.slot = k

theorem Ordered.insert (h : m.Ordered) (name : String) (origin : Origin) :
    (m.insert name origin).Ordered := by
  unfold Manifest.insert
  split
  · exact h
  · intro k v hv
    rw [getElem?_append] at hv
    split at hv
    · exact h k v hv
    · obtain ⟨hk, rfl⟩ := List.getElem?_eq_some_iff.mp hv
      rename_i hlt
      have hk : k = m.vars.length := by
        simp only [length_singleton] at hk
        omega
      simp [size, hk]

theorem Ordered.insertAll (h : m.Ordered) (names : List String) (origin : Origin) :
    (m.insertAll names origin).Ordered := by
  induction names generalizing m with
  | nil => exact h
  | cons name names ih => exact ih (h.insert name origin)

theorem exists_of_slotOf? (h : m.Ordered) (hx : m.slotOf? x = some k) :
    ∃ v, m.vars[k]? = some (x, v) := by
  obtain ⟨v, hv, rfl⟩ := Option.map_eq_some_iff.mp hx
  obtain ⟨l₁, l₂, hl, -⟩ := lookup_eq_some_iff.mp hv
  have hget : m.vars[l₁.length]? = some (x, v) := by rw [hl]; simp
  exact ⟨v, (h _ _ hget : v.slot = l₁.length) ▸ hget⟩

theorem lt_size_of_slotOf? (h : m.Ordered) (hx : m.slotOf? x = some k) : k < m.size := by
  obtain ⟨v, hv⟩ := exists_of_slotOf? h hx
  exact (List.getElem?_eq_some_iff.mp hv).1

/-- A name keeps its slot while others get theirs. -/
theorem slotOf?_insert {y : String} (h : x = y ∨ (m.slotOf? x).isSome) :
    ((m.insert y origin).slotOf? x).isSome := by
  unfold Manifest.insert
  split
  · rename_i v hv
    rcases h with rfl | h
    · simp [slotOf?, hv]
    · exact h
  · rename_i hnone
    simp only [slotOf?, find?, Option.isSome_map, Named.get?, lookup_append] at h hnone ⊢
    rcases h with rfl | h
    · simp [hnone]
    · simp [Option.isSome_or, h]

theorem slotOf?_insertAll {names : List String} (h : x ∈ names ∨ (m.slotOf? x).isSome) :
    ((m.insertAll names origin).slotOf? x).isSome := by
  induction names generalizing m with
  | nil => simpa [insertAll] using h
  | cons y names ih =>
    apply ih
    rcases h with h | h
    · rcases mem_cons.mp h with rfl | h
      · exact .inr (slotOf?_insert (.inl rfl))
      · exact .inl h
    · exact .inr (slotOf?_insert (.inr h))

end Manifest

namespace Hoist

/-- Parameters and the names that clauses bind have slots. -/
theorem slotOf?_manifest {states : List State} {params caught : List String}
    (h : x ∈ params ∨ x ∈ caught) : ((manifest states params caught).slotOf? x).isSome := by
  apply Manifest.slotOf?_insertAll
  refine .inr (Manifest.slotOf?_insertAll ?_)
  rcases h with h | h
  · exact .inr (Manifest.slotOf?_insertAll (.inl h))
  · exact .inl h

theorem ordered_manifest (states : List State) (params caught : List String) :
    (manifest states params caught).Ordered := by
  have hnil : ({} : Manifest).Ordered := nofun
  exact ((hnil.insertAll params .parameter).insertAll caught .caught).insertAll _ .shared

/-- Hoisting inside of a catch clause. -/
def hoistClause (m : Manifest) : Option Catch → Option Catch
  | none => none
  | some (.mk x b) => some (.mk x (hoistBlock m b))

def hoistCleanup (m : Manifest) : Option Block → Option Block
  | none => none
  | some b => some (hoistBlock m b)

theorem hoistStmt_attempt (m : Manifest) (mark : Mark) (b : Block) (c : Option Catch)
    (f : Option Block) :
    hoistStmt m (.attempt mark b c f) =
      .attempt mark (hoistBlock m b) (hoistClause m c) (hoistCleanup m f) := by
  rcases c with - | ⟨x, cb⟩ <;> cases f <;> simp only [hoistStmt, hoistClause, hoistCleanup]

theorem hoistBlock_eq_map (m : Manifest) (ss : Block) : hoistBlock m ss = ss.map (hoistStmt m) := by
  induction ss with
  | nil => rfl
  | cons s ss ih => rw [hoistBlock, ih, map_cons]

section

variable {m : Manifest}

mutual

theorem slots_hoistExpr (hm : m.Ordered) (e : Expr) (h : ∀ k ∈ e.slots, k < m.size) :
    ∀ k ∈ (hoistExpr m e).slots, k < m.size := by
  match e with
  | .unit _ | .bool .. | .int .. | .str .. | .resume _ | .captured .. => exact h
  | .var _ x =>
    simp only [hoistExpr]
    split
    · rename_i k hk
      simpa [Expr.slots] using Manifest.lt_size_of_slotOf? hm hk
    · exact nofun
  | .binary _ _ l r =>
    simp only [hoistExpr, Expr.slots, forall_mem_append] at h ⊢
    exact ⟨slots_hoistExpr hm l h.1, slots_hoistExpr hm r h.2⟩
  | .unary _ _ e | .await _ e => exact slots_hoistExpr hm e h
  | .call _ c es =>
    simp only [hoistExpr, Expr.slots, forall_mem_append] at h ⊢
    exact ⟨slots_hoistExpr hm c h.1, slots_hoistExprs hm es h.2⟩
  | .lambda _ _ b => exact slots_hoistBlock hm b h

theorem slots_hoistExprs (hm : m.Ordered) (es : List Expr) (h : ∀ k ∈ Expr.slotsIn es, k < m.size) :
    ∀ k ∈ Expr.slotsIn (hoistExprs m es), k < m.size := by
  match es with
  | [] => exact h
  | e :: es =>
    simp only [hoistExprs, Expr.slotsIn, forall_mem_append] at h ⊢
    exact ⟨slots_hoistExpr hm e h.1, slots_hoistExprs hm es h.2⟩

theorem slots_hoistStmt (hm : m.Ordered) (s : Stmt) (h : ∀ k ∈ s.slots, k < m.size) :
    ∀ k ∈ (hoistStmt m s).slots, k < m.size := by
  match s with
  | .bind _ x e | .assign _ x e =>
    simp only [hoistStmt]
    split
    · rename_i k hk
      exact forall_mem_cons.mpr ⟨Manifest.lt_size_of_slotOf? hm hk, slots_hoistExpr hm e h⟩
    · exact slots_hoistExpr hm e h
  | .store _ k e =>
    simp only [hoistStmt, slots, forall_mem_cons] at h ⊢
    exact ⟨h.1, slots_hoistExpr hm e h.2⟩
  | .eval _ e | .throw _ e | .yield _ e | .ret _ (some e) => exact slots_hoistExpr hm e h
  | .cond _ t a b =>
    simp only [hoistStmt, slots, forall_mem_append] at h ⊢
    exact ⟨⟨slots_hoistExpr hm t h.1.1, slots_hoistBlock hm a h.1.2⟩, slots_hoistBlock hm b h.2⟩
  | .loop _ t b =>
    simp only [hoistStmt, slots, forall_mem_append] at h ⊢
    exact ⟨slots_hoistExpr hm t h.1, slots_hoistBlock hm b h.2⟩
  | .attempt _ b c f =>
    simp only [hoistStmt_attempt, slots, forall_mem_append] at h ⊢
    exact ⟨⟨slots_hoistBlock hm b h.1.1, slots_hoistClause hm c h.1.2⟩, slots_hoistCleanup hm f h.2⟩
  | .block _ b => exact slots_hoistBlock hm b h
  | .ret _ none | .yieldBreak _ | .brk _ | .cont _ => exact h

theorem slots_hoistClause (hm : m.Ordered) (c : Option Catch)
    (h : ∀ k ∈ Stmt.clauseSlots c, k < m.size) :
    ∀ k ∈ Stmt.clauseSlots (hoistClause m c), k < m.size := by
  match c with
  | none => exact h
  | some (.mk _ b) => exact slots_hoistBlock hm b h

theorem slots_hoistCleanup (hm : m.Ordered) (f : Option (List Stmt))
    (h : ∀ k ∈ Stmt.cleanupSlots f, k < m.size) :
    ∀ k ∈ Stmt.cleanupSlots (hoistCleanup m f), k < m.size := by
  match f with
  | none => exact h
  | some b => exact slots_hoistBlock hm b h

theorem slots_hoistBlock (hm : m.Ordered) (ss : List Stmt) (h : ∀ k ∈ Stmt.slotsIn ss, k < m.size) :
    ∀ k ∈ Stmt.slotsIn (hoistBlock m ss), k < m.size := by
  match ss with
  | [] => exact h
  | s :: ss =>
    simp only [hoistBlock, slotsIn, forall_mem_append] at h ⊢
    exact ⟨slots_hoistStmt hm s h.1, slots_hoistBlock hm ss h.2⟩

end

end

end Hoist

end Resumable

import Resumable.Proofs.Coverage

namespace Resumable

open List Stmt

/-- Where code keeps a value. -/
inductive Place where
  | name (x : String)
  | slot (k : Slot)
  deriving DecidableEq

/-- A place that code reads or writes. -/
structure Mention where
  place : Place
  writes : Bool
  deriving DecidableEq

mutual

/-- The places that an expression mentions, in the order of evaluation, also inside of lambdas. -/
def Expr.mentions : Expr → List Mention
  | .var _ x => [⟨.name x, false⟩]
  | .captured _ k => [⟨.slot k, false⟩]
  | .binary _ _ l r => l.mentions ++ r.mentions
  | .unary _ _ e | .await _ e => e.mentions
  | .call _ c es => c.mentions ++ Expr.mentionsIn es
  | .lambda _ _ b => Stmt.mentionsIn b
  | .unit _ | .bool .. | .int .. | .str .. | .resume _ => []

def Expr.mentionsIn : List Expr → List Mention
  | [] => []
  | e :: es => e.mentions ++ Expr.mentionsIn es

def Stmt.mentions : Stmt → List Mention
  | .bind _ x e | .assign _ x e => e.mentions ++ [⟨.name x, true⟩]
  | .store _ k e => e.mentions ++ [⟨.slot k, true⟩]
  | .eval _ e | .throw _ e | .yield _ e | .ret _ (some e) => e.mentions
  | .cond _ t a b => t.mentions ++ Stmt.mentionsIn a ++ Stmt.mentionsIn b
  | .loop _ t b => t.mentions ++ Stmt.mentionsIn b
  | .attempt _ b c f => Stmt.mentionsIn b ++ Stmt.clauseMentions c ++ Stmt.cleanupMentions f
  | .block _ b => Stmt.mentionsIn b
  | .ret _ none | .yieldBreak _ | .brk _ | .cont _ => []

def Stmt.clauseMentions : Option Catch → List Mention
  | none => []
  | some (.mk _ b) => Stmt.mentionsIn b

def Stmt.cleanupMentions : Option (List Stmt) → List Mention
  | none => []
  | some b => Stmt.mentionsIn b

/-- The places that a block mentions. -/
def Stmt.mentionsIn : List Stmt → List Mention
  | [] => []
  | s :: ss => s.mentions ++ Stmt.mentionsIn ss

end

/-- The places that a state mentions. -/
def State.mentions (st : State) : List Mention :=
  Stmt.mentionsIn st.body ++ st.exit.expr?.elim [] Expr.mentions

/-! Hoisting. -/

/-- The place of a variable once those of the manifest have moved to their slots. -/
def Place.hoist (m : Manifest) : Place → Place
  | .name x => (m.slotOf? x).elim (.name x) .slot
  | .slot k => .slot k

def Mention.hoist (m : Manifest) (n : Mention) : Mention :=
  { n with place := n.place.hoist m }

namespace Mention

variable {m : Manifest} {x : String} {w : Bool}

/-- What is still a variable has no slot. -/
theorem hoist_eq_name {n : Mention} :
    n.hoist m = ⟨.name x, w⟩ ↔ n = ⟨.name x, w⟩ ∧ m.slotOf? x = none := by
  obtain ⟨p, w'⟩ := n
  cases p with
  | slot k => simp [hoist, Place.hoist]
  | name y =>
    cases hy : m.slotOf? y with
    | none =>
      simp only [hoist, Place.hoist, hy, Option.elim_none, Mention.mk.injEq, Place.name.injEq]
      constructor
      · intro he
        exact ⟨he, he.1 ▸ hy⟩
      · exact fun he => he.1
    | some k =>
      simp only [hoist, Place.hoist, hy, Option.elim_some, Mention.mk.injEq, Place.name.injEq,
        reduceCtorEq, false_and, false_iff]
      intro he
      rw [← he.1.1, hy] at he
      cases he.2

theorem hoist_of_slot {k : Slot} (h : m.slotOf? x = some k) :
    Mention.hoist m ⟨.name x, w⟩ = ⟨.slot k, w⟩ := by
  simp [hoist, Place.hoist, h]

end Mention

namespace Hoist

variable (m : Manifest)

mutual

theorem mentions_hoistExpr (e : Expr) :
    (hoistExpr m e).mentions = e.mentions.map (Mention.hoist m) := by
  match e with
  | .var mark x =>
    simp only [hoistExpr, Expr.mentions, Mention.hoist, Place.hoist, map_cons, map_nil]
    cases m.slotOf? x <;> rfl
  | .binary mark op l r =>
    simp only [hoistExpr, Expr.mentions, map_append, mentions_hoistExpr l, mentions_hoistExpr r]
  | .unary mark op e | .await mark e => exact mentions_hoistExpr e
  | .call mark c es =>
    simp only [hoistExpr, Expr.mentions, map_append, mentions_hoistExpr c,
      mentions_hoistExprs es]
  | .lambda mark ps b => exact mentions_hoistBlock b
  | .unit mark | .bool mark _ | .int mark _ | .str mark _ | .captured mark _ | .resume mark => rfl

theorem mentions_hoistExprs (es : List Expr) :
    Expr.mentionsIn (hoistExprs m es) = (Expr.mentionsIn es).map (Mention.hoist m) := by
  match es with
  | [] => rfl
  | e :: es =>
    simp only [hoistExprs, Expr.mentionsIn, map_append, mentions_hoistExpr e,
      mentions_hoistExprs es]

theorem mentions_hoistStmt (s : Stmt) :
    (hoistStmt m s).mentions = s.mentions.map (Mention.hoist m) := by
  match s with
  | .bind mark x e | .assign mark x e =>
    simp only [hoistStmt, mentions, map_append, ← mentions_hoistExpr e, Mention.hoist,
      Place.hoist, map_cons, map_nil]
    cases m.slotOf? x <;> rfl
  | .store mark k e =>
    simp only [hoistStmt, mentions, map_append, mentions_hoistExpr e]
    rfl
  | .eval mark e | .throw mark e | .yield mark e | .ret mark (some e) => exact mentions_hoistExpr e
  | .cond mark t a b =>
    simp only [hoistStmt, mentions, map_append, mentions_hoistExpr t,
      mentions_hoistBlock a, mentions_hoistBlock b]
  | .loop mark t b =>
    simp only [hoistStmt, mentions, map_append, mentions_hoistExpr t,
      mentions_hoistBlock b]
  | .attempt mark b c f =>
    simp only [hoistStmt_attempt, mentions, map_append, mentions_hoistBlock b,
      mentions_hoistClause c, mentions_hoistCleanup f]
  | .block mark b => exact mentions_hoistBlock b
  | .ret mark none | .yieldBreak mark | .brk mark | .cont mark => rfl

theorem mentions_hoistClause (c : Option Catch) :
    Stmt.clauseMentions (hoistClause m c) = (Stmt.clauseMentions c).map (Mention.hoist m) := by
  match c with
  | none => rfl
  | some (.mk x b) => exact mentions_hoistBlock b

theorem mentions_hoistCleanup (f : Option (List Stmt)) :
    Stmt.cleanupMentions (hoistCleanup m f) = (Stmt.cleanupMentions f).map (Mention.hoist m) := by
  match f with
  | none => rfl
  | some b => exact mentions_hoistBlock b

theorem mentions_hoistBlock (ss : List Stmt) :
    Stmt.mentionsIn (hoistBlock m ss) = (Stmt.mentionsIn ss).map (Mention.hoist m) := by
  match ss with
  | [] => rfl
  | s :: ss =>
    simp only [hoistBlock, mentionsIn, map_append, mentions_hoistStmt s,
      mentions_hoistBlock ss]

end

theorem mentions_hoistState (st : State) :
    (hoistState m st).mentions = st.mentions.map (Mention.hoist m) := by
  rw [State.mentions, State.mentions, map_append, ← mentions_hoistBlock]
  congr 1
  simp only [hoistState, Terminator.expr?_mapExpr]
  cases st.exit.expr? with
  | none => rfl
  | some e => exact mentions_hoistExpr m e

end Hoist

/-! Mentions and uses. -/

/-- The use that a mention of a variable is. -/
def Mention.use? : Mention → Option Hoist.Use
  | ⟨.name x, w⟩ => some ⟨x, w⟩
  | ⟨.slot _, _⟩ => none

theorem Mention.use?_eq_some {n : Mention} {u : Hoist.Use} :
    n.use? = some u ↔ n = ⟨.name u.name, u.writes⟩ := by
  obtain ⟨p, w⟩ := n
  obtain ⟨x, w'⟩ := u
  cases p <;> simp [Mention.use?]

namespace Hoist

/-- The uses are the mentions of variables, and besides them only the faults that clauses bind. -/
structure Agrees (us : List Use) (ns : List Mention) (βs : List Binder) : Prop where
  sublist : (ns.filterMap Mention.use?).Sublist us
  filter : ∀ p : String → Bool, (∀ β ∈ βs, β.sort = .fault → p β.name = false) →
    us.filter (p ·.name) = (ns.filterMap Mention.use?).filter (p ·.name)

namespace Agrees

variable {us us' : List Use} {ns ns' : List Mention} {βs βs' : List Binder}

theorem nil (βs : List Binder) : Agrees [] [] βs :=
  ⟨.slnil, fun _ _ => rfl⟩

theorem name (x : String) (w : Bool) (βs : List Binder) :
    Agrees [⟨x, w⟩] [⟨.name x, w⟩] βs :=
  ⟨List.Sublist.refl _, fun _ _ => rfl⟩

theorem slot (k : Slot) (w : Bool) (βs : List Binder) : Agrees [] [⟨.slot k, w⟩] βs :=
  ⟨.slnil, fun _ _ => rfl⟩

theorem append (h : Agrees us ns βs) (h' : Agrees us' ns' βs') :
    Agrees (us ++ us') (ns ++ ns') (βs ++ βs') := by
  refine ⟨?_, fun p hp => ?_⟩
  · rw [filterMap_append]
    exact h.sublist.append h'.sublist
  · obtain ⟨hβ, hβ'⟩ := forall_mem_append.mp hp
    rw [filterMap_append, filter_append, filter_append, h.filter p hβ,
      h'.filter p hβ']

theorem more (h : Agrees us ns βs) (γs : List Binder) : Agrees us ns (γs ++ βs) :=
  ⟨h.sublist, fun p hp => h.filter p (forall_mem_append.mp hp).2⟩

/-- A clause binds its fault, which is a use and no mention. -/
theorem clause (h : Agrees us ns βs) (x : String) :
    Agrees (⟨x, true⟩ :: us) ns (⟨x, .fault⟩ :: βs) := by
  refine ⟨h.sublist.cons _, fun p hp => ?_⟩
  obtain ⟨hx, hβ⟩ := forall_mem_cons.mp hp
  rw [filter_cons_of_neg (by simp [hx rfl]), h.filter p hβ]

end Agrees

mutual

theorem agrees_expr (e : Expr) : Agrees (usesOfExpr e) e.mentions e.binders := by
  match e with
  | .binary m op l r => exact (agrees_expr l).append (agrees_expr r)
  | .unary m op e | .await m e => exact agrees_expr e
  | .call m c es => exact (agrees_expr c).append (agrees_exprs es)
  | .lambda m ps b => exact (agrees_block b).more _
  | .var m x => exact .name x false _
  | .captured m k => exact .slot k false _
  | .unit m | .bool m _ | .int m _ | .str m _ | .resume m => exact .nil _

theorem agrees_exprs (es : List Expr) :
    Agrees (usesOfExprs es) (Expr.mentionsIn es) (Expr.bindersIn es) := by
  match es with
  | [] => exact .nil _
  | e :: es => exact (agrees_expr e).append (agrees_exprs es)

theorem agrees_stmt (s : Stmt) : Agrees (usesOfStmt s) s.mentions s.binders := by
  match s with
  | .bind m x e => exact (agrees_expr e).append (.name x true _)
  | .assign m x e =>
    have h := (agrees_expr e).append (.name x true [])
    rwa [append_nil] at h
  | .store m k e =>
    have h := (agrees_expr e).append (.slot k true [])
    rwa [append_nil, append_nil] at h
  | .eval m e | .throw m e | .yield m e | .ret m (some e) => exact agrees_expr e
  | .cond m t a b => exact ((agrees_expr t).append (agrees_block a)).append (agrees_block b)
  | .loop m t b => exact (agrees_expr t).append (agrees_block b)
  | .attempt m b c f =>
    rw [usesOfStmt_attempt]
    exact ((agrees_block b).append (agrees_clause c)).append (agrees_cleanup f)
  | .block m b => exact agrees_block b
  | .ret m none | .yieldBreak m | .brk m | .cont m => exact .nil _

theorem agrees_clause (c : Option Catch) :
    Agrees (usesOfClause c) (Stmt.clauseMentions c) (Stmt.clauseBinders c) := by
  match c with
  | none => exact .nil _
  | some (.mk none b) => exact agrees_block b
  | some (.mk (some x) b) => exact (agrees_block b).clause x

theorem agrees_cleanup (f : Option (List Stmt)) :
    Agrees (usesOfCleanup f) (Stmt.cleanupMentions f) (Stmt.cleanupBinders f) := by
  match f with
  | none => exact .nil _
  | some b => exact agrees_block b

theorem agrees_block (ss : List Stmt) :
    Agrees (usesOfBlock ss) (Stmt.mentionsIn ss) (Stmt.bindersIn ss) := by
  match ss with
  | [] => exact .nil _
  | s :: ss => exact (agrees_stmt s).append (agrees_block ss)

end

theorem agrees_state (st : State) : Agrees (usesOfState st) st.mentions st.binders := by
  refine (agrees_block st.body).append ?_
  unfold Terminator.binders
  cases st.exit.expr? with
  | none => exact .nil _
  | some e => exact agrees_expr e

/-- A variable that is mentioned is used. -/
theorem mem_uses_of_mention {st : State} {x : String} {w : Bool}
    (h : ⟨.name x, w⟩ ∈ st.mentions) : ⟨x, w⟩ ∈ usesOfState st :=
  (agrees_state st).sublist.subset (mem_filterMap.mpr ⟨_, h, rfl⟩)

/-- A variable that is used is mentioned, unless a clause inside of the state binds it. -/
theorem mention_of_mem_uses {st : State} {u : Use} (hu : u ∈ usesOfState st)
    (hf : ⟨u.name, .fault⟩ ∉ st.binders) : ⟨.name u.name, u.writes⟩ ∈ st.mentions := by
  have hnone : ∀ β ∈ st.binders, β.sort = .fault → (β.name == u.name) = false := by
    intro β hβ hsort
    rw [beq_eq_false_iff_ne]
    intro hname
    obtain ⟨y, s⟩ := β
    cases hsort
    cases hname
    exact hf hβ
  have hmem : u ∈ (usesOfState st).filter (·.name == u.name) :=
    mem_filter.mpr ⟨hu, beq_self_eq_true _⟩
  rw [(agrees_state st).filter (· == u.name) hnone] at hmem
  obtain ⟨n, hn, huse⟩ := mem_filterMap.mp (mem_filter.mp hmem).1
  rwa [Mention.use?_eq_some.mp huse] at hn

end Hoist

/-! The order of the slots. -/

namespace Manifest

/-- The variables of a list, each in the slot of its place. -/
def listed (l : List (String × Origin)) : List Captured :=
  l.mapIdx fun k p => ⟨k, p.1, p.2⟩

/-- A manifest that holds the variables of a list, in its order. -/
def Lists (m : Manifest) (l : List (String × Origin)) : Prop :=
  m.vars = l.mapIdx fun k p => (p.1, ⟨k, p.1, p.2⟩)

variable {m : Manifest} {l : List (String × Origin)}

section

variable (h : m.Lists l)
include h

theorem Lists.toList_eq : m.toList = listed l := by
  rw [toList, h]
  apply ext_getElem?
  intro k
  simp [listed, Function.comp_def]

theorem Lists.find?_isSome (x : String) : (m.find? x).isSome = true ↔ x ∈ l.map (·.1) := by
  rw [find?, Named.get?, lookup_isSome_iff, h]
  simp [mem_iff_getElem]

theorem Lists.insert {x : String} (hx : x ∉ l.map (·.1)) (o : Origin) :
    (m.insert x o).Lists (l ++ [(x, o)]) := by
  have hnone : m.find? x = none := by
    rw [← Option.not_isSome_iff_eq_none, h.find?_isSome]
    exact hx
  have hsize : m.size = l.length := by rw [size, h, length_mapIdx]
  rw [Lists] at h
  rw [Lists, Manifest.insert, hnone]
  simp [hsize, h]

theorem Lists.insertAll {xs : List String} (hxs : xs.Nodup) (o : Origin) :
    (m.insertAll xs o).Lists
      (l ++ (xs.filter fun x => !(l.map (·.1)).contains x).map (·, o)) := by
  induction xs generalizing m l with
  | nil => simpa [Manifest.insertAll] using h
  | cons x xs ih =>
    obtain ⟨hx, hxs⟩ := nodup_cons.mp hxs
    have hstep : m.insertAll (x :: xs) o = (m.insert x o).insertAll xs o := rfl
    rw [hstep]
    by_cases hmem : x ∈ l.map (·.1)
    · obtain ⟨v, hv⟩ := Option.isSome_iff_exists.mp ((h.find?_isSome x).mpr hmem)
      rw [insert_of_some m o hv, filter_cons_of_neg (by simpa using hmem)]
      exact ih h hxs
    · have hrest : xs.filter (fun y => !((l ++ [(x, o)]).map (·.1)).contains y) =
          xs.filter fun y => !(l.map (·.1)).contains y := by
        apply filter_congr
        intro y hy
        have hne : y ≠ x := fun he => hx (he ▸ hy)
        simp [hne]
      rw [filter_cons_of_pos (by simpa using hmem), map_cons, append_cons, ← hrest]
      exact ih (h.insert hmem o) hxs

theorem Lists.slotOf? (hn : (l.map (·.1)).Nodup) {k : Nat} {x : String} {o : Origin}
    (hk : l[k]? = some (x, o)) : m.slotOf? x = some k := by
  have hordered : m.Ordered := by
    intro i v hv
    rw [h, getElem?_mapIdx] at hv
    obtain ⟨p, -, rfl⟩ := Option.map_eq_some_iff.mp hv
    rfl
  have hmem : x ∈ l.map (·.1) := mem_map.mpr ⟨_, mem_of_getElem? hk, rfl⟩
  obtain ⟨v, hv⟩ := Option.isSome_iff_exists.mp ((h.find?_isSome x).mpr hmem)
  have hslot : m.slotOf? x = some v.slot := by rw [Manifest.slotOf?, hv, Option.map_some]
  obtain ⟨v', hv'⟩ := exists_of_slotOf? hordered hslot
  rw [h, getElem?_mapIdx] at hv'
  obtain ⟨p, hp, he⟩ := Option.map_eq_some_iff.mp hv'
  have hname : p.1 = x := congrArg (·.1) he
  have hfirst : (l.map (·.1))[v.slot]? = (l.map (·.1))[k]? := by
    rw [getElem?_map, getElem?_map, hp, hk, Option.map_some, Option.map_some, hname]
  have hlt : v.slot < (l.map (·.1)).length := by
    rw [length_map]
    exact (List.getElem?_eq_some_iff.mp hp).1
  rw [hslot, (getElem?_inj hlt hn).mp hfirst]

end

theorem mem_listed {v : Captured} (h : v ∈ listed l) : l[v.slot]? = some (v.name, v.origin) := by
  obtain ⟨k, hk, rfl⟩ := mem_mapIdx.mp h
  rw [getElem?_eq_getElem hk]

end Manifest

/-! The clauses that become handlers. -/

mutual

/-- The faults bound by the clauses of guarded blocks that do not stay whole, in the order of the
source. -/
def Stmt.handled (s : Stmt) : List String :=
  if s.isFlat then [] else
  match s with
  | .cond _ _ a b => Stmt.handledIn a ++ Stmt.handledIn b
  | .loop _ _ b | .block _ b => Stmt.handledIn b
  | .attempt _ b c _ => Stmt.handledIn b ++ Stmt.handledClause c
  | _ => []

def Stmt.handledClause : Option Catch → List String
  | none => []
  | some (.mk x b) => x.toList ++ Stmt.handledIn b

def Stmt.handledIn : List Stmt → List String
  | [] => []
  | s :: ss => s.handled ++ Stmt.handledIn ss

end

namespace Splitting

variable {s : Stmt} {d d' : Draft} {e : Expr} {kind : Kind} {loops : List LoopEnds}

open Draft

section

variable (d : Draft)

@[simp] theorem caught_push (s : Stmt) : (d.push s).caught = d.caught := rfl

@[simp] theorem caught_pause (p : Pause) : (d.pause p).caught = d.caught := rfl

@[simp] theorem caught_leave (t : Terminator) : (d.leave t).caught = d.caught := rfl

@[simp] theorem caught_moveOn (k : Nat) (t : Terminator) :
    (d.moveOn k t).caught = d.caught := rfl

@[simp] theorem caught_switchTo (s : StateId) : (d.switchTo s).caught = d.caught := rfl

@[simp] theorem caught_setHandler (h : Option HandlerId) :
    (d.setHandler h).caught = d.caught := rfl

end

@[simp] theorem caught_openBlock (k : Nat) (cleanup : Option StateId) (d : Draft) :
    (openBlock k cleanup d).caught = d.caught := rfl

theorem caught_openClause_eq (g : HandlerId) (x : Option String) (cleanup : Option StateId)
    (outer : Option HandlerId) (d : Draft) :
    (openClause g x cleanup outer d).caught = d.caught ++ x.toList := by
  rw [openClause_eq]

theorem Takes.caught_eq {e' : Expr} (h : Takes e e' d d') : d'.caught = d.caught := by
  cases h <;> rfl

theorem caught_openHead (d : Draft) : (openHead d).2.caught = d.caught := by
  unfold openHead
  split <;> rfl

theorem handled_flat (hs : s.isFlat = true) : s.handled = [] := by
  rw [handled.eq_def, if_pos hs]

theorem Receives.handled {s' : Stmt} (h : Receives s e s') : s.handled = [] := by
  cases h <;> simp [handled]

theorem Leaves.handled {t : Terminator} (h : Leaves loops s t) : s.handled = [] := by
  cases h <;> simp [handled]

theorem Groups.handled {b : Block} (hg : Groups s b) (hn : s.isFlat = false) :
    s.handled = Stmt.handledIn b := by
  cases hg <;> simp [handled, hn, handledClause]

/-- The clauses that are split are those of guarded blocks that do not stay whole. -/
theorem Splits.caught_eq {ss : Block} (h : Splits kind loops ss d d') :
    d'.caught = d.caught ++ Stmt.handledIn ss := by
  induction h with
  | nil => simp [handledIn]
  | flat hs _ ih => simp [ih, handledIn, handled_flat hs]
  | receive hr _ _ ih => simp [ih, handledIn, hr.handled]
  | yield _ _ ih => simp [ih, handledIn, handled]
  | leave hl _ ih => simp [ih, handledIn, hl.handled]
  | value _ ht _ ih => simp [ih, ht.caught_eq, handledIn, handled]
  | when hn ht _ _ ihyes ih =>
    simp [ih, ihyes, ht.caught_eq, caught_flowTo, handledIn, handled, hn]
  | either hn ht _ _ _ ihyes ihno ih =>
    simp [ih, ihno, ihyes, ht.caught_eq, caught_flowTo, handledIn, handled, hn]
  | loop hn ht _ _ ihbody ih =>
    simp [ih, ihbody, ht.caught_eq, caught_openHead, caught_flowTo, handledIn, handled, hn]
  | group hn hg _ _ ihbody ih => simp [ih, ihbody, handledIn, hg.handled hn]
  | caught hn _ _ _ ihbody ihclause ih =>
    simp [ih, ihclause, ihbody, caught_openClause_eq, caught_flowTo, handledIn, handled,
      hn, handledClause]
  | cleaned hn _ _ _ ihbody ih =>
    simp [ih, ihbody, caught_closeCleaned, handledIn, handled, hn, handledClause]
  | both hn _ _ _ _ ihbody ihclause ih =>
    simp [ih, ihclause, ihbody, caught_closeCleaned, caught_openClause_eq, caught_flowTo,
      handledIn, handled, hn, handledClause]

theorem caught_splitBody {body : Block} (h : splitBody kind body = .ok d) :
    d.caught = Stmt.handledIn body := by
  obtain ⟨e, he, hd⟩ := bind_eq_ok h
  have hsplit := (splits_block kind [] body he).caught_eq
  cases hd
  split <;> exact hsplit

end Splitting

/-! Chains. -/

/-- The variables that states mention, in the order of their first mention. -/
def State.variables (states : List State) : List String :=
  ((states.flatMap State.mentions).filterMap fun n => n.use?.map (·.name)).eraseDups

theorem filter_eraseDups {α : Type} [BEq α] [LawfulBEq α] (p : α → Bool) (xs : List α) :
    (xs.filter p).eraseDups = xs.eraseDups.filter p := by
  match xs with
  | [] => rfl
  | x :: xs =>
    have ih := filter_eraseDups p (xs.filter fun y => !y == x)
    have hswap : (xs.filter fun y => !y == x).filter p = (xs.filter p).filter fun y => !y == x := by
      rw [filter_filter, filter_filter]
      congr 1
      funext y
      exact Bool.and_comm ..
    by_cases hx : p x = true
    · rw [filter_cons_of_pos hx, eraseDups_cons, eraseDups_cons,
        filter_cons_of_pos hx, ← ih, hswap]
    · have hdrop : (xs.filter p).filter (fun y => !y == x) = xs.filter p := by
        apply filter_eq_self.mpr
        intro y hy
        have hne : y ≠ x := fun he => hx (he ▸ (mem_filter.mp hy).2)
        simp [hne]
      rw [filter_cons_of_neg hx, eraseDups_cons, filter_cons_of_neg hx, ← ih, hswap,
        hdrop]
termination_by xs.length
decreasing_by
  simp only [List.length_cons]
  exact Nat.lt_succ_of_le (List.length_filter_le ..)

namespace Compiled

open Layout Hoist

variable {m : Method} {kind : Kind} {c : Chain}
variable {i j : Nat} {st st' : State} {x : String} {v : Captured} {w : Bool}

section

variable (C : Compiled m kind c) (hm : m.bound.Nodup)
include C hm

theorem nodup_caught : C.table.caught.Nodup := by
  apply nodup_iff_count_le_one.mpr
  intro x
  have htally := C.tally_eq (Binder.isNamed x)
  have hbody : (Binder.names (bindersIn m.body)).count x ≤ 1 :=
    nodup_iff_count_le_one.mp (nodup_append.mp hm).2.1 x
  have hcaught : Binder.names (Binder.faults C.table.caught) = C.table.caught := by
    simp [Binder.names, Binder.faults, Function.comp_def]
  rw [Binder.countP_isNamed, Binder.countP_isNamed, hcaught] at htally
  omega

/-- What a clause binds inside of one state is not used in another one. -/
theorem fault_stays (hfree : ∀ o ∈ m.loose, o.name ∉ m.bound) (hst : C.small.1[i]? = some st)
    (hst' : C.small.1[j]? = some st') (hf : ⟨x, .fault⟩ ∈ st.binders) (ht : Touches st' x) :
    i = j := by
  have hd := C.distinct_rest hm
  have hx : x ∈ Binder.names st.binders := mem_map.mpr ⟨_, hf, rfl⟩
  obtain ⟨u, hu, rfl⟩ := ht
  rcases sighted_state st' u hu with hb | ⟨o, ho, hname, -⟩
  · exact hd.apart i j st st' hst hst' _ hx hb
  · exfalso
    have hr : Reached (· ∈ looseIn m.body) [] (looseIn m.body) := fun o ho => .inl ho
    obtain ⟨B, -, hB⟩ := C.furnish hr
    obtain ⟨hfurnished, horigin⟩ := hB j st' hst'
    have houtside := hd.outside i st hst _ hx
    rcases hfurnished.loose o ho with hl | hl
    · have hloose : o ∈ m.loose :=
        Occurrence.mem_without.mpr ⟨hl, fun hp => houtside.2 (hname ▸ hp)⟩
      refine hfree o hloose (hname ▸ ?_)
      exact Method.mem_bound_of_binders (C.mem_binders_of_rest hst hf)
    · rw [hname] at hl
      rcases horigin _ hl with hnil | hc | ⟨k, st'', -, hst'', hbind⟩
      · cases hnil
      · exact houtside.1 hc
      · -- The variable and the fault would be two bindings of one name in one state.
        have hvar : ⟨u.name, .variable⟩ ∈ st''.binders :=
          mem_append_left _ (mem_bindersIn_of_bindsIn hbind)
        obtain rfl := hd.apart i k st st'' hst hst'' _ hx (mem_map.mpr ⟨_, hvar, rfl⟩)
        cases hst.symm.trans hst''
        have hsame := inj_on_of_nodup_map (hd.once i st hst) hf hvar rfl
        cases hsame

/-- A shared variable is not bound by a clause inside of a state. -/
theorem not_fault_of_shared (hfree : ∀ o ∈ m.loose, o.name ∉ m.bound)
    (hx : isShared (usesOfStates C.small.1) x = true) (hst : C.small.1[i]? = some st) :
    ⟨x, .fault⟩ ∉ st.binders := by
  intro hf
  obtain ⟨j, k, st', st'', hne, hst', hst'', ⟨u, hu, hname, -⟩, htouches⟩ := C.isShared_iff.mp hx
  have hj := C.fault_stays hm hfree hst hst' hf ⟨u, hu, hname⟩
  have hk := C.fault_stays hm hfree hst hst'' hf htouches
  exact hne (hj.symm.trans hk)

end

/-- The variables that states share and that have no slot for another reason, in the order of their
first use. -/
def shared (C : Compiled m kind c) : List String :=
  ((names (usesOfStates C.small.1)).filter (isShared (usesOfStates C.small.1))).filter
    fun x => !(m.params ++ C.table.caught).contains x

section

variable (C : Compiled m kind c)
include C

theorem isShared_of_mem (hx : x ∈ C.shared) : isShared (usesOfStates C.small.1) x = true :=
  (mem_filter.mp (mem_filter.mp hx).1).2

theorem lists (hm : m.bound.Nodup) :
    c.captures.Lists (m.params.map (·, .parameter) ++ C.table.caught.map (·, .caught) ++
      C.shared.map (·, .shared)) := by
  have hnil : ({} : Manifest).Lists [] := rfl
  have hparams := hnil.insertAll (nodup_append.mp hm).1 .parameter
  have hfresh : C.table.caught.filter (fun x => !((m.params.map (·, Origin.parameter)).map
      (·.1)).contains x) = C.table.caught := by
    apply filter_eq_self.mpr
    intro x hx
    have hnot := (C.distinct hm).caught x hx
    simpa using hnot
  simp only [map_nil, contains_nil, Bool.not_false, filter_true,
    nil_append] at hparams
  have hcaught := hparams.insertAll (C.nodup_caught hm) .caught
  rw [hfresh] at hcaught
  have hnodup : ((names (usesOfStates C.small.1)).filter
      (isShared (usesOfStates C.small.1))).Nodup := (Draft.nodup_eraseDups _).filter _
  have hfirst : (m.params.map (·, Origin.parameter) ++ C.table.caught.map (·, Origin.caught)).map
      (·.1) = m.params ++ C.table.caught := by
    simp [Function.comp_def]
  have hall := hcaught.insertAll hnodup .shared
  rw [hfirst] at hall
  rw [C.captures]
  exact hall

/-- Shared variables get their slots in the order of first mention. -/
theorem variables_shared (hm : m.bound.Nodup)
    (hfree : ∀ o ∈ m.loose, o.name ∉ m.bound) :
    (State.variables C.small.1).filter (C.shared.contains ·) = C.shared := by
  have hstate : ∀ st ∈ C.small.1,
      (st.mentions.filterMap fun n => n.use?.map (·.name)).filter (C.shared.contains ·) =
        ((usesOfState st).map (·.name)).filter (C.shared.contains ·) := by
    intro st hst
    obtain ⟨i, hi⟩ := mem_iff_getElem?.mp hst
    have hnone : ∀ β ∈ st.binders, β.sort = .fault → C.shared.contains β.name = false := by
      intro β hβ hsort
      obtain ⟨x, s⟩ := β
      cases hsort
      by_contra hx
      have hx : x ∈ C.shared := by simpa using hx
      exact C.not_fault_of_shared hm hfree (C.isShared_of_mem hx) hi hβ
    rw [filter_map, ← map_filterMap, filter_map]
    exact congrArg _ ((agrees_state st).filter (C.shared.contains ·) hnone).symm
  have hall : ((C.small.1.flatMap State.mentions).filterMap fun n => n.use?.map (·.name)).filter
      (C.shared.contains ·) =
        ((usesOfStates C.small.1).map (·.2.name)).filter (C.shared.contains ·) := by
    rw [usesOfStates, filterMap_flatMap, map_flatMap, filter_flatMap,
      filter_flatMap]
    apply flatMap_congr
    intro st hst
    rw [hstate st hst, map_map]
    rfl
  rw [State.variables, ← filter_eraseDups, hall, filter_eraseDups]
  have hnames : ((usesOfStates C.small.1).map (·.2.name)).eraseDups =
    names (usesOfStates C.small.1) := rfl
  rw [hnames]
  conv_rhs => rw [shared, filter_filter]
  apply filter_congr
  intro x hx
  simp [shared, hx]

/-- Every capture is in the slot that its name leads to. -/
theorem slotOf?_of_mem (hm : m.bound.Nodup) (hv : v ∈ c.captures.toList) :
    c.captures.slotOf? v.name = some v.slot := by
  have hl := C.lists hm
  refine hl.slotOf? ?_ (Manifest.mem_listed (hl.toList_eq ▸ hv))
  have hshared : C.shared.Nodup := ((Draft.nodup_eraseDups _).filter _).filter _
  have hapart : ∀ x ∈ m.params ++ C.table.caught, x ∉ C.shared := by
    intro x hx hs
    have hnot := (mem_filter.mp hs).2
    rw [contains_iff_mem.mpr hx] at hnot
    cases hnot
  have hfirst : (m.params ++ C.table.caught).Nodup := by
    refine nodup_append.mpr ⟨(nodup_append.mp hm).1, C.nodup_caught hm, ?_⟩
    rintro x hx y hy rfl
    exact (C.distinct hm).caught x hy hx
  have hnames : (m.params ++ C.table.caught ++ C.shared).Nodup := by
    refine nodup_append.mpr ⟨hfirst, hshared, ?_⟩
    rintro x hx y hy rfl
    exact hapart x hx hy
  simpa [Function.comp_def] using hnames

/-- A variable that is mentioned in the chain was mentioned before hoisting and has no slot. -/
theorem exists_of_mention (hst : c.states[i]? = some st)
    (hx : ⟨.name x, w⟩ ∈ st.mentions) :
    c.captures.slotOf? x = none ∧
      ∃ st₀, C.small.1[i]? = some st₀ ∧ ⟨.name x, w⟩ ∈ st₀.mentions := by
  rw [C.states, getElem?_map] at hst
  obtain ⟨st₀, hst₀, rfl⟩ := Option.map_eq_some_iff.mp hst
  rw [mentions_hoistState] at hx
  obtain ⟨n, hn, he⟩ := mem_map.mp hx
  obtain ⟨rfl, hnone⟩ := Mention.hoist_eq_name.mp he
  exact ⟨hnone, st₀, hst₀, hn⟩

/-- A use of a variable with a slot, not bound by a clause there, is a mention of the slot in the
chain. -/
theorem mention_of_use {u : Use} {k : Slot} (hst : C.small.1[i]? = some st)
    (hu : u ∈ usesOfState st) (hf : ⟨u.name, .fault⟩ ∉ st.binders)
    (hk : c.captures.slotOf? u.name = some k) :
    ∃ st', c.states[i]? = some st' ∧ ⟨.slot k, u.writes⟩ ∈ st'.mentions := by
  refine ⟨hoistState c.captures st, by rw [C.states, getElem?_map, hst]; rfl, ?_⟩
  rw [mentions_hoistState]
  exact mem_map.mpr ⟨_, mention_of_mem_uses hu hf, Mention.hoist_of_slot hk⟩

/-- A variable that is written in the chain is mentioned in one state only: in two it would have got
a slot. -/
theorem eq_of_mentions (hst : c.states[i]? = some st)
    (hst' : c.states[j]? = some st') (hx : ⟨.name x, true⟩ ∈ st.mentions)
    (hx' : ⟨.name x, w⟩ ∈ st'.mentions) : i = j := by
  obtain ⟨hnone, st₀, hst₀, hmention⟩ := C.exists_of_mention hst hx
  obtain ⟨-, st₀', hst₀', hmention'⟩ := C.exists_of_mention hst' hx'
  by_contra hne
  have hshared : isShared (usesOfStates C.small.1) x = true :=
    C.isShared_iff.mpr ⟨i, j, st₀, st₀', hne, hst₀, hst₀',
      ⟨_, mem_uses_of_mention hmention, rfl, rfl⟩, ⟨_, mem_uses_of_mention hmention', rfl⟩⟩
  have hslot : (c.captures.slotOf? x).isSome := C.captures ▸ slotOf?_shared hshared
  rw [hnone] at hslot
  cases hslot

/-- A variable without a slot is mentioned by its name where it was before. -/
theorem mention_kept (hx : c.captures.slotOf? x = none) (hst : C.small.1[i]? = some st)
    (hj : st.mentions[j]? = some ⟨.name x, w⟩) :
    ∃ st', c.states[i]? = some st' ∧ st'.mentions[j]? = some ⟨.name x, w⟩ := by
  refine ⟨hoistState c.captures st, by rw [C.states, getElem?_map, hst]; rfl, ?_⟩
  rw [mentions_hoistState, getElem?_map, hj]
  exact congrArg some (Mention.hoist_eq_name.mpr ⟨rfl, hx⟩)

/-- The slot of a shared variable is written in one state and mentioned in another. -/
theorem exists_mentions (hm : m.bound.Nodup) (hfree : ∀ o ∈ m.loose, o.name ∉ m.bound)
    (hv : v ∈ c.captures.toList) (ho : v.origin = .shared) :
    ∃ (i j : Nat) (st st' : State) (w : Bool), i ≠ j ∧
      c.states[i]? = some st ∧ c.states[j]? = some st' ∧
        ⟨.slot v.slot, true⟩ ∈ st.mentions ∧ ⟨.slot v.slot, w⟩ ∈ st'.mentions := by
  have hslot := C.slotOf?_of_mem hm hv
  have hname : v.name ∈ C.shared := by
    have hget := Manifest.mem_listed ((C.lists hm).toList_eq ▸ hv)
    have hmem := mem_of_getElem? hget
    rw [ho] at hmem
    simpa using hmem
  have hshared := C.isShared_of_mem hname
  obtain ⟨i, j, st, st', hne, hst, hst', ⟨u, hu, hx, hw⟩, ⟨u', hu', hx'⟩⟩ :=
    C.isShared_iff.mp hshared
  have hfault := C.not_fault_of_shared hm hfree hshared hst
  have hfault' := C.not_fault_of_shared hm hfree hshared hst'
  obtain ⟨st₁, hst₁, hmention⟩ := C.mention_of_use hst hu (hx ▸ hfault) (hx ▸ hslot)
  obtain ⟨st₂, hst₂, hmention'⟩ := C.mention_of_use hst' hu' (hx' ▸ hfault') (hx' ▸ hslot)
  exact ⟨i, j, st₁, st₂, u'.writes, hne, hst₁, hst₂, hw ▸ hmention, hmention'⟩

end

end Compiled

/-- Hoisting is sound and minimal. A variable that a state of the chain still binds or assigns is
mentioned in no other state. The slot of a shared variable is mentioned in two states and written in
one of them. Slots go to the parameters, then to the faults of the clauses that have become
handlers, then to the shared variables in the order in which the states mention them first. What
has a slot is not mentioned as a variable any more. -/
theorem hoisting_sound_and_minimal {m : Method} {limit : Nat} {c : Chain}
    (hm : ∀ x ∈ m.names, Unmarked x) (hfree : ∀ o ∈ m.loose, o.name ∉ m.bound)
    (h : m.split limit = .ok (some c)) :
    (∀ (i j : Nat) st st' x w, c.states[i]? = some st → c.states[j]? = some st' →
      ⟨.name x, true⟩ ∈ st.mentions → ⟨.name x, w⟩ ∈ st'.mentions → i = j) ∧
    (∀ v ∈ c.captures.toList, v.origin = .shared → ∃ (i j : Nat) (st st' : State) (w : Bool),
      i ≠ j ∧ c.states[i]? = some st ∧ c.states[j]? = some st' ∧
        ⟨.slot v.slot, true⟩ ∈ st.mentions ∧ ⟨.slot v.slot, w⟩ ∈ st'.mentions) ∧
    (∃ (shared : List String) (plain : List State),
      c.captures.toList = Manifest.listed (m.rename.params.map (·, .parameter) ++
        (Stmt.handledIn m.rename.body).map (·, .caught) ++ shared.map (·, .shared)) ∧
      c.states = plain.map (Hoist.hoistState c.captures) ∧
      (Stmt.slotsIn m.body = [] → ∀ st ∈ plain, st.slots = []) ∧
      (State.variables plain).filter (shared.contains ·) = shared) ∧
    ∀ v ∈ c.captures.toList, ∀ st ∈ c.states, ∀ w, ⟨.name v.name, w⟩ ∉ st.mentions := by
  obtain ⟨kind, -, hc⟩ := m.exists_of_split h
  obtain ⟨C⟩ := Method.compiled hc
  have hnodup := Method.nodup_bound_rename hm
  have hloose : ∀ o ∈ m.rename.loose, o.name ∉ m.rename.bound := by
    intro o ho hb
    rw [Method.loose_rename hm] at ho
    exact hfree o ho (Method.mem_bound_of_rename hm (Method.unmarked_loose hm o ho) hb)
  have hcaught : C.table.caught = handledIn m.rename.body := by
    obtain ⟨d, hd, htable⟩ := C.drafted
    rw [htable, ← Splitting.caught_splitBody hd]
    rfl
  refine ⟨?_, ?_, ⟨C.shared, C.small.1, ?_, C.states, ?_, C.variables_shared hnodup hloose⟩, ?_⟩
  · intro i j st st' x w hst hst' hx hx'
    exact C.eq_of_mentions hst hst' hx hx'
  · intro v hv ho
    exact C.exists_mentions hnodup hloose hv ho
  · rw [← hcaught]
    exact (C.lists hnodup).toList_eq
  · intro hs st hst
    obtain ⟨k, hk⟩ := mem_iff_getElem?.mp hst
    exact C.slots_small (m.slots_rename.trans hs) hk
  · intro v hv st hst w hmention
    obtain ⟨i, hi⟩ := mem_iff_getElem?.mp hst
    have hnone := (C.exists_of_mention hi hmention).1
    rw [C.slotOf?_of_mem hnodup hv] at hnone
    cases hnone

/-- A variable that stays in one state, one that is shared, and a clause that stays whole. -/
def mixedVariables : Method where
  name := "m"
  params := ["p"]
  body :=
    [.bind {} "t" (.var {} "p"), .bind {} "y" (.var {} "t"), .yield {} (.var {} "y"),
      .attempt {} [.assign {} "y" (.int {} 1)]
        (some (.mk (some "e") [.assign {} "y" (.var {} "e")])) none]

def mixedChain : Chain where
  name := "m"
  kind := .iterator
  states :=
    [{ id := 0, body := [.bind {} "t" (.captured {} 0), .store {} 1 (.var {} "t")],
       exit := .suspend (.yield (.captured {} 1)) 1 },
      { id := 1,
        body := [.attempt {} [.store {} 1 (.int {} 1)]
          (some (.mk (some "e") [.store {} 1 (.var {} "e")])) none],
        exit := .complete }]
  handlers := []
  captures :=
    ⟨[("p", { slot := 0, name := "p", origin := .parameter }),
      ("y", { slot := 1, name := "y", origin := .shared })]⟩
  params := [0]

/-- `t` stays where it is, and `y` is shared. -/
theorem mixedVariables_hoisting :
    mixedVariables.split 10 = .ok (some mixedChain) ∧ (∀ x ∈ mixedVariables.names, Unmarked x) ∧
      (∀ o ∈ mixedVariables.loose, o.name ∉ mixedVariables.bound) ∧
      (∀ (j : Nat) st w, mixedChain.states[j]? = some st → ⟨.name "t", w⟩ ∈ st.mentions → 0 = j) ∧
      ∃ (i j : Nat) (st st' : State) (w : Bool), i ≠ j ∧ mixedChain.states[i]? = some st ∧
        mixedChain.states[j]? = some st' ∧ ⟨.slot 1, true⟩ ∈ st.mentions ∧
        ⟨.slot 1, w⟩ ∈ st'.mentions := by
  have hsplit : mixedVariables.split 10 = .ok (some mixedChain) := by decide +kernel
  have hm : ∀ x ∈ mixedVariables.names, Unmarked x := by decide
  have hfree : ∀ o ∈ mixedVariables.loose, o.name ∉ mixedVariables.bound := by decide
  obtain ⟨hone, htwo, -, -⟩ := hoisting_sound_and_minimal hm hfree hsplit
  refine ⟨hsplit, hm, hfree, ?_, ?_⟩
  · intro j st w hst hmention
    exact hone 0 j _ st "t" w rfl hst (by decide) hmention
  · exact htwo { slot := 1, name := "y", origin := .shared } (by decide) rfl

/-- A shared name is that of a parameter or a variable, or it occurs without a binding. -/
theorem Compiled.shared_cases {m : Method} {kind : Kind} {c : Chain} {x : String}
    (C : Compiled m.rename kind c) (hm : ∀ x ∈ m.names, Unmarked x)
    (hx : Hoist.isShared (Hoist.usesOfStates C.small.1) x = true) :
    x ∈ m.rename.params ∨ (∃ s, s ≠ .argument ∧ ⟨x, s⟩ ∈ bindersIn m.rename.body) ∨
      ∃ o ∈ m.loose, o.name = x ∧ (o.role = .written ∨ o.name ∈ m.bound) := by
  rcases C.isShared_cases (Method.nodup_bound_rename hm) hx with hx | ⟨o, ho, rfl, hrole⟩
  · exact .inr (.inl hx)
  · by_cases hp : o.name ∈ m.rename.params
    · exact .inl hp
    · have hl : o ∈ m.loose := by
        rw [← Method.loose_rename hm]
        exact Occurrence.mem_without.mpr ⟨ho, hp⟩
      refine .inr (.inr ⟨o, hl, rfl, hrole.imp_right fun ha => ?_⟩)
      refine Method.mem_bound_of_rename hm (Method.unmarked_loose hm o hl) ?_
      exact mem_append_right _ (mem_map.mpr ⟨_, ha, rfl⟩)

/-- Every capture has the name of a parameter, a variable or a caught fault, or else it is a name
without a binding that is assigned to, or spelled like a binding of the method. Any other name
without a binding has no slot, and wherever a state mentions it before variables move to their
slots, the same state of the chain still mentions it by its name. -/
theorem captures_of_split {m : Method} {limit : Nat} {c : Chain} (hm : ∀ x ∈ m.names, Unmarked x)
    (h : m.split limit = .ok (some c)) :
    (∀ v ∈ c.captures.toList, v.name ∈ m.rename.params ∨
      (∃ s, s ≠ .argument ∧ ⟨v.name, s⟩ ∈ Stmt.bindersIn m.rename.body) ∨
      ∃ o ∈ m.loose, o.name = v.name ∧ (o.role = .written ∨ o.name ∈ m.bound)) ∧
    ∀ o ∈ m.loose, o.name ∉ m.bound → ⟨o.name, .written⟩ ∉ m.loose →
      c.captures.slotOf? o.name = none ∧
      ∀ (C : Compiled m.rename c.kind c) (i j : Nat) (st : State) (w : Bool),
        C.small.1[i]? = some st → st.mentions[j]? = some ⟨.name o.name, w⟩ →
        ∃ st', c.states[i]? = some st' ∧ st'.mentions[j]? = some ⟨.name o.name, w⟩ := by
  obtain ⟨kind, -, hc⟩ := m.exists_of_split h
  obtain ⟨C⟩ := Method.compiled hc
  refine ⟨fun v hv => ?_, fun o ho hb hw => ?_⟩
  · rw [C.captures] at hv
    rcases Hoist.mem_manifest hv with h | h | h
    · exact .inl h
    · exact .inr (.inl ⟨.fault, nofun, C.mem_binders_of_caught h⟩)
    · exact C.shared_cases hm h
  · suffices hnone : c.captures.slotOf? o.name = none from
      ⟨hnone, fun C _ _ _ _ => C.mention_kept hnone⟩
    have hplain := Method.unmarked_loose hm o ho
    have hbound : o.name ∉ m.rename.bound := fun h => hb (Method.mem_bound_of_rename hm hplain h)
    cases hk : c.captures.slotOf? o.name with
    | none => rfl
    | some k =>
      exfalso
      have hshared : Hoist.isShared (Hoist.usesOfStates C.small.1) o.name = true := by
        rcases C.slotOf?_cases hk with h | h | h
        · exact absurd (mem_append_left _ h) hbound
        · exact absurd (Method.mem_bound_of_binders (C.mem_binders_of_caught h)) hbound
        · exact h
      rcases C.shared_cases hm hshared with h | ⟨s, -, h⟩ | ⟨o', ho', hn, hr | hr⟩
      · exact hbound (mem_append_left _ h)
      · exact hbound (Method.mem_bound_of_binders h)
      · obtain ⟨x, r⟩ := o'
        cases hn
        cases hr
        exact hw ho'
      · exact hb (hn ▸ hr)

/-- A lambda that is called after a pause, and a function of the host that is called everywhere. -/
theorem lambdaYield_captures :
    lambdaYield.split 30 = .ok (some lambdaChain) ∧ (∀ x ∈ lambdaYield.names, Unmarked x) ∧
      ⟨"log", .called⟩ ∈ lambdaYield.loose ∧ lambdaChain.captures.slotOf? "log" = none ∧
      ∃ st ∈ lambdaChain.states, ⟨.name "log", false⟩ ∈ st.mentions := by
  have hsplit : lambdaYield.split 30 = .ok (some lambdaChain) := by decide +kernel
  have hm : ∀ x ∈ lambdaYield.names, Unmarked x := by decide
  have hl : ⟨"log", .called⟩ ∈ lambdaYield.loose := by decide
  have hlog := (captures_of_split hm hsplit).2 _ hl (by decide) (by decide)
  exact ⟨hsplit, hm, hl, hlog.1, by decide +kernel⟩

/-- A name without a binding, assigned to before and after a pause. -/
def strayAssignment : Method :=
  { name := "m", params := [],
    body := [.assign {} "x" (.int {} 1), .yield {} (.int {} 0), .assign {} "x" (.int {} 2)] }

/-- It gets a slot, and both assignments become stores: none of them faults any more. -/
theorem strayAssignment_captured : ⟨"x", .written⟩ ∈ strayAssignment.loose ∧
    strayAssignment.split 10 = .ok (some
      { name := "m", kind := .iterator,
        states :=
          [{ id := 0, body := [.store {} 0 (.int {} 1)], exit := .suspend (.yield (.int {} 0)) 1 },
            { id := 1, body := [.store {} 0 (.int {} 2)], exit := .complete }],
        handlers := [],
        captures := ⟨[("x", { slot := 0, name := "x", origin := .shared })]⟩ }) :=
  ⟨by decide, by decide +kernel⟩

end Resumable

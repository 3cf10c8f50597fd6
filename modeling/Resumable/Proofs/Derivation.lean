import Resumable.Splitting.Body

namespace Resumable

open Stmt hiding bind

mutual

theorem Expr.firstAwait_eq_none (e : Expr) (place : Position)
    (h : e.firstAwait place = none) : e.awaits = 0 := by
  match e with
  | .unit _ | .bool .. | .int .. | .str .. | .var .. | .lambda .. | .captured .. | .resume _ =>
    simp [Expr.awaits]
  | .await .. => simp [Expr.firstAwait] at h
  | .binary _ _ l r =>
    simp only [Expr.firstAwait, Option.or_eq_none_iff] at h
    simp [Expr.awaits, l.firstAwait_eq_none _ h.1, r.firstAwait_eq_none _ h.2]
  | .unary _ _ e =>
    simpa [Expr.awaits] using e.firstAwait_eq_none _ (by simpa [Expr.firstAwait] using h)
  | .call _ c es =>
    simp only [Expr.firstAwait, Option.or_eq_none_iff] at h
    simp [Expr.awaits, c.firstAwait_eq_none _ h.1, Expr.firstAwaitIn_eq_none es h.2]

theorem Expr.firstAwaitIn_eq_none (es : List Expr) (h : Expr.firstAwaitIn es = none) :
    Expr.awaitsIn es = 0 := by
  match es with
  | [] => rfl
  | e :: es =>
    simp only [Expr.firstAwaitIn, Option.or_eq_none_iff] at h
    simp [Expr.awaitsIn, e.firstAwait_eq_none _ h.1, Expr.firstAwaitIn_eq_none es h.2]

end

/-- New states `d.nextId, ..., d.nextId + k - 1`, covered by the handler now set. -/
def Draft.extend (d : Draft) (k : Nat) : Draft :=
  { d with states := d.states ++
      (List.range k).map fun i => { id := d.nextId + i, handler := d.handler } }

/-- Leave the open state by `t` and go on in the first of `k` new ones. -/
def Draft.moveOn (d : Draft) (k : Nat) (t : Terminator) : Draft :=
  ((d.extend k).close t).switchTo d.nextId

namespace Splitting

/-- A statement that awaits `e`, and what is left of it when the outcome has come. -/
inductive Receives : Stmt → Expr → Stmt → Prop where
  | bind (m x m' e) :
    Receives (.bind m x (.await m' e)) e (.bind m x (.resume { span := m'.span }))
  | assign (m x m' e) :
    Receives (.assign m x (.await m' e)) e (.assign m x (.resume { span := m'.span }))
  | store (m k m' e) :
    Receives (.store m k (.await m' e)) e (.store m k (.resume { span := m'.span }))
  | eval (m m' e) : Receives (.eval m (.await m' e)) e (.eval m (.resume { span := m'.span }))
  | throw (m m' e) : Receives (.throw m (.await m' e)) e (.throw m (.resume { span := m'.span }))

/-- A jump without a value, and how it leaves the open state. -/
inductive Leaves : List LoopEnds → Stmt → Terminator → Prop where
  | yieldBreak (loops m) : Leaves loops (.yieldBreak m) (.ret none (some returnState))
  | ret (loops m) : Leaves loops (.ret m none) (.ret none (some returnState))
  | brk (l loops m) : Leaves (l :: loops) (.brk m) (.goto l.exit)
  | cont (l loops m) : Leaves (l :: loops) (.cont m) (.goto l.head)

/-- After `d'` has been made from `d`, what `e` evaluates is `e'`: the outcome of a pause if `e`
is an await, and `e` itself otherwise. -/
inductive Takes : Expr → Expr → Draft → Draft → Prop where
  | whole {e : Expr} {d : Draft} (he : e.awaits = 0) : Takes e e d d
  | await {e : Expr} {d : Draft} (m : Mark) (he : e.awaits = 0) :
    Takes (.await m e) (.resume { span := m.span }) d (d.pause (.await e))

/-- The state where a loop starts over, now open: the open state itself if it is blank. -/
def openHead (d : Draft) : StateId × Draft :=
  if d.isBlank then (d.current, d)
  else (d.nextId, d.moveOn 1 (.goto d.nextId))

/-- A statement that only puts others into a scope of their own. -/
inductive Groups : Stmt → Block → Prop where
  | block (m b) : Groups (.block m b) b
  | attempt (m b) : Groups (.attempt m b none none) b

/-- The beginning of a guarded block, in the state after `k` new ones outside of it: where control
goes on after the block and, if it has one, its cleanup. -/
def openBlock (k : Nat) (cleanup : Option StateId) (d : Draft) : Draft :=
  (openGuard cleanup d.handler (d.extend k)).2.2

/-- The cleanup of a guarded block that began at `d`, filled in once the block has led to `d'`. -/
def closeCleaned (d : Draft) (cleanup : Block) (d' : Draft) : Draft :=
  (fillCleanup (some (d.nextId + 1)) (some cleanup) (d.nextId + 2)
    (d'.setHandler d.handler)).switchTo d.nextId

/-- The statements take the draft from its first form to its second. -/
inductive Splits (kind : Kind) : List LoopEnds → Block → Draft → Draft → Prop where
  | nil (loops d) : Splits kind loops [] d d
  | flat {loops s ss d d'} (hs : s.isFlat = true) (rest : Splits kind loops ss (d.push s) d') :
    Splits kind loops (s :: ss) d d'
  | receive {loops s e s' ss d d'} (hr : Receives s e s') (he : e.awaits = 0)
      (rest : Splits kind loops ss ((d.pause (.await e)).push s') d') :
    Splits kind loops (s :: ss) d d'
  | yield {loops m e ss d d'} (he : e.awaits = 0)
      (rest : Splits kind loops ss (d.pause (.yield e)) d') :
    Splits kind loops (.yield m e :: ss) d d'
  | leave {loops s t ss d d'} (hl : Leaves loops s t)
      (rest : Splits kind loops ss (d.leave t) d') :
    Splits kind loops (s :: ss) d d'
  | value {loops m e e' ss d d₁ d'} (hk : kind = .async) (he : Takes e e' d d₁)
      (rest : Splits kind loops ss (d₁.leave (.ret (some e') (some returnState))) d') :
    Splits kind loops (.ret m (some e) :: ss) d d'
  | when {loops m t t' a ss d d₁ d₂ d'} (hn : (Stmt.cond m t a []).isFlat = false)
      (ht : Takes t t' d d₁)
      (yes : Splits kind loops a (d₁.moveOn 2 (.branch t' d₁.nextId (d₁.nextId + 1))) d₂)
      (rest : Splits kind loops ss
        ((d₂.flowTo (d₁.nextId + 1)).switchTo (d₁.nextId + 1)) d') :
    Splits kind loops (.cond m t a [] :: ss) d d'
  | either {loops m t t' a b ss d d₁ d₂ d₃ d'} (hn : (Stmt.cond m t a b).isFlat = false)
      (ht : Takes t t' d d₁)
      (yes : Splits kind loops a (d₁.moveOn 3 (.branch t' d₁.nextId (d₁.nextId + 1))) d₂)
      (no : Splits kind loops b
        ((d₂.flowTo (d₁.nextId + 2)).switchTo (d₁.nextId + 1)) d₃)
      (rest : Splits kind loops ss
        ((d₃.flowTo (d₁.nextId + 2)).switchTo (d₁.nextId + 2)) d') :
    Splits kind loops (.cond m t a b :: ss) d d'
  | loop {loops m t t' b ss d d₁ d₂ d'} (hn : (Stmt.loop m t b).isFlat = false)
      (ht : Takes t t' (openHead d).2 d₁)
      (body : Splits kind (⟨(openHead d).1, d₁.nextId + 1⟩ :: loops) b
        (d₁.moveOn 2 (.branch t' d₁.nextId (d₁.nextId + 1))) d₂)
      (rest : Splits kind loops ss
        ((d₂.flowTo (openHead d).1).switchTo (d₁.nextId + 1)) d') :
    Splits kind loops (.loop m t b :: ss) d d'
  | group {loops s b ss d d₁ d'} (hn : s.isFlat = false) (hg : Groups s b)
      (body : Splits kind loops b d d₁)
      (rest : Splits kind loops ss d₁ d') :
    Splits kind loops (s :: ss) d d'
  | caught {loops m b x cb ss d d₁ d₂ d'}
      (hn : (Stmt.attempt m b (some (.mk x cb)) none).isFlat = false)
      (body : Splits kind loops b (openBlock 1 none d) d₁)
      (clause : Splits kind loops cb
        (openClause d.handlers.length x none d.handler (d₁.flowTo d.nextId)) d₂)
      (rest : Splits kind loops ss
        (((d₂.flowTo d.nextId).setHandler d.handler).switchTo d.nextId) d') :
    Splits kind loops (.attempt m b (some (.mk x cb)) none :: ss) d d'
  | cleaned {loops m b fb ss d d₁ d'} (hn : (Stmt.attempt m b none (some fb)).isFlat = false)
      (hf : checkCleanup fb = .ok ())
      (body : Splits kind loops b (openBlock 2 (some (d.nextId + 1)) d) d₁)
      (rest : Splits kind loops ss (closeCleaned d fb (d₁.flowTo d.nextId)) d') :
    Splits kind loops (.attempt m b none (some fb) :: ss) d d'
  | both {loops m b x cb fb ss d d₁ d₂ d'}
      (hn : (Stmt.attempt m b (some (.mk x cb)) (some fb)).isFlat = false)
      (hf : checkCleanup fb = .ok ())
      (body : Splits kind loops b (openBlock 2 (some (d.nextId + 1)) d) d₁)
      (clause : Splits kind loops cb
        (openClause d.handlers.length x (some (d.nextId + 1)) d.handler (d₁.flowTo d.nextId)) d₂)
      (rest : Splits kind loops ss (closeCleaned d fb (d₂.flowTo d.nextId)) d') :
    Splits kind loops (.attempt m b (some (.mk x cb)) (some fb) :: ss) d d'

theorem noAwait_eq_ok {e : Expr} {place : Position} (h : noAwait e place = .ok ()) :
    e.awaits = 0 := by
  unfold noAwait at h
  split at h
  · cases h
  · rename_i hn
    exact e.firstAwait_eq_none place hn

theorem takes_of_takeAwait {e e' : Expr} {place : Position} {d d' : Draft}
    (h : takeAwait e place d = .ok (e', d')) : Takes e e' d d' := by
  unfold takeAwait at h
  split at h
  · rename_i m operand
    cases ha : noAwait operand .awaitOperand with
    | error why => simp [ha, bind, Except.bind] at h
    | ok u =>
      simp only [ha, bind, Except.bind, pure, Except.pure, Except.ok.injEq, Prod.mk.injEq] at h
      obtain ⟨rfl, rfl⟩ := h
      exact .await m (noAwait_eq_ok ha)
  · cases ha : noAwait e place with
    | error why => simp [ha, bind, Except.bind] at h
    | ok u =>
      simp only [ha, bind, Except.bind, pure, Except.pure, Except.ok.injEq, Prod.mk.injEq] at h
      obtain ⟨rfl, rfl⟩ := h
      exact .whole (noAwait_eq_ok ha)

theorem create_eq (d : Draft) : d.create = (d.nextId, d.extend 1) := by
  simp [Draft.create, Draft.createIn, Draft.extend]

@[simp] theorem nextId_extend (d : Draft) (k : Nat) : (d.extend k).nextId = d.nextId + k := by
  simp [Draft.extend, Draft.nextId]

theorem extend_extend (d : Draft) (j k : Nat) : (d.extend j).extend k = d.extend (j + k) := by
  simp [Draft.extend, Draft.nextId, List.range_add, Nat.add_assoc, Function.comp_def]

theorem openGuard_entry (cleanup : Option StateId) (outer : Option HandlerId) (d : Draft) :
    (openGuard cleanup outer d).2.1 = d.nextId :=
  rfl

theorem bind_eq_ok {ε α β : Type} {x : Except ε α} {f : α → Except ε β} {b : β}
    (h : (x >>= f) = .ok b) : ∃ a, x = .ok a ∧ f a = .ok b := by
  cases x with
  | error e => cases h
  | ok a => exact ⟨a, rfl, h⟩

/-- A statement that awaits in the one place it can, and nowhere else, is received; one that does
not await at all is flat. -/
theorem splits_take {kind : Kind} {loops : List LoopEnds} {s : Stmt} {ss : Block} {e e' : Expr}
    {place : Position} {d d₀ d' : Draft} (make : Expr → Stmt) (hs : s = make e)
    (hflat : e.awaits = 0 → s.isFlat = true)
    (hr : ∀ m operand, Receives (make (.await m operand)) operand
      (make (.resume { span := m.span })))
    (ht : takeAwait e place d = .ok (e', d₀))
    (rest : Splits kind loops ss (d₀.push (make e')) d') :
    Splits kind loops (s :: ss) d d' := by
  cases takes_of_takeAwait ht with
  | whole he => exact .flat (hflat he) (hs ▸ rest)
  | await m he => exact .receive (hs ▸ hr m _) he rest

mutual

theorem splits_stmt (kind : Kind) (loops : List LoopEnds) (s : Stmt) {d d₁ : Draft}
    (h : splitStmt kind loops s d = .ok d₁) {ss : Block} {d' : Draft}
    (rest : Splits kind loops ss d₁ d') : Splits kind loops (s :: ss) d d' := by
  rw [splitStmt.eq_def] at h
  split at h
  · rename_i hs
    cases h
    exact .flat hs rest
  · rename_i hs
    have hn := Bool.eq_false_iff.mpr hs
    match s with
    | .bind m x e =>
      obtain ⟨⟨e', d₀⟩, ht, h⟩ := bind_eq_ok h
      cases h
      exact splits_take (.bind m x) rfl (by
        intro he
        simp [isFlat, pauses, census, Expr.census, Census.pauses, escape, he])
        (.bind m x) ht rest
    | .assign m x e =>
      obtain ⟨⟨e', d₀⟩, ht, h⟩ := bind_eq_ok h
      cases h
      exact splits_take (.assign m x) rfl (by
        intro he
        simp [isFlat, pauses, census, Expr.census, Census.pauses, escape, he])
        (.assign m x) ht rest
    | .store m k e =>
      obtain ⟨⟨e', d₀⟩, ht, h⟩ := bind_eq_ok h
      cases h
      exact splits_take (.store m k) rfl (by
        intro he
        simp [isFlat, pauses, census, Expr.census, Census.pauses, escape, he])
        (.store m k) ht rest
    | .eval m e =>
      obtain ⟨⟨e', d₀⟩, ht, h⟩ := bind_eq_ok h
      cases h
      exact splits_take (.eval m) rfl (by
        intro he
        simp [isFlat, pauses, census, Expr.census, Census.pauses, escape, he])
        (.eval m) ht rest
    | .throw m e =>
      obtain ⟨⟨e', d₀⟩, ht, h⟩ := bind_eq_ok h
      cases h
      exact splits_take (.throw m) rfl (by
        intro he
        simp [isFlat, pauses, census, Expr.census, Census.pauses, escape, he])
        (.throw m) ht rest
    | .yield m e =>
      obtain ⟨_, he, h⟩ := bind_eq_ok h
      cases h
      exact .yield (noAwait_eq_ok he) rest
    | .yieldBreak m =>
      cases h
      exact .leave (.yieldBreak loops m) rest
    | .ret m none =>
      cases h
      exact .leave (.ret loops m) rest
    | .ret m (some e) =>
      cases kind with
      | iterator => cases h
      | async =>
        obtain ⟨⟨e', d₀⟩, ht, h⟩ := bind_eq_ok h
        cases h
        exact .value rfl (takes_of_takeAwait ht) rest
    | .brk m =>
      match loops with
      | [] => cases h
      | l :: loops =>
        cases h
        exact .leave (.brk l loops m) rest
    | .cont m =>
      match loops with
      | [] => cases h
      | l :: loops =>
        cases h
        exact .leave (.cont l loops m) rest
    | .cond m t a b =>
      obtain ⟨⟨t', d₀⟩, ht, hc⟩ := bind_eq_ok h
      clear h
      simp only [create_eq, extend_extend, nextId_extend] at hc
      split at hc
      · rename_i hb
        obtain rfl := List.isEmpty_iff.mp hb
        obtain ⟨d₂, ha, h⟩ := bind_eq_ok hc
        cases h
        exact .when hn (takes_of_takeAwait ht) (splits_block kind loops a ha) rest
      · obtain ⟨d₂, ha, hc⟩ := bind_eq_ok hc
        obtain ⟨d₃, hb, h⟩ := bind_eq_ok hc
        cases h
        exact .either hn (takes_of_takeAwait ht) (splits_block kind loops a ha)
          (splits_block kind loops b hb) rest
    | .loop m t b =>
      simp only [create_eq, extend_extend, nextId_extend] at h
      obtain ⟨⟨t', d₀⟩, ht, h⟩ := bind_eq_ok h
      obtain ⟨d₂, hb, h⟩ := bind_eq_ok h
      cases h
      exact .loop hn (takes_of_takeAwait ht) (splits_block kind _ b hb) rest
    | .attempt m b none none => exact .group hn (.attempt m b) (splits_block kind loops b h) rest
    | .attempt m b (some (.mk x cb)) none =>
      simp only [create_eq, openCleanup, Option.isSome_none, Bool.false_eq_true, if_false] at h
      obtain ⟨_, _, h⟩ := bind_eq_ok h
      obtain ⟨d₁, hb, h⟩ := bind_eq_ok h
      obtain ⟨d₃, hs, h⟩ := bind_eq_ok h
      rw [splitClause] at hs
      obtain ⟨d₂, hc, he⟩ := bind_eq_ok hs
      cases he
      cases h
      exact .caught hn (splits_block kind loops b hb) (splits_block kind loops cb hc) rest
    | .attempt m b none (some fb) =>
      simp only [create_eq, openCleanup, Option.isSome_some, if_true, extend_extend,
        nextId_extend, openGuard_entry] at h
      obtain ⟨_, hf, h⟩ := bind_eq_ok h
      obtain ⟨d₁, hb, h⟩ := bind_eq_ok h
      obtain ⟨d₂, hc, h⟩ := bind_eq_ok h
      rw [splitClause] at hc
      cases hc
      cases h
      exact .cleaned hn hf (splits_block kind loops b hb) rest
    | .attempt m b (some (.mk x cb)) (some fb) =>
      simp only [create_eq, openCleanup, Option.isSome_some, if_true, extend_extend,
        nextId_extend, openGuard_entry] at h
      obtain ⟨_, hf, h⟩ := bind_eq_ok h
      obtain ⟨d₁, hb, h⟩ := bind_eq_ok h
      obtain ⟨d₃, hs, h⟩ := bind_eq_ok h
      rw [splitClause] at hs
      obtain ⟨d₂, hc, he⟩ := bind_eq_ok hs
      cases he
      cases h
      exact .both hn hf (splits_block kind loops b hb) (splits_block kind loops cb hc) rest
    | .block m b => exact .group hn (.block m b) (splits_block kind loops b h) rest

theorem splits_block (kind : Kind) (loops : List LoopEnds) (ss : Block) {d d' : Draft}
    (h : splitBlock kind loops ss d = .ok d') : Splits kind loops ss d d' := by
  match ss with
  | [] =>
    cases h
    exact .nil loops d
  | s :: ss =>
    rw [splitBlock] at h
    obtain ⟨d₁, hs, h⟩ := bind_eq_ok h
    exact splits_stmt kind loops s hs (splits_block kind loops ss h)

end

end Splitting

end Resumable

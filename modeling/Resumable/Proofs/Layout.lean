import Resumable.Proofs.Derivation
import Resumable.Splitting.Reduce

namespace Resumable

/-- The finished states and handlers, with the names that clauses bind. -/
structure Table where
  states : List State
  handlers : List Handler
  caught : List String

/-- A place inside a state: so many of its statements are behind it. -/
structure Point where
  state : Nat
  done : Nat

/-- Where the jumps out of a block lead. A kind of jump that the block does not make may lead
nowhere; a return without a state finishes at once. -/
structure Targets where
  brk : Option StateId := none
  cont : Option StateId := none
  ret : Option (Option StateId) := none

namespace Layout

variable (T : Table)

/-- The statement at a point. -/
def At (p : Point) (s : Stmt) : Prop :=
  ∃ st, T.states[p.state]? = some st ∧ st.body[p.done]? = some s

/-- A state ends at a point, with a terminator. -/
def Ends (p : Point) (t : Terminator) : Prop :=
  ∃ st, T.states[p.state]? = some st ∧ st.body.length = p.done ∧ st.exit = t

def Covered (s : StateId) (h : Option HandlerId) : Prop :=
  ∃ st, T.states[s]? = some st ∧ st.handler = h

/-- An empty state on the way from a guarded block through its cleanup to `after`. -/
def IsRoute (h : Option HandlerId) (cleanup : StateId) (s after : StateId) : Prop :=
  ∃ st, T.states[s]? = some st ∧ st.body = [] ∧ st.exit = .enter cleanup after ∧ st.handler = h

/-- The state of a cleanup. -/
def IsCleanup (h : Option HandlerId) (s : StateId) (body : Block) : Prop :=
  ∃ st, T.states[s]? = some st ∧ st.body = body ∧ st.exit = .endCleanup ∧ st.handler = h

/-- A guard over a block inside `h`. -/
def Guards (h : Option HandlerId) (g : HandlerId) (clause : Option (StateId × Option String))
    (cleanup : Option StateId) : Prop :=
  (∀ i ∈ h, i < g) ∧ T.handlers[g]? = some
    { id := g, clause := clause.map fun c => { entry := c.1, binding := c.2 }, cleanup,
      parent := h }

/-- A jump without a value, and the terminator it has become. -/
inductive Jumps (J : Targets) : Stmt → Terminator → Prop where
  | yieldBreak (m) {t} (h : J.ret = some t) : Jumps J (.yieldBreak m) (.ret none t)
  | ret (m) {t} (h : J.ret = some t) : Jumps J (.ret m none) (.ret none t)
  | brk (m) {t} (h : J.brk = some t) : Jumps J (.brk m) (.goto t)
  | cont (m) {t} (h : J.cont = some t) : Jumps J (.cont m) (.goto t)

/-- At the second point, what `e` evaluates is `e'`. -/
inductive Taken (h : Option HandlerId) : Expr → Expr → Point → Point → Nat → Nat → Prop where
  | whole {e p lo} (he : e.awaits = 0) : Taken h e e p p lo lo
  | await {e p lo} (m : Mark) (he : e.awaits = 0) (hp : Ends T p (.suspend (.await e) lo))
      (hr : Covered T lo h) :
    Taken h (.await m e) (.resume { span := m.span }) p ⟨lo, 0⟩ lo (lo + 1)

/-- The state where a loop starts over. -/
inductive Heads (h : Option HandlerId) : Point → StateId → Nat → Nat → Prop where
  | here (s lo) : Heads h ⟨s, 0⟩ s lo lo
  | new {p lo} (hp : Ends T p (.goto lo)) (hr : Covered T lo h) : Heads h p lo lo (lo + 1)

/-- The targets of the jumps out of a guarded block, and those of the block around it: between
them stands the cleanup. The routes are the states from `lo` on, and each of them is used. -/
structure Routed (h : Option HandlerId) (cleanup first : StateId) (inside outside : Targets)
    (lo hi : Nat) : Prop where
  le : lo ≤ hi
  brk : ∀ s, inside.brk = some s → lo ≤ s ∧ s < hi ∧
    ∃ t, outside.brk = some t ∧ IsRoute T h cleanup s t
  cont : ∀ s, inside.cont = some s → lo ≤ s ∧ s < hi ∧
    ∃ t, outside.cont = some t ∧ IsRoute T h cleanup s t
  ret : ∀ x, inside.ret = some x → ∃ s t, x = some s ∧ lo ≤ s ∧ s < hi ∧ outside.ret = some t ∧
    IsRoute T h cleanup s (t.getD Splitting.returnState)
  used : ∀ r, lo ≤ r → r < hi → ∃ s st, first ≤ s ∧ s < lo ∧ T.states[s]? = some st ∧
    r ∈ st.exit.exits

/-- The statements stand in the table from `p` to `q`, covered by `h`; besides the state of `p`
they own those from `lo` up to and without `hi`. -/
inductive Laid : Option HandlerId → Targets → Block → Point → Point → Nat → Nat → Prop where
  | nil (h J p lo) : Laid h J [] p p lo lo
  | flat {h J s ss p q lo hi} (hs : s.isFlat = true) (hp : At T p s)
      (rest : Laid h J ss ⟨p.state, p.done + 1⟩ q lo hi) : Laid h J (s :: ss) p q lo hi
  | receive {h J s e s' ss p q lo hi} (hr : Splitting.Receives s e s') (he : e.awaits = 0)
      (hp : Ends T p (.suspend (.await e) lo)) (ho : Covered T lo h) (ha : At T ⟨lo, 0⟩ s')
      (rest : Laid h J ss ⟨lo, 1⟩ q (lo + 1) hi) : Laid h J (s :: ss) p q lo hi
  | yield {h J m e ss p q lo hi} (he : e.awaits = 0) (hp : Ends T p (.suspend (.yield e) lo))
      (ho : Covered T lo h) (rest : Laid h J ss ⟨lo, 0⟩ q (lo + 1) hi) :
    Laid h J (.yield m e :: ss) p q lo hi
  | leave {h J s t ss p q lo hi} (hj : Jumps J s t) (hp : Ends T p t) (ho : Covered T lo h)
      (rest : Laid h J ss ⟨lo, 0⟩ q (lo + 1) hi) : Laid h J (s :: ss) p q lo hi
  | value {h J m e e' t ss p p₁ q lo lo₁ hi} (he : Taken T h e e' p p₁ lo lo₁)
      (hj : J.ret = some t) (hp : Ends T p₁ (.ret (some e') t)) (ho : Covered T lo₁ h)
      (rest : Laid h J ss ⟨lo₁, 0⟩ q (lo₁ + 1) hi) :
    Laid h J (.ret m (some e) :: ss) p q lo hi
  | when {h J m t t' a ss p p₁ qa q lo y hi₁ hi} (ht : Taken T h t t' p p₁ lo y)
      (hp : Ends T p₁ (.branch t' y (y + 1))) (hy : Covered T y h) (hm : Covered T (y + 1) h)
      (yes : Laid h J a ⟨y, 0⟩ qa (y + 2) hi₁) (ha : Ends T qa (.goto (y + 1)))
      (rest : Laid h J ss ⟨y + 1, 0⟩ q hi₁ hi) :
    Laid h J (.cond m t a [] :: ss) p q lo hi
  | either {h J m t t' a b ss p p₁ qa qb q lo y hi₁ hi₂ hi} (ht : Taken T h t t' p p₁ lo y)
      (hp : Ends T p₁ (.branch t' y (y + 1))) (hy : Covered T y h) (hn : Covered T (y + 1) h)
      (hm : Covered T (y + 2) h)
      (yes : Laid h J a ⟨y, 0⟩ qa (y + 3) hi₁) (ha : Ends T qa (.goto (y + 2)))
      (no : Laid h J b ⟨y + 1, 0⟩ qb hi₁ hi₂) (hb : Ends T qb (.goto (y + 2)))
      (rest : Laid h J ss ⟨y + 2, 0⟩ q hi₂ hi) :
    Laid h J (.cond m t a b :: ss) p q lo hi
  | loop {h J m t t' b ss p p₁ qb q} {head lo lo₁ y hi₁ hi : Nat} (hh : Heads T h p head lo lo₁)
      (ht : Taken T h t t' ⟨head, 0⟩ p₁ lo₁ y) (hp : Ends T p₁ (.branch t' y (y + 1)))
      (hy : Covered T y h) (hx : Covered T (y + 1) h)
      (body : Laid h { J with brk := some (y + 1), cont := some head } b ⟨y, 0⟩ qb (y + 2) hi₁)
      (hb : Ends T qb (.goto head)) (rest : Laid h J ss ⟨y + 1, 0⟩ q hi₁ hi) :
    Laid h J (.loop m t b :: ss) p q lo hi
  | group {h J s b ss p p₁ q lo hi₁ hi} (hg : Splitting.Groups s b)
      (body : Laid h J b p p₁ lo hi₁) (rest : Laid h J ss p₁ q hi₁ hi) :
    Laid h J (s :: ss) p q lo hi
  | caught {h J m b x cb ss g p qb qc q} {lo hi₁ hi₂ hi : Nat}
      (hg : Guards T h g (some (hi₁, x)) none)
      (hx : ∀ y ∈ x, y ∈ T.caught) (ho : Covered T lo h) (hp : Ends T p (.goto (lo + 1)))
      (hy : Covered T (lo + 1) (some g))
      (body : Laid (some g) J b ⟨lo + 1, 0⟩ qb (lo + 2) hi₁) (hb : Ends T qb (.goto lo))
      (hc : Covered T hi₁ h) (clause : Laid h J cb ⟨hi₁, 0⟩ qc (hi₁ + 1) hi₂)
      (hd : Ends T qc (.goto lo)) (rest : Laid h J ss ⟨lo, 0⟩ q hi₂ hi) :
    Laid h J (.attempt m b (some (.mk x cb)) none :: ss) p q lo hi
  | cleaned {h J J' m b fb ss g p qb q} {r lo hi₁ hi₂ hi : Nat}
      (hf : Splitting.checkCleanup fb = .ok ())
      (hg : Guards T h g none (some (lo + 1))) (ho : Covered T lo h)
      (hc : IsCleanup T h (lo + 1) fb) (hp : Ends T p (.goto (lo + 2)))
      (hy : Covered T (lo + 2) (some g))
      (body : Laid (some g) J' b ⟨lo + 2, 0⟩ qb (lo + 3) hi₁) (hb : Ends T qb (.goto r))
      (hr : hi₁ ≤ r ∧ r < hi₂ ∧ IsRoute T h (lo + 1) r lo)
      (routes : Routed T h (lo + 1) (lo + 2) J' J hi₁ hi₂)
      (rest : Laid h J ss ⟨lo, 0⟩ q hi₂ hi) :
    Laid h J (.attempt m b none (some fb) :: ss) p q lo hi
  | both {h J J' m b x cb fb ss g k p qb qc q} {r lo hi₁ hi₂ hi₃ hi : Nat}
      (hf : Splitting.checkCleanup fb = .ok ())
      (hg : Guards T h g (some (hi₁, x)) (some (lo + 1))) (hx : ∀ y ∈ x, y ∈ T.caught)
      (hk : Guards T h k none (some (lo + 1))) (ho : Covered T lo h)
      (hc : IsCleanup T h (lo + 1) fb) (hp : Ends T p (.goto (lo + 2)))
      (hy : Covered T (lo + 2) (some g))
      (body : Laid (some g) J' b ⟨lo + 2, 0⟩ qb (lo + 3) hi₁) (hb : Ends T qb (.goto r))
      (hl : Covered T hi₁ (some k)) (clause : Laid (some k) J' cb ⟨hi₁, 0⟩ qc (hi₁ + 1) hi₂)
      (hd : Ends T qc (.goto r)) (hr : hi₂ ≤ r ∧ r < hi₃ ∧ IsRoute T h (lo + 1) r lo)
      (routes : Routed T h (lo + 1) (lo + 2) J' J hi₂ hi₃)
      (rest : Laid h J ss ⟨lo, 0⟩ q hi₃ hi) :
    Laid h J (.attempt m b (some (.mk x cb)) (some fb) :: ss) p q lo hi

/-- A whole body stands in the table: it begins in the first state, its returns finish, and the
second state is the one that only finishes. -/
structure Body (body : Block) : Prop where
  laid : ∃ q, Laid T none { ret := some none } body ⟨0, 0⟩ q 2 T.states.length ∧
    Ends T q .complete
  entry : Covered T 0 none
  finish : ∃ st, T.states[Splitting.returnState]? = some st ∧ st.body = [] ∧ st.exit = .complete ∧
    st.handler = none

end Layout

end Resumable

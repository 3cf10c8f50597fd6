import Resumable.Machine

namespace Resumable

section

variable {ε τ α β : Type}

/-- Where `x` does not stop for lack of steps, with `t`, it does the same as `y`. -/
def Below (t : ε) (x y : EStateM ε τ α) : Prop :=
  ∀ s, x s = y s ∨ ∃ s', x s = .error t s'

namespace Below

variable {t : ε} {x y : EStateM ε τ α}

theorem refl (t : ε) (x : EStateM ε τ α) : Below t x x :=
  fun _ => .inl rfl

theorem throw (t : ε) (x : EStateM ε τ α) : Below t (throw t) x :=
  fun s => .inr ⟨s, rfl⟩

theorem bind {f g : α → EStateM ε τ β} (h : Below t x y) (h' : ∀ a, Below t (f a) (g a)) :
    Below t (x >>= f) (y >>= g) := by
  intro s
  simp only [Bind.bind, EStateM.bind]
  rcases h s with hs | ⟨s', hs⟩
  · rw [hs]
    cases y s with
    | ok a s₁ => exact h' a s₁
    | error e s₁ => exact .inl rfl
  · rw [hs]
    exact .inr ⟨s', rfl⟩

end Below

end

namespace Eval

variable {σ κ α : Type} {host : Host σ κ}

/-- What the body of a closure starts with. -/
def inside (host : Host σ κ) (params : List String) (env : List (String × Value))
    (home : StorageId) (args : List Value) (a : Activation σ κ) : Activation σ κ :=
  let hands := a.world.hands
  let inner := (Frame.mk [[], env]).defineAll (params.zip args)
  let caller := [.values (env.map (·.2)), .evaluation a.frame a.resumption a.operands]
  let world := (a.world.grasp (.evaluation inner none [] :: caller)).visit host home
  let world := (world.letGo hands).callOver home
  let world := (world.grasp (.storage home :: caller)).retain home
  { frame := inner, world }

/-- What the caller of a closure makes of how its body ends. -/
def afterwards (home : StorageId) (a : Activation σ κ) :
    EStateM.Result Exit (Activation σ κ) Unit → EStateM.Result Stop (Activation σ κ) Value
  | .ok () b => .ok .unit { a with world := (b.world.release home).letGo a.world.hands }
  | .error e b =>
    let text := Exit.debug b.world.status e
    let a := { a with world := (b.world.release home).letGo a.world.hands }
    match e with
    | .ret v => .ok v a
    | .stop s => .error s a
    | .brk | .cont => broken (text ++ " escaped a closure") a

theorem enter_eq (host : Host σ κ) (params : List String) (env : List (String × Value))
    (home : StorageId) (args : List Value) (body : ExecM σ κ Unit) (a : Activation σ κ) :
    enter host params env home args body a =
      if args.length ≠ params.length then .error (.fault (.arity params.length args.length)) a
      else afterwards home a (body (inside host params env home args a)) :=
  rfl

/-- A block and what catches its faults. -/
def caught (host : Host σ κ) (home : StorageId) (n : Nat) (b : Block) :
    Option Catch → ExecM σ κ Unit
  | none => inScope (execBlock host home n b)
  | some (.mk none cb) =>
    rescue (inScope (execBlock host home n b)) fun _ => inScope (execBlock host home n cb)
  | some (.mk (some x) cb) =>
    rescue (inScope (execBlock host home n b)) fun v => inScope do
      (define x v).lift
      execBlock host home n cb

theorem execStmt_attempt (host : Host σ κ) (home : StorageId) (n : Nat) (m : Mark) (b : Block)
    (c : Option Catch) (f : Option Block) :
    execStmt host home (n + 1) (.attempt m b c f) =
      match f with
      | none => caught host home n b c
      | some fb => ensuring (caught host home n b c) (inScope (execBlock host home n fb)) := by
  rcases c with - | ⟨- | x, cb⟩ <;> cases f <;> simp only [execStmt, caught]

/-- A turn of a loop, and what comes after it. -/
def turn (x next : ExecM σ κ Unit) : ExecM σ κ Unit := fun a =>
  match x a with
  | .ok () a | .error .cont a => next a
  | .error .brk a => .ok () a
  | .error e a => .error e a

theorem execStmt_loop (host : Host σ κ) (home : StorageId) (n : Nat) (m : Mark) (t : Expr)
    (b : Block) :
    execStmt host home (n + 1) (.loop m t b) =
      (evalTest host home n t).lift >>= fun again =>
        if again then turn (inScope (execBlock host home n b)) (execStmt host home n (.loop m t b))
        else pure () := by
  rw [execStmt]
  rfl

theorem below_lift {x y : EvalM σ κ α} (h : Below .timeout x y) :
    Below (.stop .timeout) x.lift y.lift := by
  intro a
  simp only [EvalM.lift, EStateM.adaptExcept]
  rcases h a with ha | ⟨b, ha⟩
  · rw [ha]
    exact .inl rfl
  · rw [ha]
    exact .inr ⟨b, rfl⟩

theorem below_keeping {ε : Type} {t : ε} {x y : EStateM ε (Activation σ κ) α} (h : Below t x y)
    (vs : List Value) : Below t (keeping vs x) (keeping vs y) := by
  intro a
  simp only [keeping]
  rcases h { a with operands := vs ++ a.operands } with ha | ⟨b, ha⟩
  · rw [ha]
    exact .inl rfl
  · rw [ha]
    exact .inr ⟨_, rfl⟩

variable {x y : ExecM σ κ Unit}

section

variable (h : Below (.stop .timeout) x y)
include h

theorem below_inScope : Below (.stop .timeout) (inScope x) (inScope y) := by
  intro a
  simp only [inScope]
  rcases h { a with frame := a.frame.push } with ha | ⟨b, ha⟩
  · rw [ha]
    exact .inl rfl
  · rw [ha]
    exact .inr ⟨_, rfl⟩

theorem below_rescue {f g : Value → ExecM σ κ Unit} (h' : ∀ v, Below (.stop .timeout) (f v) (g v)) :
    Below (.stop .timeout) (rescue x f) (rescue y g) := by
  intro a
  simp only [rescue]
  rcases h a with ha | ⟨b, ha⟩
  · rw [ha]
    split
    · exact below_keeping (h' _) _ _
    · exact .inl rfl
  · rw [ha]
    exact .inr ⟨b, rfl⟩

theorem below_ensuring {c d : ExecM σ κ Unit} (h' : Below (.stop .timeout) c d) :
    Below (.stop .timeout) (ensuring x c) (ensuring y d) := by
  intro a
  simp only [ensuring]
  rcases h a with ha | ⟨b, ha⟩
  · rw [ha]
    split
    · exact .inl rfl
    · exact h' _
    · rename_i e b _ _
      rcases below_keeping h' (Exit.values e) b with hb | ⟨b', hb⟩
      · rw [hb]
        exact .inl rfl
      · rw [hb]
        exact .inr ⟨b', rfl⟩
  · rw [ha]
    exact .inr ⟨b, rfl⟩

theorem below_enter {params : List String} {env : List (String × Value)} {home : StorageId}
    {args : List Value} :
    Below .timeout (enter host params env home args x) (enter host params env home args y) := by
  intro a
  rw [enter_eq, enter_eq]
  split
  · exact .inl rfl
  · rcases h (inside host params env home args a) with ha | ⟨b, ha⟩
    · rw [ha]
      exact .inl rfl
    · rw [ha]
      exact .inr ⟨_, rfl⟩

theorem below_turn {next next' : ExecM σ κ Unit} (h' : Below (.stop .timeout) next next') :
    Below (.stop .timeout) (turn x next) (turn y next') := by
  intro a
  unfold turn
  rcases h a with ha | ⟨b, ha⟩
  · simp only [ha]
    split
    · exact h' _
    · exact h' _
    · exact .inl rfl
    · exact .inl rfl
  · simp only [ha]
    exact .inr ⟨b, rfl⟩

end

/-- One step more changes nothing, whatever is evaluated. -/
structure Patient (host : Host σ κ) (n : Nat) : Prop where
  expr : ∀ home e, Below .timeout (evalExpr host home n e) (evalExpr host home (n + 1) e)
  test : ∀ home e, Below .timeout (evalTest host home n e) (evalTest host home (n + 1) e)
  args : ∀ home es, Below .timeout (evalArgs host home n es) (evalArgs host home (n + 1) es)
  value : ∀ home v es,
    Below .timeout (applyValue host home n v es) (applyValue host home (n + 1) v es)
  stmt : ∀ home s, Below (.stop .timeout) (execStmt host home n s) (execStmt host home (n + 1) s)
  block : ∀ home ss,
    Below (.stop .timeout) (execBlock host home n ss) (execBlock host home (n + 1) ss)

namespace Patient

variable {n : Nat} (h : Patient host n)
include h

section

variable (home : StorageId)

theorem binary (m : Mark) (op : BinaryOp) (l r : Expr) :
    Below .timeout (evalExpr host home (n + 1) (.binary m op l r))
      (evalExpr host home (n + 2) (.binary m op l r)) := by
  cases op with
  | and =>
    simp only [evalExpr]
    refine (h.test home l).bind fun b => ?_
    cases b
    · exact .refl _ _
    · exact (h.test home r).bind fun _ => .refl _ _
  | or =>
    simp only [evalExpr]
    refine (h.test home l).bind fun b => ?_
    cases b
    · exact (h.test home r).bind fun _ => .refl _ _
    · exact .refl _ _
  | _ =>
    simp only [evalExpr]
    exact (h.expr home l).bind fun v =>
      (below_keeping (h.expr home r) [v]).bind fun _ => .refl _ _

theorem call (m : Mark) (c : Expr) (es : List Expr) :
    Below .timeout (evalExpr host home (n + 1) (.call m c es))
      (evalExpr host home (n + 2) (.call m c es)) := by
  cases c with
  | var m' x =>
    simp only [evalExpr]
    refine Below.bind (.refl _ _) fun a => ?_
    cases a.frame.get? x with
    | none => exact (h.args home es).bind fun _ => .refl _ _
    | some v => exact h.value home v es
  | _ =>
    rw [evalExpr, evalExpr]
    · exact (h.expr home _).bind fun v => h.value home v es
    all_goals simp

theorem next_expr (e : Expr) :
    Below .timeout (evalExpr host home (n + 1) e) (evalExpr host home (n + 2) e) := by
  cases e with
  | binary m op l r => exact h.binary home m op l r
  | unary m op e =>
    simp only [evalExpr]
    exact (h.expr home e).bind fun _ => .refl _ _
  | call m c es => exact h.call home m c es
  | _ =>
    simp only [evalExpr]
    exact .refl _ _

theorem next_test (e : Expr) :
    Below .timeout (evalTest host home (n + 1) e) (evalTest host home (n + 2) e) := by
  simp only [evalTest]
  exact (h.expr home e).bind fun _ => .refl _ _

theorem next_args (es : List Expr) :
    Below .timeout (evalArgs host home (n + 1) es) (evalArgs host home (n + 2) es) := by
  cases es with
  | nil =>
    simp only [evalArgs]
    exact .refl _ _
  | cons e es =>
    simp only [evalArgs]
    exact (h.expr home e).bind fun v =>
      (below_keeping (h.args home es) [v]).bind fun _ => .refl _ _

theorem next_value (v : Value) (es : List Expr) :
    Below .timeout (applyValue host home (n + 1) v es) (applyValue host home (n + 2) v es) := by
  cases v with
  | closure id params body env origin =>
    simp only [applyValue]
    exact (below_keeping (h.args home es) _).bind fun _ => below_enter (h.block origin body)
  | _ =>
    simp only [applyValue]
    exact .refl _ _

theorem caught (b : Block) (c : Option Catch) :
    Below (.stop .timeout) (Eval.caught host home n b c) (Eval.caught host home (n + 1) b c) := by
  have hb := below_inScope (h.block home b)
  rcases c with _ | ⟨_ | x, cb⟩
  · exact hb
  · exact below_rescue hb fun _ => below_inScope (h.block home cb)
  · simp only [Eval.caught]
    exact below_rescue hb fun v => below_inScope (Below.bind (.refl _ _) fun _ => h.block home cb)

theorem attempt (m : Mark) (b : Block) (c : Option Catch) (f : Option Block) :
    Below (.stop .timeout) (execStmt host home (n + 1) (.attempt m b c f))
      (execStmt host home (n + 2) (.attempt m b c f)) := by
  rw [execStmt_attempt, execStmt_attempt]
  cases f with
  | none => exact h.caught home b c
  | some fb => exact below_ensuring (h.caught home b c) (below_inScope (h.block home fb))

theorem next_stmt (s : Stmt) :
    Below (.stop .timeout) (execStmt host home (n + 1) s) (execStmt host home (n + 2) s) := by
  cases s with
  | bind m x e | assign m x e | store m x e | eval m e | throw m e =>
    simp only [execStmt]
    exact (below_lift (h.expr home e)).bind fun _ => .refl _ _
  | cond m t a b =>
    simp only [execStmt]
    refine (below_lift (h.test home t)).bind fun yes => ?_
    cases yes
    · exact below_inScope (h.block home b)
    · exact below_inScope (h.block home a)
  | loop m t b =>
    rw [execStmt_loop, execStmt_loop]
    refine (below_lift (h.test home t)).bind fun again => ?_
    cases again
    · exact .refl _ _
    · exact below_turn (below_inScope (h.block home b)) (h.stmt home _)
  | attempt m b c f => exact h.attempt home m b c f
  | ret m e =>
    cases e with
    | none =>
      simp only [execStmt]
      exact .refl _ _
    | some e =>
      simp only [execStmt]
      exact (below_lift (h.expr home e)).bind fun _ => .refl _ _
  | block m b =>
    simp only [execStmt]
    exact below_inScope (h.block home b)
  | brk | cont | yield | yieldBreak =>
    simp only [execStmt]
    exact .refl _ _

theorem next_block (ss : List Stmt) :
    Below (.stop .timeout) (execBlock host home (n + 1) ss) (execBlock host home (n + 2) ss) := by
  cases ss with
  | nil =>
    simp only [execBlock]
    exact .refl _ _
  | cons s ss =>
    simp only [execBlock]
    exact (h.stmt home s).bind fun _ => h.block home ss

end

end Patient

theorem patient (host : Host σ κ) (n : Nat) : Patient host n := by
  induction n with
  | zero =>
    constructor <;> intros
    · rw [evalExpr]
      exact .throw _ _
    · rw [evalTest]
      exact .throw _ _
    · rw [evalArgs]
      exact .throw _ _
    · rw [applyValue]
      exact .throw _ _
    · rw [execStmt]
      exact .throw _ _
    · rw [execBlock]
      exact .throw _ _
  | succ n ih =>
    exact ⟨ih.next_expr, ih.next_test, ih.next_args, ih.next_value, ih.next_stmt, ih.next_block⟩

theorem below_execState (host : Host σ κ) (home : StorageId) (n : Nat) (body : Block) :
    Below .timeout (execState host home n body) (execState host home (n + 1) body) := by
  intro a
  simp only [execState]
  rcases (patient host n).block home body a with ha | ⟨b, ha⟩
  · rw [ha]
    exact .inl rfl
  · rw [ha]
    exact .inr ⟨b, rfl⟩

end Eval

namespace Machine

variable {σ κ : Type}

theorem below_leave (host : Host σ κ) (home : StorageId) (n : Nat) (s : StateId) (t : Terminator) :
    Below .timeout (leave host home n s t) (leave host home (n + 1) s t) := by
  have h := Eval.patient host n
  cases t with
  | branch e a b => exact (h.test home e).bind fun _ => .refl _ _
  | suspend p r =>
    cases p with
    | yield e => exact (h.expr home e).bind fun _ => .refl _ _
    | await e => exact (h.expr home e).bind fun _ => .refl _ _
  | ret v t =>
    cases v with
    | none => exact .refl _ _
    | some e => exact (h.expr home e).bind fun _ => .refl _ _
  | _ => exact .refl _ _

variable (host : Host σ κ) (n : Nat) (m : Machine) (w : World σ κ)

theorem step_timeout_or_eq :
    (m.step host n w).1 = .timeout ∨ m.step host (n + 1) w = m.step host n w := by
  cases hst : m.chain.states[m.current]? with
  | none =>
    right
    simp only [step, hst]
  | some s =>
    have hrun := (Eval.below_execState host m.home n s.body).bind fun _ =>
      below_leave host m.home n s.id s.exit
    simp only [step, hst]
    split
    · exact .inr rfl
    · have hbelow := hrun
        { resumption := m.resumption, world := w.grasp [.machine { m with resumption := none }] }
      rcases hbelow with ha | ⟨b, ha⟩
      · rw [ha]
        exact .inr rfl
      · rw [ha]
        exact .inl rfl

theorem run_timeout_or_eq :
    (m.run host n w).1 = .timeout ∨ m.run host (n + 1) w = m.run host n w := by
  induction n generalizing m w with
  | zero => exact .inl rfl
  | succ n ih =>
    rw [run, run]
    rcases step_timeout_or_eq host n m w with hs | hs
    · left
      generalize m.step host n w = r at hs
      obtain ⟨move, w₁⟩ := r
      cases hs
      rfl
    · rw [hs]
      generalize m.step host n w = r
      obtain ⟨move, w₁⟩ := r
      cases move with
      | next m₁ => exact ih m₁ w₁
      | fault f m₁ =>
        simp only []
        cases m₁.handle f w₁ with
        | none => exact .inr rfl
        | some p => exact ih p.1 p.2
      | _ => exact .inr rfl

variable {host n m w}

theorem run_of_le {k : Nat} (hk : n ≤ k) (h : (m.run host n w).1 ≠ .timeout) :
    m.run host k w = m.run host n w := by
  induction hk with
  | refl => rfl
  | @step k _ ih =>
    rcases run_timeout_or_eq host k m w with ht | he
    · rw [ih] at ht
      exact absurd ht h
    · rw [he, ih]

end Machine

end Resumable

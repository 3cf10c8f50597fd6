import Resumable.Proofs.Conduct
import Resumable.Proofs.Equality

namespace Resumable

/-- Of accesses, the last first: no name was missed, and what was read had been set before. -/
def Initialised : List Access → Prop
  | [] => True
  | .wrote .. :: past => Initialised past
  | .read home k :: past => .wrote home k ∈ past ∧ Initialised past
  | .missed _ :: _ => False

namespace Initialised

theorem missed {accesses : List Access} (h : Initialised accesses) (x : String) :
    .missed x ∉ accesses := by
  induction accesses with
  | nil => exact List.not_mem_nil
  | cons a past ih =>
    cases a with
    | wrote => exact fun hx => ih h ((List.mem_cons.mp hx).resolve_left nofun)
    | read => exact fun hx => ih h.2 ((List.mem_cons.mp hx).resolve_left nofun)
    | missed => exact h.elim

theorem read {after before : List Access} {home : StorageId} {k : Slot}
    (h : Initialised (after ++ .read home k :: before)) : .wrote home k ∈ before := by
  induction after with
  | nil => exact h.1
  | cons a after ih =>
    cases a with
    | wrote => exact ih h
    | read => exact ih h.2
    | missed => exact h.elim

/-- Books about accesses. -/
def accounting {σ κ : Type} (C : Custody σ κ) : Accounting ⟨false, true⟩ C where
  Balanced := fun _ w => Initialised w.accesses
  Clean := fun w => Initialised w.accesses
  clean := id
  clean_of_eq := fun h ha _ _ _ => ha ▸ h
  inert := fun h hw => hw.accesses ▸ h
  grasp := .rfl
  ext := fun h _ _ => h
  read := fun h hk => ⟨hk rfl, h⟩
  wrote := id
  missed := fun _ hd => nomatch hd
  defect := fun h _ => h
  addStorage := id
  call := fun {own w home} host held h => by
    have ha : (((((w.grasp held).visit host home).letGo w.hands).callOver home).retain
        home).accesses = w.accesses := by
      unfold World.callOver World.visit
      split <;> split <;> rfl
    rw [ha]
    exact h
  release := id
  alive := fun _ hs => nomatch hs
  ready := id
  fresh := id
  source := fun h _ _ => h
  start := id
  settle := fun h hs => by
    obtain ⟨-, -, -, -, rfl⟩ := World.settle?_some hs
    exact h
  settleSource := fun h _ hs => by
    obtain ⟨-, -, -, -, rfl⟩ := World.settle?_some hs
    exact h
  refused := fun h _ => ⟨h, h⟩
  attach := fun h _ _ => h
  nil := id
  resume := fun h _ => h
  callback := id
  run := fun h _ => h
  suspend := fun h _ _ _ => h
  ended := fun h _ => h
  host := id

end Initialised

/-- A chain of a method of the source in which each name has a binding around it, but for functions
that are called. -/
def Chain.OfScoped (c : Chain) : Prop :=
  ∃ (m : Method) (limit : Nat), (∀ x ∈ m.names, Unmarked x) ∧ m.Scoped ∧
    Stmt.slotsIn m.body = [] ∧ m.split limit = .ok (some c)

theorem Chain.OfScoped.meets {c : Chain} (hc : c.OfScoped) : c.Meets ⟨false, true⟩ := by
  obtain ⟨m, limit, hm, hs, hsource, h⟩ := hc
  exact ⟨nofun, fun _ => Method.supplied hm hs hsource h⟩

/-- No name is ever missed, and every slot that is read has been set before. -/
theorem variables_set_before_read {σ : Type} (library : Library σ Chain.OfScoped) (memory : σ)
    (p : Program σ Chain.OfScoped) (n : Nat) :
    (∀ x, .missed x ∉ (library.leaves memory p n).accesses) ∧
      ∀ after home k before,
        (library.leaves memory p n).accesses = after ++ .read home k :: before →
          .wrote home k ∈ before := by
  have h : Initialised (library.leaves memory p n).accesses :=
    library.leaves_clean (A := Initialised.accounting _) (fun _ => Chain.OfScoped.meets) memory p n
      trivial
  exact ⟨h.missed, fun after home k before he => Initialised.read (he ▸ h)⟩

/-- A closure reads a parameter, which has a slot of its own from the start. -/
theorem lambdaYield_set_before_read :
    ∃ (c : { c : Chain // Chain.OfScoped c }) (after before : List Access), c.1 = lambdaChain ∧
      ((silentLibrary Chain.OfScoped).leaves () (.twice c [.int 4]) 20).accesses =
        after ++ .read 0 0 :: before ∧ .wrote 0 0 ∈ before := by
  let c : { c : Chain // Chain.OfScoped c } :=
    ⟨lambdaChain, lambdaYield, 30, by decide, by decide, by decide, by decide +kernel⟩
  have hs : ((silentLibrary Chain.OfScoped).leaves () (.twice c [.int 4]) 20).accesses =
      [] ++ .read 0 0 :: [.read 0 2, .read 0 0, .read 0 2, .wrote 0 2, .wrote 0 0] := by
    decide +kernel
  exact ⟨c, _, _, rfl, hs, (variables_set_before_read _ _ _ _).2 _ _ _ _ hs⟩

end Resumable

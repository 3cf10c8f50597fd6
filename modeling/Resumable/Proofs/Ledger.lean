import Resumable.Proofs.Clients
import Mathlib.Data.List.Nodup
import Mathlib.Data.List.Perm.Basic

namespace Resumable.Delivery

open List

/-! Reading the log. -/

/-- The outcome that an event gives to a future, if it is the first to do so. -/
def Event.outcome? (f : FutureId) : Event → Option Outcome
  | .made g (some o) | .settles g o | .answers g o => if g = f then some o else none
  | _ => none

def Event.attachment? (f : FutureId) : Event → Option FutureId
  | .attaches g a => if g = f then some a else none
  | _ => none

def Event.start? : Event → Option FutureId
  | .runs a _ => some a
  | _ => none

def Event.end? : Event → Option FutureId
  | .answers a _ => some a
  | _ => none

/-- The outcome of a future according to the log. -/
def decided (log : Log) (f : FutureId) : Option Outcome :=
  log.findSome? (·.event.outcome? f)

/-- The callbacks attached to a future, in order. -/
def attachedTo (log : Log) (f : FutureId) : List FutureId :=
  log.filterMap (·.event.attachment? f)

/-- The callbacks that have been run, in order. -/
def started (log : Log) : List FutureId :=
  log.filterMap (·.event.start?)

/-- The callbacks that have answered, in order. -/
def ended (log : Log) : List FutureId :=
  log.filterMap (·.event.end?)

/-- The event that ends what another event begins. -/
inductive Event.Ends : Event → Event → Prop where
  | attached (f a) : Ends (.attaches f a) (.attached a)
  | settled (f o fresh) : Ends (.settles f o) (.settled f fresh)
  | answers (a o answer) : Ends (.runs a o) (.answers a answer)

/-- Everything begun here also ends here, one inside of the other. -/
inductive Whole : Log → Prop where
  | nil : Whole []
  | made {m f o log} (hm : m.event = .made f o) (rest : Whole log) : Whole (m :: log)
  | call {x y inner rest} (h : x.event.Ends y.event) (hi : Whole inner) (hr : Whole rest) :
    Whole (x :: (inner ++ y :: rest))

/-- The callbacks run, each once and in this order, whatever else happens in between. -/
def InOrder (callbacks : List FutureId) (log : Log) : Prop :=
  (started log).filter (· ∈ callbacks) = callbacks

/-- What is true of a moment, given what has happened before. -/
structure Sound (before : Log) (m : Moment) : Prop where
  outcome : ∀ f, m.futures[f]?.bind (·.outcome) = decided before f
  drained : ∀ (f : Nat) cell, m.futures[f]? = some cell → cell.outcome.isSome → cell.waiting = []
  /-- A callback runs for the first time, with the outcome of its future. -/
  runs : ∀ a o, m.event = .runs a o →
    a ∉ started before ∧ ∃ f, a ∈ attachedTo before f ∧ decided before f = some o
  /-- Its answer is the first to settle the future for it. -/
  answers : ∀ a o, m.event = .answers a o → decided before a = none

/-- What comes of a moment later. -/
def Complete (before : Log) (m : Moment) (after : Log) : Prop :=
  match m.event with
  | .settles f _ =>
    -- a second attempt is refused at once, with the futures as they were
    ((decided before f).isSome → ∃ rest, after = ⟨.settled f false, m.futures⟩ :: rest) ∧
    -- the first one lets the callbacks run before it returns
    (decided before f = none → ∃ inner futures rest,
      after = inner ++ ⟨.settled f true, futures⟩ :: rest ∧ Whole inner ∧
        InOrder (attachedTo before f) inner)
  | .attaches f a =>
    (decided before f = none → ∃ futures rest, after = ⟨.attached a, futures⟩ :: rest) ∧
    (∀ o, decided before f = some o → ∃ now inner later rest,
      after = ⟨.runs a o, now⟩ :: inner ++ ⟨.attached a, later⟩ :: rest ∧
        Whole (⟨.runs a o, now⟩ :: inner))
  | .runs a _ =>
    -- the answer settles the future for it, and whoever waits for that runs next
    ∃ inner answer futures next rest,
      after = inner ++ ⟨.answers a answer, futures⟩ :: next ++ rest ∧ Whole inner ∧ Whole next ∧
        InOrder (attachedTo (before ++ m :: inner) a) next
  | .made .. | .attached _ | .settled .. | .answers .. => True

section

variable (log log' : Log) (m : Moment) (f : FutureId)

theorem decided_append : decided (log ++ log') f = (decided log f).or (decided log' f) :=
  findSome?_append

theorem birth_append : birth (log ++ log') f = (birth log f).or (birth log' f) :=
  findSome?_append

theorem attachedTo_append : attachedTo (log ++ log') f = attachedTo log f ++ attachedTo log' f :=
  filterMap_append

theorem started_append : started (log ++ log') = started log ++ started log' :=
  filterMap_append

theorem ended_append : ended (log ++ log') = ended log ++ ended log' :=
  filterMap_append

variable {log f} in
theorem decided_append_of_some {o : Outcome} (h : decided log f = some o) :
    decided (log ++ log') f = some o := by
  rw [decided_append, h]
  rfl

variable {log f} in
theorem mem_attachedTo_append {a : FutureId} (h : a ∈ attachedTo log f) :
    a ∈ attachedTo (log ++ log') f := by
  rw [attachedTo_append]
  exact mem_append_left _ h

theorem decided_single : decided [m] f = m.event.outcome? f := by
  simp only [decided, findSome?_cons, findSome?_nil]
  cases m.event.outcome? f <;> rfl

theorem birth_single : birth [m] f = m.event.birth? f := by
  simp only [birth, findSome?_cons, findSome?_nil]
  cases m.event.birth? f <;> rfl

theorem attachedTo_single : attachedTo [m] f = (m.event.attachment? f).toList := by
  simp only [attachedTo, filterMap_cons, filterMap_nil]
  cases m.event.attachment? f <;> rfl

theorem started_single : started [m] = m.event.start?.toList := by
  simp only [started, filterMap_cons, filterMap_nil]
  cases m.event.start? <;> rfl

theorem ended_single : ended [m] = m.event.end?.toList := by
  simp only [ended, filterMap_cons, filterMap_nil]
  cases m.event.end? <;> rfl

end

/-! Stretches of the log. -/

theorem Whole.append {log log' : Log} (h : Whole log) (h' : Whole log') : Whole (log ++ log') := by
  induction h with
  | nil => exact h'
  | made hm _ ih => exact .made hm ih
  | call he hi _ _ ih =>
    rw [cons_append, append_assoc, cons_append]
    exact .call he hi ih

theorem Complete.append {before after : Log} {m : Moment} (h : Complete before m after)
    (more : Log) : Complete before m (after ++ more) := by
  unfold Complete at h ⊢
  split
  · rename_i f o he
    simp only [he] at h
    refine ⟨fun hd => ?_, fun hd => ?_⟩
    · obtain ⟨rest, rfl⟩ := h.1 hd
      exact ⟨rest ++ more, rfl⟩
    · obtain ⟨inner, futures, rest, rfl, hw, ho⟩ := h.2 hd
      exact ⟨inner, futures, rest ++ more, by simp, hw, ho⟩
  · rename_i f a he
    simp only [he] at h
    refine ⟨fun hd => ?_, fun o hd => ?_⟩
    · obtain ⟨futures, rest, rfl⟩ := h.1 hd
      exact ⟨futures, rest ++ more, rfl⟩
    · obtain ⟨now, inner, later, rest, rfl, hw⟩ := h.2 o hd
      exact ⟨now, inner, later, rest ++ more, by simp, hw⟩
  · rename_i a o he
    simp only [he] at h
    obtain ⟨inner, answer, futures, next, rest, rfl, hi, hn, ho⟩ := h
    exact ⟨inner, answer, futures, next, rest ++ more, by simp, hi, hn, ho⟩
  all_goals trivial

theorem Complete.of_ends {before after : Log} {e : Event} {m : Moment} (h : e.Ends m.event) :
    Complete before m after := by
  obtain ⟨event, futures⟩ := m
  cases h <;> trivial

/-- A stretch of the log in which everything comes to its end. -/
structure Passes (before log : Log) : Prop where
  whole : Whole log
  complete : ∀ early m late, log = early ++ m :: late → Complete (before ++ early) m late

namespace Passes

variable {before log log' : Log}

theorem nil : Passes before [] :=
  ⟨.nil, by simp⟩

theorem append (h : Passes before log) (h' : Passes (before ++ log) log') :
    Passes before (log ++ log') := by
  refine ⟨h.whole.append h'.whole, fun early m late he => ?_⟩
  rcases append_eq_append_iff.mp he with ⟨more, rfl, hs⟩ | ⟨more, rfl, hs⟩
  · rw [← append_assoc]
    exact h'.complete more m late hs
  · cases more with
    | nil =>
      have hm := h'.complete [] m late hs.symm
      simpa using hm
    | cons x more =>
      obtain ⟨rfl, rfl⟩ := cons.inj hs
      exact (h.complete early m more rfl).append log'

theorem made {m : Moment} {f : FutureId} {o : Option Outcome} (hm : m.event = .made f o) :
    Passes before [m] := by
  refine ⟨.made hm .nil, fun early x late he => ?_⟩
  obtain ⟨rfl, rfl, rfl⟩ : early = [] ∧ x = m ∧ late = [] := by
    cases early with
    | nil => exact ⟨rfl, (cons.inj he).1.symm, (cons.inj he).2.symm⟩
    | cons y early => simp at he
  simp [Complete, hm]

theorem call {x y : Moment} {inner rest : Log} (h : x.event.Ends y.event)
    (hi : Passes (before ++ [x]) inner) (hr : Passes (before ++ x :: inner ++ [y]) rest)
    (hx : Complete before x (inner ++ y :: rest)) : Passes before (x :: (inner ++ y :: rest)) := by
  refine ⟨.call h hi.whole hr.whole, fun early m late he => ?_⟩
  cases early with
  | nil =>
    obtain ⟨rfl, rfl⟩ := cons.inj he
    simpa using hx
  | cons z early =>
    obtain ⟨rfl, htail⟩ := cons.inj he
    have hy : Complete (before ++ x :: inner) y rest := .of_ends h
    rcases append_eq_append_iff.mp htail with ⟨more, rfl, hs⟩ | ⟨more, rfl, hs⟩
    · cases more with
      | nil =>
        obtain ⟨rfl, rfl⟩ := cons.inj hs
        simpa using hy
      | cons u more =>
        obtain ⟨rfl, hrest⟩ := cons.inj hs
        simpa using hr.complete more m late hrest
    · cases more with
      | nil =>
        obtain ⟨rfl, rfl⟩ := cons.inj hs
        simpa using hy
      | cons u more =>
        obtain ⟨rfl, rfl⟩ := cons.inj hs
        simpa using (hi.complete early m more rfl).append (y :: rest)

theorem pair {x y : Moment} (h : x.event.Ends y.event) (hx : Complete before x [y]) :
    Passes before [x, y] :=
  call h nil nil hx

end Passes

/-! The futures and their log. -/

/-- The future for the answer of a callback that waits. -/
def tag : Continuation Key → Option FutureId
  | .callback (_, a) next => if a = next then some a else none
  | .resume .. => none

theorem tag_eq_some {k : Continuation Key} {a : FutureId} (h : tag k = some a) :
    ∃ callback, k = .callback (callback, a) a := by
  cases k with
  | resume m result => cases h
  | callback key next =>
    obtain ⟨callback, b⟩ := key
    simp only [tag, Option.ite_none_right_eq_some, Option.some.injEq] at h
    exact ⟨callback, by rw [← h.1, h.2]⟩

/-- The futures are as their log says. The callbacks in `due` are on lists that are being handed
out, those in `open_` have not answered yet. -/
structure Kept (futures : Futures) (log : Log) (due open_ : List FutureId) : Prop where
  outcome : ∀ f, futures[f]?.bind (·.outcome) = decided log f
  waiting : ∀ (f : Nat) cell, futures[f]? = some cell →
    cell.waiting.map tag = if cell.outcome.isSome then [] else (attachedTo log f).map some
  born : ∀ f, (birth log f).isSome ↔ f < futures.size
  target : ∀ f, ∀ a ∈ attachedTo log f, f < futures.size
  attached : ∀ f, ∀ a ∈ attachedTo log f, birth log a = some .attached
  distinct : ∀ f, (attachedTo log f).Nodup
  owner : ∀ f g a, a ∈ attachedTo log f → a ∈ attachedTo log g → f = g
  runs : ∀ f, ∀ a ∈ attachedTo log f, a ∈ started log ++ due ↔ (decided log f).isSome
  known : ∀ a ∈ started log ++ due, ∃ f, a ∈ attachedTo log f
  once : (started log ++ due).Nodup
  answers : (ended log ++ open_).Perm (started log)
  replied : ∀ a, birth log a = some .attached → ((decided log a).isSome ↔ a ∈ ended log)
  sound : ∀ early m late, log = early ++ m :: late → Sound early m

/-- The event that settles a future for the first time: someone settles it who has its source, or
its callback answers. -/
inductive Settling (log : Log) (f : FutureId) (o : Outcome) :
    Event → (before after : List FutureId) → Prop where
  | source {l} (hf : birth log f = some .source) : Settling log f o (.settles f o) l l
  | answer {l} : Settling log f o (.answers f o) (f :: l) l

namespace Kept

variable {futures : Futures} {log : Log} {due open_ : List FutureId}

section

variable (h : Kept futures log due open_)
include h

theorem drained {f : Nat} {cell : FutureCell Key}
    (hf : futures[f]? = some cell) (ho : cell.outcome.isSome) : cell.waiting = [] := by
  have hw := h.waiting f cell hf
  rw [if_pos ho] at hw
  exact map_eq_nil_iff.mp hw

theorem sound_note {e : Event}
    (hr : ∀ a o, e = .runs a o →
      a ∉ started log ∧ ∃ f, a ∈ attachedTo log f ∧ decided log f = some o)
    (ha : ∀ a o, e = .answers a o → decided log a = none) :
    ∀ early m late, log ++ [⟨e, futures⟩] = early ++ m :: late → Sound early m := by
  intro early m late he
  rcases append_eq_append_iff.mp he with ⟨more, rfl, hs⟩ | ⟨more, rfl, hs⟩
  · cases more with
    | nil =>
      obtain ⟨rfl, rfl⟩ := cons.inj hs
      rw [append_nil]
      exact ⟨h.outcome, fun f cell => h.drained, hr, ha⟩
    | cons x more => simp at hs
  · cases more with
    | nil =>
      obtain ⟨rfl, rfl⟩ := cons.inj hs
      rw [append_nil] at h hr ha
      exact ⟨h.outcome, fun f cell => h.drained, hr, ha⟩
    | cons x more =>
      obtain ⟨rfl, rfl⟩ := cons.inj hs
      exact h.sound early m more rfl

theorem idle {e : Event}
    (hd : ∀ f, (e.outcome? f).isSome → (decided log f).isSome) (hb : ∀ f, e.birth? f = none)
    (ha : ∀ f, e.attachment? f = none) (hs : e.start? = none) (he : e.end? = none) :
    Kept futures (log ++ [⟨e, futures⟩]) due open_ := by
  have hdecided : ∀ f, decided (log ++ [⟨e, futures⟩]) f = decided log f := by
    intro f
    rw [decided_append, decided_single]
    cases hl : decided log f with
    | some o => rfl
    | none =>
      have hn := hd f
      rw [hl] at hn
      simpa using hn
  have hbirth : ∀ f, birth (log ++ [⟨e, futures⟩]) f = birth log f := by
    intro f
    rw [birth_append, birth_single, hb, Option.or_none]
  have hattached : ∀ f, attachedTo (log ++ [⟨e, futures⟩]) f = attachedTo log f := by
    intro f
    rw [attachedTo_append, attachedTo_single, ha, Option.toList_none, append_nil]
  have hstarted : started (log ++ [⟨e, futures⟩]) = started log := by
    rw [started_append, started_single, hs, Option.toList_none, append_nil]
  have hended : ended (log ++ [⟨e, futures⟩]) = ended log := by
    rw [ended_append, ended_single, he, Option.toList_none, append_nil]
  have hsound := h.sound_note (e := e) (by rintro a o rfl; cases hs) (by rintro a o rfl; cases he)
  refine ⟨?_, ?_, ?_, ?_, ?_, ?_, ?_, ?_, ?_, ?_, ?_, ?_, hsound⟩ <;>
    simp only [hdecided, hbirth, hattached, hstarted, hended]
  · exact h.outcome
  · exact h.waiting
  · exact h.born
  · exact h.target
  · exact h.attached
  · exact h.distinct
  · exact h.owner
  · exact h.runs
  · exact h.known
  · exact h.once
  · exact h.answers
  · exact h.replied

theorem lt_of_attached {f a : FutureId} (ha : a ∈ attachedTo log f) : a < futures.size := by
  rw [← h.born, h.attached f a ha]
  rfl

theorem decided_of_le {f : FutureId} (hf : futures.size ≤ f) : decided log f = none := by
  rw [← h.outcome, Array.getElem?_eq_none hf]
  rfl

theorem birth_of_le {f : FutureId} (hf : futures.size ≤ f) : birth log f = none := by
  have hn := mt (h.born f).mp (Nat.not_lt.mpr hf)
  simpa using hn

theorem attachedTo_of_le {f : FutureId} (hf : futures.size ≤ f) : attachedTo log f = [] := by
  rw [eq_nil_iff_forall_not_mem]
  intro a ha
  exact absurd (h.target f a ha) (Nat.not_lt.mpr hf)

theorem not_attached_size (f : FutureId) :
    futures.size ∉ attachedTo log f := fun ha =>
  Nat.lt_irrefl _ (h.lt_of_attached ha)

theorem not_started_size : futures.size ∉ started log ++ due := by
  intro hs
  obtain ⟨f, hf⟩ := h.known _ hs
  exact h.not_attached_size f hf

theorem made (o : Option Outcome) :
    Kept (futures.push { outcome := o }) (log ++ [⟨.made futures.size o, futures⟩]) due open_ := by
  have hdecided : ∀ f, decided (log ++ [⟨.made futures.size o, futures⟩]) f =
      if f = futures.size then o else decided log f := by
    intro f
    rw [decided_append, decided_single]
    by_cases hf : f = futures.size
    · subst hf
      rw [h.decided_of_le (Nat.le_refl _)]
      cases o <;> simp [Event.outcome?]
    · cases o <;> simp [Event.outcome?, hf, Ne.symm hf]
  have hbirth : ∀ f, f ≠ futures.size →
      birth (log ++ [⟨.made futures.size o, futures⟩]) f = birth log f := by
    intro f hf
    rw [birth_append, birth_single]
    cases o <;> simp [Event.birth?, Ne.symm hf]
  have hnew : ∃ b, birth (log ++ [⟨.made futures.size o, futures⟩]) futures.size = some b ∧
      b ≠ .attached := by
    rw [birth_append, birth_single, h.birth_of_le (Nat.le_refl _)]
    cases o <;> simp [Event.birth?]
  have hattached : ∀ f, attachedTo (log ++ [⟨.made futures.size o, futures⟩]) f =
      attachedTo log f := by
    intro f
    simp [attachedTo_append, attachedTo_single, Event.attachment?]
  have hstarted : started (log ++ [⟨.made futures.size o, futures⟩]) = started log := by
    simp [started_append, started_single, Event.start?]
  have hended : ended (log ++ [⟨.made futures.size o, futures⟩]) = ended log := by
    simp [ended_append, ended_single, Event.end?]
  have hsound := h.sound_note (e := .made futures.size o) nofun nofun
  refine ⟨?_, ?_, ?_, ?_, ?_, ?_, ?_, ?_, ?_, ?_, ?_, ?_, hsound⟩ <;>
    try simp only [hdecided, hattached, hstarted, hended]
  · intro f
    rw [Array.getElem?_push]
    split
    · rfl
    · exact h.outcome f
  · intro f cell hf
    rw [Array.getElem?_push] at hf
    split at hf
    · rename_i hs
      cases hf
      simp [h.attachedTo_of_le (Nat.le_of_eq hs.symm)]
    · exact h.waiting f cell hf
  · intro f
    rw [Array.size_push, Nat.lt_succ_iff_lt_or_eq]
    by_cases hf : f = futures.size
    · obtain ⟨b, hb, -⟩ := hnew
      simp [hf, hb]
    · rw [hbirth f hf, h.born f]
      simp [hf]
  · intro f a ha
    rw [Array.size_push]
    exact Nat.lt_succ_of_lt (h.target f a ha)
  · intro f a ha
    rw [hbirth a (Nat.ne_of_lt (h.lt_of_attached ha))]
    exact h.attached f a ha
  · exact h.distinct
  · exact h.owner
  · intro f a ha
    rw [if_neg (Nat.ne_of_lt (h.target f a ha))]
    exact h.runs f a ha
  · exact h.known
  · exact h.once
  · exact h.answers
  · intro a ha
    by_cases hs : a = futures.size
    · obtain ⟨b, hb, hne⟩ := hnew
      rw [hs, hb] at ha
      exact absurd (Option.some.inj ha) hne
    · rw [hbirth a hs] at ha
      rw [if_neg hs]
      exact h.replied a ha

theorem settled {f : FutureId} {cell : FutureCell Key}
    (hf : futures[f]? = some cell) (hc : cell.outcome = none) {o : Outcome} {e : Event}
    {left : List FutureId} (he : Settling log f o e open_ left) :
    Kept (futures.modify f fun _ => { outcome := some o }) (log ++ [⟨e, futures⟩])
      (attachedTo log f ++ due) left := by
  have hpending : decided log f = none := by
    rw [← h.outcome, hf]
    exact hc
  have hdecided : ∀ g, decided (log ++ [⟨e, futures⟩]) g =
      if g = f then some o else decided log g := by
    intro g
    rw [decided_append, decided_single]
    by_cases hg : g = f
    · subst hg
      cases he <;> simp [hpending, Event.outcome?]
    · cases he <;> simp [hg, Ne.symm hg, Event.outcome?]
  have hbirth : ∀ g, birth (log ++ [⟨e, futures⟩]) g = birth log g := by
    intro g
    rw [birth_append, birth_single]
    cases he <;> simp [Event.birth?]
  have hattached : ∀ g, attachedTo (log ++ [⟨e, futures⟩]) g = attachedTo log g := by
    intro g
    rw [attachedTo_append, attachedTo_single]
    cases he <;> simp [Event.attachment?]
  have hstarted : started (log ++ [⟨e, futures⟩]) = started log := by
    rw [started_append, started_single]
    cases he <;> simp [Event.start?]
  have hended : ended (log ++ [⟨e, futures⟩]) ++ left = ended log ++ open_ := by
    rw [ended_append, ended_single]
    cases he <;> simp [Event.end?]
  have hsound := h.sound_note (e := e) (by rintro a o rfl; cases he)
    (by rintro a o rfl; cases he; exact hpending)
  have hfresh : ∀ a ∈ attachedTo log f, a ∉ started log ++ due := by
    intro a ha hs
    have := (h.runs f a ha).mp hs
    rw [hpending] at this
    cases this
  have hmem : ∀ a, a ∈ started log ++ (attachedTo log f ++ due) ↔
      a ∈ attachedTo log f ∨ a ∈ started log ++ due := by
    intro a
    simp only [mem_append]
    tauto
  refine ⟨?_, ?_, ?_, ?_, ?_, ?_, ?_, ?_, ?_, ?_, ?_, ?_, hsound⟩ <;>
    try simp only [hdecided, hbirth, hattached, hstarted, hended, Array.size_modify, hmem]
  · intro g
    rw [Array.getElem?_modify]
    by_cases hg : g = f
    · subst hg
      simp [hf]
    · rw [if_neg (Ne.symm hg), if_neg hg]
      exact h.outcome g
  · intro g c hg
    rw [Array.getElem?_modify] at hg
    split at hg
    · obtain ⟨old, -, rfl⟩ := Option.map_eq_some_iff.mp hg
      rfl
    · exact h.waiting g c hg
  · exact h.born
  · exact h.target
  · exact h.attached
  · exact h.distinct
  · exact h.owner
  · intro g a ha
    by_cases hg : g = f
    · subst hg
      simp [ha]
    · have hne : a ∉ attachedTo log f := fun hf => hg (h.owner g f a ha hf)
      rw [if_neg hg, ← h.runs g a ha]
      simp [hne]
  · intro a ha
    rcases ha with ha | ha
    · exact ⟨f, ha⟩
    · exact h.known a ha
  · have hperm : (started log ++ (attachedTo log f ++ due)).Perm
        (attachedTo log f ++ (started log ++ due)) := by
      rw [← append_assoc, ← append_assoc]
      exact (perm_append_comm).append_right due
    rw [hperm.nodup_iff, nodup_append']
    exact ⟨h.distinct f, h.once, fun a ha hs => hfresh a ha hs⟩
  · exact h.answers
  · intro a ha
    cases he with
    | source hsource =>
      have hne : a ≠ f := by
        rintro rfl
        cases ha.symm.trans hsource
      rw [if_neg hne, h.replied a ha, ended_append, ended_single]
      simp [Event.end?]
    | answer =>
      rw [ended_append, ended_single, mem_append, ← h.replied a ha]
      by_cases hne : a = f
      · simp [hne, Event.end?]
      · simp [hne, Event.end?]

end

theorem run {a f : FutureId} (h : Kept futures log (a :: due) open_) {o : Outcome}
    (ha : a ∈ attachedTo log f) (hf : decided log f = some o) :
    Kept futures (log ++ [⟨.runs a o, futures⟩]) due (a :: open_) := by
  have hdecided : ∀ g, decided (log ++ [⟨.runs a o, futures⟩]) g = decided log g := by
    intro g
    simp [decided_append, decided_single, Event.outcome?]
  have hbirth : ∀ g, birth (log ++ [⟨.runs a o, futures⟩]) g = birth log g := by
    intro g
    simp [birth_append, birth_single, Event.birth?]
  have hattached : ∀ g, attachedTo (log ++ [⟨.runs a o, futures⟩]) g = attachedTo log g := by
    intro g
    simp [attachedTo_append, attachedTo_single, Event.attachment?]
  have hstarted : started (log ++ [⟨.runs a o, futures⟩]) = started log ++ [a] := by
    simp [started_append, started_single, Event.start?]
  have hended : ended (log ++ [⟨.runs a o, futures⟩]) = ended log := by
    simp [ended_append, ended_single, Event.end?]
  have hdue : started log ++ [a] ++ due = started log ++ a :: due := by simp
  have hfresh : a ∉ started log := by
    intro hs
    exact (nodup_append'.mp h.once).2.2 hs mem_cons_self
  have hsound := h.sound_note (e := .runs a o) (by
    rintro b o' ⟨⟩
    exact ⟨hfresh, f, ha, hf⟩) nofun
  refine ⟨?_, ?_, ?_, ?_, ?_, ?_, ?_, ?_, ?_, ?_, ?_, ?_, hsound⟩ <;>
    simp only [hdecided, hbirth, hattached, hstarted, hended, hdue]
  · exact h.outcome
  · exact h.waiting
  · exact h.born
  · exact h.target
  · exact h.attached
  · exact h.distinct
  · exact h.owner
  · exact h.runs
  · exact h.known
  · exact h.once
  · refine perm_middle.trans ?_
    exact (h.answers.cons a).trans (perm_append_singleton a _).symm
  · exact h.replied

section

variable {f : FutureId}

theorem attachedTo_attaches (futures : Futures) (log : Log) (f g a : FutureId) :
    attachedTo (log ++ [⟨.attaches f a, futures⟩]) g =
      if g = f then attachedTo log g ++ [a] else attachedTo log g := by
  rw [attachedTo_append, attachedTo_single]
  by_cases hg : g = f
  · simp [hg, Event.attachment?]
  · simp [hg, Ne.symm hg, Event.attachment?]

section

variable (h : Kept futures log due open_)
include h

theorem attaches (hf : f < futures.size) {new : Futures}
    {due' : List FutureId} (hsize : new.size = futures.size + 1)
    (hout : ∀ g : Nat, new[g]?.bind (·.outcome) = futures[g]?.bind (·.outcome))
    (hwait : ∀ (g : Nat) cell, new[g]? = some cell → cell.waiting.map tag =
      if cell.outcome.isSome then []
      else (attachedTo (log ++ [⟨.attaches f futures.size, futures⟩]) g).map some)
    (hdue : due' = if (decided log f).isSome then futures.size :: due else due) :
    Kept new (log ++ [⟨.attaches f futures.size, futures⟩]) due' open_ := by
  have hdecided : ∀ g, decided (log ++ [⟨.attaches f futures.size, futures⟩]) g =
      decided log g := by
    intro g
    simp [decided_append, decided_single, Event.outcome?]
  have hbirth : ∀ g, birth (log ++ [⟨.attaches f futures.size, futures⟩]) g =
      if g = futures.size then some .attached else birth log g := by
    intro g
    rw [birth_append, birth_single]
    by_cases hg : g = futures.size
    · simp [hg, Event.birth?, h.birth_of_le (Nat.le_refl _)]
    · simp [hg, Ne.symm hg, Event.birth?]
  have hattached : ∀ g a, a ∈ attachedTo (log ++ [⟨.attaches f futures.size, futures⟩]) g ↔
      a ∈ attachedTo log g ∨ g = f ∧ a = futures.size := by
    intro g a
    rw [attachedTo_attaches]
    split <;> simp_all
  have hstarted : Delivery.started (log ++ [⟨.attaches f futures.size, futures⟩]) =
      Delivery.started log := by
    simp [started_append, started_single, Event.start?]
  have hended : ended (log ++ [⟨.attaches f futures.size, futures⟩]) = ended log := by
    simp [ended_append, ended_single, Event.end?]
  have hmem : ∀ a, a ∈ Delivery.started log ++ due' ↔
      a ∈ Delivery.started log ++ due ∨ (decided log f).isSome ∧ a = futures.size := by
    intro a
    rw [hdue]
    split <;> simp_all
    tauto
  have hsound := h.sound_note (e := .attaches f futures.size) nofun nofun
  refine ⟨?_, hwait, ?_, ?_, ?_, ?_, ?_, ?_, ?_, ?_, ?_, ?_, hsound⟩ <;>
    try simp only [hdecided, hbirth, hattached, hstarted, hended, hsize, hmem]
  · exact fun g => (hout g).trans (h.outcome g)
  · intro g
    rw [Nat.lt_succ_iff_lt_or_eq, ← h.born g]
    split <;> simp_all
  · rintro g a (ha | ⟨rfl, -⟩)
    · exact Nat.lt_succ_of_lt (h.target g a ha)
    · exact Nat.lt_succ_of_lt hf
  · rintro g a (ha | ⟨-, rfl⟩)
    · rw [if_neg (Nat.ne_of_lt (h.lt_of_attached ha))]
      exact h.attached g a ha
    · rw [if_pos rfl]
  · intro g
    rw [attachedTo_attaches]
    split
    · refine List.Nodup.append (h.distinct g) (nodup_singleton _) ?_
      intro a ha hs
      cases mem_singleton.mp hs
      exact h.not_attached_size g ha
    · exact h.distinct g
  · rintro g g' a (ha | ⟨hg, ha⟩) (ha' | ⟨hg', ha'⟩)
    · exact h.owner g g' a ha ha'
    · exact absurd (ha' ▸ ha) (h.not_attached_size g)
    · exact absurd (ha ▸ ha') (h.not_attached_size g')
    · exact hg.trans hg'.symm
  · rintro g a (ha | ⟨rfl, rfl⟩)
    · rw [← h.runs g a ha]
      have hne := Nat.ne_of_lt (h.lt_of_attached ha)
      simp [hne]
    · have hne := h.not_started_size
      simp [hne]
  · rintro a (ha | ⟨-, rfl⟩)
    · obtain ⟨g, hg⟩ := h.known a ha
      exact ⟨g, .inl hg⟩
    · exact ⟨f, .inr ⟨rfl, rfl⟩⟩
  · rw [hdue]
    split
    · rw [nodup_middle]
      exact nodup_cons.mpr ⟨h.not_started_size, h.once⟩
    · exact h.once
  · exact h.answers
  · intro a ha
    split at ha
    · rename_i hs
      have hend : a ∉ ended log := by
        intro he
        have hst := h.answers.mem_iff.mp (mem_append_left open_ he)
        exact h.not_started_size (hs ▸ mem_append_left due hst)
      rw [hs, h.decided_of_le (Nat.le_refl _)]
      simpa [hs] using hend
    · exact h.replied a ha

theorem waiting_push {g : FutureId} (hg : g ≠ f)
    {cell : FutureCell Key} (hc : (futures.push {})[g]? = some cell) :
    cell.waiting.map tag = if cell.outcome.isSome then []
      else (attachedTo (log ++ [⟨.attaches f futures.size, futures⟩]) g).map some := by
  rw [attachedTo_attaches, if_neg hg]
  rw [Array.getElem?_push] at hc
  split at hc
  · rename_i hs
    cases hc
    simp [h.attachedTo_of_le (Nat.le_of_eq hs.symm)]
  · exact h.waiting g cell hc

theorem attach (hd : decided log f = none)
    (hf : f < futures.size) {k : Continuation Key} (hk : tag k = some futures.size) :
    Kept ((futures.push {}).modify f fun c => { c with waiting := c.waiting ++ [k] })
      (log ++ [⟨.attaches f futures.size, futures⟩]) due open_ := by
  refine h.attaches hf (by simp) ?_ ?_ (by simp [hd])
  · intro g
    rw [Array.getElem?_modify, Array.getElem?_push]
    split <;> split <;> simp_all
  · intro g cell hg
    rw [Array.getElem?_modify] at hg
    split at hg
    · rename_i hfg
      subst hfg
      rw [Array.getElem?_push, if_neg (Nat.ne_of_lt hf)] at hg
      obtain ⟨old, hold, rfl⟩ := Option.map_eq_some_iff.mp hg
      have hnone : old.outcome = none := by
        have ho := h.outcome f
        rw [hold, hd] at ho
        exact ho
      have hw := h.waiting f old hold
      rw [hnone] at hw
      rw [attachedTo_attaches, if_pos rfl]
      simpa [hnone, hk] using hw
    · rename_i hfg
      exact h.waiting_push (Ne.symm hfg) hg

theorem attach_late (hd : (decided log f).isSome)
    (hf : f < futures.size) :
    Kept (futures.push {}) (log ++ [⟨.attaches f futures.size, futures⟩])
      (futures.size :: due) open_ := by
  refine h.attaches hf (by simp) ?_ ?_ (by simp [hd])
  · intro g
    rw [Array.getElem?_push]
    split <;> simp_all
  · intro g cell hg
    by_cases hgf : g = f
    · subst hgf
      rw [Array.getElem?_push, if_neg (Nat.ne_of_lt hf)] at hg
      have ho := h.outcome g
      rw [hg] at ho
      have hsome : cell.outcome.isSome := by
        simpa [← ho] using hd
      rw [if_pos hsome, h.drained hg hsome]
      rfl
    · exact h.waiting_push hgf hg

end

end

end Kept

end Resumable.Delivery

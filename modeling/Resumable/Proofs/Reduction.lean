import Resumable.Proofs.Lookup
import Resumable.Splitting.Reduce
import Mathlib.Data.List.TakeWhile

namespace Resumable

open List

namespace Reduce

variable {handlers : List Handler} {states : List State} {i s : Nat} {α : Type} {a : α} {l : List α}
  {marks : Marks} {p : α → Bool}

/-! Reachable states. -/

theorem gather_subset (next : Nat → List Nat) :
    ∀ (n : Nat) (left work : List Nat), gather next n left work ⊆ left := by
  intro n
  induction n with
  | zero => intro left work s hs; cases hs
  | succ n ih =>
    intro left work s hs
    rw [gather] at hs
    split at hs
    · cases hs
    · rename_i t rest hd
      rcases mem_cons.mp hs with rfl | hs
      · have ht := head?_dropWhile_not (fun x => !left.contains x) work
        rw [hd] at ht
        simpa using ht
      · exact mem_of_mem_erase (ih _ _ hs)

/-- With enough calls nothing is overlooked: neither what there was to do, nor what comes after a
node found. -/
theorem gather_closed (next : Nat → List Nat) :
    ∀ (n : Nat) (left work : List Nat), left.length ≤ n → left.Nodup → ∀ t ∈ left,
      (t ∈ work ∨ ∃ s ∈ gather next n left work, t ∈ next s) → t ∈ gather next n left work := by
  intro n
  induction n with
  | zero =>
    intro left work hn _ t ht
    rw [length_eq_zero_iff.mp (Nat.le_zero.mp hn)] at ht
    cases ht
  | succ n ih =>
    intro left work hn hnd t ht h
    rw [gather] at h ⊢
    have hsplit := takeWhile_append_dropWhile (p := fun x => !left.contains x) (l := work)
    have hskip : t ∈ work → t ∈ work.dropWhile (fun x => !left.contains x) := by
      intro hw
      rw [← hsplit] at hw
      rcases mem_append.mp hw with hw | hw
      · have := mem_takeWhile_imp hw
        simp [ht] at this
      · exact hw
    split at h
    · rename_i hd
      rw [hd] at hskip
      rcases h with hw | ⟨s, hs, -⟩
      · cases hskip hw
      · cases hs
    · rename_i s rest hd
      rw [hd] at hskip
      have hs : s ∈ left := by
        have := head?_dropWhile_not (fun x => !left.contains x) work
        rw [hd] at this
        simpa using this
      by_cases hts : t = s
      · exact hts ▸ mem_cons_self
      refine mem_cons_of_mem _ (ih _ _ ?_ (hnd.erase s) t
        ((mem_erase_of_ne hts).mpr ht) ?_)
      · rw [length_erase_of_mem hs]
        omega
      · rcases h with hw | ⟨u, hu, htu⟩
        · exact .inl (mem_append_right _ ((mem_cons.mp (hskip hw)).resolve_left hts))
        · rcases mem_cons.mp hu with rfl | hu
          · exact .inl (mem_append_left _ htu)
          · exact .inr ⟨u, hu, htu⟩

/-- Nothing is found without a reason: it was there to do, or it comes after a node found
before. -/
theorem gather_from (next : Nat → List Nat) :
    ∀ (n : Nat) (left work : List Nat), ∀ t ∈ gather next n left work,
      t ∈ work ∨ ∃ s ∈ gather next n left work, t ∈ next s ∧
        (gather next n left work).idxOf s < (gather next n left work).idxOf t := by
  intro n
  induction n with
  | zero => intro left work t ht; cases ht
  | succ n ih =>
    intro left work t ht
    rw [gather] at ht ⊢
    split at ht
    · cases ht
    · rename_i s rest hd
      have hwork : ∀ x ∈ s :: rest, x ∈ work := fun x hx =>
        (dropWhile_suffix (fun x => !left.contains x)).subset (hd ▸ hx)
      by_cases hts : s = t
      · exact .inl (hwork t (hts ▸ mem_cons_self))
      · have ht := (mem_cons.mp ht).resolve_left (Ne.symm hts)
        rcases ih _ _ t ht with hw | ⟨u, hu, htu, hlt⟩
        · rcases mem_append.mp hw with hs | hr
          · refine .inr ⟨s, mem_cons_self, hs, ?_⟩
            simp [idxOf_cons, beq_false_of_ne hts]
          · exact .inl (hwork t (mem_cons_of_mem _ hr))
        · refine .inr ⟨u, mem_cons_of_mem _ hu, htu, ?_⟩
          by_cases hus : s = u
          · simp [idxOf_cons, hus, beq_false_of_ne (hus ▸ hts)]
          · simpa [idxOf_cons, beq_false_of_ne hts, beq_false_of_ne hus] using hlt

theorem lt_of_live (h : s ∈ liveStates states handlers) : s < states.length :=
  mem_range.mp (gather_subset _ _ _ _ h)

theorem live_entry (handlers : List Handler) (h : 0 < states.length) :
    Chain.entry ∈ liveStates states handlers :=
  gather_closed _ _ _ _ (by simp) nodup_range _ (mem_range.mpr h)
    (.inl (mem_singleton.mpr rfl))

theorem live_next {t : Nat} (h : s ∈ liveStates states handlers) (ht : t ∈ next states handlers s)
    (hlt : t < states.length) : t ∈ liveStates states handlers :=
  gather_closed _ _ _ _ (by simp) nodup_range _ (mem_range.mpr hlt) (.inr ⟨s, h, ht⟩)

theorem live_from (h : s ∈ liveStates states handlers) (hs : s ≠ Chain.entry) :
    ∃ u, u ∈ liveStates states handlers ∧ s ∈ next states handlers u ∧
      (liveStates states handlers).idxOf u < (liveStates states handlers).idxOf s := by
  rcases gather_from _ _ _ _ s h with hw | hu
  · exact absurd (mem_singleton.mp hw) hs
  · exact hu

/-! New numbers. -/

theorem getElem?_ranks {bs : List Bool} (hi : i < bs.length) (start : Nat) :
    (ranks start bs)[i]? = some (start + (bs.take i).count true) := by
  induction bs generalizing start i with
  | nil => cases hi
  | cons b bs ih =>
    cases i with
    | zero => simp [ranks]
    | succ i =>
      simp only [ranks, getElem?_cons_succ, ih (Nat.lt_of_succ_lt_succ hi), take_succ_cons,
        count_cons]
      cases b <;> simp
      omega

/-- The new number of a flagged number: so many flags stand before it. -/
theorem rank_eq (h : marks.has i = true) :
    rank marks (ranks 0 marks.toList).toArray i = (marks.toList.take i).count true := by
  have hi : i < marks.toList.length := by
    simp only [Marks.has, beq_iff_eq] at h
    obtain ⟨hi, -⟩ := Array.getElem?_eq_some_iff.mp h
    simpa using hi
  rw [rank, if_pos h, getElem?_toArray, getElem?_ranks hi, Option.getD_some, Nat.zero_add]

theorem rank_lt {j : Nat} (hi : marks.has i = true) (hj : marks.has j = true) (h : i < j) :
    rank marks (ranks 0 marks.toList).toArray i <
      rank marks (ranks 0 marks.toList).toArray j := by
  rw [rank_eq hi, rank_eq hj]
  have hn : marks.toList[i]? = some true := by simpa [Marks.has] using hi
  have hp : marks.toList.take (i + 1) <+: marks.toList.take j :=
    take_prefix_take_left (by omega)
  have hc : (marks.toList.take (i + 1)).count true = (marks.toList.take i).count true + 1 := by
    rw [take_add_one, hn]
    simp
  have := hp.sublist.count_le true
  omega

/-- The place of an element after the others have gone. -/
theorem getElem?_filter_countP (hi : l[i]? = some a) (ha : p a = true) :
    (l.filter p)[(l.take i).countP p]? = some a := by
  induction l generalizing i with
  | nil => cases hi
  | cons b l ih =>
    cases i with
    | zero =>
      cases hi
      simp [ha]
    | succ i =>
      have hl := ih hi
      by_cases hb : p b = true
      · simpa [hb] using hl
      · simpa [hb] using hl

/-- An element that is kept has a place in the list, and its new place is the number of those kept
before it. -/
theorem exists_of_getElem?_filter {k : Nat} (h : (l.filter p)[k]? = some a) :
    ∃ i, l[i]? = some a ∧ p a = true ∧ (l.take i).countP p = k := by
  induction l generalizing k with
  | nil => cases h
  | cons b l ih =>
    by_cases hb : p b = true
    · rw [filter_cons_of_pos hb] at h
      cases k with
      | zero =>
        cases h
        exact ⟨0, rfl, hb, rfl⟩
      | succ k =>
        obtain ⟨i, hi, ha, hk⟩ := ih h
        exact ⟨i + 1, hi, ha, by simp [hb, hk]⟩
    · rw [filter_cons_of_neg hb] at h
      obtain ⟨i, hi, ha, hk⟩ := ih h
      exact ⟨i + 1, hi, ha, by simp [hb, hk]⟩

section

variable {α : Type} {l : List α} {marks : Marks} {f : α → Nat}
  (hf : ∀ (i : Nat) a, l[i]? = some a → f a = i) (hm : marks.size = l.length)
include hf hm

/-- In a list whose elements know their places, the flags before a place are those of the elements
before it. -/
theorem rank_eq_countP {i : Nat} (h : marks.has i = true) :
    rank marks (ranks 0 marks.toList).toArray i = (l.take i).countP fun a => marks.has (f a) := by
  have hlist : marks.toList = l.map fun a => marks.has (f a) := by
    refine ext_getElem (by simpa using hm) ?_
    intro k hk hk'
    have hl : k < l.length := by simpa using hk'
    rw [getElem_map, hf k l[k] (getElem?_eq_getElem hl)]
    have : k < marks.size := by omega
    simp [Marks.has, this]
  rw [rank_eq h, hlist, ← map_take, count_eq_countP, countP_map]
  simp [Function.comp_def]

/-- What is kept of a list stands at the place that the flags give it. -/
theorem getElem?_filter_rank {i : Nat} {a : α} (h : marks.has i = true) (hi : l[i]? = some a) :
    (l.filter fun a => marks.has (f a))[rank marks (ranks 0 marks.toList).toArray i]? = some a := by
  rw [rank_eq_countP hf hm h]
  exact getElem?_filter_countP hi (by rw [hf i a hi, h])

theorem exists_rank_of_filter {k : Nat} {a : α}
    (h : (l.filter fun a => marks.has (f a))[k]? = some a) :
    ∃ i, marks.has i = true ∧ l[i]? = some a ∧ rank marks (ranks 0 marks.toList).toArray i = k := by
  obtain ⟨i, hi, ha, hk⟩ := exists_of_getElem?_filter h
  rw [hf i a hi] at ha
  exact ⟨i, ha, hi, (rank_eq_countP hf hm ha).trans hk⟩

end

/-! The table after the reduction. -/

section

variable (states : List State) (handlers : List Handler)

/-- The handlers that cover some live state. -/
def liveHandlers : List HandlerId :=
  (liveStates states handlers).flatMap fun s =>
    (states[s]?.toList.flatMap (covering handlers)).map (·.id)

def stateMarks : Marks := Marks.ofList states.length (liveStates states handlers)

def handlerMarks : Marks := Marks.ofList handlers.length (liveHandlers states handlers)

/-- The new number of a state. -/
def stateNumber : StateId → StateId :=
  rank (stateMarks states handlers) (ranks 0 (stateMarks states handlers).toList).toArray

/-- The new number of a handler. -/
def handlerNumber : HandlerId → HandlerId :=
  rank (handlerMarks states handlers) (ranks 0 (handlerMarks states handlers).toList).toArray

end

/-- A state with its references renumbered. -/
def renumberState (ρ : StateId → StateId) (η : HandlerId → HandlerId) (st : State) : State :=
  { st with id := ρ st.id, exit := st.exit.mapStates ρ, handler := st.handler.map η }

/-- A handler with its references renumbered. -/
def renumberHandler (ρ : StateId → StateId) (η : HandlerId → HandlerId) (h : Handler) : Handler :=
  { h with id := η h.id, cleanup := h.cleanup.map ρ, parent := h.parent.map η,
           clause := h.clause.map fun c => { c with entry := ρ c.entry } }

theorem livePart_eq (states : List State) (handlers : List Handler) :
    livePart states handlers =
      ((states.filter fun s => (stateMarks states handlers).has s.id).map
        (renumberState (stateNumber states handlers) (handlerNumber states handlers)),
       (handlers.filter fun h => (handlerMarks states handlers).has h.id).map
        (renumberHandler (stateNumber states handlers) (handlerNumber states handlers))) := rfl

theorem has_stateMarks :
    (stateMarks states handlers).has s = true ↔ s ∈ liveStates states handlers := by
  rw [stateMarks, Marks.has_ofList]
  simp only [Bool.and_eq_true, contains_iff_mem, decide_eq_true_eq, and_iff_left_iff_imp]
  exact lt_of_live

theorem has_handlerMarks {g : Nat} :
    (handlerMarks states handlers).has g = true ↔
      g ∈ liveHandlers states handlers ∧ g < handlers.length := by
  rw [handlerMarks, Marks.has_ofList]
  simp

/-! Handlers from inside out. -/

@[simp] theorem outward_none (handlers : List Handler) (n : Nat) :
    Handler.outward handlers n none = [] := by
  cases n <;> rfl

theorem outward_of_none (h : handlers[i]? = none) (n : Nat) :
    Handler.outward handlers n (some i) = [] := by
  cases n with
  | zero => rfl
  | succ n => rw [Handler.outward, h]

section

variable {handlers : List Handler}
  (hp : ∀ (i : Nat) h, handlers[i]? = some h → ∀ p ∈ h.parent, p < i)
include hp

/-- More steps than there are handlers further out change nothing. -/
theorem outward_congr {n m : Nat} {h : Option HandlerId} (hn : ∀ i ∈ h, i < n)
    (hm : ∀ i ∈ h, i < m) : Handler.outward handlers n h = Handler.outward handlers m h := by
  induction n generalizing m h with
  | zero =>
    cases h with
    | none => simp
    | some i => exact absurd (hn i rfl) (Nat.not_lt_zero i)
  | succ n ih =>
    cases h with
    | none => simp
    | some i =>
      have hni := hn i rfl
      have hmi := hm i rfl
      cases m with
      | zero => exact absurd hmi (Nat.not_lt_zero i)
      | succ m =>
        rw [Handler.outward, Handler.outward]
        cases hg : handlers[i]? with
        | none => rfl
        | some g =>
          have hpi := hp i g hg
          exact congrArg (g :: ·)
            (ih (fun p hpp => Nat.lt_of_lt_of_le (hpi p hpp) (Nat.le_of_lt_succ hni))
              (fun p hpp => Nat.lt_of_lt_of_le (hpi p hpp) (Nat.le_of_lt_succ hmi)))

/-- The handlers around a handler come after it. -/
theorem outward_some {i : Nat} {g : Handler} (hg : handlers[i]? = some g) :
    Handler.outward handlers handlers.length (some i) =
      g :: Handler.outward handlers handlers.length g.parent := by
  have hi : i < handlers.length := (List.getElem?_eq_some_iff.mp hg).1
  obtain ⟨n, hn⟩ : ∃ n, handlers.length = n + 1 := ⟨handlers.length - 1, by omega⟩
  have hpi := hp i g hg
  have hin : ∀ p ∈ g.parent, p < n := fun p hpp =>
    Nat.lt_of_lt_of_le (hpi p hpp) (show i ≤ n by omega)
  have hcut : Handler.outward handlers n g.parent =
      Handler.outward handlers handlers.length g.parent :=
    outward_congr hp hin fun p hpp => Nat.lt_trans (hin p hpp) (by omega)
  rw [← hcut, hn, Handler.outward, hg]

theorem parent_mem_outward {h : Option HandlerId} {g : Handler}
    (hg : g ∈ Handler.outward handlers handlers.length h) {p : Nat} {x : Handler}
    (hx : p ∈ g.parent) (hpx : handlers[p]? = some x) :
    x ∈ Handler.outward handlers handlers.length h := by
  cases h with
  | none => simp at hg
  | some i =>
    -- the place of the handler in sight goes down
    induction i using Nat.strongRecOn with
    | ind i ih =>
      cases hi : handlers[i]? with
      | none => simp [outward_of_none hi] at hg
      | some y =>
        rw [outward_some hp hi] at hg ⊢
        rcases mem_cons.mp hg with rfl | hg
        · rw [Option.mem_def.mp hx, outward_some hp hpx]
          exact mem_cons_of_mem _ mem_cons_self
        · cases hy : y.parent with
          | none => simp [hy] at hg
          | some j =>
            rw [hy] at hg
            exact mem_cons_of_mem _ (ih j (hp i y hi j hy) hg)

end

/-! The live part is a smaller copy. -/

/-- The live states of a table stand in a smaller one under new numbers, covered by the same
handlers as before, and control never leaves them. -/
structure Shrinks (states : List State) (handlers : List Handler) (live : Nat → Prop)
    (ρ : StateId → StateId) (η : HandlerId → HandlerId) (small : List State × List Handler) :
    Prop where
  entry : live Chain.entry
  entry_eq : ρ Chain.entry = Chain.entry
  /-- Every live state but the entry comes after one that was found before it. -/
  order : ∃ turn : Nat → Nat, ∀ s : Nat, live s → s ≠ Chain.entry →
    ∃ u, live u ∧ s ∈ next states handlers u ∧ turn u < turn s
  next : ∀ s t : Nat, live s → t ∈ next states handlers s → t < states.length → live t
  inj : ∀ s t : Nat, live s → live t → ρ s = ρ t → s = t
  mono : ∀ s t : Nat, live s → live t → s < t → ρ s < ρ t
  state : ∀ (s : Nat) st, live s → states[s]? = some st →
    small.1[ρ s]? = some (renumberState ρ η st)
  onto : ∀ (k : Nat) st, small.1[k]? = some st → ∃ s old, live s ∧ states[s]? = some old ∧
    ρ s = k ∧ st = renumberState ρ η old
  used : ∀ g ∈ small.2, ∃ (s : Nat) (st : State), live s ∧ states[s]? = some st ∧
    ∃ old ∈ covering handlers st, g = renumberHandler ρ η old
  covering : ∀ (s : Nat) st, live s → states[s]? = some st →
    covering small.2 (renumberState ρ η st) = (covering handlers st).map (renumberHandler ρ η)
  numbered : Numbered small.1 small.2

theorem Shrinks.source {live : Nat → Prop} {ρ : StateId → StateId} {η : HandlerId → HandlerId}
    {small : List State × List Handler} (h : Shrinks states handlers live ρ η small) (hs : live s)
    (he : s ≠ Chain.entry) : ∃ u, live u ∧ s ∈ Reduce.next states handlers u := by
  obtain ⟨turn, hturn⟩ := h.order
  obtain ⟨u, hu, hn, -⟩ := hturn s hs he
  exact ⟨u, hu, hn⟩

/-- Neighbours stay neighbours. -/
theorem Shrinks.succ {live : Nat → Prop} {ρ : StateId → StateId} {η : HandlerId → HandlerId}
    {small : List State × List Handler} (h : Shrinks states handlers live ρ η small) {s : Nat}
    (hs : live s) (ht : live (s + 1)) {st : State} (hst : states[s + 1]? = some st) :
    ρ (s + 1) = ρ s + 1 := by
  refine Nat.le_antisymm (Nat.le_of_not_lt fun hlt => ?_) (h.mono s (s + 1) hs ht s.lt_succ_self)
  obtain ⟨hlen, -⟩ := List.getElem?_eq_some_iff.mp (h.state (s + 1) st ht hst)
  -- a number between the two would be that of a live state between them
  obtain ⟨t, -, hlive, -, heq, -⟩ := h.onto _ _ (getElem?_eq_getElem (Nat.lt_trans hlt hlen))
  have hle : ∀ a b : Nat, live a → live b → a ≤ b → ρ a ≤ ρ b := fun a b ha hb hab =>
    (Nat.eq_or_lt_of_le hab).elim (fun he => he ▸ Nat.le_refl _)
      fun hl => Nat.le_of_lt (h.mono a b ha hb hl)
  rcases Nat.lt_or_ge s t with hst | hts
  · exact absurd (heq ▸ hle (s + 1) t ht hlive hst) (Nat.not_le_of_lt hlt)
  · exact absurd (heq ▸ hle t s hlive hs hts) (Nat.not_succ_le_self _)

section

variable {states : List State} {handlers : List Handler}
variable {g : Handler} {i k s t : Nat} {st : State} {h : Option HandlerId}

theorem stateNumber_lt (hs : s ∈ liveStates states handlers) (ht : t ∈ liveStates states handlers)
    (h : s < t) : stateNumber states handlers s < stateNumber states handlers t :=
  rank_lt (has_stateMarks.mpr hs) (has_stateMarks.mpr ht) h

theorem stateNumber_inj (hs : s ∈ liveStates states handlers) (ht : t ∈ liveStates states handlers)
    (h : stateNumber states handlers s = stateNumber states handlers t) : s = t := by
  rcases Nat.lt_trichotomy s t with hlt | heq | hlt
  · exact absurd h (Nat.ne_of_lt (stateNumber_lt hs ht hlt))
  · exact heq
  · exact absurd h (Nat.ne_of_gt (stateNumber_lt ht hs hlt))

theorem stateNumber_entry (h : 0 < states.length) :
    stateNumber states handlers Chain.entry = Chain.entry := by
  refine (rank_eq (has_stateMarks.mpr (live_entry handlers h))).trans ?_
  simp [Chain.entry]

variable (hn : Numbered states handlers)
include hn

/-- The handlers met on the way out stand in the table, at their numbers. -/
theorem getElem?_of_mem_outward {n : Nat} (hg : g ∈ Handler.outward handlers n h) :
    handlers[g.id]? = some g := by
  induction n generalizing h with
  | zero => simp [Handler.outward] at hg
  | succ n ih =>
    cases h with
    | none => simp at hg
    | some i =>
      rw [Handler.outward] at hg
      split at hg
      · rename_i x hx
        rcases mem_cons.mp hg with rfl | hg
        · rw [hn.handler i _ hx, hx]
        · exact ih hg
      · cases hg

/-- A handler that covers a live state is kept. -/
theorem live_covering (hs : s ∈ liveStates states handlers) (hst : states[s]? = some st)
    (hg : g ∈ covering handlers st) : (handlerMarks states handlers).has g.id = true := by
  refine has_handlerMarks.mpr ⟨?_, ?_⟩
  · refine mem_flatMap.mpr ⟨s, hs, mem_map.mpr ⟨g, ?_, rfl⟩⟩
    simpa [hst] using hg
  · exact (List.getElem?_eq_some_iff.mp (getElem?_of_mem_outward hn hg)).1

/-- A handler that is kept covers some live state. -/
theorem exists_covering (hi : (handlerMarks states handlers).has i = true)
    (hg : handlers[i]? = some g) :
    ∃ s st, s ∈ liveStates states handlers ∧ states[s]? = some st ∧ g ∈ covering handlers st := by
  obtain ⟨s, hs, hids⟩ := mem_flatMap.mp (has_handlerMarks.mp hi).1
  obtain ⟨x, hcov, rfl⟩ := mem_map.mp hids
  obtain ⟨st, hst, hx⟩ := mem_flatMap.mp hcov
  refine ⟨s, st, hs, by simpa using hst, ?_⟩
  rw [getElem?_of_mem_outward hn hx] at hg
  exact Option.some.inj hg ▸ hx

theorem getElem?_livePart (hs : s ∈ liveStates states handlers) (hst : states[s]? = some st) :
    (livePart states handlers).1[stateNumber states handlers s]? =
      some (renumberState (stateNumber states handlers) (handlerNumber states handlers) st) := by
  have hf := getElem?_filter_rank hn.state (by simp [stateMarks]) (has_stateMarks.mpr hs) hst
  rw [livePart_eq, getElem?_map]
  exact congrArg _ hf

theorem exists_of_getElem?_livePart (h : (livePart states handlers).1[k]? = some st) :
    ∃ s old, s ∈ liveStates states handlers ∧ states[s]? = some old ∧
      stateNumber states handlers s = k ∧
      st = renumberState (stateNumber states handlers) (handlerNumber states handlers) old := by
  rw [livePart_eq, getElem?_map] at h
  obtain ⟨old, ho, rfl⟩ := Option.map_eq_some_iff.mp h
  obtain ⟨s, hs, hst, hk⟩ := exists_rank_of_filter hn.state (by simp [stateMarks]) ho
  exact ⟨s, old, has_stateMarks.mp hs, hst, hk, rfl⟩

theorem getElem?_liveHandlers (hi : (handlerMarks states handlers).has i = true)
    (hg : handlers[i]? = some g) :
    (livePart states handlers).2[handlerNumber states handlers i]? =
      some (renumberHandler (stateNumber states handlers) (handlerNumber states handlers) g) := by
  have hf := getElem?_filter_rank hn.handler (by simp [handlerMarks]) hi hg
  rw [livePart_eq, getElem?_map]
  exact congrArg _ hf

theorem exists_of_getElem?_liveHandlers (h : (livePart states handlers).2[k]? = some g) :
    ∃ i old, (handlerMarks states handlers).has i = true ∧ handlers[i]? = some old ∧
      handlerNumber states handlers i = k ∧
      g = renumberHandler (stateNumber states handlers) (handlerNumber states handlers) old := by
  rw [livePart_eq, getElem?_map] at h
  obtain ⟨old, ho, rfl⟩ := Option.map_eq_some_iff.mp h
  obtain ⟨i, hi, hg, hk⟩ := exists_rank_of_filter hn.handler (by simp [handlerMarks]) ho
  exact ⟨i, old, hi, hg, hk, rfl⟩

theorem exists_covering_of_mem (h : g ∈ (livePart states handlers).2) :
    ∃ s st, s ∈ liveStates states handlers ∧ states[s]? = some st ∧ ∃ old ∈ covering handlers st,
      g = renumberHandler (stateNumber states handlers) (handlerNumber states handlers) old := by
  obtain ⟨k, hk⟩ := mem_iff_getElem?.mp h
  obtain ⟨i, old, hi, hold, -, rfl⟩ := exists_of_getElem?_liveHandlers hn hk
  obtain ⟨s, st, hs, hst, hcov⟩ := exists_covering hn hi hold
  exact ⟨s, st, hs, hst, old, hcov, rfl⟩

theorem numbered_livePart : Numbered (livePart states handlers).1 (livePart states handlers).2 := by
  refine ⟨?_, ?_, ?_⟩
  · intro k st hst
    obtain ⟨s, old, -, ho, hk, rfl⟩ := exists_of_getElem?_livePart hn hst
    rw [← hk, renumberState, hn.state s old ho]
  · intro k g hg
    obtain ⟨i, old, -, ho, hk, rfl⟩ := exists_of_getElem?_liveHandlers hn hg
    rw [← hk, renumberHandler, hn.handler i old ho]
  · intro k g hg p hp
    obtain ⟨i, old, hi, ho, hk, rfl⟩ := exists_of_getElem?_liveHandlers hn hg
    obtain ⟨q, hq, rfl⟩ := Option.map_eq_some_iff.mp hp
    have hqi : q < i := hn.parent i old ho q hq
    obtain ⟨s, st, hs, hst, hold⟩ := exists_covering hn hi ho
    obtain ⟨x, hx⟩ : ∃ x, handlers[q]? = some x :=
      ⟨_, List.getElem?_eq_getElem (Nat.lt_trans hqi (List.getElem?_eq_some_iff.mp ho).1)⟩
    have hcov := live_covering hn hs hst (parent_mem_outward hn.parent hold hq hx)
    rw [hn.handler q x hx] at hcov
    exact hk ▸ rank_lt hcov hi hqi

/-- Going outwards in the smaller table meets the same handlers. -/
theorem outward_livePart (hc : ∀ g ∈ Handler.outward handlers handlers.length h,
      (handlerMarks states handlers).has g.id = true) :
    Handler.outward (livePart states handlers).2 (livePart states handlers).2.length
        (h.map (handlerNumber states handlers)) =
      (Handler.outward handlers handlers.length h).map
        (renumberHandler (stateNumber states handlers) (handlerNumber states handlers)) := by
  cases h with
  | none => simp
  | some i =>
    induction i using Nat.strongRecOn with
    | ind i ih =>
      cases hg : handlers[i]? with
      | none =>
        have hi : ¬(handlerMarks states handlers).has i = true := fun hi =>
          absurd (has_handlerMarks.mp hi).2 (Nat.not_lt.mpr (getElem?_eq_none_iff.mp hg))
        have hkeep : handlerNumber states handlers i = i := if_neg hi
        have hlen : (livePart states handlers).2.length ≤ handlers.length := by
          rw [livePart_eq, length_map]
          exact length_filter_le ..
        have hnew : (livePart states handlers).2[i]? = none :=
          getElem?_eq_none (Nat.le_trans hlen (getElem?_eq_none_iff.mp hg))
        rw [Option.map_some, hkeep, outward_of_none hg, outward_of_none hnew, map_nil]
      | some g =>
        rw [outward_some hn.parent hg] at hc ⊢
        have hi := hc g mem_cons_self
        rw [hn.handler i g hg] at hi
        have hnew := getElem?_liveHandlers hn hi hg
        rw [Option.map_some, outward_some (numbered_livePart hn).parent hnew, map_cons]
        refine congrArg _ ?_
        cases hp : g.parent with
        | none => simp [renumberHandler, hp]
        | some p =>
          rw [hp] at hc
          have hr := ih p (hn.parent i g hg p hp) fun x hx => hc x (mem_cons_of_mem _ hx)
          rw [← hr]
          simp [renumberHandler, hp]

/-- The live part of a table is a smaller copy of it. -/
theorem shrinks_livePart (h : 0 < states.length) :
    Shrinks states handlers (· ∈ liveStates states handlers) (stateNumber states handlers)
      (handlerNumber states handlers) (livePart states handlers) where
  entry := live_entry handlers h
  entry_eq := stateNumber_entry h
  order := ⟨(liveStates states handlers).idxOf, fun _ => live_from⟩
  next := fun _ _ => live_next
  inj := fun _ _ => stateNumber_inj
  mono := fun _ _ => stateNumber_lt
  state := fun _ _ => getElem?_livePart hn
  onto := fun _ _ => exists_of_getElem?_livePart hn
  used := fun _ => exists_covering_of_mem hn
  covering := fun _ _ hs hst => outward_livePart hn fun _ hg => live_covering hn hs hst hg
  numbered := numbered_livePart hn

end

end Reduce

end Resumable

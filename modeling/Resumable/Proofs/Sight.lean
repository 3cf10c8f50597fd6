import Resumable.Proofs.Locality

namespace Resumable

open List

theorem Named.isSome_get? {α : Type} {xs : Named α} {x : String} :
    (xs.get? x).isSome = true ↔ x ∈ xs.map (·.1) := by
  rw [Named.get?, lookup_isSome_iff]
  simp

namespace Frame

variable {f g h : Frame} {xs ys : List String} {x : String} {v : Value}

def Shows (f : Frame) (xs : List String) : Prop :=
  ∀ x ∈ xs, (f.get? x).isSome = true

/-- Scope by scope, the second frame has at least the names of the first. -/
def Under (f g : Frame) : Prop :=
  List.Forall₂ (fun s t : Bindings => ∀ x, (s.get? x).isSome = true → (t.get? x).isSome = true)
    f.scopes g.scopes

theorem Shows.append (hx : f.Shows xs) (hy : f.Shows ys) : f.Shows (xs ++ ys) :=
  forall_mem_append.mpr ⟨hx, hy⟩

theorem isSome_get? : (f.get? x).isSome = true ↔ ∃ s ∈ f.scopes, (s.get? x).isSome = true := by
  simp [get?, findSome?_isSome_iff]

theorem Under.refl (f : Frame) : f.Under f :=
  forall₂_same.mpr fun _ _ _ hx => hx

theorem Under.trans (hfg : f.Under g) (hgh : g.Under h) : f.Under h := by
  obtain ⟨fs⟩ := f
  obtain ⟨gs⟩ := g
  obtain ⟨hs⟩ := h
  unfold Under at *
  dsimp only at *
  induction hfg generalizing hs with
  | nil =>
    cases hgh
    exact .nil
  | cons hst _ ih =>
    cases hgh with
    | cons htu hrest => exact .cons (fun x hx => htu x (hst x hx)) (ih _ hrest)

theorem Under.nonempty (hfg : f.Under g) (hf : f.scopes ≠ []) : g.scopes ≠ [] := by
  intro hg
  unfold Under at hfg
  rw [hg] at hfg
  exact hf (forall₂_nil_right_iff.mp hfg)

theorem Under.push (hfg : f.Under g) : f.push.Under g.push :=
  .cons (fun _ hx => hx) hfg

theorem Under.pop (hfg : f.push.Under g) : f.Under g.pop := by
  obtain ⟨gs⟩ := g
  cases hfg with
  | cons _ hrest => exact hrest

theorem Under.shows (hfg : f.Under g) (hf : f.Shows xs) : g.Shows xs := by
  intro x hx
  obtain ⟨s, hs, hsx⟩ := isSome_get?.mp (hf x hx)
  obtain ⟨i, hi, rfl⟩ := getElem_of_mem hs
  have hlen := List.Forall₂.length_eq hfg
  have hrel := List.Forall₂.get hfg hi (hlen ▸ hi)
  exact isSome_get?.mpr ⟨_, getElem_mem (hlen ▸ hi), hrel x hsx⟩

theorem under_define (f : Frame) (x : String) (v : Value) : f.Under (f.define x v) := by
  obtain ⟨scopes⟩ := f
  cases scopes with
  | nil => exact .nil
  | cons s rest =>
    refine .cons (fun y hy => ?_) (Under.refl ⟨rest⟩)
    by_cases hxy : y = x
    · subst hxy
      rw [Named.get?_put_self]
      rfl
    · rw [Named.get?_put_of_ne s v hxy]
      exact hy

theorem shows_define (hf : f.scopes ≠ []) (x : String) (v : Value) : (f.define x v).Shows [x] := by
  intro y hy
  obtain rfl := mem_singleton.mp hy
  rw [get?_define_self f _ v hf]
  rfl

theorem under_defineAll (f : Frame) (bs : List (String × Value)) : f.Under (f.defineAll bs) := by
  induction bs generalizing f with
  | nil => exact .refl f
  | cons b bs ih => exact (under_define f b.1 b.2).trans (ih _)

theorem shows_defineAll (hf : f.scopes ≠ []) (bs : List (String × Value)) :
    (f.defineAll bs).Shows (bs.map (·.1)) := by
  induction bs generalizing f with
  | nil => nofun
  | cons b bs ih =>
    have hnext := under_define f b.1 b.2
    intro x hx
    rcases mem_cons.mp hx with rfl | hx
    · exact (under_defineAll (f.define b.1 b.2) bs).shows (shows_define hf b.1 b.2) b.1
        (mem_singleton.mpr rfl)
    · exact ih (hnext.nonempty hf) x hx

theorem names_assign {s t : Bindings} (hs : Bindings.assign? x v s = some t) :
    t.map (·.1) = s.map (·.1) := by
  induction s generalizing t with
  | nil => cases hs
  | cons p s ih =>
    obtain ⟨y, old⟩ := p
    rw [Bindings.assign?] at hs
    split at hs
    · cases hs
      rfl
    · obtain ⟨t₁, ht₁, rfl⟩ := Option.map_eq_some_iff.mp hs
      simp [ih ht₁]

theorem under_assign_scopes {ss ts : List Bindings} (hs : assign?.go x v ss = some ts) :
    Under ⟨ss⟩ ⟨ts⟩ := by
  induction ss generalizing ts with
  | nil => cases hs
  | cons s ss ih =>
    rw [assign?.go] at hs
    split at hs
    · rename_i t ht
      cases hs
      refine .cons (fun y hy => ?_) (Under.refl ⟨ss⟩)
      rw [Named.isSome_get?] at hy ⊢
      rw [names_assign ht]
      exact hy
    · obtain ⟨ts₁, hts, rfl⟩ := Option.map_eq_some_iff.mp hs
      exact .cons (fun _ hx => hx) (ih hts)

theorem under_assign (hg : f.assign? x v = some g) : f.Under g := by
  obtain ⟨ts, hts, rfl⟩ := Option.map_eq_some_iff.mp hg
  exact under_assign_scopes hts

theorem assign?_ne_none (hx : (f.get? x).isSome = true) (v : Value) : f.assign? x v ≠ none := by
  obtain ⟨scopes⟩ := f
  obtain ⟨s, hs, hsx⟩ := isSome_get?.mp hx
  have hbind : ∀ t : Bindings, (t.get? x).isSome = true → Bindings.assign? x v t ≠ none := by
    intro t ht
    rw [Named.isSome_get?] at ht
    induction t with
    | nil => cases ht
    | cons p t ih =>
      obtain ⟨y, old⟩ := p
      rw [Bindings.assign?]
      split
      · exact Option.some_ne_none _
      · rename_i hne
        rcases mem_cons.mp ht with rfl | ht
        · exact absurd rfl hne
        · simpa using ih ht
  have hgo : assign?.go x v scopes ≠ none := by
    clear hx
    dsimp only at hs
    induction scopes with
    | nil => cases hs
    | cons t rest ih =>
      rw [assign?.go]
      split
      · exact Option.some_ne_none _
      · rename_i hnone
        rcases mem_cons.mp hs with rfl | hs
        · exact absurd hnone (hbind _ hsx)
        · simpa using ih hs
  simpa [assign?] using hgo

/-- A closure keeps the names that are in sight. -/
theorem Shows.snapshot (hf : f.Shows xs) : ∀ x ∈ xs, x ∈ f.snapshot.map (·.1) := by
  intro x hx
  obtain ⟨s, hs, hsx⟩ := isSome_get?.mp (hf x hx)
  obtain ⟨scopes⟩ := f
  clear hf
  dsimp only at hs
  induction scopes with
  | nil => cases hs
  | cons t rest ih =>
    show x ∈ (Bindings.inSight t (Frame.snapshot ⟨rest⟩)).map (·.1)
    by_cases ht : (t.get? x).isSome = true
    · rw [Bindings.inSight, map_append]
      exact mem_append_left _ (Named.isSome_get?.mp ht)
    · have hs : s ∈ rest := by
        rcases mem_cons.mp hs with rfl | hs
        · exact absurd hsx ht
        · exact hs
      obtain ⟨b, hb, rfl⟩ := mem_map.mp (ih hs)
      refine mem_map.mpr ⟨b, mem_append_right _ (mem_filter.mpr ⟨hb, ?_⟩), rfl⟩
      simpa using ht

theorem All.snapshot {P : Value → Prop} (hf : f.All P) : ∀ b ∈ f.snapshot, P b.2 := by
  obtain ⟨scopes⟩ := f
  induction scopes with
  | nil => nofun
  | cons s rest ih =>
    intro b hb
    rcases mem_append.mp hb with hb | hb
    · exact hf s mem_cons_self b hb
    · exact ih (fun s' hs' => hf s' (mem_cons_of_mem s hs')) b (mem_of_mem_filter hb)

theorem All.defineAll {P : Value → Prop} (hf : f.All P) {bs : List (String × Value)}
    (hb : ∀ b ∈ bs, P b.2) : (f.defineAll bs).All P := by
  induction bs generalizing f with
  | nil => exact hf
  | cons b bs ih =>
    rw [forall_mem_cons] at hb
    exact ih (hf.define b.1 hb.1) hb.2

end Frame

end Resumable

import Resumable.Proofs.Ledger
import Resumable.Proofs.Tasks

namespace Resumable

open List

namespace Delivery

/-- A callback that is pending, or one whose answer is still to come. -/
theorem Kept.pending {futures : Futures} {log : Log} {a : FutureId} {due open_ : List FutureId}
    (h : Kept futures log due (a :: open_)) :
    ∃ cell, futures[a]? = some cell ∧ cell.outcome = none := by
  have hstarted : a ∈ started log := h.answers.mem_iff.mp (by simp)
  obtain ⟨f, hf⟩ := h.known a (mem_append_left due hstarted)
  have hnot : a ∉ ended log := by
    intro he
    have hnodup : (ended log ++ a :: open_).Nodup :=
      h.answers.nodup_iff.mpr (nodup_append'.mp h.once).1
    exact (nodup_append'.mp hnodup).2.2 he mem_cons_self
  have hnone : decided log a = none := by
    have hn := mt (h.replied a (h.attached f a hf)).mp hnot
    simpa using hn
  have hget := Array.getElem?_eq_getElem (h.lt_of_attached hf)
  refine ⟨_, hget, ?_⟩
  have ho := h.outcome a
  rw [hget, hnone] at ho
  exact ho

theorem InOrder.cons {a : FutureId} {ids : List FutureId} {first rest : Log} {m : Moment}
    (hm : m.event.start? = some a) (hfirst : ∀ b ∈ a :: ids, b ∉ started first)
    (hrest : InOrder ids rest) (ha : a ∉ started rest) :
    InOrder (a :: ids) (m :: first ++ rest) := by
  have hs : started (m :: first ++ rest) = a :: (started first ++ started rest) := by
    rw [started_append, ← singleton_append, started_append, started_single, hm]
    rfl
  have hnil : (started first).filter (· ∈ a :: ids) = [] := by
    rw [filter_eq_nil_iff]
    intro b hb
    simpa using fun hmem => hfirst b hmem hb
  have heq : (started rest).filter (· ∈ a :: ids) = (started rest).filter (· ∈ ids) := by
    apply filter_congr
    intro b hb
    have hne : b ≠ a := fun he => ha (he ▸ hb)
    simp [hne]
  rw [InOrder, hs, filter_cons_of_pos (by simp), filter_append, hnil, heq, hrest]
  rfl

/-- The callbacks of a host leave the futures as their log says. -/
def Answering (host : Host Log Key) : Prop :=
  ∀ {w w' : World Log Key} {due open_ callback a f o answer},
    Kept w.futures w.ext (a :: due) open_ → a ∈ attachedTo w.ext f → decided w.ext f = some o →
    host.callback (callback, a) o w = .ok answer w' →
    ∃ w₁ inner, w' = note (.answers a answer) w₁ ∧
      w₁.ext = w.ext ++ ⟨.runs a o, w.futures⟩ :: inner ∧
      Passes (w.ext ++ [⟨.runs a o, w.futures⟩]) inner ∧
      Kept w₁.futures w₁.ext due (a :: open_)

/-- From one world to another all is well, and the log has grown. -/
structure Proceeds (w w' : World Log Key) (due open_ : List FutureId) (log : Log) : Prop where
  ext : w'.ext = w.ext ++ log
  passes : Passes w.ext log
  kept : Kept w'.futures w'.ext due open_

/-- Settling a pending future lets its callbacks run in order. -/
def Settles (host : Host Log Key) (n : Nat) : Prop :=
  ∀ {w w' : World Log Key} {due open_ left f cell o e fresh},
    Kept w.futures w.ext due open_ → w.futures[f]? = some cell → cell.outcome = none →
    Settling w.ext f o e open_ left → Task.settle host n f o (note e w) = .ok fresh w' →
    fresh = true ∧ ∃ log, Proceeds (note e w) w' due left log ∧ InOrder (attachedTo w.ext f) log

/-- Callbacks handed out run in order. -/
def Delivers (host : Host Log Key) (n : Nat) : Prop :=
  ∀ {w w' : World Log Key} {due open_ ks ids g o},
    Kept w.futures w.ext (ids ++ due) open_ → ks.map tag = ids.map some →
    (∀ a ∈ ids, ∃ f, a ∈ attachedTo w.ext f ∧ decided w.ext f = some o) →
    Task.deliver host n g o ks w = .ok () w' →
    ∃ log, Proceeds w w' due open_ log ∧ InOrder ids log

section

variable {host : Host Log Key} {n : Nat}

theorem settles_succ (hd : Delivers host n) : Settles host (n + 1) := by
  intro w w' due open_ left f cell o e fresh h hf hc he hrun
  rcases Task.settle_ok hrun with ⟨hs, -, -⟩ | ⟨k, ks, w₁, hk, hs, rfl, hdel⟩
  · rw [World.settle?_pending (w := note e w) hf hc] at hs
    cases hs
  · cases hk
    obtain ⟨cell', hf', -, rfl, rfl⟩ := World.settle?_some hs
    obtain rfl : cell = cell' := Option.some.inj (hf.symm.trans hf')
    have hkept := h.settled hf hc he
    have htags : cell.waiting.map tag = (attachedTo w.ext f).map some := by
      simpa [hc] using h.waiting f cell hf
    have hnew : decided (w.ext ++ [⟨e, w.futures⟩]) f = some o := by
      have hout := hkept.outcome f
      rw [Array.getElem?_modify, if_pos rfl, hf] at hout
      exact hout.symm
    obtain ⟨log, hp, ho⟩ := hd hkept htags
      (fun a ha => ⟨f, mem_attachedTo_append _ ha, hnew⟩) hdel
    exact ⟨rfl, log, ⟨hp.ext, hp.passes, hp.kept⟩, ho⟩

theorem callback_proceeds (hh : Answering host) (hs : Settles host n) {w w₁ w' : World Log Key}
    {due open_ : List FutureId} {callback : Outcome → Client} {a f : FutureId} {o answer : Outcome}
    {fresh : Bool} {hands : List (Holding Key)} (h : Kept w.futures w.ext (a :: due) open_)
    (ha : a ∈ attachedTo w.ext f) (hf : decided w.ext f = some o)
    (hc : host.callback (callback, a) o w = .ok answer w₁)
    (hx : Task.settle host n a answer (w₁.letGo hands) = .ok fresh w') :
    ∃ log, Proceeds w w' due open_ (⟨.runs a o, w.futures⟩ :: log) := by
  obtain ⟨w₂, inner, rfl, hext, hpass, hkept⟩ := hh h ha hf hc
  obtain ⟨cell, hcell, hnone⟩ := hkept.pending
  obtain ⟨-, next, hp, ho⟩ :=
    hs (w := w₂.letGo hands) (e := .answers a answer) hkept hcell hnone .answer hx
  refine ⟨inner ++ ⟨.answers a answer, w₂.futures⟩ :: next, ?_, ?_, hp.kept⟩
  · rw [hp.ext]
    show w₂.ext ++ [⟨.answers a answer, w₂.futures⟩] ++ next = _
    simp [hext]
  · refine .call (.answers a o answer) hpass ?_ ?_
    · have hnext := hp.passes
      change Passes (w₂.ext ++ [⟨.answers a answer, w₂.futures⟩]) next at hnext
      rwa [hext] at hnext
    · refine ⟨inner, answer, w₂.futures, next, [], by simp, hpass.whole, hp.passes.whole, ?_⟩
      rw [← hext]
      exact ho

theorem delivers_succ (hh : Answering host) (hs : Settles host n) (hd : Delivers host n) :
    Delivers host (n + 1) := by
  intro w w' due open_ ks ids g o h htags hids hrun
  cases ids with
  | nil =>
    cases map_eq_nil_iff.mp htags
    cases Task.deliver_nil hrun
    exact ⟨[], ⟨by simp, .nil, h⟩, rfl⟩
  | cons a ids =>
    obtain ⟨k, ks, rfl, hk, hks⟩ := map_eq_cons_iff.mp htags
    obtain ⟨callback, rfl⟩ := tag_eq_some hk
    obtain ⟨f, ha, hf⟩ := hids a mem_cons_self
    obtain ⟨k, answer, fresh, w₁, w₂, outer, inner, hk, hc, hx, hrest⟩ := Task.deliver_callback hrun
    cases hk
    obtain ⟨log, hp⟩ := callback_proceeds (w := (w.grasp outer).grasp inner) hh hs h ha hf hc hx
    have hdecided : ∀ b ∈ ids, ∃ f, b ∈ attachedTo w₂.ext f ∧ decided w₂.ext f = some o := by
      intro b hb
      obtain ⟨g, hg, hdg⟩ := hids b (mem_cons_of_mem a hb)
      rw [hp.ext]
      exact ⟨g, mem_attachedTo_append _ hg, decided_append_of_some _ hdg⟩
    obtain ⟨rest, hq, ho⟩ := hd (w := w₂.letGo w.hands) hp.kept hks hdecided hrest
    refine ⟨_ :: log ++ rest, ⟨?_, hp.passes.append ?_, hq.kept⟩, ?_⟩
    · rw [hq.ext]
      show w₂.ext ++ rest = _
      rw [hp.ext]
      simp [World.grasp]
    · have hpass := hq.passes
      change Passes w₂.ext rest at hpass
      rwa [hp.ext] at hpass
    · have hafter : started w₂.ext = started w.ext ++ a :: started log := by
        rw [hp.ext, started_append]
        rfl
      have hnodup := hp.kept.once
      rw [hafter, nodup_append', nodup_append'] at hnodup
      refine ho.cons rfl ?_ ?_
      · intro b hb hlog
        rcases mem_cons.mp hb with rfl | hb
        · exact (nodup_cons.mp hnodup.1.2.1).1 hlog
        · exact hnodup.2.2 (by simp [hlog]) (mem_append_left due hb)
      · intro hrest
        have hall := (nodup_append'.mp hq.kept.once).1
        rw [hq.ext, started_append, nodup_append'] at hall
        exact hall.2.2 (show a ∈ started w₂.ext by simp [hafter]) hrest

theorem settles_delivers (hh : Answering host) : ∀ n, Settles host n ∧ Delivers host n := by
  intro n
  induction n with
  | zero =>
    constructor
    · intro w w' due open_ left f cell o e fresh _ _ _ _ hrun
      cases hrun
    · intro w w' due open_ ks ids g o _ _ _ hrun
      cases hrun
  | succ n ih => exact ⟨settles_succ ih.2, delivers_succ hh ih.1 ih.2⟩

namespace Proceeds

variable {w w₁ w₂ : World Log Key} {due open_ : List FutureId} {log log' : Log}

theorem refl (h : Kept w.futures w.ext due open_) : Proceeds w w due open_ [] :=
  ⟨by simp, .nil, h⟩

theorem trans {due' open_' : List FutureId} (h : Proceeds w w₁ due' open_' log)
    (h' : Proceeds w₁ w₂ due open_ log') : Proceeds w w₂ due open_ (log ++ log') :=
  ⟨by rw [h'.ext, h.ext, append_assoc], h.passes.append (h.ext ▸ h'.passes), h'.kept⟩

theorem made (h : Kept w.futures w.ext due open_) (o : Option Outcome) :
    Proceeds w ((note (.made w.futures.size o) w).addFuture o).2 due open_
      [⟨.made w.futures.size o, w.futures⟩] :=
  ⟨rfl, .made rfl, h.made o⟩

end Proceeds

theorem settle_proceeds (hh : Answering host) {w w' : World Log Key} {due open_ : List FutureId}
    {f : FutureId} {o : Outcome} {fresh : Bool} (h : Kept w.futures w.ext due open_)
    (hf : birth w.ext f = some .source)
    (hrun : Task.settle host n f o (note (.settles f o) w) = .ok fresh w') :
    ∃ log, Proceeds w (note (.settled f fresh) w') due open_ log := by
  obtain ⟨cell, hcell⟩ : ∃ cell, w.futures[f]? = some cell :=
    ⟨_, Array.getElem?_eq_getElem ((h.born f).mp (by simp [hf]))⟩
  have hout : cell.outcome = decided w.ext f := by
    rw [← h.outcome, hcell]
    rfl
  cases hc : cell.outcome with
  | none =>
    obtain ⟨rfl, log, hp, ho⟩ := (settles_delivers hh n).1 h hcell hc (.source hf) hrun
    refine ⟨⟨.settles f o, w.futures⟩ :: (log ++ [⟨.settled f true, w'.futures⟩]), ?_, ?_, ?_⟩
    · show w'.ext ++ _ = _
      rw [hp.ext]
      show w.ext ++ [⟨.settles f o, w.futures⟩] ++ log ++ _ = _
      simp
    · refine .call (.settled f o true) hp.passes .nil ⟨?_, fun _ => ?_⟩
      · rw [← hout, hc]
        rintro ⟨⟩
      · exact ⟨log, w'.futures, [], rfl, hp.passes.whole, ho⟩
    · exact hp.kept.idle (by rintro _ ⟨⟩) (fun _ => rfl) (fun _ => rfl) rfl rfl
  | some o' =>
    have hdecided : decided w.ext f = some o' := hout.symm.trans hc
    rcases Task.settle_ok hrun with ⟨-, rfl, rfl⟩ | ⟨k, ks, w₁, -, hs, -, -⟩
    · refine ⟨[⟨.settles f o, w.futures⟩, ⟨.settled f false, w.futures⟩], ?_, ?_, ?_⟩
      · simp [note]
      · refine .pair (.settled f o false) ⟨fun _ => ?_, ?_⟩
        · exact ⟨[], rfl⟩
        · rw [hdecided]
          rintro ⟨⟩
      · have hkept := h.idle (e := .settles f o) (by
          intro g hg
          simp only [Event.outcome?] at hg
          split at hg
          · rename_i hfg
            rw [← hfg, hdecided]
            rfl
          · cases hg) (fun _ => rfl) (fun _ => rfl) rfl rfl
        exact hkept.idle (by rintro _ ⟨⟩) (fun _ => rfl) (fun _ => rfl) rfl rfl
    · obtain ⟨cell', hcell', hnone, -, -⟩ := World.settle?_some hs
      obtain rfl : cell = cell' := Option.some.inj (hcell.symm.trans hcell')
      cases hc.symm.trans hnone

theorem attach_proceeds (hh : Answering host) {w w' : World Log Key} {due open_ : List FutureId}
    {f a : FutureId} {callback : Outcome → Client} (h : Kept w.futures w.ext due open_)
    (hf : f < w.futures.size) (hrun : Task.continueWith host n f (callback, w.futures.size)
      (note (.attaches f w.futures.size) w) = .ok a w') :
    ∃ log, Proceeds w (note (.attached a) w') due open_ log := by
  obtain ⟨rfl, hcases⟩ := Task.continueWith_ok hrun
  have hout : ((note (.attaches f w.futures.size) w).addFuture none).2.outcome? f =
      decided w.ext f := by
    rw [World.outcome?_addFuture_of_lt (note _ w) _ hf]
    exact h.outcome f
  rw [hout] at hcases
  rcases hcases with ⟨hd, rfl⟩ | ⟨o, answer, fresh, w₁, held, hd, hc, hs⟩
  · have hkept := h.attach hd hf (k := .callback (callback, w.futures.size) w.futures.size) (by
      simp [tag])
    refine ⟨_, append_assoc .., ?_, ?_⟩
    · refine .pair (.attached f w.futures.size) ⟨fun _ => ?_, ?_⟩
      · exact ⟨_, [], rfl⟩
      · rw [hd]
        rintro _ ⟨⟩
    · exact hkept.idle (by rintro _ ⟨⟩) (fun _ => rfl) (fun _ => rfl) rfl rfl
  · have hkept := h.attach_late (by rw [hd]; rfl) hf
    have ha : w.futures.size ∈
        attachedTo (w.ext ++ [⟨.attaches f w.futures.size, w.futures⟩]) f := by
      rw [Kept.attachedTo_attaches, if_pos rfl]
      simp
    obtain ⟨log, hp⟩ := callback_proceeds
      (w := ((note (.attaches f w.futures.size) w).addFuture none).2.grasp held)
      hh (settles_delivers hh n).1 hkept ha (decided_append_of_some _ hd) hc hs
    refine ⟨⟨.attaches f w.futures.size, w.futures⟩ ::
      (⟨.runs w.futures.size o, w.futures.push {}⟩ :: log ++
        [⟨.attached w.futures.size, w'.futures⟩]), ?_, ?_, ?_⟩
    · show w'.ext ++ _ = _
      rw [hp.ext]
      show w.ext ++ [⟨.attaches f w.futures.size, w.futures⟩] ++
        ⟨.runs w.futures.size o, w.futures.push {}⟩ :: log ++
          [⟨.attached w.futures.size, w'.futures⟩] = _
      simp
    · refine .call (.attached f w.futures.size) hp.passes .nil ⟨?_, fun o' ho => ?_⟩
      · rw [hd]
        rintro ⟨⟩
      · obtain rfl : o' = o := Option.some.inj (ho.symm.trans hd)
        exact ⟨_, log, w'.futures, [], rfl, hp.passes.whole⟩
    · exact hp.kept.idle (by rintro _ ⟨⟩) (fun _ => rfl) (fun _ => rfl) rfl rfl

/-- Whatever a client does, the futures stay as their log says. -/
theorem client_proceeds (hh : Answering host) (c : Client) {w w' : World Log Key}
    {due open_ : List FutureId} {answer : Outcome} (h : Kept w.futures w.ext due open_)
    (hrun : c.run host n w = .ok answer w') : ∃ log, Proceeds w w' due open_ log := by
  induction c generalizing w with
  | done o =>
    cases hrun
    exact ⟨[], .refl h⟩
  | source k ih =>
    obtain ⟨log, hp⟩ := ih _ (h.made none) hrun
    exact ⟨_, (Proceeds.made h none).trans hp⟩
  | ready o k ih =>
    obtain ⟨log, hp⟩ := ih _ (h.made (some o)) hrun
    exact ⟨_, (Proceeds.made h (some o)).trans hp⟩
  | look f k ih => exact ih _ h hrun
  | attach f callback k _ ih =>
    rw [Client.run] at hrun
    obtain ⟨_, _, hget, hrun⟩ := bind_ok hrun
    cases hget
    dsimp only at hrun
    split at hrun
    · rename_i hf
      obtain ⟨_, _, hnote, hrun⟩ := bind_ok hrun
      cases hnote
      obtain ⟨a, w₁, hc, hrun⟩ := bind_ok hrun
      obtain ⟨_, _, hnote, hrun⟩ := bind_ok hrun
      cases hnote
      obtain ⟨log, hp⟩ := attach_proceeds hh h hf hc
      obtain ⟨rest, hq⟩ := ih a hp.kept hrun
      exact ⟨_, hp.trans hq⟩
    · cases hrun
      exact ⟨[], .refl h⟩
  | settle f o k ih =>
    rw [Client.run] at hrun
    obtain ⟨_, _, hget, hrun⟩ := bind_ok hrun
    cases hget
    split at hrun
    · rename_i hf
      obtain ⟨_, _, hnote, hrun⟩ := bind_ok hrun
      cases hnote
      obtain ⟨fresh, w₁, hc, hrun⟩ := bind_ok hrun
      obtain ⟨_, _, hnote, hrun⟩ := bind_ok hrun
      cases hnote
      obtain ⟨log, hp⟩ := settle_proceeds hh h hf hc
      obtain ⟨rest, hq⟩ := ih fresh hp.kept hrun
      exact ⟨_, hp.trans hq⟩
    · cases hrun
      exact ⟨[], .refl h⟩

end

theorem answering_host (n : Nat) : Answering (host n) := by
  induction n with
  | zero =>
    intro w w' due open_ callback a f o answer _ _ _ hrun
    cases hrun
  | succ n ih =>
    intro w w' due open_ callback a f o answer h ha hf hrun
    rw [host] at hrun
    obtain ⟨_, _, hnote, hrun⟩ := bind_ok hrun
    cases hnote
    obtain ⟨_, w₁, hc, hrun⟩ := bind_ok hrun
    obtain ⟨_, _, hnote, hrun⟩ := bind_ok hrun
    cases hnote
    cases hrun
    obtain ⟨log, hp⟩ := client_proceeds ih (callback o) (w := note (.runs a o) w) (h.run ha hf) hc
    refine ⟨w₁, log, rfl, ?_, hp.passes, hp.kept⟩
    rw [hp.ext]
    exact append_assoc ..

end Delivery

end Resumable

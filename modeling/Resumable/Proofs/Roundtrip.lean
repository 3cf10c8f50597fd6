import Resumable.Data.Chain
import Resumable.Proofs.Slots
import Mathlib.Data.List.Sort

namespace Resumable

open List Stmt

variable {d : Data} {c : Chain}

/-! Things in the order of their names. -/

namespace Named

variable {α β : Type}

/-- Where no name occurs twice, what is found is what is there. -/
theorem get?_eq_some_iff {xs : Named α} (h : (xs.map (·.1)).Nodup) {x : String} {a : α} :
    xs.get? x = some a ↔ (x, a) ∈ xs := by
  induction xs with
  | nil => exact iff_of_false nofun nofun
  | cons p xs ih =>
    obtain ⟨y, b⟩ := p
    rw [map_cons, nodup_cons] at h
    rw [Named.get?, lookup_cons, mem_cons, Prod.mk.injEq]
    by_cases hx : x = y
    · subst hx
      have hfresh : (x, a) ∉ xs := fun hmem => h.1 (mem_map.mpr ⟨(x, a), hmem, rfl⟩)
      simp [hfresh, eq_comm]
    · have hrest : xs.lookup x = some a ↔ (x, a) ∈ xs := ih h.2
      simp [beq_eq_false_iff_ne.mpr hx, hx, hrest]

theorem get?_of_perm {xs ys : Named α} (h : xs.Perm ys) (hn : (ys.map (·.1)).Nodup) (x : String) :
    xs.get? x = ys.get? x := by
  have hn' := (h.map (·.1)).nodup_iff.mpr hn
  ext a
  rw [get?_eq_some_iff hn', get?_eq_some_iff hn, h.mem_iff]

theorem sorted_eq (xs : Named α) : sorted xs = xs.insertionSort (·.1 ≤ ·.1) := by
  induction xs with
  | nil => rfl
  | cons p xs ih =>
    rw [sorted, ih, insertionSort_cons]
    induction xs.insertionSort (·.1 ≤ ·.1) with
    | nil => rfl
    | cons q ys ih => rw [insertSorted, ih, orderedInsert_cons]

theorem perm_sorted (xs : Named α) : (sorted xs).Perm xs :=
  sorted_eq xs ▸ xs.perm_insertionSort _

theorem pairwise_sorted (xs : Named α) : (sorted xs).Pairwise (·.1 ≤ ·.1) := by
  have : IsTrans (String × α) (·.1 ≤ ·.1) := ⟨fun _ _ _ => String.le_trans⟩
  have : Std.Total fun p q : String × α => p.1 ≤ q.1 := ⟨fun _ _ => String.le_total _ _⟩
  exact sorted_eq xs ▸ xs.pairwise_insertionSort _

/-- There is one order of the names. -/
theorem eq_of_pairwise {xs ys : Named α} (hn : (ys.map (·.1)).Nodup)
    (hx : xs.Pairwise (·.1 ≤ ·.1)) (hy : ys.Pairwise (·.1 ≤ ·.1)) (h : xs.Perm ys) : xs = ys := by
  refine List.Perm.eq_of_pairwise (fun p q hp hq hpq hqp => ?_) hx hy h
  have hname := String.le_antisymm hpq hqp
  have hp := (get?_eq_some_iff hn).mpr (h.mem_iff.mp hp)
  rw [hname, (get?_eq_some_iff hn).mpr hq, Option.some.injEq] at hp
  exact Prod.ext hname hp.symm

theorem sorted_eq_iff {xs ys : Named α} (hn : (ys.map (·.1)).Nodup) :
    sorted xs = sorted ys ↔ xs.Perm ys := by
  have hys := perm_sorted ys
  constructor
  · intro h
    exact (perm_sorted xs).symm.trans (h ▸ hys)
  · intro h
    exact eq_of_pairwise ((hys.map _).nodup_iff.mpr hn) (pairwise_sorted xs) (pairwise_sorted ys)
      (((perm_sorted xs).trans h).trans hys.symm)

theorem sorted_map (f : α → β) (xs : Named α) :
    sorted (xs.map fun p => (p.1, f p.2)) = (sorted xs).map fun p => (p.1, f p.2) := by
  rw [sorted_eq, sorted_eq]
  symm
  exact map_insertionSort _ _ _ xs fun _ _ _ _ => Iff.rfl

theorem get?_map (f : α → β) (xs : Named α) (x : String) :
    get? (xs.map fun p => (p.1, f p.2)) x = (xs.get? x).map f := by
  induction xs with
  | nil => rfl
  | cons p xs ih =>
    obtain ⟨y, a⟩ := p
    simp only [get?, map_cons, lookup_cons] at ih ⊢
    split
    · rfl
    · exact ih

end Named

namespace Data

mutual

/-- The fields of all records in the order of their names. -/
def ordered : Data → Data
  | .list items => .list (orderedItems items)
  | .record fields => .record (Named.sorted (orderedFields fields))
  | d => d

def orderedItems : List Data → List Data
  | [] => []
  | d :: ds => d.ordered :: orderedItems ds

def orderedFields : List (String × Data) → List (String × Data)
  | [] => []
  | (x, d) :: fields => (x, d.ordered) :: orderedFields fields

end

/-- The same data. A record is a map: the order of its fields does not matter. -/
def Same (d e : Data) : Prop :=
  d.ordered = e.ordered

theorem orderedFields_eq (fields : List (String × Data)) :
    orderedFields fields = fields.map fun f => (f.1, f.2.ordered) := by
  induction fields with
  | nil => rfl
  | cons f fields ih => rw [orderedFields, ih, map_cons]

/-! Parts of data. -/

@[simp] theorem list?_list (items : List Data) : (list items).list? = some items := rfl

@[simp] theorem str?_str (s : String) : (str s).str? = some s := rfl

theorem height_pos (d : Data) : 0 < d.height := by
  cases d <;> simp only [height] <;> omega

theorem height_cons_le {d : Data} {ds : List Data} {n : Nat} (h : (list (d :: ds)).height ≤ n) :
    d.height ≤ n ∧ (list ds).height ≤ n := by
  simp only [height, heightOfItems] at h ⊢
  omega

theorem height_lt_of_lookup {fields : List (String × Data)} {name : String} {d : Data}
    (h : fields.lookup name = some d) : d.height < (Data.record fields).height := by
  simp only [height]
  induction fields with
  | nil => cases h
  | cons f fields ih =>
    obtain ⟨x, e⟩ := f
    simp only [heightOfFields]
    rw [lookup_cons] at h
    split at h
    · cases h
      omega
    · have := ih h
      omega

/-- Each of these fields is among the fields `gs`, with the same data of a height up to `n`. -/
def Found (gs : List (String × Data)) (n : Nat) : List (String × Data) → Prop
  | [] => True
  | (x, a) :: fs => (∃ b, gs.lookup x = some b ∧ a.Same b ∧ b.height ≤ n) ∧ Found gs n fs

/-- Data without parts. -/
def isLeaf : Data → Bool
  | .list _ | .record _ => false
  | _ => true

namespace Same

variable {d : Data} {n : Nat}
variable {x : Data} {fs : List (String × Data)} {name : String} {α : Type} {read : Data → Option α}
  {write : α → Data}

theorem symm (h : x.Same d) : d.Same x :=
  Eq.symm h

/-- What has no parts is the same only as itself. -/
theorem eq_of_leaf (h : x.Same d) (hx : x.isLeaf = true) : d = x := by
  cases x with
  | list | record => cases hx
  | _ => cases d <;> simp_all [Same, ordered]

theorem nil (h : (list []).Same d) : d = .list [] := by
  cases d with
  | list ds => cases ds <;> simp_all [Same, ordered, orderedItems]
  | _ => simp [Same, ordered] at h

theorem cons {xs : List Data} (h : (list (x :: xs)).Same d) :
    ∃ e es, d = .list (e :: es) ∧ x.Same e ∧ (list xs).Same (.list es) := by
  cases d with
  | list ds =>
    cases ds with
    | nil => simp [Same, ordered, orderedItems] at h
    | cons e es => exact ⟨e, es, rfl, by simpa [Same, ordered, orderedItems] using h⟩
  | _ => simp [Same, ordered] at h

theorem record (h : (record fs).Same d) :
    ∃ gs, d = .record gs ∧ Named.sorted (orderedFields fs) = Named.sorted (orderedFields gs) := by
  cases d with
  | record gs => simpa [Same, ordered] using h
  | _ => simp [Same, ordered] at h

/-- The fields of a record are found in whatever says the same. -/
theorem fields (h : (Data.record fs).Same d) (hn : (fs.map (·.1)).Nodup) (hd : d.height ≤ n + 1) :
    ∃ gs, d = .record gs ∧ gs.length = fs.length ∧ Found gs n fs := by
  obtain ⟨gs, rfl, hs⟩ := h.record
  rw [orderedFields_eq, orderedFields_eq] at hs
  have hperm := (Named.perm_sorted _).symm.trans (hs ▸ Named.perm_sorted _)
  have hfound : ∀ p ∈ fs, ∃ b, gs.lookup p.1 = some b ∧ p.2.Same b ∧ b.height ≤ n := by
    intro p hp
    have hlook := Named.get?_of_perm hperm (by simpa [Function.comp_def] using hn) p.1
    rw [Named.get?_map, Named.get?_map, (Named.get?_eq_some_iff hn).mpr hp] at hlook
    obtain ⟨b, hb, hsame⟩ := Option.map_eq_some_iff.mp hlook
    have := height_lt_of_lookup hb
    exact ⟨b, hb, hsame.symm, by omega⟩
  refine ⟨gs, rfl, ?_, ?_⟩
  · simpa using hperm.length_eq
  · clear hn h hs hperm
    induction fs with
    | nil => trivial
    | cons f fs ih =>
      rw [forall_mem_cons] at hfound
      exact ⟨hfound.1, ih hfound.2⟩

/-- A case with contents is read as that case. -/
theorem variant? (h : (tagged name x).Same d) (hd : d.height ≤ n + 1) :
    ∃ y, d.variant? = some (name, some y) ∧ x.Same y ∧ y.height ≤ n := by
  obtain ⟨gs, rfl, hlen, ⟨y, hy, hxy, hle⟩, -⟩ := h.fields (nodup_singleton name) hd
  refine ⟨y, ?_, hxy, hle⟩
  match gs with
  | [(name', y')] =>
    rw [lookup_cons] at hy
    split at hy
    · rename_i hname
      cases hy
      rw [beq_iff_eq.mp hname]
      rfl
    · cases hy

theorem variantFields (h : (tagged name (.record fs)).Same d) (hn : (fs.map (·.1)).Nodup)
    (hd : d.height ≤ n + 1) :
    ∃ gs, d.variant? = some (name, some (.record gs)) ∧ Found gs n fs := by
  obtain ⟨y, hy, hxy, hle⟩ := h.variant? hd
  obtain ⟨gs, rfl, -, hgs⟩ := hxy.fields hn (Nat.le_succ_of_le hle)
  exact ⟨gs, hy, hgs⟩

theorem mapM {as : List α} (h : (list (as.map write)).Same d)
    (hread : ∀ a ∈ as, ∀ d, (write a).Same d → read d = some a) :
    ∃ ds, d = .list ds ∧ ds.mapM read = some as := by
  induction as generalizing d with
  | nil => exact ⟨[], h.nil, rfl⟩
  | cons a as ih =>
    rw [forall_mem_cons] at hread
    obtain ⟨e, es, rfl, he, hes⟩ := h.cons
    obtain ⟨ds, hds, hrest⟩ := ih hes hread.2
    cases hds
    exact ⟨e :: es, rfl, by simp [hread.1 e he, hrest]⟩

theorem strings? {ss : List String} (h : (strings ss).Same d) : d.strings? = some ss := by
  have hread : ∀ s ∈ ss, ∀ e, (str s).Same e → str? e = some s := by
    intro s _ e he
    rw [he.eq_of_leaf rfl]
    rfl
  obtain ⟨ds, rfl, hds⟩ := h.mapM hread
  exact hds

/-- What may be null is read as it was written, unless it was written as null. -/
theorem optional {o : Option α} (h : (ofOption write o).Same d)
    (hread : ∀ a ∈ o, write a ≠ .null ∧ ((write a).Same d → read d = some a)) :
    optional read (some d) = some o := by
  cases o with
  | none =>
    rw [h.eq_of_leaf rfl]
    rfl
  | some a =>
    obtain ⟨hnull, hread⟩ := hread a rfl
    have hr : nullable read d = (read d).map some := by
      cases d with
      | null => exact absurd (Same.symm h |>.eq_of_leaf rfl) hnull
      | _ => rfl
    exact hr.trans (congrArg _ (hread h))

theorem optional_place {o : Option Nat} (h : (ofOption nat o).Same d)
    (hk : ∀ k ∈ o.toList, k < 2 ^ 32) : Data.optional place? (some d) = some o := by
  refine h.optional fun k hko => ⟨nofun, fun hd => ?_⟩
  rw [hd.eq_of_leaf rfl]
  exact nat?_nat 32 k (hk k (Option.mem_toList.mpr hko))

theorem optional_str {o : Option String} (h : (ofOption str o).Same d) :
    Data.optional str? (some d) = some o := by
  refine h.optional fun s _ => ⟨nofun, fun hd => ?_⟩
  rw [hd.eq_of_leaf rfl]
  rfl

end Same

theorem int64?_int (n : Int64) : (int n.toInt).int64? = some n := by
  rw [int64?, if_pos ⟨n.minValue_le_toInt, n.toInt_le⟩, Int64.ofInt_toInt]

theorem place?_nat {k : Nat} (h : k < 2 ^ 32) : (nat k).place? = some k :=
  nat?_nat 32 k h

end Data

/-! Methods. -/

theorem BinaryOp.ofData?_of_same (op : BinaryOp) (h : op.toData.Same d) :
    BinaryOp.ofData? d = some op := by
  rw [h.eq_of_leaf (by cases op <;> rfl), op.ofData?_toData]

theorem UnaryOp.ofData?_of_same (op : UnaryOp) (h : op.toData.Same d) :
    UnaryOp.ofData? d = some op := by
  rw [h.eq_of_leaf (by cases op <;> rfl), op.ofData?_toData]

theorem Span.ofData?_of_same (s : Span) (h : s.toData.Same d) : Span.ofData? d = some s := by
  obtain ⟨fields, rfl, -, ⟨a, ha, hsa, -⟩, ⟨b, hb, hsb, -⟩, -⟩ :=
    h.fields (by simp) (Nat.le_succ d.height)
  rw [hsa.eq_of_leaf rfl] at ha
  rw [hsb.eq_of_leaf rfl] at hb
  simp [Span.ofData?, Data.structure?, ha, hb, Data.nat?_nat 64 _ s.start.toNat_lt,
    Data.nat?_nat 64 _ s.stop.toNat_lt]

namespace Mark

variable {m : Mark} {name : String} {x d : Data} {n : Nat}

theorem unwrap?_of_same (h : (m.wrap x).Same d) (hd : d.height ≤ n + 1) :
    ∃ y, unwrap? d = some (m, y) ∧ x.Same y ∧ y.height ≤ n := by
  obtain ⟨fields, rfl, -, ⟨i, hi, hid, -⟩, ⟨y, hy, hxy, hle⟩, ⟨s, hs, hspan, -⟩, -⟩ :=
    h.fields (by simp) hd
  obtain rfl := hid.eq_of_leaf rfl
  refine ⟨y, ?_, hxy, hle⟩
  simp [unwrap?, Data.structure?, Data.place?, hi, hy, hs, Span.ofData?_of_same _ hspan,
    Data.nat?_nat 32 _ m.id.toNat_lt]

theorem unwrap?_str (h : (m.wrap (.str name)).Same d) : unwrap? d = some (m, .str name) := by
  obtain ⟨y, hy, hname, -⟩ := unwrap?_of_same h (Nat.le_succ d.height)
  obtain rfl := hname.eq_of_leaf rfl
  exact hy

theorem unwrap?_tagged (h : (m.wrap (.tagged name x)).Same d) (hd : d.height ≤ n + 1) :
    ∃ k y, unwrap? d = some (m, k) ∧ k.variant? = some (name, some y) ∧ x.Same y ∧
      y.height ≤ n := by
  obtain ⟨k, hk, hkind, hle⟩ := unwrap?_of_same h hd
  obtain ⟨y, hy, hxy, hle⟩ := hkind.variant? (Nat.le_succ_of_le hle)
  exact ⟨k, y, hk, hy, hxy, hle⟩

theorem unwrap?_fields {fs : List (String × Data)} (h : (m.wrap (.tagged name (.record fs))).Same d)
    (hn : (fs.map (·.1)).Nodup) (hd : d.height ≤ n + 1) :
    ∃ k gs, unwrap? d = some (m, k) ∧ k.variant? = some (name, some (.record gs)) ∧
      Data.Found gs n fs := by
  obtain ⟨k, hk, hkind, hle⟩ := unwrap?_of_same h hd
  obtain ⟨gs, hgs, hfound⟩ := hkind.variantFields hn (Nat.le_succ_of_le hle)
  exact ⟨k, gs, hk, hgs, hfound⟩

end Mark

theorem Expr.toData_ne_null (e : Expr) : e.toData ≠ .null := by
  cases e <;> nofun

def Catch.toData : Catch → Data
  | .mk x b => .record [("binding", .ofOption .str x), ("body", .list (Stmt.listToData b))]

theorem Stmt.toData_attempt (m : Mark) (b : Block) (c : Option Catch) (f : Option Block) :
    (Stmt.attempt m b c f).toData =
      m.wrap (.tagged "Try" (.record [("body", .list (Stmt.listToData b)),
        ("catch", .ofOption Catch.toData c),
        ("finally", .ofOption (fun fb => .list (Stmt.listToData fb)) f)])) := by
  rcases c with - | ⟨x, cb⟩ <;> cases f <;> rfl

mutual

/-- Whatever says the same as a written expression is read as that expression, given steps for its
height. -/
theorem Expr.readData_of_same (e : Expr) (hk : ∀ k ∈ e.slots, k < 2 ^ 32) {d : Data}
    (h : e.toData.Same d) {n : Nat} (hd : d.height ≤ n) : Expr.readData n d = some e := by
  obtain ⟨n, rfl⟩ := Nat.exists_eq_add_one.mpr (Nat.lt_of_lt_of_le d.height_pos hd)
  match e with
  | .unit m | .resume m => simp [Expr.readData, Mark.unwrap?_str h, Data.variant?, Data.bare]
  | .bool m b =>
    obtain ⟨k, y, hm, hy, hxy, -⟩ := Mark.unwrap?_tagged h hd
    simp only [Expr.readData, hm, hy, hxy.eq_of_leaf rfl, Data.bool?, Option.bind_eq_bind,
      Option.bind_some, Option.pure_def]
  | .int m i =>
    obtain ⟨k, y, hm, hy, hxy, -⟩ := Mark.unwrap?_tagged h hd
    simp only [Expr.readData, hm, hy, hxy.eq_of_leaf rfl, Data.int64?_int,
      Option.bind_eq_bind, Option.bind_some, Option.pure_def]
  | .str m s | .var m s =>
    obtain ⟨k, y, hm, hy, hxy, -⟩ := Mark.unwrap?_tagged h hd
    simp only [Expr.readData, hm, hy, hxy.eq_of_leaf rfl, Data.str?_str,
      Option.bind_eq_bind, Option.bind_some, Option.pure_def]
  | .captured m j =>
    obtain ⟨k, y, hm, hy, hxy, -⟩ := Mark.unwrap?_tagged h hd
    simp only [Expr.readData, hm, hy, hxy.eq_of_leaf rfl,
      Data.place?_nat (hk j (mem_singleton_self j)), Option.bind_eq_bind, Option.bind_some,
      Option.pure_def]
  | .await m e =>
    obtain ⟨k, y, hm, hy, hxy, hle⟩ := Mark.unwrap?_tagged h hd
    simp only [Expr.readData, hm, hy, e.readData_of_same hk hxy hle, Option.bind_eq_bind,
      Option.bind_some, Option.pure_def]
  | .binary m op l r =>
    simp only [Expr.slots, forall_mem_append] at hk
    obtain ⟨k, gs, hm, hy, ⟨o, ho, hop, -⟩, ⟨l', hl', hl, hll⟩, ⟨r', hr', hr, hrl⟩, -⟩ :=
      Mark.unwrap?_fields h (by simp) hd
    simp only [Expr.readData, hm, hy, Data.case?, ho, hl', hr', op.ofData?_of_same hop,
      l.readData_of_same hk.1 hl hll, r.readData_of_same hk.2 hr hrl, map_cons, map_nil,
      Option.bind_eq_bind, Option.bind_some, Option.pure_def]
  | .unary m op e =>
    obtain ⟨k, gs, hm, hy, ⟨o, ho, hop, -⟩, ⟨e', he', he, hel⟩, -⟩ :=
      Mark.unwrap?_fields h (by simp) hd
    simp only [Expr.readData, hm, hy, Data.case?, ho, he', op.ofData?_of_same hop,
      e.readData_of_same hk he hel, map_cons, map_nil, Option.bind_eq_bind,
      Option.bind_some, Option.pure_def]
  | .call m c es =>
    simp only [Expr.slots, forall_mem_append] at hk
    obtain ⟨k, gs, hm, hy, ⟨c', hc', hc, hcl⟩, ⟨_, hes', hes, hesl⟩, -⟩ :=
      Mark.unwrap?_fields h (by simp) hd
    obtain ⟨ds, rfl, hds⟩ := Expr.list_of_same es hk.2 hes hesl
    simp only [Expr.readData, hm, hy, Data.case?, hc', hes', c.readData_of_same hk.1 hc hcl, hds,
      map_cons, map_nil, Data.list?_list, Option.bind_eq_bind, Option.bind_some,
      Option.pure_def]
  | .lambda m ps b =>
    obtain ⟨k, gs, hm, hy, ⟨p, hp', hp, -⟩, ⟨_, hb', hb, hbl⟩, -⟩ :=
      Mark.unwrap?_fields h (by simp) hd
    obtain ⟨ds, rfl, hds⟩ := Stmt.list_of_same b hk hb hbl
    simp only [Expr.readData, hm, hy, Data.case?, hp', hb', hp.strings?, hds, map_cons,
      map_nil, Data.list?_list, Option.bind_eq_bind, Option.bind_some, Option.pure_def]

theorem Expr.list_of_same (es : List Expr) (hk : ∀ k ∈ Expr.slotsIn es, k < 2 ^ 32) {d : Data}
    (h : (Data.list (Expr.listToData es)).Same d) {n : Nat} (hd : d.height ≤ n) :
    ∃ ds, d = .list ds ∧ ds.mapM (Expr.readData n) = some es := by
  match es with
  | [] => exact ⟨[], h.nil, rfl⟩
  | e :: es =>
    simp only [Expr.slotsIn, forall_mem_append] at hk
    obtain ⟨x, xs, rfl, hx, hxs⟩ := h.cons
    have hle := Data.height_cons_le hd
    obtain ⟨ds, hds, hrest⟩ := Expr.list_of_same es hk.2 hxs hle.2
    cases hds
    exact ⟨x :: xs, rfl, by simp [e.readData_of_same hk.1 hx hle.1, hrest]⟩

theorem Stmt.readData_of_same (s : Stmt) (hk : ∀ k ∈ s.slots, k < 2 ^ 32) {d : Data}
    (h : s.toData.Same d) {n : Nat} (hd : d.height ≤ n) : Stmt.readData n d = some s := by
  obtain ⟨n, rfl⟩ := Nat.exists_eq_add_one.mpr (Nat.lt_of_lt_of_le d.height_pos hd)
  match s with
  | .yieldBreak m | .brk m | .cont m =>
    simp [readData, Mark.unwrap?_str h, Data.variant?, Data.bare]
  | .eval m e | .yield m e | .throw m e =>
    obtain ⟨k, y, hm, hy, hxy, hle⟩ := Mark.unwrap?_tagged h hd
    simp only [readData, hm, hy, e.readData_of_same hk hxy hle, Option.bind_eq_bind,
      Option.bind_some, Option.pure_def]
  | .ret m none =>
    obtain ⟨k, y, hm, hy, hxy, -⟩ := Mark.unwrap?_tagged h hd
    simp only [readData, hm, hy, hxy.eq_of_leaf rfl, Data.nullable,
      Option.bind_eq_bind, Option.bind_some, Option.pure_def]
  | .ret m (some e) =>
    obtain ⟨k, y, hm, hy, hxy, hle⟩ := Mark.unwrap?_tagged h hd
    have he : Data.nullable (Expr.readData n) y = some (some e) :=
      Data.Same.optional (o := some e) hxy fun a ha => by
        cases ha
        exact ⟨e.toData_ne_null, fun _ => e.readData_of_same hk hxy hle⟩
    simp only [readData, hm, hy, he, Option.bind_eq_bind, Option.bind_some, Option.pure_def]
  | .block m b =>
    obtain ⟨k, y, hm, hy, hxy, hle⟩ := Mark.unwrap?_tagged h hd
    obtain ⟨ds, rfl, hb⟩ := Stmt.list_of_same b hk hxy hle
    simp only [readData, hm, hy, hb, Data.list?_list, Option.bind_eq_bind, Option.bind_some,
      Option.pure_def]
  | .bind m x e | .assign m x e =>
    obtain ⟨k, gs, hm, hy, ⟨x', hx, hxx, -⟩, ⟨e', he', he, hel⟩, -⟩ :=
      Mark.unwrap?_fields h (by simp) hd
    simp only [readData, hm, hy, Data.case?, hx, he', hxx.eq_of_leaf rfl,
      e.readData_of_same hk he hel, map_cons, map_nil, Data.str?_str,
      Option.bind_eq_bind, Option.bind_some, Option.pure_def]
  | .store m j e =>
    simp only [slots, forall_mem_cons] at hk
    obtain ⟨k, gs, hm, hy, ⟨j', hj, hjj, -⟩, ⟨e', he', he, hel⟩, -⟩ :=
      Mark.unwrap?_fields h (by simp) hd
    simp only [readData, hm, hy, Data.case?, hj, he', hjj.eq_of_leaf rfl,
      Data.place?_nat hk.1, e.readData_of_same hk.2 he hel, map_cons, map_nil,
      Option.bind_eq_bind, Option.bind_some, Option.pure_def]
  | .cond m t a b =>
    simp only [slots, forall_mem_append] at hk
    obtain ⟨k, gs, hm, hy, ⟨t', ht', ht, htl⟩, ⟨_, ha', ha, hal⟩, ⟨_, hb', hb, hbl⟩, -⟩ :=
      Mark.unwrap?_fields h (by simp) hd
    obtain ⟨as, rfl, has⟩ := Stmt.list_of_same a hk.1.2 ha hal
    obtain ⟨bs, rfl, hbs⟩ := Stmt.list_of_same b hk.2 hb hbl
    simp only [readData, hm, hy, Data.case?, ht', ha', hb', t.readData_of_same hk.1.1 ht htl,
      has, hbs, map_cons, map_nil, Data.list?_list, Option.bind_eq_bind, Option.bind_some,
      Option.pure_def]
  | .loop m t b =>
    simp only [slots, forall_mem_append] at hk
    obtain ⟨k, gs, hm, hy, ⟨t', ht', ht, htl⟩, ⟨_, hb', hb, hbl⟩, -⟩ :=
      Mark.unwrap?_fields h (by simp) hd
    obtain ⟨bs, rfl, hbs⟩ := Stmt.list_of_same b hk.2 hb hbl
    simp only [readData, hm, hy, Data.case?, ht', hb', t.readData_of_same hk.1 ht htl, hbs,
      map_cons, map_nil, Data.list?_list, Option.bind_eq_bind, Option.bind_some,
      Option.pure_def]
  | .attempt m b c f =>
    rw [Stmt.toData_attempt] at h
    simp only [slots, forall_mem_append] at hk
    obtain ⟨k, gs, hm, hy, ⟨_, hb', hb, hbl⟩, ⟨c', hc', hc, hcl⟩, ⟨f', hf', hf, hfl⟩, -⟩ :=
      Mark.unwrap?_fields h (by simp) hd
    obtain ⟨bs, rfl, hbs⟩ := Stmt.list_of_same b hk.1.1 hb hbl
    have hf := Stmt.cleanup_of_same f hk.2 hf hfl
    simp only [Option.bind_eq_bind] at hf
    simp only [readData, hm, hy, Data.case?, hb', hc', hf', hbs,
      Stmt.clause_of_same c hk.1.2 hc hcl, hf, map_cons, map_nil, Data.list?_list,
      Option.bind_eq_bind, Option.bind_some, Option.pure_def]

theorem Stmt.clause_of_same (c : Option Catch) (hk : ∀ k ∈ Stmt.clauseSlots c, k < 2 ^ 32)
    {d : Data} (h : (Data.ofOption Catch.toData c).Same d) {n : Nat} (hd : d.height ≤ n) :
    Data.optional (Catch.readData n) (some d) = some c := by
  refine h.optional fun a ha => ⟨by cases a; nofun, fun h => ?_⟩
  obtain ⟨n, rfl⟩ := Nat.exists_eq_add_one.mpr (Nat.lt_of_lt_of_le d.height_pos hd)
  match c, a, ha with
  | some (.mk x b), _, rfl =>
    obtain ⟨gs, rfl, -, ⟨x', hx', hx, -⟩, ⟨_, hb', hb, hbl⟩, -⟩ := h.fields (by simp) hd
    obtain ⟨bs, rfl, hbs⟩ := Stmt.list_of_same b hk hb hbl
    simp [Catch.readData, Data.structure?, hx', hb', hx.optional_str, hbs]

theorem Stmt.cleanup_of_same (f : Option Block) (hk : ∀ k ∈ Stmt.cleanupSlots f, k < 2 ^ 32)
    {d : Data} (h : (Data.ofOption (fun b => Data.list (Stmt.listToData b)) f).Same d) {n : Nat}
    (hd : d.height ≤ n) :
    Data.optional (fun d => do (← d.list?).mapM (Stmt.readData n)) (some d) = some f := by
  refine h.optional fun a ha => ⟨nofun, fun h => ?_⟩
  match f, a, ha with
  | some b, _, rfl =>
    obtain ⟨bs, rfl, hbs⟩ := Stmt.list_of_same b hk h hd
    exact hbs

theorem Stmt.list_of_same (ss : List Stmt) (hk : ∀ k ∈ Stmt.slotsIn ss, k < 2 ^ 32) {d : Data}
    (h : (Data.list (Stmt.listToData ss)).Same d) {n : Nat} (hd : d.height ≤ n) :
    ∃ ds, d = .list ds ∧ ds.mapM (Stmt.readData n) = some ss := by
  match ss with
  | [] => exact ⟨[], h.nil, rfl⟩
  | s :: ss =>
    simp only [slotsIn, forall_mem_append] at hk
    obtain ⟨x, xs, rfl, hx, hxs⟩ := h.cons
    have hle := Data.height_cons_le hd
    obtain ⟨ds, hds, hrest⟩ := Stmt.list_of_same ss hk.2 hxs hle.2
    cases hds
    exact ⟨x :: xs, rfl, by simp [s.readData_of_same hk.1 hx hle.1, hrest]⟩

end

theorem Expr.ofData?_of_same (e : Expr) (hk : ∀ k ∈ e.slots, k < 2 ^ 32) (h : e.toData.Same d) :
    Expr.ofData? d = some e :=
  e.readData_of_same hk h (Nat.le_refl _)

theorem Stmt.listToData_eq_map (ss : List Stmt) : Stmt.listToData ss = ss.map Stmt.toData := by
  induction ss with
  | nil => rfl
  | cons s ss ih => rw [listToData, ih, map_cons]

theorem Stmt.mem_slotsIn {s : Stmt} {ss : List Stmt} (h : s ∈ ss) {k : Slot} (hk : k ∈ s.slots) :
    k ∈ Stmt.slotsIn ss := by
  induction ss with
  | nil => cases h
  | cons t ss ih =>
    rcases mem_cons.mp h with rfl | h
    · exact mem_append_left _ hk
    · exact mem_append_right _ (ih h)

theorem Stmt.listOfData?_of_same (ss : List Stmt) (hk : ∀ k ∈ Stmt.slotsIn ss, k < 2 ^ 32)
    (h : (Data.list (Stmt.listToData ss)).Same d) : Stmt.listOfData? d = some ss := by
  rw [listToData_eq_map] at h
  have hread : ∀ s ∈ ss, ∀ d, s.toData.Same d → ofData? d = some s := fun s hs d hd =>
    s.readData_of_same (fun k hsk => hk k (mem_slotsIn hs hsk)) hd (Nat.le_refl _)
  obtain ⟨ds, rfl, hds⟩ := h.mapM hread
  exact hds

theorem Method.ofData?_of_same (m : Method) (hk : ∀ k ∈ Stmt.slotsIn m.body, k < 2 ^ 32)
    (h : m.toData.Same d) : Method.ofData? d = some m := by
  obtain ⟨gs, rfl, -, ⟨i, hi, hid, -⟩, ⟨x, hx', hx, -⟩, ⟨p, hp', hp, -⟩, ⟨b, hb', hb, -⟩,
    ⟨s, hs', hs, -⟩, -⟩ := h.fields (by simp) (Nat.le_succ _)
  obtain rfl := hid.eq_of_leaf rfl
  obtain rfl := hx.eq_of_leaf rfl
  simp [Method.ofData?, Data.structure?, hi, hx', hp', hb', hs', Data.place?,
    Data.nat?_nat 32 _ m.mark.id.toNat_lt, hp.strings?, listOfData?_of_same m.body hk hb,
    Span.ofData?_of_same _ hs]

/-! Chains. -/

/-- All numbers in a state: its own, those of slots, of other states and of its handler. -/
def State.numbers (s : State) : List Nat :=
  s.id :: (s.slots ++ s.exit.successors ++ s.handler.toList)

def Landing.numbers (c : Landing) : List Nat :=
  c.entry :: c.slot.toList

def Handler.numbers (h : Handler) : List Nat :=
  h.id :: (h.clause.toList.flatMap Landing.numbers ++ h.cleanup.toList ++ h.parent.toList)

def Chain.numbers (c : Chain) : List Nat :=
  c.states.flatMap State.numbers ++ c.handlers.flatMap Handler.numbers ++
    c.captures.toList.map (·.slot) ++ c.params

/-- The chain has numbers of 32 bits, and its manifest has each name once. -/
structure Chain.Fits (c : Chain) : Prop where
  numbers : ∀ k ∈ c.numbers, k < 2 ^ 32
  names : (c.captures.vars.map (·.1)).Nodup

theorem Kind.ofData?_of_same (k : Kind) (h : k.toData.Same d) : Kind.ofData? d = some k := by
  rw [h.eq_of_leaf (by cases k <;> rfl), k.ofData?_toData]

theorem Origin.ofData?_of_same (o : Origin) (h : o.toData.Same d) : Origin.ofData? d = some o := by
  rw [h.eq_of_leaf (by cases o <;> rfl), o.ofData?_toData]

theorem Terminator.ofData?_of_same (t : Terminator)
    (hk : ∀ k ∈ t.expr?.elim [] Expr.slots, k < 2 ^ 32) (hs : ∀ k ∈ t.successors, k < 2 ^ 32)
    (h : t.toData.Same d) : Terminator.ofData? d = some t := by
  cases t with
  | goto s =>
    obtain ⟨y, hy, hxy, -⟩ := h.variant? (Nat.le_succ _)
    simp [Terminator.ofData?, hy, hxy.eq_of_leaf rfl,
      Data.place?_nat (hs s (mem_singleton_self s))]
  | branch e a b =>
    simp only [Terminator.successors, forall_mem_cons] at hs
    obtain ⟨gs, hy, ⟨e', he', he, -⟩, ⟨a', ha', ha, -⟩, ⟨b', hb', hb, -⟩, -⟩ :=
      h.variantFields (by simp) (Nat.le_succ _)
    obtain rfl := ha.eq_of_leaf rfl
    obtain rfl := hb.eq_of_leaf rfl
    simp [Terminator.ofData?, hy, Data.case?, he', ha', hb', e.ofData?_of_same hk he,
      Data.place?_nat hs.1, Data.place?_nat hs.2.1]
  | suspend p r =>
    obtain ⟨gs, hy, ⟨p', hp', hp, -⟩, ⟨r', hr', hr, -⟩, -⟩ :=
      h.variantFields (by simp) (Nat.le_succ _)
    obtain rfl := hr.eq_of_leaf rfl
    have hread : Pause.ofData? p' = some p := by
      cases p with
      | yield e | await e =>
        obtain ⟨y, hy, hey, -⟩ := hp.variant? (Nat.le_succ _)
        simp [Pause.ofData?, hy, e.ofData?_of_same hk hey]
    simp [Terminator.ofData?, hy, Data.case?, hp', hr', hread,
      Data.place?_nat (hs r (mem_singleton_self r))]
  | ret v t =>
    obtain ⟨gs, hy, ⟨v', hv', hv, -⟩, ⟨t', ht', ht, -⟩, -⟩ :=
      h.variantFields (by simp) (Nat.le_succ _)
    have hread : Data.optional Expr.ofData? (some v') = some v := hv.optional
      fun e he => ⟨e.toData_ne_null, e.ofData?_of_same (by cases he; exact hk)⟩
    simp [Terminator.ofData?, hy, Data.case?, hv', ht', hread, ht.optional_place hs]
  | enter f t =>
    simp only [Terminator.successors, forall_mem_cons] at hs
    obtain ⟨gs, hy, ⟨f', hf', hf, -⟩, ⟨t', ht', ht, -⟩, -⟩ :=
      h.variantFields (by simp) (Nat.le_succ _)
    obtain rfl := hf.eq_of_leaf rfl
    obtain rfl := ht.eq_of_leaf rfl
    simp [Terminator.ofData?, hy, Data.case?, hf', ht', Data.place?_nat hs.1,
      Data.place?_nat hs.2.1]
  | endCleanup | complete | unreachable =>
    rw [h.eq_of_leaf rfl]
    rfl

theorem State.ofData?_of_same (s : State) (hk : ∀ k ∈ s.numbers, k < 2 ^ 32) (h : s.toData.Same d) :
    State.ofData? d = some s := by
  simp only [State.numbers, State.slots, forall_mem_cons, forall_mem_append] at hk
  obtain ⟨hid, ⟨⟨hbody, hexpr⟩, hexit⟩, hhandler⟩ := hk
  obtain ⟨gs, rfl, -, ⟨i, hi', hi, -⟩, ⟨b, hb', hb, -⟩, ⟨t, ht', ht, -⟩, ⟨g, hg', hg, -⟩, -⟩ :=
    h.fields (by simp) (Nat.le_succ _)
  obtain rfl := hi.eq_of_leaf rfl
  simp [State.ofData?, Data.structure?, hi', hb', ht', hg', Data.place?_nat hid,
    listOfData?_of_same s.body hbody hb, s.exit.ofData?_of_same hexpr hexit ht,
    hg.optional_place hhandler]

theorem Landing.ofData?_of_same (c : Landing) (hk : ∀ k ∈ c.numbers, k < 2 ^ 32)
    (h : c.toData.Same d) : Landing.ofData? d = some c := by
  simp only [Landing.numbers, forall_mem_cons] at hk
  obtain ⟨gs, rfl, -, ⟨e, he', he, -⟩, ⟨b, hb', hb, -⟩, ⟨s, hs', hs, -⟩, -⟩ :=
    h.fields (by simp) (Nat.le_succ _)
  obtain rfl := he.eq_of_leaf rfl
  simp [Landing.ofData?, Data.structure?, he', hb', hs', Data.place?_nat hk.1, hb.optional_str,
    hs.optional_place hk.2]

theorem Handler.ofData?_of_same (g : Handler) (hk : ∀ k ∈ g.numbers, k < 2 ^ 32)
    (h : g.toData.Same d) : Handler.ofData? d = some g := by
  simp only [Handler.numbers, forall_mem_cons, forall_mem_append] at hk
  obtain ⟨hid, ⟨hclause, hcleanup⟩, hparent⟩ := hk
  obtain ⟨gs, rfl, -, ⟨i, hi', hi, -⟩, ⟨c, hc', hc, -⟩, ⟨f, hf', hf, -⟩, ⟨p, hp', hp, -⟩, -⟩ :=
    h.fields (by simp) (Nat.le_succ _)
  obtain rfl := hi.eq_of_leaf rfl
  have hread : Data.optional Landing.ofData? (some c) = some g.clause := hc.optional fun a ha =>
    ⟨nofun, a.ofData?_of_same fun k hka =>
      hclause k (mem_flatMap.mpr ⟨a, Option.mem_toList.mpr ha, hka⟩)⟩
  simp [Handler.ofData?, Data.structure?, hi', hc', hf', hp', Data.place?_nat hid, hread,
    hf.optional_place hcleanup, hp.optional_place hparent]

theorem Captured.ofData?_of_same (v : Captured) (hk : v.slot < 2 ^ 32) (h : v.toData.Same d) :
    Captured.ofData? d = some v := by
  obtain ⟨gs, rfl, -, ⟨s, hs', hs, -⟩, ⟨x, hx', hx, -⟩, ⟨o, ho', ho, -⟩, -⟩ :=
    h.fields (by simp) (Nat.le_succ _)
  obtain rfl := hs.eq_of_leaf rfl
  obtain rfl := hx.eq_of_leaf rfl
  simp [Captured.ofData?, Data.structure?, hs', hx', ho', Data.place?_nat hk,
    v.origin.ofData?_of_same ho]

/-- Things under the same names, written as the same data, are read as they were written. -/
theorem Data.mapM_fields {α : Type} {write : α → Data} {read : Data → Option α} {xs : Named α}
    (hread : ∀ p ∈ xs, ∀ d, (write p.2).Same d → read d = some p.2) {ys : Named Data}
    (h : (xs.map fun p => (p.1, (write p.2).ordered)) = ys.map fun f => (f.1, f.2.ordered)) :
    ys.mapM (fun f => (read f.2).map (f.1, ·)) = some xs := by
  induction xs generalizing ys with
  | nil =>
    cases ys with
    | nil => rfl
    | cons => cases h
  | cons p xs ih =>
    cases ys with
    | nil => cases h
    | cons f ys =>
      rw [forall_mem_cons] at hread
      simp only [map_cons, cons.injEq, Prod.mk.injEq] at h
      simp [hread.1 f.2 h.1.2, ← h.1.1, ih hread.2 h.2]

/-- Variables in the order of their names are written as fields in that order. -/
theorem Manifest.sorted_fields (xs : Named Captured) :
    Named.sorted (Data.orderedFields (xs.map fun (x, v) => (x, v.toData))) =
      (Named.sorted xs).map fun p => (p.1, p.2.toData.ordered) := by
  rw [Data.orderedFields_eq, map_map]
  exact Named.sorted_map (fun v : Captured => v.toData.ordered) xs

/-- A manifest is read with its variables in the order of their names. -/
theorem Manifest.ofData?_of_same (m : Manifest) (hk : ∀ v ∈ m.toList, v.slot < 2 ^ 32)
    (h : m.toData.Same d) : Manifest.ofData? d = some ⟨Named.sorted m.vars⟩ := by
  obtain ⟨fields, rfl, -, ⟨_, hv', hv, -⟩, -⟩ := h.fields (by simp) (Nat.le_succ _)
  obtain ⟨vars, rfl, hvars⟩ := hv.record
  have hsorted : ((Named.sorted m.vars).map fun p => (p.1, p.2.toData.ordered)) =
      (Named.sorted vars).map fun f => (f.1, f.2.ordered) := by
    rw [← Manifest.sorted_fields, hvars, Data.orderedFields_eq]
    exact Named.sorted_map Data.ordered vars
  have hvar : ∀ p ∈ Named.sorted m.vars, ∀ d, p.2.toData.Same d → Captured.ofData? d = some p.2 :=
    fun p hp d => p.2.ofData?_of_same
      (hk p.2 (mem_map_of_mem ((Named.perm_sorted _).mem_iff.mp hp)))
  have hread := Data.mapM_fields hvar hsorted
  simp [Manifest.ofData?, Data.structure?, hv', Data.sortedFields?, hread]

/-- The chain with its variables in the order of their names. -/
def Chain.inNameOrder (c : Chain) : Chain :=
  { c with captures := ⟨Named.sorted c.captures.vars⟩ }

theorem Chain.ofData?_of_same (hk : ∀ k ∈ c.numbers, k < 2 ^ 32) (h : c.toData.Same d) :
    Chain.ofData? d = some c.inNameOrder := by
  simp only [Chain.numbers, forall_mem_append, forall_mem_map] at hk
  obtain ⟨⟨⟨hstates, hhandlers⟩, hslots⟩, hparams⟩ := hk
  obtain ⟨gs, rfl, -, ⟨x, hx', hx, -⟩, ⟨k, hk', hk, -⟩, ⟨_, hs', hs, -⟩, ⟨_, hg', hg, -⟩,
    ⟨v, hv', hv, -⟩, ⟨_, hp', hp, -⟩, -⟩ := h.fields (by simp) (Nat.le_succ _)
  obtain rfl := hx.eq_of_leaf rfl
  obtain ⟨ss, rfl, hss⟩ := hs.mapM fun s hs d => s.ofData?_of_same fun k hk =>
    hstates k (mem_flatMap.mpr ⟨s, hs, hk⟩)
  obtain ⟨hs, rfl, hhs⟩ := hg.mapM fun g hg d => g.ofData?_of_same fun k hk =>
    hhandlers k (mem_flatMap.mpr ⟨g, hg, hk⟩)
  have hplace : ∀ k ∈ c.params, ∀ d, (Data.nat k).Same d → Data.place? d = some k := by
    intro k hk d hd
    rw [hd.eq_of_leaf rfl]
    exact Data.place?_nat (hparams k hk)
  obtain ⟨ps, rfl, hps⟩ := hp.mapM hplace
  simp [Chain.ofData?, Data.structure?, hx', hk', hs', hg', hv', hp', c.kind.ofData?_of_same hk,
    hss, hhs, hps, c.captures.ofData?_of_same hslots hv, Chain.inNameOrder]

/-! Chains that differ in the order of their variables. -/

theorem Manifest.sameVars_iff {m n : Manifest} (hm : (m.vars.map (·.1)).Nodup)
    (hn : (n.vars.map (·.1)).Nodup) : m.sameVars n = true ↔ m.vars.Perm n.vars := by
  simp only [Manifest.sameVars, Manifest.size, Manifest.find?, Bool.and_eq_true, beq_iff_eq,
    all_eq_true, Named.get?_eq_some_iff hn]
  constructor
  · rintro ⟨hlen, hall⟩
    exact (subperm_of_subset hm.of_map hall).perm_of_length_le (Nat.le_of_eq hlen.symm)
  · intro hp
    exact ⟨hp.length_eq, fun p => hp.mem_iff.mp⟩

section

variable (hc : (c.captures.vars.map (·.1)).Nodup)
include hc

theorem Chain.inNameOrder_eq_iff {c' : Chain} (hc' : (c'.captures.vars.map (·.1)).Nodup) :
    c.inNameOrder = c'.inNameOrder ↔ c.same c' = true := by
  rw [Chain.same, Bool.and_eq_true, Manifest.sameVars_iff hc hc', beq_iff_eq]
  simp only [Chain.inNameOrder, Chain.mk.injEq, Manifest.mk.injEq, Named.sorted_eq_iff hc',
    true_and]
  tauto

theorem Chain.same_inNameOrder : c.inNameOrder.same c = true := by
  have hperm := Named.perm_sorted c.captures.vars
  have hnames : (c.inNameOrder.captures.vars.map (·.1)).Nodup := (hperm.map _).nodup_iff.mpr hc
  rw [Chain.same, Bool.and_eq_true, Manifest.sameVars_iff hnames hc]
  exact ⟨hperm, beq_self_eq_true _⟩

/-- What is written does not depend on the order of the variables. -/
theorem Chain.same_toData_inNameOrder : c.toData.Same c.inNameOrder.toData := by
  have hsorted := (Named.sorted_eq_iff hc).mpr (Named.perm_sorted c.captures.vars)
  simp only [Data.Same, Chain.toData, Chain.inNameOrder, Manifest.toData, Data.ordered,
    Data.orderedFields, Manifest.sorted_fields, hsorted]

end

/-- The method has slots of 32 bits. -/
def Method.Fits (m : Method) : Prop :=
  ∀ k ∈ Stmt.slotsIn m.body, k < 2 ^ 32

/-- Methods and chains survive being written and read, whatever the order of the fields in between,
and those that are written alike are the same. -/
theorem data_roundtrip {m m' : Method} {c c' : Chain} (hm : m.Fits) (hm' : m'.Fits) (hc : c.Fits)
    (hc' : c'.Fits) :
    m.survives = true ∧ c.survives = true ∧
      (∀ d, m.toData.Same d → Method.ofData? d = some m) ∧
      (∀ d, c.toData.Same d → ∃ r, Chain.ofData? d = some r ∧ r.same c = true) ∧
      (m.toData.Same m'.toData ↔ m = m') ∧ (c.toData.Same c'.toData ↔ c.same c' = true) := by
  have hread : ∀ d, c.toData.Same d → ∃ r, Chain.ofData? d = some r ∧ r.same c = true :=
    fun d hd => ⟨_, Chain.ofData?_of_same hc.numbers hd, Chain.same_inNameOrder hc.names⟩
  refine ⟨?_, ?_, fun d => m.ofData?_of_same hm, hread, ⟨fun h => ?_, ?_⟩, ?_⟩
  · rw [Method.survives, m.ofData?_of_same hm rfl]
    exact beq_self_eq_true _
  · obtain ⟨r, hr, hsame⟩ := hread _ rfl
    rw [Chain.survives, hr]
    exact hsame
  · exact Option.some.inj ((m.ofData?_of_same hm h).symm.trans (m'.ofData?_of_same hm' rfl))
  · rintro rfl
    rfl
  · rw [← Chain.inNameOrder_eq_iff hc.names hc'.names]
    have hw := Chain.same_toData_inNameOrder hc.names
    have hw' := Chain.same_toData_inNameOrder hc'.names
    constructor
    · intro h
      exact Option.some.inj ((Chain.ofData?_of_same hc.numbers h).symm.trans
        (Chain.ofData?_of_same hc'.numbers rfl))
    · intro h
      rw [← h] at hw'
      exact Eq.trans hw hw'.symm

/-- A method with a lambda, a guarded block and a return without a value. -/
def guardedMethod : Method where
  name := "guarded"
  params := ["x"]
  body := [.attempt {} [.assign {} "x" (.call {} (.lambda {} ["y"] [.ret {} (some (.var {} "y"))])
      [.int {} (-9223372036854775808)])] (some (.mk none [])) none, .ret {} none]

/-- A chain over two variables. -/
def pairChain (vars : Named Captured) : Chain where
  name := "pair"
  kind := .iterator
  states := [⟨0, [.store {} 0 (.int {} 1)], .suspend (.yield (.captured {} 1)) 1, some 0⟩,
    { id := 1, exit := .complete }]
  handlers := [{ id := 0, clause := some ⟨1, some "a", some 1⟩ }]
  captures := ⟨vars⟩
  params := [0]

/-- The order of the variables is all that is lost. -/
theorem pairChain_roundtrip :
    let c := pairChain [("b", ⟨0, "b", .parameter⟩), ("a", ⟨1, "a", .caught⟩)]
    let c' := pairChain [("a", ⟨1, "a", .caught⟩), ("b", ⟨0, "b", .parameter⟩)]
    guardedMethod.survives = true ∧ c.survives = true ∧ c ≠ c' ∧ c.toData.Same c'.toData := by
  intro c c'
  have hm : guardedMethod.Fits := by
    unfold Method.Fits
    decide +kernel
  have hc : c.Fits := ⟨by decide +kernel, by decide +kernel⟩
  have hc' : c'.Fits := ⟨by decide +kernel, by decide +kernel⟩
  obtain ⟨h₁, h₂, -, -, -, h₃⟩ := data_roundtrip hm hm hc hc'
  exact ⟨h₁, h₂, by decide +kernel, h₃.mpr (by decide +kernel)⟩

end Resumable

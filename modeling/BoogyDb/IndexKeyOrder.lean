import BoogyDb.Lib.ByteOrder
import BoogyDb.TableWrites

/-!
# The order of index keys

The keys of an index stand in the order of the values of its columns, rows with the
same values in the order of their ids, and the key of a row starts with the code of
another row's values only if the values are the same.  The code of each value has to
be self-delimiting for this, and the code of a text is so as long as the text has no
zero byte.

Writes refuse a text with a zero byte in the leading column of an index only.  In a
later column it goes through, unless the column leads another index, and then the
order is lost.
-/

namespace BoogyDb

open ByteOrder Bytes

/-! ## What the keys should be ordered by -/

/-- The order of values of one type. -/
def valueCmp : Value → Value → Ordering
  | .integer a, .integer b => compare a.toInt b.toInt
  | .real a, .real b => Float64.totalCmp a b
  | .text a, .text b => compare (asBytes a) (asBytes b)
  | _, _ => .eq

/-- The lexicographic order of tuples of the same types. -/
def tupleCmp : List Value → List Value → Ordering
  | v :: vs, w :: ws => (valueCmp v w).then (tupleCmp vs ws)
  | _, _ => .eq

/-- The value is of the type, and not NaN. -/
def Value.OfType (t : ColumnType) (v : Value) : Prop :=
  v.valueType = some t ∧ ∀ bits, v = .real bits → Float64.isNaN bits = false

/-- The types whose values the keys put in order. -/
def ColumnType.Sortable (t : ColumnType) : Prop := t = .integer ∨ t = .real ∨ t = .text

/-- The value is not a text with a zero byte. -/
def Value.ZeroFree (v : Value) : Prop := ∀ s, v = .text s → 0 ∉ asBytes s

/-- The keys of two tuples are in the order of the tuples and of the row ids, and no key
starts with the code of the other tuple unless the tuples are equal. -/
def KeysInOrder (ts : List ColumnType) (a b : List Value) : Prop :=
  ∀ ra rb ka kb, encodeCompositeIndexKey (ts.zip a) ra = some ka →
    encodeCompositeIndexKey (ts.zip b) rb = some kb →
    compare ka kb = (tupleCmp a b).then (compare ra.toNat rb.toNat) ∧
    (∀ pa, encodeCompositeValuePrefix (ts.zip a) = some pa → pa <+: kb → a = b) ∧
    (∀ pb, encodeCompositeValuePrefix (ts.zip b) = some pb → pb <+: ka → a = b)

/-! ## Numbers -/

/-- Flipping the top bit adds or takes away its weight. -/
theorem toNat_xor_top (w : UInt64) : (w ^^^ 0x8000000000000000).toNat =
    if w.toNat < 2 ^ 63 then w.toNat + 2 ^ 63 else w.toNat - 2 ^ 63 := by
  have hlt := w.toNat_lt
  have hdiv : (w.toNat ^^^ 2 ^ 63) / 2 ^ 63 = w.toNat / 2 ^ 63 ^^^ 1 := Nat.xor_div_two_pow
  have hmod : (w.toNat ^^^ 2 ^ 63) % 2 ^ 63 = w.toNat % 2 ^ 63 := by
    rw [Nat.xor_mod_two_pow, Nat.mod_self, Nat.xor_zero]
  have htop : w.toNat / 2 ^ 63 = 0 ∨ w.toNat / 2 ^ 63 = 1 := by omega
  change w.toNat ^^^ 2 ^ 63 = _
  rcases htop with h | h
  · rw [h, show (0 ^^^ 1 : ℕ) = 1 from rfl] at hdiv
    rw [if_pos (by omega)]
    omega
  · rw [h, show (1 ^^^ 1 : ℕ) = 0 from rfl] at hdiv
    rw [if_neg (by omega)]
    omega

theorem sorts_toBeBytes (a b : UInt64) :
    Sorts (compare a.toNat b.toNat) (toBeBytes a) (toBeBytes b) := by
  unfold toBeBytes
  exact sorts_beBytes 8 a.toNat_lt b.toNat_lt

theorem toInt_eq_toUInt64 (a : Int64) : a.toInt =
    if a.toUInt64.toNat < 2 ^ 63 then (a.toUInt64.toNat : ℤ) else a.toUInt64.toNat - 2 ^ 64 := by
  change a.toBitVec.toInt = if a.toBitVec.toNat < 2 ^ 63 then (a.toBitVec.toNat : ℤ)
    else a.toBitVec.toNat - 2 ^ 64
  rw [BitVec.toInt_eq_toNat_cond]
  split <;> split <;> omega

/-- Flipping the sign bit shifts the signed numbers to the unsigned ones. -/
theorem sortable_integer (a : Int64) :
    ((a.toUInt64 ^^^ 0x8000000000000000).toNat : ℤ) = a.toInt + 2 ^ 63 := by
  have hlt := a.toUInt64.toNat_lt
  rw [toNat_xor_top, toInt_eq_toUInt64]
  split <;> omega

theorem sorts_integer (a b : Int64) :
    Sorts (compare a.toInt b.toInt) (encodeI64Sortable a) (encodeI64Sortable b) := by
  have ha := sortable_integer a
  have hb := sortable_integer b
  have hcmp : compare a.toInt b.toInt = compare (a.toUInt64 ^^^ 0x8000000000000000).toNat
      (b.toUInt64 ^^^ 0x8000000000000000).toNat := by
    rcases lt_trichotomy a.toInt b.toInt with hlt | heq | hgt
    · rw [compare_lt_iff_lt.mpr hlt, compare_lt_iff_lt.mpr (by omega)]
    · rw [compare_eq_iff_eq.mpr heq, compare_eq_iff_eq.mpr (by omega)]
    · rw [compare_gt_iff_gt.mpr hgt, compare_gt_iff_gt.mpr (by omega)]
  rw [hcmp]
  exact sorts_toBeBytes _ _

/-- The word a real is encoded as. -/
def sortableReal (bits : UInt64) : UInt64 :=
  if Float64.isSignNegative bits then ~~~bits else bits ^^^ 0x8000000000000000

/-- Negative reals are counted down from the middle, the others up from it. -/
theorem toNat_sortableReal (bits : UInt64) : ((sortableReal bits).toNat : ℤ) =
    Float64.orderKey bits + if Float64.isSignNegative bits then 2 ^ 63 - 1 else 2 ^ 63 := by
  have hlt := bits.toNat_lt
  unfold sortableReal Float64.orderKey Float64.magnitude
  by_cases hneg : Float64.isSignNegative bits = true
  · have htop : 2 ^ 63 ≤ bits.toNat := of_decide_eq_true hneg
    simp only [hneg, if_true, UInt64.toNat_not, UInt64.size]
    omega
  · have htop : ¬2 ^ 63 ≤ bits.toNat := fun h => hneg (decide_eq_true h)
    simp only [hneg, if_false, Bool.false_eq_true, toNat_xor_top]
    rw [if_pos (by omega)]
    omega

theorem orderKey_sign (bits : UInt64) : if Float64.isSignNegative bits then
    Float64.orderKey bits ≤ 0 else 0 ≤ Float64.orderKey bits := by
  unfold Float64.orderKey
  split <;> simp_all

/-- The words of two reals are in the order of the reals. -/
theorem totalCmp_eq (a b : UInt64) :
    Float64.totalCmp a b = compare (sortableReal a).toNat (sortableReal b).toNat := by
  have ha := toNat_sortableReal a
  have hb := toNat_sortableReal b
  have hsa := orderKey_sign a
  have hsb := orderKey_sign b
  unfold Float64.totalCmp
  rcases lt_trichotomy (Float64.orderKey a) (Float64.orderKey b) with hlt | heq | hgt
  · rw [compare_lt_iff_lt.mpr hlt]
    apply (compare_lt_iff_lt.mpr _).symm
    split at hsa <;> split at hsb <;> simp_all <;> omega
  · rw [compare_eq_iff_eq.mpr heq, Ordering.then]
    cases hna : Float64.isSignNegative a <;> cases hnb : Float64.isSignNegative b <;>
      simp only [hna, hnb, if_true, if_false, Bool.false_eq_true] at ha hb
    · exact (compare_eq_iff_eq.mpr (by omega)).symm
    · exact (compare_gt_iff_gt.mpr (by omega)).symm
    · exact (compare_lt_iff_lt.mpr (by omega)).symm
    · exact (compare_eq_iff_eq.mpr (by omega)).symm
  · rw [compare_gt_iff_gt.mpr hgt]
    apply (compare_gt_iff_gt.mpr _).symm
    split at hsa <;> split at hsb <;> simp_all <;> omega

theorem sorts_real (a b : UInt64) :
    Sorts (Float64.totalCmp a b) (encodeF64Sortable a) (encodeF64Sortable b) := by
  rw [totalCmp_eq]
  exact sorts_toBeBytes _ _

theorem totalCmp_eq_eq {a b : UInt64} (h : Float64.totalCmp a b = .eq) : a = b := by
  obtain ⟨hkeys, hsigns⟩ := Ordering.then_eq_eq.mp h
  rw [compare_eq_iff_eq] at hkeys hsigns
  unfold Float64.orderKey Float64.magnitude at hkeys
  unfold Float64.isSignNegative at hkeys hsigns
  have hsigns' := decide_eq_decide.mp hsigns
  have ha := a.toNat_lt
  have hb := b.toNat_lt
  apply UInt64.toNat_inj.mp
  by_cases htop : 2 ^ 63 ≤ a.toNat
  · have htop' := hsigns'.mpr htop
    simp only [htop, htop', decide_true, if_true] at hkeys
    omega
  · have htop' := fun h => htop (hsigns'.mp h)
    simp only [htop, decide_false, Bool.false_eq_true, if_false] at hkeys
    omega

/-! ## Values and tuples -/

/-- A value of a sortable type. -/
theorem Value.OfType.cases {t : ColumnType} {v : Value} (h : v.OfType t) (ht : t.Sortable) :
    (t = .integer ∧ ∃ i, v = .integer i) ∨ (t = .real ∧ ∃ bits, v = .real bits) ∨
      (t = .text ∧ ∃ s, v = .text s) := by
  rcases ht with rfl | rfl | rfl <;> cases v <;> first | (cases h.1; done) | simp

section

variable {t : ColumnType} {v w : Value} {ts : List ColumnType} {a b : List Value}

/-- The codes of two values are in the order of the values. -/
theorem sorts_value (ht : t.Sortable) (hv : v.OfType t) (hw : w.OfType t) (hv0 : v.ZeroFree)
    (hw0 : w.ZeroFree) : ∃ p q, encodeValuePrefix t v = some p ∧ encodeValuePrefix t w = some q ∧
      Sorts (valueCmp v w) p q := by
  rcases hv.cases ht with ⟨rfl, i, rfl⟩ | ⟨rfl, bits, rfl⟩ | ⟨rfl, s, rfl⟩
  · obtain ⟨-, j, rfl⟩ | ⟨h, -⟩ | ⟨h, -⟩ := hw.cases ht
    · exact ⟨_, _, rfl, rfl, sorts_integer i j⟩
    · cases h
    · cases h
  · obtain ⟨h, -⟩ | ⟨-, bits', rfl⟩ | ⟨h, -⟩ := hw.cases ht
    · cases h
    · exact ⟨_, _, rfl, rfl, sorts_real bits bits'⟩
    · cases h
  · obtain ⟨h, -⟩ | ⟨h, -⟩ | ⟨-, s', rfl⟩ := hw.cases ht
    · cases h
    · cases h
    · exact ⟨_, _, rfl, rfl, sorts_terminated (hv0 s rfl) (hw0 s' rfl)⟩

theorem eq_of_valueCmp (ht : t.Sortable) (hv : v.OfType t) (hw : w.OfType t)
    (h : valueCmp v w = .eq) : v = w := by
  rcases hv.cases ht with ⟨rfl, i, rfl⟩ | ⟨rfl, bits, rfl⟩ | ⟨rfl, s, rfl⟩
  · obtain ⟨-, j, rfl⟩ | ⟨h, -⟩ | ⟨h, -⟩ := hw.cases ht
    · exact congrArg _ (Int64.toInt_inj.mp (compare_eq_iff_eq.mp h))
    · cases h
    · cases h
  · obtain ⟨h, -⟩ | ⟨-, bits', rfl⟩ | ⟨h, -⟩ := hw.cases ht
    · cases h
    · exact congrArg _ (totalCmp_eq_eq h)
    · cases h
  · obtain ⟨h, -⟩ | ⟨h, -⟩ | ⟨-, s', rfl⟩ := hw.cases ht
    · cases h
    · cases h
    · exact congrArg _ (asBytes_injective (compare_eq_eq_iff.mp h))

/-- Values of the types, in order. -/
def Typed (ts : List ColumnType) (vs : List Value) : Prop :=
  List.Forall₂ (fun t v => v.OfType t) ts vs

/-- The codes of two tuples are in the order of the tuples. -/
theorem sorts_tuple (hts : ∀ t ∈ ts, t.Sortable) (ha : Typed ts a) (hb : Typed ts b)
    (ha0 : ∀ v ∈ a, v.ZeroFree) (hb0 : ∀ v ∈ b, v.ZeroFree) :
    ∃ p q, encodeCompositeValuePrefix (ts.zip a) = some p ∧
      encodeCompositeValuePrefix (ts.zip b) = some q ∧ Sorts (tupleCmp a b) p q := by
  induction ha generalizing b with
  | nil =>
      cases hb
      exact ⟨[], [], rfl, rfl, rfl⟩
  | cons hv _ ih =>
      obtain _ | ⟨hw, hws⟩ := hb
      rw [List.forall_mem_cons] at hts ha0 hb0
      obtain ⟨p, q, hp, hq, hpq⟩ := sorts_value hts.1 hv hw ha0.1 hb0.1
      obtain ⟨ps, qs, hps, hqs, hpqs⟩ := ih hts.2 hws ha0.2 hb0.2
      refine ⟨p ++ ps, q ++ qs, ?_, ?_, hpq.append hpqs⟩
      · simp [encodeCompositeValuePrefix, hp, hps]
      · simp [encodeCompositeValuePrefix, hq, hqs]

theorem eq_of_tupleCmp (hts : ∀ t ∈ ts, t.Sortable) (ha : Typed ts a) (hb : Typed ts b)
    (h : tupleCmp a b = .eq) : a = b := by
  induction ha generalizing b with
  | nil =>
      cases hb
      rfl
  | cons hv _ ih =>
      obtain _ | ⟨hw, hws⟩ := hb
      rw [List.forall_mem_cons] at hts
      obtain ⟨hhead, htail⟩ := Ordering.then_eq_eq.mp h
      rw [eq_of_valueCmp hts.1 hv hw hhead, ih hts.2 hws htail]

theorem keysInOrder_of_zeroFree (hts : ∀ t ∈ ts, t.Sortable) (ha : Typed ts a) (hb : Typed ts b)
    (ha0 : ∀ v ∈ a, v.ZeroFree) (hb0 : ∀ v ∈ b, v.ZeroFree) : KeysInOrder ts a b := by
  intro ra rb ka kb hka hkb
  obtain ⟨p, q, hp, hq, hpq⟩ := sorts_tuple hts ha hb ha0 hb0
  simp only [encodeCompositeIndexKey, hp, hq, Option.pure_def, Option.bind_eq_bind,
    Option.bind_some, Option.some_inj] at hka hkb
  subst hka hkb
  refine ⟨(hpq.append (sorts_toBeBytes ra rb)).compare_eq, fun pa hpa hpre => ?_,
    fun pb hpb hpre => ?_⟩
  · obtain rfl : p = pa := Option.some.inj (hp.symm.trans hpa)
    exact eq_of_tupleCmp hts ha hb (hpq.eq_of_prefix hpre)
  · obtain rfl : q = pb := Option.some.inj (hq.symm.trans hpb)
    have hswap := hpq.swap.eq_of_prefix hpre
    apply eq_of_tupleCmp hts ha hb
    cases hcmp : tupleCmp a b <;> rw [hcmp] at hswap <;> first | rfl | cases hswap

end

/-! ## What writes accept -/

/-- An index of a table over columns of sortable types, `ts` in key order.  Every index
has columns, so the checks of a write have a leading column to look at. -/
structure SortableIndex (state : TableMeta) (idx : IndexMeta) (ts : List ColumnType) : Prop where
  mem : idx ∈ state.indexes
  types : List.Forall₂ (fun c t => state.firstType c = some t) idx.columns ts
  sortable : ∀ t ∈ ts, t.Sortable
  led : ∀ j ∈ state.indexes, j.columns ≠ []

/-- The values of a row in the columns are of their types, and a write of them passes the
checks of the indexes. -/
structure Accepted (state : TableMeta) (columns : List String) (ts : List ColumnType)
    (row : String → Value) : Prop where
  typed : Typed ts (columns.map row)
  checked : Session.enforceIndexTypes state (columns.map fun c => (c, row c)) = .ok ()

section

variable {state : TableMeta} {idx : IndexMeta} {columns : List String} {ts : List ColumnType}
  {row : String → Value} {c : String}

theorem find?_columns (row : String → Value) (hc : c ∈ columns) :
    (columns.map fun c => (c, row c)).find? (fun d => d.1 = c) = some (c, row c) := by
  induction columns with
  | nil => cases hc
  | cons d columns ih =>
      rw [List.map_cons, List.find?_cons]
      by_cases hdc : d = c
      · simp [hdc]
      · simp only [hdc, decide_false]
        exact ih ((List.mem_cons.mp hc).resolve_left (Ne.symm hdc))

theorem exists_type (h : List.Forall₂ (fun c t => state.firstType c = some t) columns ts)
    (hc : c ∈ columns) : ∃ t ∈ ts, state.firstType c = some t := by
  induction h with
  | nil => cases hc
  | cons hd _ ih =>
      rcases List.mem_cons.mp hc with rfl | hc
      · exact ⟨_, List.mem_cons_self, hd⟩
      · obtain ⟨t, ht, hct⟩ := ih hc
        exact ⟨t, List.mem_cons_of_mem _ ht, hct⟩

theorem ofType_of_typed {t : ColumnType}
    (h : List.Forall₂ (fun c t => state.firstType c = some t) columns ts)
    (hrow : Typed ts (columns.map row)) (hc : c ∈ columns) (ht : state.firstType c = some t) :
    (row c).OfType t := by
  induction h with
  | nil => cases hc
  | @cons d t' columns ts hd _ ih =>
      obtain _ | ⟨hv, hvs⟩ := hrow
      rcases List.mem_cons.mp hc with rfl | hc
      · obtain rfl : t' = t := Option.some.inj (hd.symm.trans ht)
        exact hv
      · exact ih hvs hc

theorem checkIndexed_eq_ok {t : ColumnType} {v : Value} (hv : v.OfType t) (hv0 : v.ZeroFree) :
    Session.checkIndexed c t v = .ok () := by
  unfold Session.checkIndexed
  rw [if_neg (not_not.mpr hv.1)]
  cases v with
  | real bits =>
      dsimp only
      rw [if_neg (by simp [hv.2 bits rfl])]
      rfl
  | text s =>
      dsimp only
      rw [if_neg (hv0 s rfl)]
      rfl
  | _ => rfl

/-- The checks pass when each leading column that is written has a value of its type
that is not a text with a zero byte. -/
theorem enforceIndexTypes_eq_ok (hled : ∀ j ∈ state.indexes, j.columns ≠ [])
    (hrow : ∀ j ∈ state.indexes, ∀ c ∈ j.columns.head?, c ∈ columns →
      (row c).ZeroFree ∧ ∃ t, state.firstType c = some t ∧ (row c).OfType t) :
    Session.enforceIndexTypes state (columns.map fun c => (c, row c)) = .ok () := by
  unfold Session.enforceIndexTypes
  rw [Except.forM_eq_ok_iff]
  intro j hj
  have hne := hled j hj
  have hcols := hrow j hj
  rcases hj' : j.columns with _ | ⟨lead, rest⟩
  · exact absurd hj' hne
  · rw [hj'] at hcols
    dsimp only
    by_cases hmem : lead ∈ columns
    · obtain ⟨hfree, t, ht, hv⟩ := hcols lead rfl hmem
      rw [find?_columns row hmem]
      dsimp only
      split
      · rfl
      · rw [ht]
        exact checkIndexed_eq_ok hv hfree
    · have hnone : (columns.map fun c => (c, row c)).find? (fun d => d.1 = lead) = none := by
        simp only [List.find?_eq_none, List.mem_map]
        rintro _ ⟨c, hc, rfl⟩ heq
        exact hmem (of_decide_eq_true heq ▸ hc)
      rw [hnone]
      rfl

/-- An accepted row has no zero byte in a text of a leading column. -/
theorem Accepted.zeroFree_lead {j : IndexMeta} (h : Accepted state columns ts row)
    (htypes : List.Forall₂ (fun c t => state.firstType c = some t) columns ts)
    (hj : j ∈ state.indexes) (hlead : j.columns.head? = some c) (hc : c ∈ columns) :
    (row c).ZeroFree := by
  have hchecked := h.checked
  unfold Session.enforceIndexTypes at hchecked
  rw [Except.forM_eq_ok_iff] at hchecked
  have hchecked := hchecked j hj
  obtain ⟨rest, hcols⟩ := List.head?_eq_some_iff.mp hlead
  rw [hcols] at hchecked
  dsimp only at hchecked
  rw [find?_columns row hc] at hchecked
  obtain ⟨t, -, ht⟩ := exists_type htypes hc
  intro s hs
  rw [hs, ht] at hchecked
  unfold Session.checkIndexed at hchecked
  dsimp only [Value.isNull] at hchecked
  intro hzero
  split at hchecked
  · rename_i hnull
    cases of_decide_eq_true hnull
  · split at hchecked
    · cases hchecked
    · cases hchecked

/-! ## A text column that leads no index -/

/-- A value of each sortable type whose code does not start with a zero byte. -/
def sample : Option ColumnType → Value
  | some .integer => .integer 0
  | some .real => .real 0
  | some .text => .text "a"
  | _ => .null

/-- Sample values, and a text in the column `c`. -/
def sampleRow (state : TableMeta) (c : String) (s : String) : String → Value :=
  Function.update (fun d => sample (state.firstType d)) c (.text s)

variable {t : ColumnType} {s : String}

theorem sample_ofType (ht : t.Sortable) :
    (sample (some t)).OfType t ∧ (sample (some t)).ZeroFree := by
  rcases ht with rfl | rfl | rfl
  · exact ⟨⟨rfl, nofun⟩, nofun⟩
  · refine ⟨⟨rfl, fun bits hbits => ?_⟩, nofun⟩
    cases hbits
    rfl
  · refine ⟨⟨rfl, nofun⟩, fun s hs => ?_⟩
    cases hs
    decide

theorem sample_code (ht : t.Sortable) :
    ∃ x p, encodeValuePrefix t (sample (some t)) = some (x :: p) ∧ 0 < x := by
  rcases ht with rfl | rfl | rfl
  · exact ⟨0x80, _, rfl, by decide⟩
  · exact ⟨0x80, _, rfl, by decide⟩
  · exact ⟨0x61, _, rfl, by decide⟩

theorem accepted_sampleRow (h : SortableIndex state idx ts) (hc : state.firstType c = some .text)
    (hlead : ∀ j ∈ state.indexes, j.columns.head? ≠ some c) :
    Accepted state idx.columns ts (sampleRow state c s) := by
  have hsample : ∀ d t, d ≠ c → state.firstType d = some t → t.Sortable →
      (sampleRow state c s d).OfType t ∧ (sampleRow state c s d).ZeroFree := by
    intro d t hdc hd ht
    rw [sampleRow, Function.update_of_ne hdc, hd]
    exact sample_ofType ht
  refine ⟨?_, enforceIndexTypes_eq_ok h.led fun j hj d hd hmem => ?_⟩
  · have htypes := h.types
    have hsortable := h.sortable
    clear h
    generalize idx.columns = columns at htypes
    induction htypes with
    | nil => exact .nil
    | @cons d t columns ts hd _ ih =>
        rw [List.forall_mem_cons] at hsortable
        refine .cons ?_ (ih hsortable.2)
        by_cases hdc : d = c
        · subst hdc
          rw [sampleRow, Function.update_self]
          obtain rfl : ColumnType.text = t := Option.some.inj (hc.symm.trans hd)
          exact ⟨rfl, nofun⟩
        · exact (hsample d t hdc hd hsortable.1).1
  · have hdc : d ≠ c := by
      rintro rfl
      exact hlead j hj hd
    obtain ⟨t, ht, hdt⟩ := exists_type h.types hmem
    have hd := hsample d t hdc hdt (h.sortable t ht)
    exact ⟨hd.2, t, hdt, hd.1⟩

theorem encode_cons {v : Value} {p ps : List UInt8} {pairs : List (ColumnType × Value)}
    (hp : encodeValuePrefix t v = some p) (hps : encodeCompositeValuePrefix pairs = some ps) :
    encodeCompositeValuePrefix ((t, v) :: pairs) = some (p ++ ps) := by
  simp [encodeCompositeValuePrefix, hp, hps]

/-- With the row id of all ones behind it the code of the row with the empty text is above
that of the row with a zero byte for the text, whatever zeros stand before the latter. -/
theorem zeros_lt (htypes : List.Forall₂ (fun c t => state.firstType c = some t) columns ts)
    (hts : ∀ t ∈ ts, t.Sortable) (hc : state.firstType c = some .text) :
    ∃ p q, encodeCompositeValuePrefix (ts.zip (columns.map (sampleRow state c ""))) = some p ∧
      encodeCompositeValuePrefix (ts.zip (columns.map (sampleRow state c "\x00"))) = some q ∧
      ∀ n u, List.replicate (n + 1) 0 ++ (q ++ u) < p ++ toBeBytes 0xFFFFFFFFFFFFFFFF := by
  induction htypes with
  | nil =>
      refine ⟨[], [], rfl, rfl, fun n u => ?_⟩
      exact List.cons_lt_cons_iff.mpr (.inl (by decide))
  | @cons d t columns ts hd _ ih =>
      rw [List.forall_mem_cons] at hts
      obtain ⟨p, q, hp, hq, hlt⟩ := ih hts.2
      rw [List.map_cons, List.map_cons, List.zip_cons_cons, List.zip_cons_cons]
      by_cases hdc : d = c
      · subst hdc
        obtain rfl : ColumnType.text = t := Option.some.inj (hc.symm.trans hd)
        rw [sampleRow, sampleRow, Function.update_self, Function.update_self]
        refine ⟨_, _, encode_cons rfl hp, encode_cons rfl hq, fun n u => ?_⟩
        -- one zero of the empty text against two of the other
        show 0 :: (List.replicate n 0 ++ (0 :: 0 :: (q ++ u))) < 0 :: (p ++ _)
        have hzeros : List.replicate n (0 : UInt8) ++ (0 :: 0 :: (q ++ u)) =
            List.replicate (n + 1 + 1) 0 ++ (q ++ u) := by
          rw [List.replicate_add n 2, List.append_assoc]
          rfl
        rw [hzeros]
        exact List.cons_lt_cons_iff.mpr (.inr ⟨rfl, hlt (n + 1) u⟩)
      · obtain ⟨x, r, hcode, hx⟩ := sample_code hts.1
        have hvalue (s : String) : encodeValuePrefix t (sampleRow state c s d) = some (x :: r) := by
          rw [sampleRow, Function.update_of_ne hdc, hd, hcode]
        refine ⟨_, _, encode_cons (hvalue "") hp, encode_cons (hvalue "\x00") hq, fun n u => ?_⟩
        exact List.cons_lt_cons_iff.mpr (.inl hx)

/-- A column that takes a text of one zero byte breaks the order. -/
theorem keys_out_of_order (htypes : List.Forall₂ (fun c t => state.firstType c = some t) columns ts)
    (hts : ∀ t ∈ ts, t.Sortable) (hc : state.firstType c = some .text) (hmem : c ∈ columns) :
    tupleCmp (columns.map (sampleRow state c "")) (columns.map (sampleRow state c "\x00")) = .lt ∧
    ∃ p q, encodeCompositeValuePrefix (ts.zip (columns.map (sampleRow state c ""))) = some p ∧
      encodeCompositeValuePrefix (ts.zip (columns.map (sampleRow state c "\x00"))) = some q ∧
      ∀ u, q ++ u < p ++ toBeBytes 0xFFFFFFFFFFFFFFFF := by
  induction htypes with
  | nil => cases hmem
  | @cons d t columns ts hd htypes ih =>
      rw [List.forall_mem_cons] at hts
      rw [List.map_cons, List.map_cons, List.zip_cons_cons, List.zip_cons_cons]
      by_cases hdc : d = c
      · subst hdc
        obtain rfl : ColumnType.text = t := Option.some.inj (hc.symm.trans hd)
        obtain ⟨p, q, hp, hq, hlt⟩ := zeros_lt htypes hts.2 hc
        rw [sampleRow, sampleRow, Function.update_self, Function.update_self]
        refine ⟨rfl, _, _, encode_cons rfl hp, encode_cons rfl hq, fun u => ?_⟩
        exact List.cons_lt_cons_iff.mpr (.inr ⟨rfl, hlt 0 u⟩)
      · obtain ⟨hcmp, p, q, hp, hq, hlt⟩ := ih hts.2 ((List.mem_cons.mp hmem).resolve_left (Ne.symm hdc))
        obtain ⟨x, r, hcode, -⟩ := sample_code hts.1
        have hvalue (s : String) : encodeValuePrefix t (sampleRow state c s d) = some (x :: r) := by
          rw [sampleRow, Function.update_of_ne hdc, hd, hcode]
        have hself : valueCmp (sampleRow state c "" d) (sampleRow state c "\x00" d) = .eq := by
          rw [sampleRow, sampleRow, Function.update_of_ne hdc, Function.update_of_ne hdc, hd]
          rcases hts.1 with rfl | rfl | rfl <;> decide
        refine ⟨?_, _, _, encode_cons (hvalue "") hp, encode_cons (hvalue "\x00") hq, fun u => ?_⟩
        · rw [tupleCmp, hself]
          exact hcmp
        · rw [List.append_assoc, List.append_assoc]
          exact List.append_left_lt (hlt u)

end

/-! ## The indexes whose keys are in order -/

section

variable {state : TableMeta} {idx : IndexMeta} {ts : List ColumnType}

/-- The keys of rows that writes accept are in order if no text after the leading column
has a zero byte, and they are in order for all rows that writes accept if and only if every
text column after the leading one leads an index as well. -/
theorem composite_keys_in_order (h : SortableIndex state idx ts) :
    (∀ a b, Accepted state idx.columns ts a → Accepted state idx.columns ts b →
      (∀ c ∈ idx.columns.tail, (a c).ZeroFree ∧ (b c).ZeroFree) →
      KeysInOrder ts (idx.columns.map a) (idx.columns.map b)) ∧
    ((∀ a b, Accepted state idx.columns ts a → Accepted state idx.columns ts b →
      KeysInOrder ts (idx.columns.map a) (idx.columns.map b)) ↔
      ∀ c ∈ idx.columns.tail, state.firstType c = some .text →
        ∃ j ∈ state.indexes, j.columns.head? = some c) := by
  have hpair : ∀ a b, Accepted state idx.columns ts a → Accepted state idx.columns ts b →
      (∀ c ∈ idx.columns.tail, (a c).ZeroFree ∧ (b c).ZeroFree) →
      KeysInOrder ts (idx.columns.map a) (idx.columns.map b) := by
    intro a b ha hb htail
    have hall : ∀ c ∈ idx.columns, (a c).ZeroFree ∧ (b c).ZeroFree := by
      obtain ⟨lead, rest, hcols⟩ := List.exists_cons_of_ne_nil (h.led idx h.mem)
      intro c hc
      rcases List.mem_cons.mp (hcols ▸ hc) with rfl | hrest
      · have hlead : idx.columns.head? = some c := by rw [hcols]; rfl
        exact ⟨ha.zeroFree_lead h.types h.mem hlead hc, hb.zeroFree_lead h.types h.mem hlead hc⟩
      · exact htail c (by rw [hcols]; exact hrest)
    refine keysInOrder_of_zeroFree h.sortable ha.typed hb.typed ?_ ?_
    · simpa only [List.forall_mem_map] using fun c hc => (hall c hc).1
    · simpa only [List.forall_mem_map] using fun c hc => (hall c hc).2
  refine ⟨hpair, fun hall c hc htext => ?_, fun hled a b ha hb => hpair a b ha hb fun c hc => ?_⟩
  · by_contra hlead
    have hlead : ∀ j ∈ state.indexes, j.columns.head? ≠ some c := by
      intro j hj hj'
      exact hlead ⟨j, hj, hj'⟩
    obtain ⟨hcmp, p, q, hp, hq, hlt⟩ :=
      keys_out_of_order h.types h.sortable htext (List.mem_of_mem_tail hc)
    have hkeys := (hall _ _ (accepted_sampleRow h htext hlead) (accepted_sampleRow h htext hlead)
      0xFFFFFFFFFFFFFFFF 0 _ _ (by rw [encodeCompositeIndexKey, hp]; rfl)
      (by rw [encodeCompositeIndexKey, hq]; rfl)).1
    rw [hcmp] at hkeys
    exact lt_asymm (ByteOrder.compare_eq_lt_iff.mp hkeys) (hlt _)
  · have hmem := List.mem_of_mem_tail hc
    have hfree : ∀ row, Accepted state idx.columns ts row → (row c).ZeroFree := by
      intro row hrow s hs
      obtain ⟨t, -, ht⟩ := exists_type h.types hmem
      have htype := (ofType_of_typed h.types hrow.typed hmem ht).1
      rw [hs] at htype
      obtain rfl : ColumnType.text = t := Option.some.inj htype
      obtain ⟨j, hj, hlead⟩ := hled c hc ht
      exact hrow.zeroFree_lead h.types hj hlead hmem s hs
    exact ⟨hfree a ha, hfree b hb⟩

/-! ## A table with such a column -/

/-- A table indexed by a number and a text. -/
def numberedNotes : TableMeta :=
  { TableMeta.new "notes" 1
      [⟨"n", .integer, true, false, none, false⟩, ⟨"note", .text, true, false, none, false⟩] 2 with
    indexes := [⟨"by_n_note", ["n", "note"], false, 3⟩] }

theorem sortableIndex_numberedNotes :
    SortableIndex numberedNotes ⟨"by_n_note", ["n", "note"], false, 3⟩ [.integer, .text] where
  mem := List.mem_singleton.mpr rfl
  types := .cons rfl (.cons rfl .nil)
  sortable := by
    unfold ColumnType.Sortable
    decide
  led := by decide

def noteRow (s : String) (c : String) : Value := if c = "n" then .integer 1 else .text s

theorem accepted_noteRow (s : String) :
    Accepted numberedNotes ["n", "note"] [.integer, .text] (noteRow s) :=
  ⟨.cons ⟨rfl, nofun⟩ (.cons ⟨rfl, nofun⟩ .nil), rfl⟩

/-- Notes without zero bytes have their keys in order. -/
theorem composite_keys_in_order_notes :
    KeysInOrder [.integer, .text] [.integer 1, .text "a"] [.integer 1, .text "b"] := by
  refine (composite_keys_in_order sortableIndex_numberedNotes).1 (noteRow "a") (noteRow "b")
    (accepted_noteRow _) (accepted_noteRow _) fun c hc => ?_
  obtain rfl := List.mem_singleton.mp hc
  refine ⟨fun s hs => ?_, fun s hs => ?_⟩
  · cases hs
    decide
  · cases hs
    decide

/-- The keys of every index over sortable columns are in order for all rows that writes
accept. -/
def CompositeKeysInOrder : Prop :=
  ∀ state idx ts, SortableIndex state idx ts → ∀ a b, Accepted state idx.columns ts a →
    Accepted state idx.columns ts b → KeysInOrder ts (idx.columns.map a) (idx.columns.map b)

/-- The key of `(1, "a\0")` starts with the code of `(1, "a")`. -/
theorem not_composite_keys_in_order : ¬ CompositeKeysInOrder := by
  intro h
  have hkeys := h numberedNotes _ _ sortableIndex_numberedNotes (noteRow "a") (noteRow "a\x00")
    (accepted_noteRow _) (accepted_noteRow _) 0 1 _ _ rfl rfl
  have heq := hkeys.2.1 _ rfl (by decide)
  exact absurd heq (by decide)

end

end BoogyDb

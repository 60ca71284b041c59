import BoogyDb.AcidSteps
import BoogyDb.CollectedRows
import BoogyDb.Lib.ByteOrder
import BoogyDb.Lib.StableSort
import Mathlib.Data.Int.ConditionallyCompleteOrder
import BoogyDb.RegistryStream

/-!
# The order in which rows are found

`find` sorts the rows once for each sort key, the last key first, with a comparator that
compares the cells of the key's column.  That comparator has two weak points:

* values of different types compare as equal, also when values of one of the types differ;
* an integer and a real are compared after the integer is rounded, so two integers can both
  be equal to a real and still differ.

`CellsComparable` excludes both, and is what the comparator needs to be transitive on a column
(`preorderOn_compareCells_iff`).  Then the sorts leave the rows in lexicographic order, with
ties in the order in which the rows were collected.
-/

namespace BoogyDb

open StableSort Wp

/-! ## Numbers -/

/-- The types that `Value::compare` tells apart: integers and reals are one. -/
inductive SortClass
  | number
  | text
  | boolean
  | blob
deriving DecidableEq

def Value.sortClass : Value → Option SortClass
  | .null => none
  | .integer _ => some .number
  | .real _ => some .number
  | .text _ => some .text
  | .boolean _ => some .boolean
  | .blob _ => some .blob

/-- The place of a number among the reals; NaN is behind all of them. -/
def numberPlace : Value → WithTop ℤ
  | .integer i => (Float64.orderKey (Float64.ofInt64 i) : ℤ)
  | .real bits => if Float64.isNaN bits then ⊤ else (Float64.orderKey bits : ℤ)
  | _ => ⊤

section

variable {a b c : Value} {i j : Int64} {x y : UInt64}

theorem compare_integers : (Value.integer i).compare (.integer j) = some (compare i.toInt j.toInt) :=
  rfl

theorem partialCmp_eq (hx : Float64.isNaN x = false) (hy : Float64.isNaN y = false) :
    Float64.partialCmp x y = some (compare (Float64.orderKey x) (Float64.orderKey y)) := by
  rw [Float64.partialCmp, hx, hy]
  rfl

/-- Comparing places of numbers that are not NaN. -/
theorem compare_coe (m n : ℤ) : compare (m : WithTop ℤ) (n : WithTop ℤ) = compare m n := by
  rcases lt_trichotomy m n with hlt | rfl | hgt
  · rw [compare_lt_iff_lt.mpr hlt, compare_lt_iff_lt.mpr (WithTop.coe_lt_coe.mpr hlt)]
  · rw [compare_eq_iff_eq.mpr rfl, compare_eq_iff_eq.mpr rfl]
  · rw [compare_gt_iff_gt.mpr hgt, compare_gt_iff_gt.mpr (WithTop.coe_lt_coe.mpr hgt)]

/-- A comparison with a real is one of places. -/
theorem compare_real_right (ha : a.sortClass = some .number) :
    a.compare (.real y) = some (compare (numberPlace a) (numberPlace (.real y))) := by
  have htop : ∀ n : ℤ, compare (n : WithTop ℤ) ⊤ = .lt := fun n =>
    compare_lt_iff_lt.mpr (WithTop.coe_lt_top n)
  have htop' : ∀ n : ℤ, compare (⊤ : WithTop ℤ) n = .gt := fun n =>
    compare_gt_iff_gt.mpr (WithTop.coe_lt_top n)
  cases a with
  | integer i =>
      rw [Value.compare, numberPlace, numberPlace]
      cases hy : Float64.isNaN y with
      | true => simp [htop]
      | false =>
          rw [if_neg (by simp), if_neg (by simp), partialCmp_eq (Float64.isNaN_ofInt64 i) hy,
            compare_coe]
  | real x =>
      rw [Value.compare, numberPlace, numberPlace]
      cases hx : Float64.isNaN x <;> cases hy : Float64.isNaN y
      · simp [partialCmp_eq hx hy, compare_coe]
      · simp [htop]
      · simp [htop']
      · simp
  | null | text | blob | boolean => cases ha

theorem compare_flip {α : Type} [LinearOrder α] (m n : α) : compare n m = (compare m n).swap := by
  rcases lt_trichotomy m n with hlt | rfl | hgt
  · rw [compare_lt_iff_lt.mpr hlt, compare_gt_iff_gt.mpr hlt]
    rfl
  · rw [compare_eq_iff_eq.mpr rfl]
    rfl
  · rw [compare_lt_iff_lt.mpr hgt, compare_gt_iff_gt.mpr hgt]
    rfl

/-- The comparison of a real with a number, the other way round. -/
theorem compare_real_left (hb : b.sortClass = some .number) :
    (Value.real x).compare b = some (compare (numberPlace (.real x)) (numberPlace b)) := by
  cases b with
  | real y => exact compare_real_right rfl
  | integer j =>
      have hval : (Value.real x).compare (.integer j) = if Float64.isNaN x then some .gt
          else Float64.partialCmp x (Float64.ofInt64 j) := rfl
      rw [hval, numberPlace, numberPlace]
      cases hx : Float64.isNaN x with
      | true => rw [if_pos rfl, if_pos rfl, compare_gt_iff_gt.mpr (WithTop.coe_lt_top _)]
      | false =>
          rw [if_neg (by simp), if_neg (by simp), partialCmp_eq hx (Float64.isNaN_ofInt64 j),
            compare_coe]
  | null | text | blob | boolean => cases hb

/-- Numbers of which one is a real are compared by their places. -/
theorem compare_numbers (ha : a.sortClass = some .number) (hb : b.sortClass = some .number)
    (hreal : ¬ ((∃ i, a = .integer i) ∧ ∃ j, b = .integer j)) :
    a.compare b = some (compare (numberPlace a) (numberPlace b)) := by
  cases a with
  | real x => exact compare_real_left hb
  | integer i =>
      cases b with
      | real y => exact compare_real_right ha
      | integer j => exact absurd ⟨⟨i, rfl⟩, j, rfl⟩ hreal
      | null | text | blob | boolean => cases hb
  | null | text | blob | boolean => cases ha

theorem compareBytes_flip (s t : List UInt8) : compare t s = (compare s t).swap := by
  rw [ByteOrder.compare_eq, ByteOrder.compare_eq]
  exact compare_flip s t

/-- **Values are compared the same way from both sides.** -/
theorem Value.compare_flip (a b : Value) : b.compare a = (a.compare b).map Ordering.swap := by
  have hnumbers : ∀ a b : Value, a.sortClass = some .number → b.sortClass = some .number →
      b.compare a = (a.compare b).map Ordering.swap := by
    intro a b ha hb
    by_cases hreal : (∃ i, a = .integer i) ∧ ∃ j, b = .integer j
    · obtain ⟨⟨i, rfl⟩, j, rfl⟩ := hreal
      rw [compare_integers, compare_integers, BoogyDb.compare_flip]
      rfl
    · rw [compare_numbers ha hb hreal, compare_numbers hb ha fun h => hreal ⟨h.2, h.1⟩,
        BoogyDb.compare_flip]
      rfl
  cases a <;> cases b <;> try rfl
  · exact congrArg some (compareBytes_flip _ _)
  · exact hnumbers _ _ rfl rfl
  · exact hnumbers _ _ rfl rfl
  · exact hnumbers _ _ rfl rfl
  · exact hnumbers _ _ rfl rfl
  · exact congrArg some (compareBytes_flip _ _)
  · rename_i p q
    cases p <;> cases q <;> rfl

end

/-! ## Cells -/

/-- What the cells of a sort column must satisfy for the comparator to be transitive. -/
structure CellsComparable (cells : List (Option Value)) : Prop where
  /-- Two values of one type compare as equal when there is a value of another type. -/
  alike : ∀ a b c k, some a ∈ cells → some b ∈ cells → some c ∈ cells → a.sortClass = some k →
    b.sortClass = some k → c.sortClass ≠ none → c.sortClass ≠ some k → a.compare b = some .eq
  /-- Two integers that are rounded to a real among the cells are the same. -/
  exact : ∀ i j x, some (.integer i) ∈ cells → some (.integer j) ∈ cells → some (.real x) ∈ cells →
    Float64.isNaN x = false → Float64.orderKey (Float64.ofInt64 i) = Float64.orderKey x →
    Float64.orderKey (Float64.ofInt64 j) = Float64.orderKey x → i = j

section

variable {a b c : Value} {k : SortClass} {x y z : Option Value} {cells : List (Option Value)}

theorem compareCells_flip (x y : Option Value) : compareCells y x = (compareCells x y).swap := by
  cases x with
  | none => cases y <;> rfl
  | some a =>
      cases y with
      | none => rfl
      | some b =>
          rw [compareCells, compareCells, Value.compare_flip a b]
          cases a.compare b <;> rfl

/-- Values of different types compare as equal. -/
theorem compareCells_of_ne (ha : a.sortClass ≠ none) (hb : b.sortClass ≠ none)
    (hne : a.sortClass ≠ b.sortClass) : compareCells (some a) (some b) = .eq := by
  rw [compareCells]
  cases a <;> cases b <;> first | rfl | exact absurd rfl ha | exact absurd rfl hb | exact absurd rfl hne

theorem compareCells_of_eq (h : a.compare b = some .eq) : compareCells (some a) (some b) = .eq := by
  rw [compareCells, h]
  rfl

theorem exists_text (h : a.sortClass = some .text) : ∃ s, a = .text s := by
  cases a <;> first | exact ⟨_, rfl⟩ | cases h

theorem exists_boolean (h : a.sortClass = some .boolean) : ∃ p, a = .boolean p := by
  cases a <;> first | exact ⟨_, rfl⟩ | cases h

theorem exists_blob (h : a.sortClass = some .blob) : ∃ s, a = .blob s := by
  cases a <;> first | exact ⟨_, rfl⟩ | cases h

/-- Values of one type can be compared. -/
theorem compare_of_class (ha : a.sortClass = some k) (hb : b.sortClass = some k) :
    a.compare b = some (compareCells (some a) (some b)) := by
  have hsome : ∃ ord, a.compare b = some ord := by
    cases k with
    | number =>
        by_cases hreal : (∃ i, a = .integer i) ∧ ∃ j, b = .integer j
        · obtain ⟨⟨i, rfl⟩, j, rfl⟩ := hreal
          exact ⟨_, rfl⟩
        · exact ⟨_, compare_numbers ha hb hreal⟩
    | text =>
        obtain ⟨s, rfl⟩ := exists_text ha
        obtain ⟨t, rfl⟩ := exists_text hb
        exact ⟨_, rfl⟩
    | boolean =>
        obtain ⟨p, rfl⟩ := exists_boolean ha
        obtain ⟨q, rfl⟩ := exists_boolean hb
        exact ⟨_, rfl⟩
    | blob =>
        obtain ⟨s, rfl⟩ := exists_blob ha
        obtain ⟨t, rfl⟩ := exists_blob hb
        exact ⟨_, rfl⟩
  obtain ⟨ord, hord⟩ := hsome
  rw [compareCells, hord]
  rfl

theorem compareBytes_trans {s t u : List UInt8} (hst : compare s t ≠ .gt) (htu : compare t u ≠ .gt) :
    compare s u ≠ .gt := by
  rw [ByteOrder.compare_eq] at hst htu ⊢
  exact compare_le_iff_le.mpr ((compare_le_iff_le.mp hst).trans (compare_le_iff_le.mp htu))

/-- **Values of one type are ordered**, numbers apart. -/
theorem le_trans_of_class (hk : k ≠ .number) (ha : a.sortClass = some k) (hb : b.sortClass = some k)
    (hc : c.sortClass = some k) (hab : compareCells (some a) (some b) ≠ .gt)
    (hbc : compareCells (some b) (some c) ≠ .gt) : compareCells (some a) (some c) ≠ .gt := by
  cases k with
  | number => exact absurd rfl hk
  | text =>
      obtain ⟨s, rfl⟩ := exists_text ha
      obtain ⟨t, rfl⟩ := exists_text hb
      obtain ⟨u, rfl⟩ := exists_text hc
      exact compareBytes_trans hab hbc
  | blob =>
      obtain ⟨s, rfl⟩ := exists_blob ha
      obtain ⟨t, rfl⟩ := exists_blob hb
      obtain ⟨u, rfl⟩ := exists_blob hc
      exact compareBytes_trans hab hbc
  | boolean =>
      obtain ⟨p, rfl⟩ := exists_boolean ha
      obtain ⟨q, rfl⟩ := exists_boolean hb
      obtain ⟨r, rfl⟩ := exists_boolean hc
      revert hab hbc
      cases p <;> cases q <;> cases r <;> decide

/-- Numbers in order have places in order. -/
theorem numberPlace_le (ha : a.sortClass = some .number) (hb : b.sortClass = some .number)
    (h : compareCells (some a) (some b) ≠ .gt) : numberPlace a ≤ numberPlace b := by
  by_cases hreal : (∃ i, a = .integer i) ∧ ∃ j, b = .integer j
  · obtain ⟨⟨i, rfl⟩, j, rfl⟩ := hreal
    exact WithTop.coe_le_coe.mpr (Float64.orderKey_ofInt64_mono (compare_le_iff_le.mp h))
  · rw [compareCells, compare_numbers ha hb hreal] at h
    exact compare_le_iff_le.mp h

/-- **Numbers are ordered**, unless two integers are rounded to a real between them. -/
theorem le_trans_of_numbers (hcells : CellsComparable cells) (hx : some a ∈ cells)
    (hy : some b ∈ cells) (hz : some c ∈ cells) (ha : a.sortClass = some .number)
    (hb : b.sortClass = some .number) (hc : c.sortClass = some .number)
    (hab : compareCells (some a) (some b) ≠ .gt) (hbc : compareCells (some b) (some c) ≠ .gt) :
    compareCells (some a) (some c) ≠ .gt := by
  have hplaces := (numberPlace_le ha hb hab).trans (numberPlace_le hb hc hbc)
  by_cases hreal : (∃ i, a = .integer i) ∧ ∃ j, c = .integer j
  · obtain ⟨⟨i, rfl⟩, j, rfl⟩ := hreal
    intro hgt
    have hlt : j.toInt < i.toInt := compare_gt_iff_gt.mp hgt
    cases b with
    | integer n =>
        have hin : i.toInt ≤ n.toInt := compare_le_iff_le.mp hab
        have hnj : n.toInt ≤ j.toInt := compare_le_iff_le.mp hbc
        omega
    | real y =>
        -- the integers are out of order, so both are at the place of the real
        have hiy := numberPlace_le ha hb hab
        have hyj := numberPlace_le hb hc hbc
        have hji : numberPlace (.integer j) ≤ numberPlace (.integer i) :=
          WithTop.coe_le_coe.mpr (Float64.orderKey_ofInt64_mono hlt.le)
        have hi : numberPlace (.integer i) = numberPlace (.real y) :=
          le_antisymm hiy (hyj.trans hji)
        have hj : numberPlace (.integer j) = numberPlace (.real y) :=
          le_antisymm (hji.trans hiy) hyj
        have hnan : Float64.isNaN y = false := by
          by_contra hnan
          rw [numberPlace, numberPlace, if_pos (by simpa using hnan)] at hi
          exact WithTop.coe_ne_top hi
        rw [numberPlace, numberPlace, if_neg (by rw [hnan]; simp), WithTop.coe_inj] at hi hj
        have hsame := hcells.exact i j y hx hz hy hnan hi hj
        rw [hsame] at hlt
        exact lt_irrefl _ hlt
    | null | text | blob | boolean => cases hb
  · rw [compareCells, compare_numbers ha hc hreal]
    exact compare_le_iff_le.mpr hplaces

/-- Values that are not `Null` are ordered. -/
theorem le_trans_of_values (hcells : CellsComparable cells) (hx : some a ∈ cells)
    (hy : some b ∈ cells) (hz : some c ∈ cells) (ha : a.sortClass ≠ none)
    (hb : b.sortClass ≠ none) (hc : c.sortClass ≠ none)
    (hab : compareCells (some a) (some b) ≠ .gt) (hbc : compareCells (some b) (some c) ≠ .gt) :
    compareCells (some a) (some c) ≠ .gt := by
  obtain ⟨k, hk⟩ := Option.ne_none_iff_exists'.mp ha
  by_cases hac : a.sortClass = c.sortClass
  · by_cases hbk : b.sortClass = some k
    · by_cases hnumber : k = .number
      · subst hnumber
        exact le_trans_of_numbers hcells hx hy hz hk hbk (hac ▸ hk) hab hbc
      · exact le_trans_of_class hnumber hk hbk (hac ▸ hk) hab hbc
    · -- a value of another type is between them, so they are alike
      rw [compareCells_of_eq (hcells.alike a c b k hx hz hy hk (hac ▸ hk) hb hbk)]
      decide
  · rw [compareCells_of_ne ha hc hac]
    decide

theorem sortClass_eq_none : a.sortClass = none ↔ a = .null := by
  cases a <;> simp [Value.sortClass]

/-- Comparing with `Null` from the left and from the right. -/
theorem compareCells_null_left (b : Value) : compareCells (some .null) (some b) ≠ .gt := by
  intro h
  cases b <;> cases h

theorem compareCells_null_right (ha : a.sortClass ≠ none) :
    compareCells (some a) (some .null) = .gt := by
  cases a <;> first | rfl | exact absurd rfl ha

theorem eq_of_le_of_le (hxy : compareCells x y ≠ .gt) (hyx : compareCells y x ≠ .gt) :
    compareCells x y = .eq := by
  rw [compareCells_flip x y] at hyx
  cases hord : compareCells x y with
  | eq => rfl
  | gt => exact absurd hord hxy
  | lt =>
      rw [hord] at hyx
      exact absurd rfl hyx

/-- **The comparator of a column is a total preorder** exactly when its cells are comparable. -/
theorem preorderOn_compareCells_iff : PreorderOn compareCells cells ↔ CellsComparable cells := by
  constructor
  · intro h
    constructor
    · intro a b c k ha hb hc hka hkb hnull hother
      have hac : compareCells (some a) (some c) = .eq :=
        compareCells_of_ne (by simp [hka]) hnull (by rw [hka]; exact hother.symm)
      have hcb : compareCells (some c) (some b) = .eq :=
        compareCells_of_ne hnull (by simp [hkb]) (by rw [hkb]; exact hother)
      have hca : compareCells (some c) (some a) = .eq := by rw [compareCells_flip, hac]; rfl
      have hbc : compareCells (some b) (some c) = .eq := by rw [compareCells_flip, hcb]; rfl
      have hab := h.trans _ ha _ hc _ hb (by simp [hac]) (by simp [hcb])
      have hba := h.trans _ hb _ hc _ ha (by simp [hbc]) (by simp [hca])
      rw [compare_of_class hka hkb, eq_of_le_of_le hab hba]
    · intro i j x hi hj hx hnan hix hjx
      have hplace : ∀ n : Int64, Float64.orderKey (Float64.ofInt64 n) = Float64.orderKey x →
          compareCells (some (.integer n)) (some (.real x)) = .eq := by
        intro n hn
        apply compareCells_of_eq
        rw [compare_numbers rfl rfl (by simp), numberPlace, numberPlace,
          if_neg (by rw [hnan]; simp), hn, compare_eq_iff_eq.mpr rfl]
      have hback : ∀ n : Int64, Float64.orderKey (Float64.ofInt64 n) = Float64.orderKey x →
          compareCells (some (.real x)) (some (.integer n)) = .eq := by
        intro n hn
        rw [compareCells_flip, hplace n hn]
        rfl
      have hij := h.trans _ hi _ hx _ hj (by simp [hplace i hix]) (by simp [hback j hjx])
      have hji := h.trans _ hj _ hx _ hi (by simp [hplace j hjx]) (by simp [hback i hix])
      exact Int64.toInt_inj.mp (compare_eq_iff_eq.mp (eq_of_le_of_le hij hji))
  · intro h
    refine ⟨fun x _ y _ => compareCells_flip x y, fun x hx y hy z hz hxy hyz => ?_⟩
    cases x with
    | none =>
        intro hgt
        cases z <;> cases hgt
    | some a =>
        cases y with
        | none => exact absurd rfl hxy
        | some b =>
            cases z with
            | none => exact absurd rfl hyz
            | some c =>
                by_cases ha : a.sortClass = none
                · rw [sortClass_eq_none.mp ha]
                  exact compareCells_null_left c
                by_cases hb : b.sortClass = none
                · rw [sortClass_eq_none.mp hb] at hxy
                  exact absurd (compareCells_null_right ha) hxy
                by_cases hc : c.sortClass = none
                · rw [sortClass_eq_none.mp hc] at hyz
                  exact absurd (compareCells_null_right hb) hyz
                exact le_trans_of_values h hx hy hz ha hb hc hxy hyz

end

/-! ## Rows -/

section

variable (colNames : List String) (colDefs : List ColumnDef)

/-- The cell of a row in the column of a sort key. -/
def rowCell (key : SortKey) (row : Row) : Option Value :=
  match row.get colNames colDefs key.column with
  | .ok cell => cell
  | .error _ => none

/-- The comparator that `find` gives to `sort_by`. -/
def compareRows (key : SortKey) (a b : Row) : Ordering :=
  key.dir.apply (compareCells (rowCell colNames colDefs key a) (rowCell colNames colDefs key b))

/-- The comparison by all sort keys, the first one first. -/
def compareKeys (keys : List SortKey) : Row → Row → Ordering :=
  lexicographic (keys.map (compareRows colNames colDefs))

variable {colNames colDefs} {key : SortKey} {keys : List SortKey} {rows sorted : List Row}

/-- A comparator stays a total preorder when the direction is reversed. -/
theorem preorderOn_compareRows_iff : PreorderOn (compareRows colNames colDefs key) rows ↔
    CellsComparable (rows.map (rowCell colNames colDefs key)) := by
  rw [← preorderOn_compareCells_iff, ← preorderOn_map_iff]
  unfold compareRows
  cases key.dir with
  | asc => exact Iff.rfl
  | desc => exact preorderOn_reverse_iff

/-- The cells of the rows, each with its row. -/
def rowCells (colNames : List String) (colDefs : List ColumnDef) (key : SortKey) (rows : List Row) :
    List (Option Value × Row) := rows.map fun row => (rowCell colNames colDefs key row, row)

/-- The cells are sorted as their rows are. -/
theorem sliceSortBy_rowCells (key : SortKey) (rows : List Row) :
    sliceSortBy (fun a b => key.dir.apply (compareCells a.1 b.1))
        (rowCells colNames colDefs key rows) =
      (sliceSortBy (compareRows colNames colDefs key) rows).map (rowCells colNames colDefs key) :=
  (map_sliceSortBy (f := fun row => (rowCell colNames colDefs key row, row))
    (fun a b => key.dir.apply (compareCells a.1 b.1)) rows).symm

theorem orUnspecified_eq_ok {α : Type} {x : Option α} {a : α} :
    orUnspecified x = .ok a ↔ x = some a := by
  cases x <;> simp [orUnspecified]

/-- One sort is that of a slice, when the cells can be read. -/
theorem sortByKey_eq (h : sortByKey colNames colDefs rows key = .ok sorted) :
    sliceSortBy (compareRows colNames colDefs key) rows = some sorted := by
  unfold sortByKey at h
  by_cases hfew : rows.length < 2
  · -- there is nothing to compare
    rw [if_pos hfew] at h
    rw [← Except.ok.inj h]
    match rows, hfew with
    | [], _ => rfl
    | [row], _ => rfl
  rw [if_neg hfew] at h
  obtain ⟨cells, hcells, hsorts⟩ := bind_eq_ok.mp h
  obtain ⟨sortedCells, hsortedCells, hsorted⟩ := bind_eq_ok.mp hsorts
  have hread : rowCells colNames colDefs key rows = cells := by
    rw [rowCells, ← List.forall₂_eq_eq_eq, List.forall₂_map_left_iff]
    refine (Except.mapM_eq_ok_iff.mp hcells).imp fun row cell hcell => ?_
    obtain ⟨v, hv, hpair⟩ := bind_eq_ok.mp hcell
    rw [← Except.ok.inj hpair, rowCell, hv]
  have hslice := orUnspecified_eq_ok.mp hsortedCells
  rw [← hread, sliceSortBy_rowCells] at hslice
  obtain ⟨sorted', hsorted', heq⟩ := Option.map_eq_some_iff.mp hslice
  rw [hsorted', ← Except.ok.inj hsorted, ← heq, rowCells, List.map_map]
  exact congrArg some (List.map_id _).symm

/-- One sort of rows whose cells can be read. -/
theorem exists_sortByKey (hcmp : PreorderOn (compareRows colNames colDefs key) rows)
    (hcells : ∀ row ∈ rows, ∃ cell, row.get colNames colDefs key.column = .ok cell) :
    ∃ sorted, sortByKey colNames colDefs rows key = .ok sorted := by
  unfold sortByKey
  by_cases hfew : rows.length < 2
  · rw [if_pos hfew]
    exact ⟨rows, rfl⟩
  rw [if_neg hfew]
  have hread : rows.mapM (fun row => do
      let v ← row.get colNames colDefs key.column
      pure (v, row)) = .ok (rowCells colNames colDefs key rows) := by
    rw [Except.mapM_eq_ok_iff, rowCells, List.forall₂_map_right_iff, List.forall₂_same]
    intro row hrow
    obtain ⟨cell, hcell⟩ := hcells row hrow
    rw [rowCell, hcell]
    rfl
  obtain ⟨sorted, hsorted⟩ := hcmp.exists_sliceSortBy
  rw [hread, ok_bind, sliceSortBy_rowCells, hsorted]
  exact ⟨_, rfl⟩

/-- The sorts, when the cells can be read. -/
theorem sortRows_eq (h : sortRows colNames colDefs keys rows = .ok sorted) :
    sortByAll (keys.map (compareRows colNames colDefs)) rows = some sorted := by
  induction keys generalizing sorted with
  | nil => exact congrArg some (Except.ok.inj h)
  | cons key keys ih =>
      rw [sortRows, List.reverse_cons, List.foldlM_append] at h
      obtain ⟨rest, hrest, hlast⟩ := bind_eq_ok.mp h
      obtain ⟨sorted', hkey, hnil⟩ := bind_eq_ok.mp hlast
      rw [← Except.ok.inj hnil]
      exact Option.bind_eq_some_iff.mpr ⟨rest, ih hrest, sortByKey_eq hkey⟩

/-- The sorts of rows whose cells can be read. -/
theorem exists_sortRows (hcmps : ∀ key ∈ keys, PreorderOn (compareRows colNames colDefs key) rows)
    (hcells : ∀ key ∈ keys, ∀ row ∈ rows,
      ∃ cell, row.get colNames colDefs key.column = .ok cell) :
    ∃ sorted, sortRows colNames colDefs keys rows = .ok sorted := by
  induction keys with
  | nil => exact ⟨rows, rfl⟩
  | cons key keys ih =>
      obtain ⟨hcmp, hcmps⟩ := List.forall_mem_cons.mp hcmps
      obtain ⟨hcell, hcells⟩ := List.forall_mem_cons.mp hcells
      obtain ⟨rest, hrest⟩ := ih hcmps hcells
      have hperm := sortByAll_perm (sortRows_eq hrest)
      obtain ⟨sorted, hsorted⟩ := exists_sortByKey (hcmp.perm hperm.symm)
        fun row hrow => hcell row (hperm.mem_iff.mp hrow)
      refine ⟨sorted, ?_⟩
      rw [sortRows] at hrest ⊢
      rw [List.reverse_cons, List.foldlM_append, hrest, ok_bind, List.foldlM_cons, hsorted]
      rfl

end

/-! ## What is returned -/

section

variable [Crc32Fast]

/-- What the two `find`s collect, with the columns of the table, and what they return. -/
inductive Returned (opts : FindOptions) :
    List String → List ColumnDef → List Row → List Row → Prop
  | find {file : PageFile} {state : TableMeta} {found : Collected} {result : FindResult}
      (hfound : collectMatching file state opts = .ok found)
      (hfind : find file state opts = .ok result) :
      Returned opts state.colNames state.colDefs found.rows result.rows
  | transaction {table : String} {s s₁ s₂ s₃ : InTransaction} {state : TableMeta} {all : RowList}
      {passing : List Row} {result : FindResult}
      (hstate : InTransaction.tableState table s = .ok state s₁)
      (hscan : InTransaction.scanAll table state s₁ = .ok all s₂)
      (hpassing : InTransaction.collectPassing (fun bytes =>
        rowPasses state.colNameToId state.colDefs bytes opts.filters opts.orGroups) opts.stopAfter
        all [] = .ok passing)
      (hfind : InTransaction.find table opts s = .ok result s₃) :
      Returned opts state.colNames state.colDefs passing result.rows

/-- The comparators are total preorders on the rows; the rows are sorted if their cells can be
read, and what is returned is a slice of the rows in lexicographic order, with ties in the order
of the row ids. -/
structure SortsRows (colNames : List String) (colDefs : List ColumnDef) (opts : FindOptions)
    (rows : List Row) : Prop where
  preorder : ∀ key ∈ opts.sort, PreorderOn (compareRows colNames colDefs key) rows
  sorts : (∀ key ∈ opts.sort, ∀ row ∈ rows,
      ∃ cell, row.get colNames colDefs key.column = .ok cell) →
    ∃ sorted, sortRows colNames colDefs opts.sort rows = .ok sorted
  ordered : ∀ result, Returned opts colNames colDefs rows result → ∃ sorted, sorted.Perm rows ∧
    sorted.Pairwise (fun a b => compareKeys colNames colDefs opts.sort a b ≠ .gt) ∧
    (rows.Pairwise (fun a b => a.id < b.id) → sorted.Pairwise fun a b =>
      compareKeys colNames colDefs opts.sort a b = .eq → a.id < b.id) ∧
    result <:+: sorted ∧ (opts.sort ≠ [] → result = (sorted.drop opts.skip).take opts.take)

variable {colNames : List String} {colDefs : List ColumnDef} {opts : FindOptions}
  {rows result sorted : List Row}

omit [Crc32Fast] in
/-- A page is a slice. -/
theorem page_within (opts : FindOptions) (rows : List Row) : opts.page rows <:+: rows :=
  (List.take_prefix _ _).isInfix.trans (List.drop_suffix _ _).isInfix

/-- **What is returned is a page of the sorted rows.** -/
theorem Returned.exists_sorted (h : Returned opts colNames colDefs rows result) :
    ∃ sorted, sortRows colNames colDefs opts.sort rows = .ok sorted ∧ result <:+: sorted ∧
      (opts.sort ≠ [] → result = (sorted.drop opts.skip).take opts.take) := by
  cases h with
  | find hfound hfind =>
      rw [BoogyDb.find, hfound, ok_bind] at hfind
      obtain ⟨sorted, hsorted, hresult⟩ := bind_eq_ok.mp hfind
      refine ⟨sorted, hsorted, ?_⟩
      rw [← Except.ok.inj hresult]
      dsimp only
      split
      · rename_i hnone
        refine ⟨List.infix_rfl, fun hsort => absurd ?_ hsort⟩
        exact List.isEmpty_iff.mp (Bool.and_eq_true_iff.mp hnone).1
      · exact ⟨page_within opts sorted, fun _ => rfl⟩
  | transaction hstate hscan hpassing hfind =>
      unfold InTransaction.find at hfind
      rw [run_bind_ok hstate, run_bind_ok hscan, run_bind_ok (lift_ok_iff.mpr ⟨hpassing, rfl⟩)]
        at hfind
      obtain ⟨sorted, s₄, hsorted, hresult⟩ := bind_ok_iff.mp hfind
      refine ⟨sorted, (lift_ok_iff.mp hsorted).1, ?_⟩
      cases hresult
      exact ⟨page_within opts sorted, fun _ => rfl⟩

omit [Crc32Fast] in
/-- The loop of a transaction's `find` keeps the order of the rows. -/
theorem collectPassing_ascending {passes : List UInt8 → Result Bool} {stopAfter : Option ℕ}
    {all : RowList} {acc passing : List Row} (hids : ∀ e ∈ all, extractId e.2 = .ok e.1)
    (hall : all.Pairwise fun a b => a.1 < b.1) (hacc : acc.Pairwise fun a b => a.id < b.id)
    (hbehind : ∀ row ∈ acc, ∀ e ∈ all, row.id < e.1)
    (hrun : InTransaction.collectPassing passes stopAfter all acc = .ok passing) :
    passing.Pairwise fun a b => a.id < b.id := by
  induction all generalizing acc with
  | nil =>
      cases hrun
      exact hacc
  | cons e all ih =>
      obtain ⟨hid, hids⟩ := List.forall_mem_cons.mp hids
      obtain ⟨hlt, hall⟩ := List.pairwise_cons.mp hall
      have hrest : ∀ row ∈ acc, ∀ e' ∈ all, row.id < e'.1 := fun row hrow e' he' =>
        hbehind row hrow e' (List.mem_cons_of_mem e he')
      unfold InTransaction.collectPassing at hrun
      split at hrun
      · cases hrun
        exact hacc
      · obtain ⟨pass, hpass, hrun⟩ := bind_eq_ok.mp hrun
        cases pass with
        | false => exact ih hids hall hacc hrest hrun
        | true =>
            rw [if_pos rfl, Row.fromRaw, hid] at hrun
            refine ih hids hall ?_ (fun row hrow e' he' => ?_) hrun
            · refine List.pairwise_append.mpr ⟨hacc, List.pairwise_singleton _ _, fun row hrow b hb => ?_⟩
              rw [List.mem_singleton.mp hb]
              exact hbehind row hrow e List.mem_cons_self
            · rcases List.mem_append.mp hrow with hrow | hrow
              · exact hrest row hrow e' he'
              · rw [List.mem_singleton.mp hrow]
                exact hlt e' he'

/-- The two `find`s collect the rows in the order of their ids: on the tree of a table, and in a
transaction that sees sound tables. -/
structure CollectsAscending (opts : FindOptions) : Prop where
  find {file : PageFile} {state : TableMeta} {found : Collected}
    {leaves : List (FencedTree.Leaf UInt64 StoredRow)} {branches : List ℕ}
    (htree : RowTree file state.rootPage leaves branches) (hclean : file.writeState = ⟨∅, 0⟩)
    (hfound : collectMatching file state opts = .ok found) :
    found.rows.Pairwise fun a b => a.id < b.id
  transaction {storable : UInt64 → List UInt8 → Prop} {keyed : Prop} {s s' : InTransaction}
    {Ms : String → TableModel} {table : String} {state : TableMeta} {all : RowList}
    {passing : List Row} (hstore : ∀ id row, storable id row → Storable id row)
    (hinv : TxInv storable keyed s Ms) (hname : s.db.tables.lookup table = some state)
    (hscan : InTransaction.scanAll table state s = .ok all s')
    (hpassing : InTransaction.collectPassing (fun bytes =>
      rowPasses state.colNameToId state.colDefs bytes opts.filters opts.orGroups) opts.stopAfter
      all [] = .ok passing) :
    passing.Pairwise fun a b => a.id < b.id

/-- **Rows are collected in the order of their ids.** -/
theorem collectsAscending (opts : FindOptions) : CollectsAscending opts where
  find htree hclean hfound := htree.collected_ascending hclean hfound
  transaction := by
    intro storable keyed s s' Ms table state all passing hstore hinv hname hscan hpassing
    obtain ⟨hok, P, hP, -⟩ := hinv.table hname
    cases hrows : BTreeWriter.scanAllW s.guard (s.tx.currentRoot table state) with
    | error e =>
        change InTransaction.withGuard _ s = _ at hscan
        unfold InTransaction.withGuard readOnly at hscan
        dsimp only at hscan
        rw [hrows] at hscan
        cases hscan
    | ok rows =>
        have hrun : InTransaction.scanAll table state s = .ok rows s :=
          withGuard_read hinv.clean
            (f := fun guard => BTreeWriter.scanAllW guard (s.tx.currentRoot table state)) hrows
        cases hrun.symm.trans hscan
        rw [currentRoot_eq] at hrows
        have hrep := scanAllW_guard hP hrows
        refine collectPassing_ascending (fun e he => ?_) hrep.increase List.Pairwise.nil nofun hpassing
        exact (hstore _ _ (hok.inv.stored _ _ ((hrep.mem_iff e.1 e.2).mp he))).id

/-- **The rows are sorted** exactly when the cells of every sort column are comparable; they were
collected in the order of their ids. -/
theorem find_sorts_iff (colNames : List String) (colDefs : List ColumnDef) (opts : FindOptions)
    (rows : List Row) : (SortsRows colNames colDefs opts rows ↔
      ∀ key ∈ opts.sort, CellsComparable (rows.map (rowCell colNames colDefs key))) ∧
      CollectsAscending opts := by
  refine ⟨?_, collectsAscending opts⟩
  constructor
  · intro h key hkey
    exact preorderOn_compareRows_iff.mp (h.preorder key hkey)
  · intro h
    have hpreorder : ∀ key ∈ opts.sort, PreorderOn (compareRows colNames colDefs key) rows :=
      fun key hkey => preorderOn_compareRows_iff.mpr (h key hkey)
    have hcmps : ∀ cmp ∈ opts.sort.map (compareRows colNames colDefs), PreorderOn cmp rows := by
      intro cmp hcmp
      obtain ⟨key, hkey, rfl⟩ := List.mem_map.mp hcmp
      exact hpreorder key hkey
    refine ⟨hpreorder, exists_sortRows hpreorder, fun result hresult => ?_⟩
    obtain ⟨sorted, hsorted, hslice, hpage⟩ := hresult.exists_sorted
    have hall := sortRows_eq hsorted
    refine ⟨sorted, sortByAll_perm hall, ?_, fun hids => ?_, hslice, hpage⟩
    · have htrue : rows.Pairwise fun _ _ => True := List.pairwise_of_forall fun _ _ => trivial
      refine (pairwise_sortByAll hall hcmps htrue).imp fun {a b} hab => ?_
      rcases hab with hlt | ⟨heq, -⟩
      · rw [compareKeys, hlt]
        decide
      · rw [compareKeys, heq]
        decide
    · refine (pairwise_sortByAll hall hcmps hids).imp fun {a b} hab heq => ?_
      rcases hab with hlt | ⟨-, hid⟩
      · rw [compareKeys, hlt] at heq
        cases heq
      · exact hid

end

/-! ### Two integers and a real -/

/-- A table with one column that has no index, so it can hold integers and reals. -/
def numberColumn : ColumnDef where
  name := "n"
  colType := .real
  nullable := true
  unique := false
  default := none
  dropped := false

/-- `2^53 + 1`, the real `2^53` and `2^53`. -/
def closeRows : List Row :=
  [⟨1, encodeRow 1 [(0, .integer 9007199254740993)]⟩,
    ⟨2, encodeRow 2 [(0, .real (Float64.ofInt64 9007199254740992))]⟩,
    ⟨3, encodeRow 3 [(0, .integer 9007199254740992)]⟩]

def byNumber : FindOptions where
  filters := []
  orGroups := []
  sort := [⟨"n", .asc⟩]
  limit := none
  offset := none
  includeTotal := false

/-- The first row is not behind the second, nor the second behind the third, but the first is
behind the third: the sort leaves the rows as they are. -/
theorem closeRows_not_sorted : letI := crc32Ieee
    ¬ SortsRows ["n"] [numberColumn] byNumber closeRows ∧
      sortRows ["n"] [numberColumn] byNumber.sort closeRows = .ok closeRows ∧
      ¬ closeRows.Pairwise fun a b => compareKeys ["n"] [numberColumn] byNumber.sort a b ≠ .gt := by
  let := crc32Ieee
  refine ⟨fun h => ?_, by decide +kernel, by decide +kernel⟩
  have hcells : closeRows.map (rowCell ["n"] [numberColumn] ⟨"n", .asc⟩) =
      [some (.integer 9007199254740993), some (.real (Float64.ofInt64 9007199254740992)),
        some (.integer 9007199254740992)] := by decide +kernel
  have hpreorder := preorderOn_compareRows_iff.mp (h.preorder ⟨"n", .asc⟩ List.mem_cons_self)
  rw [hcells] at hpreorder
  have hsame := hpreorder.exact 9007199254740993 9007199254740992
    (Float64.ofInt64 9007199254740992) (by simp) (by simp) (by simp)
    (Float64.isNaN_ofInt64 _) (by decide +kernel) rfl
  exact absurd hsame (by decide)

end BoogyDb

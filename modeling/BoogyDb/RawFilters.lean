import BoogyDb.FilterRows

/-!
# Filters on raw bytes, exactly

`eval_filter_raw_full` answers on the bytes of a column, or gives up.  Where it answers,
it can only be wrong about a text: `encode_value` writes the length of a text as a `u32`,
so that the field of a text of `2 ^ 32` bytes or more covers only its first
`length % 2 ^ 32` bytes (`coveredBytes`), and the raw comparison reads these as the text.

Two operators compare texts raw:

* `Eq` says of the covered bytes what it should say of the text (`raw_eq_agrees_iff`);
* `In` looks for the covered bytes up to the first candidate of another type
  (`raw_in_agrees_iff`).

`OverlooksCut` is what a filter must satisfy for such a text.
-/

namespace BoogyDb

open Bytes

/-! ## The candidates of an `In` -/

section

variable {same : Value → Option Bool} {values : List Value}

theorem evalCandidates_eq_true_iff :
    evalCandidates same values = some true ↔ ∃ before x after,
      values = before ++ x :: after ∧ same x = some true ∧ ∀ y ∈ before, same y = some false := by
  induction values with
  | nil => simp [evalCandidates]
  | cons v values ih =>
      constructor
      · intro h
        rw [evalCandidates] at h
        cases hv : same v with
        | none => simp [hv] at h
        | some b =>
            cases b with
            | true => exact ⟨[], v, values, rfl, hv, by simp⟩
            | false =>
                simp only [hv] at h
                obtain ⟨before, x, after, rfl, hx, hbefore⟩ := ih.mp h
                refine ⟨v :: before, x, after, rfl, hx, fun y hy => ?_⟩
                rcases List.mem_cons.mp hy with rfl | hy
                · exact hv
                · exact hbefore y hy
      · rintro ⟨before, x, after, heq, hx, hbefore⟩
        rw [evalCandidates]
        cases before with
        | nil =>
            obtain ⟨rfl, rfl⟩ := List.cons.inj heq
            simp [hx]
        | cons w before =>
            obtain ⟨rfl, rfl⟩ := List.cons.inj heq
            simp only [hbefore v (by simp)]
            apply ih.mpr
            exact ⟨before, x, after, rfl, hx, fun y hy => hbefore y (List.mem_cons_of_mem _ hy)⟩

theorem evalCandidates_eq_false_iff :
    evalCandidates same values = some false ↔ ∀ x ∈ values, same x = some false := by
  induction values with
  | nil => simp [evalCandidates]
  | cons v values ih =>
      rw [evalCandidates, List.forall_mem_cons]
      cases hv : same v with
      | none => simp
      | some b => cases b <;> simp [ih]

end

/-! ## A text whose length field does not hold its length -/

section

variable {s : String} {f : Filter}

/-- A candidate that is not the covered bytes of the text, but a text. -/
def OtherText (s : String) (v : Value) : Prop :=
  ∃ s', v = .text s' ∧ coveredBytes s ≠ asBytes s'

/-- What the filter must satisfy so that it says of the covered bytes of the text what it
says of the text.  Only `Eq` and `In` compare texts raw. -/
def OverlooksCut (f : Filter) (s : String) : Prop :=
  match f.op with
  | .eq => ∀ s', f.value = .text s' → s' ≠ s ∧ coveredBytes s ≠ asBytes s'
  | .isIn => ∀ values, f.inValues = some values →
      -- found before another type stops the loop: then the text is a candidate too
      (∀ before s' after, values = before ++ .text s' :: after → coveredBytes s = asBytes s' →
        (∀ v ∈ before, OtherText s v) → .text s ∈ values) ∧
      -- looked for to the end: then the text is none of the candidates
      ((∀ v ∈ values, OtherText s v) → .text s ∉ values)
  | _ => True

theorem sameText_eq_true_iff {v : Value} :
    sameText s v = some true ↔ ∃ s', v = .text s' ∧ coveredBytes s = asBytes s' := by
  cases v <;> simp [sameText]

theorem sameText_eq_false_iff {v : Value} : sameText s v = some false ↔ OtherText s v := by
  cases v <;> simp [sameText, OtherText]

/-- The text has other bytes than the ones its length field covers. -/
theorem coveredBytes_ne (hlong : 2 ^ 32 ≤ (asBytes s).length) : coveredBytes s ≠ asBytes s := by
  intro heq
  have hlen := congrArg List.length heq
  have hlt := Nat.mod_lt (asBytes s).length (by decide : 0 < 2 ^ 32)
  rw [length_coveredBytes] at hlen
  omega

theorem any_compare_text_iff {values : List Value} :
    (values.any fun x => (Value.text s).compare x == some .eq) = true ↔ .text s ∈ values := by
  rw [List.any_eq_true]
  constructor
  · rintro ⟨x, hx, hcmp⟩
    cases x with
    | text s' =>
        rw [compare_text, beq_iff_eq] at hcmp
        rw [asBytes_injective hcmp]
        exact hx
    | null | integer _ | real _ | blob _ | boolean _ => simp [Value.compare] at hcmp
  · intro hmem
    exact ⟨_, hmem, by rw [compare_text, beq_self_eq_true]⟩

/-- `Eq` of two texts on raw bytes. -/
theorem raw_eq_agrees_iff (hlong : 2 ^ 32 ≤ (asBytes s).length) (s' : String) :
    (coveredBytes s == asBytes s') = ((Value.text s).compare (.text s') == some .eq) ↔
      s' ≠ s ∧ coveredBytes s ≠ asBytes s' := by
  have hne := coveredBytes_ne hlong
  rw [compare_text]
  by_cases hs : s' = s
  · subst hs
    simp [hne]
  · have hbytes : asBytes s ≠ asBytes s' := fun h => hs (asBytes_injective h).symm
    simp [hs, hbytes]

/-- `In` on raw bytes, for a text. -/
theorem raw_in_agrees_iff {values : List Value} :
    (evalCandidates (sameText s) values = none ∨ evalCandidates (sameText s) values =
        some (values.any fun x => (Value.text s).compare x == some .eq)) ↔
      (∀ before s' after, values = before ++ .text s' :: after → coveredBytes s = asBytes s' →
        (∀ v ∈ before, OtherText s v) → .text s ∈ values) ∧
      ((∀ v ∈ values, OtherText s v) → .text s ∉ values) := by
  have hany := @any_compare_text_iff s values
  have htrue : evalCandidates (sameText s) values = some true ↔ ∃ before s' after,
      values = before ++ .text s' :: after ∧ coveredBytes s = asBytes s' ∧
        ∀ v ∈ before, OtherText s v := by
    rw [evalCandidates_eq_true_iff]
    simp only [sameText_eq_true_iff, sameText_eq_false_iff]
    constructor
    · rintro ⟨before, x, after, heq, ⟨s', hx, hbytes⟩, hbefore⟩
      exact ⟨before, s', after, hx ▸ heq, hbytes, hbefore⟩
    · rintro ⟨before, s', after, heq, hbytes, hbefore⟩
      exact ⟨before, _, after, heq, ⟨s', rfl, hbytes⟩, hbefore⟩
  have hfalse : evalCandidates (sameText s) values = some false ↔ ∀ v ∈ values, OtherText s v := by
    rw [evalCandidates_eq_false_iff]
    simp only [sameText_eq_false_iff]
  rw [← hfalse]
  cases hres : evalCandidates (sameText s) values with
  | none =>
      rw [hres] at htrue
      refine iff_of_true (Or.inl rfl) ⟨fun before s' after heq hbytes hbefore => ?_, by simp⟩
      simpa using htrue.mpr ⟨before, s', after, heq, hbytes, hbefore⟩
  | some b =>
      rw [hres] at htrue
      cases b with
      | true =>
          obtain ⟨before, s', after, heq, hbytes, hbefore⟩ := htrue.mp rfl
          rw [or_iff_right (by simp), Option.some_inj, eq_comm, hany]
          exact ⟨fun hmem => ⟨fun _ _ _ _ _ _ => hmem, by simp⟩,
            fun h => h.1 before s' after heq hbytes hbefore⟩
      | false =>
          rw [or_iff_right (by simp), Option.some_inj, eq_comm, Bool.eq_false_iff, ne_eq, hany]
          refine ⟨fun hmem => ⟨fun before s' after heq hbytes hbefore => ?_, fun _ => hmem⟩,
            fun h => h.2 rfl⟩
          simpa using htrue.mpr ⟨before, s', after, heq, hbytes, hbefore⟩

/-- The filter on a text that is too long for its length field. -/
theorem evalFilterRawFull_long (hlong : 2 ^ 32 ≤ (asBytes s).length) (f : Filter) :
    (evalFilterRawFull (encodeValue (.text s)) f = none ∨
      evalFilterRawFull (encodeValue (.text s)) f = some (f.matches (.text s))) ↔
      OverlooksCut f s := by
  unfold evalFilterRawFull Filter.matches OverlooksCut
  cases hop : f.op with
  | isIn =>
      simp only [if_true]
      cases hin : f.inValues with
      | none => simp
      | some values =>
          simp only [evalFilterRawIn_text, raw_in_agrees_iff, Option.some_inj, forall_eq']
  | eq =>
      rw [if_neg (by decide), if_neg (by decide)]
      by_cases htext : ∃ s', f.value = .text s'
      · obtain ⟨s', hs'⟩ := htext
        simp only [hs', evalFilterRaw_text_eq, Value.text.injEq, forall_eq',
          ← raw_eq_agrees_iff hlong]
        simp [evalFilterOp, FilterOp.holds, Value.compare]
      · push Not at htext
        rw [evalFilterRaw_text_none (by decide) (by decide) fun _ => htext]
        exact iff_of_true (Or.inl rfl) fun s' hs' => absurd hs' (htext s')
  | isNull | isNotNull => exact iff_of_true (Or.inr rfl) trivial
  | ne | lt | le | gt | ge =>
      refine iff_of_true (Or.inl ?_) trivial
      rw [if_neg (by decide)]
      exact evalFilterRaw_text_none (by decide) (by decide) (by simp)

end

/-! ## All values -/

/-- **A filter on raw bytes gives up or agrees with the filter on the value**, except on
texts that are too long for their length field and that the filter does not distinguish
from what the field covers. -/
theorem evalFilterRawFull_agrees_iff (v : Value) (f : Filter) :
    (evalFilterRawFull (encodeValue v) f = none ∨
      evalFilterRawFull (encodeValue v) f = some (f.matches v)) ↔
      ∀ s, v = .text s → 2 ^ 32 ≤ (asBytes s).length → OverlooksCut f s := by
  by_cases hlong : ∃ s, v = .text s ∧ 2 ^ 32 ≤ (asBytes s).length
  · obtain ⟨s, rfl, hlen⟩ := hlong
    rw [evalFilterRawFull_long hlen]
    exact ⟨fun h t ht _ => Value.text.inj ht ▸ h, fun h => h s rfl hlen⟩
  · push Not at hlong
    refine iff_of_true ?_ fun s hs hlen => absurd hlen (not_le.mpr (hlong s hs))
    cases hraw : evalFilterRawFull (encodeValue v) f with
    | none => exact Or.inl rfl
    | some r => exact Or.inr (congrArg some (evalFilterRawFull_encodeValue hlong hraw))

/-- A text of `2 ^ 32` bytes is stored with the length zero, and is not found by its own
value. -/
theorem raw_eq_misses_long_text :
    ¬ (evalFilterRawFull (encodeValue (.text (longText (2 ^ 32))))
          ⟨"body", .eq, .text (longText (2 ^ 32)), none⟩ = none ∨
        evalFilterRawFull (encodeValue (.text (longText (2 ^ 32))))
          ⟨"body", .eq, .text (longText (2 ^ 32)), none⟩ =
        some (Filter.matches ⟨"body", .eq, .text (longText (2 ^ 32)), none⟩
          (.text (longText (2 ^ 32))))) := by
  rw [evalFilterRawFull_long (length_longText _).ge]
  intro h
  exact (h _ rfl).1 rfl

end BoogyDb

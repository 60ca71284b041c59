import BoogyDb.Lib.Separator
import BoogyDb.VectorDb

/-!
# The names of the internal tables

The internal table of a collection is named after its table and the collection, with an
underscore between the two; underscores in the names themselves are not escaped.  The name is cut
again at the first underscore.

So a collection is found again under its own table when the name of the table has no underscore
(`parseVectorMappingTable_eq_some`), and its internal table is its own when the name of the
collection has none either, except as its last character (`mapping_names_iff`).
-/

namespace BoogyDb

open Separator

variable {table collection name : String}

/-- What the name of the internal table starts with. -/
def mappingStart : List Char := "__vec_".toList

theorem toList_vectorMappingTable (table collection : String) :
    (vectorMappingTable table collection).toList =
      mappingStart ++ (table.toList ++ '_' :: collection.toList) := by
  unfold vectorMappingTable mappingStart
  simp only [String.toList_append, List.append_assoc]
  rfl

/-- Two pairs have the same name when their names are joined to the same. -/
theorem vectorMappingTable_eq_iff {table' collection' : String} :
    vectorMappingTable table' collection' = vectorMappingTable table collection ↔
      table'.toList ++ '_' :: collection'.toList = table.toList ++ '_' :: collection.toList := by
  rw [← String.toList_inj, toList_vectorMappingTable, toList_vectorMappingTable,
    List.append_cancel_left_eq]

theorem toList_eq_nil {s : String} : s.toList = [] ↔ s = "" := by
  rw [← String.toList_inj]
  rfl

/-- A name that starts as it should is cut at the first underscore of the rest. -/
theorem parseVectorMappingTable_of_rest {rest : List Char} (h : name.toList = mappingStart ++ rest) :
    parseVectorMappingTable name =
      if '_' ∈ rest then
        if (rest.takeWhile (· ≠ '_')).isEmpty || (rest.dropWhile (· ≠ '_')).tail.isEmpty then none
        else some (String.ofList (rest.takeWhile (· ≠ '_')),
          String.ofList (rest.dropWhile (· ≠ '_')).tail)
      else none := by
  have hprefix : mappingStart.isPrefixOf name.toList = true :=
    List.isPrefixOf_iff_prefix.mpr ⟨rest, h.symm⟩
  have hdrop : name.toList.drop mappingStart.length = rest := by rw [h, List.drop_left]
  unfold parseVectorMappingTable
  refine (if_pos hprefix).trans ?_
  rw [← hdrop]
  rfl

/-- **A name is parsed to a pair that it is the name of**, and whose table has no underscore. -/
theorem parseVectorMappingTable_eq_some :
    parseVectorMappingTable name = some (table, collection) ↔
      name = vectorMappingTable table collection ∧ '_' ∉ table.toList ∧ table ≠ "" ∧
        collection ≠ "" := by
  constructor
  · intro h
    obtain ⟨rest, hrest⟩ : ∃ rest, name.toList = mappingStart ++ rest := by
      by_cases hprefix : mappingStart.isPrefixOf name.toList = true
      · obtain ⟨rest, hrest⟩ := List.isPrefixOf_iff_prefix.mp hprefix
        exact ⟨rest, hrest.symm⟩
      · have hnone : parseVectorMappingTable name = none := if_neg hprefix
        rw [hnone] at h
        cases h
    rw [parseVectorMappingTable_of_rest hrest] at h
    split at h
    swap
    · cases h
    rename_i hmem
    split at h
    · cases h
    rename_i hne
    rw [Bool.or_eq_true, not_or, List.isEmpty_iff, List.isEmpty_iff] at hne
    obtain ⟨rfl, rfl⟩ := Prod.mk.inj (Option.some.inj h)
    obtain ⟨s, t, rfl, hs⟩ := List.eq_append_cons_of_mem hmem
    rw [takeWhile_joined hs, dropWhile_joined hs, List.tail_cons] at hne ⊢
    refine ⟨?_, ?_, ?_, ?_⟩
    · rw [← String.toList_inj, toList_vectorMappingTable, hrest, String.toList_ofList,
        String.toList_ofList]
    · rwa [String.toList_ofList]
    · rw [Ne, ← toList_eq_nil, String.toList_ofList]
      exact hne.1
    · rw [Ne, ← toList_eq_nil, String.toList_ofList]
      exact hne.2
  · rintro ⟨rfl, hno, ht, hc⟩
    rw [parseVectorMappingTable_of_rest (toList_vectorMappingTable table collection),
      takeWhile_joined hno, dropWhile_joined hno, List.tail_cons,
      if_pos (List.mem_append_right _ List.mem_cons_self), if_neg, String.ofList_toList,
      String.ofList_toList]
    rw [Bool.or_eq_true, not_or, List.isEmpty_iff, List.isEmpty_iff, toList_eq_nil, toList_eq_nil]
    exact ⟨ht, hc⟩

/-! ## Reopening -/

section

variable [Crc32Fast]

/-- When the database is opened again, the collection is found under its table and its own name,
with the pairs of its internal table. -/
def FoundAgain (table collection : String) : Prop :=
  ∀ (db : Db) (openFile : String → String → Option (Result VectorCollection))
    (c : VectorCollection) (collections : AList fun _ : String × String => VectorCollection),
    vectorMappingTable table collection ∈ db.tables →
      openFile table collection = some (.ok c) →
        db.reopenVectorCollections openFile = .ok collections →
          ∃ pairs, db.mappings (vectorMappingTable table collection) = .ok pairs ∧
            collections.lookup (table, collection) = some (c.rebuildMappings pairs)

/-- **A collection whose name is parsed back is found again.** -/
theorem foundAgain_of_parse (h : parseVectorMappingTable (vectorMappingTable table collection) =
    some (table, collection)) : FoundAgain table collection := by
  intro db openFile c collections hmem hopen hrun
  unfold Db.reopenVectorCollections at hrun
  refine Except.foldlM_establishes (I := fun reopened : AList _ =>
    ∃ pairs, db.mappings (vectorMappingTable table collection) = .ok pairs ∧
      reopened.lookup (table, collection) = some (c.rebuildMappings pairs))
    ?_ ?_ (Or.inl hmem) hrun
  · -- the turn of its internal table puts the collection there
    intro before next hnext
    rw [h] at hnext
    dsimp only at hnext
    rw [hopen] at hnext
    cases hpairs : db.mappings (vectorMappingTable table collection) with
    | error e =>
        rw [hpairs] at hnext
        cases hnext
    | ok pairs =>
        rw [hpairs] at hnext
        cases hnext
        exact ⟨pairs, rfl, AList.lookup_insert _⟩
  · -- the other tables leave the collection alone
    rintro name before next hname hnext ⟨pairs, hpairs, hlookup⟩
    refine ⟨pairs, hpairs, ?_⟩
    rw [← hlookup]
    cases hparse : parseVectorMappingTable name with
    | none =>
        rw [hparse] at hnext
        cases hnext
        rfl
    | some pair =>
        obtain ⟨table', collection'⟩ := pair
        rw [hparse] at hnext
        dsimp only at hnext
        have hne : (table, collection) ≠ (table', collection') := by
          rintro ⟨rfl, rfl⟩
          exact hname (parseVectorMappingTable_eq_some.mp hparse).1
        cases hopened : openFile table' collection' with
        | none =>
            rw [hopened] at hnext
            cases hnext
            rfl
        | some opened =>
            rw [hopened] at hnext
            cases opened with
            | error e => cases hnext
            | ok c' =>
                cases hpairs' : db.mappings name with
                | error e =>
                    rw [hpairs'] at hnext
                    cases hnext
                | ok pairs' =>
                    rw [hpairs'] at hnext
                    cases hnext
                    exact AList.lookup_insert_ne hne

/-- The pair is read back from the name of its internal table, is found again, and has that name
alone. -/
structure NamedUnambiguously (table collection : String) : Prop where
  parse : parseVectorMappingTable (vectorMappingTable table collection) = some (table, collection)
  found : FoundAgain table collection
  unique : ∀ table' collection', table' ≠ "" → collection' ≠ "" →
    vectorMappingTable table' collection' = vectorMappingTable table collection →
      table' = table ∧ collection' = collection

/-- **The name of an internal table is unambiguous exactly when** the name of the table has no
underscore, and that of the collection none except as its last character. -/
theorem mapping_names_iff (htable : table ≠ "") (hcollection : collection ≠ "") :
    NamedUnambiguously table collection ↔
      '_' ∉ table.toList ∧ '_' ∉ collection.toList.dropLast := by
  have hunique := @joined_unique_iff _ '_' _ _ (mt toList_eq_nil.mp htable)
    (mt toList_eq_nil.mp hcollection)
  constructor
  · intro h
    refine ⟨(parseVectorMappingTable_eq_some.mp h.parse).2.1, (hunique.mp ?_).2⟩
    intro l r hl hr heq
    obtain ⟨ht, hc⟩ := h.unique (String.ofList l) (String.ofList r)
      (fun hnil => hl (by rw [← String.toList_ofList (l := l), hnil]; rfl))
      (fun hnil => hr (by rw [← String.toList_ofList (l := r), hnil]; rfl))
      (vectorMappingTable_eq_iff.mpr (by rw [String.toList_ofList, String.toList_ofList, heq]))
    rw [← ht, ← hc, String.toList_ofList, String.toList_ofList]
    exact ⟨rfl, rfl⟩
  · rintro ⟨hno, hlast⟩
    have hparse := parseVectorMappingTable_eq_some.mpr ⟨rfl, hno, htable, hcollection⟩
    refine ⟨hparse, foundAgain_of_parse hparse, fun table' collection' ht hc heq => ?_⟩
    obtain ⟨h₁, h₂⟩ := hunique.mpr ⟨fun hmem => hno (List.mem_of_mem_tail hmem), hlast⟩ _ _
      (mt toList_eq_nil.mp ht) (mt toList_eq_nil.mp hc) (vectorMappingTable_eq_iff.mp heq)
    exact ⟨String.toList_inj.mp h₁, String.toList_inj.mp h₂⟩

end

/-- An underscore at the end of the name of a collection does no harm, one in the name of a table
does. -/
theorem mapping_names_iff_docs : letI := crc32Ieee
    NamedUnambiguously "docs" "body_" ∧ ¬ NamedUnambiguously "my_docs" "body" := by
  let := crc32Ieee
  refine ⟨(mapping_names_iff (by decide) (by decide)).mpr ⟨by decide, by decide⟩, fun h => ?_⟩
  obtain ⟨hno, -⟩ := (mapping_names_iff (by decide) (by decide)).mp h
  exact hno (by decide)

/-- The collection `c` of `a_b` is taken for the collection `b_c` of `a`. -/
theorem not_named_unambiguously_always : letI := crc32Ieee
    ¬ ∀ table collection, table ≠ "" → collection ≠ "" → NamedUnambiguously table collection := by
  intro h
  obtain ⟨hparse, -, -⟩ := h "a_b" "c" (by decide) (by decide)
  have hother : parseVectorMappingTable (vectorMappingTable "a_b" "c") = some ("a", "b_c") := by
    decide
  rw [hother] at hparse
  exact absurd hparse (by decide)

end BoogyDb

import Mathlib.Data.List.AList

/-!
# Maps that keep the order of their keys

What is found in an association list after a value was replaced, and after pairs were put in one
after the other.
-/

namespace AList

variable {α β : Type} [DecidableEq α] {a a' : α} {b : β} {s : AList fun _ : α => β}

theorem dlookup_kreplace (l : List (Sigma fun _ : α => β)) :
    List.dlookup a' (List.kreplace a b l) =
      if a' = a then (List.dlookup a l).map fun _ => b else List.dlookup a' l := by
  induction l with
  | nil => simp [List.kreplace]
  | cons e l ih =>
      obtain ⟨k, v⟩ := e
      unfold List.kreplace at ih ⊢
      by_cases hk : a = k
      · subst hk
        rw [List.lookmap_cons, if_pos rfl]
        dsimp only
        by_cases ha : a' = a
        · subst ha
          rw [List.dlookup_cons_eq, List.dlookup_cons_eq, if_pos rfl]
          rfl
        · rw [if_neg ha, List.dlookup_cons_ne _ _ ha, List.dlookup_cons_ne _ _ ha]
      · rw [List.lookmap_cons, if_neg hk]
        dsimp only
        have hold : List.dlookup a (⟨k, v⟩ :: l) = List.dlookup a l := List.dlookup_cons_ne _ _ hk
        rw [hold]
        by_cases hk' : a' = k
        · subst hk'
          rw [List.dlookup_cons_eq, if_neg fun h => hk h.symm, List.dlookup_cons_eq]
        · have hskip : ∀ l' : List (Sigma fun _ : α => β),
              List.dlookup a' (⟨k, v⟩ :: l') = List.dlookup a' l' := fun l' =>
            List.dlookup_cons_ne _ _ hk'
          rw [hskip, hskip, ih]

/-- A replaced value is found under its key. -/
theorem lookup_replace (h : (s.lookup a).isSome) : (s.replace a b).lookup a = some b := by
  obtain ⟨v, hv⟩ := Option.isSome_iff_exists.mp h
  unfold lookup replace at *
  rw [dlookup_kreplace, if_pos rfl, hv]
  rfl

theorem lookup_replace_ne (h : a' ≠ a) : (s.replace a b).lookup a' = s.lookup a' := by
  unfold lookup replace
  rw [dlookup_kreplace, if_neg h]

theorem lookup_insert_eq_update : (s.insert a b).lookup = Function.update s.lookup a (some b) := by
  funext a'
  by_cases h : a' = a
  · subst h
    rw [lookup_insert, Function.update_self]
  · rw [lookup_insert_ne h, Function.update_of_ne h]

theorem lookup_erase_eq_update : (s.erase a).lookup = Function.update s.lookup a none := by
  funext a'
  by_cases h : a' = a
  · subst h
    rw [lookup_erase, Function.update_self]
  · rw [lookup_erase_ne h, Function.update_of_ne h]

/-- Pairs that are put in one after the other are found, when no two have the same key. -/
theorem lookup_foldl_insert {entries : List (α × β)} {m : α → Option β}
    (hmem : ∀ e ∈ entries, m e.1 = some e.2)
    (hs : ∀ a, (∃ b, (a, b) ∈ entries) ∨ s.lookup a = m a) :
    (entries.foldl (fun map e => map.insert e.1 e.2) s).lookup = m := by
  induction entries generalizing s with
  | nil => exact funext fun a => (hs a).resolve_left fun ⟨_, hnil⟩ => nomatch hnil
  | cons e entries ih =>
      rw [List.forall_mem_cons] at hmem
      refine ih hmem.2 fun a => ?_
      by_cases ha : a = e.1
      · subst ha
        exact Or.inr ((lookup_insert s).trans hmem.1.symm)
      · rw [lookup_insert_ne ha]
        refine (hs a).imp_left ?_
        rintro ⟨b, hb⟩
        rcases List.mem_cons.mp hb with rfl | hb
        · exact absurd rfl ha
        · exact ⟨b, hb⟩

/-- The pairs of a map are put into an empty one. -/
theorem lookup_foldl_insert_empty {entries : List (α × β)} {m : α → Option β}
    (h : ∀ a b, (a, b) ∈ entries ↔ m a = some b) :
    (entries.foldl (fun map e => map.insert e.1 e.2) (∅ : AList fun _ : α => β)).lookup = m := by
  refine lookup_foldl_insert (fun e he => (h e.1 e.2).mp he) fun a => ?_
  cases hm : m a with
  | none => exact Or.inr (lookup_empty a)
  | some b => exact Or.inl ⟨b, (h a b).mpr hm⟩

end AList

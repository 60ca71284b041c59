import Mathlib.Data.List.TakeWhile

/-!
# Two lists joined by a separator

`l ++ sep :: r` is cut again at the first separator: that gives `l` and `r` back when `l` has no
separator.  `joined_unique_iff` says when no other two lists, neither of them empty, are joined to
the same list.
-/

namespace Separator

variable {α : Type} [DecidableEq α] {sep : α} {l l' r r' : List α}

theorem takeWhile_joined (h : sep ∉ l) : (l ++ sep :: r).takeWhile (· ≠ sep) = l := by
  induction l with
  | nil => simp
  | cons a l ih =>
      rw [List.mem_cons, not_or] at h
      rw [List.cons_append, List.takeWhile_cons_of_pos (by simpa using Ne.symm h.1), ih h.2]

theorem dropWhile_joined (h : sep ∉ l) : (l ++ sep :: r).dropWhile (· ≠ sep) = sep :: r := by
  induction l with
  | nil => simp
  | cons a l ih =>
      rw [List.mem_cons, not_or] at h
      rw [List.cons_append, List.dropWhile_cons_of_pos (by simpa using Ne.symm h.1), ih h.2]

omit [DecidableEq α] in
/-- Lists that are joined to the same one: the longer left part reaches into the right part. -/
theorem joined_overlap (h : l ++ sep :: r = l' ++ sep :: r') :
    l = l' ∧ r = r' ∨ (∃ m, l' = l ++ sep :: m ∧ r = m ++ sep :: r') ∨
      ∃ m, l = l' ++ sep :: m ∧ r' = m ++ sep :: r := by
  rcases List.append_eq_append_iff.mp h with ⟨m, hl, hr⟩ | ⟨m, hl, hr⟩
  · cases m with
    | nil =>
        rw [List.append_nil] at hl
        rw [List.nil_append] at hr
        exact Or.inl ⟨hl.symm, (List.cons.inj hr).2⟩
    | cons a m =>
        rw [List.cons_append] at hr
        obtain ⟨rfl, hrest⟩ := List.cons.inj hr
        exact Or.inr (Or.inl ⟨m, hl, hrest⟩)
  · cases m with
    | nil =>
        rw [List.append_nil] at hl
        rw [List.nil_append] at hr
        exact Or.inl ⟨hl, (List.cons.inj hr).2.symm⟩
    | cons a m =>
        rw [List.cons_append] at hr
        obtain ⟨rfl, hrest⟩ := List.cons.inj hr
        exact Or.inr (Or.inr ⟨m, hl, hrest⟩)

omit [DecidableEq α] in
/-- **No other lists are joined to the same one** exactly when there is no separator inside: neither
behind the first element of the left list, nor before the last of the right one. -/
theorem joined_unique_iff (hl : l ≠ []) (hr : r ≠ []) :
    (∀ l' r', l' ≠ [] → r' ≠ [] → l' ++ sep :: r' = l ++ sep :: r → l' = l ∧ r' = r) ↔
      sep ∉ l.tail ∧ sep ∉ r.dropLast := by
  constructor
  · intro hunique
    refine ⟨fun hmem => ?_, fun hmem => ?_⟩
    · obtain ⟨a, l, rfl⟩ := List.exists_cons_of_ne_nil hl
      obtain ⟨s, t, rfl⟩ := List.append_of_mem hmem
      obtain ⟨heq, -⟩ := hunique (a :: s) (t ++ sep :: r) (List.cons_ne_nil _ _)
        (by simp) (by simp)
      simpa using congrArg List.length heq
    · obtain ⟨s, t, hst⟩ := List.append_of_mem hmem
      obtain ⟨a, hsplit⟩ : ∃ a, s ++ sep :: t ++ [a] = r :=
        ⟨r.getLast hr, by rw [← hst, List.dropLast_concat_getLast]⟩
      obtain ⟨heq, -⟩ := hunique (l ++ sep :: s) (t ++ [a]) (by simp) (by simp)
        (by rw [← hsplit]; simp)
      simpa using congrArg List.length heq
  · rintro ⟨htail, hlast⟩ l' r' hl' hr' heq
    rcases joined_overlap heq with h | ⟨m, rfl, rfl⟩ | ⟨m, rfl, rfl⟩
    · exact h
    · obtain ⟨a, l', rfl⟩ := List.exists_cons_of_ne_nil hl'
      refine absurd ?_ htail
      rw [List.cons_append, List.tail_cons]
      exact List.mem_append_right _ List.mem_cons_self
    · refine absurd ?_ hlast
      rw [List.dropLast_append_of_ne_nil (List.cons_ne_nil _ _), List.dropLast_cons_of_ne_nil hr']
      exact List.mem_append_right _ List.mem_cons_self

end Separator

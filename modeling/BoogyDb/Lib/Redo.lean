import Mathlib.Data.List.Basic
import Mathlib.Order.MinMax

/-!
# Redo logs

A file of cells is written cell by cell; a write past its end fills the gap.  A log
lists writes, and `redo` does them again, in order.

What a cell holds after a redo is its last image in the log, and what it held before if
the log has none (`getD_redo`).  So a redo may start over from whatever a part of it, or
any other writes to the same cells, left behind (`redo_redo`), and a redo of writes that
are there already changes nothing (`redo_eq_self`).
-/

namespace RedoLog

variable {α : Type} {fill a : α} {cells cells' : List α} {log vs : List (ℕ × α)} {i j : ℕ}

/-- Write one cell; a gap is filled. -/
def write (fill : α) (cells : List α) (w : ℕ × α) : List α :=
  (cells ++ List.replicate (w.1 + 1 - cells.length) fill).set w.1 w.2

def redo (fill : α) (cells : List α) (log : List (ℕ × α)) : List α := log.foldl (write fill) cells

/-- The last image that the log has of a cell. -/
def image : List (ℕ × α) → ℕ → Option α
  | [], _ => none
  | (j, a) :: log, i => (image log i).or (if j = i then some a else none)

/-- The length a file has to have for the writes of the log. -/
def extent : List (ℕ × α) → ℕ
  | [] => 0
  | (j, _) :: log => max (j + 1) (extent log)

/-! ## The last image -/

theorem image_append (log log' : List (ℕ × α)) (i : ℕ) :
    image (log ++ log') i = (image log' i).or (image log i) := by
  induction log with
  | nil => simp [image]
  | cons w log ih => simp only [List.cons_append, image, ih, Option.or_assoc]

theorem image_ne_none_iff : image log i ≠ none ↔ i ∈ log.map Prod.fst := by
  induction log with
  | nil => simp [image]
  | cons w log ih =>
      rw [List.map_cons, List.mem_cons, ← ih, image]
      cases image log i with
      | some b => simp
      | none => simp [eq_comm]

theorem image_eq_none_iff : image log i = none ↔ i ∉ log.map Prod.fst := by
  rw [← image_ne_none_iff, not_not]

theorem mem_of_image (h : image log i = some a) : (i, a) ∈ log := by
  induction log with
  | nil => cases h
  | cons w log ih =>
      rw [image] at h
      cases hrest : image log i with
      | some b =>
          rw [hrest] at h
          cases h
          exact List.mem_cons_of_mem _ (ih hrest)
      | none =>
          rw [hrest, Option.none_or] at h
          split at h
          · rename_i hj
            cases h
            subst hj
            exact List.mem_cons_self
          · cases h

theorem lt_extent (h : i ∈ log.map Prod.fst) : i < extent log := by
  induction log with
  | nil => cases h
  | cons w log ih =>
      rw [extent, lt_max_iff]
      rcases List.mem_cons.mp h with rfl | h
      · exact .inl (Nat.lt_succ_self _)
      · exact .inr (ih h)

@[simp] theorem length_write (fill : α) (cells : List α) (w : ℕ × α) :
    (write fill cells w).length = max cells.length (w.1 + 1) := by
  rw [write, List.length_set, List.length_append, List.length_replicate]
  omega

theorem getD_write (fill : α) (cells : List α) (w : ℕ × α) (i : ℕ) :
    (write fill cells w)[i]?.getD fill = if w.1 = i then w.2 else cells[i]?.getD fill := by
  have hlen : w.1 < (cells ++ List.replicate (w.1 + 1 - cells.length) fill).length := by
    rw [List.length_append, List.length_replicate]
    omega
  rw [write]
  split
  · rename_i hw
    rw [← hw, List.getElem?_set_self hlen]
    rfl
  · rename_i hw
    rw [List.getElem?_set_ne hw, List.getElem?_append]
    split
    · rfl
    · rename_i hge
      rw [List.getElem?_replicate, List.getElem?_eq_none (Nat.le_of_not_lt hge)]
      split <;> rfl

@[simp] theorem length_redo (fill : α) (cells : List α) (log : List (ℕ × α)) :
    (redo fill cells log).length = max cells.length (extent log) := by
  induction log generalizing cells with
  | nil => simp [redo, extent]
  | cons w log ih =>
      rw [redo, List.foldl_cons, ← redo, ih, length_write, extent, max_assoc]

theorem getD_redo (fill : α) (cells : List α) (log : List (ℕ × α)) (i : ℕ) :
    (redo fill cells log)[i]?.getD fill = (image log i).getD (cells[i]?.getD fill) := by
  induction log generalizing cells with
  | nil => rfl
  | cons w log ih =>
      rw [redo, List.foldl_cons, ← redo, ih, getD_write, image]
      cases image log i with
      | some b => rfl
      | none =>
          rw [Option.none_or, Option.getD_none]
          split <;> rfl

/-- The cell holds its last image. -/
theorem getElem?_redo_of_image (fill : α) (cells : List α) (h : image log i = some a) :
    (redo fill cells log)[i]? = some a := by
  have hlt : i < (redo fill cells log).length := by
    have hmem : i < extent log := lt_extent (image_ne_none_iff.mp (by rw [h]; simp))
    rw [length_redo]
    exact lt_max_of_lt_right hmem
  have hcell := getD_redo fill cells log i
  rw [h, Option.getD_some, List.getElem?_eq_getElem hlt, Option.getD_some] at hcell
  rw [List.getElem?_eq_getElem hlt, hcell]

/-- A cell that the log has no image of keeps what it held. -/
theorem getElem?_redo_of_none (fill : α) (h : image log i = none) (hi : i < cells.length) :
    (redo fill cells log)[i]? = cells[i]? := by
  have hlt : i < (redo fill cells log).length := by
    rw [length_redo]
    exact lt_max_of_lt_left hi
  have hcell := getD_redo fill cells log i
  rw [h, Option.getD_none, List.getElem?_eq_getElem hlt, List.getElem?_eq_getElem hi,
    Option.getD_some, Option.getD_some] at hcell
  rw [List.getElem?_eq_getElem hlt, List.getElem?_eq_getElem hi, hcell]

/-- Writing what is there already changes nothing. -/
theorem redo_eq_self (h : ∀ w ∈ log, cells[w.1]? = some w.2) : redo fill cells log = cells := by
  induction log with
  | nil => rfl
  | cons w log ih =>
      have hw := h w List.mem_cons_self
      have hlt : w.1 < cells.length := (List.getElem?_eq_some_iff.mp hw).1
      have hwrite : write fill cells w = cells := by
        have hnone : w.1 + 1 - cells.length = 0 := by omega
        rw [write, hnone, List.replicate_zero, List.append_nil]
        obtain ⟨_, hcell⟩ := List.getElem?_eq_some_iff.mp hw
        rw [← hcell, List.set_getElem_self]
      rw [redo, List.foldl_cons, hwrite]
      exact ih fun v hv => h v (List.mem_cons_of_mem _ hv)

end RedoLog

import BoogyDb.Lib.Bytes
import Mathlib.Data.List.Lex
import Mathlib.Order.Compare

/-!
# The order of byte strings

Byte strings in lexicographic order.  The strings that start with a given prefix
are an interval: they are not below the prefix, and what lies between two of them
starts with it too.

An encoding is self-delimiting when the order of two codes does not depend on what
follows them.  Numbers of one width and texts that end in a zero byte are such
codes, and such codes one after the other are again.
-/

namespace ByteOrder

open Bytes

variable {p a b c : List UInt8}

theorem cons_le_cons_iff {x y : UInt8} : x :: a ≤ y :: b ↔ x < y ∨ x = y ∧ a ≤ b := by
  rw [← not_lt, List.cons_lt_cons_iff]
  constructor
  · intro h
    rw [not_or, not_and, not_lt, not_lt] at h
    rcases lt_or_eq_of_le h.1 with hlt | heq
    · exact .inl hlt
    · exact .inr ⟨heq, h.2 heq.symm⟩
  · rintro (hlt | ⟨rfl, hle⟩) (hgt | ⟨heq, hlt'⟩)
    · exact lt_asymm hlt hgt
    · exact hlt.ne heq.symm
    · exact lt_irrefl _ hgt
    · exact not_lt.mpr hle hlt'

/-- The comparison of lists is that of the lexicographic order. -/
theorem compare_eq (a b : List UInt8) :
    compare a b = (LinearOrder.toOrd : Ord (List UInt8)).compare a b := by
  induction a generalizing b with
  | nil =>
      cases b with
      | nil => exact (compare_eq_iff_eq.mpr rfl).symm
      | cons y b => exact (compare_lt_iff_lt.mpr (List.nil_lt_cons y b)).symm
  | cons x a ih =>
      cases b with
      | nil => exact (compare_gt_iff_gt.mpr (List.nil_lt_cons x a)).symm
      | cons y b =>
          have hcons : compare (x :: a) (y :: b) = (compare x y).then (compare a b) :=
            List.compareLex_cons_cons
          rw [hcons, ih]
          rcases lt_trichotomy x y with hlt | rfl | hgt
          · rw [compare_lt_iff_lt.mpr hlt]
            exact (compare_lt_iff_lt.mpr (List.cons_lt_cons_iff.mpr (.inl hlt))).symm
          · rw [compare_eq_iff_eq.mpr rfl, Ordering.then]
            rcases lt_trichotomy a b with hab | rfl | hab
            · rw [compare_lt_iff_lt.mpr hab]
              exact (compare_lt_iff_lt.mpr (List.cons_lt_cons_iff.mpr (.inr ⟨rfl, hab⟩))).symm
            · rw [compare_eq_iff_eq.mpr rfl]
              exact (compare_eq_iff_eq.mpr rfl).symm
            · rw [compare_gt_iff_gt.mpr hab]
              exact (compare_gt_iff_gt.mpr (List.cons_lt_cons_iff.mpr (.inr ⟨rfl, hab⟩))).symm
          · rw [compare_gt_iff_gt.mpr hgt]
            exact (compare_gt_iff_gt.mpr (List.cons_lt_cons_iff.mpr (.inl hgt))).symm

theorem prefix_le (h : p <+: a) : p ≤ a := by
  induction p generalizing a with
  | nil => exact not_lt.mp (List.not_lt_nil a)
  | cons x p ih =>
      obtain ⟨t, rfl⟩ := h
      exact cons_le_cons_iff.mpr (.inr ⟨rfl, ih ⟨t, rfl⟩⟩)

theorem take_le (n : ℕ) (a : List UInt8) : a.take n ≤ a := prefix_le (List.take_prefix n a)

/-- What is between two strings with a prefix has the prefix. -/
theorem prefix_of_between (ha : p <+: a) (hc : p <+: c) (hab : a ≤ b) (hbc : b ≤ c) : p <+: b := by
  induction p generalizing a b c with
  | nil => exact List.nil_prefix
  | cons x p ih =>
      obtain ⟨a, rfl⟩ := ha
      obtain ⟨c, rfl⟩ := hc
      rw [List.cons_append] at hab hbc
      cases b with
      | nil => exact absurd hab (by simp)
      | cons y b =>
          rw [cons_le_cons_iff] at hab hbc
          have hxy : x = y := by
            rcases hab with hlt | ⟨rfl, -⟩
            · rcases hbc with hgt | ⟨rfl, -⟩
              · exact absurd hgt (lt_asymm hlt)
              · rfl
            · rfl
          subst hxy
          have hab := (hab.resolve_left (lt_irrefl x)).2
          have hbc := (hbc.resolve_left (lt_irrefl x)).2
          rw [List.prefix_cons_iff]
          exact .inr ⟨p, rfl, ih ⟨a, rfl⟩ ⟨c, rfl⟩ hab hbc⟩

theorem compare_eq_lt_iff : compare a b = .lt ↔ a < b := by
  rw [compare_eq]
  exact compare_lt_iff_lt

theorem compare_eq_eq_iff : compare a b = .eq ↔ a = b := by
  rw [compare_eq]
  exact compare_eq_iff_eq

theorem compare_eq_gt_iff : compare a b = .gt ↔ b < a := by
  rw [compare_eq]
  exact compare_gt_iff_gt

/-! ## Self-delimiting codes -/

/-- Whatever follows the two, `a` comes before `b`. -/
def SortsBefore (a b : List UInt8) : Prop := ∀ s t, a ++ s < b ++ t

namespace SortsBefore

theorem append (h : SortsBefore a b) (u v : List UInt8) : SortsBefore (a ++ u) (b ++ v) := by
  intro s t
  rw [List.append_assoc, List.append_assoc]
  exact h (u ++ s) (v ++ t)

theorem append_left (c : List UInt8) (h : SortsBefore a b) : SortsBefore (c ++ a) (c ++ b) := by
  intro s t
  rw [List.append_assoc, List.append_assoc]
  exact List.append_left_lt (h s t)

theorem cons_of_lt {x y : UInt8} (h : x < y) (a b : List UInt8) :
    SortsBefore (x :: a) (y :: b) := by
  intro s t
  exact List.cons_lt_cons_iff.mpr (.inl h)

theorem lt (h : SortsBefore a b) : a < b := by
  have hlt := h [] []
  rwa [List.append_nil, List.append_nil] at hlt

/-- No string starts with both. -/
theorem not_prefix_append (h : SortsBefore a b) (t : List UInt8) : ¬ a <+: b ++ t := by
  intro hpre
  obtain ⟨s, hs⟩ := hpre
  exact lt_irrefl _ (hs ▸ h s t)

theorem not_prefix_append' (h : SortsBefore a b) (s : List UInt8) : ¬ b <+: a ++ s := by
  intro hpre
  obtain ⟨t, ht⟩ := hpre
  exact lt_irrefl _ (ht ▸ h s t)

end SortsBefore

/-- Numbers of one width are in the order of their big-endian bytes. -/
theorem sortsBefore_beBytes {m n : ℕ} (width : ℕ) (hlt : m < n) (hn : n < 256 ^ width) :
    SortsBefore (beBytes width m) (beBytes width n) := by
  induction width generalizing m n with
  | zero => omega
  | succ width ih =>
      have hsplit (k : ℕ) :
          beBytes (width + 1) k = beBytes width (k / 256) ++ [UInt8.ofNat k] := by
        simp [beBytes, leBytes]
      have hwide : n / 256 < 256 ^ width := by
        apply Nat.div_lt_of_lt_mul
        rwa [← pow_succ']
      rw [hsplit, hsplit]
      rcases (Nat.div_le_div_right hlt.le : m / 256 ≤ n / 256).lt_or_eq with hhigh | hhigh
      · exact (ih hhigh hwide).append _ _
      · rw [hhigh]
        apply SortsBefore.append_left
        apply SortsBefore.cons_of_lt
        rw [UInt8.lt_iff_toNat_lt, UInt8.toNat_ofNat', UInt8.toNat_ofNat']
        omega

/-- Strings without a zero byte are in the order of their codes that end in one. -/
theorem sortsBefore_terminated (ha : 0 ∉ a) (hb : 0 ∉ b) (hlt : a < b) :
    SortsBefore (a ++ [0]) (b ++ [0]) := by
  induction a generalizing b with
  | nil =>
      cases b with
      | nil => exact absurd hlt (lt_irrefl _)
      | cons y b =>
          have hy : y ≠ 0 := fun h => hb (h ▸ List.mem_cons_self)
          exact SortsBefore.cons_of_lt (UInt8.pos_iff_ne_zero.mpr hy) [] _
  | cons x a ih =>
      cases b with
      | nil => exact absurd hlt (List.not_lt_nil _)
      | cons y b =>
          rw [List.mem_cons, not_or] at ha hb
          rcases List.cons_lt_cons_iff.mp hlt with hxy | htail
          · exact SortsBefore.cons_of_lt hxy _ _
          · rw [htail.1]
            exact (ih ha.2 hb.2 htail.2).append_left [y]

/-- The order of two codes is `o`, whatever follows them. -/
def Sorts : Ordering → List UInt8 → List UInt8 → Prop
  | .lt, a, b => SortsBefore a b
  | .eq, a, b => a = b
  | .gt, a, b => SortsBefore b a

namespace Sorts

variable {o o' : Ordering} {a' b' : List UInt8}

/-- Codes one after the other are compared by the first that differ. -/
theorem append (h : Sorts o a b) (h' : Sorts o' a' b') :
    Sorts (o.then o') (a ++ a') (b ++ b') := by
  cases o with
  | lt => exact SortsBefore.append h _ _
  | gt => exact SortsBefore.append h _ _
  | eq =>
      obtain rfl : a = b := h
      cases o' with
      | lt => exact SortsBefore.append_left a h'
      | gt => exact SortsBefore.append_left a h'
      | eq => exact congrArg (a ++ ·) (h' : a' = b')

theorem compare_eq (h : Sorts o a b) : compare a b = o := by
  cases o with
  | lt => exact compare_eq_lt_iff.mpr (SortsBefore.lt h)
  | eq => exact compare_eq_eq_iff.mpr h
  | gt => exact compare_eq_gt_iff.mpr (SortsBefore.lt h)

/-- Only an equal code begins what another begins. -/
theorem eq_of_prefix (h : Sorts o a b) {t : List UInt8} (hpre : a <+: b ++ t) : o = .eq := by
  cases o with
  | lt => exact absurd hpre (SortsBefore.not_prefix_append h t)
  | eq => rfl
  | gt => exact absurd hpre (SortsBefore.not_prefix_append' h t)

theorem swap (h : Sorts o a b) : Sorts o.swap b a := by
  cases o with
  | lt => exact h
  | eq => exact Eq.symm h
  | gt => exact h

end Sorts

theorem sorts_beBytes {m n : ℕ} (width : ℕ) (hm : m < 256 ^ width) (hn : n < 256 ^ width) :
    Sorts (compare m n) (beBytes width m) (beBytes width n) := by
  rcases lt_trichotomy m n with hlt | rfl | hgt
  · rw [compare_lt_iff_lt.mpr hlt]
    exact sortsBefore_beBytes width hlt hn
  · rw [compare_eq_iff_eq.mpr rfl]
    exact rfl
  · rw [compare_gt_iff_gt.mpr hgt]
    exact sortsBefore_beBytes width hgt hm

theorem sorts_terminated (ha : 0 ∉ a) (hb : 0 ∉ b) :
    Sorts (compare a b) (a ++ [0]) (b ++ [0]) := by
  rcases lt_trichotomy a b with hlt | rfl | hgt
  · rw [compare_eq_lt_iff.mpr hlt]
    exact sortsBefore_terminated ha hb hlt
  · rw [compare_eq_eq_iff.mpr rfl]
    exact rfl
  · rw [compare_eq_gt_iff.mpr hgt]
    exact sortsBefore_terminated hb ha hgt

end ByteOrder

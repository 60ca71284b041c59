import Mathlib.Data.List.Basic
import Mathlib.Order.Defs.LinearOrder
import Mathlib.Tactic.Linarith
import Mathlib.Tactic.Ring

/-!
# Byte strings: little-endian fields, windows and overwriting

Fixed-width fields are written with `leBytes` and read back with `leNat`; the
width is the only thing that is ever lost, so `leNat_leBytes` reads a field back
modulo `256 ^ width`.

`slice` is the window `[start, stop)` of a byte string and `blit` overwrites a
window in place without changing the length.  Layouts are written as
concatenations, so the rules for `blit` are the ones that push it into the part
of a concatenation it falls in (`blit_append_left`, `blit_append_right`) and
resolve it there (`blit_replicate`, `blit_self_length`).
-/

instance instLinearOrderUInt8 : LinearOrder UInt8 where
  le_refl := UInt8.le_refl
  le_trans _ _ _ := UInt8.le_trans
  lt_iff_le_not_ge a b := by
    rw [UInt8.lt_iff_toNat_lt, UInt8.le_iff_toNat_le, UInt8.le_iff_toNat_le]
    omega
  le_antisymm _ _ := UInt8.le_antisymm
  le_total := UInt8.le_total
  toDecidableLE := inferInstance
  toDecidableLT := inferInstance
  toDecidableEq := inferInstance
  min_def _ _ := rfl
  max_def _ _ := rfl
  compare_eq_compareOfLessAndEq _ _ := rfl

instance instLinearOrderUInt16 : LinearOrder UInt16 where
  le_refl := UInt16.le_refl
  le_trans _ _ _ := UInt16.le_trans
  lt_iff_le_not_ge a b := by
    rw [UInt16.lt_iff_toNat_lt, UInt16.le_iff_toNat_le, UInt16.le_iff_toNat_le]
    omega
  le_antisymm _ _ := UInt16.le_antisymm
  le_total := UInt16.le_total
  toDecidableLE := inferInstance
  toDecidableLT := inferInstance
  toDecidableEq := inferInstance
  min_def _ _ := rfl
  max_def _ _ := rfl
  compare_eq_compareOfLessAndEq _ _ := rfl

instance instLinearOrderUInt64 : LinearOrder UInt64 where
  le_refl := UInt64.le_refl
  le_trans _ _ _ := UInt64.le_trans
  lt_iff_le_not_ge a b := by
    rw [UInt64.lt_iff_toNat_lt, UInt64.le_iff_toNat_le, UInt64.le_iff_toNat_le]
    omega
  le_antisymm _ _ := UInt64.le_antisymm
  le_total := UInt64.le_total
  toDecidableLE := inferInstance
  toDecidableLT := inferInstance
  toDecidableEq := inferInstance
  min_def _ _ := rfl
  max_def _ _ := rfl
  compare_eq_compareOfLessAndEq _ _ := rfl

namespace Bytes

/-! ## Fixed-width fields -/

/-- The `width` low bytes of `n`, least significant first. -/
def leBytes : ℕ → ℕ → List UInt8
  | 0, _ => []
  | width + 1, n => UInt8.ofNat n :: leBytes width (n / 256)

/-- The number a byte string spells, least significant byte first. -/
def leNat : List UInt8 → ℕ
  | [] => 0
  | b :: bs => b.toNat + 256 * leNat bs

/-- The `width` low bytes of `n`, most significant first. -/
def beBytes (width n : ℕ) : List UInt8 := (leBytes width n).reverse

/-- The number a byte string spells, most significant byte first. -/
def beNat (bs : List UInt8) : ℕ := leNat bs.reverse

@[simp] theorem length_leBytes (width n : ℕ) : (leBytes width n).length = width := by
  induction width generalizing n with
  | zero => rfl
  | succ width ih => simp [leBytes, ih]

@[simp] theorem length_beBytes (width n : ℕ) : (beBytes width n).length = width := by
  simp [beBytes]

theorem leNat_leBytes (width n : ℕ) : leNat (leBytes width n) = n % 256 ^ width := by
  induction width generalizing n with
  | zero => simp [leBytes, leNat, Nat.mod_one]
  | succ width ih =>
      have hbyte : (UInt8.ofNat n).toNat = n % 256 := UInt8.toNat_ofNat'
      have hpow : 256 ^ (width + 1) = 256 * 256 ^ width := by ring
      rw [leBytes, leNat, ih, hbyte, hpow, Nat.mod_mul]

theorem leNat_leBytes_of_lt {width n : ℕ} (h : n < 256 ^ width) :
    leNat (leBytes width n) = n := by
  rw [leNat_leBytes, Nat.mod_eq_of_lt h]

theorem leNat_lt (bs : List UInt8) : leNat bs < 256 ^ bs.length := by
  induction bs with
  | nil => simp [leNat]
  | cons b bs ih =>
      have hb : b.toNat < 256 := b.toNat_lt
      rw [leNat, List.length_cons, pow_succ]
      omega

theorem leBytes_leNat (bs : List UInt8) : leBytes bs.length (leNat bs) = bs := by
  induction bs with
  | nil => rfl
  | cons b bs ih =>
      have hb : b.toNat < 256 := b.toNat_lt
      have hdiv : (b.toNat + 256 * leNat bs) / 256 = leNat bs := by omega
      rw [List.length_cons, leNat, leBytes, hdiv, ih]
      congr 1
      apply UInt8.toNat_inj.mp
      rw [UInt8.toNat_ofNat']
      omega

/-- What does not fit in the bytes is not spelled. -/
theorem leBytes_mod (width n : ℕ) : leBytes width (n % 256 ^ width) = leBytes width n := by
  have h := leBytes_leNat (leBytes width n)
  rwa [length_leBytes, leNat_leBytes] at h

theorem beNat_beBytes_of_lt {width n : ℕ} (h : n < 256 ^ width) :
    beNat (beBytes width n) = n := by
  rw [beNat, beBytes, List.reverse_reverse, leNat_leBytes_of_lt h]

/-! ## Windows -/

/-- The bytes of `bs` at positions `start ≤ i < stop`. -/
def slice (bs : List UInt8) (start stop : ℕ) : List UInt8 := (bs.drop start).take (stop - start)

theorem length_slice {bs : List UInt8} {start stop : ℕ} (hstop : stop ≤ bs.length) :
    (slice bs start stop).length = stop - start := by
  simp only [slice, List.length_take, List.length_drop]
  omega

theorem slice_append_left {as : List UInt8} (bs : List UInt8) {start stop : ℕ}
    (h : stop ≤ as.length) : slice (as ++ bs) start stop = slice as start stop := by
  rcases Nat.lt_or_ge start as.length with hs | hs
  · rw [slice, slice, List.drop_append_of_le_length hs.le, List.take_append_of_le_length]
    rw [List.length_drop]
    omega
  · have : stop - start = 0 := by omega
    simp [slice, this]

theorem slice_append_right {as : List UInt8} (bs : List UInt8) {start stop : ℕ}
    (h : as.length ≤ start) :
    slice (as ++ bs) start stop = slice bs (start - as.length) (stop - as.length) := by
  rw [slice, slice, List.drop_append, List.drop_eq_nil_of_le h, List.nil_append]
  congr 1
  omega

@[simp] theorem slice_zero_length (bs : List UInt8) : slice bs 0 bs.length = bs := by
  simp [slice]

theorem slice_to_end (bs : List UInt8) (start : ℕ) : slice bs start bs.length = bs.drop start := by
  rw [slice, List.take_of_length_le]
  rw [List.length_drop]

/-- Two windows side by side. -/
theorem slice_append_slice {bs : List UInt8} {start mid stop : ℕ} (h : start ≤ mid)
    (h' : mid ≤ stop) : slice bs start mid ++ slice bs mid stop = slice bs start stop := by
  have hlen : stop - start = (mid - start) + (stop - mid) := by omega
  have hdrop : start + (mid - start) = mid := by omega
  rw [slice, slice, slice, hlen, List.take_add, List.drop_drop, hdrop]

theorem slice_append_self (as bs cs : List UInt8) :
    slice (as ++ (bs ++ cs)) as.length (as.length + bs.length) = bs := by
  rw [slice_append_right _ le_rfl, Nat.sub_self, Nat.add_sub_cancel_left,
    slice_append_left _ le_rfl, slice_zero_length]

/-- A window of a window. -/
theorem slice_slice (bs : List UInt8) (start : ℕ) {stop a b : ℕ} (h : start + b ≤ stop) :
    slice (slice bs start stop) a b = slice bs (start + a) (start + b) := by
  rw [slice, slice, slice, List.drop_take, List.take_take, List.drop_drop]
  congr 1
  omega

/-- A byte of a window. -/
theorem getD_slice (bs : List UInt8) {start stop k : ℕ} (h : start + k < stop) :
    (slice bs start stop).getD k 0 = bs.getD (start + k) 0 := by
  have hk : k < stop - start := by omega
  rw [slice, List.getD_eq_getElem?_getD, List.getElem?_take_of_lt hk, List.getElem?_drop,
    List.getD_eq_getElem?_getD]

/-- A window found by the lengths of what stands before and after it. -/
theorem slice_eq_of_append {bs as mid cs : List UInt8} {start stop : ℕ}
    (hbs : bs = as ++ (mid ++ cs)) (hstart : start = as.length)
    (hstop : stop = as.length + mid.length) : slice bs start stop = mid := by
  rw [hbs, hstart, hstop, slice_append_self]

/-! ## Overwriting a window -/

/-- `bs` with `src` written over the bytes from `off` on; what would stand past
the end is dropped. -/
def blit (bs : List UInt8) (off : ℕ) (src : List UInt8) : List UInt8 :=
  bs.take off ++ src.take (bs.length - off) ++ bs.drop (off + src.length)

@[simp] theorem length_blit (bs : List UInt8) (off : ℕ) (src : List UInt8) :
    (blit bs off src).length = bs.length := by
  simp only [blit, List.length_append, List.length_take, List.length_drop]
  omega

theorem blit_append_left {as : List UInt8} (bs : List UInt8) {off : ℕ} {src : List UInt8}
    (h : off + src.length ≤ as.length) : blit (as ++ bs) off src = blit as off src ++ bs := by
  have htake : src.take ((as ++ bs).length - off) = src := by
    apply List.take_of_length_le
    rw [List.length_append]
    omega
  have htake' : src.take (as.length - off) = src := List.take_of_length_le (by omega)
  rw [blit, blit, htake, htake', List.take_append_of_le_length (by omega),
    List.drop_append_of_le_length h]
  simp only [List.append_assoc]

theorem blit_append_right {as : List UInt8} (bs : List UInt8) {off : ℕ} {src : List UInt8}
    (h : as.length ≤ off) : blit (as ++ bs) off src = as ++ blit bs (off - as.length) src := by
  have hlen : (as ++ bs).length - off = bs.length - (off - as.length) := by
    rw [List.length_append]
    omega
  have hdrop : off + src.length - as.length = off - as.length + src.length := by omega
  rw [blit, blit, hlen, List.take_append, List.take_of_length_le h, List.drop_append,
    List.drop_eq_nil_of_le (by omega), List.nil_append, hdrop]
  simp only [List.append_assoc]

theorem blit_replicate {n : ℕ} (b : UInt8) {src : List UInt8} (h : src.length ≤ n) :
    blit (List.replicate n b) 0 src = src ++ List.replicate (n - src.length) b := by
  simp only [blit, List.take_zero, List.nil_append, List.length_replicate, Nat.sub_zero,
    Nat.zero_add, List.drop_replicate, List.take_of_length_le h]

theorem blit_self_length {bs src : List UInt8} (h : src.length = bs.length) :
    blit bs 0 src = src := by
  simp [blit, ← h]

/-- Overwriting a part of a concatenation by something of the same length. -/
theorem blit_append_self (as : List UInt8) {bs : List UInt8} (cs : List UInt8)
    {src : List UInt8} (h : src.length = bs.length) :
    blit (as ++ (bs ++ cs)) as.length src = as ++ (src ++ cs) := by
  rw [blit_append_right _ le_rfl, Nat.sub_self, blit_append_left _ (by omega),
    blit_self_length h]

theorem slice_blit_self {bs src : List UInt8} {off : ℕ} (h : off + src.length ≤ bs.length) :
    slice (blit bs off src) off (off + src.length) = src := by
  have htake : src.take (bs.length - off) = src := List.take_of_length_le (by omega)
  have hlen : (bs.take off).length = off := by
    rw [List.length_take]
    omega
  have hsplit : blit bs off src = bs.take off ++ (src ++ bs.drop (off + src.length)) := by
    rw [blit, htake, List.append_assoc]
  exact slice_eq_of_append hsplit hlen.symm (by rw [hlen])

/-- Overwriting leaves every window that ends before it as it was. -/
theorem slice_blit_before {bs src : List UInt8} {off start stop : ℕ} (h : stop ≤ off)
    (hoff : off ≤ bs.length) : slice (blit bs off src) start stop = slice bs start stop := by
  have hlen : stop ≤ (bs.take off).length := by
    rw [List.length_take]
    omega
  rw [blit, List.append_assoc, slice_append_left _ hlen]
  conv_rhs => rw [← List.take_append_drop off bs]
  rw [slice_append_left _ hlen]

/-- Overwriting leaves every window that starts after it as it was. -/
theorem slice_blit_after {bs src : List UInt8} {off start stop : ℕ}
    (h : off + src.length ≤ start) (hoff : off + src.length ≤ bs.length) :
    slice (blit bs off src) start stop = slice bs start stop := by
  have htake : src.take (bs.length - off) = src := List.take_of_length_le (by omega)
  have hlen : (bs.take off ++ src).length = off + src.length := by
    rw [List.length_append, List.length_take]
    omega
  rw [blit, htake, slice_append_right _ (by omega), hlen]
  conv_rhs => rw [← List.take_append_drop (off + src.length) bs]
  rw [slice_append_right _ (by rw [List.length_take]; omega), List.length_take,
    Nat.min_eq_left hoff]

/-! ## Chunks -/

/-- `bs` cut into pieces of `n` bytes; the last one may be shorter. -/
def chunks (n : ℕ) (bs : List UInt8) : List (List UInt8) :=
  if bs = [] ∨ n = 0 then [] else bs.take n :: chunks n (bs.drop n)
termination_by bs.length
decreasing_by
  rw [List.length_drop]
  have := List.length_pos_iff.mpr (fun h : bs = [] => by simp_all)
  omega

theorem flatten_chunks {n : ℕ} (hn : n ≠ 0) (bs : List UInt8) : (chunks n bs).flatten = bs := by
  fun_induction chunks n bs with
  | case1 bs h => simp [h.resolve_right hn]
  | case2 bs h ih => rw [List.flatten_cons, ih, List.take_append_drop]

theorem length_of_mem_chunks {n : ℕ} {bs chunk : List UInt8} (h : chunk ∈ chunks n bs) :
    chunk.length ≤ n ∧ chunk ≠ [] := by
  fun_induction chunks n bs with
  | case1 bs hbs => simp at h
  | case2 bs hbs ih =>
      rcases List.mem_cons.mp h with rfl | h
      · exact ⟨List.length_take_le _ _, by simpa [not_or, and_comm] using hbs⟩
      · exact ih h

theorem length_chunks_le {n : ℕ} (bs : List UInt8) : (chunks n bs).length ≤ bs.length / n + 1 := by
  fun_induction chunks n bs with
  | case1 bs h => simp
  | case2 bs h ih =>
      rw [not_or] at h
      rw [List.length_drop] at ih
      rw [List.length_cons]
      rcases Nat.lt_or_ge bs.length n with hlt | hge
      · rw [List.drop_eq_nil_of_le hlt.le, chunks, if_pos (Or.inl rfl)]
        simp
      · have hdiv : bs.length / n = (bs.length - n) / n + 1 :=
          Nat.div_eq_sub_div (Nat.pos_of_ne_zero h.2) hge
        omega

/-! ## Filling up with zeros -/

/-- `bs` filled up with zero bytes to `n` bytes; what stands past them is dropped. -/
def pad (n : ℕ) (bs : List UInt8) : List UInt8 := bs.take n ++ List.replicate (n - bs.length) 0

@[simp] theorem length_pad (n : ℕ) (bs : List UInt8) : (pad n bs).length = n := by
  simp only [pad, List.length_append, List.length_take, List.length_replicate]
  omega

theorem pad_of_le {n : ℕ} {bs : List UInt8} (h : bs.length ≤ n) :
    pad n bs = bs ++ List.replicate (n - bs.length) 0 := by
  rw [pad, List.take_of_length_le h]

theorem getD_pad {n j : ℕ} (bs : List UInt8) (h : j < n) : (pad n bs).getD j 0 = bs.getD j 0 := by
  rw [pad, List.getD_eq_getElem?_getD, List.getD_eq_getElem?_getD]
  rcases Nat.lt_or_ge j bs.length with hlt | hge
  · rw [List.getElem?_append_left (by rw [List.length_take]; omega), List.getElem?_take_of_lt h]
  · have htake : (bs.take n).length = bs.length := by
      rw [List.length_take]
      omega
    rw [List.getElem?_append_right (by omega), htake, List.getElem?_replicate,
      List.getElem?_eq_none hge]
    split <;> rfl

/-- What is cut off is filled up with zeros. -/
theorem pad_take {m n : ℕ} (bs : List UInt8) (h : m ≤ n) :
    pad n (bs.take m) = (pad n bs).take m ++ List.replicate (n - m) 0 := by
  rw [pad, pad, List.take_take, Nat.min_eq_right h, List.length_take, List.take_append,
    List.take_take, Nat.min_eq_left h, List.take_replicate, List.length_take, List.append_assoc,
    List.replicate_append_replicate]
  congr 2
  omega

theorem pad_nil (n : ℕ) : pad n [] = List.replicate n 0 := by
  rw [pad, List.take_nil, List.nil_append, List.length_nil, Nat.sub_zero]

theorem pad_replicate {m n : ℕ} (h : m ≤ n) : pad n (List.replicate m 0) = pad n [] := by
  rw [pad_of_le (by rwa [List.length_replicate]), List.length_replicate, pad_nil,
    List.replicate_append_replicate, Nat.add_sub_cancel' h]

/-- Writing at the end of what is there extends it. -/
theorem blit_pad_end {n : ℕ} {bs src : List UInt8} (h : bs.length + src.length ≤ n) :
    blit (pad n bs) bs.length src = pad n (bs ++ src) := by
  have hlen : (bs ++ src).length ≤ n := by
    rw [List.length_append]
    exact h
  rw [pad_of_le (by omega), pad_of_le hlen, blit_append_right _ le_rfl, Nat.sub_self,
    blit_replicate _ (by omega), List.append_assoc, List.length_append]
  congr 3
  omega

/-- Writing over a part of what is there replaces the part. -/
theorem blit_pad_middle {n : ℕ} {as bs cs src : List UInt8} (hsrc : src.length = bs.length)
    (h : (as ++ (bs ++ cs)).length ≤ n) :
    blit (pad n (as ++ (bs ++ cs))) as.length src = pad n (as ++ (src ++ cs)) := by
  have hlen : (as ++ (src ++ cs)).length = (as ++ (bs ++ cs)).length := by
    simp only [List.length_append, hsrc]
  rw [pad_of_le h, pad_of_le (hlen ▸ h), hlen, List.append_assoc, List.append_assoc,
    blit_append_self as _ hsrc, List.append_assoc, List.append_assoc]

theorem slice_pad {n : ℕ} {bs : List UInt8} {start stop : ℕ} (hn : bs.length ≤ n)
    (h : stop ≤ bs.length) : slice (pad n bs) start stop = slice bs start stop := by
  rw [pad_of_le hn, slice_append_left _ h]

/-- A window of what is not cut off. -/
theorem slice_pad_of_le {n : ℕ} {bs : List UInt8} {start stop : ℕ} (hn : stop ≤ n)
    (h : stop ≤ bs.length) : slice (pad n bs) start stop = slice bs start stop := by
  have hlen : stop ≤ (bs.take n).length := by
    rw [List.length_take]
    omega
  rw [pad, slice_append_left _ hlen, slice, slice, List.drop_take, List.take_take]
  congr 1
  omega

/-! ## Bytes as numbers in place -/

/-- The little-endian number in the `width` bytes from `off` on. -/
def readLe (bs : List UInt8) (off width : ℕ) : ℕ := leNat (slice bs off (off + width))

theorem readLe_lt (bs : List UInt8) (off width : ℕ) : readLe bs off width < 256 ^ width := by
  refine (leNat_lt _).trans_le (Nat.pow_le_pow_right (by omega) ?_)
  simp only [slice, List.length_take, List.length_drop]
  omega

/-- A field found by what stands before it. -/
theorem readLe_append {bs as cs : List UInt8} {off width n : ℕ}
    (hbs : bs = as ++ (leBytes width n ++ cs)) (hoff : off = as.length) :
    readLe bs off width = n % 256 ^ width := by
  rw [readLe, slice_eq_of_append hbs hoff (by rw [length_leBytes, hoff]), leNat_leBytes]

theorem readLe_eq_of_append {bs as cs : List UInt8} {off width n : ℕ}
    (hbs : bs = as ++ (leBytes width n ++ cs)) (hoff : off = as.length)
    (hn : n < 256 ^ width) : readLe bs off width = n := by
  rw [readLe_append hbs hoff, Nat.mod_eq_of_lt hn]

end Bytes

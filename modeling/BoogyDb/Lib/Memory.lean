import BoogyDb.Lib.Bytes

/-!
# A memory of bytes

A mapped file is a memory: a size and a byte at each address.  Numbers are kept in
little-endian order.  What a write leaves alone is told by `Agree`, two memories with
the same bytes between two addresses; everything that is read between them is then the
same.
-/

open Bytes

/-- A memory of `size` bytes.  What an address behind the end holds does not matter. -/
structure Memory where
  size : ℕ
  byte : ℕ → UInt8

namespace Memory

/-- The bytes at `off`. -/
def read (m : Memory) (off width : ℕ) : List UInt8 :=
  (List.range width).map fun i => m.byte (off + i)

/-- Write the bytes `src` at `off`. -/
def write (m : Memory) (off : ℕ) (src : List UInt8) : Memory :=
  { m with byte := fun a => if off ≤ a then (src[a - off]?).getD (m.byte a) else m.byte a }

/-- Write `width` times the byte `b` at `off`. -/
def fill (m : Memory) (off width : ℕ) (b : UInt8) : Memory :=
  { m with byte := fun a => if off ≤ a ∧ a < off + width then b else m.byte a }

/-- The number of `width` bytes at `off`. -/
def word (m : Memory) (off width : ℕ) : ℕ := leNat (m.read off width)

/-- The `n` numbers of four bytes each that start at `off`. -/
def words (m : Memory) (off n : ℕ) : List ℕ := (List.range n).map fun i => m.word (off + i * 4) 4

/-- The bytes of a list of numbers of four bytes each. -/
def wordsBytes (ws : List ℕ) : List UInt8 := ws.flatMap (leBytes 4)

/-! ## What a write leaves alone -/

/-- The memories have the same bytes from `start` up to `stop`. -/
def Agree (m m' : Memory) (start stop : ℕ) : Prop :=
  ∀ a, start ≤ a → a < stop → m'.byte a = m.byte a

variable {m m' m'' : Memory} {off off' width start stop start' stop' n i : ℕ} {src : List UInt8}

theorem Agree.refl (m : Memory) (start stop : ℕ) : Agree m m start stop := fun _ _ _ => rfl

theorem Agree.trans (h : Agree m m' start stop) (h' : Agree m' m'' start stop) :
    Agree m m'' start stop := fun a hstart hstop => by rw [h' a hstart hstop, h a hstart hstop]

theorem Agree.mono (h : Agree m m' start stop) (hstart : start ≤ start') (hstop : stop' ≤ stop) :
    Agree m m' start' stop' := fun a ha ha' => h a (hstart.trans ha) (ha'.trans_le hstop)

theorem agree_write (h : stop ≤ off ∨ off + src.length ≤ start) :
    Agree m (m.write off src) start stop := by
  intro a hstart hstop
  unfold write
  by_cases ha : off ≤ a
  · have hout : src.length ≤ a - off := by omega
    simp only [if_pos ha, List.getElem?_eq_none hout, Option.getD_none]
  · simp only [if_neg ha]

theorem agree_fill {b : UInt8} (h : stop ≤ off ∨ off + width ≤ start) :
    Agree m (m.fill off width b) start stop := by
  intro a hstart hstop
  have hout : ¬ (off ≤ a ∧ a < off + width) := by omega
  simp only [fill, if_neg hout]

/-- The `len` bytes at `off'` are those that were at `off`. -/
def Moved (m : Memory) (off : ℕ) (m' : Memory) (off' len : ℕ) : Prop :=
  ∀ i < len, m'.byte (off' + i) = m.byte (off + i)

variable {len : ℕ}

theorem Agree.moved (h : Agree m m' start stop) (hstart : start ≤ off)
    (hstop : off + len ≤ stop) : Moved m off m' off len := fun i hi => h _ (by omega) (by omega)

/-- A part of what was moved. -/
theorem Moved.part (h : Moved m off m' off' len) (hi : i + n ≤ len) :
    Moved m (off + i) m' (off' + i) n := by
  intro j hj
  have hij : i + j < len := by omega
  rw [Nat.add_assoc, Nat.add_assoc]
  exact h (i + j) hij

theorem Moved.head (h : Moved m off m' off' len) (hn : n ≤ len) : Moved m off m' off' n :=
  fun i hi => h i (hi.trans_le hn)

theorem Moved.trans {off'' : ℕ} (h : Moved m off m' off' len) (h' : Moved m' off' m'' off'' len) :
    Moved m off m'' off'' len := fun i hi => by rw [h' i hi, h i hi]

theorem Moved.read (h : Moved m off m' off' len) : m'.read off' len = m.read off len :=
  List.map_congr_left fun i hi => h i (List.mem_range.mp hi)

theorem Moved.word (h : Moved m off m' off' len) : m'.word off' len = m.word off len := by
  unfold Memory.word
  rw [h.read]

theorem Moved.words (h : Moved m off m' off' (n * 4)) : m'.words off' n = m.words off n := by
  refine List.map_congr_left fun i hi => (h.part ?_).word
  have := List.mem_range.mp hi
  omega

theorem write_byte (hstart : off ≤ i) (hlt : i - off < src.length) :
    (m.write off src).byte i = src[i - off] := by
  simp only [write, if_pos hstart, List.getElem?_eq_getElem hlt, Option.getD_some]

/-- Bytes that were read are written somewhere else. -/
theorem moved_write (m₀ m : Memory) (off₀ off len : ℕ) :
    Moved m₀ off₀ (m.write off (m₀.read off₀ len)) off len := by
  intro i hi
  have hsub : off + i - off = i := by omega
  have hlt : off + i - off < (m₀.read off₀ len).length := by
    rw [hsub, read, List.length_map, List.length_range]
    exact hi
  rw [write_byte (by omega) hlt]
  simp only [hsub, read, List.getElem_map, List.getElem_range]

/-! ## What was written -/

@[simp] theorem length_read (m : Memory) (off width : ℕ) : (m.read off width).length = width := by
  rw [read, List.length_map, List.length_range]

@[simp] theorem size_write (m : Memory) (off : ℕ) (src : List UInt8) :
    (m.write off src).size = m.size := rfl

@[simp] theorem size_fill (m : Memory) (off width : ℕ) (b : UInt8) :
    (m.fill off width b).size = m.size := rfl

/-- A part of what was written is read back. -/
theorem read_write_inside (h : i + width ≤ src.length) :
    (m.write off src).read (off + i) width = slice src i (i + width) := by
  refine List.ext_getElem? fun j => ?_
  by_cases hj : j < width
  · have hleft : ((m.write off src).read (off + i) width)[j]? = some (src.getD (i + j) 0) := by
      have hsub : off + i + j - off = i + j := by omega
      have hle : off ≤ off + i + j := by omega
      have hlt : i + j < src.length := by omega
      rw [read, List.getElem?_map, List.getElem?_range hj, Option.map_some]
      simp only [write, if_pos hle, hsub, List.getElem?_eq_getElem hlt, Option.getD_some,
        List.getD_eq_getElem?_getD]
    have hlt : i + j < src.length := by omega
    rw [hleft, slice, List.getElem?_take_of_lt (by omega), List.getElem?_drop,
      List.getElem?_eq_getElem hlt, List.getD_eq_getElem?_getD, List.getElem?_eq_getElem hlt,
      Option.getD_some]
  · have hwidth : width ≤ j := Nat.le_of_not_lt hj
    rw [List.getElem?_eq_none (by rw [length_read]; exact hwidth),
      List.getElem?_eq_none (by rw [length_slice h]; omega)]

theorem read_write_self (m : Memory) (off : ℕ) (src : List UInt8) :
    (m.write off src).read off src.length = src := by
  have h := @read_write_inside m off src.length 0 src (by omega)
  rw [Nat.add_zero, Nat.zero_add] at h
  rw [h, slice_to_end, List.drop_zero]

theorem word_write_self {v : ℕ} (hv : v < 256 ^ width) :
    (m.write off (leBytes width v)).word off width = v := by
  have h := read_write_self m off (leBytes width v)
  rw [length_leBytes] at h
  rw [word, h, leNat_leBytes_of_lt hv]

/-- Writing the number that stands there. -/
theorem agree_write_word :
    Agree m (m.write off (leBytes width (m.word off width))) start stop := by
  have hsrc : leBytes width (m.word off width) = m.read off width := by
    have hbytes := leBytes_leNat (m.read off width)
    rwa [length_read] at hbytes
  intro a _ _
  rw [hsrc]
  unfold write
  dsimp only
  by_cases hoff : off ≤ a
  · rw [if_pos hoff]
    by_cases hlt : a - off < width
    · have hget : (m.read off width)[a - off]? = some (m.byte a) := by
        rw [read, List.getElem?_map, List.getElem?_range hlt, Option.map_some]
        congr 2
        omega
      rw [hget, Option.getD_some]
    · rw [List.getElem?_eq_none (by rw [length_read]; omega), Option.getD_none]
  · rw [if_neg hoff]

@[simp] theorem length_words (m : Memory) (off n : ℕ) : (m.words off n).length = n := by
  rw [words, List.length_map, List.length_range]

@[simp] theorem length_wordsBytes (ws : List ℕ) : (wordsBytes ws).length = ws.length * 4 := by
  induction ws with
  | nil => rfl
  | cons w ws ih =>
      rw [wordsBytes, List.flatMap_cons, List.length_append, length_leBytes, List.length_cons]
      unfold wordsBytes at ih
      omega

theorem slice_wordsBytes {ws : List ℕ} (hi : i < ws.length) :
    slice (wordsBytes ws) (i * 4) (i * 4 + 4) = leBytes 4 (ws[i]) := by
  induction ws generalizing i with
  | nil => exact absurd hi (Nat.not_lt_zero _)
  | cons w ws ih =>
      have hcons : wordsBytes (w :: ws) = leBytes 4 w ++ wordsBytes ws := List.flatMap_cons
      cases i with
      | zero =>
          rw [hcons, Nat.zero_mul, Nat.zero_add, slice_append_left _ (by rw [length_leBytes])]
          exact List.take_of_length_le (by rw [List.length_drop, length_leBytes])
      | succ i =>
          have hi' : i < ws.length := Nat.lt_of_succ_lt_succ hi
          have hstart : (i + 1) * 4 - 4 = i * 4 := by omega
          have hstop : (i + 1) * 4 + 4 - 4 = i * 4 + 4 := by omega
          rw [hcons, slice_append_right _ (by rw [length_leBytes]; omega), length_leBytes, hstart,
            hstop, ih hi', List.getElem_cons_succ]

/-- One of the numbers that were written. -/
theorem word_write_words {ws : List ℕ} (hi : i < ws.length) (hlt : ws[i] < 2 ^ 32) :
    (m.write off (wordsBytes ws)).word (off + i * 4) 4 = ws[i] := by
  rw [word, read_write_inside (by rw [length_wordsBytes]; omega), slice_wordsBytes hi,
    leNat_leBytes_of_lt (by simpa using hlt)]

/-- A run of the numbers that were written. -/
theorem words_write_words {ws : List ℕ} (hlt : ∀ w ∈ ws, w < 2 ^ 32) (h : i + n ≤ ws.length) :
    (m.write off (wordsBytes ws)).words (off + i * 4) n = (ws.drop i).take n := by
  refine List.ext_getElem? fun j => ?_
  by_cases hj : j < n
  · have hij : i + j < ws.length := by omega
    have haddr : off + i * 4 + j * 4 = off + (i + j) * 4 := by omega
    rw [words, List.getElem?_map, List.getElem?_range hj, Option.map_some, haddr,
      word_write_words hij (hlt _ (List.getElem_mem hij)), List.getElem?_take_of_lt hj,
      List.getElem?_drop, List.getElem?_eq_getElem hij]
  · have hle : n ≤ j := Nat.le_of_not_lt hj
    rw [List.getElem?_eq_none (by rw [length_words]; exact hle),
      List.getElem?_eq_none (by rw [List.length_take]; omega)]

/-- The first of the numbers that were written. -/
theorem word_write_cons {w : ℕ} {ws : List ℕ} (hw : w < 2 ^ 32) :
    (m.write off (wordsBytes (w :: ws))).word off 4 = w := by
  have h := @word_write_words m off 0 (w :: ws) (Nat.succ_pos _) hw
  rwa [Nat.zero_mul, Nat.add_zero] at h

/-- The numbers behind the first. -/
theorem words_write_cons {w : ℕ} {ws : List ℕ} (hw : w < 2 ^ 32) (hlt : ∀ v ∈ ws, v < 2 ^ 32)
    (hn : n ≤ ws.length) :
    (m.write off (wordsBytes (w :: ws))).words (off + 4) n = ws.take n := by
  have h := @words_write_words m off n 1 (w :: ws) (List.forall_mem_cons.mpr ⟨hw, hlt⟩)
    (by rw [List.length_cons]; omega)
  rwa [Nat.one_mul, List.drop_succ_cons, List.drop_zero] at h

/-- A number that was written behind others. -/
theorem word_write_behind {w : ℕ} {before after : List ℕ} (hw : w < 2 ^ 32) :
    (m.write off (wordsBytes (before ++ w :: after))).word (off + before.length * 4) 4 = w := by
  have hlt : before.length < (before ++ w :: after).length := by
    rw [List.length_append, List.length_cons]
    omega
  have hget : (before ++ w :: after)[before.length] = w := by
    rw [List.getElem_append_right le_rfl]
    simp only [Nat.sub_self, List.getElem_cons_zero]
  have h := @word_write_words m off before.length _ hlt (by rw [hget]; exact hw)
  rwa [hget] at h

end Memory

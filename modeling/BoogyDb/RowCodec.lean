import BoogyDb.Row

/-!
# What the row readers see in an encoded row

`encodeRow` writes each data offset in 16 bits, so a reader that follows the
directory to column `i` lands `dataOffset i % 65536` bytes into the column data.
When the offset fits it lands on the encoding of the column; when it does not,
it lands wherever the wrapped offset points.  `decodeValue_ok_iff` says exactly
what a reader accepts there, and the round trip is reduced to it column by
column.
-/

namespace BoogyDb

open Bytes BinarySearch

/-! ## Single values -/

/-- `bs` starts with the bytes of `v`; any nonzero byte spells `true`. -/
def SpellsValue (bs : List UInt8) (v : Value) : Prop :=
  (∃ rest, bs = encodeValue v ++ rest) ∨
    (v = .boolean true ∧ ∃ b rest, b ≠ 0 ∧ bs = tagBoolean :: b :: rest)

theorem ensureBytes_ok {data : List UInt8} {offset need : ℕ} (h : offset + need ≤ data.length) :
    ensureBytes data offset need = .ok () :=
  if_neg (by omega)

theorem ensureBytes_eq_ok {data : List UInt8} {offset need : ℕ} {u : Unit}
    (h : ensureBytes data offset need = .ok u) : offset + need ≤ data.length := by
  rw [ensureBytes] at h
  split at h
  · cases h
  · omega

theorem length_encodeValue_pos (v : Value) : 0 < (encodeValue v).length := by
  cases v <;> simp [encodeValue]

theorem decodeValue_text_bytes {body : List UInt8} (rest : List UInt8) {s : String}
    (hlen : body.length < 2 ^ 32) (hutf8 : fromUtf8? body = some s) :
    decodeValue (tagText :: (leBytes 4 body.length ++ (body ++ rest))) =
      .ok (.text s, 5 + body.length) := by
  set data := tagText :: (leBytes 4 body.length ++ (body ++ rest)) with hdata
  have hsize : data.length = 5 + body.length + rest.length := by
    simp only [hdata, List.length_cons, List.length_append, length_leBytes]
    omega
  have hread : readLe data 1 4 = body.length :=
    readLe_eq_of_append (show data = [tagText] ++ _ by rw [hdata]; rfl) rfl hlen
  have hbody : slice data 5 (5 + body.length) = body := by
    refine slice_eq_of_append (show data = (tagText :: leBytes 4 body.length) ++ (body ++ rest) from
      ?_) (by simp) (by simp)
    simp [hdata]
  rw [decodeValue, ensureBytes_ok (by omega), ok_bind]
  show (do ensureBytes data 1 4; _) = _
  rw [ensureBytes_ok (by omega), ok_bind, readU32_ok (by omega), ok_bind, hread,
    ensureBytes_ok (by omega), ok_bind, bytesOf_ok (by omega) (by omega), ok_bind, hbody, hutf8]
  rfl

theorem decodeValue_blob_bytes {body : List UInt8} (rest : List UInt8)
    (hlen : body.length < 2 ^ 32) :
    decodeValue (tagBlob :: (leBytes 4 body.length ++ (body ++ rest))) =
      .ok (.blob body, 5 + body.length) := by
  set data := tagBlob :: (leBytes 4 body.length ++ (body ++ rest)) with hdata
  have hsize : data.length = 5 + body.length + rest.length := by
    simp only [hdata, List.length_cons, List.length_append, length_leBytes]
    omega
  have hread : readLe data 1 4 = body.length :=
    readLe_eq_of_append (show data = [tagBlob] ++ _ by rw [hdata]; rfl) rfl hlen
  have hbody : slice data 5 (5 + body.length) = body := by
    refine slice_eq_of_append (show data = (tagBlob :: leBytes 4 body.length) ++ (body ++ rest) from
      ?_) (by simp) (by simp)
    simp [hdata]
  rw [decodeValue, ensureBytes_ok (by omega), ok_bind]
  show (do ensureBytes data 1 4; _) = _
  rw [ensureBytes_ok (by omega), ok_bind, readU32_ok (by omega), ok_bind, hread,
    ensureBytes_ok (by omega), ok_bind, bytesOf_ok (by omega) (by omega), ok_bind, hbody]
  rfl

theorem decodeValue_word {tag : UInt8} (w : UInt64) (rest : List UInt8) :
    readU64 (tag :: (leBytes 8 w.toNat ++ rest)) 1 = .ok w := by
  set data := tag :: (leBytes 8 w.toNat ++ rest) with hdata
  have hread : readLe data 1 8 = w.toNat :=
    readLe_eq_of_append (show data = [tag] ++ _ by rw [hdata]; rfl) rfl w.toNat_lt
  have hsize : data.length = 9 + rest.length := by
    simp only [hdata, List.length_cons, List.length_append, length_leBytes]
    omega
  rw [readU64_ok (by omega), hread, UInt64.ofNat_toNat]

/-- Reading back an encoded value. -/
theorem decodeValue_encodeValue (v : Value) (rest : List UInt8)
    (hlen : (encodeValue v).length < 2 ^ 32) :
    decodeValue (encodeValue v ++ rest) = .ok (v, (encodeValue v).length) := by
  cases v with
  | null => rfl
  | text s =>
      simp only [encodeValue, List.length_cons, List.length_append, length_leBytes] at hlen
      have hread := decodeValue_text_bytes rest (by omega) (fromUtf8?_asBytes s)
      simp only [encodeValue, List.cons_append, List.append_assoc]
      rw [hread]
      simp only [List.length_cons, List.length_append, length_leBytes]
      congr 2
      omega
  | integer i =>
      simp only [encodeValue, List.cons_append, List.length_cons, length_leBytes]
      rw [decodeValue, ensureBytes_ok (by simp), ok_bind]
      show (do ensureBytes (tagInteger :: (leBytes 8 i.toUInt64.toNat ++ rest)) 1 8; _) = _
      rw [ensureBytes_ok (by simp), ok_bind, decodeValue_word, ok_bind]
      rfl
  | real bits =>
      simp only [encodeValue, List.cons_append, List.length_cons, length_leBytes]
      rw [decodeValue, ensureBytes_ok (by simp), ok_bind]
      show (do ensureBytes (tagReal :: (leBytes 8 bits.toNat ++ rest)) 1 8; _) = _
      rw [ensureBytes_ok (by simp), ok_bind, decodeValue_word, ok_bind]
      rfl
  | blob b =>
      simp only [encodeValue, List.length_cons, List.length_append, length_leBytes] at hlen
      have hread := @decodeValue_blob_bytes b rest (by omega)
      simp only [encodeValue, List.cons_append, List.append_assoc]
      rw [hread]
      simp only [List.length_cons, List.length_append, length_leBytes]
      congr 2
      omega
  | boolean b =>
      simp only [encodeValue, List.cons_append, List.nil_append]
      rw [decodeValue, ensureBytes_ok (by simp), ok_bind]
      show (do ensureBytes (tagBoolean :: (if b = true then 1 else 0) :: rest) 1 1; _) = _
      rw [ensureBytes_ok (by simp), ok_bind]
      cases b <;> rfl

/-- Splitting off a counted body: four length bytes, then the body. -/
theorem counted_split {data : List UInt8} {tag : UInt8} {tail : List UInt8}
    (hdata : data = tag :: tail) (hlen : 5 + readLe data 1 4 ≤ data.length) :
    data = tag :: (leBytes 4 (slice data 5 (5 + readLe data 1 4)).length ++
      (slice data 5 (5 + readLe data 1 4) ++ data.drop (5 + readLe data 1 4))) := by
  set len := readLe data 1 4 with hdef
  have hbody : (slice data 5 (5 + len)).length = len := by
    rw [length_slice hlen]
    omega
  have hfour : (slice data 1 5).length = 4 := by
    rw [length_slice (by omega)]
  have hfield : leBytes 4 len = slice data 1 5 := by
    have := leBytes_leNat (slice data 1 5)
    rwa [hfour] at this
  rw [hbody, hfield]
  have hjoin : slice data 5 (5 + len) ++ data.drop (5 + len) = data.drop 5 := by
    rw [slice, Nat.add_sub_cancel_left, ← List.drop_drop, List.take_append_drop]
  rw [hjoin]
  have hjoin' : slice data 1 5 ++ data.drop 5 = data.drop 1 := by
    rw [slice, show data.drop 5 = (data.drop 1).drop 4 by rw [List.drop_drop],
      List.take_append_drop]
  rw [hjoin', hdata]
  rfl

theorem word_split {data : List UInt8} {tag : UInt8} {tail : List UInt8}
    (hdata : data = tag :: tail) (hlen : 9 ≤ data.length) :
    data = tag :: (leBytes 8 (UInt64.ofNat (readLe data 1 8)).toNat ++ data.drop 9) := by
  have hsize : (slice data 1 9).length = 8 := by
    rw [length_slice (by omega)]
  have hlt : readLe data 1 8 < 2 ^ 64 := readLe_lt data 1 8
  have hfield : leBytes 8 (readLe data 1 8) = slice data 1 9 := by
    have := leBytes_leNat (slice data 1 9)
    rwa [hsize] at this
  rw [UInt64.toNat_ofNat_of_lt' hlt, hfield]
  have hjoin : slice data 1 9 ++ data.drop 9 = data.drop 1 := by
    rw [slice, show data.drop 9 = (data.drop 1).drop 8 by rw [List.drop_drop],
      List.take_append_drop]
  rw [hjoin, hdata]
  rfl

/-- What a reader accepts as a value is spelled at the front of what it reads. -/
theorem spellsValue_of_decodeValue {data : List UInt8} {v : Value} {n : ℕ}
    (h : decodeValue data = .ok (v, n)) : SpellsValue data v := by
  rw [decodeValue, bind_eq_ok] at h
  obtain ⟨_, hone, h⟩ := h
  have hpos := ensureBytes_eq_ok hone
  cases data with
  | nil => simp at hpos
  | cons tag tail =>
  rw [List.headD_cons] at h
  split at h
  · -- null
    simp only [pure_eq_ok, Except.ok.injEq, Prod.mk.injEq] at h
    exact .inl ⟨tail, by rw [← h.1]; rfl⟩
  · -- text
    simp only [bind_eq_ok] at h
    obtain ⟨_, hfour, len, hlen, _, hbody, bs, hbs, h⟩ := h
    have hfour := ensureBytes_eq_ok hfour
    have hbody := ensureBytes_eq_ok hbody
    rw [readU32_ok hfour, Except.ok.injEq] at hlen
    subst hlen
    rw [bytesOf_ok (by omega) hbody, Except.ok.injEq] at hbs
    split at h
    · rename_i s hs
      simp only [pure_eq_ok, Except.ok.injEq, Prod.mk.injEq] at h
      have hbytes : asBytes s = bs := asBytes_of_fromUtf8? hs
      refine .inl ⟨(1 :: tail).drop (5 + readLe (1 :: tail) 1 4), ?_⟩
      rw [← h.1, encodeValue, hbytes, ← hbs, List.cons_append, List.append_assoc]
      exact counted_split rfl hbody
    · cases h
  · -- integer
    simp only [bind_eq_ok] at h
    obtain ⟨_, height, i, hi, h⟩ := h
    have height := ensureBytes_eq_ok height
    rw [readU64_ok height, Except.ok.injEq] at hi
    simp only [pure_eq_ok, Except.ok.injEq, Prod.mk.injEq] at h
    refine .inl ⟨(2 :: tail).drop 9, ?_⟩
    rw [← h.1, ← hi, encodeValue, List.cons_append]
    exact word_split rfl height
  · -- real
    simp only [bind_eq_ok] at h
    obtain ⟨_, height, w, hw, h⟩ := h
    have height := ensureBytes_eq_ok height
    rw [readU64_ok height, Except.ok.injEq] at hw
    simp only [pure_eq_ok, Except.ok.injEq, Prod.mk.injEq] at h
    refine .inl ⟨(3 :: tail).drop 9, ?_⟩
    rw [← h.1, ← hw, encodeValue, List.cons_append]
    exact word_split rfl height
  · -- blob
    simp only [bind_eq_ok] at h
    obtain ⟨_, hfour, len, hlen, _, hbody, bs, hbs, h⟩ := h
    have hfour := ensureBytes_eq_ok hfour
    have hbody := ensureBytes_eq_ok hbody
    rw [readU32_ok hfour, Except.ok.injEq] at hlen
    subst hlen
    rw [bytesOf_ok (by omega) hbody, Except.ok.injEq] at hbs
    simp only [pure_eq_ok, Except.ok.injEq, Prod.mk.injEq] at h
    refine .inl ⟨(4 :: tail).drop (5 + readLe (4 :: tail) 1 4), ?_⟩
    rw [← h.1, encodeValue, ← hbs, List.cons_append, List.append_assoc]
    exact counted_split rfl hbody
  · -- boolean
    simp only [bind_eq_ok] at h
    obtain ⟨_, htwo, h⟩ := h
    have htwo := ensureBytes_eq_ok htwo
    simp only [pure_eq_ok, Except.ok.injEq, Prod.mk.injEq] at h
    cases tail with
    | nil => simp at htwo
    | cons b rest =>
      simp only [List.getD_cons_succ, List.getD_cons_zero] at h
      by_cases hb : b = 0
      · exact .inl ⟨rest, by rw [← h.1, hb]; rfl⟩
      · refine .inr ⟨?_, b, rest, hb, rfl⟩
        rw [← h.1]
        simp [hb]
  · cases h

/-- A reader accepts `v` exactly where its bytes stand. -/
theorem decodeValue_ok_iff {data : List UInt8} {v : Value}
    (hlen : (encodeValue v).length < 2 ^ 32) :
    (∃ n, decodeValue data = .ok (v, n)) ↔ SpellsValue data v := by
  constructor
  · rintro ⟨n, h⟩
    exact spellsValue_of_decodeValue h
  · rintro (⟨rest, rfl⟩ | ⟨rfl, b, rest, hb, rfl⟩)
    · exact ⟨_, decodeValue_encodeValue v rest hlen⟩
    · refine ⟨2, ?_⟩
      rw [decodeValue, ensureBytes_ok (by simp), ok_bind]
      show (do ensureBytes (tagBoolean :: b :: rest) 1 1; _) = _
      rw [ensureBytes_ok (by simp), ok_bind]
      simp [hb]

end BoogyDb

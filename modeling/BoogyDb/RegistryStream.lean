import BoogyDb.Registry
import BoogyDb.RowCodec

/-!
# The stream of the registry

The stream of the registry is made of fixed-width numbers, byte strings behind their
lengths and lists behind their counts.  A part is read back, with nothing left over,
if and only if its lengths and counts fit in the 16 bits they are written in
(`ReadsBack`), and with the parts the whole stream.
-/

namespace BoogyDb

open Bytes Wp

variable {α β : Type}

/-! ## Reading from the front of a stream -/

section

variable {σ : Type} {x : StateResult σ α} {f : α → StateResult σ β} {s t : σ} {b : β}

theorem bind_ok_iff : (x >>= f) s = .ok b t ↔ ∃ a u, x s = .ok a u ∧ f a u = .ok b t := by
  constructor
  · intro h
    cases hx : x s with
    | ok a u =>
        rw [run_bind_ok hx] at h
        exact ⟨a, u, rfl, h⟩
    | error e u =>
        rw [run_bind_error hx] at h
        cases h
  · rintro ⟨a, u, hx, h⟩
    rw [run_bind_ok hx, h]

theorem lift_ok_iff {r : Result α} {a : α} :
    (liftM r : StateResult σ α) s = .ok a t ↔ r = .ok a ∧ t = s := by
  cases r with
  | ok a' =>
      show EStateM.Result.ok a' s = .ok a t ↔ _
      simp [eq_comm]
  | error e =>
      show EStateM.Result.error e s = .ok a t ↔ _
      simp

theorem bind_lift_iff {r : Result α} :
    ((liftM r : StateResult σ α) >>= f) s = .ok b t ↔ ∃ a, r = .ok a ∧ f a s = .ok b t := by
  rw [bind_ok_iff]
  constructor
  · rintro ⟨a, u, hr, h⟩
    obtain ⟨hok, rfl⟩ := lift_ok_iff.mp hr
    exact ⟨a, hok, h⟩
  · rintro ⟨a, hr, h⟩
    exact ⟨a, s, lift_ok_iff.mpr ⟨hr, rfl⟩, h⟩

end

section

variable {s t : List UInt8} {n : ℕ} {msg : String}

theorem need_iff : need n msg s = .ok () t ↔ n ≤ s.length ∧ t = s := by
  unfold need readOnly
  by_cases h : s.length < n
  · simp [h, fail]
  · simp [h, eq_comm, Nat.not_lt.mp h]

theorem need_ok (h : n ≤ s.length) : need n msg s = .ok () s := need_iff.mpr ⟨h, rfl⟩

theorem bind_need_iff {f : Unit → StreamReader β} {b : β} :
    (need n msg >>= f) s = .ok b t ↔ n ≤ s.length ∧ f () s = .ok b t := by
  rw [bind_ok_iff]
  constructor
  · rintro ⟨_, u, hn, h⟩
    obtain ⟨hn, rfl⟩ := need_iff.mp hn
    exact ⟨hn, h⟩
  · rintro ⟨hn, h⟩
    exact ⟨(), s, need_ok hn, h⟩

theorem takeBytes_append (bs s : List UInt8) : takeBytes bs.length (bs ++ s) = .ok bs s := by
  unfold takeBytes
  simp

theorem takeBytes_iff {bs : List UInt8} :
    takeBytes n s = .ok bs t ↔ bs.length = n ∧ s = bs ++ t := by
  unfold takeBytes
  constructor
  · intro h
    split at h
    · cases h
    · rename_i hle
      cases h
      exact ⟨by rw [List.length_take]; omega, (List.take_append_drop n s).symm⟩
  · rintro ⟨rfl, rfl⟩
    simp

theorem takeNat_leBytes (width n : ℕ) (s : List UInt8) :
    takeNat width (leBytes width n ++ s) = .ok (n % 256 ^ width) s := by
  have htake := takeBytes_append (leBytes width n) s
  rw [length_leBytes] at htake
  unfold takeNat
  rw [run_bind_ok htake, leNat_leBytes]
  rfl

theorem takeByte_cons (b : UInt8) (s : List UInt8) : takeByte (b :: s) = .ok b s := by
  have htake : takeBytes 1 (b :: s) = .ok [b] s := takeBytes_append [b] s
  unfold takeByte
  rw [run_bind_ok htake]
  rfl

/-- A string that comes back from behind its length was not too long for it. -/
theorem takeBytes_length_mod {bs : List UInt8}
    (h : takeBytes (bs.length % 256 ^ 2) (bs ++ s) = .ok bs t) : bs.length < 65536 ∧ t = s := by
  obtain ⟨hlen, heq⟩ := takeBytes_iff.mp h
  exact ⟨by omega, (List.append_cancel_left heq).symm⟩

end

/-! ## Parts that are read back -/

/-- What is written is read back as what is the same, and nothing more is read, exactly
if it fits. -/
structure ReadsBack (read : StreamReader α) (write : α → List UInt8) (same : α → α → Prop)
    (fits : α → Prop) : Prop where
  read_ok : ∀ a s, fits a → ∃ a', same a a' ∧ read (write a ++ s) = .ok a' s
  fits_of_read : ∀ a a' s s', same a a' → read (write a ++ s) = .ok a' s' → fits a

section

variable {read : StreamReader α} {write : α → List UInt8} {same : α → α → Prop}
  {fits : α → Prop} {s s' : List UInt8} {l l' : List α}

/-- A list is read back element by element. -/
theorem ReadsBack.times_ok (h : ReadsBack read write same fits) (hl : ∀ a ∈ l, fits a) :
    ∃ l', List.Forall₂ same l l' ∧ times read l.length (l.flatMap write ++ s) = .ok l' s := by
  induction l with
  | nil => exact ⟨[], .nil, rfl⟩
  | cons a l ih =>
      rw [List.forall_mem_cons] at hl
      obtain ⟨l', hsame, hread⟩ := ih hl.2
      obtain ⟨a', hsame', hread'⟩ := h.read_ok a (l.flatMap write ++ s) hl.1
      refine ⟨a' :: l', .cons hsame' hsame, ?_⟩
      rw [List.length_cons, times, List.flatMap_cons, List.append_assoc, run_bind_ok hread',
        run_bind_ok hread]
      rfl

theorem ReadsBack.fits_of_times {n : ℕ} (h : ReadsBack read write same fits)
    (hsame : List.Forall₂ same l l') (hread : times read n (l.flatMap write ++ s) = .ok l' s') :
    l.length = n ∧ (∀ a ∈ l, fits a) ∧ s' = s := by
  induction hsame generalizing n with
  | nil =>
      cases n with
      | zero =>
          cases hread
          exact ⟨rfl, by simp, rfl⟩
      | succ n =>
          rw [times, bind_ok_iff] at hread
          obtain ⟨a, u, -, hread⟩ := hread
          obtain ⟨l', v, -, hread⟩ := bind_ok_iff.mp hread
          cases hread
  | @cons a a' l l' haa' hll' ih =>
      cases n with
      | zero => cases hread
      | succ n =>
          rw [times, bind_ok_iff, List.flatMap_cons, List.append_assoc] at hread
          obtain ⟨b, u, hb, hread⟩ := hread
          obtain ⟨bs, v, hbs, hread⟩ := bind_ok_iff.mp hread
          cases hread
          have ha := h.fits_of_read a _ _ _ haa' hb
          -- what is behind the element is read next
          obtain ⟨b', -, hb'⟩ := h.read_ok a (l.flatMap write ++ s) ha
          rw [hb] at hb'
          cases hb'
          obtain ⟨hlen, hfits, hs⟩ := ih hbs
          refine ⟨by rw [List.length_cons, hlen], ?_, hs⟩
          rw [List.forall_mem_cons]
          exact ⟨ha, hfits⟩

end

/-! ## Columns and indexes -/

section

variable {s t : List UInt8}

theorem utf8_iff {msg : String} {bs : List UInt8} {name : String} :
    utf8 msg bs = .ok name ↔ bs = asBytes name := by
  unfold utf8
  constructor
  · intro h
    split at h
    · rename_i hname
      cases h
      exact (asBytes_of_fromUtf8? hname).symm
    · cases h
  · rintro rfl
    rw [fromUtf8?_asBytes]

/-- The default value of a column has a short enough encoding. -/
def DefaultFits (default : Option Value) : Prop :=
  ∀ v, default = some v → (encodeValue v).length < 65536

instance (default : Option Value) : Decidable (DefaultFits default) :=
  decidable_of_iff (default.all fun v => (encodeValue v).length < 65536) <| by
    cases default <;> simp [DefaultFits]

/-- The bytes of a default value. -/
def serializeDefault : Option Value → List UInt8
  | none => [0]
  | some v => 1 :: serializeBytes (encodeValue v)

/-- No value is spelled by less than its bytes. -/
theorem length_le_of_decodeValue {bs : List UInt8} {v : Value} {n : ℕ}
    (h : decodeValue bs = .ok (v, n)) : (encodeValue v).length ≤ bs.length := by
  rcases spellsValue_of_decodeValue h with ⟨rest, rfl⟩ | ⟨rfl, b, rest, -, rfl⟩
  · simp
  · simp [encodeValue]

theorem readsBack_default :
    ReadsBack deserializeDefault serializeDefault (· = ·) DefaultFits where
  read_ok default s hfits := by
    refine ⟨default, rfl, ?_⟩
    unfold deserializeDefault
    cases default with
    | none =>
        show (need 1 _ >>= _) (0 :: s) = _
        rw [run_bind_ok (need_ok (by simp)), run_bind_ok (takeByte_cons 0 s)]
        rfl
    | some v =>
        have hlen := hfits v rfl
        show (need 1 _ >>= _) (1 :: (leBytes 2 _ ++ encodeValue v ++ s)) = _
        rw [List.append_assoc, run_bind_ok (need_ok (by simp)), run_bind_ok (takeByte_cons 1 _)]
        show (need 2 _ >>= _) _ = _
        rw [run_bind_ok (need_ok (by simp)), run_bind_ok (takeNat_leBytes 2 _ _),
          Nat.mod_eq_of_lt (show _ < 256 ^ 2 from hlen), run_bind_ok (need_ok (by simp)),
          run_bind_ok (takeBytes_append _ s)]
        have hdecode := decodeValue_encodeValue v [] (by omega)
        rw [List.append_nil] at hdecode
        rw [hdecode]
        rfl
  fits_of_read default default' s s' heq hread := by
    subst heq
    intro v hv
    subst hv
    unfold deserializeDefault at hread
    change (need 1 _ >>= _) (1 :: (leBytes 2 _ ++ encodeValue v ++ s)) = _ at hread
    rw [List.append_assoc, run_bind_ok (need_ok (by simp)),
      run_bind_ok (takeByte_cons 1 _)] at hread
    change (need 2 _ >>= _) _ = _ at hread
    rw [run_bind_ok (need_ok (by simp)), run_bind_ok (takeNat_leBytes 2 _ _)] at hread
    obtain ⟨-, hread⟩ := bind_need_iff.mp hread
    obtain ⟨bs, u, hbs, hread⟩ := bind_ok_iff.mp hread
    obtain ⟨⟨v', n⟩, hdecode, hpure⟩ := bind_lift_iff.mp hread
    have hvalue : EStateM.Result.ok (some v') u = .ok (some v) s' := hpure
    cases hvalue
    have hle := length_le_of_decodeValue hdecode
    have hlen := (takeBytes_iff.mp hbs).1
    omega

/-- The name and the default value of a column are short enough. -/
def ColumnFits (col : ColumnDef) : Prop :=
  (asBytes col.name).length < 65536 ∧ DefaultFits col.default

instance (col : ColumnDef) : Decidable (ColumnFits col) := inferInstanceAs (Decidable (_ ∧ _))

theorem typeToTag_back (t : ColumnType) : tagToType (typeToTag t) = .ok t := by
  cases t <;> rfl

theorem flag_back (b : Bool) : ((if b then 1 else 0 : UInt8) != 0) = b := by
  cases b <;> rfl

theorem serializeColumn_append (col : ColumnDef) (s : List UInt8) : serializeColumn col ++ s =
    leBytes 2 (asBytes col.name).length ++ (asBytes col.name ++ (typeToTag col.colType ::
      (if col.nullable then 1 else 0) :: (if col.unique then 1 else 0) ::
      (if col.dropped then 1 else 0) :: (serializeDefault col.default ++ s))) := by
  unfold serializeColumn serializeName serializeBytes flag
  cases col.default <;> simp [serializeDefault, serializeBytes]

theorem readsBack_column : ReadsBack deserializeColumn serializeColumn (· = ·) ColumnFits where
  read_ok col s hfits := by
    obtain ⟨default, rfl, hdefault⟩ := readsBack_default.read_ok col.default s hfits.2
    refine ⟨col, rfl, ?_⟩
    rw [serializeColumn_append]
    unfold deserializeColumn
    rw [run_bind_ok (need_ok (by simp)), run_bind_ok (takeNat_leBytes 2 _ _),
      Nat.mod_eq_of_lt (show _ < 256 ^ 2 from hfits.1), run_bind_ok (need_ok (by simp)),
      run_bind_ok (takeBytes_append _ _), run_bind_ok (lift_ok_iff.mpr ⟨utf8_iff.mpr rfl, rfl⟩),
      run_bind_ok (takeByte_cons _ _), run_bind_ok (takeByte_cons _ _),
      run_bind_ok (takeByte_cons _ _), run_bind_ok (need_ok (by simp)),
      run_bind_ok (takeByte_cons _ _), run_bind_ok hdefault,
      run_bind_ok (lift_ok_iff.mpr ⟨typeToTag_back _, rfl⟩), flag_back, flag_back, flag_back]
    rfl
  fits_of_read col col' s s' heq hread := by
    subst heq
    rw [serializeColumn_append] at hread
    unfold deserializeColumn at hread
    rw [run_bind_ok (need_ok (by simp)), run_bind_ok (takeNat_leBytes 2 _ _)] at hread
    obtain ⟨-, hread⟩ := bind_need_iff.mp hread
    obtain ⟨bs, s₁, hbs, hread⟩ := bind_ok_iff.mp hread
    obtain ⟨name, hname, hread⟩ := bind_lift_iff.mp hread
    rw [utf8_iff.mp hname] at hbs
    obtain ⟨typeTag, s₂, htype, hread⟩ := bind_ok_iff.mp hread
    obtain ⟨nullable, s₃, hnullable, hread⟩ := bind_ok_iff.mp hread
    obtain ⟨unique, s₄, hunique, hread⟩ := bind_ok_iff.mp hread
    obtain ⟨-, hread⟩ := bind_need_iff.mp hread
    obtain ⟨dropped, s₅, hdropped, hread⟩ := bind_ok_iff.mp hread
    obtain ⟨default, s₆, hdefault, hread⟩ := bind_ok_iff.mp hread
    obtain ⟨colType, -, hread⟩ := bind_lift_iff.mp hread
    cases hread
    -- the name that comes back is the one written, and the rest stands behind it
    obtain ⟨hlen, rfl⟩ := takeBytes_length_mod hbs
    rw [takeByte_cons] at htype
    obtain ⟨-, rfl⟩ := EStateM.Result.ok.inj htype
    rw [takeByte_cons] at hnullable
    obtain ⟨-, rfl⟩ := EStateM.Result.ok.inj hnullable
    rw [takeByte_cons] at hunique
    obtain ⟨-, rfl⟩ := EStateM.Result.ok.inj hunique
    rw [takeByte_cons] at hdropped
    obtain ⟨-, rfl⟩ := EStateM.Result.ok.inj hdropped
    exact ⟨hlen, readsBack_default.fits_of_read _ _ _ _ rfl hdefault⟩

/-- The name of an index, the number of its columns and their names are short enough. -/
structure IndexFits (idx : IndexMeta) : Prop where
  name : (asBytes idx.name).length < 65536
  count : idx.columns.length < 65536
  columns : ∀ c ∈ idx.columns, (asBytes c).length < 65536
  rootPage : idx.rootPage < 2 ^ 32

instance (idx : IndexMeta) : Decidable (IndexFits idx) :=
  decidable_of_iff ((asBytes idx.name).length < 65536 ∧ idx.columns.length < 65536 ∧
    (∀ c ∈ idx.columns, (asBytes c).length < 65536) ∧ idx.rootPage < 2 ^ 32)
    ⟨fun ⟨hname, hcount, hcolumns, hroot⟩ => ⟨hname, hcount, hcolumns, hroot⟩,
      fun h => ⟨h.name, h.count, h.columns, h.rootPage⟩⟩

/-- A name behind its length. -/
theorem readsBack_name (short long bad : String) :
    ReadsBack (do
        need 2 short
        let len ← takeNat 2
        need len long
        let bs ← takeBytes len
        utf8 bad bs) serializeName (· = ·) fun name => (asBytes name).length < 65536 where
  read_ok name s hfits := by
    refine ⟨name, rfl, ?_⟩
    unfold serializeName serializeBytes
    rw [List.append_assoc, run_bind_ok (need_ok (by simp)), run_bind_ok (takeNat_leBytes 2 _ _),
      Nat.mod_eq_of_lt (show _ < 256 ^ 2 from hfits), run_bind_ok (need_ok (by simp)),
      run_bind_ok (takeBytes_append _ _)]
    exact lift_ok_iff.mpr ⟨utf8_iff.mpr rfl, rfl⟩
  fits_of_read name name' s s' heq hread := by
    subst heq
    unfold serializeName serializeBytes at hread
    rw [List.append_assoc, run_bind_ok (need_ok (by simp)),
      run_bind_ok (takeNat_leBytes 2 _ _)] at hread
    obtain ⟨-, hread⟩ := bind_need_iff.mp hread
    obtain ⟨bs, s₁, hbs, hname⟩ := bind_ok_iff.mp hread
    obtain rfl := utf8_iff.mp (lift_ok_iff.mp hname).1
    exact (takeBytes_length_mod hbs).1

theorem serializeIndex_append (idx : IndexMeta) (s : List UInt8) : serializeIndex idx ++ s =
    serializeName idx.name ++ (leBytes 2 idx.columns.length ++
      (idx.columns.flatMap serializeName ++ ((if idx.unique then 1 else 0) ::
        (leBytes 4 idx.rootPage ++ s)))) := by
  unfold serializeIndex flag
  simp only [List.append_assoc, List.cons_append, List.nil_append]

theorem readsBack_index : ReadsBack deserializeIndex serializeIndex (· = ·) IndexFits where
  read_ok idx s hfits := by
    have hcolumn := readsBack_name "system page truncated at index column length"
      "system page truncated at index column" "invalid utf8 in index column"
    obtain ⟨columns, hcolumns, htimes⟩ := hcolumn.times_ok
      (s := (if idx.unique then 1 else 0) :: (leBytes 4 idx.rootPage ++ s)) hfits.columns
    rw [List.forall₂_eq_eq_eq] at hcolumns
    subst hcolumns
    refine ⟨idx, rfl, ?_⟩
    rw [serializeIndex_append]
    unfold deserializeIndex serializeName serializeBytes
    rw [List.append_assoc, run_bind_ok (need_ok (by simp)), run_bind_ok (takeNat_leBytes 2 _ _),
      Nat.mod_eq_of_lt (show _ < 256 ^ 2 from hfits.name), run_bind_ok (need_ok (by simp)),
      run_bind_ok (takeBytes_append _ _), run_bind_ok (lift_ok_iff.mpr ⟨utf8_iff.mpr rfl, rfl⟩),
      run_bind_ok (need_ok (by simp)), run_bind_ok (takeNat_leBytes 2 _ _),
      Nat.mod_eq_of_lt (show _ < 256 ^ 2 from hfits.count)]
    refine (run_bind_ok htimes).trans ?_
    rw [run_bind_ok (need_ok (by simp)), run_bind_ok (takeByte_cons _ _),
      run_bind_ok (need_ok (by simp)), run_bind_ok (takeNat_leBytes 4 _ _),
      Nat.mod_eq_of_lt (show _ < 256 ^ 4 from hfits.rootPage), flag_back]
    rfl
  fits_of_read idx idx' s s' heq hread := by
    subst heq
    have hcolumn := readsBack_name "system page truncated at index column length"
      "system page truncated at index column" "invalid utf8 in index column"
    rw [serializeIndex_append] at hread
    unfold deserializeIndex serializeName serializeBytes at hread
    rw [List.append_assoc, run_bind_ok (need_ok (by simp)),
      run_bind_ok (takeNat_leBytes 2 _ _)] at hread
    obtain ⟨-, hread⟩ := bind_need_iff.mp hread
    obtain ⟨bs, s₁, hbs, hread⟩ := bind_ok_iff.mp hread
    obtain ⟨name, hname, hread⟩ := bind_lift_iff.mp hread
    rw [utf8_iff.mp hname] at hbs
    obtain ⟨-, hread⟩ := bind_need_iff.mp hread
    obtain ⟨numCols, s₂, hcount, hread⟩ := bind_ok_iff.mp hread
    obtain ⟨columns, s₃, htimes, hread⟩ := bind_ok_iff.mp hread
    obtain ⟨-, hread⟩ := bind_need_iff.mp hread
    obtain ⟨unique, s₄, hunique, hread⟩ := bind_ok_iff.mp hread
    obtain ⟨-, hread⟩ := bind_need_iff.mp hread
    obtain ⟨rootPage, s₅, hroot, hread⟩ := bind_ok_iff.mp hread
    cases hread
    obtain ⟨hlen, rfl⟩ := takeBytes_length_mod hbs
    rw [takeNat_leBytes] at hcount
    cases hcount
    obtain ⟨hn, hfits, rfl⟩ := hcolumn.fits_of_times (List.forall₂_refl _) htimes
    rw [takeByte_cons] at hunique
    obtain ⟨-, rfl⟩ := EStateM.Result.ok.inj hunique
    rw [takeNat_leBytes] at hroot
    obtain ⟨hroot, -⟩ := EStateM.Result.ok.inj hroot
    refine ⟨hlen, by omega, hfits, ?_⟩
    dsimp only at hroot ⊢
    omega

/-! ## Tables -/

/-- The records agree in all that the registry keeps, but for the encrypted flag. -/
structure SameRecord (a b : TableRecord) : Prop where
  tableId : a.state.tableId = b.state.tableId
  rootPage : a.state.rootPage = b.state.rootPage
  rowCount : a.state.rowCount = b.state.rowCount
  nextRowid : a.state.nextRowid = b.state.nextRowid
  name : a.state.name = b.state.name
  columns : a.state.columns = b.state.columns
  indexes : a.state.indexes = b.state.indexes

/-- The records agree in all that the registry keeps. -/
def SameTable (a b : TableRecord) : Prop := SameRecord a b ∧ a.encrypted = b.encrypted

/-- The lengths and counts of a record fit in 16 bits, and the page numbers are those of
pages. -/
structure TableFits (table : TableRecord) : Prop where
  name : (asBytes table.state.name).length < 65536
  columnCount : table.state.columns.length < 65536
  columns : ∀ col ∈ table.state.columns, ColumnFits col
  indexCount : table.state.indexes.length < 65536
  indexes : ∀ idx ∈ table.state.indexes, IndexFits idx
  rootPage : table.state.rootPage < 2 ^ 32

instance (table : TableRecord) : Decidable (TableFits table) :=
  decidable_of_iff ((asBytes table.state.name).length < 65536 ∧
    table.state.columns.length < 65536 ∧ (∀ col ∈ table.state.columns, ColumnFits col) ∧
    table.state.indexes.length < 65536 ∧ (∀ idx ∈ table.state.indexes, IndexFits idx) ∧
    table.state.rootPage < 2 ^ 32)
    ⟨fun ⟨hname, hcolumnCount, hcolumns, hindexCount, hindexes, hroot⟩ =>
      ⟨hname, hcolumnCount, hcolumns, hindexCount, hindexes, hroot⟩,
      fun h => ⟨h.name, h.columnCount, h.columns, h.indexCount, h.indexes, h.rootPage⟩⟩

theorem serializeTable_append (table : TableRecord) (s : List UInt8) : serializeTable table ++ s =
    leBytes 4 table.state.tableId.toNat ++ (leBytes 4 table.state.rootPage ++
      (leBytes 8 table.state.rowCount.toNat ++ (leBytes 8 table.state.nextRowid.toNat ++
      (leBytes 2 (asBytes table.state.name).length ++ (asBytes table.state.name ++
      (leBytes 2 table.state.columns.length ++ (table.state.columns.flatMap serializeColumn ++
      (leBytes 2 table.state.indexes.length ++ (table.state.indexes.flatMap serializeIndex ++
      ((if table.encrypted then 1 else 0) :: s)))))))))) := by
  unfold serializeTable serializeName serializeBytes flag
  simp only [List.append_assoc, List.cons_append, List.nil_append]

theorem ofNat_mod_32 (w : UInt32) : UInt32.ofNat (w.toNat % 256 ^ 4) = w := by
  rw [Nat.mod_eq_of_lt (show _ < 256 ^ 4 from w.toNat_lt), UInt32.ofNat_toNat]

theorem ofNat_mod_64 (w : UInt64) : UInt64.ofNat (w.toNat % 256 ^ 8) = w := by
  rw [Nat.mod_eq_of_lt (show _ < 256 ^ 8 from w.toNat_lt), UInt64.ofNat_toNat]

theorem takeEncrypted_cons (b : Bool) (s : List UInt8) :
    takeEncrypted ((if b then 1 else 0) :: s) = .ok b s := by
  cases b <;> rfl

theorem deserializeTable_ok {table : TableRecord} (hfits : TableFits table) :
    ∃ table', SameTable table table' ∧
      deserializeTable (serializeTable table ++ s) = .ok table' s := by
  obtain ⟨columns, hcolumns, htimes⟩ := readsBack_column.times_ok
    (s := leBytes 2 table.state.indexes.length ++ (table.state.indexes.flatMap serializeIndex ++
      ((if table.encrypted then 1 else 0) :: s))) hfits.columns
  obtain ⟨indexes, hindexes, htimes'⟩ := readsBack_index.times_ok
    (s := (if table.encrypted then 1 else 0) :: s) hfits.indexes
  rw [List.forall₂_eq_eq_eq] at hcolumns hindexes
  subst hcolumns hindexes
  have hroot : table.state.rootPage % 256 ^ 4 = table.state.rootPage :=
    Nat.mod_eq_of_lt hfits.rootPage
  refine ⟨⟨{ TableMeta.new table.state.name table.state.tableId table.state.columns
      table.state.rootPage with
    rowCount := table.state.rowCount
    nextRowid := table.state.nextRowid
    indexes := table.state.indexes }, table.encrypted⟩, ⟨⟨rfl, rfl, rfl, rfl, rfl, rfl, rfl⟩, rfl⟩,
    ?_⟩
  rw [serializeTable_append]
  unfold deserializeTable
  rw [run_bind_ok (need_ok (by simp only [List.length_append, length_leBytes]; omega)),
    run_bind_ok (takeNat_leBytes 4 _ _), run_bind_ok (takeNat_leBytes 4 _ _),
    run_bind_ok (takeNat_leBytes 8 _ _), run_bind_ok (takeNat_leBytes 8 _ _),
    run_bind_ok (need_ok (by simp)), run_bind_ok (takeNat_leBytes 2 _ _),
    Nat.mod_eq_of_lt (show _ < 256 ^ 2 from hfits.name), run_bind_ok (need_ok (by simp)),
    run_bind_ok (takeBytes_append _ _), run_bind_ok (lift_ok_iff.mpr ⟨utf8_iff.mpr rfl, rfl⟩),
    run_bind_ok (need_ok (by simp)), run_bind_ok (takeNat_leBytes 2 _ _),
    Nat.mod_eq_of_lt (show _ < 256 ^ 2 from hfits.columnCount), run_bind_ok htimes]
  dsimp only
  rw [run_bind_ok (need_ok (by simp)), run_bind_ok (takeNat_leBytes 2 _ _),
    Nat.mod_eq_of_lt (show _ < 256 ^ 2 from hfits.indexCount), run_bind_ok htimes',
    run_bind_ok (takeEncrypted_cons _ _), ofNat_mod_32, ofNat_mod_64, ofNat_mod_64, hroot]
  rfl

theorem fits_of_deserializeTable {table table' : TableRecord} (hsame : SameRecord table table')
    (hread : deserializeTable (serializeTable table ++ s) = .ok table' t) : TableFits table := by
  rw [serializeTable_append] at hread
  unfold deserializeTable at hread
  rw [run_bind_ok (need_ok (by simp only [List.length_append, length_leBytes]; omega)),
    run_bind_ok (takeNat_leBytes 4 _ _), run_bind_ok (takeNat_leBytes 4 _ _),
    run_bind_ok (takeNat_leBytes 8 _ _), run_bind_ok (takeNat_leBytes 8 _ _),
    run_bind_ok (need_ok (by simp)), run_bind_ok (takeNat_leBytes 2 _ _)] at hread
  obtain ⟨-, hread⟩ := bind_need_iff.mp hread
  obtain ⟨bs, s₁, hbs, hread⟩ := bind_ok_iff.mp hread
  obtain ⟨name, hname, hread⟩ := bind_lift_iff.mp hread
  rw [utf8_iff.mp hname] at hbs
  obtain ⟨-, hread⟩ := bind_need_iff.mp hread
  obtain ⟨numColumns, s₂, hcount, hread⟩ := bind_ok_iff.mp hread
  obtain ⟨columns, s₃, hcolumns, hread⟩ := bind_ok_iff.mp hread
  obtain ⟨-, hread⟩ := bind_need_iff.mp hread
  obtain ⟨numIndexes, s₄, hcount', hread⟩ := bind_ok_iff.mp hread
  obtain ⟨indexes, s₅, hindexes, hread⟩ := bind_ok_iff.mp hread
  obtain ⟨encrypted, s₆, -, hread⟩ := bind_ok_iff.mp hread
  obtain ⟨rfl, -⟩ := EStateM.Result.ok.inj hread
  have hname' : table.state.name = name := hsame.name
  have hcolumns' : table.state.columns = columns := hsame.columns
  have hindexes' : table.state.indexes = indexes := hsame.indexes
  have hroot : table.state.rootPage = table.state.rootPage % 256 ^ 4 := hsame.rootPage
  subst hname' hcolumns' hindexes'
  obtain ⟨hlen, rfl⟩ := takeBytes_length_mod hbs
  rw [takeNat_leBytes] at hcount
  obtain ⟨rfl, rfl⟩ := EStateM.Result.ok.inj hcount
  obtain ⟨hn, hfits, rfl⟩ := readsBack_column.fits_of_times (List.forall₂_refl _) hcolumns
  rw [takeNat_leBytes] at hcount'
  obtain ⟨rfl, rfl⟩ := EStateM.Result.ok.inj hcount'
  obtain ⟨hn', hfits', rfl⟩ := readsBack_index.fits_of_times (List.forall₂_refl _) hindexes
  exact ⟨hlen, by omega, hfits, by omega, hfits', by omega⟩

theorem readsBack_table : ReadsBack deserializeTable serializeTable SameTable TableFits where
  read_ok _ _ hfits := deserializeTable_ok hfits
  fits_of_read _ _ _ _ hsame hread := fits_of_deserializeTable hsame.1 hread

theorem readsBack_record : ReadsBack deserializeTable serializeTable SameRecord TableFits where
  read_ok _ _ hfits := by
    obtain ⟨table', hsame, hread⟩ := deserializeTable_ok hfits
    exact ⟨table', hsame.1, hread⟩
  fits_of_read _ _ _ _ hsame hread := fits_of_deserializeTable hsame hread

/-! ## The stream -/

/-- The number of tables fits in 16 bits, and every record fits. -/
def RegistryFits (tables : List TableRecord) : Prop :=
  tables.length < 65536 ∧ ∀ table ∈ tables, TableFits table

instance (tables : List TableRecord) : Decidable (RegistryFits tables) :=
  inferInstanceAs (Decidable (_ ∧ _))

variable {tables tables' : List TableRecord} {next next' : UInt32}

/-- A registry that fits is read back, whatever stands behind it. -/
theorem deserializeSystemMetas_ok (next : UInt32) (hfits : RegistryFits tables) :
    ∃ tables', List.Forall₂ SameTable tables tables' ∧
      deserializeSystemMetas (serializeSystemMetas tables next ++ s) = .ok (tables', next) s := by
  obtain ⟨tables', hsame, htimes⟩ := readsBack_table.times_ok (s := s) hfits.2
  refine ⟨tables', hsame, ?_⟩
  unfold deserializeSystemMetas serializeSystemMetas
  simp only [List.append_assoc]
  rw [run_bind_ok (need_ok (by simp)), run_bind_ok (takeNat_leBytes 4 _ _),
    Nat.mod_eq_of_lt (show systemPageMagic < 256 ^ 4 by decide), if_neg (by simp),
    run_bind_ok (need_ok (by simp)), run_bind_ok (takeNat_leBytes 4 _ _),
    run_bind_ok (need_ok (by simp)), run_bind_ok (takeNat_leBytes 2 _ _),
    Nat.mod_eq_of_lt (show _ < 256 ^ 2 from hfits.1), run_bind_ok htimes,
    ofNat_mod_32]
  rfl

/-- What is read back fits, and nothing behind it is read. -/
theorem fits_of_deserializeSystemMetas (hsame : List.Forall₂ SameRecord tables tables')
    (hread : deserializeSystemMetas (serializeSystemMetas tables next ++ s) =
      .ok (tables', next') t) : RegistryFits tables ∧ t = s := by
  unfold deserializeSystemMetas serializeSystemMetas at hread
  simp only [List.append_assoc] at hread
  rw [run_bind_ok (need_ok (by simp)), run_bind_ok (takeNat_leBytes 4 _ _),
    Nat.mod_eq_of_lt (show systemPageMagic < 256 ^ 4 by decide), if_neg (by simp),
    run_bind_ok (need_ok (by simp)), run_bind_ok (takeNat_leBytes 4 _ _),
    run_bind_ok (need_ok (by simp)), run_bind_ok (takeNat_leBytes 2 _ _)] at hread
  obtain ⟨tables', u, htimes, hread⟩ := bind_ok_iff.mp hread
  obtain ⟨heq, rfl⟩ := EStateM.Result.ok.inj hread
  obtain ⟨rfl, -⟩ := Prod.mk.inj heq
  obtain ⟨hn, hfits, rfl⟩ := readsBack_record.fits_of_times hsame htimes
  exact ⟨⟨by omega, hfits⟩, rfl⟩

theorem SameRecord.trans {a b c : TableRecord} (h : SameRecord a b) (h' : SameRecord b c) :
    SameRecord a c where
  tableId := h.tableId.trans h'.tableId
  rootPage := h.rootPage.trans h'.rootPage
  rowCount := h.rowCount.trans h'.rowCount
  nextRowid := h.nextRowid.trans h'.nextRowid
  name := h.name.trans h'.name
  columns := h.columns.trans h'.columns
  indexes := h.indexes.trans h'.indexes

end

/-! ## A stream cut short -/

/-- What reads a stream reads the same where the stream goes on. -/
def ReadsOn (read : StreamReader α) : Prop :=
  ∀ s a s' u, read s = .ok a s' → read (s ++ u) = .ok a (s' ++ u)

namespace ReadsOn

variable {x : StreamReader α} {f : α → StreamReader β}

theorem bind (hx : ReadsOn x) (hf : ∀ a, ReadsOn (f a)) : ReadsOn (x >>= f) := by
  intro s b s' u h
  obtain ⟨a, t, ha, hb⟩ := bind_ok_iff.mp h
  rw [run_bind_ok (hx s a t u ha)]
  exact hf a t b s' u hb

theorem pure (a : α) : ReadsOn (Pure.pure a : StreamReader α) := by
  intro s b s' u h
  cases h
  rfl

theorem lift (r : Result α) : ReadsOn (liftM r : StreamReader α) := by
  intro s a s' u h
  obtain ⟨hr, rfl⟩ := lift_ok_iff.mp h
  exact lift_ok_iff.mpr ⟨hr, rfl⟩

theorem need (n : ℕ) (msg : String) : ReadsOn (need n msg) := by
  intro s _ s' u h
  obtain ⟨hn, rfl⟩ := need_iff.mp h
  exact need_ok (by rw [List.length_append]; omega)

theorem takeBytes (n : ℕ) : ReadsOn (takeBytes n) := by
  intro s bs s' u h
  obtain ⟨hlen, rfl⟩ := takeBytes_iff.mp h
  exact takeBytes_iff.mpr ⟨hlen, List.append_assoc ..⟩

theorem takeNat (n : ℕ) : ReadsOn (takeNat n) := bind (takeBytes n) fun _ => pure _

theorem takeByte : ReadsOn takeByte := bind (takeBytes 1) fun _ => pure _

theorem times (hx : ReadsOn x) (n : ℕ) : ReadsOn (times x n) := by
  induction n with
  | zero => exact pure []
  | succ n ih => exact bind hx fun a => bind ih fun l => pure (a :: l)

theorem deserializeDefault : ReadsOn deserializeDefault := by
  unfold BoogyDb.deserializeDefault
  refine bind (need _ _) fun _ => bind takeByte fun hasDefault => ?_
  split
  · exact pure none
  · exact bind (need _ _) fun _ => bind (takeNat _) fun _ => bind (need _ _) fun _ =>
      bind (takeBytes _) fun _ => bind (lift _) fun _ => pure _

theorem deserializeColumn : ReadsOn deserializeColumn := by
  unfold BoogyDb.deserializeColumn
  exact bind (need _ _) fun _ => bind (takeNat _) fun _ => bind (need _ _) fun _ =>
    bind (takeBytes _) fun _ => bind (lift _) fun _ => bind takeByte fun _ =>
    bind takeByte fun _ => bind takeByte fun _ => bind (need _ _) fun _ => bind takeByte fun _ =>
    bind deserializeDefault fun _ => bind (lift _) fun _ => pure _

theorem deserializeIndex : ReadsOn deserializeIndex := by
  have hcolumn (short long bad : String) : ReadsOn (do
      BoogyDb.need 2 short
      let len ← BoogyDb.takeNat 2
      BoogyDb.need len long
      let bs ← BoogyDb.takeBytes len
      utf8 bad bs) :=
    bind (need _ _) fun _ => bind (takeNat _) fun _ => bind (need _ _) fun _ =>
      bind (takeBytes _) fun _ => lift _
  unfold BoogyDb.deserializeIndex
  exact bind (need _ _) fun _ => bind (takeNat _) fun _ => bind (need _ _) fun _ =>
    bind (takeBytes _) fun _ => bind (lift _) fun _ => bind (need _ _) fun _ =>
    bind (takeNat _) fun _ => bind (times (hcolumn _ _ _) _) fun _ => bind (need _ _) fun _ =>
    bind takeByte fun _ => bind (need _ _) fun _ => bind (takeNat _) fun _ => pure _

end ReadsOn

/-- Where the stream goes on, the same is read, or a flag that was missing at its end. -/
def ReadsOnButFlag (read : StreamReader α) (same : α → α → Prop) : Prop :=
  ∀ s a s' u, read s = .ok a s' → ∃ a' v, same a a' ∧ read (s ++ u) = .ok a' v ∧
    (v = s' ++ u ∨ s' = [] ∧ v = u.drop 1)

section

variable {x : StreamReader α} {f : α → StreamReader β} {same : β → β → Prop}

theorem ReadsOnButFlag.bind (hx : ReadsOn x) (hf : ∀ a, ReadsOnButFlag (f a) same) :
    ReadsOnButFlag (x >>= f) same := by
  intro s b s' u h
  obtain ⟨a, t, ha, hb⟩ := bind_ok_iff.mp h
  rw [run_bind_ok (hx s a t u ha)]
  exact hf a t b s' u hb

theorem readsOnButFlag_flag (state : TableMeta) : ReadsOnButFlag (do
    let encrypted ← takeEncrypted
    pure ⟨state, encrypted⟩) SameRecord := by
  intro s a s' u h
  obtain ⟨rfl, rfl⟩ := EStateM.Result.ok.inj h
  refine ⟨⟨state, (s ++ u).headD 0 != 0⟩, (s ++ u).drop 1, ⟨rfl, rfl, rfl, rfl, rfl, rfl, rfl⟩,
    rfl, ?_⟩
  cases s with
  | nil => exact .inr ⟨rfl, rfl⟩
  | cons b s => exact .inl rfl

theorem readsOnButFlag_table : ReadsOnButFlag deserializeTable SameRecord := by
  unfold deserializeTable
  exact .bind (.need _ _) fun _ => .bind (.takeNat _) fun _ => .bind (.takeNat _) fun _ =>
    .bind (.takeNat _) fun _ => .bind (.takeNat _) fun _ => .bind (.need _ _) fun _ =>
    .bind (.takeNat _) fun _ => .bind (.need _ _) fun _ => .bind (.takeBytes _) fun _ =>
    .bind (.lift _) fun _ => .bind (.need _ _) fun _ => .bind (.takeNat _) fun _ =>
    .bind (.times .deserializeColumn _) fun _ => .bind (.need _ _) fun _ =>
    .bind (.takeNat _) fun _ => .bind (.times .deserializeIndex _) fun _ =>
    readsOnButFlag_flag _

theorem readsOnButFlag_tables (n : ℕ) :
    ReadsOnButFlag (times deserializeTable n) (List.Forall₂ SameRecord) := by
  induction n with
  | zero =>
      intro s l s' u h
      cases h
      exact ⟨[], s ++ u, .nil, rfl, .inl rfl⟩
  | succ n ih =>
      intro s l s' u h
      obtain ⟨a, t, ha, hrest⟩ := bind_ok_iff.mp h
      obtain ⟨l, t', hl, hpure⟩ := bind_ok_iff.mp hrest
      cases hpure
      obtain ⟨a', v, hsame, ha', hv⟩ := readsOnButFlag_table s a t u ha
      rcases hv with rfl | ⟨rfl, rfl⟩
      · obtain ⟨l', v', hsame', hl', hv'⟩ := ih t l s' u hl
        refine ⟨a' :: l', v', .cons hsame hsame', ?_, hv'⟩
        rw [times, run_bind_ok ha', run_bind_ok hl']
        rfl
      · -- a stream at its end holds no more tables
        cases n with
        | zero =>
            cases hl
            refine ⟨[a'], u.drop 1, .cons hsame .nil, ?_, .inr ⟨rfl, rfl⟩⟩
            rw [times, run_bind_ok ha']
            rfl
        | succ n =>
            obtain ⟨b, w, hb, -⟩ := bind_ok_iff.mp hl
            unfold deserializeTable at hb
            obtain ⟨hneed, -⟩ := bind_need_iff.mp hb
            simp at hneed

theorem readsOnButFlag_metas :
    ReadsOnButFlag deserializeSystemMetas fun a b => List.Forall₂ SameRecord a.1 b.1 := by
  unfold deserializeSystemMetas
  refine .bind (.need _ _) fun _ => .bind (.takeNat _) fun _ => ?_
  split
  · intro s a s' u h
    cases h
  · refine .bind (.need _ _) fun _ => .bind (.takeNat _) fun next => .bind (.need _ _) fun _ =>
      .bind (.takeNat _) fun n => ?_
    intro s a s' u h
    obtain ⟨l, t, hl, hpure⟩ := bind_ok_iff.mp h
    cases hpure
    obtain ⟨l', v, hsame, hl', hv⟩ := readsOnButFlag_tables n s l s' u hl
    refine ⟨(l', UInt32.ofNat next), v, hsame, ?_, hv⟩
    rw [run_bind_ok hl']
    rfl

theorem forall₂_trans {a b c : List TableRecord} (h : List.Forall₂ SameRecord a b)
    (h' : List.Forall₂ SameRecord b c) : List.Forall₂ SameRecord a c := by
  induction h generalizing c with
  | nil => exact h'
  | cons hab _ ih =>
      obtain _ | ⟨hbc, hrest⟩ := h'
      exact .cons (hab.trans hbc) (ih hrest)

/-- The stream of a registry cannot be read without its last two bytes. -/
theorem length_cut_le {tables tables' : List TableRecord} {next next' : UInt32}
    {s s' u : List UInt8} (hcut : s ++ u = serializeSystemMetas tables next)
    (hread : deserializeSystemMetas s = .ok (tables', next') s')
    (hsame : List.Forall₂ SameRecord tables tables') : u.length ≤ 1 := by
  obtain ⟨⟨tables'', next''⟩, v, hsame', hread', hv⟩ := readsOnButFlag_metas s _ s' u hread
  rw [hcut, ← List.append_nil (serializeSystemMetas tables next)] at hread'
  obtain ⟨-, rfl⟩ := fits_of_deserializeSystemMetas (forall₂_trans hsame hsame') hread'
  rcases hv with hv | ⟨-, hv⟩
  · rw [(List.append_eq_nil_iff.mp hv.symm).2]
    simp
  · have hlen := congrArg List.length hv
    rw [List.length_nil, List.length_drop] at hlen
    omega

end

end BoogyDb

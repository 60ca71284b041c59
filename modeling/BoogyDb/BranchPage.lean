import BoogyDb.File
import BoogyDb.Lib.Except
import BoogyDb.Lib.FencedTree

/-!
# Branch pages

A branch page is `num_keys` fixed-size entries `[child:4][key]` followed by a
last child.  The table tree keeps 8-byte row ids and the index tree a length and
up to 36 bytes of the key; everything else about branch pages is the same in
`btree.rs` and `index.rs`, and is written here over a `BranchFormat`.

A format may lose information: reading a key back gives `norm` of what was
written.  `branchPage` is the page with given children and keys.
-/

namespace BoogyDb

open Bytes

/-- How keys are kept in branch entries. -/
structure BranchFormat (κ : Type) where
  keySize : ℕ
  encode : κ → List UInt8
  readKey : List UInt8 → ℕ → Result κ
  /-- What is read back of a key. -/
  norm : κ → κ
  length_encode : ∀ key, (encode key).length = keySize
  encode_norm : ∀ key, encode (norm key) = encode key
  readKey_encode : ∀ data off key, off + keySize ≤ data.length →
    slice data off (off + keySize) = encode key → readKey data off = .ok (norm key)

namespace BranchFormat

variable {κ : Type} (fmt : BranchFormat κ)

/-- `BRANCH_ENTRY_SIZE`. -/
def entrySize : ℕ := 4 + fmt.keySize

/-- The keys a branch page has room for. -/
def maxKeys : ℕ := (pageSize - pageHeaderSize - 4 - checksumSize) / fmt.entrySize

/-! ## Reading -/

def getBranchChild (page : Page) (idx : ℕ) : Result ℕ :=
  readU32 page.data (pageHeaderSize + idx * fmt.entrySize)

def getBranchKey (page : Page) (idx : ℕ) : Result κ :=
  fmt.readKey page.data (pageHeaderSize + idx * fmt.entrySize + 4)

section

variable [LinearOrder κ]

/-- The loop of `find_child` over the entries `idxs`. -/
def findChildLoop (page : Page) (key : κ) (numKeys : ℕ) : List ℕ → Result (ℕ × ℕ)
  | [] => do
      let child ← fmt.getBranchChild page numKeys
      pure (numKeys, child)
  | i :: idxs => do
      let branchKey ← fmt.getBranchKey page i
      if key < branchKey then
        let child ← fmt.getBranchChild page i
        pure (i, child)
      else findChildLoop page key numKeys idxs

/-- The child to follow for `key`: the one before the first larger branch key. -/
def findChild (page : Page) (key : κ) : Result (ℕ × ℕ) :=
  fmt.findChildLoop page key page.numRows (List.range page.numRows)

end

def collectBranchFlat (page : Page) : Result (List ℕ × List κ) := do
  let children ← (List.range page.numRows).mapM (fmt.getBranchChild page)
  let keys ← (List.range page.numRows).mapM (fmt.getBranchKey page)
  let last ← fmt.getBranchChild page page.numRows
  pure (children ++ [last], keys)

/-! ## Writing -/

def writeBranchEntry (page : Page) (idx child : ℕ) (key : κ) : Result Page := do
  let page ← page.copyFromSlice (pageHeaderSize + idx * fmt.entrySize) (leBytes 4 child)
  page.copyFromSlice (pageHeaderSize + idx * fmt.entrySize + 4) (fmt.encode key)

def setBranchChild (page : Page) (idx child : ℕ) : Result Page :=
  page.copyFromSlice (pageHeaderSize + idx * fmt.entrySize) (leBytes 4 child)

/-- `list[idx]`. -/
def index {α : Type} (list : List α) (idx : ℕ) : Result α :=
  match list[idx]? with
  | some a => .ok a
  | none => panic

/-- `Vec::insert`. -/
def vecInsert {α : Type} (list : List α) (idx : ℕ) (a : α) : Result (List α) :=
  if idx ≤ list.length then .ok (list.insertIdx idx a) else panic

/-- The entries `idx, idx + 1, …` of a rebuilt page. -/
def writeEntries (children : List ℕ) (page : Page) (idx : ℕ) : List κ → Result Page
  | [] => do
      let child ← index children idx
      fmt.setBranchChild page idx child
  | key :: keys => do
      let child ← index children idx
      let page ← fmt.writeBranchEntry page idx child key
      writeEntries children page (idx + 1) keys

def rebuildBranchFlat (page : Page) (children : List ℕ) (keys : List κ) : Result Page :=
  fmt.writeEntries children ((page.setFlags pageBranch).setNumRows keys.length).clearBody 0 keys

def insertBranchEntry (page : Page) (childIdx : ℕ) (key : κ) (newChild : ℕ) : Result Page := do
  let (children, keys) ← fmt.collectBranchFlat page
  let newKeys ← vecInsert keys childIdx key
  let newChildren ← vecInsert children (childIdx + 1) newChild
  let page ← fmt.rebuildBranchFlat page newChildren newKeys
  pure (page.setNumRows newKeys.length)

/-! ## The layout -/

/-- Entries for the keys, and the last child. -/
def branchBody : List ℕ → List κ → List UInt8
  | [], _ => []
  | child :: _, [] => leBytes 4 child
  | child :: children, key :: keys =>
      leBytes 4 child ++ (fmt.encode key ++ branchBody children keys)

def branchHeader (keys : List κ) : Header := ⟨magicNumber, pageBranch, keys.length, 0, 0, 0⟩

/-- The branch page with these children and keys. -/
def branchPage [Crc32Fast] (children : List ℕ) (keys : List κ) : Page :=
  pageOf (branchHeader keys) (fmt.branchBody children keys)

/-- Children and keys a branch page can hold: one child more than keys, within
the page, children of 32 bits and keys as they are read back. -/
structure BranchFits (children : List ℕ) (keys : List κ) : Prop where
  length_eq : children.length = keys.length + 1
  length_le : keys.length ≤ fmt.maxKeys
  lt_limit : ∀ child ∈ children, child < pageNoLimit
  norm_eq : ∀ key ∈ keys, fmt.norm key = key

variable {fmt} {children : List ℕ} {keys : List κ}

theorem norm_norm (fmt : BranchFormat κ) (key : κ) : fmt.norm (fmt.norm key) = fmt.norm key := by
  have hread := fmt.readKey_encode (fmt.encode key) 0
  have hlen := fmt.length_encode key
  have hslice : slice (fmt.encode key) 0 (0 + fmt.keySize) = fmt.encode key := by
    rw [Nat.zero_add, ← hlen, slice_zero_length]
  have h := hread key (by omega) hslice
  rw [hread (fmt.norm key) (by omega) (by rw [hslice, fmt.encode_norm])] at h
  exact Except.ok.inj h

theorem branchBody_map_norm (children : List ℕ) (keys : List κ) :
    fmt.branchBody children (keys.map fmt.norm) = fmt.branchBody children keys := by
  induction children generalizing keys with
  | nil => rfl
  | cons child children ih =>
      cases keys with
      | nil => rfl
      | cons key keys => rw [List.map_cons, branchBody, branchBody, fmt.encode_norm, ih]

theorem branchPage_map_norm [Crc32Fast] (children : List ℕ) (keys : List κ) :
    fmt.branchPage children (keys.map fmt.norm) = fmt.branchPage children keys := by
  rw [branchPage, branchPage, branchBody_map_norm, branchHeader, branchHeader, List.length_map]

theorem length_branchBody (h : children.length = keys.length + 1) :
    (fmt.branchBody children keys).length = keys.length * fmt.entrySize + 4 := by
  induction children generalizing keys with
  | nil => simp at h
  | cons child children ih =>
      cases keys with
      | nil => simp [branchBody]
      | cons key keys =>
          rw [List.length_cons, List.length_cons] at h
          rw [branchBody, List.length_append, List.length_append, length_leBytes,
            fmt.length_encode, ih (by omega), List.length_cons, Nat.succ_mul, entrySize]
          omega

/-- What stands before entry `i`, and entry `i`. -/
theorem branchBody_split (h : children.length = keys.length + 1) {i : ℕ} (hi : i < keys.length) :
    ∃ pre, pre.length = i * fmt.entrySize ∧
      fmt.branchBody children keys = pre ++ (leBytes 4 (getElem children i (by omega)) ++
        (fmt.encode keys[i] ++ fmt.branchBody (children.drop (i + 1)) (keys.drop (i + 1)))) := by
  induction i generalizing children keys with
  | zero =>
      obtain ⟨child, children, rfl⟩ := List.exists_cons_of_length_eq_add_one h
      obtain ⟨key, keys, rfl⟩ := List.exists_cons_of_length_pos hi
      exact ⟨[], by simp, rfl⟩
  | succ i ih =>
      obtain ⟨child, children, rfl⟩ := List.exists_cons_of_length_eq_add_one h
      obtain ⟨key, keys, rfl⟩ := List.exists_cons_of_length_pos (Nat.zero_lt_of_lt hi)
      rw [List.length_cons, List.length_cons] at h
      rw [List.length_cons] at hi
      obtain ⟨pre, hpre, hbody⟩ := ih (Nat.succ_injective h) (Nat.lt_of_succ_lt_succ hi)
      refine ⟨leBytes 4 child ++ fmt.encode key ++ pre, ?_, ?_⟩
      · rw [List.length_append, List.length_append, length_leBytes, fmt.length_encode, hpre,
          Nat.succ_mul, entrySize]
        omega
      · rw [branchBody, hbody]
        simp

theorem branchBody_last (h : children.length = keys.length + 1) :
    ∃ pre, pre.length = keys.length * fmt.entrySize ∧
      fmt.branchBody children keys =
        pre ++ leBytes 4 (getElem children keys.length (by omega)) := by
  induction keys generalizing children with
  | nil =>
      obtain ⟨child, children, rfl⟩ := List.exists_cons_of_length_eq_add_one h
      exact ⟨[], by simp, rfl⟩
  | cons key keys ih =>
      obtain ⟨child, children, rfl⟩ := List.exists_cons_of_length_eq_add_one h
      rw [List.length_cons, List.length_cons] at h
      obtain ⟨pre, hpre, hbody⟩ := ih (Nat.succ_injective h)
      refine ⟨leBytes 4 child ++ fmt.encode key ++ pre, ?_, ?_⟩
      · rw [List.length_append, List.length_append, length_leBytes, fmt.length_encode, hpre,
          List.length_cons, Nat.succ_mul, entrySize]
        omega
      · rw [branchBody, hbody]
        simp

/-! ## Reading a branch page -/

section

theorem entrySize_pos (fmt : BranchFormat κ) : 0 < fmt.entrySize := by
  rw [entrySize]
  omega

theorem maxKeys_mul_le (fmt : BranchFormat κ) :
    fmt.maxKeys * fmt.entrySize + 4 ≤ payloadSize := by
  have h := Nat.div_mul_le_self (pageSize - pageHeaderSize - 4 - checksumSize) fmt.entrySize
  rw [maxKeys]
  simp only [pageSize, pageHeaderSize, checksumSize, payloadSize] at *
  omega

theorem length_mul_le (hlen : keys.length ≤ fmt.maxKeys) :
    keys.length * fmt.entrySize + 4 ≤ payloadSize :=
  (Nat.add_le_add_right (Nat.mul_le_mul_right _ hlen) 4).trans fmt.maxKeys_mul_le

theorem BranchFits.length_branchBody_le (hfits : fmt.BranchFits children keys) :
    (fmt.branchBody children keys).length ≤ payloadSize := by
  rw [length_branchBody hfits.length_eq]
  exact length_mul_le hfits.length_le

theorem BranchFits.numKeys_lt (hfits : fmt.BranchFits children keys) :
    keys.length < 2 ^ 16 := by
  have hle := length_mul_le hfits.length_le
  have hmul : keys.length * 1 ≤ keys.length * fmt.entrySize :=
    Nat.mul_le_mul_left _ fmt.entrySize_pos
  rw [payloadSize] at hle
  omega

variable [Crc32Fast]

theorem branchPage_lays : Lays (fmt.branchPage children keys) (branchHeader keys)
    (fmt.branchBody children keys) := Lays.pageOf

theorem isLeaf_branchPage : (fmt.branchPage children keys).isLeaf = false := by
  have hflags : (fmt.branchPage children keys).flags = 2 := branchPage_lays.flags
  rw [Page.isLeaf, hflags]
  rfl

theorem numRows_branchPage (hfits : fmt.BranchFits children keys) :
    (fmt.branchPage children keys).numRows = keys.length := by
  rw [branchPage_lays.numRows]
  exact Nat.mod_eq_of_lt hfits.numKeys_lt

/-- A field of the entries, found by what stands before it in the body. -/
theorem slice_branchPage (hfits : fmt.BranchFits children keys) {pre mid post : List UInt8}
    {off : ℕ} (hbody : fmt.branchBody children keys = pre ++ (mid ++ post))
    (hoff : off = pre.length) :
    slice (fmt.branchPage children keys).data (pageHeaderSize + off)
      (pageHeaderSize + off + mid.length) = mid := by
  have hle := hfits.length_branchBody_le
  have hlen := congrArg List.length hbody
  simp only [List.length_append] at hlen
  rw [branchPage_lays.slice_payload (Nat.le_add_right _ _) (by omega) hle]
  exact slice_eq_of_append hbody (by omega) (by omega)

theorem getBranchChild_branchPage (hfits : fmt.BranchFits children keys) {i : ℕ}
    (hi : i ≤ keys.length) :
    fmt.getBranchChild (fmt.branchPage children keys) i =
      .ok (getElem children i (by have := hfits.length_eq; omega)) := by
  have hlen := hfits.length_eq
  obtain ⟨pre, post, hpre, hbody⟩ : ∃ pre post, pre.length = i * fmt.entrySize ∧
      fmt.branchBody children keys =
        pre ++ (leBytes 4 (getElem children i (by omega)) ++ post) := by
    rcases Nat.lt_or_eq_of_le hi with hlt | heq
    · obtain ⟨pre, hpre, hbody⟩ := @branchBody_split _ fmt _ _ hlen i hlt
      exact ⟨pre, _, hpre, hbody⟩
    · subst heq
      obtain ⟨pre, hpre, hbody⟩ := @branchBody_last _ fmt _ _ hlen
      exact ⟨pre, [], hpre, by rw [List.append_nil, hbody]⟩
  have hslice := slice_branchPage hfits hbody hpre.symm
  have hend := hfits.length_branchBody_le
  have hsum := congrArg List.length hbody
  simp only [List.length_append, length_leBytes] at hsum
  rw [length_leBytes] at hslice
  rw [getBranchChild, readU32_ok, readLe, hslice, leNat_leBytes_of_lt]
  · exact hfits.lt_limit _ (List.getElem_mem _)
  · rw [Page.size, pageSize]
    simp only [pageHeaderSize, payloadSize] at *
    omega

theorem getBranchKey_branchPage (hfits : fmt.BranchFits children keys) {i : ℕ}
    (hi : i < keys.length) :
    fmt.getBranchKey (fmt.branchPage children keys) i = .ok keys[i] := by
  have hlen := hfits.length_eq
  obtain ⟨pre, hpre, hbody⟩ := @branchBody_split _ fmt _ _ hlen i hi
  rw [← List.append_assoc] at hbody
  have hoff : i * fmt.entrySize + 4 =
      (pre ++ leBytes 4 (getElem children i (by omega))).length := by
    rw [List.length_append, length_leBytes, hpre]
  have hslice := slice_branchPage hfits hbody hoff
  have hend := hfits.length_branchBody_le
  have hsum := congrArg List.length hbody
  simp only [List.length_append, length_leBytes, fmt.length_encode] at hsum
  rw [fmt.length_encode, ← Nat.add_assoc] at hslice
  rw [getBranchKey, fmt.readKey_encode _ _ keys[i] _ hslice, hfits.norm_eq _ (List.getElem_mem _)]
  rw [Page.size, pageSize]
  simp only [pageHeaderSize, payloadSize] at *
  omega

theorem collectBranchFlat_branchPage (hfits : fmt.BranchFits children keys) :
    fmt.collectBranchFlat (fmt.branchPage children keys) = .ok (children, keys) := by
  have hlen := hfits.length_eq
  have hchildren : (List.range keys.length).mapM
      (fmt.getBranchChild (fmt.branchPage children keys)) = .ok (children.take keys.length) := by
    rw [Except.mapM_range_eq_ok_iff]
    refine ⟨by rw [List.length_take]; omega, fun i hi => ?_⟩
    rw [List.length_take] at hi
    rw [getBranchChild_branchPage hfits (by omega), List.getElem_take]
  have hkeys : (List.range keys.length).mapM
      (fmt.getBranchKey (fmt.branchPage children keys)) = .ok keys := by
    rw [Except.mapM_range_eq_ok_iff]
    exact ⟨rfl, fun i hi => getBranchKey_branchPage hfits hi⟩
  rw [collectBranchFlat, numRows_branchPage hfits, hchildren, ok_bind, hkeys, ok_bind,
    getBranchChild_branchPage hfits le_rfl, ok_bind, pure_eq_ok]
  congr 2
  rw [← List.take_succ_eq_append_getElem (by omega), List.take_of_length_le (by omega)]

end

/-! ## Routing -/

section

variable [LinearOrder κ]

open FencedTree

variable [Crc32Fast]

theorem findChildLoop_branchPage (hfits : fmt.BranchFits children keys) (key : κ) {done : ℕ}
    (hdone : done ≤ childIndex keys key) :
    fmt.findChildLoop (fmt.branchPage children keys) key keys.length
        (List.range' done (keys.length - done)) =
      .ok (childIndex keys key, (getElem children (childIndex keys key) (by
        have := hfits.length_eq
        have := childIndex_le keys key
        omega))) := by
  have hle := childIndex_le keys key
  induction hrest : keys.length - done generalizing done with
  | zero =>
      have hend : childIndex keys key = keys.length := by omega
      simp only [List.range'_zero, findChildLoop]
      rw [getBranchChild_branchPage hfits le_rfl, ok_bind, pure_eq_ok]
      simp only [hend]
  | succ rest ih =>
      have hlt : done < keys.length := by omega
      rw [List.range'_succ, findChildLoop, getBranchKey_branchPage hfits hlt, ok_bind]
      rcases Nat.lt_or_eq_of_le hdone with hbefore | hat
      · -- an entry before the routed child has a separator that is not larger
        have hnot : ¬ key < keys[done] := by
          have := List.not_of_lt_findIdx hbefore
          simpa using this
        rw [if_neg hnot, ih hbefore (by omega)]
      · have hyes : key < keys[done] := by
          have hfound : childIndex keys key < keys.length := by omega
          have := @List.findIdx_getElem _ (fun k => decide (key < k)) keys hfound
          simp only [decide_eq_true_eq] at this
          simp only [hat]
          exact this
        rw [if_pos hyes, getBranchChild_branchPage hfits hlt.le, ok_bind, pure_eq_ok]
        simp only [hat]

theorem findChild_branchPage (hfits : fmt.BranchFits children keys) (key : κ) :
    fmt.findChild (fmt.branchPage children keys) key =
      .ok (childIndex keys key, (getElem children (childIndex keys key) (by
        have := hfits.length_eq
        have := childIndex_le keys key
        omega))) := by
  rw [findChild, numRows_branchPage hfits, List.range_eq_range']
  exact findChildLoop_branchPage hfits key (Nat.zero_le _)

end

/-! ## Rebuilding a branch page -/

section

variable {page : Page} {h : Header}

theorem index_ok {α : Type} {list : List α} {i : ℕ} (hi : i < list.length) :
    index list i = .ok list[i] := by
  rw [index, List.getElem?_eq_getElem hi]

theorem vecInsert_ok {α : Type} {list : List α} {idx : ℕ} {a : α} (h : idx ≤ list.length) :
    vecInsert list idx a = .ok (list.insertIdx idx a) := if_pos h

/-- One field more at the end of the body. -/
theorem copyFromSlice_lays {body src : List UInt8} {off : ℕ} (hpage : Lays page h body)
    (hoff : off = pageHeaderSize + body.length) (hle : body.length + src.length ≤ payloadSize) :
    ∃ page', page.copyFromSlice off src = .ok page' ∧ Lays page' h (body ++ src) := by
  refine ⟨page.write off src, if_pos ?_, hpage.write_payload ?_ ?_ ?_⟩
  · simp only [pageHeaderSize, payloadSize, pageSize] at *
    omega
  · omega
  · omega
  · rw [hoff, Nat.add_sub_cancel_left, blit_pad_end hle]

theorem writeEntries_lays {body : List UInt8} {idx : ℕ} (hpage : Lays page h body)
    (hbody : body.length = idx * fmt.entrySize)
    (hlen : children.length = idx + keys.length + 1)
    (hle : (idx + keys.length) * fmt.entrySize + 4 ≤ payloadSize) :
    ∃ page', fmt.writeEntries children page idx keys = .ok page' ∧
      Lays page' h (body ++ fmt.branchBody (children.drop idx) keys) := by
  induction keys generalizing page body idx with
  | nil =>
      simp only [List.length_nil, Nat.add_zero] at hlen hle
      obtain ⟨page', hcopy, hpage'⟩ := @copyFromSlice_lays _ _ _ (leBytes 4 children[idx])
        (pageHeaderSize + idx * fmt.entrySize) hpage (by omega) (by rw [length_leBytes]; omega)
      refine ⟨page', ?_, ?_⟩
      · rw [writeEntries, index_ok (by omega), ok_bind, setBranchChild, hcopy]
      · rw [List.drop_eq_getElem_cons (by omega)]
        exact hpage'
  | cons key keys ih =>
      rw [List.length_cons] at hlen hle
      have hroom : (idx + 1) * fmt.entrySize ≤ (idx + (keys.length + 1)) * fmt.entrySize :=
        Nat.mul_le_mul_right _ (by omega)
      rw [Nat.succ_mul] at hroom
      have hentry : fmt.entrySize = 4 + fmt.keySize := rfl
      obtain ⟨page₁, hcopy₁, hpage₁⟩ := @copyFromSlice_lays _ _ _ (leBytes 4 children[idx])
        (pageHeaderSize + idx * fmt.entrySize) hpage (by omega) (by rw [length_leBytes]; omega)
      obtain ⟨page₂, hcopy₂, hpage₂⟩ := @copyFromSlice_lays _ _ _ (fmt.encode key)
        (pageHeaderSize + idx * fmt.entrySize + 4) hpage₁
        (by rw [List.length_append, length_leBytes]; omega)
        (by rw [List.length_append, length_leBytes, fmt.length_encode]; omega)
      obtain ⟨page', hrest, hpage'⟩ := @ih page₂ _ (idx + 1) hpage₂
        (by simp only [List.length_append, length_leBytes, fmt.length_encode, hbody, Nat.succ_mul]
            omega)
        (by omega) (by rwa [Nat.add_right_comm, Nat.add_assoc])
      refine ⟨page', ?_, ?_⟩
      · rw [writeEntries, index_ok (by omega), ok_bind, writeBranchEntry, hcopy₁, ok_bind, hcopy₂,
          ok_bind, hrest]
      · rw [List.drop_eq_getElem_cons (by omega), branchBody]
        simpa only [List.append_assoc] using hpage'

/-- **A rebuilt branch page has exactly the given children and keys.** -/
theorem rebuildBranchFlat_lays {body : List UInt8} (hpage : Lays page h body)
    (hlen : children.length = keys.length + 1) (hle : keys.length ≤ fmt.maxKeys) :
    ∃ page', fmt.rebuildBranchFlat page children keys = .ok page' ∧
      Lays page' { h with flags := pageBranch, numRows := keys.length }
        (fmt.branchBody children keys) := by
  have hclear := ((hpage.setFlags pageBranch).setNumRows keys.length).clearBody
  exact @writeEntries_lays _ fmt children keys _ _ [] 0 hclear (by simp) (by omega)
    (by rw [Nat.zero_add]; exact length_mul_le hle)

variable [Crc32Fast] {children₀ : List ℕ} {keys₀ : List κ}

/-- Rebuilding a branch page, or a fresh one, and closing it. -/
theorem rebuildBranchFlat_branchPage (hlen : children.length = keys.length + 1)
    (hle : keys.length ≤ fmt.maxKeys) :
    ∃ page', fmt.rebuildBranchFlat (fmt.branchPage children₀ keys₀) children keys = .ok page' ∧
      Lays page' (branchHeader keys) (fmt.branchBody children keys) ∧
      page'.updateChecksum = fmt.branchPage children keys := by
  obtain ⟨page', hrebuild, hlays⟩ := rebuildBranchFlat_lays
    (@branchPage_lays _ fmt children₀ keys₀ _) hlen hle
  exact ⟨page', hrebuild, hlays, hlays.updateChecksum⟩

theorem newBranch_eq_branchPage : Page.newBranch = fmt.branchPage [] [] := newBranch_eq

/-- One separator and child more, in a branch with room. -/
theorem insertBranchEntry_branchPage (hfits : fmt.BranchFits children keys) {idx child : ℕ}
    {key : κ} (hidx : idx ≤ keys.length) (hroom : keys.length < fmt.maxKeys) :
    ∃ page', fmt.insertBranchEntry (fmt.branchPage children keys) idx key child = .ok page' ∧
      page'.updateChecksum =
        fmt.branchPage (children.insertIdx (idx + 1) child) (keys.insertIdx idx key) := by
  have hlen := hfits.length_eq
  have hkeys : (keys.insertIdx idx key).length = keys.length + 1 :=
    List.length_insertIdx_of_le_length hidx key
  have hchildren : (children.insertIdx (idx + 1) child).length = children.length + 1 :=
    List.length_insertIdx_of_le_length (by omega) child
  obtain ⟨page', hrebuild, hlays, -⟩ := @rebuildBranchFlat_branchPage _ fmt
    (children.insertIdx (idx + 1) child) (keys.insertIdx idx key) _ children keys (by omega)
    (by omega)
  refine ⟨_, ?_, (hlays.setNumRows (keys.insertIdx idx key).length).updateChecksum⟩
  rw [insertBranchEntry, collectBranchFlat_branchPage hfits, ok_bind]
  dsimp only
  rw [vecInsert_ok hidx, ok_bind, vecInsert_ok (by omega), ok_bind, hrebuild, ok_bind, pure_eq_ok]

end

end BranchFormat

end BoogyDb

import BoogyDb.TableOwners

/-!
# Row operations on the trees of a table

What the parts of a row operation do to the trees of the table, when they return.  The
insertions are watched, so a part that returns found room for its rows and keys.
-/

namespace BoogyDb

open Bytes Wp WriteGuard FencedTree Ownership BTreeWriter

section

variable {α : Type} {Q : α → Session → Prop} {s s' s'' : Session} {M M' : TableModel}
  {id : UInt64} {row : List UInt8}

theorem wp_inGuard {x : StateResult WriteGuard α} {E : Fault → Session → Prop} :
    wp (inGuard x) Q E s ↔
      wp x (fun a file => Q a { s with file }) (fun e file => E e { s with file }) s.file := by
  rw [wp, wp, inGuard]
  cases x s.file with
  | ok a file => rfl
  | error e file => rfl

/-- A run on the file, in a session. -/
theorem wlp_inGuard {x : StateResult WriteGuard α} {R : α → WriteGuard → Prop}
    (h : wlp x R s.file) :
    wlp (inGuard x) (fun a s' => s' = { s with file := s'.file } ∧ R a s'.file) s :=
  wp_inGuard.mpr (h.post fun _ _ hR => ⟨rfl, hR⟩)

theorem wlp_modifyState {Q : Unit → Session → Prop} {f : TableMeta → TableMeta} :
    wlp (modifyState f) Q s ↔ Q () { s with state := f s.state } := Iff.rfl

theorem wlp_modifyState_bind {f : TableMeta → TableMeta} {x : Unit → StateResult Session α} :
    wlp (modifyState f >>= x) Q s ↔ wlp (x ()) Q { s with state := f s.state } := Iff.rfl

/-- Only the file and the indexes' roots have changed. -/
structure Reindexed (s s' : Session) : Prop where
  eq : s' = { s with file := s'.file, state := { s.state with indexes := s'.state.indexes } }
  shapes : SameShapes s.state.indexes s'.state.indexes

theorem Reindexed.refl (s : Session) : Reindexed s s := ⟨rfl, rfl⟩

theorem Reindexed.trans (h : Reindexed s s') (h' : Reindexed s' s'') : Reindexed s s'' := by
  refine ⟨?_, Eq.trans h'.shapes h.shapes⟩
  rw [h'.eq, h.eq]

/-- The file, the log and the roots have changed. -/
structure Rewritten (s s' : Session) : Prop where
  eq : s' = { s with
    file := s'.file
    wal := s'.wal
    state := { s.state with rootPage := s'.state.rootPage, indexes := s'.state.indexes } }
  shapes : SameShapes s.state.indexes s'.state.indexes

theorem Rewritten.trans (h : Rewritten s s') (h' : Rewritten s' s'') : Rewritten s s'' := by
  refine ⟨?_, Eq.trans h'.shapes h.shapes⟩
  rw [h'.eq, h.eq]

theorem Rewritten.schema (h : Rewritten s s') : SameSchema s.state s'.state := by
  rw [h.eq]
  exact ⟨rfl, rfl, rfl, rfl, rfl, rfl, h.shapes⟩

theorem Reindexed.rewritten (h : Reindexed s s') : Rewritten s s' := by
  refine ⟨?_, h.shapes⟩
  rw [h.eq]

theorem Reindexed.schema (h : Reindexed s s') : SameSchema s.state s'.state := by
  rw [h.eq]
  exact ⟨rfl, rfl, rfl, rfl, rfl, rfl, h.shapes⟩

/-- Only the file and the log have changed, and nothing is left in the overlay. -/
structure Committed (s s' : Session) : Prop where
  eq : s' = { s with file := s'.file, wal := s'.wal }
  clean : s'.file.writeState = ⟨∅, 0⟩

theorem Committed.rewritten (h : Committed s s') : Rewritten s s' := by
  refine ⟨?_, ?_⟩
  · rw [h.eq]
  · rw [h.eq]
    rfl

/-- The indexes have followed the rows from `R` to `R'`. -/
def Follows (t t' : TableMeta) (M M' : TableModel) (R R' : UInt64 → Option (List UInt8)) : Prop :=
  IndexedBy t t.indexes M R → IndexedBy t' t'.indexes M' R'

theorem Reindexed.put (h : Reindexed s s')
    (hedit : Edited 0 s.state s.state.indexes id row false M M')
    {R : UInt64 → Option (List UInt8)} (hid : R id = none) :
    Follows s.state s'.state M M' R (Function.update R id (some row)) := fun hindexed =>
  (hindexed.put hedit hid).congr h.schema h.shapes

theorem Reindexed.remove (h : Reindexed s s')
    (hedit : Edited 0 s.state s.state.indexes id row true M M')
    {R : UInt64 → Option (List UInt8)} (hid : R id = some row) :
    Follows s.state s'.state M M' R (Function.update R id none) := fun hindexed =>
  (hindexed.remove hedit hid).congr h.schema h.shapes

end

/-! ## Index maintenance -/

section

variable [Crc32Fast] {s : Session} {root : ℕ} {M : TableModel} {P : Set ℕ} {id : UInt64}
  {row : List UInt8} {remove : Bool} {storable : UInt64 → List UInt8 → Prop}

theorem wlp_updateIndex {t : TableMeta} {idx : IndexMeta} {keys : Set (List UInt8)}
    {g : WriteGuard} (h : KeysAt idx.rootPage keys g P) :
    wlp (Session.updateIndex (.watched storable) t idx id row remove) (fun idx' g' =>
      ∃ key, indexKey t idx.columns id row = .ok key ∧ idx'.shape = idx.shape ∧
        (remove = false → ∀ k ∈ key, k ∉ keys) ∧
        Turns (KeysAt idx'.rootPage (editKeys remove key keys)) g P g') g := by
  unfold Session.updateIndex
  refine wp.bind (Q := fun key g' => indexKey t idx.columns id row = .ok key ∧ g' = g)
    (wlp_lift fun key hkey => ⟨hkey, rfl⟩) ?_
  rintro key g' ⟨hkey, rfl⟩
  cases key with
  | none => exact ⟨none, hkey, rfl, nofun, Turns.refl h⟩
  | some k =>
      cases remove with
      | true =>
          refine wp.bind (wp_delete_keysAt h) fun found g'' ⟨_, hturn⟩ => ?_
          exact ⟨some k, hkey, rfl, nofun, hturn⟩
      | false =>
          refine wp.bind (wp_insertKey_watched h) fun root' g'' ⟨hnew, hturn⟩ => ?_
          refine ⟨some k, hkey, rfl, fun _ k' hk' => ?_, hturn⟩
          rwa [← Option.some.inj hk']

/-- The loop over the indexes, from the one behind `done` on. -/
theorem wlp_indexUpdateLoop {t : TableMeta} (rest : List IndexMeta) {done : List IndexMeta}
    (ht : ∀ columns, indexKey s.state columns id row = indexKey t columns id row)
    (hs : s.state.indexes = done ++ rest) (h : TableAt root (done ++ rest) M s.file P) :
    wlp (Session.indexUpdateLoop (.watched storable) id row remove done rest) (fun _ s' =>
      Reindexed s s' ∧ ∃ M', Edited done.length t (done ++ rest) id row remove M M' ∧
        Turns (TableAt root s'.state.indexes M') s.file P s'.file) s := by
  induction rest generalizing done s M P with
  | nil =>
      refine ⟨Reindexed.refl s, M, ⟨rfl, fun i idx hi hidx => ?_, fun _ _ => rfl⟩, ?_⟩
      · rw [List.append_nil] at hidx
        exact absurd (List.getElem?_eq_some_iff.mp hidx).1 (Nat.not_lt.mpr hi)
      · rw [hs]
        exact Turns.refl h
  | cons idx rest ih =>
      have hi : (done ++ idx :: rest)[done.length]? = some idx := by simp
      obtain ⟨Q, hQ, hback⟩ := h.indexTree hi
      unfold Session.indexUpdateLoop
      refine wlp_get_bind.mpr (wp.bind (wlp_inGuard (wlp_updateIndex hQ)) ?_)
      rintro idx' s₁ ⟨hs₁, key, hkey, hshape, hnew, hturn⟩
      rw [ht] at hkey
      obtain ⟨P₁, hP₁, hthen⟩ := (hback _ _ _ hturn).next
      have hset : (done ++ idx :: rest).set done.length idx' = (done ++ [idx']) ++ rest := by simp
      rw [hset] at hP₁
      have hindexes : done ++ idx' :: rest = (done ++ [idx']) ++ rest := by simp
      refine wlp_modifyState_bind.mpr ?_
      have hs₂ : Reindexed s { s₁ with state := { s₁.state with indexes := done ++ idx' :: rest } } := by
        refine ⟨by rw [hs₁], ?_⟩
        dsimp only
        rw [hs, hindexes, ← hset]
        exact SameShapes.set hi hshape
      refine (@ih { s₁ with state := { s₁.state with indexes := done ++ idx' :: rest } } _ P₁
        (done ++ [idx']) (fun columns => ?_) hindexes hP₁).post ?_
      · rw [hs₁]
        exact ht columns
      · rintro _ s' ⟨hs', M', hedit, hturn'⟩
        refine ⟨hs₂.trans hs', M', ⟨hedit.rows, fun j idx₁ hj hidx => ?_, fun j hj => ?_⟩,
          hthen _ _ hturn'⟩
        · rcases Nat.eq_or_lt_of_le hj with rfl | hlt
          · rw [hi] at hidx
            obtain rfl := Option.some.inj hidx
            refine ⟨key, hkey, hnew, ?_⟩
            rw [hedit.others _ (by simp)]
            exact Function.update_self ..
          · obtain ⟨key', hkey', hnew', hkeys⟩ := hedit.keys j idx₁ (by
              rw [List.length_append]
              exact hlt) (by
              rw [← hset, List.getElem?_set_ne hlt.ne]
              exact hidx)
            dsimp only at hnew' hkeys
            rw [Function.update_of_ne hlt.ne'] at hnew' hkeys
            exact ⟨key', hkey', hnew', hkeys⟩
        · rw [hedit.others j (by simpa using hj.trans (Nat.lt_succ_self _))]
          exact Function.update_of_ne hj.ne ..

/-- **Index maintenance for a row** puts its keys into the indexes, or takes them out. -/
theorem wlp_indexUpdateRow (h : TableAt root s.state.indexes M s.file P) :
    wlp (Session.indexUpdateRow (.watched storable) id row remove) (fun _ s' =>
      Reindexed s s' ∧ ∃ M', Edited 0 s.state s.state.indexes id row remove M M' ∧
        Turns (TableAt root s'.state.indexes M') s.file P s'.file) s :=
  wlp_get_bind.mpr (wlp_indexUpdateLoop s.state.indexes (fun _ => rfl) rfl h)

end

/-! ## The rows and the commit -/

section

variable [Crc32Fast] {s : Session} {A : Assertion WriteGuard} {root : ℕ} {M : TableModel}
  {indexes : List IndexMeta} {P : Set ℕ} {id : UInt64} {row : List UInt8}
  {storable : UInt64 → List UInt8 → Prop}

/-- **A commit publishes the overlay** and changes nothing else. -/
theorem wlp_commitWrite [Local A] (h : A s.file P) :
    wlp commitWrite (fun _ s' => Committed s s' ∧ Turns A s.file P s'.file) s := by
  rw [wlp_iff]
  intro _ s' hrun
  unfold commitWrite commitFile at hrun
  cases hcommit : WriteGuard.commit s.file with
  | error e =>
      rw [hcommit] at hrun
      cases hrun
  | ok res =>
      obtain ⟨afterImages, file⟩ := res
      have hturn : Turns A s.file P file := turns_commit h hcommit
      have hclean : file.writeState = ⟨∅, 0⟩ := (commit_eq hcommit).2.1
      rw [hcommit] at hrun
      dsimp only at hrun
      by_cases hnone : s.durability = .none
      · rw [if_pos hnone] at hrun
        cases hrun
        exact ⟨⟨rfl, hclean⟩, hturn⟩
      · rw [if_neg hnone] at hrun
        cases hlog : logImages s.state.tableId afterImages s.wal with
        | error e wal =>
            rw [hlog] at hrun
            cases hrun
        | ok _ wal =>
            rw [hlog] at hrun
            cases hrun
            exact ⟨⟨rfl, hclean⟩, hturn⟩

theorem wlp_insertTree (h : TableAt root indexes M s.file P)
    (hstore : ∀ id row, storable id row → Storable id row) :
    wlp (inGuard ((TreeWriters.watched storable).insertRow root id row)) (fun root' s' =>
      s' = { s with file := s'.file } ∧ storable id row ∧ M.rows id = none ∧
        Turns (TableAt root' indexes { M with rows := Function.update M.rows id (some row) }) s.file P
          s'.file) s := by
  obtain ⟨Q, hQ, hback⟩ := h.rowsTree
  refine (wlp_inGuard (wp_insertRow_watched hQ hstore)).post ?_
  rintro root' s' ⟨hs', ⟨hrow, hnew⟩, hturn⟩
  exact ⟨hs', hrow, hnew, hback _ _ _ hturn⟩

theorem wlp_deleteTree (h : TableAt root indexes M s.file P) :
    wlp (inGuard (BTreeWriter.delete root id)) (fun found s' =>
      s' = { s with file := s'.file } ∧ found = (M.rows id).isSome ∧
        Turns (TableAt root indexes { M with rows := Function.update M.rows id none }) s.file P
          s'.file) s := by
  obtain ⟨Q, hQ, hback⟩ := h.rowsTree
  refine (wlp_inGuard (wp_delete_rowsAt hQ)).post ?_
  rintro found s' ⟨hs', hfound, hturn⟩
  exact ⟨hs', hfound, hback _ _ _ hturn⟩

end

/-! ## Insertions -/

section

variable [Crc32Fast] {s : Session} {M : TableModel} {P : Set ℕ} {id : UInt64} {row : List UInt8}
  {storable : UInt64 → List UInt8 → Prop}

/-- **The part of an insertion under the guard.** -/
theorem wlp_insertRow (h : TableAt s.state.rootPage s.state.indexes M s.file P)
    (hstore : ∀ id row, storable id row → Storable id row) :
    wlp (Session.insertRow (.watched storable) id row) (fun _ s' =>
      Rewritten s s' ∧ s'.file.writeState = ⟨∅, 0⟩ ∧ storable id row ∧ M.rows id = none ∧
      ∃ M', M'.rows = Function.update M.rows id (some row) ∧
        (∀ R, R id = none → Follows s.state s'.state M M' R (Function.update R id (some row))) ∧
        Turns (TableAt s'.state.rootPage s'.state.indexes M') s.file P s'.file) s := by
  unfold Session.insertRow
  refine wlp_get_bind.mpr (wp.bind (wlp_insertTree h hstore) ?_)
  rintro root s₁ ⟨hs₁, hrow, hnew, hturn⟩
  obtain ⟨P₁, hP₁, hthen⟩ := hturn.next
  refine wlp_modifyState_bind.mpr ?_
  set s₂ : Session := { s₁ with state := { s₁.state with rootPage := root } } with hs₂
  have hstate : s₂.state = { s.state with rootPage := root } := by rw [hs₂, hs₁]
  have hP₂ : TableAt root s₂.state.indexes
      { M with rows := Function.update M.rows id (some row) } s₂.file P₁ := by
    rw [hstate]
    exact hP₁
  refine wp.bind (wlp_indexUpdateRow hP₂) ?_
  rintro _ s₃ ⟨hre, M', hedit, hturn₃⟩
  obtain ⟨P₃, hP₃, hthen₃⟩ := hturn₃.next
  refine (wlp_commitWrite hP₃).post ?_
  rintro _ s' ⟨hcommit, hturn'⟩
  have hrewritten : Rewritten s s₂ := ⟨by rw [hs₂, hs₁], by rw [hstate]; rfl⟩
  have hroot : s'.state = s₃.state := by rw [hcommit.eq]
  have hroot₃ : s₃.state.rootPage = root := by rw [hre.eq, hstate]
  refine ⟨(hrewritten.trans hre.rewritten).trans hcommit.rewritten, hcommit.clean, hrow, hnew, M',
    hedit.rows, fun R hid => ?_, ?_⟩
  · rw [hroot]
    intro hindexed
    refine hre.put hedit hid ?_
    rw [hstate]
    exact hindexed
  · rw [hroot, hroot₃]
    exact hthen _ _ (hthen₃ _ _ hturn')

end

end BoogyDb

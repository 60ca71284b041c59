import BoogyDb.AcidTransaction
import BoogyDb.SchemaSteps

/-!
# Index entries inside a transaction

A transaction writes the keys of a row into all its indexes in one go and remembers the
roots by the names of the indexes.  The three loops that do so (`insertEntries`,
`deleteEntries`, `replaceEntries`) are one loop (`entriesLoop`), with what it does to one
index as a parameter; `wlp_entriesLoop` says what it does to the trees of the table.
-/

namespace BoogyDb

open Bytes Wp WriteGuard FencedTree Ownership

/-! ## Roots by name -/

section

variable {roots : List (String × ℕ)} {indexes : List IndexMeta} {idx : IndexMeta} {i : ℕ}

/-- The root that is remembered for an index, or else its own. -/
def rootFor (roots : List (String × ℕ)) (idx : IndexMeta) : ℕ :=
  ((roots.find? fun r => r.1 = idx.name).map Prod.snd).getD idx.rootPage

/-- The indexes with the roots that are remembered for them. -/
def withRoots (roots : List (String × ℕ)) (indexes : List IndexMeta) : List IndexMeta :=
  indexes.map fun idx => { idx with rootPage := rootFor roots idx }

theorem withRoots_shapes : SameShapes indexes (withRoots roots indexes) := by
  unfold SameShapes withRoots
  rw [List.map_map]
  rfl

theorem withRoots_nil : withRoots [] indexes = indexes :=
  (List.map_congr_left fun _ _ => rfl).trans (List.map_id _)

theorem rootFor_of_notMem (h : idx.name ∉ roots.map Prod.fst) : rootFor roots idx = idx.rootPage := by
  unfold rootFor
  rw [List.find?_eq_none.mpr fun r hr heq => h ?_]
  · rfl
  · rw [← of_decide_eq_true heq]
    exact List.mem_map_of_mem hr

/-- A root for the first index is of no use to the others. -/
theorem withRoots_cons_of_notMem {name : String} {root : ℕ}
    (h : name ∉ indexes.map IndexMeta.name) :
    withRoots ((name, root) :: roots) indexes = withRoots roots indexes := by
  refine List.map_congr_left fun idx hidx => ?_
  have hne : ¬ name = idx.name := fun heq => h (heq ▸ List.mem_map_of_mem hidx)
  unfold rootFor
  rw [List.find?_cons_of_neg (by simpa using hne)]

/-- Setting the root of an index is remembering it. -/
theorem setIndexRoot_eq (h : (indexes.map IndexMeta.name).Nodup) (r : String × ℕ) :
    setIndexRoot indexes r = withRoots [r] indexes := by
  induction indexes with
  | nil => rfl
  | cons idx indexes ih =>
      obtain ⟨hnot, hnodup⟩ := List.nodup_cons.mp h
      unfold setIndexRoot at ih ⊢
      rw [List.findIdx?_cons]
      by_cases hname : idx.name = r.1
      · have hrest : withRoots [r] indexes = indexes := by
          obtain ⟨name, root⟩ := r
          obtain rfl : idx.name = name := hname
          rw [withRoots_cons_of_notMem hnot, withRoots_nil]
        rw [if_pos (decide_eq_true hname)]
        show _ :: indexes = { idx with rootPage := rootFor [r] idx } :: withRoots [r] indexes
        rw [hrest]
        unfold rootFor
        rw [List.find?_singleton, if_pos (decide_eq_true hname.symm)]
        rfl
      · have hfirst : rootFor [r] idx = idx.rootPage :=
          rootFor_of_notMem fun hin => hname (List.mem_singleton.mp hin)
        have hrest := ih hnodup
        rw [if_neg (by simpa using hname)]
        show _ = { idx with rootPage := rootFor [r] idx } :: withRoots [r] indexes
        rw [hfirst, ← hrest]
        cases indexes.findIdx? fun idx => idx.name = r.1 with
        | none => rfl
        | some i => rfl

theorem withRoots_names : (withRoots roots indexes).map IndexMeta.name = indexes.map IndexMeta.name := by
  unfold withRoots
  rw [List.map_map]
  rfl

/-- **A delta's roots**, set one after the other. -/
theorem foldl_setIndexRoot (h : (indexes.map IndexMeta.name).Nodup)
    (hroots : (roots.map Prod.fst).Nodup) :
    roots.foldl setIndexRoot indexes = withRoots roots indexes := by
  induction roots generalizing indexes with
  | nil => exact withRoots_nil.symm
  | cons r roots ih =>
      obtain ⟨hnot, hnodup⟩ := List.nodup_cons.mp hroots
      have hset : ((withRoots [r] indexes).map IndexMeta.name).Nodup := by
        rw [withRoots_names]
        exact h
      rw [List.foldl_cons, setIndexRoot_eq h, ih hset hnodup]
      unfold withRoots
      rw [List.map_map]
      refine List.map_congr_left fun idx _ => ?_
      show { idx with rootPage := rootFor roots { idx with rootPage := rootFor [r] idx } } = _
      congr 1
      by_cases hname : r.1 = idx.name
      · have hlast : idx.name ∉ roots.map Prod.fst := hname ▸ hnot
        have hrest : rootFor roots { idx with rootPage := rootFor [r] idx } = rootFor [r] idx :=
          rootFor_of_notMem hlast
        rw [hrest]
        unfold rootFor
        rw [List.find?_singleton, List.find?_cons_of_pos (by simpa using hname),
          if_pos (decide_eq_true hname)]
      · unfold rootFor
        rw [List.find?_singleton, List.find?_cons_of_neg (by simpa using hname),
          if_neg (by simpa using hname)]
        rfl

end

/-! ## The loop over the indexes -/

section

variable [Crc32Fast] {t : TableMeta} {root : ℕ} {M : TableModel} {P : Set ℕ} {g : WriteGuard}
  {op : IndexInfo → StateResult WriteGuard ℕ}
  {R : IndexMeta → Set (List UInt8) → Set (List UInt8) → Prop}

/-- What a write needs to know about the indexes that can be resolved. -/
def infosOf (t : TableMeta) (indexes : List IndexMeta) : List IndexInfo :=
  indexes.filterMap fun idx =>
    (resolveColumns t idx.columns).map fun cols => ⟨idx.name, cols, idx.rootPage⟩

omit [Crc32Fast] in
theorem infosOf_names {t : TableMeta} {indexes : List IndexMeta} {name : String}
    (h : name ∈ (infosOf t indexes).map IndexInfo.name) : name ∈ indexes.map IndexMeta.name := by
  obtain ⟨info, hinfo, rfl⟩ := List.mem_map.mp h
  obtain ⟨idx, hidx, heq⟩ := List.mem_filterMap.mp hinfo
  obtain ⟨cols, -, rfl⟩ := Option.map_eq_some_iff.mp heq
  exact List.mem_map_of_mem hidx

/-- Do `op` for each index, and remember the roots. -/
def entriesLoop (op : IndexInfo → StateResult WriteGuard ℕ) :
    List IndexInfo → StateResult WriteGuard (List (String × ℕ))
  | [] => pure []
  | info :: infos => do
      let root ← op info
      let roots ← entriesLoop op infos
      pure ((info.name, root) :: roots)

/-- What became of the keys of the indexes from the `n`th on. -/
structure Rekeyed (R : IndexMeta → Set (List UInt8) → Set (List UInt8) → Prop) (n : ℕ)
    (indexes : List IndexMeta) (M M' : TableModel) : Prop where
  rows : M'.rows = M.rows
  keys : ∀ i idx, n ≤ i → indexes[i]? = some idx → R idx (M.keys i) (M'.keys i)
  others : ∀ i < n, M'.keys i = M.keys i

/-- **The loop over the indexes**, from the one behind `done` on. -/
theorem wlp_entriesLoop (rest : List IndexMeta) {done : List IndexMeta}
    (hop : ∀ idx cols keys g P, resolveColumns t idx.columns = some cols →
      KeysAt idx.rootPage keys g P → wlp (op ⟨idx.name, cols, idx.rootPage⟩) (fun root' g' =>
        ∃ keys', R idx keys keys' ∧ Turns (KeysAt root' keys') g P g') g)
    (hskip : ∀ idx keys, resolveColumns t idx.columns = none → R idx keys keys)
    (hnames : (rest.map IndexMeta.name).Nodup) (h : TableAt root (done ++ rest) M g P) :
    wlp (entriesLoop op (infosOf t rest)) (fun roots g' =>
      roots.map Prod.fst = (infosOf t rest).map IndexInfo.name ∧
      ∃ M', Rekeyed R done.length (done ++ rest) M M' ∧
        Turns (TableAt root (done ++ withRoots roots rest) M') g P g') g := by
  induction rest generalizing done M g P with
  | nil =>
      refine ⟨rfl, M, ⟨rfl, fun i idx hi hidx => ?_, fun _ _ => rfl⟩, Turns.refl h⟩
      rw [List.append_nil] at hidx
      exact absurd (List.getElem?_eq_some_iff.mp hidx).1 (Nat.not_lt.mpr hi)
  | cons idx rest ih =>
      obtain ⟨hnot, hnodup⟩ := List.nodup_cons.mp hnames
      have hi : (done ++ idx :: rest)[done.length]? = some idx := by simp
      -- this index is done, and the loop has gone on behind it
      have hgo : ∀ (keys' : Set (List UInt8)) (idx' : IndexMeta) (M' : TableModel),
          R idx (M.keys done.length) keys' →
          Rekeyed R (done ++ [idx']).length (done ++ [idx'] ++ rest)
            { M with keys := Function.update M.keys done.length keys' } M' →
          Rekeyed R done.length (done ++ idx :: rest) M M' := by
        intro keys' idx' M' hR h'
        refine ⟨h'.rows, fun j idx₁ hj hidx => ?_, fun j hj => ?_⟩
        · rcases Nat.eq_or_lt_of_le hj with rfl | hlt
          · rw [hi] at hidx
            obtain rfl := Option.some.inj hidx
            rw [h'.others _ (by simp)]
            dsimp only
            rw [Function.update_self]
            exact hR
          · have hset : done ++ [idx'] ++ rest = (done ++ idx :: rest).set done.length idx' := by simp
            have hkeys := h'.keys j idx₁ (by
              rw [List.length_append]
              exact hlt) (by
              rw [hset, List.getElem?_set_ne hlt.ne]
              exact hidx)
            dsimp only at hkeys
            rwa [Function.update_of_ne hlt.ne'] at hkeys
        · rw [h'.others j (by simpa using hj.trans (Nat.lt_succ_self _))]
          exact Function.update_of_ne hj.ne ..
      unfold infosOf
      cases hcols : resolveColumns t idx.columns with
      | none =>
          rw [List.filterMap_cons_none (by rw [hcols]; rfl)]
          have hdone : TableAt root (done ++ [idx] ++ rest) M g P := by
            rw [List.append_assoc]
            exact h
          refine (ih hnodup hdone).post ?_
          rintro roots g' ⟨hroots, M', hre, hturn⟩
          refine ⟨hroots, M', hgo (M.keys done.length) idx M' (hskip idx _ hcols) ?_, ?_⟩
          · rw [Function.update_eq_self]
            exact hre
          · have hfree : idx.name ∉ roots.map Prod.fst := by
              rw [hroots]
              exact fun hin => hnot (infosOf_names hin)
            show Turns (TableAt root (done ++ { idx with rootPage := rootFor roots idx } ::
              withRoots roots rest) M') g P g'
            rw [rootFor_of_notMem hfree]
            rw [List.append_assoc] at hturn
            exact hturn
      | some cols =>
          rw [List.filterMap_cons_some (by rw [hcols]; rfl), entriesLoop]
          obtain ⟨Q, hQ, hback⟩ := h.indexTree hi
          refine wp.bind (hop idx cols _ g Q hcols hQ) ?_
          rintro root' g₁ ⟨keys', hR, hturn₁⟩
          obtain ⟨P₁, hP₁, hthen⟩ := (hback { idx with rootPage := root' } _ _ hturn₁).next
          have hset : (done ++ idx :: rest).set done.length { idx with rootPage := root' } =
              done ++ [{ idx with rootPage := root' }] ++ rest := by simp
          rw [hset] at hP₁
          refine wp.bind (ih hnodup hP₁) ?_
          rintro roots g₂ ⟨hroots, M', hre, hturn⟩
          refine ⟨?_, M', hgo keys' _ M' hR hre, ?_⟩
          · rw [List.map_cons, List.map_cons, hroots]
            rfl
          · have hhere : rootFor ((idx.name, root') :: roots) idx = root' := by
              unfold rootFor
              rw [List.find?_cons_of_pos (by simp)]
              rfl
            show Turns (TableAt root (done ++ { idx with
              rootPage := rootFor ((idx.name, root') :: roots) idx } ::
                withRoots ((idx.name, root') :: roots) rest) M') g P g₂
            rw [hhere, withRoots_cons_of_notMem hnot]
            rw [List.append_assoc] at hturn
            exact hthen _ _ hturn

/-! ## The loops of a transaction -/

variable {rowid : UInt64} {bytes oldBytes newBytes : List UInt8}
  {storable : UInt64 → List UInt8 → Prop}

/-- Put the key of a row into one index. -/
def insertEntry (w : TreeWriters) (rowid : UInt64) (bytes : List UInt8) (info : IndexInfo) :
    StateResult WriteGuard ℕ := do
  let vals ← indexValues info.cols bytes
  match encodeCompositeIndexKey vals rowid with
  | some key => w.insertKey info.root key
  | none => pure info.root

omit [Crc32Fast] in
theorem insertEntries_eq (w : TreeWriters) (infos : List IndexInfo) :
    insertEntries w rowid bytes infos = entriesLoop (insertEntry w rowid bytes) infos := by
  induction infos with
  | nil => rfl
  | cons info infos ih =>
      rw [insertEntries, entriesLoop, ih, insertEntry, bind_assoc]
      congr 1
      funext vals
      cases encodeCompositeIndexKey vals rowid with
      | none => rfl
      | some key => rfl

theorem deleteEntries_eq (infos : List IndexInfo) :
    deleteEntries rowid bytes infos =
      entriesLoop (fun info => deleteEntry rowid bytes info >>= fun _ => pure info.root) infos := by
  induction infos with
  | nil => rfl
  | cons info infos ih =>
      rw [deleteEntries, entriesLoop, ih, bind_assoc]
      rfl

theorem replaceEntries_eq (w : TreeWriters) (infos : List IndexInfo) :
    replaceEntries w rowid oldBytes newBytes infos =
      entriesLoop (fun info => deleteEntry rowid oldBytes info >>= fun _ =>
        insertEntry w rowid newBytes info) infos := by
  induction infos with
  | nil => rfl
  | cons info infos ih =>
      rw [replaceEntries, entriesLoop, ih, bind_assoc]
      congr 1
      funext _
      rw [insertEntry, bind_assoc]
      congr 1
      funext vals
      cases encodeCompositeIndexKey vals rowid with
      | none => rfl
      | some key => rfl

/-- The key of the row was put into the index, or taken out. -/
def KeyEdited (t : TableMeta) (rowid : UInt64) (bytes : List UInt8) (remove : Bool)
    (idx : IndexMeta) (keys keys' : Set (List UInt8)) : Prop :=
  ∃ key, indexKey t idx.columns rowid bytes = .ok key ∧
    (remove = false → ∀ k ∈ key, k ∉ keys) ∧ keys' = editKeys remove key keys

omit [Crc32Fast] in
theorem KeyEdited.skip {remove : Bool} {idx : IndexMeta} {keys : Set (List UInt8)}
    (h : resolveColumns t idx.columns = none) : KeyEdited t rowid bytes remove idx keys keys := by
  refine ⟨none, ?_, nofun, rfl⟩
  unfold indexKey
  rw [h]
  rfl

omit [Crc32Fast] in
theorem Rekeyed.edited {remove : Bool} {n : ℕ} {indexes : List IndexMeta} {M' : TableModel}
    (h : Rekeyed (KeyEdited t rowid bytes remove) n indexes M M') :
    Edited n t indexes rowid bytes remove M M' := ⟨h.rows, h.keys, h.others⟩

theorem wlp_insertEntry {idx : IndexMeta} {cols : List (UInt16 × ColumnType)}
    {keys : Set (List UInt8)} (hcols : resolveColumns t idx.columns = some cols)
    (h : KeysAt idx.rootPage keys g P) :
    wlp (insertEntry (.watched storable) rowid bytes ⟨idx.name, cols, idx.rootPage⟩) (fun root' g' =>
      ∃ keys', KeyEdited t rowid bytes false idx keys keys' ∧ Turns (KeysAt root' keys') g P g') g := by
  unfold insertEntry
  refine wlp_lift_bind fun vals hvals => ?_
  have hkey : indexKey t idx.columns rowid bytes = .ok (encodeCompositeIndexKey vals rowid) := by
    rw [indexKey_resolved hcols]
    unfold columnsKey
    dsimp only at hvals
    rw [hvals]
    rfl
  cases hk : encodeCompositeIndexKey vals rowid with
  | none => exact ⟨keys, ⟨none, hk ▸ hkey, nofun, rfl⟩, Turns.refl h⟩
  | some key =>
      refine (wp_insertKey_watched h).post ?_
      rintro root' g' ⟨hnew, hturn⟩
      refine ⟨_, ⟨some key, hk ▸ hkey, fun _ k hk' => ?_, rfl⟩, hturn⟩
      rw [Option.mem_some_iff] at hk'
      rwa [← hk']

theorem wlp_deleteEntry {idx : IndexMeta} {cols : List (UInt16 × ColumnType)}
    {keys : Set (List UInt8)} (hcols : resolveColumns t idx.columns = some cols)
    (h : KeysAt idx.rootPage keys g P) :
    wlp (deleteEntry rowid bytes ⟨idx.name, cols, idx.rootPage⟩) (fun _ g' =>
      ∃ keys', KeyEdited t rowid bytes true idx keys keys' ∧
        Turns (KeysAt idx.rootPage keys') g P g') g := by
  unfold deleteEntry
  refine wlp_lift_bind fun vals hvals => ?_
  have hkey : indexKey t idx.columns rowid bytes = .ok (encodeCompositeIndexKey vals rowid) := by
    rw [indexKey_resolved hcols]
    unfold columnsKey
    dsimp only at hvals
    rw [hvals]
    rfl
  cases hk : encodeCompositeIndexKey vals rowid with
  | none => exact ⟨keys, ⟨none, hk ▸ hkey, nofun, rfl⟩, Turns.refl h⟩
  | some key =>
      refine wp.bind (wp_delete_keysAt h) ?_
      rintro found g' ⟨-, hturn⟩
      exact ⟨_, ⟨some key, hk ▸ hkey, nofun, rfl⟩, hturn⟩

variable {indexes : List IndexMeta}

/-- **The keys of a row go into the indexes.** -/
theorem wlp_insertEntries (hnames : (indexes.map IndexMeta.name).Nodup)
    (h : TableAt root indexes M g P) :
    wlp (insertEntries (.watched storable) rowid bytes (infosOf t indexes)) (fun roots g' =>
      roots.map Prod.fst = (infosOf t indexes).map IndexInfo.name ∧
      ∃ M', Edited 0 t indexes rowid bytes false M M' ∧
        Turns (TableAt root (withRoots roots indexes) M') g P g') g := by
  rw [insertEntries_eq]
  refine (@wlp_entriesLoop _ t root M P g _ (KeyEdited t rowid bytes false) indexes []
    (fun idx cols keys g P hcols hQ => wlp_insertEntry hcols hQ)
    (fun idx keys hnone => KeyEdited.skip hnone) hnames h).post ?_
  rintro roots g' ⟨hroots, M', hre, hturn⟩
  exact ⟨hroots, M', hre.edited, hturn⟩

/-- **The keys of a row leave the indexes.** -/
theorem wlp_deleteEntries (hnames : (indexes.map IndexMeta.name).Nodup)
    (h : TableAt root indexes M g P) :
    wlp (deleteEntries rowid bytes (infosOf t indexes)) (fun roots g' =>
      roots.map Prod.fst = (infosOf t indexes).map IndexInfo.name ∧
      ∃ M', Edited 0 t indexes rowid bytes true M M' ∧
        Turns (TableAt root (withRoots roots indexes) M') g P g') g := by
  rw [deleteEntries_eq]
  refine (@wlp_entriesLoop _ t root M P g _ (KeyEdited t rowid bytes true) indexes []
    (fun idx cols keys g P hcols hQ => ?_) (fun idx keys hnone => KeyEdited.skip hnone) hnames
    h).post ?_
  · refine wp.bind (wlp_deleteEntry hcols hQ) ?_
    rintro _ g' ⟨keys', hkeys, hturn⟩
    exact ⟨keys', hkeys, hturn⟩
  · rintro roots g' ⟨hroots, M', hre, hturn⟩
    exact ⟨hroots, M', hre.edited, hturn⟩

/-- **The keys of a row are replaced**: first those of the old row go, then those of the
new one come. -/
theorem wlp_replaceEntries (hnames : (indexes.map IndexMeta.name).Nodup)
    (h : TableAt root indexes M g P) :
    wlp (replaceEntries (.watched storable) rowid oldBytes newBytes (infosOf t indexes))
      (fun roots g' => roots.map Prod.fst = (infosOf t indexes).map IndexInfo.name ∧
      ∃ M₁ M', Edited 0 t indexes rowid oldBytes true M M₁ ∧
        Edited 0 t indexes rowid newBytes false M₁ M' ∧
        Turns (TableAt root (withRoots roots indexes) M') g P g') g := by
  rw [replaceEntries_eq]
  refine (@wlp_entriesLoop _ t root M P g _ (fun idx keys keys' => ∃ keys₁,
      KeyEdited t rowid oldBytes true idx keys keys₁ ∧ KeyEdited t rowid newBytes false idx keys₁ keys')
    indexes [] (fun idx cols keys g P hcols hQ => ?_)
    (fun idx keys hnone => ⟨keys, KeyEdited.skip hnone, KeyEdited.skip hnone⟩) hnames h).post ?_
  · refine wp.bind (wlp_deleteEntry hcols hQ) ?_
    rintro _ g₁ ⟨keys₁, hkeys₁, hturn₁⟩
    obtain ⟨P₁, hP₁, hthen⟩ := hturn₁.next
    refine (wlp_insertEntry hcols hP₁).post ?_
    rintro root' g' ⟨keys', hkeys', hturn⟩
    exact ⟨keys', ⟨keys₁, hkeys₁, hkeys'⟩, hthen _ _ hturn⟩
  · rintro roots g' ⟨hroots, M', hre, hturn⟩
    -- the keys between the two halves
    have hmid : ∀ i, ∃ keys₁, ∀ idx, indexes[i]? = some idx →
        KeyEdited t rowid oldBytes true idx (M.keys i) keys₁ ∧
          KeyEdited t rowid newBytes false idx keys₁ (M'.keys i) := by
      intro i
      cases hi : indexes[i]? with
      | none => exact ⟨∅, nofun⟩
      | some idx =>
          obtain ⟨keys₁, hkeys⟩ := hre.keys i idx (Nat.zero_le i) hi
          refine ⟨keys₁, fun idx' hidx' => ?_⟩
          rw [← Option.some.inj hidx']
          exact hkeys
    choose keys₁ hkeys₁ using hmid
    refine ⟨hroots, ⟨M.rows, keys₁⟩, M', ⟨rfl, fun i idx _ hi => (hkeys₁ i idx hi).1, nofun⟩,
      ⟨hre.rows, fun i idx _ hi => (hkeys₁ i idx hi).2, nofun⟩, hturn⟩

end

end BoogyDb

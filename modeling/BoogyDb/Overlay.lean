import BoogyDb.AcidEntries
import BoogyDb.PageOwners

/-!
# Writes change the overlay alone

What a write does to a page file it does to the write state that the guard has locked: the
data file, the page count and the cache stay, pages that are in the overlay stay in it, a page
allocated by the guard is in it, and so are only pages of the file.  `OverlayGrows` is this
relation, and every operation of the trees stays within it, also when it fails.
-/

namespace BoogyDb

open Wp WriteGuard

/-- `g'` is `g` with a larger overlay, whose pages are pages of the file. -/
structure OverlayGrows (g g' : WriteGuard) : Prop where
  file : g' = { g with writeState := g'.writeState }
  kept : ∀ p ∈ g.writeState.dirty, p ∈ g'.writeState.dirty
  newPageCount : g.writeState.newPageCount ≤ g'.writeState.newPageCount
  allocated : ∀ p, g.bound ≤ p → p < g'.bound → p ∈ g'.writeState.dirty
  below : ∀ p ∈ g'.writeState.dirty, p ∈ g.writeState.dirty ∨ p < g'.bound

theorem OverlayGrows.refl (g : WriteGuard) : OverlayGrows g g :=
  ⟨rfl, fun _ => id, le_rfl, fun _ hle hlt => absurd hlt (Nat.not_lt_of_le hle), fun _ => .inl⟩

theorem OverlayGrows.bound_le {g g' : WriteGuard} (h : OverlayGrows g g') : g.bound ≤ g'.bound := by
  rw [WriteGuard.bound, WriteGuard.bound, h.file]
  exact Nat.add_le_add_left h.newPageCount _

theorem OverlayGrows.trans {g₁ g₂ g₃ : WriteGuard} (h : OverlayGrows g₁ g₂)
    (h' : OverlayGrows g₂ g₃) : OverlayGrows g₁ g₃ where
  file := by
    rw [h'.file, h.file]
  kept p hp := h'.kept p (h.kept p hp)
  newPageCount := h.newPageCount.trans h'.newPageCount
  allocated p hle hlt := by
    rcases Nat.lt_or_ge p g₂.bound with hin | hout
    · exact h'.kept p (h.allocated p hle hin)
    · exact h'.allocated p hout hlt
  below p hp := by
    rcases h'.below p hp with hp | hlt
    · exact (h.below p hp).imp_right fun hlt => hlt.trans_le h'.bound_le
    · exact .inr hlt

theorem OverlayGrows.discard {g g' : WriteGuard} (h : OverlayGrows g g') :
    g'.discard = g.discard := by
  rw [h.file]
  rfl

theorem OverlayGrows.dirtyBelow {g g' : WriteGuard} (h : OverlayGrows g g') (hg : DirtyBelow g) :
    DirtyBelow g' := fun p hp =>
  (h.below p hp).elim (fun hp => (hg p hp).trans_le h.bound_le) id

/-- A program that changes the overlay alone, from a guard with `n` pages on. -/
def OverlayFrom {α : Type} (n : ℕ) (x : StateResult WriteGuard α) : Prop :=
  ∀ g, n ≤ g.bound → wp x (fun _ => OverlayGrows g) (fun _ => OverlayGrows g) g

namespace OverlayFrom

variable {α β κ : Type} {n : ℕ}

theorem pure (a : α) : OverlayFrom n (pure a) := fun g _ => OverlayGrows.refl g

theorem throw (e : Fault) : OverlayFrom n (throw e : StateResult WriteGuard α) := fun g _ =>
  OverlayGrows.refl g

theorem bind {x : StateResult WriteGuard α} {f : α → StateResult WriteGuard β}
    (hx : OverlayFrom n x) (hf : ∀ a, OverlayFrom n (f a)) : OverlayFrom n (x >>= f) := by
  intro g hn
  refine wp_bind.mpr ((hx g hn).mono (fun a g₁ h₁ => ?_) fun _ _ => id)
  exact (hf a g₁ (hn.trans h₁.bound_le)).mono (fun _ _ => h₁.trans) fun _ _ => h₁.trans

theorem ite {c : Prop} [Decidable c] {x y : StateResult WriteGuard α} (hx : OverlayFrom n x)
    (hy : OverlayFrom n y) : OverlayFrom n (if c then x else y) := fun g hn =>
  wp_ite (fun _ => hx g hn) fun _ => hy g hn

theorem readOnly (f : WriteGuard → Result α) : OverlayFrom n (readOnly f) := by
  intro g _
  rw [wp_readOnly]
  cases f g <;> exact OverlayGrows.refl g

theorem lift (x : Result α) : OverlayFrom n (liftM x : StateResult WriteGuard α) := by
  intro g _
  cases x <;> exact OverlayGrows.refl g

theorem putPage_grows {g : WriteGuard} {pageNo : ℕ} (page : Page)
    (hpage : pageNo ∈ g.writeState.dirty ∨ pageNo < g.bound) :
    OverlayGrows g { g with writeState.dirty := g.writeState.dirty.insert pageNo page } := by
  refine ⟨rfl, fun p hp => ?_, le_rfl, fun p hle hlt => absurd hlt (Nat.not_lt_of_le hle),
    fun p hp => ?_⟩
  · exact (AList.mem_insert _).mpr (.inr hp)
  · rcases (AList.mem_insert _).mp hp with rfl | hp
    · exact hpage
    · exact .inl hp

theorem putPage {pageNo : ℕ} (page : Page) (hpage : pageNo < n) :
    OverlayFrom n (putPage pageNo page) := fun _ hn =>
  putPage_grows page (.inr (hpage.trans_le hn))

/-- The rest of a program after it took a page. -/
theorem allocatePage {f : ℕ → StateResult WriteGuard β} (hf : ∀ p, OverlayFrom (p + 1) (f p)) :
    OverlayFrom n (allocatePage >>= f) := by
  intro g _
  have halloc : wp WriteGuard.allocatePage
      (fun p g₁ => OverlayGrows g g₁ ∧ p + 1 ≤ g₁.bound) (fun _ => OverlayGrows g) g := by
    rw [wp, WriteGuard.allocatePage]
    by_cases hlimit : pageNoLimit ≤ g.bound
    · rw [if_pos hlimit]
      exact OverlayGrows.refl g
    by_cases hcount : pageNoLimit ≤ g.writeState.newPageCount + 1
    · rw [if_neg hlimit, if_pos hcount]
      exact OverlayGrows.refl g
    · rw [if_neg hlimit, if_neg hcount]
      refine ⟨⟨rfl, fun p hp => (AList.mem_insert _).mpr (.inr hp), Nat.le_succ _,
        fun p hle hlt => (AList.mem_insert _).mpr (.inl ?_), fun p hp => ?_⟩, le_rfl⟩
      · -- the one new page
        exact Nat.le_antisymm (Nat.le_of_lt_succ hlt) hle
      · rcases (AList.mem_insert _).mp hp with rfl | hp
        · exact .inr (Nat.lt_succ_self g.bound)
        · exact .inl hp
  refine wp_bind.mpr (halloc.mono (fun p g₁ h₁ => ?_) fun _ _ => id)
  exact (hf p g₁ h₁.2).mono (fun _ _ => h₁.1.trans) fun _ _ => h₁.1.trans

section

variable [Crc32Fast]

theorem readPage (pageNo : ℕ) : OverlayFrom n (readPage pageNo) := readOnly _

/-- A page that can be read is in the overlay or a page of the file. -/
theorem modifyPage (pageNo : ℕ) (f : Page → Result Page) :
    OverlayFrom n (modifyPage pageNo f) := by
  intro g _
  have hpage : ∀ page, g.view pageNo = .ok page →
      pageNo ∈ g.writeState.dirty ∨ pageNo < g.bound := by
    intro page hview
    rw [view] at hview
    cases hdirty : g.writeState.dirty.lookup pageNo with
    | some page' => exact .inl (AList.lookup_isSome.mp (by rw [hdirty]; rfl))
    | none =>
        rw [hdirty] at hview
        dsimp only at hview
        rw [PageFile.readPage] at hview
        by_cases hnum : g.numPages ≤ pageNo
        · rw [if_pos hnum] at hview
          cases hview
        · exact .inr ((Nat.lt_of_not_le hnum).trans_le (Nat.le_add_right _ _))
  unfold WriteGuard.modifyPage WriteGuard.readPage
  rw [wp_bind, wp_readOnly]
  cases hview : g.view pageNo with
  | error e => exact OverlayGrows.refl g
  | ok page =>
      have hput := putPage_grows page (hpage page hview)
      show wp _ _ _ _
      rw [wp_bind]
      cases f page with
      | error e => exact hput
      | ok page' => exact hput.trans (putPage_grows page' (.inl ((AList.mem_insert _).mpr (.inl rfl))))

/-! ## The trees -/

theorem insertInPlace (pageNo : ℕ) (snapshot : Page) (pos : ℕ) (row : List UInt8) :
    OverlayFrom n (insertInPlace pageNo snapshot pos row) := modifyPage _ _

theorem removeInPlace (pageNo : ℕ) (snapshot : Page) (pos : ℕ) :
    OverlayFrom n (removeInPlace pageNo snapshot pos) := modifyPage _ _

theorem linkBack (nextLeaf newPageNo : ℕ) : OverlayFrom n (linkBack nextLeaf newPageNo) :=
  ite (modifyPage _ _) (pure _)

theorem splitLeaf (pageNo : ℕ) (snapshot : Page) (pos : ℕ) (row : List UInt8) (mid : ℕ)
    (separator : Result κ) : OverlayFrom n (splitLeaf pageNo snapshot pos row mid separator) := by
  unfold BoogyDb.splitLeaf
  refine allocatePage fun newPageNo => (lift _).bind fun separator => ?_
  refine (modifyPage _ _).bind fun _ => (lift _).bind fun rightPage => ?_
  exact (putPage _ (Nat.lt_succ_self _)).bind fun _ => (linkBack _ _).bind fun _ => pure _

theorem insertIntoBranch (fmt : BranchFormat κ) (pageNo childIdx : ℕ) (separator : κ)
    (newChild : ℕ) : OverlayFrom n (insertIntoBranch fmt pageNo childIdx separator newChild) := by
  unfold BoogyDb.insertIntoBranch
  refine (readPage _).bind fun page => ite ((modifyPage _ _).bind fun _ => pure _) ?_
  refine (lift _).bind fun flat => (lift _).bind fun newKeys => (lift _).bind fun newChildren => ?_
  refine (lift _).bind fun splitKey => (modifyPage _ _).bind fun _ => allocatePage fun _ => ?_
  exact (lift _).bind fun newPage => (putPage _ (Nat.lt_succ_self _)).bind fun _ => pure _

theorem insertRecursive [LinearOrder κ] (fmt : BranchFormat κ) (depthError : String) (key : κ)
    {intoLeaf : ℕ → Page → StateResult WriteGuard (InsertResult κ)}
    (hleaf : ∀ pageNo page, OverlayFrom n (intoLeaf pageNo page)) (fuel pageNo : ℕ) :
    OverlayFrom n (insertRecursive fmt depthError key intoLeaf fuel pageNo) := by
  induction fuel generalizing pageNo with
  | zero => exact throw _
  | succ fuel ih =>
      unfold BoogyDb.insertRecursive
      refine (readPage _).bind fun page => ite (hleaf _ _) ?_
      refine (lift _).bind fun found => (ih _).bind fun result => ?_
      cases result with
      | fit => exact pure _
      | split newPage separator => exact insertIntoBranch fmt _ _ _ _

theorem growRoot (fmt : BranchFormat κ) (root : ℕ) (result : InsertResult κ) :
    OverlayFrom n (growRoot fmt root result) := by
  cases result with
  | fit => exact pure _
  | split newPage separator =>
      refine allocatePage fun newRoot => (lift _).bind fun rootPage => ?_
      exact (lift _).bind fun rootPage => (putPage _ (Nat.lt_succ_self _)).bind fun _ => pure _

theorem createTree : OverlayFrom n createTree :=
  allocatePage fun _ => (putPage _ (Nat.lt_succ_self _)).bind fun _ => pure _

theorem writeChain (chunks : List (List UInt8)) (nextPage : ℕ) :
    OverlayFrom n (writeChain chunks nextPage) := by
  induction chunks generalizing nextPage n with
  | nil => exact pure _
  | cons chunk chunks ih =>
      exact allocatePage fun pageNo => (lift _).bind fun page =>
        (putPage _ (Nat.lt_succ_self _)).bind fun _ => ih pageNo

theorem writeOverflowRow (rowData : List UInt8) (maxInline : ℕ) :
    OverlayFrom n (writeOverflowRow rowData maxInline) :=
  (lift _).bind fun _ => (writeChain _ _).bind fun _ => pure _

theorem insertRow (root : ℕ) (rowid : UInt64) (rowData : List UInt8) :
    OverlayFrom n (BTreeWriter.insert root rowid rowData) := by
  unfold BTreeWriter.insert
  refine (insertRecursive _ _ _ (fun pageNo page => ?_) _ _).bind fun result => growRoot _ _ _
  unfold BTreeWriter.insertIntoLeaf
  refine (lift _).bind fun found => ite (throw _) (ite ?_ (ite ?_ ?_))
  · exact (insertInPlace _ _ _ _).bind fun _ => pure _
  · refine (writeOverflowRow _ _).bind fun inline => ite ?_ ?_
    · exact (insertInPlace _ _ _ _).bind fun _ => pure _
    · exact (lift _).bind fun mid => splitLeaf _ _ _ _ _ _
  · exact splitLeaf _ _ _ _ _ _

theorem deleteRow (root : ℕ) (rowid : UInt64) : OverlayFrom n (BTreeWriter.delete root rowid) := by
  unfold BTreeWriter.delete
  refine (readOnly _).bind fun found => ite (pure _) ((lift _).bind fun pos => ?_)
  exact ite ((removeInPlace _ _ _).bind fun _ => pure _) (pure _)

theorem insertKey (root : ℕ) (key : List UInt8) :
    OverlayFrom n (IndexTreeWriter.insert root key) := by
  unfold IndexTreeWriter.insert
  refine (insertRecursive _ _ _ (fun pageNo page => ?_) _ _).bind fun result => growRoot _ _ _
  unfold IndexTreeWriter.insertIntoLeaf
  refine (lift _).bind fun pos => ite ?_ (splitLeaf _ _ _ _ _ _)
  exact (insertInPlace _ _ _ _).bind fun _ => pure _

theorem deleteKey (root : ℕ) (key : List UInt8) :
    OverlayFrom n (IndexTreeWriter.delete root key) := by
  unfold IndexTreeWriter.delete
  refine (readOnly _).bind fun found => ite (pure _) ((lift _).bind fun pos => ?_)
  cases pos with
  | none => exact pure _
  | some pos => exact (removeInPlace _ _ _).bind fun _ => pure _

/-! ## The writes of a transaction -/

variable {w : TreeWriters}

/-- The writers of the trees change the overlay alone. -/
structure Writers (w : TreeWriters) : Prop where
  insertRow : ∀ n root rowid bytes, OverlayFrom n (w.insertRow root rowid bytes)
  insertKey : ∀ n root key, OverlayFrom n (w.insertKey root key)

theorem code : Writers .code := ⟨fun _ => insertRow, fun _ => insertKey⟩

omit [Crc32Fast] in
theorem watch {α : Type} {c : WriteGuard → Prop} {x : StateResult WriteGuard α}
    (hx : OverlayFrom n x) : OverlayFrom n (BoogyDb.watch c x) := by
  intro g hn
  by_cases hc : c g
  · have heq : BoogyDb.watch c x g = x g := by rw [BoogyDb.watch, if_pos hc]
    have hrun := hx g hn
    rw [wp] at hrun ⊢
    rwa [heq]
  · rw [wp, BoogyDb.watch, if_neg hc]
    exact OverlayGrows.refl g

theorem watched (storable : UInt64 → List UInt8 → Prop) : Writers (.watched storable) :=
  ⟨fun _ _ _ _ => watch (insertRow _ _ _), fun _ _ _ => watch (insertKey _ _)⟩

omit [Crc32Fast] in
theorem insertEntries (hw : Writers w) (rowid : UInt64) (bytes : List UInt8)
    (infos : List IndexInfo) : OverlayFrom n (insertEntries w rowid bytes infos) := by
  induction infos with
  | nil => exact pure _
  | cons info infos ih =>
      unfold BoogyDb.insertEntries
      refine (lift _).bind fun vals => ?_
      cases encodeCompositeIndexKey vals rowid with
      | some key => exact (hw.insertKey _ _ _).bind fun root => ih.bind fun roots => pure _
      | none => exact (pure _).bind fun root => ih.bind fun roots => pure _

theorem deleteEntry (rowid : UInt64) (bytes : List UInt8) (info : IndexInfo) :
    OverlayFrom n (deleteEntry rowid bytes info) := by
  unfold BoogyDb.deleteEntry
  refine (lift _).bind fun vals => ?_
  cases encodeCompositeIndexKey vals rowid with
  | some key => exact (deleteKey _ _).bind fun _ => pure _
  | none => exact pure _

theorem deleteEntries (rowid : UInt64) (bytes : List UInt8) (infos : List IndexInfo) :
    OverlayFrom n (deleteEntries rowid bytes infos) := by
  induction infos with
  | nil => exact pure _
  | cons info infos ih =>
      exact (deleteEntry _ _ _).bind fun _ => ih.bind fun roots => pure _

theorem replaceEntries (hw : Writers w) (rowid : UInt64) (oldBytes newBytes : List UInt8)
    (infos : List IndexInfo) :
    OverlayFrom n (replaceEntries w rowid oldBytes newBytes infos) := by
  induction infos with
  | nil => exact pure _
  | cons info infos ih =>
      unfold BoogyDb.replaceEntries
      refine (deleteEntry _ _ _).bind fun _ => (lift _).bind fun vals => ?_
      cases encodeCompositeIndexKey vals rowid with
      | some key => exact (hw.insertKey _ _ _).bind fun root => ih.bind fun roots => pure _
      | none => exact (pure _).bind fun root => ih.bind fun roots => pure _

omit [Crc32Fast] in
theorem putRow (hw : Writers w) (rowid : UInt64) (bytes : List UInt8) (root : ℕ)
    (infos : List IndexInfo) : OverlayFrom n (putRow w rowid bytes root infos) :=
  (hw.insertRow _ _ _ _).bind fun _ => (insertEntries hw _ _ _).bind fun _ => pure _

theorem mergeRow (hw : Writers w) (id : UInt64) (fields : List Column) (root : ℕ)
    (infos : List IndexInfo) : OverlayFrom n (mergeRow w id fields root infos) := by
  unfold BoogyDb.mergeRow
  refine (readOnly _).bind fun found => ?_
  cases found with
  | none => exact pure _
  | some oldBytes =>
      refine (lift _).bind fun existing => (replaceEntries hw _ _ _ _).bind fun roots => ?_
      exact (deleteRow _ _).bind fun _ => (hw.insertRow _ _ _ _).bind fun _ => pure _

theorem removeRow (id : UInt64) (hasIndexes : Bool) (root : ℕ) (infos : List IndexInfo) :
    OverlayFrom n (removeRow id hasIndexes root infos) := by
  unfold BoogyDb.removeRow
  extract_lets rest
  have hrest : ∀ rowBytes : Option (List UInt8), OverlayFrom n (rest rowBytes) := by
    intro rowBytes
    refine (deleteRow _ _).bind fun deleted => ?_
    cases rowBytes with
    | none => exact pure _
    | some bytes => exact ite ((deleteEntries _ _ _).bind fun _ => pure _) (pure _)
  exact ite ((readOnly _).bind hrest) ((pure none).bind hrest)

end

end OverlayFrom

end BoogyDb

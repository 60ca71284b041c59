import BoogyDb.DbOwners
import BoogyDb.Lib.Moving

/-!
# The pages that tables are on pass validation

A page that is read from the disk is validated, one that is cached is not.  Every page of a
tree carries its magic number and its checksum, so the tables of one file are the tables of
every file that has copies of their pages (`DbOk.copied`).
-/

namespace BoogyDb

open Bytes WriteGuard FencedTree Ownership

section

variable [Crc32Fast]

/-- The page passes validation. -/
def Sealed (page : Page) : Prop := page.validate = .ok ()

theorem sealed_pageOf {h : Header} {body : List UInt8} (hmagic : h.magic = magicNumber) :
    Sealed (pageOf h body) := validate_pageOf hmagic

variable {g g' : WriteGuard} {root : ℕ}

/-! ## The pages of trees -/

section

variable {κ α : Type} [LinearOrder κ] {fmt : BranchFormat κ} {cell : κ × α → List UInt8}
  {leaves : List (Leaf κ α)} {branches : List ℕ}

theorem TreeOf.sealedPage (h : TreeOf fmt cell g root leaves branches) {p : ℕ}
    (hp : p ∈ leaves.map Leaf.page ++ branches) : ∃ page, g.view p = .ok page ∧ Sealed page := by
  rcases List.mem_append.mp hp with hp | hp
  · obtain ⟨l, hl, rfl⟩ := List.mem_map.mp hp
    obtain ⟨pre, post, rfl⟩ := List.append_of_mem hl
    exact ⟨_, h.chained.leafAt.view, sealed_pageOf rfl⟩
  · obtain ⟨d, hspans⟩ := h.spans
    obtain ⟨children, keys, hview, -⟩ := hspans.exists_branch hp
    exact ⟨_, hview, sealed_pageOf rfl⟩

/-- A tree is where its pages are, if they are in use. -/
theorem TreeOf.moved (h : TreeOf fmt cell g root leaves branches)
    (hsame : ∀ p ∈ leaves.map Leaf.page ++ branches, ∀ page, g.view p = .ok page →
      g'.view p = .ok page)
    (hlt : ∀ p ∈ leaves.map Leaf.page ++ branches, p < g'.bound) :
    TreeOf fmt cell g' root leaves branches := by
  have heq : ∀ p ∈ leaves.map Leaf.page ++ branches, g'.view p = g.view p := by
    intro p hp
    obtain ⟨page, hpage⟩ := h.exists_page hp
    rw [hpage]
    exact hsame p hp page hpage
  refine ⟨?_, ?_, h.ordered, h.nodup, fun p hp => ⟨hlt p hp, (h.below p hp).2⟩, h.tail_ne⟩
  · obtain ⟨d, hspans⟩ := h.spans
    exact ⟨d, spans_congr hspans fun p hp => heq p (List.mem_append_right _ hp)⟩
  · exact h.chained.congr fun l hl => heq _ (List.mem_append_left _ (List.mem_map_of_mem hl))

end

theorem ChainAt.sealedPage {v : ℕ → Result Page} {chain : List (ℕ × List UInt8)}
    (h : ChainAt v chain) {p : ℕ} (hp : p ∈ chain.map Prod.fst) :
    ∃ page, v p = .ok page ∧ Sealed page := by
  induction chain with
  | nil => exact absurd hp List.not_mem_nil
  | cons entry chain ih =>
      obtain ⟨⟨-, -, -, -, hview⟩, hrest⟩ := h
      rcases List.mem_cons.mp hp with rfl | hp
      · exact ⟨_, hview, sealed_pageOf rfl⟩
      · exact ih hrest hp

theorem KeptAs.sealedPage {v : ℕ → Result Page} {row cell : List UInt8}
    {chain : List (ℕ × List UInt8)} (h : KeptAs v row cell chain) {p : ℕ}
    (hp : p ∈ chain.map Prod.fst) : ∃ page, v p = .ok page ∧ Sealed page := by
  cases h with
  | inline hplain => exact absurd hp List.not_mem_nil
  | overflow hchain hdata hlen hlong => exact hchain.sealedPage hp

/-! ## The owners of the pages -/

instance movableRows {m : UInt64 → Option (List UInt8)} : Movable Sealed (RowsAt root m) where
  pages := by
    rintro g P ⟨leaves, branches, htree, -, rfl⟩ p (hp | ⟨e, he, hp⟩)
    · obtain ⟨page, hview, hsealed⟩ := htree.tree.sealedPage hp
      exact ⟨page, view_eq_some.mpr hview, hsealed⟩
    · obtain ⟨page, hview, hsealed⟩ := (htree.kept e he).kept.sealedPage hp
      exact ⟨page, view_eq_some.mpr hview, hsealed⟩
  move := by
    rintro g g' P ⟨leaves, branches, htree, hrep, rfl⟩ hsame hlt
    refine ⟨leaves, branches, ⟨?_, fun e he => ?_, fun e he p hp => ?_⟩, hrep, rfl⟩
    · refine htree.tree.moved (fun p hp page hview => ?_) fun p hp => hlt p (.inl hp)
      exact view_eq_some.mp (hsame p (.inl hp) page (view_eq_some.mpr hview))
    · refine (htree.kept e he).congr fun p hp => ?_
      obtain ⟨page, hpage⟩ := (htree.kept e he).kept.exists_page hp
      rw [hpage]
      exact view_eq_some.mp (hsame p (.inr ⟨e, he, hp⟩) page (view_eq_some.mpr hpage))
    · exact ⟨hlt p (.inr ⟨e, he, hp⟩), (htree.apart e he p hp).2⟩

instance movableKeys {s : Set (List UInt8)} : Movable Sealed (KeysAt root s) where
  pages := by
    rintro g P ⟨leaves, branches, htree, -, rfl⟩ p hp
    obtain ⟨page, hview, hsealed⟩ := htree.sealedPage hp
    exact ⟨page, view_eq_some.mpr hview, hsealed⟩
  move := by
    rintro g g' P ⟨leaves, branches, htree, hmem, rfl⟩ hsame hlt
    refine ⟨leaves, branches, htree.moved (fun p hp page hview => ?_) hlt, hmem, rfl⟩
    exact view_eq_some.mp (hsame p hp page (view_eq_some.mpr hview))

instance movableTrees {indexes : List IndexMeta} {M : TableModel} (i : ℕ) :
    Movable Sealed (trees root indexes M i) := by
  cases i with
  | zero => exact movableRows
  | succ i =>
      rw [trees]
      cases indexes[i]? with
      | some idx => exact movableKeys
      | none => exact inferInstanceAs (Movable Sealed (emp : Assertion WriteGuard))

instance movableTable {indexes : List IndexMeta} {M : TableModel} :
    Movable Sealed (TableAt root indexes M) := inferInstanceAs (Movable Sealed (Whole _))

/-! ## Copies of a file -/

variable {storable : UInt64 → List UInt8 → Prop} {keyed : Prop} {tables tables' : Tables}
  {Ms : String → TableModel}

theorem lt_bound_of_view {file : PageFile} {p : ℕ} {page : Page} (hclean : file.writeState = ⟨∅, 0⟩)
    (h : PageStore.view file p = some page) : p < PageStore.bound file := by
  rw [view_eq_some, view_eq_readPage hclean, PageFile.readPage] at h
  show p < WriteGuard.bound file
  rw [bound_eq_pageCount hclean]
  by_cases hnum : file.numPages ≤ p
  · rw [if_pos hnum] at h
    cases h
  · exact Nat.lt_of_not_le hnum

/-- **The tables are in every copy of their file.** -/
theorem DbOk.copied {file file' : PageFile} (h : DbOk storable keyed true tables Ms file)
    (hcopy : Copies Sealed file file') (hclean : file'.writeState = ⟨∅, 0⟩)
    (hpos : 0 < file'.pageCount) (htables : ∀ name, tables'.lookup name = tables.lookup name) :
    DbOk storable keyed true tables' Ms file' := by
  obtain ⟨-, P, hP, rfl⟩ := h.owned
  refine ⟨⟨_, P, ⟨fun i => ?_, hP.disjoint⟩, rfl⟩, fun name state hname => ?_, nofun⟩
  · have howns := hP.owns i
    cases i with
    | none =>
        rw [owners, if_pos rfl] at howns ⊢
        refine ⟨howns.1, ?_⟩
        rw [bound_eq_pageCount hclean]
        exact hpos
    | some name =>
        rw [owners] at howns ⊢
        rw [htables name]
        cases hname : tables.lookup name with
        | none =>
            rw [hname] at howns
            exact howns
        | some state =>
            rw [hname] at howns
            exact Movable.copied howns hcopy fun p page => lt_bound_of_view hclean
  · rw [htables name] at hname
    exact h.each name state hname

end

end BoogyDb

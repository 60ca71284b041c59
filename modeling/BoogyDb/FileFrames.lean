import BoogyDb.TransactionCalls

/-!
# The file under the overlay

Until it commits, a write guard changes nothing but the write state: the data file, the page
count and the shared cache stay (`SameFile`), also when the call fails, and whatever an
earlier call has left in the overlay.
-/

namespace BoogyDb

open Wp WriteGuard

/-- Nothing but the write state has changed. -/
def SameFile (g g' : WriteGuard) : Prop := g' = { g with writeState := g'.writeState }

theorem SameFile.refl (g : WriteGuard) : SameFile g g := rfl

theorem SameFile.trans {g₁ g₂ g₃ : WriteGuard} (h : SameFile g₁ g₂) (h' : SameFile g₂ g₃) :
    SameFile g₁ g₃ := by
  unfold SameFile at h h' ⊢
  rw [h', h]

theorem SameFile.put (g : WriteGuard) (state : WriteState) :
    SameFile g { g with writeState := state } := rfl

theorem OverlayGrows.sameFile {g g' : WriteGuard} (h : OverlayGrows g g') : SameFile g g' := h.file

/-- A program under the write guard that leaves the file as it is. -/
abbrev Framed {α : Type} (x : StateResult WriteGuard α) : Prop := Within SameFile x

namespace Framed

variable {α β γ : Type}

theorem pure (a : α) : Framed (pure a) := within_pure SameFile.refl a

theorem throw (e : Fault) : Framed (throw e : StateResult WriteGuard α) :=
  within_throw SameFile.refl e

theorem bind {x : StateResult WriteGuard α} {f : α → StateResult WriteGuard β} (hx : Framed x)
    (hf : ∀ a, Framed (f a)) : Framed (x >>= f) := within_bind SameFile.trans hx hf

theorem forM {f : γ → StateResult WriteGuard PUnit} (l : List γ) (hf : ∀ a, Framed (f a)) :
    Framed (l.forM f) := within_forM SameFile.refl SameFile.trans l hf

theorem mapM {f : γ → StateResult WriteGuard α} (l : List γ) (hf : ∀ a, Framed (f a)) :
    Framed (l.mapM f) := within_mapM SameFile.refl SameFile.trans l hf

/-- What grows the overlay leaves the file. -/
theorem of_overlay {x : StateResult WriteGuard α} (h : OverlayFrom 0 x) : Framed x := fun g =>
  (h g (Nat.zero_le _)).mono (fun _ _ => OverlayGrows.sameFile) fun _ _ => OverlayGrows.sameFile

theorem readOnly (f : WriteGuard → Result α) : Framed (readOnly f) :=
  of_overlay (OverlayFrom.readOnly f)

theorem lift (x : Result α) : Framed (liftM x : StateResult WriteGuard α) :=
  of_overlay (OverlayFrom.lift x)

theorem putPage (pageNo : ℕ) (page : Page) : Framed (putPage pageNo page) := fun g =>
  SameFile.put g _

theorem allocatePage : Framed allocatePage := by
  intro g
  rw [wp, WriteGuard.allocatePage]
  split
  · rename_i hrun
    split at hrun
    · cases hrun
    · split at hrun
      · cases hrun
      · cases hrun
        rfl
  · rename_i hrun
    split at hrun
    · cases hrun
      rfl
    · split at hrun
      · cases hrun
        rfl
      · cases hrun

section

variable [Crc32Fast]

/-! ## Leaf by leaf -/

theorem rewriteLeaves (cycleError : String) {step : ℕ → Page → α → StateResult WriteGuard α}
    (hstep : ∀ current page acc, Framed (step current page acc)) (fuel current : ℕ) (acc : α) :
    Framed (BoogyDb.rewriteLeaves cycleError step fuel current acc) := by
  induction fuel generalizing current acc with
  | zero => exact throw _
  | succ fuel ih =>
      unfold BoogyDb.rewriteLeaves
      refine (readOnly _).bind fun page => (hstep _ _ _).bind fun acc => ?_
      exact WithinOr.ite (pure _) (ih _ _)

theorem deleteMatching (root : ℕ) (pred : List UInt8 → Bool) :
    Framed (BTreeWriter.deleteMatching root pred) := by
  refine (readOnly _).bind fun _ => (readOnly _).bind fun _ => rewriteLeaves _ ?_ _ _ _
  intro current page acc
  refine (readOnly _).bind fun matched => WithinOr.ite (pure _) ?_
  exact (of_overlay (OverlayFrom.modifyPage _ _)).bind fun _ => pure _

theorem updateMatching (root : ℕ) (pred : List UInt8 → Bool) (updater : List UInt8 → List UInt8) :
    Framed (BTreeWriter.updateMatching root pred updater) := by
  refine (readOnly _).bind fun _ => (readOnly _).bind fun _ => rewriteLeaves _ ?_ _ _ _
  intro current page acc
  refine (readOnly _).bind fun replacements => WithinOr.ite (pure _) ?_
  refine (readOnly _).bind fun wp => (lift _).bind fun rewritten => ?_
  cases rewritten with
  | some wp => exact (putPage _ _).bind fun _ => pure _
  | none => exact (putPage _ _).bind fun _ => pure _

/-! ## Trees and indexes -/

theorem insertRow (root : ℕ) (rowid : UInt64) (row : List UInt8) :
    Framed (BTreeWriter.insert root rowid row) := of_overlay (OverlayFrom.insertRow _ _ _)

theorem deleteRow (root : ℕ) (rowid : UInt64) : Framed (BTreeWriter.delete root rowid) :=
  of_overlay (OverlayFrom.deleteRow _ _)

theorem insertKey (root : ℕ) (key : List UInt8) : Framed (IndexTreeWriter.insert root key) :=
  of_overlay (OverlayFrom.insertKey _ _)

theorem createTree : Framed BoogyDb.createTree := of_overlay OverlayFrom.createTree

theorem updateIndex (state : TableMeta) (idx : IndexMeta) (rowid : UInt64) (bytes : List UInt8)
    (remove : Bool) : Framed (Session.updateIndex .code state idx rowid bytes remove) := by
  refine (lift _).bind fun key => ?_
  cases key with
  | none => exact pure _
  | some key =>
      refine WithinOr.ite ?_ ((insertKey _ _).bind fun _ => pure _)
      exact (of_overlay (OverlayFrom.deleteKey _ _)).bind fun _ => pure _

theorem populateIndex (indexName : String) (cols : List (UInt16 × ColumnType)) (unique : Bool)
    (rows : List (UInt64 × List UInt8)) (seen : List (List UInt8)) (root : ℕ) :
    Framed (Session.populateIndex .code indexName cols unique rows seen root) := by
  induction rows generalizing seen root with
  | nil => exact pure _
  | cons row rows ih =>
      refine (lift _).bind fun vals => WithinOr.ite (throw _) ?_
      dsimp only
      cases encodeCompositeIndexKey vals row.1 with
      | none => exact ih _ _
      | some key => exact (insertKey _ _).bind fun root => ih _ _

/-! ## The registry -/

theorem serializeSystemPage (metas : List TableRecord) (nextTableId : UInt32) :
    Framed (BoogyDb.serializeSystemPage metas nextTableId) := by
  refine WithinOr.ite ((lift _).bind fun _ => pure _) ?_
  refine (mapM _ fun _ => allocatePage).bind fun numbers => (lift _).bind fun pages => ?_
  exact (lift _).bind fun page0 => (lift _).bind fun page0 => pure _

theorem writeRegistry (metas : List TableMeta) (nextTableId : UInt32) :
    Framed (BoogyDb.writeRegistry metas nextTableId) := by
  unfold BoogyDb.writeRegistry
  refine (readOnly _).bind fun pageCount => ?_
  extract_lets rest
  have hrest : Framed (rest ()) := by
    refine (serializeSystemPage _ _).bind fun r => (putPage _ _).bind fun _ => ?_
    exact forM _ fun p => putPage _ _
  exact WithinOr.ite ((allocatePage.bind fun _ => pure _).bind fun _ => hrest) hrest

end

end Framed

end BoogyDb

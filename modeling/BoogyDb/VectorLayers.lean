import BoogyDb.VectorRuns

/-!
# Layers and records

A neighbor list that is read or written has to lie in the record of its node.  The code does
not check it: the record says how many layers it has, and `readNeighbors` and
`writeNeighbors` do not look.  `Access.watched` looks, and also at the ids that are read.

As long as the calls fit, nothing is read or written outside
(`VectorRun.stays_in_records`).  The entry point that takes the place of a deleted one need
not have the layers of the header, and then the next search starts above its record.
-/

namespace BoogyDb

open VecFile Wp

namespace VecFile

/-- The list lies in the record of the node, and in no other record. -/
def OwnsList (f : VecFile) (n layer : ℕ) : Prop :=
  n < f.header.nodeCount ∧ layer ≤ f.levelOf n ∧
    ∀ n' < f.header.nodeCount, n' ≠ n →
      f.listStart n layer + layerEntrySize layer f.header.m ≤ f.recordStart n' ∨
        f.recordStart n' + f.recordSize n' ≤ f.listStart n layer

instance (f : VecFile) (n layer : ℕ) : Decidable (f.OwnsList n layer) := by
  unfold OwnsList
  infer_instance

theorem Layout.ownsList {f : VecFile} {n layer : ℕ} (hf : Layout f) (hon : f.graph.On layer n) :
    f.OwnsList n layer := by
  refine ⟨hon.1, hon.2, fun n' hn' hne => ?_⟩
  have hlist := list_le hon.2
  have hstart : f.recordStart n ≤ f.listStart n layer := Nat.le_add_right _ _
  have hrecord := recordStart_eq f n
  have hrecord' := recordStart_eq f n'
  rcases hf.records.apart hon.1 hn' hne.symm with h | h
  · exact Or.inl (by omega)
  · exact Or.inr (by omega)

end VecFile

/-- The accesses of the code; `none` is an access outside the record, or an id of no node. -/
def Access.watched : Access (Option Fault) where
  lift := some
  readNeighbors f n layer :=
    if f.OwnsList n layer then
      match f.readNeighbors n layer with
      | .ok neighbors =>
          if ∀ x ∈ neighbors, x < f.header.nodeCount then .ok neighbors else .error none
      | .error e => .error (some e)
    else .error none
  writeNeighbors f n layer neighbors :=
    if f.OwnsList n layer then
      match f.writeNeighbors n layer neighbors with
      | .ok f' => .ok f'
      | .error e => .error (some e)
    else .error none

/-- On a layered graph nothing is found by watching. -/
theorem Access.watched_sound : Access.watched.Sound where
  read f layer n hf hlayered hon := by
    unfold Access.watched
    dsimp only
    rw [if_pos (hf.ownsList hon), hf.readNeighbors hon.1 hon.2]
    exact if_pos fun x hx => (hlayered layer n hon x hx).1
  write f f' layer n neighbors hf hon hrun := by
    unfold Access.watched
    dsimp only
    rw [if_pos (hf.ownsList hon), hrun]

section

variable (distanceFn : DistanceMetric → List UInt32 → List UInt32 → UInt32) (order : HeapOrder)
  (Fits : VectorCollection → VectorOp → Prop)

/-- The next call and every search stay in the records. -/
structure StaysInRecords (c : VectorCollection) : Prop where
  calls : ∀ op : VectorOp, op.layer < 2 ^ 32 → Fits c op → ∀ c',
    op.run Access.watched distanceFn order c ≠ .error none c'
  searches : ∀ (query : List UInt32) (k efSearch : ℕ)
    (rowLoader : Option (UInt64 → Option (List (String × Value)))) (filter : Option Filter),
    VectorCollection.search Access.watched distanceFn order c query k efSearch rowLoader filter ≠
      .error none

end

variable {distanceFn : DistanceMetric → List UInt32 → List UInt32 → UInt32} {order : HeapOrder}
  {c₀ c : VectorCollection}

theorem CollectionInv.staysInRecords (hc : CollectionInv c) :
    StaysInRecords distanceFn order (fun c op => op.Fits c) c := by
  refine ⟨fun op hlayer hfits c' hrun => ?_, fun query k efSearch rowLoader filter hrun => ?_⟩
  · cases @VectorOp.run_ends _ _ _ _ distanceFn order Access.watched_sound hc hlayer hfits with
    | ok c' hok _ =>
        rw [hok] at hrun
        cases hrun
    | error e c' herr _ =>
        rw [herr] at hrun
        cases hrun
    | overflow c' hover =>
        rw [hover] at hrun
        cases hrun
  · rcases @VectorCollection.search_ok _ _ _ distanceFn order Access.watched_sound hc query k
      efSearch rowLoader filter with ⟨⟨e, herr⟩, -⟩ | ⟨found, hok, -⟩
    · rw [herr] at hrun
      cases hrun
    · rw [hok] at hrun
      cases hrun

/-- **In a run of calls that fit, every list that is read or written lies in the record of its
node.** -/
theorem VectorRun.stays_in_records {options : VectorCollectionOptions} {cipher : Option Aes256Gcm}
    {nonces : ℕ → Nonce} (hcreate : VectorCollection.create options cipher nonces = .ok c₀)
    (hrun : VectorRun distanceFn order (fun c op => op.Fits c) c₀ c) :
    StaysInRecords distanceFn order (fun c op => op.Fits c) c :=
  (hrun.inv (VectorCollection.create_inv hcreate)).staysInRecords

/-- The distance of equal vectors. -/
def noDistance : DistanceMetric → List UInt32 → List UInt32 → UInt32 := fun _ _ _ => 0

def HeapOrder.inOrder : HeapOrder := ⟨id, fun _ => .refl _⟩

/-- A new collection of vectors with one dimension. -/
def newVectors (m : ℕ) : VectorCollection :=
  ⟨VecFile.create 1 .euclidean m 10 1024, VectorWal.create none VectorWal.zeroNonces, ∅, ∅⟩

theorem VecFile.InsertFits.of_new {f : VecFile} {layer : ℕ} (hhead : f.header.freeListHead = none)
    (hroom : f.HasRoom layer) : f.InsertFits layer :=
  ⟨fun _ hv => (nomatch hhead.symm.trans hv), hroom⟩

instance (f : VecFile) (layer : ℕ) : Decidable (f.HasRoom layer) := by
  unfold VecFile.HasRoom
  infer_instance

/-- Two vectors, the second of which is deleted again. -/
theorem VectorRun.stays_in_records_two : ∃ c,
    (newVectors 2).after noDistance .inOrder [.insert 1 [0] 1, .insert 2 [0] 0, .delete 2] = some c ∧
      StaysInRecords noDistance .inOrder (fun c op => op.Fits c) c := by
  have hcreate : VectorCollection.create ⟨1, .euclidean, 2, 10⟩ none VectorWal.zeroNonces =
    .ok (newVectors 2) := rfl
  have heval : ((newVectors 2).after noDistance .inOrder
        [.insert 1 [0] 1, .insert 2 [0] 0, .delete 2]).isSome = true ∧
      ((newVectors 2).after noDistance .inOrder [.insert 1 [0] 1]).any (fun c =>
        c.vecfile.header.freeListHead = none ∧ c.vecfile.HasRoom 0) = true ∧
      ((newVectors 2).after noDistance .inOrder [.insert 1 [0] 1, .insert 2 [0] 0]).any (fun c =>
        c.rowidToNode.lookup 2 = some 1 ∧ c.vecfile.header.entryPoint = some 0) = true := by
    decide +kernel
  obtain ⟨hsome, hafter₁, hafter₂⟩ := heval
  obtain ⟨c₃, hafter₃⟩ := Option.isSome_iff_exists.mp hsome
  obtain ⟨c₁, hrun₁, hrest⟩ := VectorCollection.after_cons.mp hafter₃
  obtain ⟨c₂, hrun₂, hrest⟩ := VectorCollection.after_cons.mp hrest
  obtain ⟨c₃', hrun₃, hnil⟩ := VectorCollection.after_cons.mp hrest
  obtain rfl : c₃' = c₃ := Option.some.inj hnil
  rw [VectorCollection.after_cons.mpr ⟨c₁, hrun₁, rfl⟩, Option.any_some, decide_eq_true_eq] at hafter₁
  rw [VectorCollection.after_cons.mpr ⟨c₁, hrun₁, VectorCollection.after_cons.mpr ⟨c₂, hrun₂, rfl⟩⟩,
    Option.any_some, decide_eq_true_eq] at hafter₂
  have hfits₁ : VectorOp.Fits (newVectors 2) (.insert 1 [0] 1) := fun _ _ =>
    .of_new rfl (by decide)
  have hfits₂ : VectorOp.Fits c₁ (.insert 2 [0] 0) := fun _ _ => .of_new hafter₁.1 hafter₁.2
  have hfits₃ : VectorOp.Fits c₂ (.delete 2) := by
    intro v hv n hep _
    rw [hafter₂.1] at hv
    rw [hafter₂.2] at hep
    cases hv
    cases hep
  have hfirst : VectorRun noDistance .inOrder (fun c op => op.Fits c) (newVectors 2) c₁ :=
    .step .start (by decide) hfits₁ (Or.inl ⟨_, hrun₁⟩)
  have hsecond := hfirst.step (by decide) hfits₂ (Or.inl ⟨_, hrun₂⟩)
  exact ⟨c₃', hafter₃, VectorRun.stays_in_records hcreate
    (hsecond.step (by decide) hfits₃ (Or.inl ⟨_, hrun₃⟩))⟩

/-- A watched call was stopped at a read behind a record. -/
def leftRecords {α : Type} : Except (Option Fault) α → Bool
  | .error none => true
  | _ => false

/-- The entry point has two layers and is deleted: the other node takes its place and has one,
and the next search reads its list on the second. -/
theorem not_stays_in_records_always : ¬ ∀ (options : VectorCollectionOptions)
    (cipher : Option Aes256Gcm) (nonces : ℕ → Nonce) (c₀ c : VectorCollection),
    VectorCollection.create options cipher nonces = .ok c₀ →
      VectorRun noDistance .inOrder (fun _ _ => True) c₀ c →
        StaysInRecords noDistance .inOrder (fun _ _ => True) c := by
  intro h
  have heval : ((newVectors 2).after noDistance .inOrder
      [.insert 1 [0] 1, .insert 2 [0] 0, .delete 1]).any (fun c => leftRecords
        (VectorCollection.search Access.watched noDistance .inOrder c [0] 1 1 none none)) = true := by
    decide +kernel
  cases hafter : (newVectors 2).after noDistance .inOrder
      [.insert 1 [0] 1, .insert 2 [0] 0, .delete 1] with
  | none =>
      rw [hafter] at heval
      cases heval
  | some c =>
      rw [hafter, Option.any_some] at heval
      have hrun := VectorRun.of_after VectorRun.start (by decide) hafter
      have hstays := h ⟨1, .euclidean, 2, 10⟩ none VectorWal.zeroNonces _ c rfl hrun
      cases hsearch : VectorCollection.search Access.watched noDistance .inOrder c [0] 1 1 none none
        with
      | ok found =>
          rw [hsearch] at heval
          cases heval
      | error e =>
          rw [hsearch] at heval
          cases e with
          | none => exact hstays.searches _ _ _ _ _ hsearch
          | some e => cases heval

end BoogyDb

import BoogyDb.VectorLayers

/-!
# The entry point of a vector collection

A search starts at the entry point of the header.  An insertion leaves it at a live node.  A
deletion of the entry point puts the first neighbor on layer 0 that is not deleted in its
place, and looks no further: other live nodes can be left behind.  `KeepsEntry` says when
that does not happen, and in a run where it never happens the entry point is live as long
as there is a live vector (`VectorRun.enters_at_live`).
-/

namespace BoogyDb

open VecFile VectorCollection Wp

/-- Where another node is live, the entry point is not deleted, or a neighbor other than
itself takes its place. -/
def VecFile.KeepsEntry (f : VecFile) (v : ℕ) : Prop :=
  f.header.entryPoint = some v → (∃ n, n ≠ v ∧ f.Live n) → ∃ n, n ≠ v ∧ f.entryWithout v = some n

/-- An update whose vector has the right length inserts the node again. -/
def VectorOp.KeepsEntry (c : VectorCollection) : VectorOp → Prop
  | .insert _ _ _ => True
  | .delete rowid => ∀ v, c.rowidToNode.lookup rowid = some v → c.vecfile.KeepsEntry v
  | .update rowid vector _ => vector.length ≠ c.vecfile.header.dimensions →
      ∀ v, c.rowidToNode.lookup rowid = some v → c.vecfile.KeepsEntry v

/-- The entry point is live, or no node is and it will be the next that is used. -/
structure EntryInv (c : VectorCollection) : Prop where
  live : ∀ n, c.vecfile.Live n →
    ∃ ep, c.vecfile.header.entryPoint = some ep ∧ c.vecfile.Live ep
  dead : ∀ ep, c.vecfile.header.entryPoint = some ep → ¬ c.vecfile.Live ep →
    c.vecfile.header.freeListHead = some ep

section

variable (distanceFn : DistanceMetric → List UInt32 → List UInt32 → UInt32) (order : HeapOrder)

/-- With a live vector the entry point is live and a search finds something, and without one
it finds nothing. -/
structure EntersAtLive (c : VectorCollection) : Prop where
  entry : ∀ rowid n, c.rowidToNode.lookup rowid = some n → ∃ ep rowid',
    c.vecfile.header.entryPoint = some ep ∧ c.vecfile.Live ep ∧
      c.rowidToNode.lookup rowid' = some ep
  finds : ∀ rowid n, c.rowidToNode.lookup rowid = some n →
    ∀ (query : List UInt32) (k efSearch : ℕ)
      (rowLoader : Option (UInt64 → Option (List (String × Value)))),
      query.length = c.vecfile.header.dimensions → 0 < k → ∃ r found,
        VectorCollection.search Access.code distanceFn order c query k efSearch rowLoader none =
          .ok (r :: found)
  nothing : (∀ rowid n, c.rowidToNode.lookup rowid ≠ some n) →
    ∀ (query : List UInt32) (k efSearch : ℕ)
      (rowLoader : Option (UInt64 → Option (List (String × Value)))) (filter : Option Filter),
      query.length = c.vecfile.header.dimensions →
        VectorCollection.search Access.code distanceFn order c query k efSearch rowLoader filter =
          .ok []

end

variable {distanceFn : DistanceMetric → List UInt32 → List UInt32 → UInt32} {order : HeapOrder}
  {c₀ c c' : VectorCollection} {rowid : UInt64} {v layer : ℕ}

theorem CollectionInv.live_iff (hc : CollectionInv c) {n : ℕ} :
    c.vecfile.Live n ↔ ∃ rowid, c.rowidToNode.lookup rowid = some n := by
  rw [← hc.mapped n]
  exact exists_congr fun rowid => (hc.inverse rowid n).symm

theorem EntryInv.entersAtLive (he : EntryInv c) (hc : CollectionInv c) :
    EntersAtLive distanceFn order c := by
  refine ⟨fun rowid n hrow => ?_, fun rowid n hrow query k efSearch rowLoader hlen hk => ?_,
    fun hnone query k efSearch rowLoader filter hlen => ?_⟩
  · obtain ⟨ep, hep, hlive⟩ := he.live n (hc.live_iff.mpr ⟨rowid, hrow⟩)
    obtain ⟨rowid', hrow'⟩ := hc.live_iff.mp hlive
    exact ⟨ep, rowid', hep, hlive, hrow'⟩
  · have hentry := he.live n (hc.live_iff.mpr ⟨rowid, hrow⟩)
    rcases @search_ok _ _ _ distanceFn order Access.code_sound hc query k efSearch rowLoader none
      with ⟨-, hne⟩ | ⟨found, hrun, -, hfound⟩
    · exact absurd hlen hne
    · obtain ⟨r, rest, rfl⟩ := List.exists_cons_of_ne_nil (hfound hk rfl hentry)
      exact ⟨r, rest, hrun⟩
  · rcases @search_ok _ _ _ distanceFn order Access.code_sound hc query k efSearch rowLoader filter
      with ⟨-, hne⟩ | ⟨found, hrun, hmapped, -⟩
    · exact absurd hlen hne
    · cases found with
      | nil => exact hrun
      | cons r found =>
          obtain ⟨n, hn⟩ := hmapped r List.mem_cons_self
          exact absurd hn (hnone r.rowid n)

/-! ## One call -/

/-- After an insertion the entry point is live, if it was the node that was freed last where
it was not. -/
theorem VectorCollection.Inserted.entryInv (h : Inserted c c' rowid layer v)
    (hdead : ∀ ep, c.vecfile.header.entryPoint = some ep → ¬ c.vecfile.Live ep →
      c.vecfile.header.freeListHead = some ep) : EntryInv c' := by
  have hlive : ∃ ep, c'.vecfile.header.entryPoint = some ep ∧ c'.vecfile.Live ep := by
    rcases h.entry with hnew | ⟨hsome, hsame⟩
    · exact ⟨v, hnew, (h.live v).mpr (Or.inl rfl)⟩
    · obtain ⟨ep, hep⟩ := Option.isSome_iff_exists.mp hsome
      refine ⟨ep, hsame.trans hep, (h.live ep).mpr ?_⟩
      by_cases hlive : c.vecfile.Live ep
      · exact Or.inr hlive
      · have hhead := hdead ep hep hlive
        rcases h.was with hwas | hwas
        · rw [hhead] at hwas
          exact Or.inl (Option.some.inj hwas)
        · rw [hhead] at hwas
          exact nomatch hwas
  obtain ⟨ep, hep, hepLive⟩ := hlive
  refine ⟨fun _ _ => ⟨ep, hep, hepLive⟩, fun ep' hep' hdead' => ?_⟩
  rw [hep] at hep'
  cases hep'
  exact absurd hepLive hdead'

theorem entryWithout_live {f : VecFile} (hf : GraphInv f) (hv : f.Live v)
    (hentry : f.header.entryPoint = some v) {n : ℕ} (hn : f.entryWithout v = some n) :
    f.Live n := by
  unfold VecFile.entryWithout at hn
  rw [if_pos hentry] at hn
  have hdel := List.find?_some hn
  have hon := hf.layered 0 v ⟨hv.1, Nat.zero_le _⟩ n (List.mem_of_find?_eq_some hn)
  exact ⟨hon.1, by rwa [Bool.not_eq_true'] at hdel⟩

/-- After a deletion an entry point that is not live is the node that was deleted. -/
theorem VectorCollection.Deleted.dead (h : Deleted c c' rowid v) (hc : CollectionInv c)
    (he : EntryInv c) {ep : ℕ} (hep : c'.vecfile.header.entryPoint = some ep)
    (hdead : ¬ c'.vecfile.Live ep) : c'.vecfile.header.freeListHead = some ep := by
  have hv : c.vecfile.Live v := hc.live_iff.mpr ⟨rowid, h.was⟩
  rw [h.header] at hep ⊢
  have hlive : c.vecfile.Live ep := by
    by_cases hentry : c.vecfile.header.entryPoint = some v
    · exact entryWithout_live hc.graph hv hentry hep
    · have hsame : c.vecfile.header.entryPoint = some ep := by
        dsimp only at hep
        unfold VecFile.entryWithout at hep
        rwa [if_neg hentry] at hep
      obtain ⟨ep', hep', hlive⟩ := he.live v hv
      rw [hsame] at hep'
      cases hep'
      exact hlive
  by_cases heq : ep = v
  · rw [heq]
  · exact absurd ((h.live ep).mpr ⟨heq, hlive⟩) hdead

theorem VectorCollection.Deleted.entryInv (h : Deleted c c' rowid v) (hc : CollectionInv c)
    (he : EntryInv c) (hkeeps : c.vecfile.KeepsEntry v) : EntryInv c' := by
  refine ⟨fun n hn => ?_, fun ep hep hdead => h.dead hc he hep hdead⟩
  have hv : c.vecfile.Live v := hc.live_iff.mpr ⟨rowid, h.was⟩
  obtain ⟨hne, hlive⟩ := (h.live n).mp hn
  have hentry' : c'.vecfile.header.entryPoint = c.vecfile.entryWithout v := by rw [h.header]
  by_cases hentry : c.vecfile.header.entryPoint = some v
  · obtain ⟨ep, hep, hwithout⟩ := hkeeps hentry ⟨n, hne, hlive⟩
    have hepLive := entryWithout_live hc.graph hv hentry hwithout
    exact ⟨ep, hentry'.trans hwithout, (h.live ep).mpr ⟨hep, hepLive⟩⟩
  · obtain ⟨ep, hep, hepLive⟩ := he.live v hv
    have hwithout : c.vecfile.entryWithout v = some ep := by
      unfold VecFile.entryWithout
      rw [if_neg hentry, hep]
    have hepNe : ep ≠ v := by
      rintro rfl
      exact hentry hep
    exact ⟨ep, hentry'.trans hwithout, (h.live ep).mpr ⟨hepNe, hepLive⟩⟩

/-- **A call that fits and keeps the entry point keeps it live.** -/
theorem VectorOp.entryInv {op : VectorOp} (hc : CollectionInv c) (he : EntryInv c)
    (hlayer : op.layer < 2 ^ 32) (hfits : op.Fits c) (hkeeps : op.KeepsEntry c)
    (hreturns : ReturnsTo (op.run Access.code distanceFn order) c c') : EntryInv c' := by
  cases op with
  | insert rowid vector layer =>
      have hlayer : layer < 2 ^ 32 := hlayer
      rcases @insert_ok _ _ _ rowid vector layer distanceFn order Access.code_sound hc (by omega)
        hfits with ⟨-, e, herr⟩ | hover | ⟨v, c₁, hok, hins⟩
      · rw [hreturns.eq_of_error (VectorOp.run_discard_error herr)]
        exact he
      · exact (hreturns.not_overflow (VectorOp.run_discard_error hover)).elim
      · rw [hreturns.eq_of_ok (VectorOp.run_discard_ok hok)]
        exact hins.entryInv he.dead
  | delete rowid =>
      rcases delete_ok Access.code_sound hc hfits with ⟨e, herr⟩ | ⟨v, c₁, hok, hdel⟩
      · rw [hreturns.eq_of_error herr]
        exact he
      · rw [hreturns.eq_of_ok hok]
        exact hdel.entryInv hc he (hkeeps v hdel.was)
  | update rowid vector layer =>
      have hlayer : layer < 2 ^ 32 := hlayer
      rcases delete_ok Access.code_sound hc fun v hv => (hfits v hv).1 with
        ⟨e, herr⟩ | ⟨v, c₁, hok, hdel⟩
      · rw [hreturns.eq_of_error (VectorOp.run_discard_error (run_bind_error herr))]
        exact he
      have hupdate : VectorCollection.update Access.code distanceFn order rowid vector layer c =
          VectorCollection.insert Access.code distanceFn order rowid vector layer c₁ :=
        run_bind_ok hok
      have hdims₁ : c₁.vecfile.header.dimensions = c.vecfile.header.dimensions := by
        rw [hdel.header]
      have hgone : rowid ∉ c₁.rowidToNode := by
        rw [hdel.rowids]
        exact AList.lookup_eq_none.mp (AList.lookup_erase _ _)
      have hfits₁ : vector.length = c₁.vecfile.header.dimensions → rowid ∉ c₁.rowidToNode →
          c₁.vecfile.InsertFits layer := fun hdims _ =>
        hdel.insertFits ((hfits v hdel.was).2 (hdims₁ ▸ hdims))
      rcases @insert_ok _ _ _ rowid vector layer distanceFn order Access.code_sound hdel.inv
        (by omega) hfits₁ with ⟨hwhy, e, herr⟩ | hover | ⟨v', c₂, hok', hins⟩
      · rw [hreturns.eq_of_error (VectorOp.run_discard_error (hupdate.trans herr))]
        have hdims := hwhy.resolve_right hgone
        exact hdel.entryInv hc he (hkeeps (hdims₁ ▸ hdims) v hdel.was)
      · exact (hreturns.not_overflow (VectorOp.run_discard_error (hupdate.trans hover))).elim
      · -- the node is inserted again, whatever the entry point has become
        rw [hreturns.eq_of_ok (VectorOp.run_discard_ok (hupdate.trans hok'))]
        exact hins.entryInv fun ep hep hdead => hdel.dead hc he hep hdead

/-- **The entry point is live in every state of a run whose calls fit and keep it.** -/
theorem VectorRun.entryInv
    (h : VectorRun distanceFn order (fun c op => op.Fits c ∧ op.KeepsEntry c) c₀ c)
    (hc₀ : CollectionInv c₀) (he₀ : EntryInv c₀) : CollectionInv c ∧ EntryInv c := by
  induction h with
  | start => exact ⟨hc₀, he₀⟩
  | step hrun hlayer hfits hreturns ih =>
      obtain ⟨hc, he⟩ := ih
      refine ⟨VectorRun.inv (.step .start hlayer hfits.1 hreturns) hc, ?_⟩
      exact VectorOp.entryInv hc he hlayer hfits.1 hfits.2 hreturns

/-- **In a run whose calls fit and keep the entry point, a collection with a live vector is
entered at a live node**, and a search of it finds something. -/
theorem VectorRun.enters_at_live {options : VectorCollectionOptions} {cipher : Option Aes256Gcm}
    {nonces : ℕ → Nonce} (hcreate : VectorCollection.create options cipher nonces = .ok c₀)
    (hrun : VectorRun distanceFn order (fun c op => op.Fits c ∧ op.KeepsEntry c) c₀ c) :
    EntersAtLive distanceFn order c := by
  have hc₀ := VectorCollection.create_inv hcreate
  have hentry : c₀.vecfile.header.entryPoint = none ∧ c₀.vecfile.header.nodeCount = 0 := by
    unfold VectorCollection.create at hcreate
    split at hcreate
    · cases hcreate
    · split at hcreate
      · cases hcreate
      · cases hcreate
        exact ⟨rfl, rfl⟩
  have he₀ : EntryInv c₀ := by
    refine ⟨fun n hn => ?_, fun ep hep => ?_⟩
    · have hlt := hn.1
      rw [hentry.2] at hlt
      exact absurd hlt (Nat.not_lt_zero _)
    · rw [hentry.1] at hep
      exact nomatch hep
  obtain ⟨hc, he⟩ := hrun.entryInv hc₀ he₀
  exact he.entersAtLive hc

/-- Two vectors, the first of which is deleted: the second takes its place. -/
theorem VectorRun.enters_at_live_second : ∃ c,
    (newVectors 16).after noDistance .inOrder [.insert 1 [0] 0, .insert 2 [0] 0, .delete 1] = some c ∧
      EntersAtLive noDistance .inOrder c := by
  have hcreate : VectorCollection.create ⟨1, .euclidean, 16, 10⟩ none VectorWal.zeroNonces =
    .ok (newVectors 16) := rfl
  have heval : ((newVectors 16).after noDistance .inOrder
        [.insert 1 [0] 0, .insert 2 [0] 0, .delete 1]).isSome = true ∧
      ((newVectors 16).after noDistance .inOrder [.insert 1 [0] 0]).any (fun c =>
        c.vecfile.header.freeListHead = none ∧ c.vecfile.HasRoom 0) = true ∧
      ((newVectors 16).after noDistance .inOrder [.insert 1 [0] 0, .insert 2 [0] 0]).any (fun c =>
        c.rowidToNode.lookup 1 = some 0 ∧ c.vecfile.header.maxLayer = 0 ∧
          c.vecfile.entryWithout 0 = some 1) = true := by
    decide +kernel
  obtain ⟨hsome, hafter₁, hafter₂⟩ := heval
  obtain ⟨c₃, hafter₃⟩ := Option.isSome_iff_exists.mp hsome
  obtain ⟨c₁, hrun₁, hrest⟩ := VectorCollection.after_cons.mp hafter₃
  obtain ⟨c₂, hrun₂, hrest⟩ := VectorCollection.after_cons.mp hrest
  obtain ⟨c₃', hrun₃, hnil⟩ := VectorCollection.after_cons.mp hrest
  obtain rfl : c₃' = c₃ := Option.some.inj hnil
  rw [VectorCollection.after_cons.mpr ⟨c₁, hrun₁, rfl⟩, Option.any_some, decide_eq_true_eq] at hafter₁
  rw [VectorCollection.after_cons.mpr ⟨c₁, hrun₁, VectorCollection.after_cons.mpr ⟨c₂, hrun₂, rfl⟩⟩,
    Option.any_some, decide_eq_true_eq] at hafter₂
  obtain ⟨hlookup, hmax, hwithout⟩ := hafter₂
  have hfits₁ : VectorOp.Fits (newVectors 16) (.insert 1 [0] 0) := fun _ _ =>
    .of_new rfl (by decide)
  have hfits₂ : VectorOp.Fits c₁ (.insert 2 [0] 0) := fun _ _ => .of_new hafter₁.1 hafter₁.2
  have hfits₃ : VectorOp.Fits c₂ (.delete 1) := fun v _ n _ _ => by
    rw [hmax]
    exact Nat.zero_le _
  have hkeeps₃ : VectorOp.KeepsEntry c₂ (.delete 1) := by
    intro v hv _ _
    rw [hlookup] at hv
    cases hv
    exact ⟨1, by decide, hwithout⟩
  have hfirst : VectorRun noDistance .inOrder (fun c op => op.Fits c ∧ op.KeepsEntry c)
      (newVectors 16) c₁ :=
    .step .start (by decide) ⟨hfits₁, trivial⟩ (Or.inl ⟨_, hrun₁⟩)
  have hsecond := hfirst.step (by decide) ⟨hfits₂, trivial⟩ (Or.inl ⟨_, hrun₂⟩)
  exact ⟨c₃', hafter₃, VectorRun.enters_at_live hcreate
    (hsecond.step (by decide) ⟨hfits₃, hkeeps₃⟩ (Or.inl ⟨_, hrun₃⟩))⟩

/-- The squared distances of 0.0, 1.0 and 2.0. -/
def lineDistance : DistanceMetric → List UInt32 → List UInt32 → UInt32 := fun _ a b =>
  if a = b then 0
  else if a = [0x3F800000] ∨ b = [0x3F800000] then 0x3F800000
  else 0x40800000

/-- Three vectors, of which the second is deleted and replaced: the fourth is at the freed node,
and its list has only itself.  When the first, the entry point, is deleted, the fourth takes its
place, and when that is deleted too, it takes its own place: nothing leads to the third. -/
def strandsThird : List VectorOp :=
  [.insert 1 [0] 0, .insert 2 [0] 0, .insert 3 [0] 0, .delete 2, .insert 4 [0] 0, .delete 1,
    .delete 4]

/-- The third vector is live, but the entry point is not, and a search finds nothing. -/
theorem not_enters_at_live_always : ¬ ∀ (options : VectorCollectionOptions)
    (cipher : Option Aes256Gcm) (nonces : ℕ → Nonce) (c₀ c : VectorCollection),
    VectorCollection.create options cipher nonces = .ok c₀ →
      VectorRun noDistance .inOrder (fun _ _ => True) c₀ c →
        EntersAtLive noDistance .inOrder c := by
  intro h
  have heval : ((newVectors 16).after noDistance .inOrder strandsThird).any (fun c =>
        c.rowidToNode.lookup 3 = some 2 ∧ c.vecfile.header.dimensions = 1 ∧
          (VectorCollection.search Access.code noDistance .inOrder c [0] 1 1 none none).toOption.map
            List.length = some 0) = true := by
    decide +kernel
  obtain ⟨c, hafter, heval⟩ := (Option.any_eq_true _ _).mp heval
  rw [decide_eq_true_eq] at heval
  obtain ⟨hlookup, hdims, hnothing⟩ := heval
  have hrun := VectorRun.of_after VectorRun.start (by decide) hafter
  have hlive := h ⟨1, .euclidean, 16, 10⟩ none VectorWal.zeroNonces _ c rfl hrun
  obtain ⟨r, found, hsearch⟩ := hlive.finds 3 2 hlookup [0] 1 1 none hdims.symm Nat.one_pos
  rw [hsearch] at hnothing
  cases hnothing

end BoogyDb

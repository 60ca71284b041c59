import BoogyDb.VectorCalls

/-!
# Runs of a vector collection

A run starts with a new collection and makes one call after the other; a call returns, with
a value or an error.  The layer of an insertion is any `u32`.  `VectorOp.Fits` says
of a call what it has to find for the invariant to hold after it, and a run of calls that fit
keeps the invariant (`VectorRun.inv`).
-/

namespace BoogyDb

open VecFile Wp

/-- The calls that change a collection. -/
inductive VectorOp
  | insert (rowid : UInt64) (vector : List UInt32) (layer : ℕ)
  | delete (rowid : UInt64)
  | update (rowid : UInt64) (vector : List UInt32) (layer : ℕ)

namespace VecFile

/-- A node that is freed and used again accepts the layer, and there is room for the record. -/
structure UpdateFits (f : VecFile) (v layer : ℕ) : Prop where
  reuse : f.Accepts (f.entryWithout v) v layer
  room : f.header.graphDataLen + graphRecordSize layer f.header.m ≤
    graphDataPreallocated f.header.nodeCapacity f.header.m

end VecFile

namespace VectorOp

/-- The layer that is drawn. -/
def layer : VectorOp → ℕ
  | insert _ _ layer => layer
  | delete _ => 0
  | update _ _ layer => layer

section

variable {ε : Type} (a : Access ε)
  (distanceFn : DistanceMetric → List UInt32 → List UInt32 → UInt32) (order : HeapOrder)

/-- The call, without its value. -/
def run : VectorOp → EStateM ε VectorCollection PUnit
  | insert rowid vector layer =>
      discard (VectorCollection.insert a distanceFn order rowid vector layer)
  | delete rowid => VectorCollection.delete a rowid
  | update rowid vector layer =>
      discard (VectorCollection.update a distanceFn order rowid vector layer)

end

/-- What the code does not check before a call. -/
def Fits (c : VectorCollection) : VectorOp → Prop
  | insert rowid vector layer => vector.length = c.vecfile.header.dimensions →
      rowid ∉ c.rowidToNode → c.vecfile.InsertFits layer
  | delete rowid => ∀ v, c.rowidToNode.lookup rowid = some v → c.vecfile.DeleteFits v
  | update rowid vector layer => ∀ v, c.rowidToNode.lookup rowid = some v →
      c.vecfile.DeleteFits v ∧
        (vector.length = c.vecfile.header.dimensions → c.vecfile.UpdateFits v layer)

end VectorOp

/-- A call returns, with a value or an error. -/
def ReturnsTo {σ α : Type} (x : StateResult σ α) (s s' : σ) : Prop :=
  (∃ r, x s = .ok r s') ∨ ∃ e, x s = .error (.error e) s'

section

variable {σ α : Type} {x : StateResult σ α} {s s' s₁ : σ} {r : α} {e : BoogyError}

theorem ReturnsTo.eq_of_ok (h : ReturnsTo x s s') (hx : x s = .ok r s₁) : s' = s₁ := by
  rcases h with ⟨r', h⟩ | ⟨e, h⟩ <;>
    · rw [hx] at h
      cases h
      try rfl

theorem ReturnsTo.eq_of_error (h : ReturnsTo x s s') (hx : x s = .error (.error e) s₁) : s' = s₁ := by
  rcases h with ⟨r', h⟩ | ⟨e', h⟩ <;>
    · rw [hx] at h
      cases h
      try rfl

theorem ReturnsTo.not_overflow (h : ReturnsTo x s s') (hx : x s = .error .overflow s₁) : False := by
  rcases h with ⟨r', h⟩ | ⟨e', h⟩ <;>
    · rw [hx] at h
      cases h

end

section

variable {σ α β : Type} {x : StateResult σ α} {f : α → StateResult σ β} {s s' : σ}
  {Q : α → σ → Prop} {E : Fault → σ → Prop}

theorem ReturnsTo.of_discard (h : ReturnsTo (discard x : StateResult σ PUnit) s s') :
    ReturnsTo x s s' := by
  change ReturnsTo (x >>= fun _ => pure () : StateResult σ PUnit) s s' at h
  cases hx : x s with
  | ok a s₁ =>
      have hrun : (x >>= fun _ => pure () : StateResult σ PUnit) s = .ok () s₁ := run_bind_ok hx
      rw [h.eq_of_ok hrun]
      exact Or.inl ⟨a, hx⟩
  | error e s₁ =>
      rcases h with ⟨r, h⟩ | ⟨e', h⟩
      · rw [run_bind_error hx] at h
        cases h
      · rw [run_bind_error hx] at h
        cases h
        exact Or.inr ⟨e', hx⟩

theorem ReturnsTo.of_bind (h : ReturnsTo (x >>= f) s s') :
    (∃ e, x s = .error (.error e) s') ∨ ∃ a s₁, x s = .ok a s₁ ∧ ReturnsTo (f a) s₁ s' := by
  cases hx : x s with
  | ok a s₁ =>
      refine Or.inr ⟨a, s₁, rfl, ?_⟩
      unfold ReturnsTo at h ⊢
      rwa [run_bind_ok hx] at h
  | error e s₁ =>
      rcases h with ⟨r, h⟩ | ⟨e', h⟩
      · rw [run_bind_error hx] at h
        cases h
      · rw [run_bind_error hx] at h
        cases h
        exact Or.inl ⟨e', rfl⟩

/-- What a specification says of a call that returned. -/
theorem ReturnsTo.spec (h : ReturnsTo x s s') (hwp : wp x Q E s) :
    (∃ a, x s = .ok a s' ∧ Q a s') ∨ ∃ e, x s = .error (.error e) s' ∧ E (.error e) s' := by
  rcases h with ⟨a, hx⟩ | ⟨e, hx⟩
  · exact Or.inl ⟨a, hx, hwp.ok hx⟩
  · exact Or.inr ⟨e, hx, hwp.error hx⟩

end

section

variable (distanceFn : DistanceMetric → List UInt32 → List UInt32 → UInt32) (order : HeapOrder)
  (Fits : VectorCollection → VectorOp → Prop)

/-- Calls that fit, one after the other. -/
inductive VectorRun (c₀ : VectorCollection) : VectorCollection → Prop
  | start : VectorRun c₀ c₀
  | step {c c' : VectorCollection} {op : VectorOp} (h : VectorRun c₀ c) (hlayer : op.layer < 2 ^ 32)
      (hfits : Fits c op) (hreturns : ReturnsTo (op.run Access.code distanceFn order) c c') :
      VectorRun c₀ c'

end

/-! ## A new collection -/

namespace VecFile

theorem create_zero {dimensions m efConstruction cap : ℕ} {metric : DistanceMetric} {addr : ℕ}
    (hheader : vecHeaderSize ≤ addr)
    (hindex : addr < nodeIndexOffset cap dimensions ∨
      nodeIndexOffset cap dimensions + nodeIndexSize cap ≤ addr) :
    (create dimensions metric m efConstruction cap).mem.byte addr = 0 := by
  have hsize : vecHeaderSize = 4096 := rfl
  have hoff : offDimensions = 8 := rfl
  set zeroed : Memory := ⟨totalFileSize cap dimensions m, fun _ => 0⟩ with hzeroed
  set magic := zeroed.write 0 magicBytes with hmagic
  set file : VecFile := ⟨magic,
    ⟨dimensions, metric, m, efConstruction, none, 0, 0, cap, none, 0, 0⟩⟩ with hfile
  have hlen : file.headerBytes.length = 45 := length_headerBytes file
  have h₁ : Memory.Agree zeroed magic addr (addr + 1) :=
    Memory.agree_write (Or.inr (by
      have hmagicLen : magicBytes.length = 8 := rfl
      omega))
  have h₂ : Memory.Agree magic (magic.write offDimensions file.headerBytes) addr (addr + 1) :=
    Memory.agree_write (Or.inr (by omega))
  have h₃ := @Memory.agree_fill (magic.write offDimensions file.headerBytes)
    (nodeIndexOffset cap dimensions) (nodeIndexSize cap) addr (addr + 1) 0xFF
    (by omega)
  exact ((h₁.trans h₂).trans h₃) addr le_rfl (Nat.lt_succ_self _)

/-- A new file has room for its nodes and holds none. -/
theorem create_inv {dimensions m efConstruction cap : ℕ} {metric : DistanceMetric}
    (hdims : 0 < dimensions) (hm : 0 < m) (hm' : m ≤ 128) (hcap : 0 < cap) (hcap' : cap < 2 ^ 32) :
    GraphInv (create dimensions metric m efConstruction cap) := by
  set f := create dimensions metric m efConstruction cap with hf
  have hshape : Shape f := ⟨hdims, hm, hm', hcap, hcap', Nat.zero_le _, rfl, Nat.zero_le _⟩
  have hflag : ∀ n < cap, f.deletedOf n = false := by
    intro n hn
    have hp := hshape.places hn
    have hheader := hp.header
    have hslot := hp.slot
    have hgraph := hp.graph
    have hflag := hp.flag
    have hindex : f.graphStart = nodeIndexOffset cap dimensions + nodeIndexSize cap := rfl
    have hstart : f.indexStart = nodeIndexOffset cap dimensions := rfl
    unfold deletedOf
    rw [hf, create_zero (by rw [← hf]; omega) (Or.inr (by rw [← hf]; omega))]
    rfl
  refine ⟨⟨hshape, ⟨fun h => absurd h (Nat.not_lt_zero _), fun h => absurd h (Nat.not_lt_zero _)⟩,
    fun _ hlt => hflag _ hlt⟩, ⟨[], .nil, List.nodup_nil, fun n => ?_, rfl⟩,
    fun l n hn => absurd hn.1 (Nat.not_lt_zero _), fun ep hep => nomatch hep⟩
  exact ⟨fun h => absurd h List.not_mem_nil, fun h => absurd h.1 (Nat.not_lt_zero _)⟩

end VecFile

theorem VectorCollection.create_inv {options : VectorCollectionOptions} {cipher : Option Aes256Gcm}
    {nonces : ℕ → Nonce} {c : VectorCollection}
    (h : VectorCollection.create options cipher nonces = .ok c) : CollectionInv c := by
  unfold VectorCollection.create at h
  split at h
  · cases h
  · rename_i hdims
    split at h
    · cases h
    · rename_i hm
      cases h
      refine ⟨VecFile.create_inv (by omega) (by omega) (by omega) (by decide) (by decide),
        Nat.le_of_not_lt fun hlt => hdims (Or.inr hlt), fun n => ?_, fun rowid n => ?_⟩
      · exact ⟨fun ⟨_, h⟩ => (nomatch h), fun h => absurd h.1 (Nat.not_lt_zero _)⟩
      · exact ⟨fun h => (nomatch h), fun h => (nomatch h)⟩

theorem VectorCollection.create_empty {options : VectorCollectionOptions} {cipher : Option Aes256Gcm}
    {nonces : ℕ → Nonce} {c : VectorCollection}
    (h : VectorCollection.create options cipher nonces = .ok c) :
    c.vecfile.header.entryPoint = none ∧ c.vecfile.header.nodeCount = 0 := by
  unfold VectorCollection.create at h
  split at h
  · cases h
  · split at h
    · cases h
    · cases h
      exact ⟨rfl, rfl⟩

/-! ## One call, and runs -/

namespace VectorCollection

variable {ε : Type} {a : Access ε} {c c' : VectorCollection} {rowid : UInt64} {v layer : ℕ}

theorem Deleted.sameRecords (h : Deleted c c' rowid v) : VecFile.SameRecords c.vecfile c'.vecfile :=
  ⟨by rw [h.header], h.record⟩

/-- A node that was freed for an update accepts what it accepted before. -/
theorem Deleted.insertFits (h : Deleted c c' rowid v)
    (hfits : c.vecfile.UpdateFits v layer) : c'.vecfile.InsertFits layer := by
  have hsame := h.sameRecords
  have hhead : c'.vecfile.header.freeListHead = some v := by rw [h.header]
  refine ⟨fun v' hv' => ⟨fun l n hn hne hmem => ?_, fun hentry => ?_⟩, ?_⟩
  · rw [hhead] at hv'
    cases hv'
    rw [hsame.on] at hn
    rw [hsame.list hn] at hmem
    exact hfits.reuse.edges l n hn hne hmem
  · rw [hhead] at hv'
    cases hv'
    rw [h.header] at hentry ⊢
    exact hfits.reuse.entry hentry
  · have hnext : c'.vecfile.nextCapacity = c.vecfile.header.nodeCapacity := by
      unfold nextCapacity
      rw [hhead, if_neg (fun h => nomatch h.1), h.header]
    unfold HasRoom
    rw [hnext, h.header]
    exact hfits.room

end VectorCollection

namespace VectorOp

open VectorCollection

variable {ε : Type} {a : Access ε} {c c' : VectorCollection} {op : VectorOp}
  {distanceFn : DistanceMetric → List UInt32 → List UInt32 → UInt32} {order : HeapOrder}

theorem run_discard_ok {α : Type} {x : EStateM ε VectorCollection α} {r : α} (h : x c = .ok r c') :
    (discard x : EStateM ε VectorCollection PUnit) c = .ok ⟨⟩ c' := by
  change (x >>= fun _ => pure () : EStateM ε VectorCollection PUnit) c = _
  rw [run_bind_ok h]
  rfl

theorem run_discard_error {α : Type} {x : EStateM ε VectorCollection α} {e : ε}
    (h : x c = .error e c') : (discard x : EStateM ε VectorCollection PUnit) c = .error e c' := by
  change (x >>= fun _ => pure () : EStateM ε VectorCollection PUnit) c = _
  rw [run_bind_error h]

/-- What a call that fits ends with: the invariant holds unless it overflows. -/
inductive Ends (a : Access ε) (x : EStateM ε VectorCollection PUnit) (c : VectorCollection) : Prop
  | ok (c' : VectorCollection) (h : x c = .ok ⟨⟩ c') (inv : CollectionInv c')
  | error (e : BoogyError) (c' : VectorCollection) (h : x c = .error (a.lift (.error e)) c')
      (inv : CollectionInv c')
  | overflow (c' : VectorCollection) (h : x c = .error (a.lift .overflow) c')

/-- **A call that fits keeps the invariant.** -/
theorem run_ends (ha : a.Sound) (hc : CollectionInv c) (hlayer : op.layer < 2 ^ 32)
    (hfits : op.Fits c) : Ends a (op.run a distanceFn order) c := by
  cases op with
  | insert rowid vector layer =>
      have hlayer : layer < 2 ^ 32 := hlayer
      rcases @insert_ok _ a _ rowid vector layer distanceFn order ha hc (by omega) hfits with
        ⟨-, e, herr⟩ | hover | ⟨v, c', hok, hins⟩
      · exact .error e c (run_discard_error herr) hc
      · exact .overflow c (run_discard_error hover)
      · exact .ok c' (run_discard_ok hok) hins.inv
  | delete rowid =>
      rcases delete_ok ha hc hfits with ⟨e, herr⟩ | ⟨v, c', hok, hdel⟩
      · exact .error e c herr hc
      · exact .ok c' hok hdel.inv
  | update rowid vector layer =>
      have hlayer : layer < 2 ^ 32 := hlayer
      rcases delete_ok ha hc fun v hv => (hfits v hv).1 with ⟨e, herr⟩ | ⟨v, c₁, hok, hdel⟩
      · exact .error e c (run_discard_error (run_bind_error herr)) hc
      · have hfits₁ : vector.length = c₁.vecfile.header.dimensions → rowid ∉ c₁.rowidToNode →
            c₁.vecfile.InsertFits layer := by
          intro hdims _
          rw [hdel.header] at hdims
          exact hdel.insertFits ((hfits v hdel.was).2 hdims)
        have hupdate : VectorCollection.update a distanceFn order rowid vector layer c =
            VectorCollection.insert a distanceFn order rowid vector layer c₁ := run_bind_ok hok
        rcases @insert_ok _ a _ rowid vector layer distanceFn order ha hdel.inv (by omega) hfits₁
          with ⟨-, e, herr⟩ | hover | ⟨v', c', hok', hins⟩
        · exact .error e c₁ (run_discard_error (hupdate.trans herr)) hdel.inv
        · exact .overflow c₁ (run_discard_error (hupdate.trans hover))
        · exact .ok c' (run_discard_ok (hupdate.trans hok')) hins.inv

/-- What a call that fits does when it returns: an update deletes and then inserts, and is refused
in between if its vector has another length. -/
inductive Effect (distanceFn : DistanceMetric → List UInt32 → List UInt32 → UInt32)
    (order : HeapOrder) (c : VectorCollection) : VectorOp → VectorCollection → Prop
  | refused {op : VectorOp} {e : Fault} (hrun : op.run Access.code distanceFn order c = .error e c) :
      Effect distanceFn order c op c
  | inserted {rowid : UInt64} {vector : List UInt32} {layer v : ℕ} {c' : VectorCollection}
      {f₁ f₂ : VecFile} {r : Hnsw.InsertResult}
      (hrun : VectorCollection.insert Access.code distanceFn order rowid vector layer c = .ok v c')
      (hins : Inserted c c' rowid layer v)
      (hbuilt : Built Access.code distanceFn order c c' vector layer v f₁ f₂ r) :
      Effect distanceFn order c (.insert rowid vector layer) c'
  | deleted {rowid : UInt64} {v : ℕ} {c' : VectorCollection}
      (hrun : VectorCollection.delete Access.code rowid c = .ok () c') (hdel : Deleted c c' rowid v) :
      Effect distanceFn order c (.delete rowid) c'
  | halfUpdated {rowid : UInt64} {vector : List UInt32} {layer v : ℕ} {c' : VectorCollection}
      {e : Fault} (hlen : vector.length ≠ c.vecfile.header.dimensions)
      (hdelete : VectorCollection.delete Access.code rowid c = .ok () c') (hdel : Deleted c c' rowid v)
      (hrun : (VectorOp.update rowid vector layer).run Access.code distanceFn order c = .error e c') :
      Effect distanceFn order c (.update rowid vector layer) c'
  | updated {rowid : UInt64} {vector : List UInt32} {layer v : ℕ} {c₁ c' : VectorCollection}
      {f₁ f₂ : VecFile} {r : Hnsw.InsertResult}
      (hlen : vector.length = c.vecfile.header.dimensions)
      (hdelete : VectorCollection.delete Access.code rowid c = .ok () c₁) (hdel : Deleted c c₁ rowid v)
      (hins : Inserted c₁ c' rowid layer v)
      (hbuilt : Built Access.code distanceFn order c₁ c' vector layer v f₁ f₂ r)
      (hrun : VectorCollection.update Access.code distanceFn order rowid vector layer c = .ok v c') :
      Effect distanceFn order c (.update rowid vector layer) c'

/-- **What a call that fits does when it returns.** -/
theorem run_effect (hc : CollectionInv c) (hlayer : op.layer < 2 ^ 32) (hfits : op.Fits c)
    (hreturns : ReturnsTo (op.run Access.code distanceFn order) c c') :
    Effect distanceFn order c op c' := by
  cases op with
  | insert rowid vector layer =>
      have hlayer : layer < 2 ^ 32 := hlayer
      rcases @insert_built _ _ _ rowid vector layer distanceFn order Access.code_sound hc (by omega)
        hfits with ⟨-, e, herr⟩ | hover | ⟨v, c₁, hok, hins, f₁, f₂, r, hbuilt⟩
      · rw [hreturns.of_discard.eq_of_error herr]
        exact .refused (run_discard_error herr)
      · exact (hreturns.of_discard.not_overflow hover).elim
      · rw [hreturns.of_discard.eq_of_ok hok]
        exact .inserted hok hins hbuilt
  | delete rowid =>
      rcases delete_ok Access.code_sound hc hfits with ⟨e, herr⟩ | ⟨v, c₁, hok, hdel⟩
      · rw [hreturns.eq_of_error herr]
        exact .refused herr
      · rw [hreturns.eq_of_ok hok]
        exact .deleted hok hdel
  | update rowid vector layer =>
      have hlayer : layer < 2 ^ 32 := hlayer
      have hreturns := hreturns.of_discard
      rcases delete_ok Access.code_sound hc fun v hv => (hfits v hv).1 with
        ⟨e, herr⟩ | ⟨v, c₁, hok, hdel⟩
      · have hupdate : VectorCollection.update Access.code distanceFn order rowid vector layer c =
          .error (.error e) c := run_bind_error herr
        rw [hreturns.eq_of_error hupdate]
        exact .refused (run_discard_error hupdate)
      · have hupdate : VectorCollection.update Access.code distanceFn order rowid vector layer c =
          VectorCollection.insert Access.code distanceFn order rowid vector layer c₁ := run_bind_ok hok
        have hdims : c₁.vecfile.header.dimensions = c.vecfile.header.dimensions := by rw [hdel.header]
        have hhead : c₁.vecfile.header.freeListHead = some v := by rw [hdel.header]
        have hfits₁ : vector.length = c₁.vecfile.header.dimensions → rowid ∉ c₁.rowidToNode →
            c₁.vecfile.InsertFits layer := fun hlen _ =>
          hdel.insertFits ((hfits v hdel.was).2 (hdims ▸ hlen))
        have hgone : rowid ∉ c₁.rowidToNode := by
          rw [hdel.rowids, AList.mem_erase]
          exact fun h => h.1 rfl
        rcases @insert_built _ _ _ rowid vector layer distanceFn order Access.code_sound hdel.inv
          (by omega) hfits₁ with ⟨hrefused, e, herr⟩ | hover | ⟨v', c₂, hok', hins, f₁, f₂, r, hbuilt⟩
        · rw [hreturns.eq_of_error (hupdate.trans herr)]
          exact .halfUpdated (hdims ▸ hrefused.resolve_right hgone) hok hdel
            (run_discard_error (hupdate.trans herr))
        · exact (hreturns.not_overflow (hupdate.trans hover)).elim
        · rw [hreturns.eq_of_ok (hupdate.trans hok')]
          -- the freed node is used again
          obtain rfl : v' = v := by
            rcases hins.was with hwas | hwas
            · exact Option.some.inj (hwas.symm.trans hhead)
            · exact nomatch hwas.symm.trans hhead
          have hlen := hdims ▸ (insert_accepts hok').1
          exact .updated hlen hok hdel hins hbuilt (hupdate.trans hok')

end VectorOp

variable {distanceFn : DistanceMetric → List UInt32 → List UInt32 → UInt32} {order : HeapOrder}
  {c₀ c : VectorCollection}

/-- **The invariant holds in every state of a run of calls that fit.** -/
theorem VectorRun.inv (h : VectorRun distanceFn order (fun c op => op.Fits c) c₀ c)
    (hc₀ : CollectionInv c₀) : CollectionInv c := by
  induction h with
  | start => exact hc₀
  | step _ hlayer hfits hreturns ih =>
      cases @VectorOp.run_ends _ _ _ _ distanceFn order Access.code_sound ih hlayer hfits with
      | ok c' hok hinv =>
          rw [hreturns.eq_of_ok hok]
          exact hinv
      | error e c' herr hinv =>
          rw [hreturns.eq_of_error herr]
          exact hinv
      | overflow c' hover => exact (hreturns.not_overflow hover).elim

/-- A run whose calls fit in one sense is a run whose calls fit in a weaker one. -/
theorem VectorRun.mono {Fits Fits' : VectorCollection → VectorOp → Prop}
    (h : VectorRun distanceFn order Fits c₀ c) (hfits : ∀ c op, Fits c op → Fits' c op) :
    VectorRun distanceFn order Fits' c₀ c := by
  induction h with
  | start => exact .start
  | step _ hlayer hfit hreturns ih => exact ih.step hlayer (hfits _ _ hfit) hreturns

/-! ## Running a list of calls -/

section

variable (distanceFn : DistanceMetric → List UInt32 → List UInt32 → UInt32) (order : HeapOrder)

/-- The collection after calls that all succeed. -/
def VectorCollection.after (c : VectorCollection) : List VectorOp → Option VectorCollection
  | [] => some c
  | op :: ops =>
      match op.run Access.code distanceFn order c with
      | .ok _ c' => c'.after ops
      | .error _ _ => none

end

theorem VectorCollection.after_cons {op : VectorOp} {ops : List VectorOp} {c' : VectorCollection} :
    c.after distanceFn order (op :: ops) = some c' ↔
      ∃ c₁, op.run Access.code distanceFn order c = .ok ⟨⟩ c₁ ∧
        c₁.after distanceFn order ops = some c' := by
  rw [VectorCollection.after]
  cases hrun : op.run Access.code distanceFn order c with
  | ok r c₁ => exact ⟨fun h => ⟨c₁, rfl, h⟩, fun ⟨c₂, heq, h⟩ => by cases heq; exact h⟩
  | error e c₁ => exact ⟨fun h => (nomatch h), fun ⟨_, heq, _⟩ => (nomatch heq)⟩

theorem VectorCollection.after_append {ops ops' : List VectorOp} {c₁ c' : VectorCollection}
    (h : c.after distanceFn order ops = some c₁) (h' : c₁.after distanceFn order ops' = some c') :
    c.after distanceFn order (ops ++ ops') = some c' := by
  induction ops generalizing c with
  | nil =>
      cases h
      exact h'
  | cons op ops ih =>
      obtain ⟨c₂, hop, hrest⟩ := VectorCollection.after_cons.mp h
      exact VectorCollection.after_cons.mpr ⟨c₂, hop, ih hrest⟩

/-- Calls that succeed are a run. -/
theorem VectorRun.of_after {ops : List VectorOp} {c' : VectorCollection}
    (hrun : VectorRun distanceFn order (fun _ _ => True) c₀ c) (hlayers : ∀ op ∈ ops, op.layer < 2 ^ 32)
    (h : c.after distanceFn order ops = some c') :
    VectorRun distanceFn order (fun _ _ => True) c₀ c' := by
  induction ops generalizing c with
  | nil =>
      cases h
      exact hrun
  | cons op ops ih =>
      rw [List.forall_mem_cons] at hlayers
      obtain ⟨c₁, hop, hrest⟩ := VectorCollection.after_cons.mp h
      exact ih (hrun.step hlayers.1 trivial (Or.inl ⟨_, hop⟩)) hlayers.2 hrest

end BoogyDb

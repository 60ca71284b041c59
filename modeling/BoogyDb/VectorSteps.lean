import BoogyDb.VecFileNodes
import BoogyDb.VectorCollection

/-!
# What the operations do to a vector collection

`GraphInv` is the invariant of the file of a collection: its layout, its free list, that
the graph it holds is layered, and that the entry point has the layer where a descent
starts.  An insertion or a deletion keeps it when it `Fits` (`InsertFits`, `DeleteFits`):
these say what the code does not check.

The lemmas are about any `Access` that reads and writes the lists of layered graphs as the
code does (`Access.Sound`).
-/

namespace BoogyDb

open Bytes Memory

/-! ## A node with its vector and record -/

namespace VecFile

variable {f f' : VecFile} {n v layer : ℕ} {free : List ℕ}

/-- What becomes of a file when a node is added. -/
structure Adds (f f' : VecFile) (v : ℕ) (vector : List UInt32) (layer : ℕ) : Prop where
  header : f'.header = { f.header with
    nodeCount := f'.header.nodeCount
    nodeCapacity := f.nextCapacity
    freeListHead := f'.header.freeListHead
    freeListLen := f'.header.freeListLen
    graphDataLen := f.header.graphDataLen + graphRecordSize layer f.header.m }
  layout : Layout f'
  lt : v < f'.header.nodeCount
  counted : ∀ n, n ≠ v → (n < f'.header.nodeCount ↔ n < f.header.nodeCount)
  same : ∀ n < f.header.nodeCount, n ≠ v → SameNode f f' n
  vector : f'.vectorOf v = vector
  deleted : f'.deletedOf v = false
  level : f'.levelOf v = layer
  lists : ∀ l ≤ layer, f'.listOf v l = []
  was : f.header.freeListHead = some v ∧ v < f.header.nodeCount ∨
    f.header.freeListHead = none ∧ v = f.header.nodeCount
  free : ∃ rest, FreeList f' rest

/-- The graph region has room for one more record. -/
def HasRoom (f : VecFile) (layer : ℕ) : Prop :=
  f.header.graphDataLen + graphRecordSize layer f.header.m ≤
    graphDataPreallocated f.nextCapacity f.header.m

end VecFile

namespace VectorCollection

open VecFile

variable {f f' : VecFile} {n v layer : ℕ} {free : List ℕ}

/-- **Adding a node overflows, or it leaves the other nodes alone.** -/
theorem addNode_ok (hf : Layout f) (hfree : FreeList f free) {vector : List UInt32}
    (hlen : vector.length = f.header.dimensions) (hlayer : layer < 2 ^ 32)
    (hroom : f.HasRoom layer) :
    addNode f vector layer = overflowed ∨
      ∃ v f', addNode f vector layer = .ok (v, f') ∧ Adds f f' v vector layer := by
  rcases allocateNode_ok hf hfree with hover | ⟨v, f₁, hrun₁, hall⟩
  · refine Or.inl ?_
    unfold addNode
    rw [hover]
    rfl
  have hdims₁ : f₁.header.dimensions = f.header.dimensions := by rw [hall.header]
  have hm₁ : f₁.header.m = f.header.m := by rw [hall.header]
  have hlen₁ : f₁.header.graphDataLen = f.header.graphDataLen := by rw [hall.header]
  have hcap₁ : f₁.header.nodeCapacity = f.nextCapacity := by rw [hall.header]
  have hle₁ := hall.shape.count_le
  have hv₁ : v < f₁.header.nodeCapacity := hall.lt.trans_le hle₁
  -- the vector goes to the slot of the new node, which changes nothing else
  obtain ⟨f₂, hrun₂, hheader₂, hshape₂, hvector₂, hothers₂, -, hdeleted₂⟩ :=
    @writeVector_ok f₁ v hall.shape hv₁ vector (by rw [hlen, hdims₁])
  have hroom₂ : f₂.header.graphDataLen + graphRecordSize layer f₂.header.m ≤
      graphDataPreallocated f₂.header.nodeCapacity f₂.header.m := by
    rw [hheader₂, hlen₁, hm₁, hcap₁]
    exact hroom
  have hv₂ : v < f₂.header.nodeCapacity := by
    rw [hheader₂]
    exact hv₁
  -- the record goes behind all records, so the stored ones stay where they are
  obtain ⟨f₃, hrun₃, hrec⟩ := allocateGraphRecord_ok hshape₂ hv₂ hlayer hroom₂
  have hcount : f₃.header.nodeCount = f₁.header.nodeCount := by rw [hrec.header, ← hheader₂]
  have hcapEq : f₃.header.nodeCapacity = f₁.header.nodeCapacity := by rw [hrec.header, ← hheader₂]
  have hheader : f₃.header = { f.header with
      nodeCount := f₁.header.nodeCount
      nodeCapacity := f.nextCapacity
      freeListHead := f₁.header.freeListHead
      freeListLen := f₁.header.freeListLen
      graphDataLen := f.header.graphDataLen + graphRecordSize layer f.header.m } := by
    rw [hrec.header, hheader₂, hlen₁, hm₁]
    conv_lhs => rw [hall.header]
  have hsame : ∀ n < f.header.nodeCount, n ≠ v → SameNode f f₃ n := by
    intro n hn hne
    have hn₁ : n < f₁.header.nodeCapacity := ((hall.counted n hne).mpr hn).trans_le hle₁
    have hn₂ : n < f₂.header.nodeCapacity := by
      rw [hheader₂]
      exact hn₁
    have hsame₂ := (hall.same n hn hne).trans (hothers₂ n hn₁ hne)
    have hin : f₂.recordOf n + f₂.recordSize n ≤ f₂.header.graphDataLen := by
      rw [hsame₂.record.record, hsame₂.record.recordSize (by rw [hheader₂, hm₁]), hheader₂, hlen₁]
      exact hf.records.record hn
    obtain ⟨hvector, hlink, hdeleted⟩ := hrec.parts n hn₂
    exact hsame₂.trans ⟨hrec.others n hn₂ hne hin, hvector, hdeleted, hlink⟩
  have hdeleted : ∀ n < f₁.header.nodeCapacity, f₃.deletedOf n = f₁.deletedOf n := by
    intro n hn
    refine (hrec.parts n (by rw [hheader₂]; exact hn)).2.2.trans ?_
    by_cases hne : n = v
    · rw [hne]
      exact hdeleted₂
    · exact (hothers₂ n hn hne).deleted
  have hold : ∀ n < f₃.header.nodeCount, n ≠ v → n < f.header.nodeCount := fun n hn hne =>
    (hall.counted n hne).mp (hcount ▸ hn)
  have hrecordV : f₃.recordOf v = f.header.graphDataLen := by
    rw [hrec.recordOf, hheader₂, hlen₁]
  have hm₃ : f₃.header.m = f.header.m := by rw [hheader]
  have hsizeV : f₃.recordSize v = graphRecordSize layer f.header.m := by
    unfold recordSize
    rw [hrec.level, hm₃]
  have hlen₃ : f₃.header.graphDataLen =
      f.header.graphDataLen + graphRecordSize layer f.header.m := by rw [hheader]
  have hin : ∀ n < f.header.nodeCount, n ≠ v →
      f₃.recordOf n + f₃.recordSize n ≤ f.header.graphDataLen := by
    intro n hn hne
    have hrecord := (hsame n hn hne).record
    rw [hrecord.record, hrecord.recordSize hm₃]
    exact hf.records.record hn
  refine Or.inr ⟨v, f₃, ?_, ?_, ⟨hrec.shape, ⟨?_, ?_⟩, ?_⟩, hcount ▸ hall.lt, fun n hne => ?_, hsame,
    ?_, (hdeleted v hv₁).trans hall.deleted, hrec.level, hrec.lists, hall.was, ?_⟩
  · unfold addNode
    rw [hrun₁, ok_bind]
    dsimp only
    rw [hrun₂, ok_bind, hrun₃]
    rfl
  · rw [hheader]
  · intro n hn
    rw [hlen₃]
    by_cases hne : n = v
    · rw [hne, hrecordV, hsizeV]
    · exact (hin n (hold n hn hne) hne).trans (Nat.le_add_right _ _)
  -- the record of the new node starts where the others end
  · intro n n' hn hn' hne
    by_cases heq : n = v
    · subst heq
      rw [hrecordV]
      exact Or.inr (hin n' (hold n' hn' hne.symm) hne.symm)
    · by_cases heq' : n' = v
      · subst heq'
        rw [hrecordV]
        exact Or.inl (hin n (hold n hn hne) hne)
      · have hsameN := (hsame n (hold n hn heq) heq).record
        have hsameN' := (hsame n' (hold n' hn' heq') heq').record
        rw [hsameN.record, hsameN.recordSize hm₃, hsameN'.record, hsameN'.recordSize hm₃]
        exact hf.records.apart (hold n hn heq) (hold n' hn' heq') hne
  · intro n hle hlt
    rw [hdeleted n (hcapEq ▸ hlt)]
    exact hall.fresh n (hcount ▸ hle) (hcapEq ▸ hlt)
  · rw [hcount]
    exact hall.counted n hne
  · rw [(hrec.parts v hv₂).1]
    exact hvector₂
  · obtain ⟨rest, hrest⟩ := hall.free
    refine ⟨rest, hrest.congr ?_ ?_ hcount (fun n hn => ?_) fun n hn => ?_⟩
    · rw [hheader]
    · rw [hheader]
    · obtain ⟨hlt, hdel⟩ := (hrest.mem n).mp hn
      have hne : n ≠ v := by
        rintro rfl
        rw [hall.deleted] at hdel
        exact nomatch hdel
      have hcapN := hlt.trans_le hle₁
      exact ((hrec.parts n (by rw [hheader₂]; exact hcapN)).2.1).trans
        (hothers₂ n hcapN hne).link
    · exact hdeleted n (hn.trans_le hle₁)

end VectorCollection

/-! ## The invariant of the file -/

/-- The access reads and writes the lists of a layered graph as the code does. -/
structure Access.Sound {ε : Type} (a : Access ε) : Prop where
  read : ∀ (f : VecFile) (layer n : ℕ), VecFile.Layout f → f.graph.Layered → f.graph.On layer n →
    a.readNeighbors f n layer = .ok (f.listOf n layer)
  write : ∀ (f f' : VecFile) (layer n : ℕ) (neighbors : List ℕ), VecFile.Layout f →
    f.graph.On layer n → f.writeNeighbors n layer neighbors = .ok f' →
    a.writeNeighbors f n layer neighbors = .ok f'

theorem Access.code_sound : Access.code.Sound where
  read _ _ _ hf _ hon := hf.readNeighbors hon.1 hon.2
  write _ _ _ _ _ _ _ hrun := hrun

/-- A node that is counted and not deleted. -/
def VecFile.Live (f : VecFile) (n : ℕ) : Prop := n < f.header.nodeCount ∧ f.deletedOf n = false

/-- The invariant of the file of a collection. -/
structure GraphInv (f : VecFile) : Prop where
  layout : VecFile.Layout f
  free : ∃ free, VecFile.FreeList f free
  layered : f.graph.Layered
  entry : ∀ ep, f.header.entryPoint = some ep → f.graph.On f.header.maxLayer ep

namespace VectorCollection

open VecFile Wp

variable {ε : Type} {a : Access ε} {f f' : VecFile} {n v layer : ℕ}
  {distanceFn : DistanceMetric → List UInt32 → List UInt32 → UInt32} {order : HeapOrder}

theorem lt_noneU32 (hf : Shape f) (hn : n < f.header.nodeCount) : n < noneU32 := by
  have hle := hf.count_le
  have hlt := hf.cap_lt
  unfold noneU32
  omega

/-- The graph is read as it is. -/
theorem readsAs (ha : a.Sound) (hf : Layout f) (hlayered : f.graph.Layered) :
    ReadsAs (a.storage f) f.graph where
  size_le := by
    have hle := hf.shape.count_le
    have hlt := hf.shape.cap_lt
    change f.header.nodeCount ≤ 2 ^ 32
    omega
  layered := hlayered
  vector {n} hn := by
    change a.run (f.readVector n) = _
    rw [hf.shape.readVector (hf.lt_cap hn)]
    rfl
  isDeleted {n} hn := by
    change a.run (f.isDeleted n) = _
    rw [hf.shape.isDeleted (hf.lt_cap hn)]
    rfl
  neighbors hon := ha.read f _ _ hf hlayered hon

/-! ## Writing lists -/

/-- Only lists have changed. -/
structure Relinks (f f' : VecFile) : Prop where
  header : f'.header = f.header
  parts : ∀ n < f.header.nodeCapacity, f'.vectorOf n = f.vectorOf n ∧
    f'.linkOf n = f.linkOf n ∧ f'.deletedOf n = f.deletedOf n ∧ f'.recordOf n = f.recordOf n
  level : ∀ n < f.header.nodeCount, f'.levelOf n = f.levelOf n

theorem Relinks.refl (f : VecFile) : Relinks f f :=
  ⟨rfl, fun _ _ => ⟨rfl, rfl, rfl, rfl⟩, fun _ _ => rfl⟩

theorem Relinks.trans {f'' : VecFile} (h : Relinks f f') (h' : Relinks f' f'') :
    Relinks f f'' where
  header := h'.header.trans h.header
  parts n hn := by
    obtain ⟨hvector, hlink, hdeleted, hrecord⟩ := h.parts n hn
    obtain ⟨hvector', hlink', hdeleted', hrecord'⟩ := h'.parts n (h.header ▸ hn)
    exact ⟨hvector'.trans hvector, hlink'.trans hlink, hdeleted'.trans hdeleted,
      hrecord'.trans hrecord⟩
  level n hn := (h'.level n (h.header ▸ hn)).trans (h.level n hn)

theorem Relinks.on (h : Relinks f f') : f'.graph.On layer n ↔ f.graph.On layer n := by
  change n < f'.header.nodeCount ∧ layer ≤ f'.levelOf n ↔ n < f.header.nodeCount ∧ _
  rw [h.header]
  exact and_congr_right fun hn => by rw [h.level n hn]; rfl

theorem Relinks.free {free : List ℕ} (h : Relinks f f') (hf : Layout f) (hfree : FreeList f free) :
    FreeList f' free := by
  refine hfree.congr ?_ ?_ ?_ (fun n hn => ?_) fun n hn => ?_
  · rw [h.header]
  · rw [h.header]
  · rw [h.header]
  · exact (h.parts n (hf.lt_cap ((hfree.mem n).mp hn).1)).2.1
  · exact (h.parts n (hf.lt_cap hn)).2.2.1

theorem Relinks.of_writes {neighbors : List ℕ} (h : WritesList f f' n layer neighbors) :
    Relinks f f' := ⟨h.header, h.parts, h.level⟩

/-- One of the lists that an insertion brings about is written. -/
theorem writeConnection_ok (ha : a.Sound) (hf : Layout f) (hlayered : f.graph.Layered)
    {c : Hnsw.Connection} (hc : Hnsw.Connects f.graph f.header.m c) :
    ∃ f', a.writeNeighbors f c.1 c.2.1 c.2.2 = .ok f' ∧ Layout f' ∧ f'.graph.Layered ∧
      Relinks f f' := by
  obtain ⟨n, layer, neighbors⟩ := c
  obtain ⟨hon, hlist, hlen⟩ := hc
  dsimp only at hon hlist hlen ⊢
  obtain ⟨f', hrun, hw⟩ := writeNeighbors_ok hf hon.1 hon.2 hlen fun x hx =>
    lt_noneU32 hf.shape (hlist x hx).1
  have hrelinks := Relinks.of_writes hw
  refine ⟨f', ha.write f f' layer n neighbors hf hon hrun, hw.layout, ?_, hrelinks⟩
  intro layer' n' hon' x hx
  rw [hrelinks.on] at hon' ⊢
  by_cases hsame : n' = n ∧ layer' = layer
  · obtain ⟨rfl, rfl⟩ := hsame
    exact hlist x (hw.listSelf ▸ hx)
  · have hother : f'.listOf n' layer' = f.listOf n' layer' :=
      hw.listOther n' hon'.1 layer' hon'.2 fun heq heq' => hsame ⟨heq, heq'⟩
    have hx : x ∈ f'.listOf n' layer' := hx
    rw [hother] at hx
    exact hlayered layer' n' hon' x hx

/-- **Writing the lists of an insertion keeps the graph layered.** -/
theorem applyConnections_ok (ha : a.Sound) (hf : Layout f) (hlayered : f.graph.Layered)
    {connections : List Hnsw.Connection}
    (hall : ∀ c ∈ connections, Hnsw.Connects f.graph f.header.m c) :
    ∃ f', applyConnections a f connections = .ok f' ∧ Layout f' ∧ f'.graph.Layered ∧
      Relinks f f' := by
  induction connections generalizing f with
  | nil => exact ⟨f, rfl, hf, hlayered, .refl f⟩
  | cons c connections ih =>
      rw [List.forall_mem_cons] at hall
      obtain ⟨hc, hall⟩ := hall
      obtain ⟨f₁, hrun₁, hf₁, hlayered₁, hrelinks₁⟩ := writeConnection_ok ha hf hlayered hc
      have hall₁ : ∀ c ∈ connections, Hnsw.Connects f₁.graph f₁.header.m c := by
        intro c hmem
        obtain ⟨hon, hlist, hlen⟩ := hall c hmem
        refine ⟨hrelinks₁.on.mpr hon, fun x hx => hrelinks₁.on.mpr (hlist x hx), ?_⟩
        rw [hrelinks₁.header]
        exact hlen
      obtain ⟨f₂, hrun₂, hf₂, hlayered₂, hrelinks₂⟩ := ih hf₁ hlayered₁ hall₁
      refine ⟨f₂, ?_, hf₂, hlayered₂, hrelinks₁.trans hrelinks₂⟩
      unfold applyConnections at hrun₂ ⊢
      rw [List.foldlM_cons, hrun₁, Except.ok_bind, hrun₂]

/-! ## The log -/

theorem length_flatMap_wordBytes (words : List UInt32) :
    (words.flatMap VectorWal.wordBytes).length = words.length * 4 := by
  induction words with
  | nil => rfl
  | cons w words ih =>
      rw [List.flatMap_cons, List.length_append, ih, List.length_cons,
        VectorWal.length_wordBytes]
      omega

/-- The numbers that an entry carries besides its fields. -/
def payloadWords : VectorWal.WalEntry → List UInt32
  | .insertVector _ _ vector => vector
  | .setNeighbors _ _ neighbors => neighbors
  | _ => []

theorem length_encode_le (entry : VectorWal.WalEntry) :
    entry.encode.length ≤ 13 + (payloadWords entry).length * 4 := by
  have hlist : ∀ words : List UInt32,
      (VectorWal.listBytes words).length = 4 + words.length * 4 := by
    intro words
    rw [VectorWal.listBytes, List.length_append, length_leBytes, length_flatMap_wordBytes]
  cases entry <;>
    simp only [VectorWal.WalEntry.encode, payloadWords, List.length_cons, List.length_append,
      List.length_nil, hlist, VectorWal.length_wordBytes] <;>
    omega

theorem append_ok (wal : VectorWal) {entry : VectorWal.WalEntry}
    (hlen : (payloadWords entry).length ≤ 2 ^ 16) : ∃ wal', wal.append entry = .ok wal' := by
  have hle := length_encode_le entry
  unfold VectorWal.append
  cases wal.cipher with
  | none => exact ⟨_, rfl⟩
  | some inner =>
      obtain ⟨ciphertext, hencrypt, -, -⟩ :=
        inner.decrypt_encrypt (wal.nonces 0) entry.encode (by omega)
      dsimp only
      unfold encryptBytes
      rw [hencrypt]
      exact ⟨_, rfl⟩

/-- The log takes the entries. -/
theorem walAppendCommitted_ok {entries : List VectorWal.WalEntry}
    (hlen : ∀ entry ∈ entries, (payloadWords entry).length ≤ 2 ^ 16) (wal : VectorWal) :
    ∃ wal', wal.appendCommitted entries = .ok wal' := by
  unfold VectorWal.appendCommitted
  induction entries generalizing wal with
  | nil => exact append_ok wal (Nat.zero_le _)
  | cons entry entries ih =>
      rw [List.forall_mem_cons] at hlen
      obtain ⟨wal₁, hrun⟩ := append_ok wal hlen.1
      rw [List.foldlM_cons, hrun, ok_bind]
      exact ih hlen.2 wal₁

theorem appendCommitted_ok {entries : List VectorWal.WalEntry}
    (hlen : ∀ entry ∈ entries, (payloadWords entry).length ≤ 2 ^ 16) (c : VectorCollection) :
    ∃ wal, appendCommitted a entries c = .ok () { c with wal } := by
  obtain ⟨wal, hrun⟩ := walAppendCommitted_ok hlen c.wal
  refine ⟨wal, ?_⟩
  have hwal : ofExcept (a.run (c.wal.appendCommitted entries)) c = .ok wal c := by
    unfold ofExcept Access.run
    rw [hrun]
  unfold appendCommitted
  rw [run_bind_ok (rfl : (get : EStateM ε VectorCollection VectorCollection) c = .ok c c),
    run_bind_ok hwal]
  rfl

end VectorCollection

/-! ## When an operation fits -/

namespace VecFile

/-- A node may get a record with this many layers: the lists that still name it are not above
them, and neither does a descent start above them at this node. -/
structure Accepts (f : VecFile) (entry : Option ℕ) (v layer : ℕ) : Prop where
  edges : ∀ l n, f.graph.On l n → n ≠ v → v ∈ f.listOf n l → l ≤ layer
  entry : entry = some v → f.header.maxLayer ≤ layer

/-- A node that is used again accepts the layer, and there is room for the record. -/
structure InsertFits (f : VecFile) (layer : ℕ) : Prop where
  reuse : ∀ v, f.header.freeListHead = some v → f.Accepts f.header.entryPoint v layer
  room : f.HasRoom layer

/-- The entry point without the node. -/
def entryWithout (f : VecFile) (v : ℕ) : Option ℕ :=
  if f.header.entryPoint = some v then (f.listOf v 0).find? fun n => !f.deletedOf n
  else f.header.entryPoint

/-- The node that takes the place of the entry point has its layers. -/
def DeleteFits (f : VecFile) (v : ℕ) : Prop :=
  ∀ n, f.header.entryPoint = some v → f.entryWithout v = some n → f.header.maxLayer ≤ f.levelOf n

end VecFile

namespace VectorCollection

open VecFile Wp

variable {ε : Type} {a : Access ε} {f f' : VecFile} {n v layer : ℕ} {vector : List UInt32}
  {distanceFn : DistanceMetric → List UInt32 → List UInt32 → UInt32} {order : HeapOrder}

theorem Adds.on {layer' : ℕ} (h : Adds f f' v vector layer') (hne : n ≠ v) :
    f'.graph.On layer n ↔ f.graph.On layer n := by
  change n < f'.header.nodeCount ∧ layer ≤ f'.levelOf n ↔ n < f.header.nodeCount ∧ _
  rw [h.counted n hne]
  exact and_congr_right fun hn => by rw [(h.same n hn hne).record.level]; rfl

theorem Adds.on_self (h : Adds f f' v vector layer) : f'.graph.On layer v := ⟨h.lt, h.level.ge⟩

/-- The graph with the new node. -/
theorem Adds.layered (h : Adds f f' v vector layer) (hf : GraphInv f) (hfits : f.InsertFits layer) :
    f'.graph.Layered ∧
      ∀ ep, f'.header.entryPoint = some ep → f'.graph.On f'.header.maxLayer ep := by
  have hentry : f'.header.entryPoint = f.header.entryPoint := by rw [h.header]
  have hmax : f'.header.maxLayer = f.header.maxLayer := by rw [h.header]
  constructor
  · intro l n hon x hx
    by_cases hne : n = v
    · subst hne
      have hl : l ≤ layer := h.level ▸ hon.2
      have hx : x ∈ f'.listOf n l := hx
      rw [h.lists l hl] at hx
      exact absurd hx List.not_mem_nil
    · have honF := (Adds.on h hne).mp hon
      have hlist : f'.listOf n l = f.listOf n l := (h.same n honF.1 hne).record.list l honF.2
      have hx : x ∈ f'.listOf n l := hx
      rw [hlist] at hx
      have hxOn := hf.layered l n honF x hx
      by_cases hxv : x = v
      · subst hxv
        rcases h.was with ⟨hhead, -⟩ | ⟨-, hnew⟩
        · exact (Adds.on_self h).mono ((hfits.reuse x hhead).edges l n honF hne hx)
        · exact absurd hxOn.1 (by rw [hnew]; exact lt_irrefl f.header.nodeCount)
      · exact (Adds.on h hxv).mpr hxOn
  · intro ep hep
    rw [hentry] at hep
    rw [hmax]
    have hon := hf.entry ep hep
    by_cases hne : ep = v
    · subst hne
      rcases h.was with ⟨hhead, -⟩ | ⟨-, hnew⟩
      · exact (Adds.on_self h).mono ((hfits.reuse ep hhead).entry hep)
      · exact absurd hon.1 (by rw [hnew]; exact lt_irrefl f.header.nodeCount)
    · exact (Adds.on h hne).mpr hon

/-- A file with the same nodes, and another entry point. -/
theorem GraphInv.of_same {free : List ℕ} (hf : Layout f) (hfree : FreeList f free)
    (hlayered : f.graph.Layered) (hshape : Shape f')
    (hheader : f'.header = { f.header with
      entryPoint := f'.header.entryPoint
      maxLayer := f'.header.maxLayer })
    (hsame : ∀ n < f.header.nodeCapacity, SameNode f f' n)
    (hentry : ∀ ep, f'.header.entryPoint = some ep → f.graph.On f'.header.maxLayer ep) :
    GraphInv f' := by
  have hcount : f'.header.nodeCount = f.header.nodeCount := by rw [hheader]
  have hcap : f'.header.nodeCapacity = f.header.nodeCapacity := by rw [hheader]
  have hm : f'.header.m = f.header.m := by rw [hheader]
  have hlen : f'.header.graphDataLen = f.header.graphDataLen := by rw [hheader]
  have hrecord : VecFile.SameRecords f f' := ⟨hcount, fun n hn => (hsame n (hf.lt_cap hn)).record⟩
  refine ⟨⟨hshape, ?_, fun {n} hle hlt => ?_⟩, ⟨free, ?_⟩, hrecord.layered hlayered,
    fun ep hep => hrecord.on.mpr (hentry ep hep)⟩
  · have hrecords := hf.records.congr hm hlen.ge hrecord.record
    rwa [← hcount] at hrecords
  · rw [hcap] at hlt
    rw [(hsame n hlt).deleted]
    exact hf.fresh (hcount ▸ hle) hlt
  · refine hfree.congr (by rw [hheader]) (by rw [hheader]) hcount (fun n hn => ?_) fun n hn => ?_
    · exact (hsame n (hf.lt_cap ((hfree.mem n).mp hn).1)).link
    · exact (hsame n (hf.lt_cap hn)).deleted

/-- The new entry point is stored with the file. -/
theorem storeEntry_ok {free : List ℕ} (hf : Layout f) (hfree : FreeList f free)
    (hlayered : f.graph.Layered) {entry : Option ℕ} {maxLayer : ℕ}
    (hentry : ∀ ep, entry = some ep → f.graph.On maxLayer ep) :
    ∃ f', VecFile.flush { f with header.entryPoint := entry, header.maxLayer := maxLayer } =
        .ok f' ∧
      f'.header = { f.header with entryPoint := entry, maxLayer := maxLayer } ∧ GraphInv f' ∧
      ∀ n < f.header.nodeCapacity, SameNode f f' n := by
  set f₁ : VecFile := { f with header.entryPoint := entry, header.maxLayer := maxLayer } with hf₁
  have hshape : Shape f₁ :=
    ⟨hf.shape.dims_pos, hf.shape.m_pos, hf.shape.m_le, hf.shape.cap_pos, hf.shape.cap_lt,
      hf.shape.count_le, hf.shape.size, hf.shape.graph_le⟩
  obtain ⟨f', hrun, hheader, hshape', hsame⟩ := flush_ok hshape
  have hsame₁ : ∀ n, SameNode f f₁ n := fun n => ⟨⟨rfl, rfl, fun _ _ => rfl⟩, rfl, rfl, rfl⟩
  have hsame' : ∀ n < f.header.nodeCapacity, SameNode f f' n := fun n hn =>
    (hsame₁ n).trans (hsame n hn)
  refine ⟨f', hrun, hheader, ?_, hsame'⟩
  refine GraphInv.of_same hf hfree hlayered hshape' ?_ hsame' ?_
  · rw [hheader]
  · rw [hheader]
    exact hentry

end VectorCollection

end BoogyDb

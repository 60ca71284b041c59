import BoogyDb.Lib.FencedTree
import Mathlib.Data.List.Perm.Basic
import Mathlib.Logic.Function.Basic

/-!
# Sorted contents of fenced leaves

The leaves of a search tree hold entries, pairs of a key and a value.  `Ordered`
says that the entries of each leaf are sorted and within its fence and the fence
of the next leaf; the contents of the tree, all entries from left to right, are
then sorted.  An operation on one leaf replaces it by one or two leaves
(`Ordered.replace`), and the contents are those of the map it stands for
(`Represents`).
-/

namespace FencedTree

variable {κ α : Type}

/-! ## Insertion into a list -/

theorem insertIdx_eq_take_drop {l : List α} {i : ℕ} {a : α} (h : i ≤ l.length) :
    l.insertIdx i a = l.take i ++ a :: l.drop i := by
  induction l generalizing i with
  | nil =>
      obtain rfl : i = 0 := by simpa using h
      rfl
  | cons b l ih =>
      cases i with
      | zero => rfl
      | succ i =>
          rw [List.insertIdx_succ_cons, ih (Nat.le_of_succ_le_succ h), List.take_succ_cons,
            List.drop_succ_cons, List.cons_append]

variable [LinearOrder κ]

/-- The keys of the entries increase. -/
abbrev KeysIncrease (entries : List (κ × α)) : Prop := entries.Pairwise fun a b => a.1 < b.1

/-- An entry put where it belongs. -/
theorem KeysIncrease.insertIdx {entries : List (κ × α)} {e : κ × α} {i : ℕ}
    (h : KeysIncrease entries) (hi : i ≤ entries.length) (hbelow : ∀ b ∈ entries.take i, b.1 < e.1)
    (habove : ∀ b ∈ entries.drop i, e.1 < b.1) : KeysIncrease (entries.insertIdx i e) := by
  rw [insertIdx_eq_take_drop hi]
  have hsplit := List.take_append_drop i entries
  rw [← hsplit, KeysIncrease, List.pairwise_append] at h
  obtain ⟨htake, hdrop, hcross⟩ := h
  refine List.pairwise_append.mpr ⟨htake, List.pairwise_cons.mpr ⟨habove, hdrop⟩, ?_⟩
  intro a ha b hb
  rcases List.mem_cons.mp hb with rfl | hb
  · exact hbelow a ha
  · exact hcross a ha b hb

/-- Entries before a position have smaller keys than the entry there. -/
theorem KeysIncrease.lt_of_mem_take {entries : List (κ × α)} (h : KeysIncrease entries) {i : ℕ}
    (hi : i < entries.length) : ∀ b ∈ entries.take i, b.1 < entries[i].1 := by
  intro b hb
  obtain ⟨j, hj, rfl⟩ := List.getElem_of_mem hb
  rw [List.length_take] at hj
  rw [List.getElem_take]
  exact List.pairwise_iff_getElem.mp h j i (by omega) hi (by omega)

theorem KeysIncrease.le_of_mem_drop {entries : List (κ × α)} (h : KeysIncrease entries) {i : ℕ}
    (hi : i < entries.length) : ∀ b ∈ entries.drop i, entries[i].1 ≤ b.1 := by
  intro b hb
  obtain ⟨j, hj, rfl⟩ := List.getElem_of_mem hb
  rw [List.length_drop] at hj
  rw [List.getElem_drop]
  rcases Nat.eq_zero_or_pos j with rfl | hpos
  · exact le_rfl
  · exact (List.pairwise_iff_getElem.mp h i (i + j) hi (by omega) (by omega)).le

/-! ## Leaves -/

structure Leaf (κ α : Type) where
  fence : WithBot κ
  page : ℕ
  entries : List (κ × α)

namespace Leaf

/-- The leaf without its entries. -/
def span (l : Leaf κ α) : WithBot κ × ℕ := (l.fence, l.page)

/-- The entries are in order and not below the fence. -/
structure Sorted (l : Leaf κ α) : Prop where
  increase : KeysIncrease l.entries
  fenced : ∀ e ∈ l.entries, l.fence ≤ e.1

/-- `a` lies before `b`. -/
structure Before (a b : Leaf κ α) : Prop where
  fence : a.fence < b.fence
  entries : ∀ e ∈ a.entries, (e.1 : WithBot κ) < b.fence

end Leaf

structure Ordered (leaves : List (Leaf κ α)) : Prop where
  sorted : ∀ l ∈ leaves, l.Sorted
  before : leaves.Pairwise Leaf.Before

/-- All entries, from left to right. -/
def contents (leaves : List (Leaf κ α)) : List (κ × α) := leaves.flatMap Leaf.entries

section

variable {leaves pre post new : List (Leaf κ α)} {l : Leaf κ α} {key : κ}

omit [LinearOrder κ] in
theorem contents_append (leaves leaves' : List (Leaf κ α)) :
    contents (leaves ++ leaves') = contents leaves ++ contents leaves' := List.flatMap_append

omit [LinearOrder κ] in
/-- The contents when a leaf takes an entry. -/
theorem contents_insertIdx_perm {e : κ × α} {pos : ℕ} (hpos : pos ≤ l.entries.length)
    (hnew : contents new = l.entries.insertIdx pos e) :
    (contents (pre ++ new ++ post)).Perm (e :: contents (pre ++ l :: post)) := by
  have hleaf : (contents new).Perm (e :: l.entries) := hnew ▸ List.perm_insertIdx e l.entries hpos
  have hold : contents (pre ++ l :: post) = contents pre ++ (l.entries ++ contents post) := by
    rw [contents_append]
    rfl
  rw [contents_append, contents_append, hold, List.append_assoc]
  exact ((hleaf.append_right _).append_left _).trans List.perm_middle

omit [LinearOrder κ] in
/-- The contents when a leaf loses the entry at a position. -/
theorem contents_eraseIdx_perm {l' : Leaf κ α} {pos : ℕ} (hpos : pos < l.entries.length)
    (hl' : l'.entries = l.entries.eraseIdx pos) :
    (contents (pre ++ l :: post)).Perm (l.entries[pos] :: contents (pre ++ l' :: post)) := by
  have hleaf : l.entries.Perm (l.entries[pos] :: l'.entries) :=
    hl' ▸ (List.getElem_cons_eraseIdx_perm hpos).symm
  have hsplit : ∀ q : Leaf κ α, contents (pre ++ q :: post) =
      contents pre ++ (q.entries ++ contents post) := fun q => by
    rw [contents_append]
    rfl
  rw [hsplit, hsplit]
  exact ((hleaf.append_right _).append_left _).trans List.perm_middle

theorem Ordered.increasing (h : Ordered leaves) : Increasing (leaves.map Leaf.span) :=
  List.pairwise_map.mpr (h.before.imp fun hab => hab.fence)

theorem Ordered.keysIncrease (h : Ordered leaves) : KeysIncrease (contents leaves) := by
  refine List.pairwise_flatMap.mpr ⟨fun l hl => (h.sorted l hl).increase, ?_⟩
  refine h.before.imp_of_mem ?_
  intro a b _ hb hab x hx y hy
  have hlt := (hab.entries x hx).trans_le ((h.sorted b hb).fenced y hy)
  exact WithBot.coe_lt_coe.mp hlt

/-- An entry with this key is in the leaf where the key belongs. -/
theorem Ordered.mem_contents_iff (h : Ordered (pre ++ l :: post)) (hle : l.fence ≤ key)
    (hlt : ∀ q ∈ post, (key : WithBot κ) < q.fence) {a : α} :
    (key, a) ∈ contents (pre ++ l :: post) ↔ (key, a) ∈ l.entries := by
  obtain ⟨-, -, hcross⟩ := List.pairwise_append.mp h.before
  rw [contents_append, List.mem_append]
  constructor
  · rintro (hpre | hrest)
    · obtain ⟨q, hq, hmem⟩ := List.mem_flatMap.mp hpre
      have hlow := (hcross q hq l List.mem_cons_self).entries _ hmem
      exact absurd hle (not_le_of_gt hlow)
    · obtain ⟨q, hq, hmem⟩ := List.mem_flatMap.mp hrest
      rcases List.mem_cons.mp hq with rfl | hq
      · exact hmem
      · have hfence := (h.sorted q (List.mem_append_right _ (List.mem_cons_of_mem _ hq))).fenced
          _ hmem
        exact absurd (hlt q hq) (not_lt_of_ge hfence)
  · intro hmem
    exact .inr (List.mem_flatMap.mpr ⟨l, List.mem_cons_self, hmem⟩)

/-- **One leaf is replaced by others within its bounds.** -/
theorem Ordered.replace (h : Ordered (pre ++ l :: post)) (hnew : Ordered new)
    (hlow : ∀ n ∈ new, l.fence ≤ n.fence) (hhigh : ∀ n ∈ new, ∀ q ∈ post, n.Before q) :
    Ordered (pre ++ new ++ post) := by
  obtain ⟨hpre, hrest, hcross⟩ := List.pairwise_append.mp h.before
  constructor
  · intro q hq
    rcases List.mem_append.mp hq with hq | hq
    · rcases List.mem_append.mp hq with hq | hq
      · exact h.sorted q (List.mem_append_left _ hq)
      · exact hnew.sorted q hq
    · exact h.sorted q (List.mem_append_right _ (List.mem_cons_of_mem _ hq))
  · refine List.pairwise_append.mpr ⟨List.pairwise_append.mpr ⟨hpre, hnew.before, ?_⟩,
      (List.pairwise_cons.mp hrest).2, ?_⟩
    · intro a ha n hn
      have hal := hcross a ha l List.mem_cons_self
      exact ⟨hal.fence.trans_le (hlow n hn), fun e he => (hal.entries e he).trans_le (hlow n hn)⟩
    · intro a ha q hq
      rcases List.mem_append.mp ha with ha | ha
      · exact hcross a ha q (List.mem_cons_of_mem _ hq)
      · exact hhigh a ha q hq

/-- A single leaf. -/
theorem ordered_singleton (h : l.Sorted) : Ordered [l] :=
  ⟨fun q hq => by rwa [List.mem_singleton.mp hq], List.pairwise_singleton _ _⟩

/-- Fewer entries in a leaf are still in order. -/
theorem Ordered.shrink {l' : Leaf κ α} (h : Ordered (pre ++ l :: post)) (hspan : l'.span = l.span)
    (hsub : l'.entries.Sublist l.entries) : Ordered (pre ++ l' :: post) := by
  have hfence : l'.fence = l.fence := congrArg Prod.fst hspan
  have hsorted := h.sorted l (List.mem_append_right _ List.mem_cons_self)
  have hbefore : ∀ q ∈ post, l.Before q := fun q hq =>
    List.rel_of_pairwise_cons (List.pairwise_append.mp h.before).2.1 hq
  have hsorted' : l'.Sorted := by
    refine ⟨hsorted.increase.sublist hsub, fun e he => ?_⟩
    rw [hfence]
    exact hsorted.fenced e (hsub.subset he)
  have hreplace := h.replace (ordered_singleton hsorted')
    (fun n hn => by rw [List.mem_singleton.mp hn, hfence])
    fun n hn q hq => by
      rw [List.mem_singleton.mp hn]
      exact ⟨hfence ▸ (hbefore q hq).fence, fun e he => (hbefore q hq).entries e (hsub.subset he)⟩
  rwa [List.append_assoc] at hreplace

/-- A key belongs to one leaf. -/
theorem located_unique {pre' post' : List (Leaf κ α)} {l' : Leaf κ α}
    (h : pre ++ l :: post = pre' ++ l' :: post') (hle : l.fence ≤ key)
    (hlt : ∀ q ∈ post, (key : WithBot κ) < q.fence) (hle' : l'.fence ≤ key)
    (hlt' : ∀ q ∈ post', (key : WithBot κ) < q.fence) : pre = pre' ∧ l = l' ∧ post = post' := by
  rcases List.append_eq_append_iff.mp h with ⟨c, rfl, hc⟩ | ⟨c, rfl, hc⟩
  · cases c with
    | nil =>
        obtain ⟨rfl, rfl⟩ := List.cons.inj hc
        exact ⟨(List.append_nil _).symm, rfl, rfl⟩
    | cons b c =>
        obtain ⟨rfl, rfl⟩ := List.cons.inj hc
        exact absurd hle' (not_le_of_gt (hlt l' (List.mem_append_right _ List.mem_cons_self)))
  · cases c with
    | nil =>
        obtain ⟨rfl, rfl⟩ := List.cons.inj hc
        exact ⟨List.append_nil _, rfl, rfl⟩
    | cons b c =>
        obtain ⟨rfl, rfl⟩ := List.cons.inj hc
        exact absurd hle (not_le_of_gt (hlt' l (List.mem_append_right _ List.mem_cons_self)))

/-- The two halves of a sorted leaf, with a fence between them. -/
theorem ordered_halves (h : l.Sorted) {mid page : ℕ} {fence : κ} (hmid : 0 < mid)
    (hne : l.entries ≠ []) (hleft : ∀ e ∈ l.entries.take mid, e.1 < fence)
    (hright : ∀ e ∈ l.entries.drop mid, fence ≤ e.1) :
    Ordered [⟨l.fence, l.page, l.entries.take mid⟩, ⟨fence, page, l.entries.drop mid⟩] := by
  constructor
  · intro q hq
    rcases List.mem_pair.mp hq with rfl | rfl
    · exact ⟨h.increase.sublist (List.take_sublist _ _), fun e he =>
        h.fenced e (List.mem_of_mem_take he)⟩
    · exact ⟨h.increase.sublist (List.drop_sublist _ _), fun e he =>
        WithBot.coe_le_coe.mpr (hright e he)⟩
  · refine List.pairwise_pair.mpr ⟨?_, fun e he => WithBot.coe_lt_coe.mpr (hleft e he)⟩
    -- the left half is not empty, so the old fence is below the new one
    obtain ⟨e, rest, hentries⟩ := List.exists_cons_of_ne_nil hne
    obtain ⟨mid, rfl⟩ := Nat.exists_eq_succ_of_ne_zero hmid.ne'
    have he : e ∈ l.entries.take (mid + 1) := by
      rw [hentries, List.take_succ_cons]
      exact List.mem_cons_self
    exact (h.fenced e (List.mem_of_mem_take he)).trans_lt (WithBot.coe_lt_coe.mpr (hleft e he))

end

/-! ## The map the contents stand for -/

/-- Sorted entries, one for each key with a value. -/
structure Represents (entries : List (κ × α)) (m : κ → Option α) : Prop where
  increase : KeysIncrease entries
  mem_iff : ∀ k a, (k, a) ∈ entries ↔ m k = some a

section

variable {entries entries' : List (κ × α)} {m : κ → Option α} {key : κ} {a : α}

theorem Represents.nil : Represents ([] : List (κ × α)) fun _ => none :=
  ⟨List.Pairwise.nil, fun k a => by simp⟩

theorem KeysIncrease.eq_of_mem (h : KeysIncrease entries) {x y : κ × α} (hx : x ∈ entries)
    (hy : y ∈ entries) (hxy : x.1 = y.1) : x = y := by
  by_contra hne
  have hlt := List.pairwise_iff_getElem.mp h
  obtain ⟨i, hi, rfl⟩ := List.getElem_of_mem hx
  obtain ⟨j, hj, rfl⟩ := List.getElem_of_mem hy
  rcases Nat.lt_trichotomy i j with hij | hij | hij
  · exact (hlt i j hi hj hij).ne hxy
  · exact hne (by simp only [hij])
  · exact (hlt j i hj hi hij).ne' hxy

/-- One entry more. -/
theorem Represents.insert (h : Represents entries m) (hinc : KeysIncrease entries')
    (hperm : entries'.Perm ((key, a) :: entries)) :
    Represents entries' (Function.update m key (some a)) := by
  refine ⟨hinc, fun k b => ?_⟩
  rw [hperm.mem_iff, List.mem_cons]
  by_cases hk : k = key
  · subst hk
    rw [Function.update_self]
    constructor
    · rintro (heq | hmem)
      · rw [(Prod.mk.inj heq).2]
      · have hb := hperm.mem_iff.mpr (List.mem_cons_of_mem _ hmem)
        have ha := hperm.mem_iff.mpr (List.mem_cons_self (a := (k, a)))
        rw [(Prod.mk.inj (KeysIncrease.eq_of_mem hinc ha hb rfl)).2]
    · intro heq
      exact .inl (by rw [Option.some.inj heq])
  · rw [Function.update_of_ne hk, h.mem_iff]
    constructor
    · rintro (heq | hmem)
      · exact absurd (Prod.mk.inj heq).1 hk
      · exact hmem
    · exact .inr

/-- One entry less. -/
theorem Represents.erase (h : Represents entries m)
    (hperm : entries.Perm ((key, a) :: entries')) (hinc : KeysIncrease entries') :
    Represents entries' (Function.update m key none) := by
  refine ⟨hinc, fun k b => ?_⟩
  have hmem := fun x => hperm.mem_iff (a := x)
  have hnodup : ∀ b, (key, b) ∉ entries' := by
    intro b hb
    have hnd : entries.Nodup := h.increase.imp fun hlt heq => hlt.ne (by rw [heq])
    have hcons := hperm.nodup_iff.mp hnd
    have heq := KeysIncrease.eq_of_mem h.increase ((hmem _).mpr (List.mem_cons_of_mem _ hb))
      ((hmem _).mpr List.mem_cons_self) rfl
    rw [heq] at hb
    exact (List.nodup_cons.mp hcons).1 hb
  by_cases hk : k = key
  · subst hk
    rw [Function.update_self]
    exact ⟨fun hb => absurd hb (hnodup b), fun heq => by cases heq⟩
  · rw [Function.update_of_ne hk, ← h.mem_iff, hmem, List.mem_cons]
    constructor
    · exact .inr
    · rintro (heq | hb)
      · exact absurd (Prod.mk.inj heq).1 hk
      · exact hb

/-- Entries in the order of their keys are determined by what they are. -/
theorem KeysIncrease.ext (h : KeysIncrease entries) (h' : KeysIncrease entries')
    (hmem : ∀ e, e ∈ entries ↔ e ∈ entries') : entries = entries' := by
  have hnd : ∀ {es : List (κ × α)}, KeysIncrease es → es.Nodup := fun hes =>
    hes.imp fun hlt heq => hlt.ne (by rw [heq])
  have hperm : entries.Perm entries' := (List.perm_ext_iff_of_nodup (hnd h) (hnd h')).mpr hmem
  refine hperm.eq_of_pairwise (fun x y hx hy hxy hyx => ?_) h h'
  exact absurd (hxy.trans hyx) (lt_irrefl _)

/-- Two lists that stand for one map are the same. -/
theorem Represents.unique (h : Represents entries m) (h' : Represents entries' m) :
    entries = entries' :=
  KeysIncrease.ext h.increase h'.increase fun e => by rw [h.mem_iff e.1 e.2, h'.mem_iff e.1 e.2]

end

/-! ## Looking up keys -/

section

variable {entries : List (κ × α)}

/-- The entry of a key. -/
def entryOf (entries : List (κ × α)) (key : κ) : Option (κ × α) :=
  entries.find? fun e => e.1 = key

theorem entryOf_eq_some_iff (h : KeysIncrease entries) {key : κ} {e : κ × α} :
    entryOf entries key = some e ↔ e ∈ entries ∧ e.1 = key := by
  constructor
  · intro hfind
    exact ⟨List.mem_of_find?_eq_some hfind, by simpa using List.find?_some hfind⟩
  · rintro ⟨hmem, hkey⟩
    cases hfind : entryOf entries key with
    | none => exact absurd hkey (by simpa using List.find?_eq_none.mp hfind e hmem)
    | some e' =>
        have hmem' := List.mem_of_find?_eq_some hfind
        have hkey' : e'.1 = key := by simpa using List.find?_some hfind
        rw [KeysIncrease.eq_of_mem h hmem' hmem (hkey'.trans hkey.symm)]

/-- Looking up keys in their order lists the entries that have one of them. -/
theorem filterMap_entryOf (h : KeysIncrease entries) {keys : List κ}
    (hkeys : keys.Pairwise (· < ·)) :
    keys.filterMap (entryOf entries) = entries.filter fun e => e.1 ∈ keys := by
  apply KeysIncrease.ext
  · refine List.pairwise_filterMap.mpr (hkeys.imp fun {a b} hlt e he e' he' => ?_)
    rw [((entryOf_eq_some_iff h).mp he).2, ((entryOf_eq_some_iff h).mp he').2]
    exact hlt
  · exact List.Pairwise.filter _ h
  · intro e
    simp only [List.mem_filterMap, entryOf_eq_some_iff h, List.mem_filter, decide_eq_true_eq]
    constructor
    · rintro ⟨key, hkey, hmem, heq⟩
      exact ⟨hmem, heq ▸ hkey⟩
    · rintro ⟨hmem, hkey⟩
      exact ⟨e.1, hkey, hmem, rfl⟩

end

end FencedTree

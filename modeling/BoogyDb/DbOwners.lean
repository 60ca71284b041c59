import BoogyDb.Calls
import BoogyDb.Lib.AssocMap
import BoogyDb.SchemaSteps

/-!
# The pages of a database

Page 0 belongs to the registry, and each table has its trees.  `DbOk` says that the tables
with their models are in a file, each on pages of its own; it is said of a file with its
overlay, so it holds inside a write guard and inside a transaction as well.  A step of one
table (`DbOk.table`), a new table, a dropped one and a new registry keep it.
-/

namespace BoogyDb

open Bytes Wp WriteGuard FencedTree Ownership

abbrev Tables := AList fun _ : String => TableMeta

section

variable [Crc32Fast]

/-- Page 0, where the registry is. -/
def systemPage : Assertion WriteGuard := fun g P => P = {0} ∧ 0 < g.bound

instance : Local systemPage where
  below := by
    rintro g P ⟨rfl, hpos⟩ p hp
    rw [Set.mem_singleton_iff.mp hp]
    exact hpos
  stable := by
    rintro g g' P ⟨rfl, hpos⟩ _ hle
    exact ⟨rfl, hpos.trans_le hle⟩

/-- The owners of the pages; `started` says whether page 0 is there. -/
def owners (started : Bool) (tables : Tables) (Ms : String → TableModel) :
    Option String → Assertion WriteGuard
  | none => if started then systemPage else emp
  | some name =>
    match tables.lookup name with
    | some state => TableAt state.rootPage state.indexes (Ms name)
    | none => emp

variable {started : Bool} {tables : Tables} {Ms : String → TableModel} {g g' : WriteGuard}
  {storable : UInt64 → List UInt8 → Prop} {keyed : Prop} {name : String} {state : TableMeta}

instance (i : Option String) : Local (owners started tables Ms i) := by
  cases i with
  | none =>
      rw [owners]
      cases started with
      | true => exact inferInstanceAs (Local systemPage)
      | false => exact inferInstanceAs (Local (emp : Assertion WriteGuard))
  | some name =>
      rw [owners]
      cases tables.lookup name with
      | some state =>
          show Local (TableAt state.rootPage state.indexes (Ms name))
          infer_instance
      | none =>
          show Local (emp : Assertion WriteGuard)
          infer_instance

/-- The tables are in the file, with what the models say. -/
structure DbOk (storable : UInt64 → List UInt8 → Prop) (keyed : Prop) (started : Bool)
    (tables : Tables) (Ms : String → TableModel) (g : WriteGuard) : Prop where
  owned : ∃ P, Whole (owners started tables Ms) g P
  each : ∀ name state, tables.lookup name = some state → TableOk storable keyed state (Ms name)
  fresh : started = false → (∀ name, tables.lookup name = none) ∧ g.bound = 0

theorem DbOk.isStarted (h : DbOk storable keyed started tables Ms g)
    (hname : tables.lookup name = some state) : started = true := by
  by_contra hnot
  rw [(h.fresh (Bool.eq_false_of_not_eq_true hnot)).1] at hname
  cases hname

/-- **A step of one table.** -/
theorem DbOk.table (h : DbOk storable keyed started tables Ms g)
    (hname : tables.lookup name = some state) :
    TableOk storable keyed state (Ms name) ∧
    ∃ P, TableAt state.rootPage state.indexes (Ms name) g P ∧
      ∀ state' M' g', TableOk storable keyed state' M' →
        Turns (TableAt state'.rootPage state'.indexes M') g P g' →
        DbOk storable keyed started (tables.replace name state') (Function.update Ms name M') g' := by
  obtain ⟨Q, hQ⟩ := h.owned
  obtain ⟨P, hP, hback⟩ := Whole.owner hQ (some name)
  have hhere : (tables.lookup name).isSome := Option.isSome_of_eq_some hname
  rw [owners, hname] at hP
  refine ⟨h.each name state hname, P, hP, fun state' M' g' hok hturn => ?_⟩
  have hlookup : ∀ k, k ≠ name → (tables.replace name state').lookup k = tables.lookup k :=
    fun k hk => AList.lookup_replace_ne hk
  have hself : (tables.replace name state').lookup name = some state' := AList.lookup_replace hhere
  have heq : Function.update (owners started tables Ms) (some name)
      (TableAt state'.rootPage state'.indexes M') =
        owners started (tables.replace name state') (Function.update Ms name M') := by
    funext i
    cases i with
    | none => exact Function.update_of_ne (Option.some_ne_none name).symm ..
    | some k =>
        by_cases hk : k = name
        · subst hk
          rw [Function.update_self, owners, hself]
          dsimp only
          rw [Function.update_self]
        · rw [Function.update_of_ne (fun heq => hk (Option.some.inj heq)), owners, owners,
            hlookup k hk, Function.update_of_ne hk]
  obtain ⟨⟨Q', hQ', -⟩, -, -⟩ := hback _ _ hturn
  refine ⟨⟨Q', heq ▸ hQ'⟩, fun k state₁ hk₁ => ?_, fun hfalse => ?_⟩
  · by_cases hk : k = name
    · subst hk
      rw [hself] at hk₁
      rw [← Option.some.inj hk₁, Function.update_self]
      exact hok
    · rw [hlookup k hk] at hk₁
      rw [Function.update_of_ne hk]
      exact h.each k state₁ hk₁
  · rw [h.isStarted hname] at hfalse
    cases hfalse

/-- **A new table.** -/
theorem DbOk.newTable {root : ℕ} {state' : TableMeta} {M' : TableModel}
    (h : DbOk storable keyed true tables Ms g)
    (hname : tables.lookup name = none) (hroot : state'.rootPage = root)
    (hindexes : state'.indexes = []) (hok : TableOk storable keyed state' M')
    (hturn : Turns (RowsAt root M'.rows) g ∅ g') :
    DbOk storable keyed true (tables.insert name state') (Function.update Ms name M') g' := by
  obtain ⟨Q, hQ⟩ := h.owned
  obtain ⟨P, hP, hback⟩ := Whole.owner hQ (some name)
  rw [owners, hname] at hP
  obtain rfl : P = ∅ := hP
  have hself : (tables.insert name state').lookup name = some state' := AList.lookup_insert tables
  have hlookup : ∀ k, k ≠ name → (tables.insert name state').lookup k = tables.lookup k :=
    fun k hk => AList.lookup_insert_ne hk
  -- the tree of the rows is the only one
  have hone : Turns (TableAt state'.rootPage state'.indexes M') g ∅ g' := by
    refine hturn.mono fun R hR => ?_
    refine ⟨fun i => if i = 0 then R else ∅, ⟨fun i => ?_, fun i j hij => ?_⟩, ?_⟩
    · cases i with
      | zero =>
          rw [if_pos rfl, trees, hroot]
          exact hR
      | succ i =>
          rw [if_neg (Nat.succ_ne_zero i), trees, hindexes]
          rfl
    · show Disjoint (if i = 0 then R else ∅) (if j = 0 then R else ∅)
      by_cases hi : i = 0
      · have hj : j ≠ 0 := fun hj => hij (hi.trans hj.symm)
        rw [if_neg hj]
        exact Set.disjoint_empty _
      · rw [if_neg hi]
        exact Set.empty_disjoint _
    · ext p
      simp
  have heq : Function.update (owners true tables Ms) (some name)
      (TableAt state'.rootPage state'.indexes M') =
        owners true (tables.insert name state') (Function.update Ms name M') := by
    funext i
    cases i with
    | none => exact Function.update_of_ne (Option.some_ne_none name).symm ..
    | some k =>
        by_cases hk : k = name
        · subst hk
          rw [Function.update_self, owners, hself]
          dsimp only
          rw [Function.update_self]
        · rw [Function.update_of_ne (fun heq => hk (Option.some.inj heq)), owners, owners,
            hlookup k hk, Function.update_of_ne hk]
  obtain ⟨⟨Q', hQ', -⟩, -, -⟩ := hback _ _ hone
  refine ⟨⟨Q', heq ▸ hQ'⟩, fun k state₁ hk₁ => ?_, nofun⟩
  by_cases hk : k = name
  · subst hk
    rw [hself] at hk₁
    rw [← Option.some.inj hk₁, Function.update_self]
    exact hok
  · rw [hlookup k hk] at hk₁
    rw [Function.update_of_ne hk]
    exact h.each k state₁ hk₁

/-- **The pages of a dropped table** are nobody's. -/
theorem DbOk.dropTable (h : DbOk storable keyed started tables Ms g) :
    DbOk storable keyed started (tables.erase name) Ms g := by
  obtain ⟨Q, hQ⟩ := h.owned
  obtain ⟨P, -, hback⟩ := Whole.owner hQ (some name)
  have hself := AList.lookup_erase name tables
  have hlookup : ∀ k, k ≠ name → (tables.erase name).lookup k = tables.lookup k :=
    fun k hk => AList.lookup_erase_ne hk
  have hturn : Turns (emp : Assertion WriteGuard) g P g :=
    ⟨⟨∅, rfl, by simp⟩, fun _ _ _ => id, le_rfl⟩
  have heq : Function.update (owners started tables Ms) (some name) emp =
      owners started (tables.erase name) Ms := by
    funext i
    cases i with
    | none => exact Function.update_of_ne (Option.some_ne_none name).symm ..
    | some k =>
        by_cases hk : k = name
        · subst hk
          rw [Function.update_self, owners, hself]
        · rw [Function.update_of_ne (fun heq => hk (Option.some.inj heq)), owners, owners,
            hlookup k hk]
  obtain ⟨⟨Q', hQ', -⟩, -, -⟩ := hback _ _ hturn
  refine ⟨⟨Q', heq ▸ hQ'⟩, fun k state₁ hk₁ => ?_, fun hfalse => ⟨fun k => ?_, (h.fresh hfalse).2⟩⟩
  · by_cases hk : k = name
    · subst hk
      rw [hself] at hk₁
      cases hk₁
    · rw [hlookup k hk] at hk₁
      exact h.each k state₁ hk₁
  · by_cases hk : k = name
    · rw [hk]
      exact hself
    · rw [hlookup k hk]
      exact (h.fresh hfalse).1 k

/-- **The file changes where nobody owns a page**, or on page 0. -/
theorem DbOk.registry (h : DbOk storable keyed true tables Ms g)
    (hturn : ∀ P, systemPage g P → Turns systemPage g P g') :
    DbOk storable keyed true tables Ms g' := by
  obtain ⟨Q, hQ⟩ := h.owned
  obtain ⟨P, hP, hback⟩ := Whole.owner hQ none
  rw [owners, if_pos rfl] at hP
  have heq : Function.update (owners true tables Ms) none systemPage = owners true tables Ms := by
    refine (congrArg _ ?_).trans (Function.update_eq_self none _)
    rw [owners, if_pos rfl]
  obtain ⟨⟨Q', hQ', -⟩, -, -⟩ := hback _ _ (hturn P hP)
  exact ⟨⟨Q', heq ▸ hQ'⟩, h.each, nofun⟩

/-- A commit changes nothing. -/
theorem DbOk.commit {file : PageFile} {afterImages : List (ℕ × Page)}
    (h : DbOk storable keyed started tables Ms g) (hcommit : g.commit = .ok (afterImages, file)) :
    DbOk storable keyed started tables Ms file := by
  obtain ⟨Q, hQ⟩ := h.owned
  obtain ⟨⟨Q', hQ', -⟩, -, -⟩ := turns_commit hQ hcommit
  exact ⟨⟨Q', hQ'⟩, h.each, fun hfalse => ⟨(h.fresh hfalse).1,
    (commit_bound hcommit).trans (h.fresh hfalse).2⟩⟩

end

end BoogyDb

import Mathlib.Data.List.Forall2
import Mathlib.Data.List.ReduceOption

/-!
# Lists of fallible steps

`mapM` in `Except` succeeds exactly when every step does, and then its result
lists the values of the steps.

`Good E Q x` says that `x` returns something that satisfies `Q` or fails with an error that
satisfies `E`; the rules follow the steps of a program.
-/

namespace Except

variable {ε α β : Type}

theorem ok_bind (a : α) (f : α → Except ε β) : ((.ok a : Except ε α) >>= f) = f a := rfl

theorem mapM_eq_ok_iff {f : α → Except ε β} {l : List α} {r : List β} :
    l.mapM f = .ok r ↔ List.Forall₂ (fun a b => f a = .ok b) l r := by
  induction l generalizing r with
  | nil =>
      rw [List.mapM_nil]
      constructor
      · intro h
        cases h
        exact .nil
      · intro h
        cases h
        rfl
  | cons a l ih =>
      rw [List.mapM_cons]
      constructor
      · intro h
        cases hfa : f a with
        | error e => rw [hfa] at h; cases h
        | ok b =>
            cases hrest : l.mapM f with
            | error e => rw [hfa, hrest] at h; cases h
            | ok bs =>
                rw [hfa, hrest] at h
                cases h
                exact .cons hfa (ih.mp hrest)
      · intro h
        cases h with
        | cons hfa hrest =>
            rw [hfa, ih.mpr hrest]
            rfl

/-- A loop over `0, …, n - 1` that collects values. -/
theorem mapM_range_eq_ok_iff {f : ℕ → Except ε β} {n : ℕ} {r : List β} :
    (List.range n).mapM f = .ok r ↔
      r.length = n ∧ ∀ i (h : i < r.length), f i = .ok r[i] := by
  rw [mapM_eq_ok_iff, List.forall₂_iff_get]
  simp only [List.length_range, List.get_eq_getElem, List.getElem_range]
  constructor
  · rintro ⟨hlen, hstep⟩
    exact ⟨hlen.symm, fun i h => hstep i (hlen ▸ h) h⟩
  · rintro ⟨hlen, hstep⟩
    exact ⟨hlen.symm, fun i _ h => hstep i h⟩

theorem mapM_congr {f f' : α → Except ε β} {l : List α} (h : ∀ a ∈ l, f a = f' a) :
    l.mapM f = l.mapM f' := by
  induction l with
  | nil => rfl
  | cons a l ih =>
      rw [List.mapM_cons, List.mapM_cons, h a List.mem_cons_self,
        ih fun a ha => h a (List.mem_cons_of_mem _ ha)]

/-- A loop over what is found, as a loop over what is looked for. -/
theorem mapM_filterMap {γ : Type} {find : α → Option β} {f : β → Except ε γ}
    {search : α → Except ε (Option γ)}
    (hsome : ∀ a b, find a = some b → search a = f b >>= fun c => .ok (some c))
    (hnone : ∀ a, find a = none → search a = .ok none) (l : List α) :
    (l.filterMap find).mapM f = l.mapM search >>= fun cs => .ok cs.reduceOption := by
  induction l with
  | nil => rfl
  | cons a l ih =>
      rw [List.mapM_cons]
      cases hfind : find a with
      | none =>
          rw [List.filterMap_cons_none hfind, ih, hnone a hfind]
          cases l.mapM search <;> rfl
      | some b =>
          rw [List.filterMap_cons_some hfind, List.mapM_cons, ih, hsome a b hfind]
          cases f b with
          | error e => rfl
          | ok c => cases l.mapM search <;> rfl

/-- A loop that keeps something of every element. -/
theorem filterMapM_eq_ok {f : α → Except ε (Option β)} {g : α → β} {l : List α}
    (h : ∀ a ∈ l, f a = .ok (some (g a))) : l.filterMapM f = .ok (l.map g) := by
  induction l with
  | nil => rfl
  | cons a l ih =>
      rw [List.forall_mem_cons] at h
      rw [List.filterMapM_cons, h.1, ih h.2]
      rfl

/-- Loops whose bodies agree on the elements of the list agree. -/
theorem foldlM_congr {f f' : β → α → Except ε β} {l : List α} {init : β}
    (h : ∀ b, ∀ a ∈ l, f b a = f' b a) : l.foldlM f init = l.foldlM f' init := by
  induction l generalizing init with
  | nil => rfl
  | cons a l ih =>
      rw [List.foldlM_cons, List.foldlM_cons, h init a List.mem_cons_self]
      congr 1
      funext b
      exact ih fun b a ha => h b a (List.mem_cons_of_mem _ ha)

/-- What one element of a loop establishes and the others keep, holds at its end. -/
theorem foldlM_establishes {f : β → α → Except ε β} {I : β → Prop} {a : α} {l : List α}
    {init last : β} (hmake : ∀ b b', f b a = .ok b' → I b')
    (hkeep : ∀ a' b b', a' ≠ a → f b a' = .ok b' → I b → I b') (hmem : a ∈ l ∨ I init)
    (hrun : l.foldlM f init = .ok last) : I last := by
  induction l generalizing init with
  | nil =>
      cases hrun
      exact hmem.resolve_left List.not_mem_nil
  | cons a' l ih =>
      rw [List.foldlM_cons] at hrun
      cases hnext : f init a' with
      | error e =>
          rw [hnext] at hrun
          cases hrun
      | ok b =>
          rw [hnext] at hrun
          refine ih ?_ hrun
          by_cases ha : a' = a
          · subst ha
            exact Or.inr (hmake _ _ hnext)
          · refine hmem.imp (fun hin => ?_) (hkeep a' _ _ ha hnext)
            exact (List.mem_cons.mp hin).resolve_left (Ne.symm ha)

/-- A loop without results goes through when every step does. -/
theorem forM_eq_ok_iff {f : α → Except ε Unit} {l : List α} :
    l.forM f = .ok () ↔ ∀ a ∈ l, f a = .ok () := by
  induction l with
  | nil => exact ⟨fun _ => nofun, fun _ => rfl⟩
  | cons a l ih =>
      rw [List.forall_mem_cons, ← ih]
      show (f a >>= fun _ => l.forM f) = _ ↔ _
      cases f a with
      | error e => exact ⟨nofun, nofun⟩
      | ok u => exact ⟨fun h => ⟨rfl, h⟩, fun h => h.2⟩

/-! ## What a program returns and how it fails -/

variable {E : ε → Prop} {Q Q' : α → Prop} {R : β → Prop} {x : Except ε α}

/-- `x` returns something that satisfies `Q`, or fails with an error that satisfies `E`. -/
def Good (E : ε → Prop) (Q : α → Prop) : Except ε α → Prop
  | .ok a => Q a
  | .error e => E e

theorem Good.ok {a : α} (h : Good E Q x) (hx : x = .ok a) : Q a := by
  subst hx
  exact h

theorem Good.error {e : ε} (h : Good E Q x) (hx : x = .error e) : E e := by
  subst hx
  exact h

theorem Good.mono (h : Good E Q x) (hQ : ∀ a, Q a → Q' a) : Good E Q' x := by
  cases x with
  | ok a => exact hQ a h
  | error e => exact h

/-- Two specifications of one computation. -/
theorem Good.and (h : Good E Q x) (h' : Good E Q' x) : Good E (fun a => Q a ∧ Q' a) x := by
  cases x with
  | ok a => exact ⟨h, h'⟩
  | error e => exact h

/-- What a program returns, with the program that returned it. -/
theorem Good.with_eq (h : Good E Q x) : Good E (fun a => Q a ∧ x = .ok a) x := by
  cases x with
  | ok a => exact ⟨h, rfl⟩
  | error e => exact h

theorem Good.bind {f : α → Except ε β} (h : Good E Q x) (hf : ∀ a, Q a → Good E R (f a)) :
    Good E R (x >>= f) := by
  cases x with
  | ok a => exact hf a h
  | error e => exact h

theorem good_ite {c : Prop} [Decidable c] {y : Except ε α} (hx : c → Good E Q x)
    (hy : ¬ c → Good E Q y) : Good E Q (if c then x else y) := by
  split
  · exact hx ‹c›
  · exact hy ‹¬ c›

theorem good_foldlM {f : β → α → Except ε β} {I : β → Prop} {init : β} (l : List α)
    (hinit : I init) (hstep : ∀ b, ∀ a ∈ l, I b → Good E I (f b a)) :
    Good E I (l.foldlM f init) := by
  induction l generalizing init with
  | nil => exact hinit
  | cons a l ih =>
      rw [List.foldlM_cons]
      refine (hstep init a List.mem_cons_self hinit).bind fun b hb => ?_
      exact ih hb fun b' a' ha' => hstep b' a' (List.mem_cons_of_mem _ ha')

theorem good_mapM {f : α → Except ε β} (l : List α) (hf : ∀ a ∈ l, Good E R (f a)) :
    Good E (fun r => ∀ b ∈ r, R b) (l.mapM f) := by
  induction l with
  | nil =>
      rw [List.mapM_nil]
      exact nofun
  | cons a l ih =>
      rw [List.forall_mem_cons] at hf
      rw [List.mapM_cons]
      refine hf.1.bind fun b hb => (ih hf.2).bind fun bs hbs => ?_
      exact List.forall_mem_cons.mpr ⟨hb, hbs⟩

theorem good_anyM {f : α → Except ε Bool} (l : List α)
    (hf : ∀ a ∈ l, Good E (fun _ => True) (f a)) : Good E (fun _ => True) (l.anyM f) := by
  induction l with
  | nil => trivial
  | cons a l ih =>
      rw [List.forall_mem_cons] at hf
      unfold List.anyM
      refine hf.1.bind fun b _ => ?_
      cases b with
      | true => trivial
      | false => exact ih hf.2

end Except

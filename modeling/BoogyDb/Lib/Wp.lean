import Mathlib.Logic.Basic

/-!
# Weakest preconditions of state programs that can fail

`wp x Q E s` says how `x` ends when it is run from `s`: with a value and a state
that satisfy `Q`, or with a fault and a state that satisfy `E`.  The state a
failing run leaves behind is part of the statement.

A program is verified from its last step backwards: `wp_bind` splits it, the
lemmas about its primitives resolve the parts, and `wp.mono` weakens what is
left.
-/

namespace Wp

variable {ε σ α β : Type}

/-- `x` run from `s` ends in a value with `Q` or in a fault with `E`. -/
def wp (x : EStateM ε σ α) (Q : α → σ → Prop) (E : ε → σ → Prop) (s : σ) : Prop :=
  match x s with
  | .ok a s' => Q a s'
  | .error e s' => E e s'

section

variable {x : EStateM ε σ α} {f : α → EStateM ε σ β} {Q Q' : α → σ → Prop} {R : β → σ → Prop}
  {E E' : ε → σ → Prop} {s s' : σ} {a : α} {e : ε}

theorem wp_of_ok (h : x s = .ok a s') : wp x Q E s ↔ Q a s' := by
  rw [wp, h]

theorem wp_of_error (h : x s = .error e s') : wp x Q E s ↔ E e s' := by
  rw [wp, h]

/-- What a specification says of a run that returned. -/
theorem wp.ok (h : wp x Q E s) (hx : x s = .ok a s') : Q a s' := (wp_of_ok hx).mp h

theorem wp.error (h : wp x Q E s) (hx : x s = .error e s') : E e s' := (wp_of_error hx).mp h

theorem wp.mono (h : wp x Q E s) (hQ : ∀ a s', Q a s' → Q' a s') (hE : ∀ e s', E e s' → E' e s') :
    wp x Q' E' s := by
  rw [wp] at h ⊢
  cases hx : x s with
  | ok a s' =>
      rw [hx] at h
      exact hQ a s' h
  | error e s' =>
      rw [hx] at h
      exact hE e s' h

theorem wp.post (h : wp x Q E s) (hQ : ∀ a s', Q a s' → Q' a s') : wp x Q' E s :=
  h.mono hQ fun _ _ => id

/-- Two specifications of one run. -/
theorem wp.and {Q' : α → σ → Prop} {E' : ε → σ → Prop} (h : wp x Q E s) (h' : wp x Q' E' s) :
    wp x (fun a s' => Q a s' ∧ Q' a s') (fun e s' => E e s' ∧ E' e s') s := by
  rw [wp] at h h' ⊢
  cases hx : x s with
  | ok a s' =>
      rw [hx] at h h'
      exact ⟨h, h'⟩
  | error e s' =>
      rw [hx] at h h'
      exact ⟨h, h'⟩

/-- A run that cannot fail returns. -/
theorem wp.exists_ok (h : wp x Q (fun _ _ => False) s) : ∃ a s', x s = .ok a s' ∧ Q a s' := by
  cases hx : x s with
  | ok a s' => exact ⟨a, s', rfl, h.ok hx⟩
  | error e s' => exact (h.error hx).elim

/-- A run that cannot return fails. -/
theorem wp.fails (h : wp x Q E s) (hno : ∀ a s', x s = .ok a s' → False) :
    wp x (fun _ _ => False) E s := by
  cases hx : x s with
  | ok a s' => exact (hno a s' hx).elim
  | error e s' => exact (wp_of_error hx).mpr (h.error hx)

theorem wp_pure : wp (pure a) Q E s ↔ Q a s := Iff.rfl

theorem wp_bind : wp (x >>= f) R E s ↔ wp x (fun a => wp (f a) R E) E s := by
  show (match EStateM.bind x f s with | .ok b s' => R b s' | .error e s' => E e s') ↔ _
  rw [EStateM.bind, wp]
  cases x s with
  | ok a s' => rfl
  | error e s' => rfl

/-- The run of a composition, by the run of its first part. -/
theorem run_bind_ok (h : x s = .ok a s') : (x >>= f) s = f a s' := by
  show EStateM.bind x f s = _
  rw [EStateM.bind, h]

theorem run_bind_error (h : x s = .error e s') : (x >>= f) s = .error e s' := by
  show EStateM.bind x f s = _
  rw [EStateM.bind, h]

/-- Two programs that do the same from a state. -/
theorem bind_congr_at {x' : EStateM ε σ α} {f' : α → EStateM ε σ β} (hx : x s = x' s)
    (hf : ∀ a s', x' s = .ok a s' → f a s' = f' a s') : (x >>= f) s = (x' >>= f') s := by
  show EStateM.bind x f s = EStateM.bind x' f' s
  rw [EStateM.bind, EStateM.bind, hx]
  cases hrun : x' s with
  | ok a s' => exact hf a s' hrun
  | error e s' => rfl

theorem wp_get_bind {f : σ → EStateM ε σ β} : wp (get >>= f) R E s ↔ wp (f s) R E s := Iff.rfl

/-- A first step by its specification, the rest from what it establishes. -/
theorem wp.bind (hx : wp x Q E s) (hf : ∀ a s', Q a s' → wp (f a) R E s') :
    wp (x >>= f) R E s :=
  wp_bind.mpr (hx.post hf)

theorem wp_ite {c : Prop} [Decidable c] {y : EStateM ε σ α} (ht : c → wp x Q E s)
    (he : ¬ c → wp y Q E s) : wp (if c then x else y) Q E s := by
  by_cases hc : c
  · rw [if_pos hc]
    exact ht hc
  · rw [if_neg hc]
    exact he hc

end

/-! ## Runs that return

`wlp` says what holds if a run returns, and nothing of one that fails. -/

/-- If `x` run from `s` returns, then with `Q`. -/
abbrev wlp (x : EStateM ε σ α) (Q : α → σ → Prop) (s : σ) : Prop := wp x Q (fun _ _ => True) s

section

variable {x : EStateM ε σ α} {f : α → EStateM ε σ β} {Q Q' : α → σ → Prop} {R : β → σ → Prop}
  {s : σ} {e : ε}

theorem wlp_iff : wlp x Q s ↔ ∀ a s', x s = .ok a s' → Q a s' := by
  constructor
  · intro h a s' hx
    exact h.ok hx
  · intro h
    show wp x Q _ s
    rw [wp]
    cases hx : x s with
    | ok a s' => exact h a s' hx
    | error e s' => trivial

theorem wlp_of_wp {E : ε → σ → Prop} (h : wp x Q E s) : wlp x Q s :=
  h.mono (fun _ _ => id) fun _ _ _ => trivial

theorem wlp_true : wlp x (fun _ _ => True) s := wlp_iff.mpr fun _ _ _ => trivial

theorem wlp_throw : wlp (throw e : EStateM ε σ α) Q s := trivial

theorem wlp_get_bind {f : σ → EStateM ε σ β} : wlp (get >>= f) R s ↔ wlp (f s) R s := Iff.rfl

theorem wlp_modify_bind {g : σ → σ} {f : PUnit → EStateM ε σ β} :
    wlp (modify g >>= f) R s ↔ wlp (f ⟨⟩) R (g s) := Iff.rfl

theorem wlp_ite {c : Prop} [Decidable c] {y : EStateM ε σ α} (ht : c → wlp x Q s)
    (he : ¬ c → wlp y Q s) : wlp (if c then x else y) Q s := wp_ite ht he

/-- A loop keeps what each of its steps keeps. -/
theorem wlp_forM {γ : Type} {g : γ → EStateM ε σ PUnit} {I : σ → Prop} (l : List γ)
    (h : ∀ a ∈ l, ∀ s, I s → wlp (g a) (fun _ => I) s) (hs : I s) :
    wlp (l.forM g) (fun _ => I) s := by
  induction l generalizing s with
  | nil => exact hs
  | cons a l ih =>
      refine wp.bind (h a List.mem_cons_self s hs) fun _ s' hs' => ?_
      exact ih (fun b hb => h b (List.mem_cons_of_mem _ hb)) hs'

end

/-! ## Runs that stay within a relation

A program is `Within R` when every run of it, also one that fails, ends in a state that is
`R`-related to the one it started from.  Where a failing run may leave more behind, and how
much depends on its fault, the program is `WithinOr R F`. -/

/-- Every run of `x` that returns ends `R`-related to where it started, and one that fails
`F`-related by its fault. -/
def WithinOr (R : σ → σ → Prop) (F : σ → ε → σ → Prop) (x : EStateM ε σ α) : Prop :=
  ∀ s, wp x (fun _ => R s) (F s) s

/-- Every run of `x` ends `R`-related to where it started. -/
abbrev Within (R : σ → σ → Prop) (x : EStateM ε σ α) : Prop := WithinOr R (fun s _ => R s) x

section

variable {R : σ → σ → Prop} {F : σ → ε → σ → Prop} {x y : EStateM ε σ α} {f : α → EStateM ε σ β}
  {s s' : σ} {a : α} {e : ε}

theorem WithinOr.ok (h : WithinOr R F x) (hx : x s = .ok a s') : R s s' := (wp_of_ok hx).mp (h s)

theorem WithinOr.error (h : WithinOr R F x) (hx : x s = .error e s') : F s e s' :=
  (wp_of_error hx).mp (h s)

theorem WithinOr.ite {c : Prop} [Decidable c] (hx : WithinOr R F x) (hy : WithinOr R F y) :
    WithinOr R F (if c then x else y) := fun s => wp_ite (fun _ => hx s) fun _ => hy s

theorem within_pure (hrefl : ∀ s, R s s) (a : α) : WithinOr R F (pure a) := hrefl

theorem withinOr_throw (hrefl : ∀ s e, F s e s) (e : ε) :
    WithinOr R F (throw e : EStateM ε σ α) := fun s => hrefl s e

theorem within_throw (hrefl : ∀ s, R s s) (e : ε) : Within R (throw e : EStateM ε σ α) := hrefl

theorem within_get (hrefl : ∀ s, R s s) : WithinOr R F (get : EStateM ε σ σ) := hrefl

theorem withinOr_bind (htrans : ∀ {a b c}, R a b → R b c → R a c)
    (hfail : ∀ {a b e c}, R a b → F b e c → F a e c) (hx : WithinOr R F x)
    (hf : ∀ a, WithinOr R F (f a)) : WithinOr R F (x >>= f) := by
  intro s
  refine wp_bind.mpr ((hx s).mono (fun a s₁ h₁ => ?_) fun _ _ => id)
  exact (hf a s₁).mono (fun _ _ => htrans h₁) fun _ _ => hfail h₁

theorem within_bind (htrans : ∀ {a b c}, R a b → R b c → R a c) (hx : Within R x)
    (hf : ∀ a, Within R (f a)) : Within R (x >>= f) := withinOr_bind htrans htrans hx hf

section

variable {γ : Type} (hrefl : ∀ s, R s s) (htrans : ∀ {a b c}, R a b → R b c → R a c)
  (hfail : ∀ {a b e c}, R a b → F b e c → F a e c)

include hrefl htrans hfail

theorem withinOr_forM {g : γ → EStateM ε σ PUnit} (l : List γ) (hg : ∀ a, WithinOr R F (g a)) :
    WithinOr R F (l.forM g) := by
  induction l with
  | nil => exact within_pure hrefl _
  | cons a l ih => exact withinOr_bind htrans hfail (hg a) fun _ => ih

theorem withinOr_mapM {g : γ → EStateM ε σ β} (l : List γ) (hg : ∀ a, WithinOr R F (g a)) :
    WithinOr R F (l.mapM g) := by
  induction l with
  | nil => exact within_pure hrefl _
  | cons a l ih =>
      rw [List.mapM_cons]
      refine withinOr_bind htrans hfail (hg a) fun _ => ?_
      exact withinOr_bind htrans hfail ih fun _ => within_pure hrefl _

theorem withinOr_filterMapM {g : γ → EStateM ε σ (Option β)} (l : List γ)
    (hg : ∀ a, WithinOr R F (g a)) : WithinOr R F (l.filterMapM g) := by
  induction l with
  | nil => exact within_pure hrefl _
  | cons a l ih =>
      rw [List.filterMapM_cons]
      refine withinOr_bind htrans hfail (hg a) fun b => ?_
      cases b with
      | none => exact ih
      | some b => exact withinOr_bind htrans hfail ih fun _ => within_pure hrefl _

end

section

variable {γ : Type} (hrefl : ∀ s, R s s) (htrans : ∀ {a b c}, R a b → R b c → R a c)

include hrefl htrans

theorem within_forM {g : γ → EStateM ε σ PUnit} (l : List γ) (hg : ∀ a, Within R (g a)) :
    Within R (l.forM g) := withinOr_forM (F := fun s _ => R s) hrefl htrans htrans l hg

theorem within_mapM {g : γ → EStateM ε σ β} (l : List γ) (hg : ∀ a, Within R (g a)) :
    Within R (l.mapM g) := withinOr_mapM (F := fun s _ => R s) hrefl htrans htrans l hg

theorem within_filterMapM {g : γ → EStateM ε σ (Option β)} (l : List γ)
    (hg : ∀ a, Within R (g a)) : Within R (l.filterMapM g) :=
  withinOr_filterMapM (F := fun s _ => R s) hrefl htrans htrans l hg

end

end

/-! ## Runs that cannot tell states apart

A program respects `R` when runs of it from `R`-related states give the same answer and end
in `R`-related states. -/

/-- Two ends of runs: the same answer, and states that are `R`-related. -/
inductive EndsAlike (R : σ → σ → Prop) : EStateM.Result ε σ α → EStateM.Result ε σ α → Prop
  | ok {a : α} {s s' : σ} (h : R s s') : EndsAlike R (.ok a s) (.ok a s')
  | error {e : ε} {s s' : σ} (h : R s s') : EndsAlike R (.error e s) (.error e s')

/-- `x` cannot tell `R`-related states apart. -/
def Respects (R : σ → σ → Prop) (x : EStateM ε σ α) : Prop :=
  ∀ s s', R s s' → EndsAlike R (x s) (x s')

namespace Respects

variable {R : σ → σ → Prop} {x y : EStateM ε σ α} {f : α → EStateM ε σ β} {γ : Type}

theorem pure (a : α) : Respects R (pure a : EStateM ε σ α) := fun _ _ h => .ok h

theorem throw (e : ε) : Respects R (throw e : EStateM ε σ α) := fun _ _ h => .error h

theorem bind (hx : Respects R x) (hf : ∀ a, Respects R (f a)) : Respects R (x >>= f) := by
  intro s s' h
  have hends := hx s s' h
  show EndsAlike R (EStateM.bind x f s) (EStateM.bind x f s')
  unfold EStateM.bind
  generalize x s = r at hends ⊢
  generalize x s' = r' at hends ⊢
  cases hends with
  | ok hrel => exact hf _ _ _ hrel
  | error hrel => exact .error hrel

theorem ite {c : Prop} [Decidable c] (hx : Respects R x) (hy : Respects R y) :
    Respects R (if c then x else y) := by
  split
  · exact hx
  · exact hy

/-- A program that reads its state uses of it only what related states share. -/
theorem get_bind {f : σ → EStateM ε σ β} (hsame : ∀ s s', R s s' → f s' = f s)
    (hf : ∀ s, Respects R (f s)) : Respects R (get >>= f) := by
  intro s s' h
  show EndsAlike R (f s s) (f s' s')
  rw [hsame s s' h]
  exact hf s s s' h

theorem modify {g : σ → σ} (hg : ∀ s s', R s s' → R (g s) (g s')) :
    Respects R (modify g : EStateM ε σ PUnit) := fun s s' h => .ok (hg s s' h)

theorem forM {g : γ → EStateM ε σ PUnit} (l : List γ) (hg : ∀ a, Respects R (g a)) :
    Respects R (l.forM g) := by
  induction l with
  | nil => exact pure _
  | cons a l ih => exact (hg a).bind fun _ => ih

theorem mapM {g : γ → EStateM ε σ β} (l : List γ) (hg : ∀ a, Respects R (g a)) :
    Respects R (l.mapM g) := by
  induction l with
  | nil => exact pure _
  | cons a l ih =>
      rw [List.mapM_cons]
      exact (hg a).bind fun _ => ih.bind fun _ => pure _

theorem filterMapM {g : γ → EStateM ε σ (Option β)} (l : List γ) (hg : ∀ a, Respects R (g a)) :
    Respects R (l.filterMapM g) := by
  induction l with
  | nil => exact pure _
  | cons a l ih =>
      rw [List.filterMapM_cons]
      refine (hg a).bind fun b => ?_
      cases b with
      | none => exact ih
      | some b => exact ih.bind fun _ => pure _

end Respects

/-! ## Programs that return less -/

/-- What `x` returns, `y` returns, from the same state. -/
def Below (x y : EStateM ε σ α) : Prop := ∀ s a s', x s = .ok a s' → y s = .ok a s'

namespace Below

variable {x x' y y' : EStateM ε σ α} {f f' : α → EStateM ε σ β} {γ : Type}

theorem refl (x : EStateM ε σ α) : Below x x := fun _ _ _ => id

theorem bind (hx : Below x x') (hf : ∀ a, Below (f a) (f' a)) : Below (x >>= f) (x' >>= f') := by
  intro s b s' hrun
  cases h : x s with
  | ok a s₁ =>
      rw [run_bind_ok h] at hrun
      rw [run_bind_ok (hx s a s₁ h)]
      exact hf a s₁ b s' hrun
  | error e s₁ =>
      rw [run_bind_error h] at hrun
      cases hrun

theorem ite {c : Prop} [Decidable c] (hx : Below x x') (hy : Below y y') :
    Below (if c then x else y) (if c then x' else y') := by
  split
  · exact hx
  · exact hy

theorem mapM {g g' : γ → EStateM ε σ β} (l : List γ) (hg : ∀ a, Below (g a) (g' a)) :
    Below (l.mapM g) (l.mapM g') := by
  induction l with
  | nil => exact refl _
  | cons a l ih =>
      rw [List.mapM_cons, List.mapM_cons]
      exact (hg a).bind fun _ => ih.bind fun _ => refl _

end Below

end Wp

import BoogyDb.Lib.Wp

/-!
# Programs that refine programs on abstract states

A state is abstracted by a function.  A program `Refines` an abstract one when each of its runs
that returns is a run of the abstract program between the abstractions, with the same result.
Refinement is kept by sequencing and by loops, and two programs that refine the same abstract
program agree wherever both return (`Refines.agree`).

Where errors are answers too, a program `Follows` an abstract one: it ends with the same value or
the same error, and the states still correspond after an error.  A `History` lists calls with
their replies; the replies of calls that follow a specification are those of the specification
(`History.follows`).
-/

namespace Simulation

open Wp

variable {ε ε' σ σ' τ α β γ ι : Type}

/-- From a state with `Inv`, what `x` returns and where it ends is what `m` returns and where it
ends. -/
def Refines (Inv : σ → Prop) (abs : σ → τ) (x : EStateM ε σ α) (m : StateT τ (Except ε') α) : Prop :=
  ∀ s, Inv s → wlp x (fun a s' => Inv s' ∧ m (abs s) = .ok (a, abs s')) s

variable {Inv : σ → Prop} {abs : σ → τ} {x : EStateM ε σ α} {m : StateT τ (Except ε') α}

theorem Refines.pure (a : α) :
    Refines Inv abs (pure a : EStateM ε σ α) (pure a : StateT τ (Except ε') α) := fun _ hs =>
  ⟨hs, rfl⟩

theorem Refines.bind {f : α → EStateM ε σ β} {f' : α → StateT τ (Except ε') β}
    (hx : Refines Inv abs x m) (hf : ∀ a, Refines Inv abs (f a) (f' a)) :
    Refines Inv abs (x >>= f) (m >>= f') := by
  intro s hs
  refine wp.bind (hx s hs) fun a s' h => ?_
  obtain ⟨hs', hm⟩ := h
  refine (hf a s' hs').post fun b s'' h' => ?_
  obtain ⟨hs'', hm'⟩ := h'
  refine ⟨hs'', ?_⟩
  show (m (abs s) >>= fun r => f' r.1 r.2) = _
  rw [hm]
  exact hm'

/-- The same function of what both return. -/
theorem Refines.map {f : α → β} (hx : Refines Inv abs x m) :
    Refines Inv abs (x >>= fun a => Pure.pure (f a)) (m >>= fun a => Pure.pure (f a)) :=
  hx.bind fun a => Refines.pure (f a)

theorem Refines.mapM {g : γ → EStateM ε σ β} {g' : γ → StateT τ (Except ε') β} (l : List γ)
    (hg : ∀ a, Refines Inv abs (g a) (g' a)) : Refines Inv abs (l.mapM g) (l.mapM g') := by
  induction l with
  | nil => exact Refines.pure []
  | cons a l ih =>
      rw [List.mapM_cons, List.mapM_cons]
      exact (hg a).bind fun b => ih.bind fun bs => Refines.pure (b :: bs)

/-- **Two refinements of one program agree**: they return the same, and leave the same. -/
theorem Refines.agree {Inv' : σ' → Prop} {abs' : σ' → τ} {y : EStateM ε σ' α} {s t : σ}
    {s' t' : σ'} {a b : α} (hx : Refines Inv abs x m) (hy : Refines Inv' abs' y m) (hs : Inv s)
    (hs' : Inv' s') (hsame : abs s = abs' s') (h : x s = .ok a t) (h' : y s' = .ok b t') :
    a = b ∧ abs t = abs' t' := by
  have hm := ((hx s hs).ok h).2
  have hm' := ((hy s' hs').ok h').2
  rw [hsame, hm'] at hm
  obtain ⟨rfl, ht⟩ := Prod.mk.inj (Except.ok.inj hm)
  exact ⟨rfl, ht.symm⟩

/-! ## Errors as answers -/

/-- From a state with `Inv`, what `x` ends with is what `m` ends with.  An error is followed as far
as it is `seen`: a fault that is not seen ends the program. -/
def Follows (Inv : σ → Prop) (abs : σ → τ) (seen : ε → Option ε') (x : EStateM ε σ α)
    (m : EStateM ε' τ α) : Prop :=
  ∀ s, Inv s → wp x (fun a s' => Inv s' ∧ m (abs s) = .ok a (abs s'))
    (fun e s' => ∀ e', seen e = some e' → Inv s' ∧ m (abs s) = .error e' (abs s')) s

section

variable {seen : ε → Option ε'} {x : EStateM ε σ α} {m : EStateM ε' τ α}

theorem Follows.pure (a : α) :
    Follows Inv abs seen (pure a : EStateM ε σ α) (pure a : EStateM ε' τ α) := fun _ hs => ⟨hs, rfl⟩

theorem Follows.bind {f : α → EStateM ε σ β} {f' : α → EStateM ε' τ β}
    (hx : Follows Inv abs seen x m) (hf : ∀ a, Follows Inv abs seen (f a) (f' a)) :
    Follows Inv abs seen (x >>= f) (m >>= f') := by
  intro s hs
  refine wp_bind.mpr ((hx s hs).mono (fun a s' h => ?_) fun e s' h e' he' => ?_)
  · obtain ⟨hs', hm⟩ := h
    refine (hf a s' hs').mono (fun b s'' h' => ?_) fun e s'' h' e' he' => ?_
    · exact ⟨h'.1, (run_bind_ok hm).trans h'.2⟩
    · exact ⟨(h' e' he').1, (run_bind_ok hm).trans (h' e' he').2⟩
  · exact ⟨(h e' he').1, run_bind_error (h e' he').2⟩

/-- What a call replies to its caller, and the state it leaves. -/
def reply (seen : ε → Option ε') : EStateM.Result ε σ α → Option (Except ε' α × σ)
  | .ok a s => some (.ok a, s)
  | .error e s => (seen e).map fun e' => (.error e', s)

/-- A call that replies does so as the program that it follows. -/
theorem Follows.reply {s s' : σ} {r : Except ε' α} (h : Follows Inv abs seen x m) (hs : Inv s)
    (hreply : reply seen (x s) = some (r, s')) :
    Inv s' ∧ Simulation.reply some (m (abs s)) = some (r, abs s') := by
  cases hx : x s with
  | ok a t =>
      rw [hx] at hreply
      cases hreply
      obtain ⟨hs', hm⟩ := (h s hs).ok hx
      rw [hm]
      exact ⟨hs', rfl⟩
  | error e t =>
      rw [hx] at hreply
      obtain ⟨e', he', heq⟩ := Option.map_eq_some_iff.mp hreply
      cases heq
      obtain ⟨hs', hm⟩ := (h s hs).error hx e' he'
      rw [hm]
      exact ⟨hs', rfl⟩

end

/-- Calls with their replies, one after the other. -/
inductive History (call : ι → EStateM ε σ α) (seen : ε → Option ε') (s₀ : σ) :
    List (ι × Except ε' α) → σ → Prop
  | start : History call seen s₀ [] s₀
  | step {calls : List (ι × Except ε' α)} {s s' : σ} {op : ι} {r : Except ε' α}
      (h : History call seen s₀ calls s) (hreply : reply seen (call op s) = some (r, s')) :
      History call seen s₀ (calls ++ [(op, r)]) s'

/-- Make calls, one after the other. -/
def replies (call : ι → EStateM ε σ α) (seen : ε → Option ε') :
    List ι → σ → Option (List (Except ε' α) × σ)
  | [], s => some ([], s)
  | op :: ops, s =>
      match reply seen (call op s) with
      | none => none
      | some (r, s') => (replies call seen ops s').map fun rest => (r :: rest.1, rest.2)

theorem History.of_replies {call : ι → EStateM ε σ α} {seen : ε → Option ε'}
    {calls : List (ι × Except ε' α)} {more : List (Except ε' α)} {s₀ s t : σ} {ops : List ι}
    (h : History call seen s₀ calls s) (hrun : replies call seen ops s = some (more, t)) :
    History call seen s₀ (calls ++ ops.zip more) t := by
  induction ops generalizing calls more s with
  | nil =>
      cases hrun
      rwa [List.zip_nil_left, List.append_nil]
  | cons op ops ih =>
      rw [replies] at hrun
      cases hreply : reply seen (call op s) with
      | none =>
          rw [hreply] at hrun
          cases hrun
      | some r =>
          obtain ⟨r, s'⟩ := r
          rw [hreply] at hrun
          obtain ⟨⟨rest, t'⟩, hrest, heq⟩ := Option.map_eq_some_iff.mp hrun
          cases heq
          have hall := ih (h.step hreply) hrest
          rwa [List.append_assoc] at hall

/-- The history of a specification of the calls is that of the calls. -/
theorem History.follows {call : ι → EStateM ε σ α} {spec : ι → EStateM ε' τ α}
    {seen : ε → Option ε'} {calls : List (ι × Except ε' α)} {s₀ s : σ}
    (h : History call seen s₀ calls s) (hcall : ∀ op, Follows Inv abs seen (call op) (spec op))
    (hs₀ : Inv s₀) : Inv s ∧ History spec some (abs s₀) calls (abs s) := by
  induction h with
  | start => exact ⟨hs₀, .start⟩
  | step _ hreply ih =>
      obtain ⟨hs', hm⟩ := (hcall _).reply ih.1 hreply
      exact ⟨hs', ih.2.step hm⟩

end Simulation

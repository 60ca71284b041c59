import Mathlib.Data.List.Basic
import Mathlib.Tactic.Push

/-!
# Loops that may fail and may stop early

`visit step` runs `step` over a list until a step fails or says to stop.  A loop
that filters by a test that can fail is compared with `List.filter`: it goes through
exactly when every test does, and then `passes` is the predicate it filters by.
-/

namespace StopLoop

variable {ε α β : Type}

/-- The steps also say whether to stop. -/
def visit (step : α → β → Except ε (α × Bool)) : List β → α → Except ε (α × Bool)
  | [], acc => .ok (acc, false)
  | b :: bs, acc => do
      let (acc, done) ← step acc b
      if done then pure (acc, true) else visit step bs acc

/-- The answer of a test that went through. -/
def passes : Except ε Bool → Bool
  | .ok b => b
  | .error _ => false

section

variable {step step' : α → β → Except ε (α × Bool)} {bs bs' : List β} {acc acc' : α} {b : β}
  {done : Bool}

theorem visit_cons_of_stop (h : step acc b = .ok (acc', true)) :
    visit step (b :: bs) acc = .ok (acc', true) := by
  rw [visit, h]
  rfl

theorem visit_cons_of_go (h : step acc b = .ok (acc', false)) :
    visit step (b :: bs) acc = visit step bs acc' := by
  rw [visit, h]
  rfl

theorem visit_cons_of_error {e : ε} (h : step acc b = .error e) :
    visit step (b :: bs) acc = .error e := by
  rw [visit, h]
  rfl

theorem visit_append (step : α → β → Except ε (α × Bool)) (bs bs' : List β) (acc : α) :
    visit step (bs ++ bs') acc = (visit step bs acc >>= fun r =>
      if r.2 then .ok r else visit step bs' r.1) := by
  induction bs generalizing acc with
  | nil => rfl
  | cons b bs ih =>
      rw [List.cons_append]
      cases hstep : step acc b with
      | error e => rw [visit_cons_of_error hstep, visit_cons_of_error hstep]; rfl
      | ok r =>
          obtain ⟨acc', done⟩ := r
          cases done with
          | true => rw [visit_cons_of_stop hstep, visit_cons_of_stop hstep]; rfl
          | false => rw [visit_cons_of_go hstep, visit_cons_of_go hstep, ih]

theorem visit_congr (h : ∀ acc, ∀ b ∈ bs, step acc b = step' acc b) :
    visit step bs acc = visit step' bs acc := by
  induction bs generalizing acc with
  | nil => rfl
  | cons b bs ih =>
      rw [visit, visit, h acc b List.mem_cons_self]
      congr 1
      funext ⟨acc', done⟩
      dsimp only
      rw [ih fun acc b hb => h acc b (List.mem_cons_of_mem _ hb)]

/-- What a loop over images does, does the loop that takes the images itself. -/
theorem visit_map {γ : Type} (f : γ → β) (cs : List γ) :
    visit step (cs.map f) acc = visit (fun acc c => step acc (f c)) cs acc := by
  induction cs generalizing acc with
  | nil => rfl
  | cons c cs ih =>
      rw [List.map_cons, visit, visit]
      congr 1
      funext ⟨acc', done⟩
      dsimp only
      rw [ih]

/-- Items that a step passes by need not be there. -/
theorem visit_filter (p : β → Bool) (bs : List β) (acc : α) :
    visit (fun acc b => if p b then step acc b else .ok (acc, false)) bs acc =
      visit step (bs.filter p) acc := by
  induction bs generalizing acc with
  | nil => rfl
  | cons b bs ih =>
      rw [List.filter_cons, visit]
      cases hp : p b with
      | false => exact ih acc
      | true =>
          simp only [if_pos]
          rw [visit]
          congr 1
          funext ⟨acc', done⟩
          dsimp only
          rw [ih]

/-- A state in which every step stops is the last one. -/
theorem visit_of_stops (h : ∀ b ∈ bs, step acc b = .ok (acc, true)) :
    ∃ done, visit step bs acc = .ok (acc, done) := by
  cases bs with
  | nil => exact ⟨false, rfl⟩
  | cons b bs => exact ⟨true, visit_cons_of_stop (h b List.mem_cons_self)⟩

/-- A loop that never stops is a fold. -/
theorem visit_eq_foldl {push : α → β → α} (h : ∀ acc, ∀ b ∈ bs, step acc b = .ok (push acc b, false)) :
    visit step bs acc = .ok (bs.foldl push acc, false) := by
  induction bs generalizing acc with
  | nil => rfl
  | cons b bs ih =>
      rw [visit_cons_of_go (h acc b List.mem_cons_self), List.foldl_cons,
        ih fun acc b hb => h acc b (List.mem_cons_of_mem _ hb)]

/-- A step that fails whatever was collected makes a loop fail that cannot stop. -/
theorem visit_not_ok (hgo : ∀ acc acc' done, ∀ b ∈ bs, step acc b = .ok (acc', done) → done = false)
    (hb : b ∈ bs) (hfail : ∀ acc r, step acc b ≠ .ok r) (r : α × Bool) :
    visit step bs acc ≠ .ok r := by
  induction bs generalizing acc with
  | nil => exact absurd hb List.not_mem_nil
  | cons c cs ih =>
      intro h
      cases hstep : step acc c with
      | error e =>
          rw [visit_cons_of_error hstep] at h
          cases h
      | ok r' =>
          obtain ⟨acc', done⟩ := r'
          obtain rfl := hgo acc acc' done c List.mem_cons_self hstep
          rw [visit_cons_of_go hstep] at h
          rcases List.mem_cons.mp hb with rfl | hb
          · exact hfail acc _ hstep
          · exact ih (fun acc acc' done b hb => hgo acc acc' done b (List.mem_cons_of_mem _ hb)) hb h

/-- A loop whose steps append the image of an item, or nothing, collects images in the order of
the items. -/
theorem visit_sublist {γ : Type} (out : α → List γ) (f : β → γ)
    (hstep : ∀ acc b acc' done, step acc b = .ok (acc', done) →
      out acc' = out acc ∨ out acc' = out acc ++ [f b])
    (h : visit step bs acc = .ok (acc', done)) :
    ∃ cs : List β, cs.Sublist bs ∧ out acc' = out acc ++ cs.map f := by
  induction bs generalizing acc with
  | nil =>
      cases h
      exact ⟨[], List.nil_sublist _, (List.append_nil _).symm⟩
  | cons b bs ih =>
      cases hrun : step acc b with
      | error e =>
          rw [visit_cons_of_error hrun] at h
          cases h
      | ok r =>
          obtain ⟨acc₁, stopped⟩ := r
          obtain ⟨cs, hcs, hout⟩ : ∃ cs : List β, cs.Sublist bs ∧ out acc' = out acc₁ ++ cs.map f := by
            cases stopped with
            | true =>
                rw [visit_cons_of_stop hrun] at h
                cases h
                exact ⟨[], List.nil_sublist _, (List.append_nil _).symm⟩
            | false =>
                rw [visit_cons_of_go hrun] at h
                exact ih h
          rcases hstep acc b acc₁ stopped hrun with hsame | hpush
          · exact ⟨cs, hcs.cons b, by rw [hout, hsame]⟩
          · refine ⟨b :: cs, hcs.cons_cons b, ?_⟩
            rw [hout, hpush, List.append_assoc]
            rfl

end

/-! ## Filtering -/

section

variable {t t' : β → Except ε Bool} {l r : List β}

theorem passes_ok {x : Except ε Bool} {b : Bool} (h : x = .ok b) : passes x = b := by
  rw [h, passes]

theorem ok_passes {x : Except ε Bool} (h : ∃ b, x = .ok b) : x = .ok (passes x) := by
  obtain ⟨b, rfl⟩ := h
  rfl

theorem filterAuxM_eq (t : β → Except ε Bool) (l acc : List β) (h : ∀ b ∈ l, ∃ r, t b = .ok r) :
    l.filterAuxM t acc = .ok ((l.filter fun b => passes (t b)).reverse ++ acc) := by
  induction l generalizing acc with
  | nil => rfl
  | cons b l ih =>
      obtain ⟨r, hr⟩ := h b List.mem_cons_self
      rw [List.filterAuxM, hr]
      show l.filterAuxM t (cond r (b :: acc) acc) = _
      rw [ih _ fun b hb => h b (List.mem_cons_of_mem _ hb), List.filter_cons, hr, passes]
      cases r with
      | true => simp
      | false => simp

/-- A filter whose tests go through. -/
theorem filterM_ok (h : ∀ b ∈ l, ∃ r, t b = .ok r) :
    l.filterM t = .ok (l.filter fun b => passes (t b)) := by
  rw [List.filterM, filterAuxM_eq t l [] h]
  show Except.ok (List.reverse _) = _
  rw [List.append_nil, List.reverse_reverse]

theorem filterAuxM_not_ok {b : β} (hb : b ∈ l) (hfail : ∀ r, t b ≠ .ok r) (acc r : List β) :
    l.filterAuxM t acc ≠ .ok r := by
  induction l generalizing acc with
  | nil => exact absurd hb List.not_mem_nil
  | cons c l ih =>
      intro h
      rw [List.filterAuxM] at h
      cases htc : t c with
      | error e =>
          rw [htc] at h
          cases h
      | ok keep =>
          rw [htc] at h
          rcases List.mem_cons.mp hb with rfl | hb
          · exact hfail _ htc
          · exact ih hb _ h

/-- **A filter goes through exactly when its tests do.** -/
theorem filterM_eq_ok_iff : l.filterM t = .ok r ↔
    (∀ b ∈ l, ∃ a, t b = .ok a) ∧ r = l.filter fun b => passes (t b) := by
  constructor
  · intro h
    have hall : ∀ b ∈ l, ∃ a, t b = .ok a := by
      intro b hb
      by_contra hnone
      push Not at hnone
      have haux : ∀ acc r, l.filterAuxM t acc ≠ .ok r := filterAuxM_not_ok hb hnone
      rw [List.filterM] at h
      cases hrun : l.filterAuxM t [] with
      | error e =>
          rw [hrun] at h
          cases h
      | ok acc => exact haux [] acc hrun
    rw [filterM_ok hall] at h
    exact ⟨hall, (Except.ok.inj h).symm⟩
  · rintro ⟨hall, rfl⟩
    exact filterM_ok hall

end

section

variable {t : β → Except ε Bool} {l : List β} {γ : Type}

/-- The step of a loop that collects the matches numbered from `skip`, at most `take`
of them, counts all, and stops at a number of matches. -/
def pageStep (t : β → Except ε Bool) (f : β → γ) (skip take : ℕ) (stop : Option ℕ)
    (acc : List γ × ℕ) (b : β) : Except ε ((List γ × ℕ) × Bool) := do
  if ← t b then
    let total := acc.2 + 1
    pure ((if skip < total ∧ total - skip ≤ take then acc.1 ++ [f b] else acc.1, total),
      stop.any (· ≤ total))
  else pure (acc, false)

theorem pageStep_pass {f : β → γ} {skip take : ℕ} {stop : Option ℕ} {acc : List γ × ℕ} {b : β}
    (h : t b = .ok true) : pageStep t f skip take stop acc b =
      .ok ((if skip < acc.2 + 1 ∧ acc.2 + 1 - skip ≤ take then acc.1 ++ [f b] else acc.1, acc.2 + 1),
        stop.any (· ≤ acc.2 + 1)) := by
  rw [pageStep, h]
  rfl

theorem pageStep_fail {f : β → γ} {skip take : ℕ} {stop : Option ℕ} {acc : List γ × ℕ} {b : β}
    (h : t b = .ok false) : pageStep t f skip take stop acc b = .ok (acc, false) := by
  rw [pageStep, h]
  rfl

/-- What is on the page from the matches still to come, when `n` have been seen. -/
theorem take_drop_cons {b : γ} {bs : List γ} {skip take n : ℕ} :
    ((b :: bs).drop (skip - n)).take (take - (n - skip)) =
      (if skip < n + 1 ∧ n + 1 - skip ≤ take then [b] else []) ++
        (bs.drop (skip - (n + 1))).take (take - (n + 1 - skip)) := by
  by_cases hskip : skip < n + 1
  · have hzero : skip - n = 0 := by omega
    have hzero' : skip - (n + 1) = 0 := by omega
    rw [hzero, hzero', List.drop_zero, List.drop_zero]
    by_cases htake : n + 1 - skip ≤ take
    · obtain ⟨k, hk⟩ : ∃ k, take - (n - skip) = k + 1 := ⟨take - (n - skip) - 1, by omega⟩
      have hk' : take - (n + 1 - skip) = k := by omega
      rw [if_pos ⟨hskip, htake⟩, hk, hk', List.take_succ_cons, List.singleton_append]
    · have hk : take - (n - skip) = 0 := by omega
      have hk' : take - (n + 1 - skip) = 0 := by omega
      rw [if_neg fun h => htake h.2, hk, hk', List.take_zero, List.take_zero, List.append_nil]
  · obtain ⟨k, hk⟩ : ∃ k, skip - n = k + 1 := ⟨skip - n - 1, by omega⟩
    have hk' : skip - (n + 1) = k := by omega
    have hnone : n - skip = 0 := by omega
    have hnone' : n + 1 - skip = 0 := by omega
    rw [if_neg fun h => hskip h.1, hk, hk', hnone, hnone', List.drop_succ_cons, List.nil_append]

/-- **A loop that collects a page**, when its tests go through: the page is the one of
all matches, and without a stop the count is theirs. -/
theorem visit_page (h : ∀ b ∈ l, ∃ r, t b = .ok r) (f : β → γ) (skip take : ℕ) (stop : Option ℕ)
    (hstop : ∀ n, stop = some n → skip + take ≤ n) (acc : List γ × ℕ) :
    ∃ total done, visit (pageStep t f skip take stop) l acc =
        .ok ((acc.1 ++ (((l.filter fun b => passes (t b)).map f).drop (skip - acc.2)).take
          (take - (acc.2 - skip)), total), done) ∧
      (stop = none → total = acc.2 + (l.filter fun b => passes (t b)).length) := by
  induction l generalizing acc with
  | nil => exact ⟨acc.2, false, by simp [visit], fun _ => by simp⟩
  | cons b l ih =>
      obtain ⟨r, hr⟩ := h b List.mem_cons_self
      have hrest : ∀ b ∈ l, ∃ r, t b = .ok r := fun b hb => h b (List.mem_cons_of_mem _ hb)
      cases r with
      | false =>
          obtain ⟨total, done, hvisit, htotal⟩ := ih hrest acc
          have hb : (passes (t b)) = false := passes_ok hr
          refine ⟨total, done, ?_, fun hnone => ?_⟩
          · rw [visit_cons_of_go (pageStep_fail hr), hvisit, List.filter_cons, hb]
            rfl
          · rw [htotal hnone, List.filter_cons, hb]
            rfl
      | true =>
          have hb : (passes (t b)) = true := passes_ok hr
          rw [List.filter_cons, hb, if_pos rfl, List.map_cons, take_drop_cons]
          cases hany : stop.any (· ≤ acc.2 + 1) with
          | true =>
              obtain ⟨n, rfl, hn⟩ := (Option.any_eq_true _ _).mp hany
              have hle := hstop n rfl
              have hn' : n ≤ acc.2 + 1 := of_decide_eq_true hn
              have hdone : take - (acc.2 + 1 - skip) = 0 := by omega
              refine ⟨acc.2 + 1, true, ?_, fun hnone => by cases hnone⟩
              rw [hdone, List.take_zero, List.append_nil]
              refine visit_cons_of_stop ?_
              rw [pageStep_pass hr, hany]
              split
              · rfl
              · rw [List.append_nil]
          | false =>
              have hstep := @pageStep_pass ε β t γ f skip take stop acc b hr
              rw [hany] at hstep
              obtain ⟨total, done, hvisit, htotal⟩ := ih hrest
                (if skip < acc.2 + 1 ∧ acc.2 + 1 - skip ≤ take then acc.1 ++ [f b] else acc.1,
                  acc.2 + 1)
              refine ⟨total, done, ?_, fun hnone => ?_⟩
              · rw [visit_cons_of_go hstep, hvisit]
                dsimp only
                split
                · rw [List.append_assoc]
                · rw [List.nil_append]
              · rw [htotal hnone, List.length_cons]
                dsimp only
                omega

end

end StopLoop

import BoogyDb.OverflowWalk
import BoogyDb.RegistryRoundTrip
import BoogyDb.RowDecoders
import Mathlib.Combinatorics.Pigeonhole
import Mathlib.Data.Finset.Prod

/-!
# Reading a registry from any pages

`deserialize_system_page` follows the chain behind page 0 until it has as many bytes as the
trailer says, and then parses the stream.  The parser checks every length before it reads
(`completes_deserializeSystemMetas`).  The walk has no bound on its turns, and does not look
at the payload length of a page, so it can

* panic on a page whose payload reaches beyond its end;
* come back to a page without a byte in between, and go round for ever.

`ChainReadable` excludes both.  A walk that goes on for more turns than there are pages
together with lengths must be at some page for the second time with the same number of bytes
(`exists_cycle`), so the model's bound cuts off only walks that never end
(`readRegistryChain_bound`).
-/

namespace BoogyDb

open Bytes Wp

/-! ## Chains of overflow pages -/

section

variable {read : ℕ → Result Page} {p q m : ℕ} {as bs payloads : List (List UInt8)}

theorem Leads.append (h : Leads read p as m) (h' : Leads read m bs q) :
    Leads read p (as ++ bs) q := by
  induction h with
  | nil p => exact h'
  | cons hp hread hpayload _ ih => exact .cons hp hread hpayload (ih h')

theorem Leads.split (h : Leads read p (as ++ bs) q) : ∃ m, Leads read p as m ∧ Leads read m bs q := by
  induction as generalizing p with
  | nil => exact ⟨p, .nil p, h⟩
  | cons payload as ih =>
      cases h with
      | cons hp hread hpayload hrest =>
          obtain ⟨m, has, hbs⟩ := ih hrest
          exact ⟨m, .cons hp hread hpayload has, hbs⟩

/-- The payloads decide where a chain leads to. -/
theorem Leads.unique (h : Leads read p as m) (h' : Leads read p as q) : m = q := by
  induction h with
  | nil p =>
      cases h'
      rfl
  | cons hp hread hpayload _ ih =>
      cases h' with
      | cons _ hread' _ hrest' =>
          obtain rfl := Except.ok.inj (hread.symm.trans hread')
          exact ih hrest'

/-- A circle can be followed any number of times. -/
theorem Leads.replicate (h : Leads read q as q) (k : ℕ) :
    Leads read q (List.replicate k as).flatten q := by
  induction k with
  | zero => exact .nil q
  | succ k ih =>
      rw [List.replicate_succ, List.flatten_cons]
      exact h.append ih

/-- A read that also asks for an overflow page. -/
def overflowPagesOf (read : ℕ → Result Page) (p : ℕ) : Result Page := do
  let page ← read p
  if !page.isOverflow then
    fail (.corruption (s!"system page chain hit non-overflow page {p} " ++
      s!"(flags={hexUpper 4 page.flags})"))
  else pure page

theorem completes_overflowPagesOf (hread : ∀ p, Completes (read p)) (p : ℕ) :
    Completes (overflowPagesOf read p) :=
  (hread p).bind fun _ _ => .ite (fun _ => completes_fail _) fun _ => completes_ok _

theorem read_of_overflowPagesOf {page : Page} (h : overflowPagesOf read p = .ok page) :
    read p = .ok page := by
  obtain ⟨page', hread, hpage⟩ := bind_eq_ok.mp h
  split at hpage
  · cases hpage
  · rw [hread, ← Except.ok.inj hpage]

/-- **A long walk goes in a circle**: with more turns than pages together with lengths, some
page is reached twice without a byte in between. -/
theorem exists_cycle {count len : ℕ} (hbound : ∀ p page, read p = .ok page → p < count)
    (h : Leads read p payloads q) (hlen : payloads.flatten.length < len)
    (hlong : count * len < payloads.length) :
    ∃ before m cycle, Leads read p before m ∧ before.flatten.length < len ∧
      Leads read m cycle m ∧ cycle.flatten = [] ∧ cycle ≠ [] := by
  -- where the walk is after each turn, and how many bytes it has read
  have hat : ∀ i, ∃ m, Leads read p (payloads.take i) m ∧ Leads read m (payloads.drop i) q :=
    fun i => Leads.split ((List.take_append_drop i payloads).symm ▸ h)
  choose pos hto hfrom using hat
  have hread : ∀ i (hi : i < payloads.length), ((payloads.take i).flatten).length ≤
      payloads.flatten.length := by
    intro i _
    conv_rhs => rw [← List.take_append_drop i payloads, List.flatten_append, List.length_append]
    exact Nat.le_add_right _ _
  have hmaps : ∀ i ∈ Finset.range payloads.length,
      (pos i, (payloads.take i).flatten.length) ∈ Finset.range count ×ˢ Finset.range len := by
    intro i hi
    have hlt := Finset.mem_range.mp hi
    have hrest := hfrom i
    rw [List.drop_eq_getElem_cons hlt] at hrest
    cases hrest with
    | cons _ hpage _ _ =>
        exact Finset.mem_product.mpr ⟨Finset.mem_range.mpr (hbound _ _ hpage),
          Finset.mem_range.mpr ((hread i hlt).trans_lt hlen)⟩
  obtain ⟨i, hi, j, hj, hne, heq⟩ := Finset.exists_ne_map_eq_of_card_lt_of_maps_to
    (by rw [Finset.card_product, Finset.card_range, Finset.card_range, Finset.card_range]
        exact hlong) hmaps
  wlog hlt : i < j generalizing i j
  · exact this j hj i hi hne.symm heq.symm (lt_of_le_of_ne (Nat.not_lt.mp hlt) hne.symm)
  obtain ⟨hpos, hbytes⟩ := Prod.mk.inj heq
  rw [Finset.mem_range] at hi hj
  obtain ⟨k, rfl⟩ : ∃ k, j = i + (k + 1) := ⟨j - i - 1, by omega⟩
  have htake : payloads.take (i + (k + 1)) =
      payloads.take i ++ (payloads.drop i).take (k + 1) := List.take_add
  have hcycle : Leads read (pos i) ((payloads.drop i).take (k + 1)) (pos i) := by
    have hboth := hto (i + (k + 1))
    rw [htake] at hboth
    obtain ⟨m, hm, hrest⟩ := hboth.split
    obtain rfl := hm.unique (hto i)
    rw [← hpos] at hrest
    exact hrest
  refine ⟨_, pos i, _, hto i, (hread i hi).trans_lt hlen, hcycle, ?_, ?_⟩
  · rw [htake, List.flatten_append, List.length_append] at hbytes
    exact List.length_eq_zero_iff.mp (by omega)
  · refine List.ne_nil_of_length_pos ?_
    rw [List.length_take, List.length_drop]
    omega

end

/-! ## The walk -/

section

variable {read : ℕ → Result Page} {p q len acc fuel fuel' : ℕ} {bytes : List UInt8}
  {payloads : List (List UInt8)} {page : Page}

/-- One turn of the walk. -/
theorem readRegistryChain_succ (hp : p ≠ 0) (hacc : acc < len) :
    readRegistryChain read len (fuel + 1) bytes p acc = (do
      let page ← overflowPagesOf read p
      let payload ← readOverflowPayload page
      readRegistryChain read len fuel
        (bytes ++ payload.take (min (len - acc) payload.length)) page.overflowNext
        (acc + min (len - acc) payload.length)) := by
  rw [readRegistryChain, if_pos ⟨hp, hacc⟩, overflowPagesOf]
  cases read p with
  | error f => rfl
  | ok page =>
      rw [ok_bind, ok_bind]
      split <;> rfl

/-- A walk that is over returns, or misses some bytes. -/
theorem completes_over (h : ¬ (p ≠ 0 ∧ acc < len)) :
    Completes (readRegistryChain read len fuel bytes p acc) := by
  rw [readRegistryChain.eq_def]
  dsimp only
  rw [if_neg h]
  exact .ite (fun _ => completes_fail _) fun _ => completes_ok _

/-- How a walk ends with a fault at page `q`, with `fuel` turns left. -/
def EndsAt (read : ℕ → Result Page) (fault : Fault) (q : ℕ) : ℕ → Prop
  | 0 => fault = .overflow
  | _ + 1 => fault = .panic ∧ ∃ page, overflowPagesOf read q = .ok page ∧ ¬ PayloadFits page

/-- **A walk that does not complete** leads to a page where it has no turns left, or whose
payload reaches beyond its end, and has not read enough. -/
theorem readRegistryChain_fault_iff (hread : ∀ p, Completes (read p)) {fault : Fault}
    (hfault : ∀ e, fault ≠ .error e) :
    readRegistryChain read len fuel bytes p acc = .error fault ↔
      ∃ payloads q, Leads (overflowPagesOf read) p payloads q ∧ payloads.length ≤ fuel ∧
        acc + payloads.flatten.length < len ∧ q ≠ 0 ∧
        EndsAt read fault q (fuel - payloads.length) := by
  -- the induction is on the turns left; `bytes` and `acc` change with every page
  induction fuel generalizing bytes p acc with
  | zero =>
      by_cases hgo : p ≠ 0 ∧ acc < len
      · rw [readRegistryChain.eq_def]
        dsimp only
        rw [if_pos hgo]
        constructor
        · intro h
          exact ⟨[], p, .nil p, le_rfl, hgo.2, hgo.1, (Except.error.inj h).symm⟩
        · rintro ⟨payloads, q, _, _, _, _, hend⟩
          rw [Nat.zero_sub] at hend
          exact congrArg Except.error hend.symm
      · refine iff_of_false (fun h => ?_) ?_
        · obtain ⟨e, he⟩ := completes_over hgo fault h
          exact hfault e he
        · rintro ⟨payloads, q, hleads, hlen, hacc, hq, _⟩
          obtain rfl := List.length_eq_zero_iff.mp (Nat.le_zero.mp hlen)
          cases hleads
          exact hgo ⟨hq, hacc⟩
  | succ fuel ih =>
      by_cases hgo : p ≠ 0 ∧ acc < len
      swap
      · refine iff_of_false (fun h => ?_) ?_
        · obtain ⟨e, he⟩ := completes_over hgo fault h
          exact hfault e he
        · rintro ⟨payloads, q, hleads, _, hacc, hq, _⟩
          cases hleads with
          | nil => exact hgo ⟨hq, hacc⟩
          | cons hp _ _ _ => exact hgo ⟨hp, by omega⟩
      rw [readRegistryChain_succ hgo.1 hgo.2]
      cases hpage : overflowPagesOf read p with
      | error f =>
          obtain ⟨e, rfl⟩ := completes_overflowPagesOf hread p f hpage
          refine iff_of_false (fun h => hfault e (Except.error.inj h).symm) ?_
          rintro ⟨payloads, q, hleads, _, _, _, hend⟩
          cases hleads with
          | nil =>
              obtain ⟨-, page, hok, -⟩ := hend
              rw [hpage] at hok
              cases hok
          | cons _ hok _ _ =>
              rw [hpage] at hok
              cases hok
      | ok page =>
          rw [ok_bind]
          by_cases hfits : PayloadFits page
          · -- the walk goes on behind the payload of this page
            obtain ⟨payload, hpayload⟩ := readOverflowPayload_ok hfits
            rw [hpayload, ok_bind, ih]
            constructor
            · rintro ⟨payloads, q, hleads, hlen, hacc, hq, hend⟩
              refine ⟨payload :: payloads, q, .cons hgo.1 hpage hpayload hleads, ?_, ?_, hq, ?_⟩
              · rw [List.length_cons]
                omega
              · rw [List.flatten_cons, List.length_append]
                omega
              · rwa [List.length_cons, Nat.add_sub_add_right]
            · rintro ⟨payloads, q, hleads, hlen, hacc, hq, hend⟩
              cases hleads with
              | nil =>
                  obtain ⟨-, page', hok, hbroken⟩ := hend
                  obtain rfl := Except.ok.inj (hpage.symm.trans hok)
                  exact absurd hfits hbroken
              | cons _ hpage' hpayload' hrest =>
                  obtain rfl := Except.ok.inj (hpage.symm.trans hpage')
                  obtain rfl := Except.ok.inj (hpayload.symm.trans hpayload')
                  rw [List.length_cons] at hlen hend
                  rw [List.flatten_cons, List.length_append] at hacc
                  rw [Nat.add_sub_add_right] at hend
                  exact ⟨_, q, hrest, by omega, by omega, hq, hend⟩
          -- the payload of this page reaches beyond its end, so the walk ends here
          · rw [readOverflowPayload_panics hfits]
            constructor
            · intro h
              exact ⟨[], p, .nil p, Nat.zero_le _, hgo.2, hgo.1, (Except.error.inj h).symm, page,
                hpage, hfits⟩
            · rintro ⟨payloads, q, hleads, _, _, _, hend⟩
              cases hleads with
              | nil => exact congrArg Except.error hend.1.symm
              | cons _ hpage' hpayload' _ =>
                  obtain rfl := Except.ok.inj (hpage.symm.trans hpage')
                  rw [readOverflowPayload_panics hfits] at hpayload'
                  cases hpayload'

theorem overflow_ne_error (e : BoogyError) : Fault.overflow ≠ .error e := nofun

theorem unspecified_ne_error (e : BoogyError) : Fault.unspecified ≠ .error e := nofun

theorem panic_ne_error (e : BoogyError) : Fault.panic ≠ .error e := nofun

/-- A long way along the chain uses up the turns. -/
theorem overflowed_of_leads (hread : ∀ p, Completes (read p))
    (h : Leads (overflowPagesOf read) p payloads q) (hlong : fuel ≤ payloads.length)
    (hacc : acc + payloads.flatten.length < len) (hq : q ≠ 0) :
    readRegistryChain read len fuel bytes p acc = overflowed := by
  apply (readRegistryChain_fault_iff hread overflow_ne_error).mpr
  obtain ⟨m, hto, hfrom⟩ := Leads.split ((List.take_append_drop fuel payloads).symm ▸ h)
  have hlen : (payloads.take fuel).length = fuel := List.length_take_of_le hlong
  refine ⟨payloads.take fuel, m, hto, hlen.le, ?_, ?_, ?_⟩
  · have hbytes := congrArg (fun l => l.flatten.length) (List.take_append_drop fuel payloads)
    simp only [List.flatten_append, List.length_append] at hbytes
    omega
  · cases hrest : payloads.drop fuel with
    | nil =>
        rw [hrest] at hfrom
        cases hfrom
        exact hq
    | cons payload rest =>
        rw [hrest] at hfrom
        cases hfrom with
        | cons hp _ _ _ => exact hp
  · rw [hlen, Nat.sub_self]
    rfl

/-- Until `len` bytes were read, the chain leads to no page whose payload reaches beyond its
end, and does not come back to a page without a byte in between. -/
def ChainReadable (read : ℕ → Result Page) (first len : ℕ) : Prop :=
  ∀ payloads q, Leads (overflowPagesOf read) first payloads q → payloads.flatten.length < len →
    (q ≠ 0 → ∀ page, overflowPagesOf read q = .ok page → PayloadFits page) ∧
    ∀ cycle, Leads (overflowPagesOf read) q cycle q → cycle.flatten = [] → cycle = []

/-- A circle without a byte on it is followed for ever. -/
theorem overflowed_of_cycle (hread : ∀ p, Completes (read p)) {before cycle : List (List UInt8)}
    (hbefore : Leads (overflowPagesOf read) p before q) (hlen : before.flatten.length < len)
    (hcycle : Leads (overflowPagesOf read) q cycle q) (hempty : cycle.flatten = [])
    (hne : cycle ≠ []) (fuel : ℕ) :
    readRegistryChain read len fuel bytes p 0 = overflowed := by
  have hq : q ≠ 0 := by
    cases hcycle with
    | nil => exact absurd rfl hne
    | cons hp _ _ _ => exact hp
  have hflat : (List.replicate fuel cycle).flatten.flatten = [] := by
    rw [List.flatten_eq_nil_iff]
    intro payload hmem
    obtain ⟨c, hc, hmem⟩ := List.mem_flatten.mp hmem
    rw [(List.mem_replicate.mp hc).2] at hmem
    exact List.flatten_eq_nil_iff.mp hempty payload hmem
  have hpos := List.length_pos_iff.mpr hne
  refine overflowed_of_leads hread (hbefore.append (hcycle.replicate fuel)) ?_ ?_ hq
  · rw [List.length_append, List.length_flatten, List.map_replicate, List.sum_replicate,
      smul_eq_mul]
    have := Nat.le_mul_of_pos_right fuel hpos
    omega
  · rw [List.flatten_append, hflat, List.append_nil]
    omega

/-- A walk with more turns than pages together with lengths is in a circle. -/
theorem cycle_of_overflowed (hread : ∀ p, Completes (read p)) {count : ℕ}
    (hbound : ∀ p page, read p = .ok page → p < count) (hfuel : count * len < fuel)
    (h : readRegistryChain read len fuel bytes p 0 = overflowed) :
    ∃ before m cycle, Leads (overflowPagesOf read) p before m ∧ before.flatten.length < len ∧
      Leads (overflowPagesOf read) m cycle m ∧ cycle.flatten = [] ∧ cycle ≠ [] := by
  obtain ⟨payloads, q, hleads, hlen, hacc, -, hend⟩ :=
    (readRegistryChain_fault_iff hread overflow_ne_error).mp h
  have hall : fuel - payloads.length = 0 := by
    by_contra hne
    obtain ⟨k, hk⟩ := Nat.exists_eq_succ_of_ne_zero hne
    rw [hk] at hend
    cases hend.1
  exact exists_cycle (fun p page hp => hbound p page (read_of_overflowPagesOf hp)) hleads
    (by omega) (by omega)

/-- **The walk completes** on readable chains only. -/
theorem completes_readRegistryChain_iff (hread : ∀ p, Completes (read p)) {count : ℕ}
    (hbound : ∀ p page, read p = .ok page → p < count) (hfuel : count * len < fuel) :
    Completes (readRegistryChain read len fuel bytes p 0) ↔ ChainReadable read p len := by
  constructor
  · intro h payloads q hleads hlen
    constructor
    · intro hq page hpage
      by_contra hbroken
      by_cases hshort : payloads.length < fuel
      · have hpanic : readRegistryChain read len fuel bytes p 0 = .error .panic := by
          apply (readRegistryChain_fault_iff hread panic_ne_error).mpr
          refine ⟨payloads, q, hleads, hshort.le, by omega, hq, ?_⟩
          obtain ⟨k, hk⟩ := Nat.exists_eq_succ_of_ne_zero (Nat.sub_ne_zero_of_lt hshort)
          rw [hk]
          exact ⟨rfl, page, hpage, hbroken⟩
        exact not_completes_panic (hpanic ▸ h)
      · have hover : readRegistryChain read len fuel bytes p 0 = overflowed :=
          overflowed_of_leads hread hleads (Nat.not_lt.mp hshort) (by omega) hq
        exact not_completes_overflowed (hover ▸ h)
    · intro cycle hcycle hempty
      by_contra hne
      have hover : readRegistryChain read len fuel bytes p 0 = overflowed :=
        overflowed_of_cycle hread hleads hlen hcycle hempty hne fuel
      exact not_completes_overflowed (hover ▸ h)
  · intro hchain fault h
    cases fault with
    | error e => exact ⟨e, rfl⟩
    | overflow =>
        obtain ⟨before, m, cycle, hbefore, hlen, hcycle, hempty, hne⟩ :=
          cycle_of_overflowed hread hbound hfuel h
        exact absurd ((hchain before m hbefore hlen).2 cycle hcycle hempty) hne
    | unspecified =>
        obtain ⟨payloads, q, -, -, -, -, hend⟩ :=
          (readRegistryChain_fault_iff hread unspecified_ne_error).mp h
        cases hturns : fuel - payloads.length with
        | zero =>
            rw [hturns] at hend
            cases hend
        | succ k =>
            rw [hturns] at hend
            exact nomatch hend.1
    | panic =>
        obtain ⟨payloads, q, hleads, -, hacc, hq, hend⟩ :=
          (readRegistryChain_fault_iff hread panic_ne_error).mp h
        cases hturns : fuel - payloads.length with
        | zero =>
            rw [hturns] at hend
            cases hend
        | succ k =>
            rw [hturns] at hend
            obtain ⟨-, page, hpage, hbroken⟩ := hend
            exact absurd ((hchain payloads q hleads (by omega)).1 hq page hpage) hbroken

/-- More turns do not change a walk that is not given up. -/
theorem readRegistryChain_mono (h : readRegistryChain read len fuel bytes p acc ≠ overflowed)
    (hle : fuel ≤ fuel') :
    readRegistryChain read len fuel' bytes p acc = readRegistryChain read len fuel bytes p acc := by
  induction fuel generalizing fuel' bytes p acc with
  | zero =>
      by_cases hgo : p ≠ 0 ∧ acc < len
      · exact absurd (by rw [readRegistryChain.eq_def]; exact if_pos hgo) h
      · rw [readRegistryChain.eq_def, readRegistryChain.eq_def read len 0]
        dsimp only
        rw [if_neg hgo, if_neg hgo]
  | succ fuel ih =>
      obtain ⟨fuel', rfl⟩ := Nat.exists_eq_add_of_le' (Nat.one_le_of_lt hle)
      by_cases hgo : p ≠ 0 ∧ acc < len
      · rw [readRegistryChain_succ hgo.1 hgo.2] at h ⊢
        rw [readRegistryChain_succ hgo.1 hgo.2]
        cases hpage : overflowPagesOf read p with
        | error f => rfl
        | ok page =>
            rw [hpage, ok_bind] at h
            rw [ok_bind, ok_bind]
            cases hpayload : readOverflowPayload page with
            | error f => rfl
            | ok payload =>
                rw [hpayload, ok_bind] at h
                rw [ok_bind, ok_bind]
                exact ih h (Nat.le_of_succ_le_succ hle)
      · rw [readRegistryChain.eq_def, readRegistryChain.eq_def read len (fuel + 1)]
        dsimp only
        rw [if_neg hgo, if_neg hgo]

/-- **The bound on the turns cuts off only walks that never end.** -/
theorem readRegistryChain_bound (hread : ∀ p, Completes (read p)) {count : ℕ}
    (hbound : ∀ p page, read p = .ok page → p < count) (hfuel : count * len < fuel)
    (h : readRegistryChain read len fuel' bytes p 0 ≠ overflowed) :
    readRegistryChain read len fuel bytes p 0 = readRegistryChain read len fuel' bytes p 0 := by
  rcases Nat.le_total fuel' fuel with hle | hle
  · exact readRegistryChain_mono h hle
  · refine (readRegistryChain_mono (fun hover => h ?_) hle).symm
    obtain ⟨before, m, cycle, hbefore, hlen, hcycle, hempty, hne⟩ :=
      cycle_of_overflowed hread hbound hfuel hover
    exact overflowed_of_cycle hread hbefore hlen hcycle hempty hne fuel'

end

/-! ## The stream -/

/-- With `k` bytes left the reader fails with an error, or leaves `k'` bytes. -/
def CompletesOn {α : Type} (reader : StreamReader α) (k k' : ℕ) : Prop :=
  ∀ rest, k ≤ rest.length →
    wp reader (fun _ rest' => k' ≤ rest'.length) (fun fault _ => ∃ e, fault = .error e) rest

namespace CompletesOn

variable {α β : Type} {x : StreamReader α} {f : α → StreamReader β} {j k k' l n : ℕ}

theorem bind (hx : CompletesOn x k k') (hf : ∀ a, CompletesOn (f a) k' l) :
    CompletesOn (x >>= f) k l := fun rest hrest =>
  wp_bind.mpr ((hx rest hrest).post fun a rest' hrest' => hf a rest' hrest')

theorem pure (a : α) : CompletesOn (Pure.pure a : StreamReader α) k k := fun _ hrest => hrest

theorem lift {r : Result α} (h : Completes r) : CompletesOn (liftM r : StreamReader α) k k := by
  intro rest hrest
  cases r with
  | ok a => exact hrest
  | error fault => exact h fault rfl

theorem weaken (h : CompletesOn x k k') (hk : k ≤ j) (hk' : l ≤ k') : CompletesOn x j l :=
  fun rest hrest => (h rest (hk.trans hrest)).post fun _ _ h' => hk'.trans h'

theorem need (n : ℕ) (msg : String) : CompletesOn (need n msg) k n := by
  intro rest _
  rw [BoogyDb.need, wp_readOnly]
  by_cases hshort : rest.length < n
  · rw [if_pos hshort]
    exact ⟨_, rfl⟩
  · rw [if_neg hshort]
    exact Nat.not_lt.mp hshort

theorem takeBytes (h : n ≤ k) : CompletesOn (takeBytes n) k (k - n) := by
  intro rest hrest
  have htake : BoogyDb.takeBytes n rest = .ok (rest.take n) (rest.drop n) := if_neg (by omega)
  rw [wp_of_ok htake, List.length_drop]
  omega

theorem takeNat (h : n ≤ k) : CompletesOn (takeNat n) k (k - n) :=
  (takeBytes h).bind fun _ => pure _

theorem takeByte (h : 1 ≤ k) : CompletesOn takeByte k (k - 1) := (takeBytes h).bind fun _ => pure _

/-- A loop whose turns need nothing. -/
theorem times (h : CompletesOn x 0 0) (n : ℕ) : CompletesOn (times x n) k 0 := by
  refine weaken (k := 0) ?_ (Nat.zero_le _) le_rfl
  induction n with
  | zero => exact pure []
  | succ n ih => exact h.bind fun a => ih.bind fun l => pure (a :: l)

theorem utf8 (msg : String) (bs : List UInt8) :
    CompletesOn (liftM (utf8 msg bs) : StreamReader String) k k := by
  refine lift ?_
  unfold BoogyDb.utf8
  split
  · exact completes_ok _
  · exact completes_fail _

theorem deserializeDefault : CompletesOn deserializeDefault 0 0 := by
  unfold BoogyDb.deserializeDefault
  refine (need 1 _).bind fun _ => (takeByte le_rfl).bind fun hasDefault => ?_
  split
  · exact pure none
  · refine (need 2 _).bind fun _ => (takeNat le_rfl).bind fun vlen => (need vlen _).bind fun _ =>
      (takeBytes le_rfl).bind fun bs => (lift (completes_decodeValue bs)).bind fun _ => ?_
    exact (pure _).weaken le_rfl (Nat.zero_le _)

theorem tagToType (tag : UInt8) : CompletesOn (liftM (tagToType tag) : StreamReader ColumnType) k k := by
  refine lift ?_
  unfold BoogyDb.tagToType
  exact .ite (fun _ => completes_ok _) fun _ => .ite (fun _ => completes_ok _) fun _ =>
    .ite (fun _ => completes_ok _) fun _ => .ite (fun _ => completes_ok _) fun _ =>
    .ite (fun _ => completes_ok _) fun _ => completes_fail _

theorem deserializeColumn : CompletesOn deserializeColumn 0 0 := by
  unfold BoogyDb.deserializeColumn
  refine (need 2 _).bind fun _ => (takeNat le_rfl).bind fun nameLen => ?_
  -- the three bytes behind the name are checked together with it
  refine (need (nameLen + 3) _).bind fun _ => (takeBytes (Nat.le_add_right _ _)).bind fun _ =>
    (utf8 _ _).bind fun _ => (takeByte (by omega)).bind fun typeTag =>
    (takeByte (by omega)).bind fun _ => (takeByte (by omega)).bind fun _ => ?_
  refine (need 1 _).bind fun _ => (takeByte le_rfl).bind fun _ =>
    (deserializeDefault.weaken (Nat.zero_le _) le_rfl).bind fun _ =>
    (tagToType typeTag).bind fun _ => pure _

theorem deserializeIndex : CompletesOn deserializeIndex 0 0 := by
  unfold BoogyDb.deserializeIndex
  refine (need 2 _).bind fun _ => (takeNat le_rfl).bind fun nameLen => (need nameLen _).bind fun _ =>
    (takeBytes le_rfl).bind fun _ => (utf8 _ _).bind fun _ => (need 2 _).bind fun _ =>
    (takeNat le_rfl).bind fun numCols => ?_
  refine (times ?_ numCols).bind fun _ => ?_
  · exact (need 2 _).bind fun _ => (takeNat le_rfl).bind fun len => (need len _).bind fun _ =>
      (takeBytes le_rfl).bind fun _ => (utf8 _ _).weaken le_rfl (Nat.zero_le _)
  · exact (need 1 _).bind fun _ => (takeByte le_rfl).bind fun _ => (need 4 _).bind fun _ =>
      (takeNat le_rfl).bind fun _ => (pure _).weaken le_rfl (Nat.zero_le _)

theorem takeEncrypted : CompletesOn takeEncrypted k 0 := fun _ _ => Nat.zero_le _

theorem deserializeTable : CompletesOn deserializeTable 0 0 := by
  unfold BoogyDb.deserializeTable
  refine (need 24 _).bind fun _ => (takeNat (by decide)).bind fun _ =>
    (takeNat (by decide)).bind fun _ => (takeNat (by decide)).bind fun _ =>
    (takeNat (by decide)).bind fun _ => ?_
  refine (need 2 _).bind fun _ => (takeNat le_rfl).bind fun nameLen => (need nameLen _).bind fun _ =>
    (takeBytes le_rfl).bind fun _ => (utf8 _ _).bind fun _ => ?_
  refine (need 2 _).bind fun _ => (takeNat le_rfl).bind fun numColumns =>
    (times deserializeColumn numColumns).bind fun _ => ?_
  exact (need 2 _).bind fun _ => (takeNat le_rfl).bind fun numIndexes =>
    (times deserializeIndex numIndexes).bind fun _ => takeEncrypted.bind fun _ => pure _

theorem deserializeSystemMetas : CompletesOn deserializeSystemMetas 0 0 := by
  unfold BoogyDb.deserializeSystemMetas
  refine (need 4 _).bind fun _ => (takeNat le_rfl).bind fun magic => ?_
  split
  · exact fun _ _ => ⟨_, rfl⟩
  · exact (need 4 _).bind fun _ => (takeNat le_rfl).bind fun _ => (need 2 _).bind fun _ =>
      (takeNat le_rfl).bind fun numTables => (times deserializeTable numTables).bind fun _ => pure _

end CompletesOn

/-- **A stream is parsed or refused**, whatever its counts and lengths. -/
theorem completes_deserializeSystemMetas (bytes : List UInt8) :
    Completes (deserializeSystemMetas.run bytes) := by
  intro fault h
  have hwp := CompletesOn.deserializeSystemMetas bytes (Nat.zero_le _)
  unfold StreamReader.run at h
  cases hrun : deserializeSystemMetas bytes with
  | ok a rest =>
      rw [hrun] at h
      cases h
  | error fault' rest =>
      rw [hrun] at h
      rw [wp_of_error hrun] at hwp
      exact Except.error.inj h ▸ hwp

/-! ## The registry -/

/-- Where the trailer of page 0 is. -/
def trailerStart : ℕ := pageHeaderSize + systemInlineBudget

/-- A page with a trailer leads to a chain that can be read, for as many bytes as the
trailer says. -/
def RegistryReadable (read : ℕ → Result Page) (page0 : Page) : Prop :=
  slice page0.data trailerStart (trailerStart + 2) = overflowMagic →
    ChainReadable read (readLe page0.data (trailerStart + 2) 4)
      (readLe page0.data (trailerStart + 6) 4)

section

variable [Crc32Fast]

/-- **Reading a registry completes** exactly on readable chains.  The bound that the model
puts on the turns changes nothing of a walk that ends. -/
theorem deserializeSystemPage_completes_iff (page0 : Page) (file : PageFile) :
    (Completes (deserializeSystemPage page0 file) ↔ RegistryReadable file.readPage page0) ∧
    ∀ bytes first len turns, readRegistryChain file.readPage len turns bytes first 0 ≠ overflowed →
      readRegistryChain file.readPage len ((file.pageCount + 1) * (len + 1)) bytes first 0 =
        readRegistryChain file.readPage len turns bytes first 0 := by
  have hbound : ∀ p page, file.readPage p = .ok page → p < file.pageCount := by
    intro p page h
    by_contra hout
    rw [PageFile.readPage, if_pos (show file.numPages ≤ p from Nat.not_lt.mp hout)] at h
    cases h
  have hfuel : ∀ len, file.pageCount * len < (file.pageCount + 1) * (len + 1) := by
    intro len
    have hexpand : (file.pageCount + 1) * (len + 1) =
        file.pageCount * len + file.pageCount + len + 1 := by ring
    omega
  refine ⟨?_, fun bytes first len turns h =>
    readRegistryChain_bound (completes_readPage file) hbound (hfuel len) h⟩
  have hsize := page0.size
  have htrailer : trailerStart = 4082 := rfl
  have hpage : pageSize = 4096 := rfl
  have hheader : pageHeaderSize = 16 := rfl
  unfold deserializeSystemPage RegistryReadable
  dsimp only
  rw [show pageHeaderSize + systemInlineBudget = trailerStart from rfl,
    bytesOf_ok (by omega) (by omega), ok_bind, bytesOf_ok (by omega) (by omega), ok_bind]
  by_cases hmagic : slice page0.data trailerStart (trailerStart + 2) = overflowMagic
  swap
  · rw [if_pos hmagic]
    exact iff_of_true (completes_deserializeSystemMetas _) fun h => absurd h hmagic
  rw [if_neg (not_not.mpr hmagic), readU32_ok (by omega), ok_bind, readU32_ok (by omega), ok_bind]
  simp only [hmagic, true_implies]
  generalize readLe page0.data (trailerStart + 2) 4 = first
  generalize readLe page0.data (trailerStart + 6) 4 = len
  by_cases hzero : first = 0 ∧ 0 < len
  · -- a chain that is not there cannot be read either
    obtain ⟨rfl, hlen⟩ := hzero
    rw [if_pos ⟨rfl, hlen⟩]
    refine iff_of_true (completes_fail _) fun payloads q hleads _ => ?_
    cases hleads with
    | cons hp _ _ _ => exact absurd rfl hp
    | nil =>
        refine ⟨fun hq => absurd rfl hq, fun cycle hcycle _ => ?_⟩
        cases hcycle with
        | nil => rfl
        | cons hp _ _ _ => exact absurd rfl hp
  · rw [if_neg hzero]
    rw [← completes_readRegistryChain_iff (completes_readPage file) hbound (hfuel len)]
    exact ⟨fun h => h.of_bind, fun h => h.bind fun _ _ => completes_deserializeSystemMetas _⟩

/-! ### Registries that are read -/

/-- Page 0 of a file in which one byte is left to read behind it. -/
def circlePage0 : Page :=
  registryPage (chainedBody (List.replicate (systemInlineBudget + 1) 0) 1 1)

/-- A file whose page 1 is empty and its own successor. -/
def circleFile : PageFile := PageFile.open [circlePage0, overflowPage [] 1]

theorem readPage_circleFile :
    circleFile.readPage 0 = .ok circlePage0 ∧ circleFile.readPage 1 = .ok (overflowPage [] 1) := by
  have h0 : circlePage0.validate = .ok () := validate_pageOf rfl
  have h1 : (overflowPage [] 1).validate = .ok () := validate_pageOf rfl
  constructor
  · show (circlePage0.validate >>= fun _ => pure circlePage0) = _
    rw [h0]
    rfl
  · show ((overflowPage [] 1).validate >>= fun _ => pure (overflowPage [] 1)) = _
    rw [h1]
    rfl

/-- However long the walk goes on, it is at page 1. -/
theorem leads_circleFile : Leads (overflowPagesOf circleFile.readPage) 1 [[]] 1 := by
  have hpage : overflowPagesOf circleFile.readPage 1 = .ok (overflowPage [] 1) := by
    rw [overflowPagesOf, readPage_circleFile.2, ok_bind, isOverflow_overflowPage]
    rfl
  refine .cons Nat.one_ne_zero hpage (readOverflowPayload_overflowPage (Nat.zero_le _)) ?_
  rw [overflowNext_overflowPage (by decide)]
  exact .nil 1

end

theorem circleFile_not_completes : letI := crc32Ieee
    circleFile.readPage 0 = .ok circlePage0 ∧
      (∀ turns bytes, readRegistryChain circleFile.readPage 1 turns bytes 1 0 = overflowed) ∧
      ¬ Completes (deserializeSystemPage circlePage0 circleFile) := by
  let := crc32Ieee
  have hwalk : ∀ turns bytes,
      readRegistryChain circleFile.readPage 1 turns bytes 1 0 = overflowed := fun turns bytes =>
    overflowed_of_cycle (completes_readPage circleFile) (.nil 1) Nat.one_pos leads_circleFile rfl
      (List.cons_ne_nil _ _) turns
  refine ⟨readPage_circleFile.1, hwalk, ?_⟩
  obtain ⟨hinline, hmarker, hpage, hlen⟩ :=
    @trailer_registryPage _ (List.replicate (systemInlineBudget + 1) 0) 1 1
      (by rw [List.length_replicate]; exact Nat.lt_succ_self _)
  unfold deserializeSystemPage
  dsimp only
  rw [circlePage0, hinline, ok_bind, hmarker, ok_bind, if_neg (not_not.mpr rfl), hpage, ok_bind,
    hlen, ok_bind, if_neg (by decide)]
  rw [show 1 % 2 ^ 32 = 1 from rfl, hwalk]
  exact not_completes_overflowed

end BoogyDb

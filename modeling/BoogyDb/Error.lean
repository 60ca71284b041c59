import BoogyDb.Lib.Bytes
import BoogyDb.Lib.Wp

/-!
# How a call ends

A call of the engine returns a value, returns an error, or panics.  Errors are
the values of `BoogyError`, with the texts the source gives them.  A panic is an
out-of-range slice or index, a failed assertion or an `unwrap`; an arithmetic
overflow is told apart from it.  What a long sort does with a comparator that is no total
preorder is not specified: an order or a panic.
-/

namespace BoogyDb

inductive BoogyError
  | corruption (msg : String)
  | io (msg : String)
  | tableNotFound (table : String)
  | tableExists (table : String)
  | rowNotFound (row : String)
  | duplicateKey (rowid : UInt64)
  | schemaMismatch (msg : String)
  | typeMismatch (msg : String)
  | indexNotFound (index : String)
  | indexExists (index : String)
  | uniqueViolation (index : String)
  | tableLocked (table : String)
  | rowTooLarge (size : ℕ)
  | invalidKey (msg : String)
  | decryptionFailed (msg : String)
  | vectorCollectionNotFound (name : String)
  | vectorCollectionExists (name : String)
  | vectorDimensionMismatch (expected got : ℕ)
  | vectorError (msg : String)
deriving DecidableEq, Repr

/-- What ends a call other than a value. -/
inductive Fault
  | error (e : BoogyError)
  | panic
  | overflow
  | unspecified
deriving DecidableEq, Repr

/-- Is this fault a panic? -/
def Fault.isPanic : Fault → Bool
  | .error _ => false
  | _ => true

abbrev Result (α : Type) := Except Fault α

/-- A call that reads and changes a state of type `σ`; the state it leaves
behind when it fails is kept. -/
abbrev StateResult (σ α : Type) := EStateM Fault σ α

def fail {α : Type} (e : BoogyError) : Result α := .error (.error e)

def panic {α : Type} : Result α := .error .panic

def overflowed {α : Type} : Result α := .error .overflow

/-- The value, or an outcome that is not specified. -/
def orUnspecified {α : Type} : Option α → Result α
  | some a => .ok a
  | none => .error .unspecified

instance {σ : Type} : MonadLift (Except Fault) (EStateM Fault σ) where
  monadLift
    | .ok a => fun s => .ok a s
    | .error e => fun s => .error e s

section

variable {σ α β : Type}

@[simp] theorem ok_bind (a : α) (f : α → Result β) : ((.ok a : Result α) >>= f) = f a := rfl

@[simp] theorem error_bind (e : Fault) (f : α → Result β) :
    ((.error e : Result α) >>= f) = .error e := rfl

@[simp] theorem pure_eq_ok (a : α) : (pure a : Result α) = .ok a := rfl

/-- A sequence of two steps succeeds when both do. -/
theorem bind_eq_ok {x : Result α} {f : α → Result β} {b : β} :
    (x >>= f) = .ok b ↔ ∃ a, x = .ok a ∧ f a = .ok b := by
  cases x with
  | error e => simp
  | ok a => simp

/-- `x` run from `s` ends in a panic. -/
def Panics (x : StateResult σ α) (s : σ) : Prop := ∃ s', x s = .error .panic s'

/-- A call that only looks at the state. -/
def readOnly (f : σ → Result α) : StateResult σ α := fun s =>
  match f s with
  | .ok a => .ok a s
  | .error e => .error e s

open Wp

variable {Q : α → σ → Prop} {E : Fault → σ → Prop} {s : σ} {a : α} {e : Fault}

theorem wp_readOnly (f : σ → Result α) :
    wp (readOnly f) Q E s ↔ match f s with | .ok a => Q a s | .error e => E e s := by
  rw [wp, readOnly]
  cases f s with
  | ok a => rfl
  | error e => rfl

theorem wp_lift_ok {x : Result α} (h : x = .ok a) :
    wp (liftM x : StateResult σ α) Q E s ↔ Q a s := by
  rw [h]
  rfl

theorem wp_lift_error {x : Result α} (h : x = .error e) :
    wp (liftM x : StateResult σ α) Q E s ↔ E e s := by
  rw [h]
  rfl

theorem wlp_lift {x : Result α} (h : ∀ a, x = .ok a → Q a s) :
    wlp (liftM x : StateResult σ α) Q s := by
  cases x with
  | ok a => exact h a rfl
  | error e => trivial

theorem wlp_lift_bind {x : Result α} {f : α → StateResult σ β} {R : β → σ → Prop}
    (h : ∀ a, x = .ok a → wlp (f a) R s) : wlp ((liftM x : StateResult σ α) >>= f) R s :=
  wp_bind.mpr (wlp_lift h)

/-- Two programs that do the same after a check. -/
theorem lift_bind_congr {σ α β : Type} {x : Result α} {f f' : α → StateResult σ β} {s : σ}
    (hf : ∀ a, x = .ok a → f a s = f' a s) :
    ((liftM x : StateResult σ α) >>= f) s = ((liftM x : StateResult σ α) >>= f') s := by
  cases x with
  | ok a => exact hf a rfl
  | error e => rfl

/-- Checks one after the other are one check. -/
theorem forM_lift {f : α → Result Unit} (l : List α) :
    (l.forM fun a => (liftM (f a) : StateResult σ Unit)) = liftM (l.forM f) := by
  induction l with
  | nil => rfl
  | cons a l ih =>
      show ((liftM (f a) : StateResult σ Unit) >>= fun _ => l.forM fun a =>
        (liftM (f a) : StateResult σ Unit)) = liftM (f a >>= fun _ => l.forM f)
      cases f a with
      | ok _ => exact ih
      | error e => rfl

theorem wlp_readOnly {f : σ → Result α} (h : ∀ a, f s = .ok a → Q a s) : wlp (readOnly f) Q s := by
  show wp _ _ _ _
  rw [wp_readOnly]
  cases hf : f s with
  | ok a => exact h a hf
  | error e => trivial

theorem not_panics_of_wp {x : StateResult σ α} (h : wp x Q (fun e _ => e ≠ .panic) s) :
    ¬ Panics x s := by
  rintro ⟨s', hx⟩
  exact h.error hx rfl

end

/-! ## Calls that return or fail -/

section

variable {α β : Type} {x : Result α} {f : α → Result β} {a : α}

/-- The call returns a value or an error: it neither panics nor overflows. -/
def Completes (x : Result α) : Prop := ∀ fault, x = .error fault → ∃ e, fault = .error e

@[simp] theorem completes_ok (a : α) : Completes (.ok a : Result α) := nofun

@[simp] theorem completes_fail (e : BoogyError) : Completes (fail e : Result α) :=
  fun _ h => ⟨e, (Except.error.inj h).symm⟩

@[simp] theorem not_completes_panic : ¬ Completes (panic : Result α) := fun h => by
  obtain ⟨e, he⟩ := h .panic rfl
  cases he

@[simp] theorem not_completes_overflowed : ¬ Completes (overflowed : Result α) := fun h => by
  obtain ⟨e, he⟩ := h .overflow rfl
  cases he

theorem Completes.bind (hx : Completes x) (hf : ∀ a, x = .ok a → Completes (f a)) :
    Completes (x >>= f) := by
  cases x with
  | ok a => exact hf a rfl
  | error fault => exact fun _ h => hx _ (congrArg Except.error (Except.error.inj h))

theorem Completes.of_bind (h : Completes (x >>= f)) : Completes x := by
  cases x with
  | ok a => exact completes_ok a
  | error fault => exact fun _ hx => h _ (congrArg Except.error (Except.error.inj hx))

theorem Completes.ite {c : Prop} [Decidable c] {y : Result α} (hx : c → Completes x)
    (hy : ¬ c → Completes y) : Completes (if c then x else y) := by
  split
  · exact hx ‹c›
  · exact hy ‹¬ c›

/-- A loop completes when each turn does that is reached. -/
theorem completes_mapM_iff (l : List α) : Completes (l.mapM f) ↔
    ∀ before a after, l = before ++ a :: after → (∀ b ∈ before, ∃ c, f b = .ok c) →
      Completes (f a) := by
  induction l with
  | nil =>
      rw [List.mapM_nil]
      exact iff_of_true (completes_ok []) fun before a after h => by simp at h
  | cons a l ih =>
      rw [List.mapM_cons]
      constructor
      · intro h before b after heq hbefore
        cases before with
        | nil =>
            obtain ⟨rfl, rfl⟩ := List.cons.inj heq
            exact h.of_bind
        | cons c before =>
            obtain ⟨rfl, rfl⟩ := List.cons.inj heq
            obtain ⟨⟨d, hd⟩, hbefore⟩ := List.forall_mem_cons.mp hbefore
            rw [hd, ok_bind] at h
            exact ih.mp h.of_bind before b after rfl hbefore
      · intro h
        refine (h [] a l rfl (by simp)).bind fun b hb => ?_
        refine (ih.mpr fun before c after heq hbefore => ?_).bind fun bs _ => completes_ok _
        refine h (a :: before) c after (by rw [heq, List.cons_append]) ?_
        exact List.forall_mem_cons.mpr ⟨⟨b, hb⟩, hbefore⟩

theorem completes_mapM_range_iff {f : ℕ → Result β} {n : ℕ} :
    Completes ((List.range n).mapM f) ↔
      ∀ i < n, (∀ j < i, ∃ b, f j = .ok b) → Completes (f i) := by
  rw [completes_mapM_iff]
  constructor
  · intro h i hi hbefore
    obtain ⟨k, rfl⟩ : ∃ k, n = i + (k + 1) := ⟨n - i - 1, by omega⟩
    have hsplit : List.range (i + (k + 1)) =
        List.range i ++ i :: (List.range k).map fun x => i + (x + 1) := by
      rw [List.range_add, List.range_succ_eq_map]
      simp
    exact h _ i _ hsplit fun j hj => hbefore j (List.mem_range.mp hj)
  · intro h before i after heq hbefore
    have hlen := congrArg List.length heq
    rw [List.length_range, List.length_append, List.length_cons] at hlen
    have hget : ∀ j < n, (before ++ i :: after)[j]? = some j := fun j hj => by
      rw [← heq, List.getElem?_range hj]
    have hi : i = before.length := by
      have := hget before.length (by omega)
      rwa [List.getElem?_append_right le_rfl, Nat.sub_self, List.getElem?_cons_zero,
        Option.some_inj] at this
    refine h i (by omega) fun j hj => hbefore j ?_
    have := hget j (by omega)
    rw [List.getElem?_append_left (by omega)] at this
    exact List.mem_of_getElem? this

end

/-! ## Reading a byte string -/

open Bytes

/-- `data[start..stop]`. -/
def bytesOf (data : List UInt8) (start stop : ℕ) : Result (List UInt8) :=
  if start ≤ stop ∧ stop ≤ data.length then .ok (slice data start stop) else panic

/-- `u16::from_le_bytes` of the two bytes at `off`. -/
def readU16 (data : List UInt8) (off : ℕ) : Result ℕ := do
  let bs ← bytesOf data off (off + 2)
  pure (leNat bs)

def readU32 (data : List UInt8) (off : ℕ) : Result ℕ := do
  let bs ← bytesOf data off (off + 4)
  pure (leNat bs)

def readU64 (data : List UInt8) (off : ℕ) : Result UInt64 := do
  let bs ← bytesOf data off (off + 8)
  pure (UInt64.ofNat (leNat bs))

theorem bytesOf_ok {data : List UInt8} {start stop : ℕ} (h : start ≤ stop)
    (hstop : stop ≤ data.length) : bytesOf data start stop = .ok (slice data start stop) :=
  if_pos ⟨h, hstop⟩

theorem readU16_ok {data : List UInt8} {off : ℕ} (h : off + 2 ≤ data.length) :
    readU16 data off = .ok (readLe data off 2) := by
  rw [readU16, bytesOf_ok (Nat.le_add_right _ _) h]
  rfl

theorem readU32_ok {data : List UInt8} {off : ℕ} (h : off + 4 ≤ data.length) :
    readU32 data off = .ok (readLe data off 4) := by
  rw [readU32, bytesOf_ok (Nat.le_add_right _ _) h]
  rfl

theorem readU64_ok {data : List UInt8} {off : ℕ} (h : off + 8 ≤ data.length) :
    readU64 data off = .ok (UInt64.ofNat (readLe data off 8)) := by
  rw [readU64, bytesOf_ok (Nat.le_add_right _ _) h]
  rfl

end BoogyDb

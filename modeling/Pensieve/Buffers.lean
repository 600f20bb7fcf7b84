/-
**Reading bytes at offsets.**

A file that is read from the middle is a buffer and offsets into it.  Reading is checked or it is
not: a checked sum or a checked range fails with an error, an unchecked one stops the program.

Main results:

* `Buffers.Safe.bind`, `Buffers.Safe.times` — the rules for not being stopped;
* `Buffers.at_append`, `Buffers.rdLe_of_at`, `Buffers.times_of_at` — **what is written is read**.
-/

import Pensieve.Fallible
import Pensieve.Wire
import Mathlib.Tactic

namespace Buffers

open List
open Wire (Bytes leBytes leValue)

/-! ### Failing, and being stopped -/

inductive Fault (E : Type) where
  | err (e : E)
  | panic
  deriving DecidableEq

abbrev Outcome (E α : Type) := Except (Fault E) α

variable {E α β : Type}

def fail (e : E) : Outcome E α := .error (.err e)

/-- `a.checked_add(b).ok_or(e)?`, in 64 bits. -/
def checkedAdd (e : E) (a b : ℕ) : Outcome E ℕ := if a + b < 2 ^ 64 then .ok (a + b) else fail e

/-- `buf.get(a..b).ok_or(e)?` -/
def getRange (e : E) (buf : Bytes) (a b : ℕ) : Outcome E Bytes :=
  if a ≤ b ∧ b ≤ buf.length then .ok ((buf.drop a).take (b - a)) else fail e

/-- `a + b`, which is not checked. -/
def add (a b : ℕ) : Outcome E ℕ := if a + b < 2 ^ 64 then .ok (a + b) else .error .panic

/-- `a * b`, which is not checked. -/
def mul (a b : ℕ) : Outcome E ℕ := if a * b < 2 ^ 64 then .ok (a * b) else .error .panic

/-- `buf[a..b]`, which is not checked. -/
def slice (buf : Bytes) (a b : ℕ) : Outcome E Bytes :=
  if a ≤ b ∧ b ≤ buf.length then .ok ((buf.drop a).take (b - a)) else .error .panic

def times : ℕ → (ℕ → Outcome E (α × ℕ)) → ℕ → Outcome E (List α × ℕ)
  | 0, _, off => pure ([], off)
  | n + 1, f, off => do
      let a ← f off
      let as ← times n f a.2
      pure (a.1 :: as.1, as.2)

/-- What a reader says if a range is not there, and if its end overflows. -/
structure Errors (E : Type) where
  tooShort : ℕ → ℕ → E
  overflow : E

/-- A little-endian number of `w` bytes. -/
def rdLe (errors : Errors E) (w : ℕ) (buf : Bytes) (off : ℕ) : Outcome E ℕ := do
  let stop ← checkedAdd errors.overflow off w
  let bytes ← getRange (errors.tooShort stop buf.length) buf off stop
  pure (leValue bytes)

/-! ### Not being stopped -/

/-- The computation is not stopped, and a result of it satisfies `P`. -/
def Safe (x : Outcome E α) (P : α → Prop) : Prop := x ≠ .error .panic ∧ ∀ a, x = .ok a → P a

namespace Safe

variable {P : α → Prop} {Q : β → Prop}

theorem ok {a : α} (h : P a) : Safe (.ok a : Outcome E α) P := by
  refine ⟨by simp, fun a' ha' => ?_⟩
  cases ha'
  exact h

theorem pure {a : α} (h : P a) : Safe (Pure.pure a : Outcome E α) P := ok h

theorem fail (e : E) : Safe (Buffers.fail e : Outcome E α) P := by
  refine ⟨by simp [Buffers.fail], fun a ha => ?_⟩
  cases ha

variable {x : Outcome E α}

theorem bind {f : α → Outcome E β} (hx : Safe x P) (hf : ∀ a, P a → Safe (f a) Q) : Safe (x >>= f) Q := by
  cases x with
  | error fault =>
    refine ⟨fun h => hx.1 ?_, fun b hb => ?_⟩
    · cases h
      rfl
    · cases hb
  | ok a => exact hf a (hx.2 a rfl)

theorem mono {P' : α → Prop} (hx : Safe x P) (h : ∀ a, P a → P' a) : Safe x P' := ⟨hx.1, fun a ha => h a (hx.2 a ha)⟩

theorem ite {c : Prop} [Decidable c] {y : Outcome E α} (hx : c → Safe x P) (hy : ¬ c → Safe y P) :
    Safe (if c then x else y) P := by
  by_cases h : c
  · rw [if_pos h]
    exact hx h
  · rw [if_neg h]
    exact hy h

theorem checkedAdd (e : E) (a b : ℕ) : Safe (checkedAdd e a b) fun c => c = a + b ∧ a + b < 2 ^ 64 := by
  unfold Buffers.checkedAdd
  exact ite (fun h => ok ⟨rfl, h⟩) fun _ => fail e

theorem add {a b : ℕ} (h : a + b < 2 ^ 64) : Safe (add a b : Outcome E ℕ) fun c => c = a + b := by
  unfold Buffers.add
  rw [if_pos h]
  exact ok rfl

theorem mul {a b : ℕ} (h : a * b < 2 ^ 64) : Safe (mul a b : Outcome E ℕ) fun c => c = a * b := by
  unfold Buffers.mul
  rw [if_pos h]
  exact ok rfl

theorem getRange (e : E) (buf : Bytes) (a b : ℕ) :
    Safe (getRange e buf a b) fun bytes => a ≤ b ∧ b ≤ buf.length ∧ bytes = (buf.drop a).take (b - a) := by
  unfold Buffers.getRange
  exact ite (fun h => ok ⟨h.1, h.2, rfl⟩) fun _ => fail e

theorem slice {buf : Bytes} {a b : ℕ} (hab : a ≤ b) (hb : b ≤ buf.length) :
    Safe (slice buf a b : Outcome E Bytes) fun bytes => bytes = (buf.drop a).take (b - a) := by
  unfold Buffers.slice
  rw [if_pos ⟨hab, hb⟩]
  exact ok rfl

theorem rdLe (errors : Errors E) (w : ℕ) (buf : Bytes) (off : ℕ) :
    Safe (rdLe errors w buf off) fun v => off + w ≤ buf.length ∧ off + w < 2 ^ 64 ∧ v < 256 ^ w := by
  unfold Buffers.rdLe
  refine (checkedAdd _ _ _).bind ?_
  rintro stop ⟨rfl, hsum⟩
  refine (getRange _ _ _ _).bind ?_
  rintro bytes ⟨hle, hlen, rfl⟩
  refine pure ⟨hlen, hsum, ?_⟩
  rw [Nat.add_sub_cancel_left]
  have hlt := Wire.leValue_lt ((buf.drop off).take w)
  rwa [length_take, length_drop, Nat.min_eq_left (by omega)] at hlt

theorem times {I : ℕ → Prop} {R : α → Prop} {f : ℕ → Outcome E (α × ℕ)}
    (hf : ∀ off, I off → Safe (f off) fun r => R r.1 ∧ I r.2) (n : ℕ) {off : ℕ} (h : I off) :
    Safe (times n f off) fun r => r.1.length = n ∧ (∀ a ∈ r.1, R a) ∧ I r.2 := by
  induction n generalizing off with
  | zero => exact pure ⟨rfl, by simp, h⟩
  | succ n ih =>
    unfold Buffers.times
    refine (hf off h).bind ?_
    rintro ⟨a, off'⟩ ⟨ha, hoff'⟩
    refine (ih hoff').bind ?_
    rintro ⟨as, off''⟩ ⟨hlen, has, hoff''⟩
    exact pure ⟨by rw [length_cons, hlen], forall_mem_cons.2 ⟨ha, has⟩, hoff''⟩

end Safe

/-! ### What is where -/

/-- The bytes `b` are at the offset `off`. -/
def At (buf : Bytes) (off : ℕ) (b : Bytes) : Prop := ∃ pre post, buf = pre ++ (b ++ post) ∧ pre.length = off

theorem at_self (b : Bytes) : At b 0 b := ⟨[], [], by simp, rfl⟩

section Where

variable {buf a b : Bytes} {off : ℕ}

theorem At.le (h : At buf off b) : off + b.length ≤ buf.length := by
  obtain ⟨pre, post, rfl, rfl⟩ := h
  simp only [length_append]
  omega

theorem at_append : At buf off (a ++ b) ↔ At buf off a ∧ At buf (off + a.length) b := by
  constructor
  · rintro ⟨pre, post, rfl, rfl⟩
    refine ⟨⟨pre, b ++ post, by simp, rfl⟩, ⟨pre ++ a, post, by simp, by simp⟩⟩
  · rintro ⟨⟨pre, post, rfl, rfl⟩, pre', post', heq, hlen⟩
    have hpre : pre ++ a = pre' := by
      have hsame : (pre ++ a) ++ post = pre' ++ (b ++ post') := by
        rw [← heq]
        simp
      exact append_inj_left hsame (by simp [hlen])
    subst hpre
    refine ⟨pre, post', ?_, rfl⟩
    rw [heq]
    simp

theorem At.left (h : At buf off (a ++ b)) : At buf off a := (at_append.1 h).1

theorem At.right (h : At buf off (a ++ b)) : At buf (off + a.length) b := (at_append.1 h).2

theorem At.append (h : At buf off b) (post : Bytes) : At (buf ++ post) off b := by
  obtain ⟨pre, post', rfl, rfl⟩ := h
  exact ⟨pre, post' ++ post, by simp, rfl⟩

theorem At.drop_take (h : At buf off b) : (buf.drop off).take b.length = b := by
  obtain ⟨pre, post, rfl, rfl⟩ := h
  simp

theorem getRange_of_at (h : At buf off b) (e : E) : getRange e buf off (off + b.length) = .ok b := by
  rw [getRange, if_pos ⟨Nat.le_add_right _ _, h.le⟩, Nat.add_sub_cancel_left, h.drop_take]

theorem slice_of_at (h : At buf off b) : (slice buf off (off + b.length) : Outcome E Bytes) = .ok b := by
  rw [slice, if_pos ⟨Nat.le_add_right _ _, h.le⟩, Nat.add_sub_cancel_left, h.drop_take]

theorem checkedAdd_of_lt {x y : ℕ} (h : x + y < 2 ^ 64) (e : E) : checkedAdd e x y = .ok (x + y) := if_pos h

theorem add_of_lt {x y : ℕ} (h : x + y < 2 ^ 64) : (add x y : Outcome E ℕ) = .ok (x + y) := if_pos h

theorem mul_of_lt {x y : ℕ} (h : x * y < 2 ^ 64) : (mul x y : Outcome E ℕ) = .ok (x * y) := if_pos h

theorem leBytes_mod (w n : ℕ) : leBytes w (n % 256 ^ w) = leBytes w n := by
  induction w generalizing n with
  | zero => rfl
  | succ w ih =>
    have hlow : UInt8.ofNat (n % 256 ^ (w + 1)) = UInt8.ofNat n := by
      apply UInt8.toNat_inj.1
      rw [UInt8.toNat_ofNat', UInt8.toNat_ofNat', Nat.pow_succ, Nat.mod_mul_left_mod]
    have hhigh : n % 256 ^ (w + 1) / 256 = n / 256 % 256 ^ w := by
      rw [Nat.pow_succ, Nat.mul_comm, Nat.mod_mul_right_div_self]
    rw [leBytes, leBytes, hlow, hhigh, ih]

theorem rdLe_of_at {errors : Errors E} {w v : ℕ} (h : At buf off (leBytes w v)) (hv : v < 256 ^ w)
    (hoff : off + w < 2 ^ 64) : rdLe errors w buf off = .ok v := by
  have hget := getRange_of_at h (errors.tooShort (off + w) buf.length)
  rw [Wire.length_leBytes] at hget
  rw [rdLe, checkedAdd_of_lt hoff]
  change (getRange (errors.tooShort (off + w) buf.length) buf off (off + w) >>= fun bytes =>
    Pure.pure (leValue bytes)) = _
  rw [hget]
  change (Except.ok (leValue (leBytes w v)) : Outcome E ℕ) = _
  rw [Wire.leValue_leBytes hv]

variable {enc : α → Bytes}

theorem times_of_at_le {f : ℕ → Outcome E (α × ℕ)} {as : List α} {off stop : ℕ}
    (hf : ∀ a ∈ as, ∀ off, At buf off (enc a) → off + (enc a).length ≤ stop → f off = .ok (a, off + (enc a).length))
    (h : At buf off (as.flatMap enc)) (hstop : off + (as.flatMap enc).length ≤ stop) :
    times as.length f off = .ok (as, off + (as.flatMap enc).length) := by
  induction as generalizing off with
  | nil => rfl
  | cons a as ih =>
    rw [flatMap_cons] at h hstop
    rw [length_append] at hstop
    have hhead := hf a (mem_cons_self ..) off h.left (by omega)
    have htail := ih (fun a' ha' => hf a' (mem_cons_of_mem _ ha')) h.right (by omega)
    rw [length_cons, times, hhead]
    change (times as.length f (off + (enc a).length) >>= fun r => Pure.pure (a :: r.1, r.2)) = _
    rw [htail, flatMap_cons, length_append, ← Nat.add_assoc]
    rfl

theorem times_of_at {f : ℕ → Outcome E (α × ℕ)} {as : List α} {off : ℕ}
    (hf : ∀ a ∈ as, ∀ off, At buf off (enc a) → f off = .ok (a, off + (enc a).length))
    (h : At buf off (as.flatMap enc)) : times as.length f off = .ok (as, off + (as.flatMap enc).length) :=
  times_of_at_le (fun a ha off hat _ => hf a ha off hat) h h.le

theorem At.get {k : ℕ} (henc : ∀ a, (enc a).length = k) {as : List α} {off : ℕ}
    (h : At buf off (as.flatMap enc)) {i : ℕ} {a : α} (hi : as[i]? = some a) :
    At buf (off + i * k) (enc a) := by
  induction as generalizing off i with
  | nil => cases hi
  | cons a' as ih =>
    rw [flatMap_cons] at h
    cases i with
    | zero =>
      cases hi
      rw [Nat.zero_mul, Nat.add_zero]
      exact h.left
    | succ i =>
      have hrest := ih h.right hi
      rwa [henc, Nat.add_assoc, Nat.add_comm k, ← Nat.succ_mul] at hrest

end Where

end Buffers

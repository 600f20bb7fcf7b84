/-
**Byte formats read by a cursor.**

A decoder takes bytes from the front of its input and leaves the rest.  Two properties relate a
decoder to the format it reads.

Main results:

* `Wire.leValue_leBytes`, `Wire.leBytes_leValue` — numbers and their bytes;
* `Wire.Reads.bind`, `Wire.Reads.many` — what is written can be read;
* `Wire.Sound.bind`, `Wire.Sound.many` — what is read was written.
-/

import Mathlib.Data.List.Basic
import Mathlib.Tactic.Ring

namespace Wire

open List

abbrev Bytes := List UInt8

/-! ### Little-endian numbers -/

/-- The `w` low bytes of `n`, lowest first. -/
def leBytes : ℕ → ℕ → Bytes
  | 0, _ => []
  | w + 1, n => UInt8.ofNat n :: leBytes w (n / 256)

def leValue : Bytes → ℕ
  | [] => 0
  | b :: bs => b.toNat + 256 * leValue bs

@[simp] theorem length_leBytes (w n : ℕ) : (leBytes w n).length = w := by
  induction w generalizing n with
  | zero => rfl
  | succ w ih => simp [leBytes, ih]

theorem leValue_leBytes {w n : ℕ} (h : n < 256 ^ w) : leValue (leBytes w n) = n := by
  induction w generalizing n with
  | zero =>
    simp at h
    simp [leBytes, leValue, h]
  | succ w ih =>
    have hdiv : n / 256 < 256 ^ w := by
      rw [Nat.div_lt_iff_lt_mul (by omega)]
      rw [Nat.pow_succ] at h
      omega
    simp only [leBytes, leValue, ih hdiv, UInt8.toNat_ofNat']
    omega

theorem leValue_lt (bs : Bytes) : leValue bs < 256 ^ bs.length := by
  induction bs with
  | nil => simp [leValue]
  | cons b bs ih =>
    have hb := b.toNat_lt
    simp only [leValue, length_cons, Nat.pow_succ]
    omega

theorem leBytes_leValue (bs : Bytes) : leBytes bs.length (leValue bs) = bs := by
  induction bs with
  | nil => rfl
  | cons b bs ih =>
    have hb := b.toNat_lt
    have hlow : UInt8.ofNat (b.toNat + 256 * leValue bs) = b := by
      apply UInt8.toNat_inj.mp
      rw [UInt8.toNat_ofNat']
      omega
    have hhigh : (b.toNat + 256 * leValue bs) / 256 = leValue bs := by omega
    simp only [length_cons, leValue, leBytes, hlow, hhigh, ih]

theorem leBytes_leValue_of_length {bs : Bytes} {w : ℕ} (h : bs.length = w) : leBytes w (leValue bs) = bs := by
  subst h
  exact leBytes_leValue bs

/-! ### Decoders -/

variable {E α β : Type}

abbrev Decoder (E α : Type) := StateT Bytes (Except E) α

/-- The next `n` bytes. -/
def take (e : E) (n : ℕ) : Decoder E Bytes := fun input =>
  if n ≤ input.length then .ok (input.take n, input.drop n) else .error e

/-- `n` values, one after another. -/
def many : ℕ → Decoder E α → Decoder E (List α)
  | 0, _ => pure []
  | n + 1, d => do
      let a ← d
      let as ← many n d
      pure (a :: as)

/-- In front of any rest, the bytes `b` are read as `a`. -/
def Reads (d : Decoder E α) (a : α) (b : Bytes) : Prop := ∀ rest, d (b ++ rest) = .ok (a, rest)

/-- The bytes that are taken for a value `a` satisfy `P a`. -/
def Sound (d : Decoder E α) (P : α → Bytes → Prop) : Prop :=
  ∀ input a rest, d input = .ok (a, rest) → ∃ b, input = b ++ rest ∧ P a b

theorem bind_run (d : Decoder E α) (k : α → Decoder E β) (input : Bytes) :
    (d >>= k) input = (d input).bind fun r => k r.1 r.2 := rfl

theorem Reads.pure (a : α) : Reads (pure a : Decoder E α) a [] := fun _ => rfl

variable {d : Decoder E α}

theorem Reads.bind {k : α → Decoder E β} {a : α} {c : β} {b b' : Bytes} (hd : Reads d a b)
    (hk : Reads (k a) c b') : Reads (d >>= k) c (b ++ b') := by
  intro rest
  rw [bind_run, append_assoc, hd]
  exact hk rest

theorem Reads.bind_pure {a : α} {b : Bytes} (hd : Reads d a b) (f : α → β) :
    Reads (d >>= fun a => Pure.pure (f a)) (f a) b := by
  have hread := hd.bind (k := fun a => Pure.pure (f a)) (Reads.pure (f a))
  rw [append_nil] at hread
  exact hread

theorem Reads.take (e : E) (b : Bytes) : Reads (take e b.length) b b := by
  intro rest
  simp [Wire.take]

theorem Reads.many {enc : α → Bytes} {as : List α}
    (h : ∀ a ∈ as, Reads d a (enc a)) : Reads (many as.length d) as (as.flatMap enc) := by
  induction as with
  | nil => exact .pure []
  | cons a as ih =>
    have htail := ih fun x hx => h x (.tail _ hx)
    have hcons : Reads (Wire.many (as.length + 1) d) (a :: as)
        (enc a ++ (as.flatMap enc ++ [])) :=
      (h a (.head _)).bind (htail.bind (Reads.pure (a :: as)))
    rw [append_nil] at hcons
    exact hcons

theorem Sound.pure (a : α) : Sound (pure a : Decoder E α) fun x b => x = a ∧ b = [] := by
  intro input x rest h
  cases h
  exact ⟨[], rfl, rfl, rfl⟩

theorem Sound.bind {k : α → Decoder E β} {P : α → Bytes → Prop} {Q : α → β → Bytes → Prop}
    (hd : Sound d P) (hk : ∀ a, Sound (k a) (Q a)) :
    Sound (d >>= k) fun c b => ∃ a b₁ b₂, b = b₁ ++ b₂ ∧ P a b₁ ∧ Q a c b₂ := by
  intro input c rest h
  rw [bind_run] at h
  cases hr : d input with
  | error e =>
    rw [hr] at h
    cases h
  | ok r =>
    rw [hr] at h
    obtain ⟨b₁, rfl, hP⟩ := hd input r.1 r.2 hr
    obtain ⟨b₂, hrest, hQ⟩ := hk r.1 r.2 c rest h
    exact ⟨b₁ ++ b₂, by rw [hrest, append_assoc], r.1, b₁, b₂, rfl, hP, hQ⟩

theorem Sound.mono {P Q : α → Bytes → Prop} (h : Sound d P) (hPQ : ∀ a b, P a b → Q a b) : Sound d Q := by
  intro input a rest hr
  obtain ⟨b, hb, hP⟩ := h input a rest hr
  exact ⟨b, hb, hPQ a b hP⟩

theorem Sound.throw (e : E) (P : α → Bytes → Prop) : Sound (throw e : Decoder E α) P := by
  intro input a rest h
  cases h

theorem Sound.take (e : E) (n : ℕ) : Sound (take e n) fun a b => b = a ∧ a.length = n := by
  intro input a rest h
  simp only [Wire.take] at h
  split at h
  · rename_i hn
    cases h
    exact ⟨input.take n, (take_append_drop n input).symm, rfl, length_take_of_le hn⟩
  · cases h

theorem Sound.many {P : α → Prop} {enc : α → Bytes} (h : Sound d fun a b => b = enc a ∧ P a) (n : ℕ) :
    Sound (many n d) fun as b => b = as.flatMap enc ∧ as.length = n ∧ ∀ a ∈ as, P a := by
  induction n with
  | zero =>
    refine (Sound.pure []).mono ?_
    rintro as b ⟨rfl, rfl⟩
    exact ⟨rfl, rfl, by simp⟩
  | succ n ih =>
    refine (h.bind fun a => ih.bind fun as => Sound.pure (a :: as)).mono ?_
    rintro c b ⟨a, b₁, b₂, rfl, ⟨rfl, ha⟩, as, b₃, b₄, rfl, ⟨rfl, hlen, has⟩, rfl, rfl⟩
    exact ⟨by simp, by simp [hlen], forall_mem_cons.mpr ⟨ha, has⟩⟩

end Wire

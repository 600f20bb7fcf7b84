/-
**Columns of several types under one type.**

A column that several tables have is read under one type.  Where all of them agree the values stay
as they are; where they differ and all of them are numbers the values become doubles; otherwise they
become texts.
-/

import Mathlib.Tactic

namespace CrossDb

abbrev Text := List Char

/-! ### Types and values -/

/-- The types of Arrow that `is_numeric` names, the texts, and the others by their name. -/
inductive DataType where
  | int8
  | int16
  | int32
  | int64
  | uint8
  | uint16
  | uint32
  | uint64
  | float16
  | float32
  | float64
  | decimal128 (precision : ℕ) (scale : ℤ)
  | decimal256 (precision : ℕ) (scale : ℤ)
  | utf8
  | other (name : Text)
  deriving DecidableEq

def DataType.isNumeric : DataType → Bool
  | .utf8 => false
  | .other _ => false
  | _ => true

def DataType.range : DataType → Option (ℤ × ℤ)
  | .int8 => some (-2 ^ 7, 2 ^ 7 - 1)
  | .int16 => some (-2 ^ 15, 2 ^ 15 - 1)
  | .int32 => some (-2 ^ 31, 2 ^ 31 - 1)
  | .int64 => some (-2 ^ 63, 2 ^ 63 - 1)
  | .uint8 => some (0, 2 ^ 8 - 1)
  | .uint16 => some (0, 2 ^ 16 - 1)
  | .uint32 => some (0, 2 ^ 32 - 1)
  | .uint64 => some (0, 2 ^ 64 - 1)
  | _ => none

inductive Number where
  | finite (q : ℚ)
  | infinite (negative : Bool)
  | nan
  deriving DecidableEq

/-- What a cell holds; `F` are the floats, and a value of another type is its bytes. -/
inductive Value (F : Type) where
  | null
  | int (n : ℤ)
  | float (x : F)
  | decimal (unscaled scale : ℤ)
  | text (s : Text)
  | other (bytes : Text)
  deriving DecidableEq

def Value.HasType {F : Type} : Value F → DataType → Prop
  | .null, _ => True
  | .int n, t => ∃ b ∈ t.range, b.1 ≤ n ∧ n ≤ b.2
  | .float _, t => t = .float16 ∨ t = .float32 ∨ t = .float64
  | .decimal u s, t => ∃ p, (t = .decimal128 p s ∨ t = .decimal256 p s) ∧ u.natAbs < 10 ^ p
  | .text _, t => t = .utf8
  | .other _, t => ∃ name, t = .other name

/-! ### Integers as doubles -/

/-- The natural number nearest to `m` among those with fifty-three significant bits, the even one of
two that are as near. -/
def f64OfNat (m : ℕ) : ℕ :=
  let e := Nat.log2 m - 52
  let q := m / 2 ^ e
  let r := m % 2 ^ e
  if 2 * r > 2 ^ e ∨ (2 * r = 2 ^ e ∧ q % 2 = 1) then (q + 1) * 2 ^ e else q * 2 ^ e

/-- The integer that `n as f64` stands for. -/
def f64OfInt (n : ℤ) : ℤ := if n < 0 then -(f64OfNat n.natAbs : ℤ) else f64OfNat n.natAbs

theorem f64OfNat_eq {m : ℕ} (h : m ≤ 2 ^ 53) : f64OfNat m = m := by
  rcases h.lt_or_eq with hlt | rfl
  · have he : Nat.log2 m - 52 = 0 := by
      rcases Nat.eq_zero_or_pos m with rfl | hpos
      · decide
      · have := (Nat.log2_lt hpos.ne').2 hlt
        omega
    simp [f64OfNat, he, Nat.mod_one]
  · decide

theorem f64OfInt_eq {n : ℤ} (h : n.natAbs ≤ 2 ^ 53) : f64OfInt n = n := by
  unfold f64OfInt
  rw [f64OfNat_eq h]
  split <;> omega

example : f64OfInt (2 ^ 53 + 1) = 2 ^ 53 := by decide

/-! ### Texts of integers -/

def intText (n : ℤ) : Text :=
  if n < 0 then '-' :: Nat.toDigits 10 n.natAbs else Nat.toDigits 10 n.natAbs

theorem toDigits_injective {m n : ℕ} (h : Nat.toDigits 10 m = Nat.toDigits 10 n) : m = n := by
  rw [← Nat.ofDigitChars_ten_toDigits (n := m), h, Nat.ofDigitChars_ten_toDigits]

theorem toDigits_ne_minus {m : ℕ} {cs : Text} : Nat.toDigits 10 m ≠ '-' :: cs := by
  intro h
  have hminus : '-' ∈ Nat.toDigits 10 m := by simp [h]
  have hdigit := Nat.isDigit_of_mem_toDigits (b := 10) (by decide) (by decide) hminus
  exact absurd hdigit (by decide)

theorem intText_injective : Function.Injective intText := by
  intro m n h
  unfold intText at h
  split at h <;> split at h
  · have := toDigits_injective (List.cons.inj h).2
    omega
  · exact absurd h.symm toDigits_ne_minus
  · exact absurd h toDigits_ne_minus
  · have := toDigits_injective h
    omega

/-! ### Casts -/

/-- The casts of the query engine: which number a float is, what becomes of an integer and of a
decimal under `CAST(… AS DOUBLE)`, and the texts of what is neither an integer nor a text.  A cast to
a text that the engine does not know is refused when a query is planned. -/
structure Casts (F : Type) where
  number : F → Number
  ofInt : ℤ → F
  ofDecimal : ℤ → ℤ → F
  textOfFloat : DataType → F → Text
  textOfDecimal : ℤ → ℤ → Text
  textOfOther : DataType → Text → Text
  castable : DataType → Bool
  number_ofInt : ∀ n, number (ofInt n) = .finite (f64OfInt n)

variable {F : Type} (casts : Casts F)

/-- `CAST(… AS DOUBLE)`, of a number. -/
def castDouble : Value F → Value F
  | .int n => .float (casts.ofInt n)
  | .decimal u s => .float (casts.ofDecimal u s)
  | v => v

def textOf (t : DataType) : Value F → Option Text
  | .null => none
  | .int n => some (intText n)
  | .float x => some (casts.textOfFloat t x)
  | .decimal u s => some (casts.textOfDecimal u s)
  | .text s => some s
  | .other bytes => some (casts.textOfOther t bytes)

/-- `CAST(… AS VARCHAR)`. -/
def castVarchar (t : DataType) (v : Value F) : Value F :=
  match textOf casts t v with
  | none => .null
  | some s => .text s

/-! ### The plan of a column -/

inductive ColPlan where
  | keep
  | castDouble
  | castVarchar
  deriving DecidableEq

/-- `reconcile`, of the types that the column has where it is present. -/
def reconcile : List DataType → ColPlan
  | [] => .keep
  | first :: types =>
    if (first :: types).all (· = first) then .keep
    else if (first :: types).all DataType.isNumeric then .castDouble
    else .castVarchar

def ColPlan.cast (plan : ColPlan) (t : DataType) (v : Value F) : Value F :=
  match plan with
  | .keep => v
  | .castDouble => CrossDb.castDouble casts v
  | .castVarchar => CrossDb.castVarchar casts t v

theorem reconcile_cons (first : DataType) (types : List DataType) : reconcile (first :: types) =
      if (first :: types).all (· = first) then .keep
      else if (first :: types).all DataType.isNumeric then .castDouble
      else .castVarchar := rfl

theorem reconcile_eq_keep_iff {types : List DataType} :
    reconcile types = .keep ↔ ∀ t ∈ types, ∀ u ∈ types, t = u := by
  cases types with
  | nil => simp [reconcile]
  | cons first types =>
    have hall : ((first :: types).all (· = first)) = true ↔ ∀ t ∈ first :: types, ∀ u ∈ first :: types, t = u := by
      simp only [List.all_eq_true, decide_eq_true_eq]
      constructor
      · intro h t ht u hu
        rw [h t ht, h u hu]
      · intro h t ht
        exact h t ht first (List.mem_cons_self ..)
    rw [← hall, reconcile_cons]
    split_ifs with h hnum
    · simp only [h]
    · simp only [h, Bool.false_eq_true]
    · simp only [h, Bool.false_eq_true]

theorem reconcile_eq_castDouble_iff {types : List DataType} :
    reconcile types = .castDouble ↔ reconcile types ≠ .keep ∧ ∀ t ∈ types, t.isNumeric = true := by
  cases types with
  | nil => simp [reconcile]
  | cons first types =>
    have hall : ((first :: types).all DataType.isNumeric) = true ↔
        ∀ t ∈ first :: types, t.isNumeric = true := List.all_eq_true
    rw [← hall, reconcile_cons]
    split_ifs with h hnum
    · simp only [ne_eq, not_true_eq_false, false_and]
    · simp only [hnum, ne_eq, reduceCtorEq, not_false_eq_true, and_self]
    · simp only [hnum, Bool.false_eq_true, and_false]

/-! ### Equality -/

def Value.number : Value F → Option Number
  | .int n => some (.finite n)
  | .float x => some (casts.number x)
  | .decimal u s => some (.finite (u / 10 ^ s))
  | _ => none

def Value.Same (v w : Value F) : Prop :=
  match v.number casts, w.number casts with
  | some a, some b => a = b
  | _, _ => v = w

def Value.IsDouble : Value F → Prop
  | .null => True
  | .int n => f64OfInt n = n
  | .float _ => True
  | .decimal u s => casts.number (casts.ofDecimal u s) = .finite (u / 10 ^ s)
  | _ => False

def TextFaithful (t : DataType) : Prop :=
  ∀ v w : Value F, v.HasType t → w.HasType t → textOf casts t v = textOf casts t w → v = w

variable {casts}

theorem isDouble_int {n : ℤ} (h : n.natAbs ≤ 2 ^ 53) : (Value.int n : Value F).IsDouble casts := f64OfInt_eq h

variable {v : Value F}

theorem number_castDouble (h : v.IsDouble casts) : (castDouble casts v).number casts = v.number casts := by
  cases v with
  | int n =>
    have hn : f64OfInt n = n := h
    simp [castDouble, Value.number, casts.number_ofInt, hn]
  | decimal u s => exact congrArg some h
  | _ => rfl

theorem castDouble_eq_null_iff : castDouble casts v = .null ↔ v = .null := by
  cases v <;> simp [castDouble]

theorem number_eq_none_iff (h : v.IsDouble casts) : v.number casts = none ↔ v = .null := by
  cases v with
  | text s | other bytes => exact h.elim
  | _ => simp [Value.number]

theorem isDouble_castDouble (h : v.IsDouble casts) : (castDouble casts v).IsDouble casts := by
  cases v with
  | text s | other bytes => exact h.elim
  | _ => exact True.intro

variable {w : Value F}

theorem same_iff_number (hv : v.IsDouble casts) (hw : w.IsDouble casts) :
    v.Same casts w ↔ v.number casts = w.number casts := by
  unfold Value.Same
  cases hnv : v.number casts with
  | none =>
    cases hnw : w.number casts with
    | none =>
      rw [(number_eq_none_iff hv).1 hnv, (number_eq_none_iff hw).1 hnw]
      simp
    | some b =>
      rw [(number_eq_none_iff hv).1 hnv]
      have hne : w ≠ .null := fun h => by simp [h, Value.number] at hnw
      simpa using hne.symm
  | some a =>
    cases hnw : w.number casts with
    | none =>
      rw [(number_eq_none_iff hw).1 hnw]
      have hne : v ≠ .null := fun h => by simp [h, Value.number] at hnv
      simpa using hne
    | some b => simp

def SameStored (casts : Casts F) (plan : ColPlan) (t : DataType) (v : Value F) (u : DataType) (w : Value F) : Prop :=
  match plan with
  | .castVarchar => textOf casts t v = textOf casts u w
  | _ => v.Same casts w

def Comparable (casts : Casts F) (plan : ColPlan) (v : Value F) : Prop := plan = .castDouble → v.IsDouble casts

variable {t : DataType}

/-- **What a cast does to equality.**  Values that are kept are compared as they are stored, doubles as
the numbers that were stored, and texts as the texts of what was stored. -/
theorem same_cast_iff {plan : ColPlan} {u : DataType} (hv : Comparable casts plan v)
    (hw : Comparable casts plan w) :
    (plan.cast casts t v).Same casts (plan.cast casts u w) ↔ SameStored casts plan t v u w := by
  cases plan with
  | keep => exact Iff.rfl
  | castDouble =>
    have hv' := hv rfl
    have hw' := hw rfl
    change (castDouble casts v).Same casts (castDouble casts w) ↔ v.Same casts w
    rw [same_iff_number (isDouble_castDouble hv') (isDouble_castDouble hw'),
      same_iff_number hv' hw', number_castDouble hv', number_castDouble hw']
  | castVarchar =>
    change (castVarchar casts t v).Same casts (castVarchar casts u w) ↔ textOf casts t v = textOf casts u w
    unfold castVarchar
    cases textOf casts t v <;> cases textOf casts u w <;> simp [Value.Same, Value.number]

/-! ### Telling values from their casts -/

def Recoverable (casts : Casts F) (plan : ColPlan) (t : DataType) (v : Value F) : Prop :=
  match plan with
  | .keep => True
  | .castDouble => v.IsDouble casts
  | .castVarchar => TextFaithful casts t

theorem textFaithful_utf8 : TextFaithful casts .utf8 := by
  intro v w hv hw h
  cases v with
  | null =>
    cases w with
    | null => rfl
    | _ => cases h
  | text s =>
    cases w with
    | text r => exact congrArg Value.text (Option.some.inj h)
    | null => cases h
    | int n => simp [Value.HasType, DataType.range] at hw
    | float x | decimal u s | other bytes => simp [Value.HasType] at hw
  | int n => simp [Value.HasType, DataType.range] at hv
  | float x | decimal u s | other bytes => simp [Value.HasType] at hv

theorem int_of_hasType {b : ℤ × ℤ} (ht : t.range = some b)
    (hv : v.HasType t) : v = .null ∨ ∃ n, v = .int n := by
  cases v with
  | null => exact .inl rfl
  | int n => exact .inr ⟨n, rfl⟩
  | float x => rcases hv with rfl | rfl | rfl <;> cases ht
  | decimal u s => obtain ⟨p, rfl | rfl, -⟩ := hv <;> cases ht
  | text s =>
    cases hv
    cases ht
  | other bytes =>
    obtain ⟨name, rfl⟩ := hv
    cases ht

theorem textFaithful_int {b : ℤ × ℤ} (ht : t.range = some b) : TextFaithful casts t := by
  intro v w hv hw h
  rcases int_of_hasType ht hv with rfl | ⟨m, rfl⟩
  · rcases int_of_hasType ht hw with rfl | ⟨n, rfl⟩
    · rfl
    · cases h
  · rcases int_of_hasType ht hw with rfl | ⟨n, rfl⟩
    · cases h
    · rw [intText_injective (Option.some.inj h)]

theorem castVarchar_injective {u : DataType}
    (h : castVarchar casts t v = castVarchar casts u w) : textOf casts t v = textOf casts u w := by
  unfold castVarchar at h
  cases hv : textOf casts t v <;> cases hw : textOf casts u w <;> simp [hv, hw] at h ⊢
  exact h

theorem eq_of_castDouble_eq (hv : v.HasType t) (hw : w.HasType t) (hdv : v.IsDouble casts)
    (hdw : w.IsDouble casts) (h : castDouble casts v = castDouble casts w) : v = w := by
  have hnum : v.number casts = w.number casts := by
    rw [← number_castDouble hdv, ← number_castDouble hdw, h]
  cases v with
  | null => exact (castDouble_eq_null_iff.1 h.symm).symm
  | text s | other bytes => exact hdv.elim
  | int m =>
    obtain ⟨b, hb, -⟩ := hv
    rcases int_of_hasType hb hw with rfl | ⟨n, rfl⟩
    · cases h
    · simpa [Value.number] using hnum
  | float x =>
    cases w with
    | float y => exact h
    | null => cases h
    | int n =>
      obtain ⟨b, hb, -⟩ := hw
      rcases hv with rfl | rfl | rfl <;> cases hb
    | decimal u s =>
      obtain ⟨p, hp, -⟩ := hw
      rcases hv with rfl | rfl | rfl <;> rcases hp with hp | hp <;> cases hp
    | text s | other bytes => exact hdw.elim
  | decimal u s =>
    obtain ⟨p, hp, -⟩ := hv
    cases w with
    | null => cases h
    | text r | other bytes => exact hdw.elim
    | int n =>
      obtain ⟨b, hb, -⟩ := hw
      rcases hp with rfl | rfl <;> cases hb
    | float y => rcases hw with rfl | rfl | rfl <;> rcases hp with hp | hp <;> cases hp
    | decimal u' s' =>
      obtain ⟨p', hp', -⟩ := hw
      have hs : s = s' := by
        rcases hp with rfl | rfl <;> rcases hp' with hp' | hp' <;> cases hp' <;> rfl
      subst hs
      have hten : (10 : ℚ) ^ s ≠ 0 := zpow_ne_zero s (by norm_num)
      have hu : (u : ℚ) / 10 ^ s = u' / 10 ^ s := by simpa [Value.number] using hnum
      have huu : (u : ℚ) = u' := (div_left_inj' hten).1 hu
      rw [Int.cast_injective huu]

theorem eq_of_cast_eq {plan : ColPlan} (hv : v.HasType t) (hw : w.HasType t)
    (hrv : Recoverable casts plan t v) (hrw : Recoverable casts plan t w)
    (h : plan.cast casts t v = plan.cast casts t w) : v = w := by
  cases plan with
  | keep => exact h
  | castDouble => exact eq_of_castDouble_eq hv hw hrv hrw h
  | castVarchar => exact hrv v w hv hw (castVarchar_injective h)

theorem exists_recover (casts : Casts F) (plan : ColPlan) (t : DataType) :
    ∃ recover : Value F → Value F, ∀ v : Value F, v.HasType t → Recoverable casts plan t v →
      recover (plan.cast casts t v) = v := by
  have : Nonempty (Value F) := ⟨.null⟩
  let stored : Set (Value F) := {v | v.HasType t ∧ Recoverable casts plan t v}
  have hinj : Set.InjOn (plan.cast casts t) stored := fun v hv w hw h =>
    eq_of_cast_eq hv.1 hw.1 hv.2 hw.2 h
  refine ⟨Function.invFunOn (plan.cast casts t) stored, fun v hv hr => ?_⟩
  exact hinj.leftInvOn_invFunOn ⟨hv, hr⟩

end CrossDb

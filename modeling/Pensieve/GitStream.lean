/-
**The stream of `git fast-import`.**

An export commits its files by one stream: a header with the message, `deleteall`, and for each file
a line with its path and a block with its bytes.
-/

import Mathlib.Tactic

namespace GitStream

open List

abbrev Bytes := List UInt8

def ascii (s : String) : Bytes := s.toList.map fun c => .ofNat c.toNat

def LF : UInt8 := 10

/-- `"` -/
def quote : UInt8 := 34

/-- `\` -/
def backslash : UInt8 := 92

/-! ### The stream -/

structure VaultFile where
  path : Bytes
  bytes : Bytes
  deriving DecidableEq

def Name := { name : Bytes // LF ∉ name }

def decimal (n : ℕ) : Bytes := (Nat.toDigits 10 n).map fun c => .ofNat c.toNat

def signed (i : ℤ) : Bytes := if i < 0 then 45 :: decimal i.natAbs else decimal i.natAbs

/-- `data <count>` and the bytes. -/
def block (raw : Bytes) : Bytes := ascii "data " ++ decimal raw.length ++ LF :: raw

def entry (f : VaultFile) : Bytes := ascii "M 100644 inline " ++ f.path ++ LF :: block f.bytes ++ [LF]

def committer (authorDateUnix : ℤ) : Bytes :=
  ascii "pensieve-brain <brain@pensieve.local> " ++ signed authorDateUnix ++ ascii " +0000"

def fromLine : Option Name → Bytes
  | some p => ascii "from " ++ p.1 ++ [LF]
  | none => []

/-- The stream of `fast_import_commit`. -/
def stream (branch : Name) (files : List VaultFile) (parent : Option Name) (message : Bytes)
    (authorDateUnix : ℤ) : Bytes :=
  ascii "commit " ++ (ascii "refs/heads/" ++ branch.1) ++ LF ::
    (ascii "committer " ++ committer authorDateUnix ++ LF ::
      (block (message ++ [LF]) ++
        (fromLine parent ++ (ascii "deleteall" ++ LF :: (files.flatMap entry ++ (ascii "done" ++ [LF]))))))

/-! ### The grammar -/

def expect (p s : Bytes) : Option Bytes := if p <+: s then some (s.drop p.length) else none

def line (s : Bytes) : Option (Bytes × Bytes) :=
  match s.dropWhile (· ≠ LF) with
  | [] => none
  | _ :: rest => some (s.takeWhile (· ≠ LF), rest)

def readDecimal (s : Bytes) : Option ℕ :=
  let cs := s.map fun b => Char.ofNat b.toNat
  if cs ≠ [] ∧ cs.all Char.isDigit then some (Nat.ofDigitChars 10 cs 0) else none

def skipLf : Bytes → Bytes
  | b :: rest => if b = LF then rest else b :: rest
  | [] => []

def readBlock (s : Bytes) : Option (Bytes × Bytes) :=
  (expect (ascii "data ") s).bind fun s => (line s).bind fun out => (readDecimal out.1).bind fun n =>
    if n ≤ out.2.length then some (out.2.take n, skipLf (out.2.drop n)) else none

def escaped : UInt8 → Option UInt8
  | 97 => some 7
  | 98 => some 8
  | 102 => some 12
  | 110 => some 10
  | 114 => some 13
  | 116 => some 9
  | 118 => some 11
  | 34 => some 34
  | 92 => some 92
  | _ => none

def octal (a b c : UInt8) : Option UInt8 :=
  if 48 ≤ a ∧ a ≤ 51 ∧ 48 ≤ b ∧ b ≤ 55 ∧ 48 ≤ c ∧ c ≤ 55 then some ((a - 48) * 64 + (b - 48) * 8 + (c - 48))
  else none

def unquote : Bytes → Option (Bytes × Bytes)
  | [] => none
  | b :: rest =>
    if b = quote then some ([], rest)
    else if b = backslash then
      match rest with
      | [] => none
      | a :: rest =>
        match escaped a, rest with
        | some e, rest => (unquote rest).map fun out => (e :: out.1, out.2)
        | none, b :: c :: rest => (octal a b c).bind fun e => (unquote rest).map fun out => (e :: out.1, out.2)
        | none, _ => none
    else (unquote rest).map fun out => (b :: out.1, out.2)

def readPath (l : Bytes) : Option Bytes :=
  match l with
  | [] => some []
  | b :: rest =>
    if b = quote then (unquote rest).bind fun out => if out.2 = [] then some out.1 else none
    else some (b :: rest)

/-- The files that are set, up to `done`. -/
def readFiles : ℕ → Bytes → Option (List VaultFile)
  | 0, _ => none
  | fuel + 1, s =>
    if (expect (ascii "done" ++ [LF]) s).isSome then some []
    else
      (expect (ascii "M 100644 inline ") s).bind fun s => (line s).bind fun out =>
        (readPath out.1).bind fun path => (readBlock out.2).bind fun out =>
          (readFiles fuel out.2).map (⟨path, out.1⟩ :: ·)

structure Commit where
  ref : Bytes
  committer : Bytes
  message : Bytes
  parent : Option Bytes
  files : List VaultFile
  deriving DecidableEq

def readFrom (s : Bytes) : Option (Option Bytes × Bytes) :=
  match expect (ascii "from ") s with
  | some s => (line s).map fun out => (some out.1, out.2)
  | none => some (none, s)

def decode (s : Bytes) : Option Commit :=
  (expect (ascii "commit ") s).bind fun s => (line s).bind fun ref =>
    (expect (ascii "committer ") ref.2).bind fun s => (line s).bind fun committer =>
      (readBlock committer.2).bind fun message => (readFrom message.2).bind fun parent =>
        (expect (ascii "deleteall" ++ [LF]) parent.2).bind fun s =>
          (readFiles s.length s).map fun files => ⟨ref.1, committer.1, message.1, parent.1, files⟩

/-! ### Reading what was written -/

@[simp] theorem expect_append (p s : Bytes) : expect p (p ++ s) = some s := by
  rw [expect, if_pos (prefix_append p s), drop_left]

theorem line_append {l : Bytes} (h : LF ∉ l) (rest : Bytes) : line (l ++ LF :: rest) = some (l, rest) := by
  have hne : ∀ b ∈ l, decide (b ≠ LF) = true := fun b hb => decide_eq_true fun heq => h (heq ▸ hb)
  rw [line, dropWhile_append_of_pos hne, takeWhile_append_of_pos hne]
  simp

theorem digit_toNat {n : ℕ} {c : Char} (h : c ∈ Nat.toDigits 10 n) : 48 ≤ c.toNat ∧ c.toNat < 58 := by
  have hd := Nat.isDigit_of_mem_toDigits (by decide) (by decide) h
  simp only [Char.isDigit, Bool.and_eq_true, decide_eq_true_eq, ge_iff_le, UInt32.le_iff_toNat_le] at hd
  exact ⟨hd.1, Nat.lt_succ_of_le hd.2⟩

theorem readDecimal_decimal (n : ℕ) : readDecimal (decimal n) = some n := by
  have hback : (decimal n).map (fun b => Char.ofNat b.toNat) = Nat.toDigits 10 n := by
    rw [decimal, map_map]
    refine (map_congr_left fun c hc => ?_).trans (map_id _)
    have hsmall : c.toNat < 256 := (digit_toNat hc).2.trans (by decide)
    rw [Function.comp_apply, UInt8.toNat_ofNat', Nat.mod_eq_of_lt hsmall, Char.ofNat_toNat]
    rfl
  have hdigits : (Nat.toDigits 10 n).all Char.isDigit :=
    all_eq_true.2 fun c hc => Nat.isDigit_of_mem_toDigits (by decide) (by decide) hc
  rw [readDecimal, hback, if_pos ⟨Nat.toDigits_ne_nil, hdigits⟩, Nat.ofDigitChars_ten_toDigits]

theorem notMem_decimal (n : ℕ) : LF ∉ decimal n := by
  intro h
  obtain ⟨c, hc, heq⟩ := mem_map.1 h
  obtain ⟨hlow, hhigh⟩ := digit_toNat hc
  have hval := congrArg UInt8.toNat heq
  rw [UInt8.toNat_ofNat', Nat.mod_eq_of_lt (hhigh.trans (by decide))] at hval
  exact absurd (hval ▸ hlow) (by decide)

theorem notMem_committer (date : ℤ) : LF ∉ committer date := by
  have hsigned : LF ∉ signed date := by
    unfold signed
    split
    · exact not_mem_cons_of_ne_of_not_mem (by decide) (notMem_decimal _)
    · exact notMem_decimal _
  simp only [committer, mem_append, not_or]
  exact ⟨⟨by decide, hsigned⟩, by decide⟩

theorem readBlock_block (raw s : Bytes) : readBlock (block raw ++ s) = some (raw, skipLf s) := by
  rw [block, append_assoc, append_assoc, readBlock, expect_append, Option.bind_some, cons_append,
    line_append (notMem_decimal _), Option.bind_some, readDecimal_decimal, Option.bind_some, length_append,
    if_pos (Nat.le_add_right _ _), take_left, drop_left]

theorem unquote_length {s : Bytes} {out : Bytes × Bytes} (h : unquote s = some out) :
    out.1.length + out.2.length < s.length := by
  fun_induction unquote s generalizing out with
  | case1 | case3 | case6 => cases h
  | case2 =>
    cases h
    simp
  | case4 | case7 =>
    rename_i ih
    obtain ⟨o, ho, rfl⟩ := Option.map_eq_some_iff.1 h
    have := ih ho
    simp only [length_cons]
    omega
  | case5 =>
    rename_i ih
    obtain ⟨e, -, h⟩ := Option.bind_eq_some_iff.1 h
    obtain ⟨o, ho, rfl⟩ := Option.map_eq_some_iff.1 h
    have := ih ho
    simp only [length_cons]
    omega

theorem readPath_cases {l path : Bytes} (h : readPath l = some path) :
    l.head? ≠ some quote ∧ path = l ∨ path.length < l.length := by
  unfold readPath at h
  split at h
  · cases h
    exact .inl ⟨nofun, rfl⟩
  · rename_i b rest
    split at h
    · obtain ⟨out, hout, h⟩ := Option.bind_eq_some_iff.1 h
      have hlen := unquote_length hout
      split at h
      · cases h
        exact .inr ((Nat.le_add_right _ _).trans_lt (hlen.trans (Nat.lt_succ_self _)))
      · cases h
    · rename_i hb
      cases h
      exact .inl ⟨fun heq => hb (Option.some.inj heq), rfl⟩

def Plain (path : Bytes) : Prop := path.head? ≠ some quote ∧ LF ∉ path

instance (path : Bytes) : Decidable (Plain path) := inferInstanceAs (Decidable (_ ∧ _))

theorem readPath_plain {path : Bytes} (h : path.head? ≠ some quote) : readPath path = some path := by
  cases path with
  | nil => rfl
  | cons b rest =>
    rw [readPath]
    exact if_neg fun hb => h (congrArg some hb)

theorem readFiles_entry (fuel : ℕ) (f : VaultFile) (s : Bytes) :
    (Plain f.path → readFiles (fuel + 1) (entry f ++ s) = (readFiles fuel s).map (f :: ·)) ∧
    (¬ Plain f.path → ∀ g files, readFiles (fuel + 1) (entry f ++ s) = some (g :: files) → g.path ≠ f.path) := by
  have hmark : entry f ++ s = ascii "M 100644 inline " ++ (f.path ++ LF :: (block f.bytes ++ LF :: s)) := by
    simp [entry]
  have hdone : expect (ascii "done" ++ [LF]) (entry f ++ s) = none := by
    rw [hmark, expect]
    exact if_neg fun hp => absurd (cons_prefix_cons.1 hp).1 (by decide)
  have hstep : readFiles (fuel + 1) (entry f ++ s) = (line (f.path ++ LF :: (block f.bytes ++ LF :: s))).bind
      fun out => (readPath out.1).bind fun path => (readBlock out.2).bind fun out =>
        (readFiles fuel out.2).map (⟨path, out.1⟩ :: ·) := by
    rw [readFiles, hdone, hmark, expect_append]
    exact if_neg nofun
  constructor
  · rintro ⟨hquote, hlf⟩
    rw [hstep, line_append hlf, Option.bind_some, readPath_plain hquote, Option.bind_some, readBlock_block]
    rfl
  · intro hplain g files h heq
    rw [hstep] at h
    obtain ⟨⟨l, rest⟩, hline, h⟩ := Option.bind_eq_some_iff.1 h
    obtain ⟨path, hpath, h⟩ := Option.bind_eq_some_iff.1 h
    obtain ⟨out, -, h⟩ := Option.bind_eq_some_iff.1 h
    obtain ⟨files', -, h⟩ := Option.map_eq_some_iff.1 h
    obtain rfl : path = f.path := by
      rw [← heq, ← (List.cons.inj h).1]
    by_cases hlf : LF ∈ f.path
    · -- the line ends within the path
      obtain ⟨pre, post, hsplit, hpre⟩ := eq_append_cons_of_mem hlf
      rw [hsplit, append_assoc, cons_append, line_append hpre] at hline
      cases hline
      have hshort : l.length < f.path.length := by
        rw [hsplit, length_append, length_cons]
        omega
      rcases readPath_cases hpath with ⟨-, hfull⟩ | hlt
      · exact hshort.ne (congrArg List.length hfull.symm)
      · exact lt_irrefl _ (hlt.trans hshort)
    · rw [line_append hlf] at hline
      cases hline
      rcases readPath_cases hpath with ⟨hquote, -⟩ | hlt
      · exact hplain ⟨hquote, hlf⟩
      · exact lt_irrefl _ hlt

theorem readFiles_iff (files : List VaultFile) {fuel : ℕ} (hfuel : files.length < fuel) :
    readFiles fuel (files.flatMap entry ++ (ascii "done" ++ [LF])) = some files ↔ ∀ f ∈ files, Plain f.path := by
  induction files generalizing fuel with
  | nil =>
    obtain ⟨fuel, rfl⟩ := Nat.exists_eq_succ_of_ne_zero hfuel.ne'
    exact iff_of_true rfl nofun
  | cons f files ih =>
    obtain ⟨fuel, rfl⟩ := Nat.exists_eq_succ_of_ne_zero (Nat.zero_lt_of_lt hfuel).ne'
    rw [flatMap_cons, append_assoc, forall_mem_cons]
    obtain ⟨hplain, hother⟩ := readFiles_entry fuel f (files.flatMap entry ++ (ascii "done" ++ [LF]))
    by_cases hf : Plain f.path
    · rw [hplain hf, and_iff_right hf, ← ih (Nat.lt_of_succ_lt_succ hfuel), Option.map_eq_some_iff]
      constructor
      · rintro ⟨files', h, heq⟩
        rwa [(List.cons.inj heq).2] at h
      · exact fun h => ⟨files, h, rfl⟩
    · exact iff_of_false (fun h => hother hf f files h rfl) fun h => hf h.1

theorem decode_stream (branch : Name) (files : List VaultFile) (parent : Option Name) (message : Bytes) (date : ℤ) :
    decode (stream branch files parent message date) = (readFiles (files.flatMap entry ++ (ascii "done" ++ [LF])).length
        (files.flatMap entry ++ (ascii "done" ++ [LF]))).map fun files =>
          ⟨ascii "refs/heads/" ++ branch.1, committer date, message ++ [LF], parent.map Subtype.val, files⟩ := by
  have hbranch : LF ∉ ascii "refs/heads/" ++ branch.1 := by
    rw [mem_append, not_or]
    exact ⟨by decide, branch.2⟩
  have hfrom : ∀ s, readFrom (fromLine parent ++ (ascii "deleteall" ++ LF :: s)) =
      some (parent.map Subtype.val, ascii "deleteall" ++ LF :: s) := by
    intro s
    cases parent with
    | none => rfl
    | some p =>
      rw [readFrom, fromLine, append_assoc, append_assoc, expect_append]
      exact congrArg (Option.map _) (line_append p.2 _)
  have hskip : ∀ s, skipLf (fromLine parent ++ (ascii "deleteall" ++ LF :: s)) =
      fromLine parent ++ (ascii "deleteall" ++ LF :: s) := by
    intro s
    cases parent <;> rfl
  rw [decode, stream, append_assoc, expect_append, Option.bind_some, line_append hbranch, Option.bind_some,
    append_assoc, expect_append, Option.bind_some, line_append (notMem_committer date), Option.bind_some,
    readBlock_block, Option.bind_some, hskip, hfrom, Option.bind_some]
  rfl

end GitStream

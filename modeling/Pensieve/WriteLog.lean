/-
**Logs of writes to named cells.**

A log is the list of all writes, oldest first: each names a cell and gives its new content, `none`
for a deletion.  What a cell holds after the first `n` writes is the content of the last of them
that names the cell.
-/

import Mathlib.Data.List.Basic
import Mathlib.Data.List.TakeDrop

namespace WriteLog

open List

variable {P V : Type} [DecidableEq P]

/-- What the cell `p` holds after all writes of the log. -/
def contents (p : P) (log : List (P × Option V)) : Option V := log.foldl (fun c w => if w.1 = p then w.2 else c) none

theorem contents_concat (p : P) (log : List (P × Option V)) (w : P × Option V) :
    contents p (log ++ [w]) = if w.1 = p then w.2 else contents p log := by
  simp [contents, foldl_append]

theorem contents_take_append (p : P) {log : List (P × Option V)} {n : Nat} (hn : n ≤ log.length)
    (more : List (P × Option V)) : contents p ((log ++ more).take n) = contents p (log.take n) := by
  rw [take_append_of_le_length hn]

theorem exists_write_of_lt {p : P} {log : List (P × Option V)} {k : Nat} {c : Option V}
    (hk : log[k]? = some (p, c)) {n : Nat} (hkn : k < n) (hn : n ≤ log.length) :
    ∃ k', k ≤ k' ∧ k' < n ∧ log[k']? = some (p, contents p (log.take n)) := by
  -- the last of the first `n` writes decides, unless it names another cell
  induction n with
  | zero => omega
  | succ n ih =>
    have hlt : n < log.length := by omega
    rw [take_succ_eq_append_getElem hlt, contents_concat]
    by_cases hp : log[n].1 = p
    · refine ⟨n, by omega, by omega, ?_⟩
      rw [if_pos hp, getElem?_eq_getElem hlt, ← hp]
    · have hne : k ≠ n := by
        rintro rfl
        rw [getElem?_eq_getElem hlt, Option.some.injEq] at hk
        exact hp (by rw [hk])
      obtain ⟨k', h₁, h₂, h₃⟩ := ih (by omega) (by omega)
      refine ⟨k', h₁, by omega, ?_⟩
      rw [if_neg hp]
      exact h₃

end WriteLog

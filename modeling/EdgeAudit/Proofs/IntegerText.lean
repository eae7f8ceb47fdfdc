import EdgeAudit.Number.Literal
import Mathlib.Algebra.Order.Ring.Nat

namespace EdgeAudit

open Number Text

theorem toList_toString_int (n : Int) : (toString n).toList =
    (if n < 0 then ['-'] else []) ++ Nat.toDigits 10 n.natAbs := by
  cases n with
  | ofNat n =>
    show (Nat.repr n).toList = _
    rw [Nat.toList_repr, if_neg (by simp)]
    rfl
  | negSucc n =>
    show ("-" ++ Nat.repr (n + 1)).toList = _
    rw [String.toList_append, Nat.toList_repr, if_pos (Int.negSucc_lt_zero n)]
    rfl

theorem length_toString_int (n : Int) :
    (toString n).length = (if n < 0 then 1 else 0) + (Nat.toDigits 10 n.natAbs).length := by
  rw [← String.length_toList, toList_toString_int, List.length_append]
  split <;> rfl

theorem wholeText?_eq (n : Int) :
    wholeText? n = if n.natAbs < 10 ^ maxWholeDigits then some (toString n) else none := by
  have hlength : (Nat.toDigits 10 n.natAbs).length ≤ maxWholeDigits ↔ n.natAbs < 10 ^ maxWholeDigits :=
    Nat.length_toDigits_le_iff (by decide) (by decide)
  simp only [wholeText?, length_toString_int, Nat.add_sub_cancel_left, ← hlength, ← Nat.not_le, ite_not]

theorem wholeText?_of_lt {n : Int} (h : n.natAbs < 10 ^ maxWholeDigits) : wholeText? n = some (toString n) := by
  rw [wholeText?_eq, if_pos h]

theorem wholeText?_eq_none {n : Int} : wholeText? n = none ↔ 10 ^ maxWholeDigits ≤ n.natAbs := by
  rw [wholeText?_eq]
  split <;> simp <;> omega

theorem mem_toString_nat {n : Nat} {c : Char} (h : c ∈ (toString n).toList) : c.isDigit = true := by
  rw [Nat.toString_eq_repr, Nat.toList_repr] at h
  exact Nat.isDigit_of_mem_toDigits (by decide) (by decide) h

theorem mem_toString_int {n : Int} {c : Char} (h : c ∈ (toString n).toList) : c = '-' ∨ c.isDigit = true := by
  rw [toList_toString_int, List.mem_append] at h
  rcases h with h | h
  · split at h
    · exact .inl (List.mem_singleton.mp h)
    · cases h
  · exact .inr (Nat.isDigit_of_mem_toDigits (by decide) (by decide) h)

theorem not_mem_toString_nat {c : Char} (hdigit : c.isDigit = false) (n : Nat) : c ∉ (toString n).toList := by
  intro h
  rw [mem_toString_nat h] at hdigit
  cases hdigit

theorem not_mem_toString_int {c : Char} (hsign : c ≠ '-') (hdigit : c.isDigit = false) (n : Int) :
    c ∉ (toString n).toList := by
  intro h
  rcases mem_toString_int h with h | h
  · exact hsign h
  · rw [h] at hdigit
    cases hdigit

theorem isBlank_of_isDigit {c : Char} (h : c.isDigit = true) : isBlank c = false := by
  have hdigit : 48 ≤ c.toNat ∧ c.toNat ≤ 57 := by
    simp only [Char.isDigit, Bool.and_eq_true, decide_eq_true_eq] at h
    exact h
  have hranges : ∀ r ∈ blankRanges, r.2 < 48 ∨ 57 < r.1 := by decide
  rw [isBlank, inRanges, List.any_eq_false]
  intro r hr
  have hr := hranges r hr
  simp only [Bool.and_eq_true, decide_eq_true_eq]
  omega

end EdgeAudit

import EdgeAudit.Proofs.LineSkips
import EdgeAudit.Proofs.NumberBounds
import Mathlib.Data.Nat.Digits.Lemmas

namespace EdgeAudit.Listing

open InText Number Text

theorem digit_value {c : Char} (h : c.isDigit = true) :
    (hexValue? c = some (c.toNat - 48) ∧ c.toNat - 48 < 10) ∧ isAsciiBlank c = false ∧
      c ∉ ['_', '-', '+'] := by
  have hascii : c.toNat < 128 := alphanum_ascii (by simp [Char.isAlphanum, h])
  exact ascii_forall (P := fun c => c.isDigit = true → (hexValue? c = some (c.toNat - 48) ∧
    c.toNat - 48 < 10) ∧ isAsciiBlank c = false ∧ c ∉ ['_', '-', '+']) (by decide) hascii h

theorem digits_value {ds : List Char} (h : ∀ c ∈ ds, c.isDigit = true) (hne : ds ≠ []) :
    digitsValue? 10 hexValue? ds = some (Nat.ofDigitChars 10 ds 0) := by
  have hcomm : (fun (acc : Nat) (c : Char) => 10 * acc + (c.toNat - '0'.toNat)) =
      fun acc c => acc * 10 + (c.toNat - 48) := by
    funext acc c
    rw [Nat.mul_comm]
    rfl
  rw [Nat.ofDigitChars_eq_foldl, hcomm]
  exact digitsValue?_foldl (fun c hc => (digit_value (h c hc)).1) hne

theorem normalizeDigits_digits {ds : List Char} (h : ∀ c ∈ ds, c.isDigit = true) :
    normalizeDigits ds = ds := by
  apply normalizeDigits_plain
  · intro c hc
    exact alphanum_ascii (by simp [Char.isAlphanum, h c hc])
  · intro c hc
    exact (digit_value (h c hc)).2.1

theorem filter_digits {ds : List Char} (h : ∀ c ∈ ds, c.isDigit = true) :
    ds.filter (· != '_') = ds := by
  refine List.filter_eq_self.mpr fun c hc => ?_
  have hne := (digit_value (h c hc)).2.2
  simp only [List.mem_cons, not_or] at hne
  simpa using hne.1

theorem splitSign_digits {ds : List Char} (h : ∀ c ∈ ds, c.isDigit = true) :
    splitSign ds = (false, ds) := by
  fun_cases splitSign ds with
  | case1 ds => exact absurd (h '-' (by simp)) (by decide)
  | case2 ds => exact absurd (h '+' (by simp)) (by decide)
  | case3 => rfl

theorem splitBase_digits {ds : List Char} (h : ∀ c ∈ ds, c.isDigit = true) :
    splitBase ds = (10, ds) := by
  fun_cases splitBase ds
  case case7 => rfl
  all_goals
    simp only [List.forall_mem_cons] at h
    exact absurd h.2.1 (by decide)

namespace Decimal

variable (delay : Decimal)

theorem whole_digits :
    whole? delay.digits = some ((Nat.ofDigitChars 10 delay.digits 0 : Nat) : Int) := by
  have hvalue := digits_value delay.plain delay.nonempty
  have hzero : ¬ (delay.digits.head? = some '0' ∧ Nat.ofDigitChars 10 delay.digits 0 ≠ 0) := by
    rintro ⟨hhead, hne⟩
    rw [delay.zero hhead] at hne
    exact hne rfl
  have hshort : ¬ maxWholeDigits < delay.digits.length := by
    have h := delay.short
    omega
  simp [whole?, normalizeDigits_digits delay.plain, splitSign_digits delay.plain,
    splitBase_digits delay.plain, hvalue, hzero, hshort]

theorem parse?_of_filter {literal : List Char} (h : literal.filter (· != '_') = delay.digits) :
    parse? (String.ofList literal) = some (.whole (Nat.ofDigitChars 10 delay.digits 0 : Nat)) := by
  simp [parse?, h, delay.whole_digits]

theorem parse_digits :
    ∃ q text, parse? (String.ofList delay.digits) = some q ∧ q.text? = some text := by
  have hlength : (toString ((Nat.ofDigitChars 10 delay.digits 0 : Nat) : Int)).length ≤
      maxWholeDigits := by
    refine Nat.le_trans ?_ delay.short
    exact Nat.repr_length _ _ (List.length_pos_iff.mpr delay.nonempty)
      (digitsValue?_lt (digits_value delay.plain delay.nonempty))
  refine ⟨_, toString ((Nat.ofDigitChars 10 delay.digits 0 : Nat) : Int),
    delay.parse?_of_filter (filter_digits delay.plain), ?_⟩
  rw [Quantity.text?, wholeText?, if_neg (by omega)]

end Decimal

end EdgeAudit.Listing

import Mathlib
import EdgeAudit.Proofs.IntegerText
import EdgeAudit.Proofs.JsonGrammar
import EdgeAudit.Proofs.ShortestDecimal

namespace EdgeAudit.Number

open Json (Digits FractionText PowerText WholeText)

/-- A text is a number worth as much as the decimal. Its power of ten is that of the decimal, or the last
place is that of tenths. -/
structure Spells (d : Decimal) (whole fraction ds power : List Char) (e : Int) : Prop where
  isWhole : WholeText whole
  isFraction : FractionText fraction ds
  isPower : PowerText power e
  nonempty : fraction ++ power ≠ []
  value : (Nat.ofDigitChars 10 (whole ++ ds) 0 : ℚ) * 10 ^ (e - ds.length) = d.value
  exponent : min (-1) d.exponent ≤ e - ds.length

def Spelled (d : Decimal) (text : String) : Prop :=
  ∃ whole fraction ds power e, Spells d whole fraction ds power e ∧ text.toList = whole ++ (fraction ++ power)

theorem Spells.of_eq {d : Decimal} {whole fraction ds power : List Char} {e : Int} (hwhole : WholeText whole)
    (hfraction : FractionText fraction ds) (hpower : PowerText power e) (hne : fraction ++ power ≠ [])
    (hdigits : Nat.ofDigitChars 10 (whole ++ ds) 0 = d.digits) (hexponent : e - ds.length = d.exponent) :
    Spells d whole fraction ds power e :=
  ⟨hwhole, hfraction, hpower, hne, by rw [hdigits, hexponent, Decimal.value], by omega⟩

section Digits

variable {d : Decimal}

theorem digitText_toList (d : Decimal) : d.digitText.toList = Nat.toDigits 10 d.digits := by
  simp [Decimal.digitText]

theorem digits_toDigits (n : Nat) : Digits (Nat.toDigits 10 n) :=
  ⟨Nat.toDigits_ne_nil, fun _ h => Nat.isDigit_of_mem_toDigits (by decide) (by decide) h⟩

theorem wholeText_toDigits (n : Nat) : WholeText (Nat.toDigits 10 n) := by
  refine ⟨digits_toDigits n, fun h => ?_⟩
  rw [eq_zero_of_head? h]
  rfl

theorem wholeText_of_head {n : Nat} {ds : List Char} (hn : 0 < n) (hdigits : Digits ds)
    (hhead : ds.head? = (Nat.toDigits 10 n).head?) : WholeText ds := by
  refine ⟨hdigits, fun h => ?_⟩
  have := eq_zero_of_head? (hhead ▸ h)
  omega

theorem leading_eq (d : Decimal) : d.leading = d.exponent + (Nat.toDigits 10 d.digits).length - 1 := by
  rw [Decimal.leading, ← String.length_toList, digitText_toList]

theorem spelled_below (l : Layout) (hleading : d.leading + 1 ≤ 0) :
    Spelled d (l.positional d.digitText.toList (d.leading + 1)) := by
  have hds := digits_toDigits d.digits
  refine ⟨['0'], _, List.replicate (-(d.leading + 1)).toNat '0' ++ Nat.toDigits 10 d.digits, [], 0,
    Spells.of_eq (wholeText_toDigits 0) (.point ⟨by simp, ?_⟩) .absent (by simp) ?_ ?_, ?_⟩
  · intro c hc
    obtain hc | hc := List.mem_append.mp hc
    · rw [(List.mem_replicate.mp hc).2]
      rfl
    · exact hds.plain c hc
  · rw [Nat.ofDigitChars_append, Nat.ofDigitChars_append, Nat.ofDigitChars_replicate_zero]
    show Nat.ofDigitChars 10 _ (10 ^ _ * 0) = _
    rw [Nat.mul_zero, Nat.ofDigitChars_ten_toDigits]
  · simp only [List.length_append, List.length_replicate]
    rw [leading_eq] at hleading ⊢
    push_cast
    omega
  · rw [Layout.positional, if_pos hleading, digitText_toList]
    simp

variable (hd : 0 < d.digits)
include hd

theorem spelled_whole (l : Layout) (hl : l.keepPoint = true) (hexponent : 0 ≤ d.exponent) :
    Spelled d (l.positional d.digitText.toList (d.leading + 1)) := by
  obtain ⟨k, hk⟩ := Int.eq_ofNat_of_zero_le hexponent
  have hds := digits_toDigits d.digits
  have hpos : 0 < (Nat.toDigits 10 d.digits).length := Nat.length_toDigits_pos
  have hleading := leading_eq d
  have hpadded : (Nat.toDigits 10 d.digits ++ List.replicate k '0').length = (d.leading + 1).toNat := by
    rw [List.length_append, List.length_replicate]
    omega
  refine ⟨Nat.toDigits 10 d.digits ++ List.replicate k '0', ['.', '0'], ['0'], [], 0,
    ⟨wholeText_of_head hd ⟨by simp, ?_⟩ ?_, .point (digits_toDigits 0), .absent, by simp, ?_, by simp⟩, ?_⟩
  · intro c hc
    obtain hc | hc := List.mem_append.mp hc
    · exact hds.plain c hc
    · rw [(List.mem_replicate.mp hc).2]
      rfl
  · rw [List.head?_append_of_ne_nil _ hds.nonempty]
  · rw [Nat.ofDigitChars_append, Nat.ofDigitChars_append, Nat.ofDigitChars_replicate_zero,
      Nat.ofDigitChars_ten_toDigits, Decimal.value, hk]
    show ((10 * (10 ^ k * d.digits) + 0 : Nat) : ℚ) * 10 ^ (0 - 1 : Int) = _
    rw [zero_sub, zpow_neg_one, zpow_natCast]
    push_cast
    ring
  · have hk' : (d.leading + 1).toNat - (Nat.toDigits 10 d.digits).length = k := by omega
    rw [Layout.positional, if_neg (by omega), digitText_toList, hk']
    simp only [List.take_of_length_le hpadded.le, List.drop_of_length_le hpadded.le]
    simp [hl]

theorem spelled_split (l : Layout) (hexponent : d.exponent < 0) (hleading : 0 < d.leading + 1) :
    Spelled d (l.positional d.digitText.toList (d.leading + 1)) := by
  have hds := digits_toDigits d.digits
  obtain ⟨k, hk⟩ := Int.eq_ofNat_of_zero_le hleading.le
  have hlength := leading_eq d
  refine ⟨(Nat.toDigits 10 d.digits).take k, '.' :: (Nat.toDigits 10 d.digits).drop k,
    (Nat.toDigits 10 d.digits).drop k, [], 0,
    Spells.of_eq (wholeText_of_head hd ⟨?_, ?_⟩ ?_) (.point ⟨?_, ?_⟩) .absent (by simp) ?_ ?_, ?_⟩
  · intro h
    have := congrArg List.length h
    simp only [List.length_take, List.length_nil] at this
    omega
  · exact fun c hc => hds.plain c (List.mem_of_mem_take hc)
  · rw [List.head?_take, if_neg (by omega)]
  · intro h
    have := congrArg List.length h
    simp only [List.length_drop, List.length_nil] at this
    omega
  · exact fun c hc => hds.plain c (List.mem_of_mem_drop hc)
  · rw [List.take_append_drop, Nat.ofDigitChars_ten_toDigits]
  · rw [List.length_drop]
    omega
  · have hk' : k - (Nat.toDigits 10 d.digits).length = 0 := by omega
    rw [Layout.positional, if_neg (by omega), digitText_toList, hk]
    have hdrop : ¬ (Nat.toDigits 10 d.digits).length ≤ k := by omega
    simp [hk', hdrop]

omit hd in
theorem exponentText_spec (e : Int) : PowerText ('e' :: (Layout.exponentText e).toList) e := by
  have hds := digits_toDigits e.natAbs
  obtain ⟨ds, hdigits, hvalue, htext⟩ : ∃ ds, Digits ds ∧ Nat.ofDigitChars 10 ds 0 = e.natAbs ∧
      (Layout.exponentText e).toList = (if e < 0 then ['-'] else ['+']) ++ ds := by
    by_cases hlength : (toString e.natAbs).length < 2
    · refine ⟨'0' :: Nat.toDigits 10 e.natAbs, ⟨by simp, List.forall_mem_cons.mpr ⟨rfl, hds.plain⟩⟩, ?_, ?_⟩
      · rw [Nat.ofDigitChars_cons]
        exact Nat.ofDigitChars_ten_toDigits
      · simp only [Layout.exponentText, if_pos hlength]
        split <;> simp
    · refine ⟨Nat.toDigits 10 e.natAbs, hds, Nat.ofDigitChars_ten_toDigits, ?_⟩
      simp only [Layout.exponentText, if_neg hlength]
      split <;> simp
  have hsign : ((if e < 0 then ['-'] else ['+']), decide (e < 0)) ∈ Json.powerSigns := by
    by_cases he : e < 0 <;> simp [he, Json.powerSigns]
  have hpower := PowerText.marked (.inl rfl) hsign hdigits
  rwa [hvalue, Json.signed_natAbs, ← htext] at hpower

theorem spelled_scientific : Spelled d (Layout.scientific d.digitText.toList d.leading) := by
  have hds := digits_toDigits d.digits
  have hleading := leading_eq d
  have hpower := exponentText_spec d.leading
  have hvalue : Nat.ofDigitChars 10 (Nat.toDigits 10 d.digits) 0 = d.digits := Nat.ofDigitChars_ten_toDigits
  have hhead : ∀ c r, Nat.toDigits 10 d.digits = c :: r → WholeText [c] := by
    intro c r h
    refine wholeText_of_head hd ⟨by simp, ?_⟩ (by rw [h]; rfl)
    intro c' hc
    rw [List.mem_singleton.mp hc]
    exact hds.plain c (by rw [h]; exact List.mem_cons_self)
  rw [digitText_toList]
  revert hds hleading hvalue hhead
  generalize Nat.toDigits 10 d.digits = digits
  intro hds hleading hvalue hhead
  obtain ⟨c, r, rfl⟩ := List.exists_cons_of_ne_nil hds.nonempty
  cases r with
  | nil =>
    refine ⟨[c], [], [], _, d.leading, Spells.of_eq (hhead c [] rfl) .absent hpower (by simp) hvalue ?_, ?_⟩
    · simp at hleading ⊢
      omega
    · simp [Layout.scientific]
  | cons b r =>
    refine ⟨[c], '.' :: b :: r, b :: r, _, d.leading,
      Spells.of_eq (hhead c _ rfl) (.point ⟨by simp, ?_⟩) hpower (by simp) hvalue ?_, ?_⟩
    · exact (List.forall_mem_cons.mp hds.plain).2
    · simp only [List.length_cons] at hleading ⊢
      push_cast at hleading ⊢
      omega
    · simp [Layout.scientific]

theorem spelled_write (l : Layout) (hl : l.keepPoint = true) : Spelled d (l.write d) := by
  rw [Layout.write]
  split
  · by_cases hleading : d.leading + 1 ≤ 0
    · exact spelled_below l hleading
    · by_cases hexponent : 0 ≤ d.exponent
      · exact spelled_whole hd l hl hexponent
      · exact spelled_split hd l (by omega) (by omega)
  · exact spelled_scientific hd

end Digits

theorem Binary64.numberText_text {x : Binary64} (h : x.IsFinite) :
    Json.NumberText x.text.toList (.real x) := by
  cases x with
  | notANumber => exact h.elim
  | infinite negative => exact h.elim
  | finite negative m e =>
    have hc : Canonical m e := h
    have hsign : (if negative then "-" else "").toList = Json.minus negative := by
      cases negative <;> rfl
    rw [text, String.toList_append, hsign]
    by_cases hm : m = 0
    · have he : e = -1074 := by
        have := hc.full
        omega
      rw [if_pos hm, hm, he]
      exact .real negative (wholeText_toDigits 0) (.point (digits_toDigits 0)) .absent (by simp)
    · have hexponent := (shortest_spec (Nat.pos_of_ne_zero hm) hc).2
      have hdigits := shortest_digits_pos (Nat.pos_of_ne_zero hm) hc
      obtain ⟨whole, fraction, ds, power, k, hspells, htext⟩ := spelled_write hdigits plainLayout rfl
      rw [if_neg hm, htext]
      have hvalue := ofDecimal_of_value negative (Nat.pos_of_ne_zero hm) hc
        (by have := hspells.exponent; omega) hspells.value
      rw [← hvalue]
      exact .real negative hspells.isWhole hspells.isFraction hspells.isPower hspells.nonempty

end EdgeAudit.Number

import Mathlib
import EdgeAudit.Proofs.NearestDouble
import EdgeAudit.Proofs.NumberBounds

/-!
The decimal that a double is written as reads back as the double: of seventeen digits the nearest decimal
is closer to the double than half the way to its neighbours.
-/

namespace EdgeAudit.Number

theorem ten_pow_le_two_pow {a b : Nat} (h : b * 100000 ≤ a * 30102) : 10 ^ b ≤ 2 ^ a := by
  have hbase : 10 ^ 30102 ≤ 2 ^ 100000 := by decide +kernel
  apply le_of_pow_le_pow_left₀ (show 100000 ≠ 0 by omega) (Nat.zero_le _)
  calc (10 ^ b) ^ 100000 = 10 ^ (b * 100000) := by rw [pow_mul]
    _ ≤ 10 ^ (a * 30102) := Nat.pow_le_pow_right (by decide) h
    _ = (10 ^ 30102) ^ a := by rw [← pow_mul, Nat.mul_comm]
    _ ≤ (2 ^ 100000) ^ a := Nat.pow_le_pow_left hbase a
    _ = (2 ^ a) ^ 100000 := by rw [← pow_mul, ← pow_mul, Nat.mul_comm]

theorem ten_zpow_le_two_zpow {a b : Int} (h : b * 100000 ≤ a * 30103 - 100000) (ha : a ≤ 100000) :
    (10 : ℚ) ^ b ≤ 2 ^ a := by
  by_cases hb : 0 ≤ b
  · obtain ⟨k, rfl⟩ := Int.eq_ofNat_of_zero_le hb
    obtain ⟨n, rfl⟩ := Int.eq_ofNat_of_zero_le (show 0 ≤ a by omega)
    rw [zpow_natCast, zpow_natCast]
    exact_mod_cast ten_pow_le_two_pow (show k * 100000 ≤ n * 30102 by omega)
  · by_cases ha' : 0 ≤ a
    · calc (10 : ℚ) ^ b ≤ 1 := zpow_le_one_of_nonpos₀ (by norm_num) (by omega)
        _ ≤ 2 ^ a := one_le_zpow₀ (by norm_num) ha'
    · obtain ⟨k, hk⟩ := Int.eq_ofNat_of_zero_le (show 0 ≤ -b by omega)
      obtain ⟨n, hn⟩ := Int.eq_ofNat_of_zero_le (show 0 ≤ -a by omega)
      obtain rfl : b = -(k : Int) := by omega
      obtain rfl : a = -(n : Int) := by omega
      rw [zpow_neg, zpow_neg, zpow_natCast, zpow_natCast]
      apply inv_anti₀ (by positivity)
      exact_mod_cast (two_pow_lt_ten_pow (show n * 30103 < k * 100000 by omega)).le

namespace Decimal

def value (d : Decimal) : ℚ := d.digits * 10 ^ d.exponent

theorem ratio_pos (d : Decimal) : 0 < d.ratio.2 := by
  unfold ratio
  split
  · exact Nat.one_pos
  · exact Nat.pow_pos (by omega)

theorem ratio_value (d : Decimal) : (d.ratio.1 : ℚ) / d.ratio.2 = d.value := by
  unfold ratio value
  split
  · rename_i he
    rw [Nat.cast_mul, natPow_zpow 10 he, Nat.cast_one, div_one]
    norm_num
  · rename_i he
    rw [natPow_zpow_neg 10 (by omega), div_inv_eq_mul]
    norm_num

theorem trimZeros_spec (n : Nat) (d : Decimal) :
    (d.trimZeros n).value = d.value ∧ d.exponent ≤ (d.trimZeros n).exponent := by
  induction n generalizing d with
  | zero => exact ⟨rfl, le_rfl⟩
  | succ n ih =>
    rw [trimZeros]
    split
    · rename_i h
      obtain ⟨hvalue, hexponent⟩ := ih ⟨d.digits / 10, d.exponent + 1⟩
      constructor
      · have hdigits : (d.digits : ℚ) = (d.digits / 10 : Nat) * 10 := by
          exact_mod_cast (Nat.div_mul_cancel (Nat.dvd_of_mod_eq_zero h.2)).symm
        rw [hvalue, value, value, hdigits, zpow_add_one₀ (by norm_num)]
        ring
      · exact le_trans (by simp) hexponent
    · exact ⟨rfl, le_rfl⟩

end Decimal

theorem carried_value (digits : Nat) {count : Nat} (unit : Int) (hcount : 0 < count) :
    (carried digits count unit).value = digits * 10 ^ unit := by
  unfold carried
  split
  · rename_i h
    obtain ⟨k, rfl⟩ : ∃ k, count = k + 1 := ⟨count - 1, by omega⟩
    rw [Decimal.value, h, Nat.add_sub_cancel, zpow_add_one₀ (by norm_num), Nat.pow_eq, Nat.pow_eq,
      Nat.pow_succ]
    push_cast
    ring
  · rfl

theorem le_carried_exponent (digits count : Nat) (unit : Int) :
    unit ≤ (carried digits count unit).exponent := by
  unfold carried
  split
  · simp
  · exact le_rfl

section Units

variable {num den : Nat}

theorem inUnits_pos (num : Nat) (hden : 0 < den) (unit : Int) : 0 < (inUnits num den unit).2 := by
  unfold inUnits
  split
  · exact Nat.mul_pos hden (Nat.pow_pos (by omega))
  · exact hden

theorem inUnits_value (num den : Nat) (unit : Int) :
    ((inUnits num den unit).1 : ℚ) / (inUnits num den unit).2 = num / den / 10 ^ unit := by
  unfold inUnits
  split
  · rename_i hunit
    rw [Nat.cast_mul, natPow_zpow 10 hunit, div_div]
    norm_num
  · rename_i hunit
    rw [Nat.cast_mul, natPow_zpow_neg 10 (by omega), div_eq_mul_inv _ ((10 : ℚ) ^ unit), mul_div_right_comm]
    norm_num

theorem rounded_near (num : Nat) (hden : 0 < den) (unit : Int) :
    |(roundDiv (inUnits num den unit).1 (inUnits num den unit).2 : ℚ) * 10 ^ unit - num / den| ≤
      10 ^ unit / 2 := by
  have hround := roundDiv_near (inUnits num den unit).1 (inUnits_pos num hden unit)
  have hpos := ten_zpow_pos unit
  rw [inUnits_value] at hround
  generalize (roundDiv (inUnits num den unit).1 (inUnits num den unit).2 : ℚ) = k at hround ⊢
  have hscaled : k * 10 ^ unit - num / den = (k - num / den / 10 ^ unit) * 10 ^ unit := by
    rw [sub_mul, div_mul_cancel₀ _ hpos.ne']
  have hunits := mul_le_mul_of_nonneg_right hround hpos.le
  rw [hscaled, abs_mul, abs_of_pos hpos]
  linarith

theorem holds_at_count {p : Nat → Bool} (hzero : p 0 = true) (hdown : ∀ i, p (i + 1) = true → p i = true)
    (n : Nat) : ∃ k, ((List.range (n + 1)).filter p).length = k + 1 ∧ p k = true := by
  induction n with
  | zero => exact ⟨0, by simp [hzero], hzero⟩
  | succ n ih =>
    rw [List.range_succ, List.filter_append, List.length_append]
    by_cases hp : p (n + 1) = true
    · have hall : ∀ j i, p (i + j) = true → p i = true := by
        intro j
        induction j with
        | zero => exact fun i h => h
        | succ j ihj => exact fun i h => ihj i (hdown _ h)
      refine ⟨n + 1, ?_, hp⟩
      rw [List.filter_eq_self.mpr]
      · simp [hp]
      · intro i hi
        rw [List.mem_range] at hi
        apply hall (n + 1 - i)
        rwa [show i + (n + 1 - i) = n + 1 by omega]
    · simpa [hp] using ih

def reaches (num den : Nat) (k : Int) : Bool :=
  if 0 ≤ k then den * Nat.pow 10 k.toNat ≤ num else den ≤ num * Nat.pow 10 (-k).toNat

theorem reaches_iff (hden : 0 < den) (k : Int) : reaches num den k = true ↔ (10 : ℚ) ^ k ≤ num / den := by
  have hpos : (0 : ℚ) < den := by exact_mod_cast hden
  rw [reaches, le_div_iff₀ hpos]
  split
  · rename_i hk
    have h := natPow_zpow 10 hk
    rw [decide_eq_true_iff, ← @Nat.cast_le ℚ, Nat.cast_mul, h, mul_comm]
    norm_num
  · rename_i hk
    have h := natPow_zpow_neg 10 (show k < 0 by omega)
    rw [decide_eq_true_iff, ← @Nat.cast_le ℚ, Nat.cast_mul, h, ← div_eq_mul_inv,
      le_div_iff₀ (by positivity), mul_comm]
    norm_num

theorem floorLog10_spec (hnum : num ≠ 0) (hden : 0 < den)
    (hlow : (2 : ℚ) ^ (-1074 : Int) ≤ num / den) (hhigh : (num : ℚ) / den < 2 ^ 1024) :
    (10 : ℚ) ^ floorLog10 num den ≤ num / den ∧ -325 ≤ floorLog10 num den := by
  have hbelow := Binary64.two_zpow_lt_quotient hnum hden
  have habove := Binary64.quotient_lt_two_zpow num hden
  have hlog : (num.log2 : Int) - den.log2 - 1 < 1024 := by
    have h := lt_trans hbelow hhigh
    rw [← zpow_natCast, zpow_lt_zpow_iff_right₀ (by norm_num)] at h
    exact_mod_cast h
  have hlog' : -1074 < (num.log2 : Int) - den.log2 + 1 := by
    have h := lt_of_le_of_lt hlow habove
    rwa [zpow_lt_zpow_iff_right₀ (by norm_num)] at h
  -- four powers of ten are tried from `start` on, and the fraction reaches the first of them
  generalize hstart : ((num.log2 : Int) - den.log2 - 1) * 30103 / 100000 - 1 = start
  have hfloor : floorLog10 num den =
      start + (((List.range 4).filter fun i : Nat => reaches num den (start + i)).length : Int) - 1 := by
    rw [← hstart]
    rfl
  have hfirst : reaches num den (start + (0 : Nat)) = true := by
    rw [reaches_iff hden]
    refine le_trans (ten_zpow_le_two_zpow ?_ ?_) hbelow.le <;> omega
  have hdown : ∀ i : Nat, reaches num den (start + (i + 1 : Nat)) = true →
      reaches num den (start + i) = true := by
    intro i h
    rw [reaches_iff hden] at h ⊢
    exact le_trans (zpow_le_zpow_right₀ (by norm_num) (by omega)) h
  obtain ⟨k, hlength, hk⟩ := holds_at_count (p := fun i : Nat => reaches num den (start + i)) hfirst hdown 3
  rw [hfloor, hlength, show start + ((k + 1 : Nat) : Int) - 1 = start + k by omega]
  exact ⟨(reaches_iff hden _).mp hk, by omega⟩

theorem carried_mem_neighbours (num den count : Nat) :
    carried (roundDiv (inUnits num den (floorLog10 num den - count + 1)).1
      (inUnits num den (floorLog10 num den - count + 1)).2) count (floorLog10 num den - count + 1) ∈
      neighbours num den count := by
  simp only [neighbours]
  split
  · rename_i h
    rw [h]
    exact List.mem_cons_self
  · rename_i h
    rw [(roundDiv_eq_or _ _).resolve_left h]
    exact List.mem_cons_self

theorem exponent_of_mem_neighbours {count : Nat} {d : Decimal} (h : d ∈ neighbours num den count) :
    floorLog10 num den - count + 1 ≤ d.exponent := by
  simp only [neighbours] at h
  split at h
  all_goals
    rw [List.mem_cons, List.mem_singleton] at h
    obtain rfl | rfl := h
    all_goals exact le_carried_exponent _ _ _

end Units

section ReadingBack

open Binary64

variable {m : Nat} {e : Int}

theorem readsBack_iff {d : Decimal} :
    readsBack m e d = true ↔ ofRatio false d.ratio.1 d.ratio.2 = .finite false m e := by
  simp [readsBack]

theorem readsBack_of_value {d d' : Decimal} (h : d.value = d'.value) (hd : readsBack m e d = true) :
    readsBack m e d' = true := by
  rw [readsBack_iff] at hd ⊢
  rw [← hd]
  apply ofRatio_congr false d'.ratio_pos d.ratio_pos
  rw [d.ratio_value, d'.ratio_value, h]

theorem value_bounds (hm : 0 < m) (hc : Canonical m e) :
    (2 : ℚ) ^ (-1074 : Int) ≤ m * 2 ^ e ∧ (m : ℚ) * 2 ^ e < 2 ^ 1024 := by
  have hge : (1 : ℚ) ≤ m := by exact_mod_cast hm
  have hlt : (m : ℚ) < 2 ^ 53 := by exact_mod_cast hc.lt
  constructor
  · calc (2 : ℚ) ^ (-1074 : Int) ≤ 2 ^ e := zpow_le_zpow_right₀ (by norm_num) hc.least
      _ ≤ m * 2 ^ e := le_mul_of_one_le_left (two_zpow_pos e).le hge
  · calc (m : ℚ) * 2 ^ e < 2 ^ 53 * 2 ^ e := mul_lt_mul_of_pos_right hlt (two_zpow_pos e)
      _ ≤ 2 ^ 1024 := pow_mul_zpow_le hc.most

theorem near_of_unit (hc : Canonical m e) {k : Int} {y : ℚ}
    (hk : (10 : ℚ) ^ k ≤ m * 2 ^ e) (hy : |y - m * 2 ^ e| ≤ 10 ^ (k - 17 + 1) / 2) : Near m e y := by
  have hlt : (m : ℚ) < 2 ^ 53 := by exact_mod_cast hc.lt
  have hpos := two_zpow_pos e
  have hunit : (10 : ℚ) ^ (k - 17 + 1) * 10 ^ 16 ≤ m * 2 ^ e := by
    calc (10 : ℚ) ^ (k - 17 + 1) * 10 ^ 16 = 10 ^ k := by
          rw [← zpow_natCast (10 : ℚ) 16, ← zpow_add₀ (by norm_num)]
          congr 1
          push_cast
          ring
      _ ≤ m * 2 ^ e := hk
  -- 2 ^ 53 < 10 ^ 16, so the unit of the seventeenth digit is smaller than the one of the mantissa
  have hhalf : (10 : ℚ) ^ (k - 17 + 1) < 2 ^ e := by
    have h := mul_lt_mul_of_pos_right hlt hpos
    linarith
  rw [abs_le] at hy
  constructor
  · linarith
  · linarith
  · intro hm
    rw [hm] at hunit hy ⊢
    push_cast at hunit hy ⊢
    linarith

variable (hm : 0 < m) (hc : Canonical m e)
include hm hc

theorem floorLog10_ratio : (10 : ℚ) ^ floorLog10 (ratio m e).1 (ratio m e).2 ≤ m * 2 ^ e ∧
    -325 ≤ floorLog10 (ratio m e).1 (ratio m e).2 := by
  obtain ⟨hlow, hhigh⟩ := value_bounds hm hc
  have hvalue := ratio_value m e
  have hnum : (ratio m e).1 ≠ 0 := by
    intro hzero
    rw [hzero, Nat.cast_zero, zero_div] at hvalue
    rw [← hvalue] at hlow
    exact absurd hlow (not_le.mpr (two_zpow_pos _))
  rw [← hvalue] at hlow hhigh ⊢
  exact floorLog10_spec hnum (ratio_pos m e) hlow hhigh

theorem exists_attempt : ∃ i < 17, ∃ d ∈ neighbours (ratio m e).1 (ratio m e).2 (i + 1),
    readsBack m e d = true := by
  refine ⟨16, by omega, _, carried_mem_neighbours _ _ 17, ?_⟩
  obtain ⟨hfloor, -⟩ := floorLog10_ratio hm hc
  rw [readsBack_iff]
  apply ofRatio_of_near false (Decimal.ratio_pos _) hm hc
  rw [Decimal.ratio_value, carried_value _ _ (by omega)]
  apply near_of_unit hc hfloor
  rw [← ratio_value m e]
  exact rounded_near _ (ratio_pos m e) _

/-- The decimal that a double is written as reads back as the double. -/
theorem shortest_spec : readsBack m e (shortest m e) = true ∧ -400 ≤ (shortest m e).exponent := by
  obtain ⟨i, hi, d, hd, hback⟩ := exists_attempt hm hc
  simp only [shortest]
  generalize hfound : ((List.range 17).findSome? fun i =>
    (neighbours (ratio m e).1 (ratio m e).2 (i + 1)).find? (readsBack m e)) = found
  cases found with
  | none =>
    rw [List.findSome?_eq_none_iff] at hfound
    have hnone := hfound i (List.mem_range.mpr hi)
    rw [List.find?_eq_none] at hnone
    exact absurd hback (hnone d hd)
  | some d' =>
    obtain ⟨j, hj, hd'⟩ := List.exists_of_findSome?_eq_some hfound
    obtain ⟨hvalue, hexponent⟩ := d'.trimZeros_spec d'.digitText.length
    constructor
    · exact readsBack_of_value hvalue.symm (List.find?_some hd')
    · have hunit := exponent_of_mem_neighbours (List.mem_of_find?_eq_some hd')
      have hfloor := (floorLog10_ratio hm hc).2
      rw [List.mem_range] at hj
      refine le_trans ?_ hexponent
      omega

theorem shortest_digits_pos : 0 < (shortest m e).digits := by
  have hback := readsBack_iff.mp (shortest_spec hm hc).1
  have hlow := (bounds_of_ofRatio (Decimal.ratio_pos _) hm hback).1
  rw [Decimal.ratio_value, Decimal.value] at hlow
  apply Nat.pos_of_ne_zero
  intro hzero
  rw [hzero, Nat.cast_zero, zero_mul] at hlow
  exact absurd hlow (not_le.mpr (two_zpow_pos _))

end ReadingBack

namespace Binary64

theorem log2_lt_of_value {digits : Nat} {exponent : Int} (hdigits : digits ≠ 0) (hexponent : -400 ≤ exponent)
    (h : (digits : ℚ) * 10 ^ exponent < 2 ^ 1024) : digits.log2 < 2624 := by
  have hlow : (2 : ℚ) ^ (-1600 : Int) ≤ 10 ^ exponent := by
    calc (2 : ℚ) ^ (-1600 : Int) = 16 ^ (-400 : Int) := by
          rw [show (-1600 : Int) = 4 * -400 by norm_num, zpow_mul]
          norm_num
      _ ≤ 10 ^ (-400 : Int) := by
          rw [zpow_neg, zpow_neg]
          apply inv_anti₀ (by positivity)
          exact zpow_le_zpow_left₀ (by norm_num) (by norm_num) (by norm_num)
      _ ≤ 10 ^ exponent := zpow_le_zpow_right₀ (by norm_num) hexponent
  have hlt : (2 : ℚ) ^ ((digits.log2 : Int) + -1600) < 2 ^ (1024 : Int) := by
    calc (2 : ℚ) ^ ((digits.log2 : Int) + -1600) = 2 ^ (digits.log2 : Int) * 2 ^ (-1600 : Int) :=
          zpow_add₀ (by norm_num) _ _
      _ ≤ digits * 10 ^ exponent :=
          mul_le_mul (two_pow_log2_le hdigits) hlow (two_zpow_pos _).le (by positivity)
      _ < 2 ^ 1024 := h
  rw [zpow_lt_zpow_iff_right₀ (by norm_num)] at hlt
  omega

theorem ofDecimal_eq_ofRatio (negative : Bool) {digits : Nat} {exponent : Int} (hexponent : -400 ≤ exponent)
    (hlow : 2 ^ (-1075 : Int) ≤ (digits : ℚ) * 10 ^ exponent)
    (hhigh : (digits : ℚ) * 10 ^ exponent < 2 ^ 1024) :
    ofDecimal negative digits exponent =
      ofRatio negative (Decimal.ratio ⟨digits, exponent⟩).1 (Decimal.ratio ⟨digits, exponent⟩).2 := by
  have hdigits : digits ≠ 0 := by
    rintro rfl
    rw [Nat.cast_zero, zero_mul] at hlow
    exact absurd hlow (not_le.mpr (two_zpow_pos _))
  have hlog := log2_lt_of_value hdigits hexponent hhigh
  have hmost : ¬ 400 < (digits.log2 : Int) * 30103 / 100000 + exponent := by
    intro h
    have hten : (10 : ℚ) ^ (400 - exponent) ≤ digits :=
      le_trans (ten_zpow_le_two_zpow (by omega) (by omega)) (two_pow_log2_le hdigits)
    have hlarge : (2 : ℚ) ^ 1024 < 10 ^ (400 : Int) := by
      rw [show (400 : Int) = (400 : Nat) from rfl, zpow_natCast]
      exact_mod_cast two_pow_lt_ten_pow (show 1024 * 30103 < 400 * 100000 by norm_num)
    have hvalue : (10 : ℚ) ^ (400 : Int) ≤ digits * 10 ^ exponent := by
      calc (10 : ℚ) ^ (400 : Int) = 10 ^ (400 - exponent) * 10 ^ exponent := by
            rw [← zpow_add₀ (by norm_num), sub_add_cancel]
        _ ≤ digits * 10 ^ exponent := mul_le_mul_of_nonneg_right hten (ten_zpow_pos _).le
    exact absurd (lt_of_le_of_lt hvalue hhigh) (not_lt.mpr hlarge.le)
  have hleast : ¬ (digits.log2 : Int) * 30103 / 100000 + exponent < -400 := by omega
  rw [ofDecimal, if_neg hdigits]
  simp only [if_neg hmost, if_neg hleast, Decimal.ratio]
  split <;> rfl

theorem ofDecimal_of_value (negative : Bool) {m digits : Nat} {e exponent : Int} (hm : 0 < m)
    (hc : Canonical m e) (hexponent : -400 ≤ exponent)
    (h : (digits : ℚ) * 10 ^ exponent = (shortest m e).value) :
    ofDecimal negative digits exponent = .finite negative m e := by
  have hback : readsBack m e ⟨digits, exponent⟩ = true := readsBack_of_value h.symm (shortest_spec hm hc).1
  rw [readsBack_iff] at hback
  have hbounds := bounds_of_ofRatio (Decimal.ratio_pos _) hm hback
  rw [Decimal.ratio_value, Decimal.value] at hbounds
  rw [ofDecimal_eq_ofRatio negative hexponent hbounds.1 hbounds.2]
  exact ofRatio_sign negative hback

end Binary64

end EdgeAudit.Number

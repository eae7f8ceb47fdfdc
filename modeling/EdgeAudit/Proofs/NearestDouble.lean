import Mathlib
import EdgeAudit.Number.Shortest

/-!
Rounding a fraction to the nearest double. The result depends on the value of the fraction alone, and
a fraction that is closer to a double than half the way to its neighbours is rounded to it.
-/

namespace EdgeAudit.Number

theorem two_zpow_pos (e : Int) : (0 : ℚ) < 2 ^ e := by positivity

theorem ten_zpow_pos (e : Int) : (0 : ℚ) < 10 ^ e := by positivity

theorem natPow_zpow (b : Nat) {e : Int} (he : 0 ≤ e) : ((Nat.pow b e.toNat : Nat) : ℚ) = (b : ℚ) ^ e := by
  obtain ⟨k, rfl⟩ := Int.eq_ofNat_of_zero_le he
  rw [Int.toNat_natCast, Nat.pow_eq, Nat.cast_pow, zpow_natCast]

theorem natPow_zpow_neg (b : Nat) {e : Int} (he : e < 0) :
    ((Nat.pow b (-e).toNat : Nat) : ℚ) = ((b : ℚ) ^ e)⁻¹ := by
  rw [natPow_zpow b (by omega), zpow_neg]

section Rounding

variable {num den : Nat}

theorem roundDiv_eq_or (num den : Nat) : roundDiv num den = num / den ∨ roundDiv num den = num / den + 1 := by
  simp only [roundDiv]
  split
  · exact .inl rfl
  · split
    · exact .inr rfl
    · split
      · exact .inl rfl
      · exact .inr rfl

theorem roundDiv_one (n : Nat) : roundDiv n 1 = n := by
  simp [roundDiv, Nat.mod_one]

theorem roundDiv_near (num : Nat) (hden : 0 < den) : |(roundDiv num den : ℚ) - num / den| ≤ 1 / 2 := by
  have hdiv : (num : ℚ) = den * (num / den : Nat) + (num % den : Nat) := by
    exact_mod_cast (Nat.div_add_mod num den).symm
  have hpos : (0 : ℚ) < den := by exact_mod_cast hden
  have hquot : (num : ℚ) / den = (num / den : Nat) + (num % den : Nat) / den := by
    rw [hdiv, add_div, mul_div_cancel_left₀ _ hpos.ne']
  have hbelow : (0 : ℚ) ≤ (num % den : Nat) / den := by positivity
  have habove : ((num % den : Nat) : ℚ) / den < 1 := by
    rw [div_lt_one hpos]
    exact_mod_cast Nat.mod_lt num hden
  have hdown : 2 * (num % den) ≤ den → ((num % den : Nat) : ℚ) / den ≤ 1 / 2 := by
    intro h
    rw [div_le_iff₀ hpos]
    have h' : (2 : ℚ) * (num % den : Nat) ≤ den := by exact_mod_cast h
    linarith
  have hup : den ≤ 2 * (num % den) → 1 / 2 ≤ ((num % den : Nat) : ℚ) / den := by
    intro h
    rw [le_div_iff₀ hpos]
    have h' : (den : ℚ) ≤ 2 * (num % den : Nat) := by exact_mod_cast h
    linarith
  rw [hquot, abs_le]
  simp only [roundDiv]
  split
  · rename_i h
    have := hdown (by omega)
    constructor <;> linarith
  · rename_i h
    have hhalf := hup (by omega)
    split
    · push_cast
      constructor <;> linarith
    · rename_i h'
      have := hdown (by omega)
      split
      · constructor <;> linarith
      · push_cast
        constructor <;> linarith

theorem roundDiv_mul (num den : Nat) {c : Nat} (hc : 0 < c) :
    roundDiv (num * c) (den * c) = roundDiv num den := by
  have hmod : 2 * (num * c % (den * c)) = 2 * (num % den) * c := by
    rw [Nat.mul_mod_mul_right, Nat.mul_assoc]
  simp only [roundDiv, Nat.mul_div_mul_right _ _ hc, hmod, Nat.mul_lt_mul_right hc]

theorem cross_of_quotient_eq {num' den' : Nat} (hden : 0 < den) (hden' : 0 < den')
    (h : (num : ℚ) / den = num' / den') : num * den' = num' * den := by
  have hpos : (den : ℚ) ≠ 0 := by exact_mod_cast hden.ne'
  have hpos' : (den' : ℚ) ≠ 0 := by exact_mod_cast hden'.ne'
  rw [div_eq_div_iff hpos hpos'] at h
  exact_mod_cast h

theorem roundDiv_congr {num' den' : Nat} (hden : 0 < den) (hden' : 0 < den')
    (h : (num : ℚ) / den = num' / den') : roundDiv num den = roundDiv num' den' := by
  rw [← roundDiv_mul num den hden', ← roundDiv_mul num' den' hden, cross_of_quotient_eq hden hden' h,
    Nat.mul_comm den den']

end Rounding

namespace Binary64

structure Canonical (m : Nat) (e : Int) : Prop where
  lt : m < 2 ^ 53
  least : -1074 ≤ e
  most : e ≤ 971
  full : 2 ^ 52 ≤ m ∨ e = -1074

def IsFinite : Binary64 → Prop
  | .finite _ m e => Canonical m e
  | _ => False

/-- `e` is the exponent at which the value `x` has a mantissa of 53 bits, or the least one there is. -/
structure Exponent (x : ℚ) (e : Int) : Prop where
  least : -1074 ≤ e
  lt : x < 2 ^ 53 * 2 ^ e
  full : 2 ^ 52 * 2 ^ e ≤ x ∨ e = -1074

theorem Exponent.le {x : ℚ} {e f : Int} (he : Exponent x e) (hf : Exponent x f) : e ≤ f := by
  obtain hfull | hleast := he.full
  · have hlt : (2 : ℚ) ^ (52 + e) < 2 ^ (53 + f) := by
      calc (2 : ℚ) ^ (52 + e) = 2 ^ 52 * 2 ^ e := by rw [zpow_add₀ (by norm_num)]; norm_num
        _ ≤ x := hfull
        _ < 2 ^ 53 * 2 ^ f := hf.lt
        _ = 2 ^ (53 + f) := by rw [zpow_add₀ (by norm_num)]; norm_num
    rw [zpow_lt_zpow_iff_right₀ (by norm_num)] at hlt
    omega
  · have := hf.least
    omega

theorem Exponent.unique {x : ℚ} {e f : Int} (he : Exponent x e) (hf : Exponent x f) : e = f :=
  le_antisymm (he.le hf) (hf.le he)

section Fractions

variable {num den : Nat}

theorem scaled_pos (hden : 0 < den) (e : Int) : 0 < (scaled num den e).2 := by
  unfold scaled
  split
  · exact Nat.mul_pos hden (Nat.pow_pos (by omega))
  · exact hden

theorem scaled_value (num den : Nat) (e : Int) :
    ((scaled num den e).1 : ℚ) / (scaled num den e).2 = num / den / 2 ^ e := by
  unfold scaled
  split
  · rename_i he
    rw [Nat.cast_mul, natPow_zpow 2 he, div_div]
    norm_num
  · rename_i he
    rw [Nat.cast_mul, natPow_zpow_neg 2 (by omega), div_eq_mul_inv _ ((2 : ℚ) ^ e), mul_div_right_comm]
    norm_num

theorem ratio_pos (m : Nat) (e : Int) : 0 < (ratio m e).2 := by
  unfold ratio
  split
  · exact Nat.one_pos
  · exact Nat.pow_pos (by omega)

theorem ratio_value (m : Nat) (e : Int) : ((ratio m e).1 : ℚ) / (ratio m e).2 = m * 2 ^ e := by
  unfold ratio
  split
  · rename_i he
    rw [Nat.cast_mul, natPow_zpow 2 he, Nat.cast_one, div_one]
    norm_num
  · rename_i he
    rw [natPow_zpow_neg 2 (by omega), div_inv_eq_mul]
    norm_num

theorem two_pow_log2_le (hnum : num ≠ 0) : (2 : ℚ) ^ (num.log2 : Int) ≤ num := by
  rw [zpow_natCast]
  exact_mod_cast Nat.log2_self_le hnum

theorem lt_two_pow_log2 (num : Nat) : (num : ℚ) < 2 ^ ((num.log2 : Int) + 1) := by
  have hlt : num < 2 ^ (num.log2 + 1) := Nat.lt_log2_self
  have hcast : (num : ℚ) < 2 ^ (num.log2 + 1) := by exact_mod_cast hlt
  exact_mod_cast hcast

theorem two_zpow_lt_quotient (hnum : num ≠ 0) (hden : 0 < den) :
    (2 : ℚ) ^ ((num.log2 : Int) - den.log2 - 1) < num / den := by
  have hpos : (0 : ℚ) < den := by exact_mod_cast hden
  rw [lt_div_iff₀ hpos]
  calc (2 : ℚ) ^ ((num.log2 : Int) - den.log2 - 1) * den
      < 2 ^ ((num.log2 : Int) - den.log2 - 1) * 2 ^ ((den.log2 : Int) + 1) :=
        mul_lt_mul_of_pos_left (lt_two_pow_log2 den) (two_zpow_pos _)
    _ = 2 ^ (num.log2 : Int) := by
        rw [← zpow_add₀ (by norm_num)]
        congr 1
        omega
    _ ≤ num := two_pow_log2_le hnum

theorem quotient_lt_two_zpow (num : Nat) (hden : 0 < den) :
    (num : ℚ) / den < 2 ^ ((num.log2 : Int) - den.log2 + 1) := by
  have hpos : (0 : ℚ) < den := by exact_mod_cast hden
  rw [div_lt_iff₀ hpos]
  calc (num : ℚ) < 2 ^ ((num.log2 : Int) + 1) := lt_two_pow_log2 num
    _ = 2 ^ ((num.log2 : Int) - den.log2 + 1) * 2 ^ (den.log2 : Int) := by
        rw [← zpow_add₀ (by norm_num)]
        congr 1
        omega
    _ ≤ 2 ^ ((num.log2 : Int) - den.log2 + 1) * den :=
        mul_le_mul_of_nonneg_left (two_pow_log2_le hden.ne') (two_zpow_pos _).le

theorem pow_mul_zpow (k : Nat) (e : Int) : (2 : ℚ) ^ k * 2 ^ e = 2 ^ ((k : Int) + e) := by
  rw [zpow_add₀ (by norm_num), zpow_natCast]

theorem Exponent.max {x : ℚ} {e : Int} (hlt : x < 2 ^ 53 * 2 ^ e) (hfull : 2 ^ 52 * 2 ^ e ≤ x) :
    Exponent x (max (-1074) e) := by
  by_cases he : -1074 ≤ e
  · rw [max_eq_right he]
    exact ⟨he, hlt, .inl hfull⟩
  · rw [max_eq_left (by omega)]
    refine ⟨le_refl _, ?_, .inr rfl⟩
    calc x < 2 ^ 53 * 2 ^ e := hlt
      _ ≤ 2 ^ 53 * 2 ^ (-1074 : Int) := by
        apply mul_le_mul_of_nonneg_left _ (by positivity)
        exact zpow_le_zpow_right₀ (by norm_num) (by omega)

theorem exponentOf_spec (hnum : num ≠ 0) (hden : 0 < den) :
    Exponent ((num : ℚ) / den) (exponentOf num den) := by
  have hlow := two_zpow_lt_quotient hnum hden
  have hhigh := quotient_lt_two_zpow num hden
  simp only [exponentOf]
  generalize hguess : (num.log2 : Int) - den.log2 - 53 = guess
  -- the guess is right or one too small; the comparison of the scaled fraction says which
  have hcompare : Nat.pow 2 52 * (scaled num den (guess + 1)).2 ≤ (scaled num den (guess + 1)).1 ↔
      2 ^ 52 * 2 ^ (guess + 1) ≤ (num : ℚ) / den := by
    have hpos : (0 : ℚ) < (scaled num den (guess + 1)).2 := by exact_mod_cast scaled_pos hden _
    rw [← le_div_iff₀ (two_zpow_pos (guess + 1)), ← scaled_value, le_div_iff₀ hpos, Nat.pow_eq]
    exact_mod_cast Iff.rfl
  apply Exponent.max
  · split
    · rw [pow_mul_zpow]
      have he : ((53 : Nat) : Int) + (guess + 1) = (num.log2 : Int) - den.log2 + 1 := by omega
      rwa [he]
    · rename_i h
      rw [hcompare, not_le, pow_mul_zpow] at h
      rw [pow_mul_zpow]
      have he : ((53 : Nat) : Int) + guess = (52 : Nat) + (guess + 1) := by omega
      rwa [he]
  · split
    · rename_i h
      exact hcompare.mp h
    · rw [pow_mul_zpow]
      have he : ((52 : Nat) : Int) + guess = (num.log2 : Int) - den.log2 - 1 := by omega
      rw [he]
      exact hlow.le

theorem ofRatio_congr {num' den' : Nat} (negative : Bool) (hden : 0 < den) (hden' : 0 < den')
    (h : (num : ℚ) / den = num' / den') : ofRatio negative num den = ofRatio negative num' den' := by
  have hcross := cross_of_quotient_eq hden hden' h
  by_cases hnum : num = 0
  · have hnum' : num' = 0 := by
      rw [hnum, Nat.zero_mul] at hcross
      exact (Nat.mul_eq_zero.mp hcross.symm).resolve_right hden.ne'
    rw [hnum, hnum', ofRatio, ofRatio, if_pos rfl, if_pos rfl]
  · have hnum' : num' ≠ 0 := by
      intro hzero
      rw [hzero, Nat.zero_mul] at hcross
      exact hnum ((Nat.mul_eq_zero.mp hcross).resolve_right hden'.ne')
    have hexponent : exponentOf num den = exponentOf num' den' := by
      apply Exponent.unique (exponentOf_spec hnum hden)
      rw [h]
      exact exponentOf_spec hnum' hden'
    have hround : ∀ e, roundDiv (scaled num den e).1 (scaled num den e).2 =
        roundDiv (scaled num' den' e).1 (scaled num' den' e).2 := by
      intro e
      apply roundDiv_congr (scaled_pos hden e) (scaled_pos hden' e)
      rw [scaled_value, scaled_value, h]
    simp only [ofRatio, if_neg hnum, if_neg hnum', hexponent, hround]

structure Rounds (x : ℚ) (m : Nat) (e : Int) : Prop where
  exponent : Exponent x e
  near : |(m : ℚ) - x / 2 ^ e| ≤ 1 / 2

def assembled (negative : Bool) (m : Nat) (e : Int) : Binary64 :=
  if m = 2 ^ 53 then (if 971 < e + 1 then .infinite negative else .finite negative (2 ^ 52) (e + 1))
  else if 971 < e then .infinite negative else .finite negative m e

theorem ofRatio_eq_assembled (negative : Bool) (hnum : num ≠ 0) :
    ofRatio negative num den = assembled negative
      (roundDiv (scaled num den (exponentOf num den)).1 (scaled num den (exponentOf num den)).2)
      (exponentOf num den) := by
  simp only [ofRatio, if_neg hnum, assembled, Nat.pow_eq]
  generalize roundDiv _ _ = m
  by_cases hm : m = 2 ^ 53
  · simp only [if_pos hm]
  · simp only [if_neg hm]

theorem assembled_sign {m k : Nat} {e f : Int} {s : Bool} (negative : Bool)
    (h : assembled s k f = .finite s m e) : assembled negative k f = .finite negative m e := by
  unfold assembled at h ⊢
  split at h <;> split at h
  all_goals cases h
  all_goals simp_all

theorem ofRatio_sign {m : Nat} {e : Int} {s : Bool} (negative : Bool)
    (h : ofRatio s num den = .finite s m e) : ofRatio negative num den = .finite negative m e := by
  by_cases hnum : num = 0
  · rw [ofRatio, if_pos hnum, zero] at h ⊢
    cases h
    rfl
  · rw [ofRatio_eq_assembled _ hnum] at h ⊢
    exact assembled_sign negative h

theorem rounds_scaled (hnum : num ≠ 0) (hden : 0 < den) :
    Rounds ((num : ℚ) / den)
      (roundDiv (scaled num den (exponentOf num den)).1 (scaled num den (exponentOf num den)).2)
      (exponentOf num den) := by
  refine ⟨exponentOf_spec hnum hden, ?_⟩
  rw [← scaled_value]
  exact roundDiv_near _ (scaled_pos hden _)

end Fractions

theorem Rounds.le {x : ℚ} {m : Nat} {e : Int} (h : Rounds x m e) : m ≤ 2 ^ 53 := by
  have hnear := (abs_le.mp h.near).2
  have hlt : x / 2 ^ e < 2 ^ 53 := by
    rw [div_lt_iff₀ (two_zpow_pos e)]
    exact h.exponent.lt
  have hm : (m : ℚ) < 2 ^ 53 + 1 := by linarith
  have hm' : m < 2 ^ 53 + 1 := by exact_mod_cast hm
  omega

theorem Rounds.canonical {x : ℚ} {m : Nat} {e : Int} {negative : Bool} (h : Rounds x m e) (hx : e ≤ 970) :
    (assembled negative m e).IsFinite := by
  have hle := h.le
  have hleast := h.exponent.least
  unfold assembled
  split
  · rw [if_neg (by omega)]
    exact ⟨by norm_num, by omega, by omega, .inl le_rfl⟩
  · rename_i hm
    rw [if_neg (by omega)]
    refine ⟨by omega, hleast, by omega, ?_⟩
    obtain hfull | hfull := h.exponent.full
    · have hnear := (abs_le.mp h.near).1
      have hge : 2 ^ 52 ≤ x / 2 ^ e := by
        rw [le_div_iff₀ (two_zpow_pos e)]
        exact hfull
      have hm : (2 : ℚ) ^ 52 < m + 1 := by linarith
      have hm' : 2 ^ 52 < m + 1 := by exact_mod_cast hm
      exact .inl (by omega)
    · exact .inr hfull

/-- What lies closer to a double than half the way to its neighbours; below a power of two the neighbour
is half as far. -/
structure Near (m : Nat) (e : Int) (x : ℚ) : Prop where
  above : (m - 1 / 2) * 2 ^ e < x
  below : x < (m + 1 / 2) * 2 ^ e
  above_half : m = 2 ^ 52 → (m - 1 / 4) * 2 ^ e < x

theorem Rounds.eq_of_near {x : ℚ} {m k : Nat} {e : Int} (h : Rounds x k e)
    (hlow : ((m : ℚ) - 1 / 2) * 2 ^ e < x) (hhigh : x < (m + 1 / 2) * 2 ^ e) : k = m := by
  have hnear := abs_le.mp h.near
  rw [← lt_div_iff₀ (two_zpow_pos e)] at hlow
  rw [← div_lt_iff₀ (two_zpow_pos e)] at hhigh
  have hle : (k : ℚ) < m + 1 := by linarith
  have hge : (m : ℚ) < k + 1 := by linarith
  have hle' : k < m + 1 := by exact_mod_cast hle
  have hge' : m < k + 1 := by exact_mod_cast hge
  omega

section Near

variable {x : ℚ} {m : Nat} {e : Int} (hc : Canonical m e) (hx : Near m e x)

include hc hx

theorem Near.exponent (h : 2 ^ 52 * 2 ^ e ≤ x ∨ e = -1074) : Exponent x e := by
  have hlt : (m : ℚ) + 1 ≤ 2 ^ 53 := by exact_mod_cast hc.lt
  refine ⟨hc.least, lt_trans hx.below ?_, h⟩
  apply mul_lt_mul_of_pos_right _ (two_zpow_pos e)
  linarith

theorem Near.eq_of_lt (hlt : x < 2 ^ 52 * 2 ^ e) (he : e ≠ -1074) : m = 2 ^ 52 := by
  have hge := hc.full.resolve_right he
  have hlow := lt_of_mul_lt_mul_right (lt_trans hx.above hlt) (two_zpow_pos e).le
  have hlow' : (m : ℚ) < 2 ^ 52 + 1 := by linarith
  have hle : m < 2 ^ 52 + 1 := by exact_mod_cast hlow'
  omega

theorem Near.exponent_pred (hlt : x < 2 ^ 52 * 2 ^ e) (he : e ≠ -1074) :
    Exponent x (e - 1) ∧ (2 ^ 53 - 1 / 2) * 2 ^ (e - 1) < x ∧ x < (2 ^ 53 + 1 / 2) * 2 ^ (e - 1) := by
  have hm := hx.eq_of_lt hc hlt he
  have hlow := hx.above_half hm
  have hhalf : (2 : ℚ) ^ e = 2 * 2 ^ (e - 1) := by
    rw [zpow_sub_one₀ (by norm_num)]
    ring
  rw [hm, hhalf] at hlow
  rw [hhalf] at hlt
  push_cast at hlow
  have hpos := two_zpow_pos (e - 1)
  have hleast := hc.least
  refine ⟨⟨by omega, ?_, .inl ?_⟩, ?_, ?_⟩
  all_goals linarith

theorem Near.assembled_eq {k : Nat} {f : Int} (h : Rounds x k f) (negative : Bool) :
    assembled negative k f = .finite negative m e := by
  have hmost := hc.most
  by_cases hbinade : 2 ^ 52 * 2 ^ e ≤ x ∨ e = -1074
  · obtain rfl := h.exponent.unique (hx.exponent hc hbinade)
    obtain rfl := h.eq_of_near hx.above hx.below
    have hlt := hc.lt
    rw [assembled, if_neg (by omega), if_neg (by omega)]
  · rw [not_or, not_le] at hbinade
    obtain ⟨hexponent, hlow, hhigh⟩ := hx.exponent_pred hc hbinade.1 hbinade.2
    obtain rfl := h.exponent.unique hexponent
    have hk : k = 2 ^ 53 := by
      apply h.eq_of_near
      · exact_mod_cast hlow
      · exact_mod_cast hhigh
    rw [assembled, if_pos hk, if_neg (by omega), hx.eq_of_lt hc hbinade.1 hbinade.2]
    congr 1
    omega

end Near

theorem Near.pos {m : Nat} {e : Int} {x : ℚ} (h : Near m e x) (hm : 0 < m) : 0 < x := by
  have hge : (1 : ℚ) ≤ m := by exact_mod_cast hm
  exact lt_trans (mul_pos (by linarith) (two_zpow_pos e)) h.above

theorem ofRatio_of_near {num den m : Nat} {e : Int} (negative : Bool) (hden : 0 < den) (hm : 0 < m)
    (hc : Canonical m e) (h : Near m e ((num : ℚ) / den)) :
    ofRatio negative num den = .finite negative m e := by
  have hnum : num ≠ 0 := by
    intro hzero
    have hpos := h.pos hm
    simp [hzero] at hpos
  rw [ofRatio_eq_assembled negative hnum]
  exact h.assembled_eq hc (rounds_scaled hnum hden) negative

theorem Exponent.lt_of_lt {x : ℚ} {e : Int} {k : Nat} (h : Exponent x e) (hx : x < 2 ^ k) :
    e + 52 < k ∨ e = -1074 := by
  obtain hfull | hleast := h.full
  · have hlt := lt_of_le_of_lt hfull hx
    rw [pow_mul_zpow, ← zpow_natCast, zpow_lt_zpow_iff_right₀ (by norm_num)] at hlt
    left
    push_cast at hlt
    omega
  · exact .inr hleast

theorem ofRatio_isFinite {num den : Nat} (negative : Bool) (hden : 0 < den)
    (h : (num : ℚ) / den < 2 ^ 1023) : (ofRatio negative num den).IsFinite := by
  by_cases hnum : num = 0
  · rw [ofRatio, if_pos hnum]
    exact ⟨by norm_num, le_rfl, by norm_num, .inr rfl⟩
  · rw [ofRatio_eq_assembled negative hnum]
    have hrounds := rounds_scaled hnum hden
    apply hrounds.canonical
    have := hrounds.exponent.lt_of_lt h
    omega

theorem Rounds.ge {x : ℚ} {k : Nat} {f : Int} (h : Rounds x k f) (hk : 0 < k) : 2 ^ (-1075 : Int) ≤ x := by
  have hk' : (1 : ℚ) ≤ k := by exact_mod_cast hk
  have hnear := (abs_le.mp h.near).2
  have hhalf : 1 / 2 * 2 ^ f ≤ x := by
    rw [← le_div_iff₀ (two_zpow_pos f)]
    linarith
  calc (2 : ℚ) ^ (-1075 : Int) = 1 / 2 * 2 ^ (-1074 : Int) := by
        rw [show (-1075 : Int) = -1 + -1074 by norm_num, zpow_add₀ (by norm_num)]
        norm_num
    _ ≤ 1 / 2 * 2 ^ f := by
        apply mul_le_mul_of_nonneg_left _ (by norm_num)
        exact zpow_le_zpow_right₀ (by norm_num) h.exponent.least
    _ ≤ x := hhalf

theorem pow_mul_zpow_le {f : Int} (hf : f ≤ 971) : (2 : ℚ) ^ 53 * 2 ^ f ≤ 2 ^ 1024 := by
  calc (2 : ℚ) ^ 53 * 2 ^ f ≤ 2 ^ 53 * 2 ^ (971 : Int) := by
        apply mul_le_mul_of_nonneg_left _ (by positivity)
        exact zpow_le_zpow_right₀ (by norm_num) hf
    _ = 2 ^ 1024 := by
        rw [pow_mul_zpow, ← zpow_natCast (2 : ℚ) 1024]
        norm_num

def overflow : Nat :=
  (2 ^ 54 - 1) * 2 ^ 970

theorem overflow_le {k : Nat} (h : 54 + 970 ≤ k) : overflow ≤ 2 ^ k := by
  rw [overflow]
  calc (2 ^ 54 - 1) * 2 ^ 970 ≤ 2 ^ 54 * 2 ^ 970 := Nat.mul_le_mul_right _ (Nat.sub_le _ _)
    _ = 2 ^ (54 + 970) := by rw [Nat.pow_add]
    _ ≤ 2 ^ k := Nat.pow_le_pow_right (by decide) h

theorem overflow_value : (overflow : ℚ) = (2 ^ 53 - 1 / 2) * 2 ^ (971 : Int) := by
  rw [overflow, Nat.cast_mul, Nat.cast_pow, show (971 : Int) = ((970 : Nat) : Int) + 1 by norm_num,
    zpow_add_one₀ (by norm_num), zpow_natCast, Nat.cast_ofNat]
  generalize (2 : ℚ) ^ 970 = unit
  norm_num
  ring

theorem roundDiv_half {num den q : Nat} (hden : 0 < den) (hodd : q % 2 = 1) (hlow : (q : ℚ) + 1 / 2 ≤ num / den)
    (hhigh : (num : ℚ) / den < q + 1) : roundDiv num den = q + 1 := by
  have hpos : (0 : ℚ) < den := by exact_mod_cast hden
  rw [le_div_iff₀ hpos] at hlow
  rw [div_lt_iff₀ hpos] at hhigh
  have htwice : (2 * q + 1) * den ≤ 2 * num := by
    have h : ((2 * q + 1) * den : ℚ) ≤ 2 * num := by linarith
    exact_mod_cast h
  have hnext : num < (q + 1) * den := by exact_mod_cast hhigh
  have hquot : num / den = q := by
    apply Nat.div_eq_of_lt_le
    · nlinarith
    · exact hnext
  have hrest := Nat.div_add_mod num den
  rw [hquot] at hrest
  have hhalf : den ≤ 2 * (num % den) := by nlinarith
  simp only [roundDiv, hquot]
  rw [if_neg (by omega)]
  split
  · rfl
  · rw [if_neg (by omega)]

theorem assembled_infinite {negative : Bool} {m : Nat} {e : Int} :
    (∃ s, assembled negative m e = .infinite s) ↔ 971 < e ∨ e = 971 ∧ m = 2 ^ 53 := by
  have hinfinite : (∃ s, Binary64.infinite negative = .infinite s) ↔ True := by simp
  have hfinite : ∀ m e, (∃ s, Binary64.finite negative m e = .infinite s) ↔ False := by simp
  by_cases hm : m = 2 ^ 53
  · rw [assembled, if_pos hm]
    by_cases he : 971 < e + 1
    · rw [if_pos he, hinfinite, true_iff]
      omega
    · rw [if_neg he, hfinite, false_iff]
      omega
  · rw [assembled, if_neg hm]
    by_cases he : 971 < e
    · rw [if_pos he, hinfinite, true_iff]
      exact .inl he
    · rw [if_neg he, hfinite, false_iff]
      omega

theorem Exponent.infinite_of {x : ℚ} {e : Int} (h : Exponent x e) (he : 971 < e) : (overflow : ℚ) ≤ x := by
  obtain hfull | hleast := h.full
  · calc (overflow : ℚ) ≤ 2 ^ 53 * 2 ^ (971 : Int) := by
          rw [overflow_value]
          exact mul_le_mul_of_nonneg_right (by norm_num) (two_zpow_pos _).le
      _ = 2 ^ 52 * 2 ^ (972 : Int) := by
          rw [pow_mul_zpow, pow_mul_zpow]
          norm_num
      _ ≤ 2 ^ 52 * 2 ^ e := by
          apply mul_le_mul_of_nonneg_left _ (by positivity)
          exact zpow_le_zpow_right₀ (by norm_num) (by omega)
      _ ≤ x := hfull
  · omega

theorem Exponent.le_of_overflow {x : ℚ} {e : Int} (h : Exponent x e) (hx : (overflow : ℚ) ≤ x) : 971 ≤ e := by
  by_contra hlt
  have hsmall : x < 2 ^ 53 * 2 ^ (970 : Int) := by
    refine h.lt.trans_le (mul_le_mul_of_nonneg_left ?_ (by positivity))
    exact zpow_le_zpow_right₀ (by norm_num) (by omega)
  have hhalf : (2 : ℚ) ^ (971 : Int) = 2 * 2 ^ (970 : Int) := by
    rw [show (971 : Int) = 1 + 970 by norm_num, zpow_add₀ (by norm_num), zpow_one]
  rw [overflow_value, hhalf] at hx
  have hpos := two_zpow_pos 970
  generalize (2 : ℚ) ^ (970 : Int) = unit at hx hsmall hpos
  linarith

theorem ofRatio_infinite {num den : Nat} (negative : Bool) (hden : 0 < den) :
    (∃ s, ofRatio negative num den = .infinite s) ↔ (overflow : ℚ) ≤ num / den := by
  by_cases hnum : num = 0
  · have hpos : (0 : ℚ) < overflow := by
      rw [overflow_value]
      exact mul_pos (by norm_num) (two_zpow_pos _)
    rw [ofRatio, if_pos hnum, zero, hnum, Nat.cast_zero, zero_div]
    refine iff_of_false ?_ hpos.not_ge
    rintro ⟨s, h⟩
    cases h
  · have hrounds := rounds_scaled hnum hden
    rw [ofRatio_eq_assembled negative hnum, assembled_infinite]
    have hquot := scaled_value num den 971
    have hunit := two_zpow_pos 971
    constructor
    · rintro (he | ⟨he, hm⟩)
      · exact hrounds.exponent.infinite_of he
      · have hnear := (abs_le.mp hrounds.near).2
        rw [hm, he, Nat.cast_pow] at hnear
        rw [overflow_value, ← le_div_iff₀ hunit]
        rw [Nat.cast_ofNat] at hnear
        linarith
    · intro hx
      have hle := hrounds.exponent.le_of_overflow hx
      obtain hlt | heq := lt_or_eq_of_le hle
      · exact .inl hlt
      · refine .inr ⟨heq.symm, ?_⟩
        have hhigh := hrounds.exponent.lt
        rw [← heq] at hhigh ⊢
        rw [overflow_value, ← le_div_iff₀ hunit, ← hquot] at hx
        rw [← div_lt_iff₀ hunit, ← hquot] at hhigh
        have hodd : ((2 ^ 53 - 1 : Nat) : ℚ) = 2 ^ 53 - 1 := by norm_num
        rw [roundDiv_half (q := 2 ^ 53 - 1) (scaled_pos hden 971) (by norm_num)
          (by rw [hodd]; linarith) (by rw [hodd]; linarith)]
        norm_num

theorem ofInt_infinite {n : Int} : (∃ s, ofInt n = .infinite s) ↔ overflow ≤ n.natAbs := by
  rw [ofInt, ofRatio_infinite _ Nat.one_pos, Nat.cast_one, div_one, Nat.cast_le]

theorem bounds_of_assembled {m k : Nat} {e f : Int} {negative : Bool} (hm : 0 < m)
    (h : assembled negative k f = .finite negative m e) : f ≤ 971 ∧ 0 < k := by
  unfold assembled at h
  split at h
  · split at h
    · cases h
    · omega
  · split at h
    · cases h
    · injection h with _ hk _
      omega

theorem bounds_of_ofRatio {num den m : Nat} {e : Int} {negative : Bool} (hden : 0 < den) (hm : 0 < m)
    (h : ofRatio negative num den = .finite negative m e) :
    2 ^ (-1075 : Int) ≤ (num : ℚ) / den ∧ (num : ℚ) / den < 2 ^ 1024 := by
  have hnum : num ≠ 0 := by
    intro hzero
    rw [ofRatio, if_pos hzero, zero] at h
    injection h with _ hm' _
    omega
  rw [ofRatio_eq_assembled negative hnum] at h
  obtain ⟨hmost, hpos⟩ := bounds_of_assembled hm h
  have hrounds := rounds_scaled hnum hden
  exact ⟨hrounds.ge hpos, lt_of_lt_of_le hrounds.exponent.lt (pow_mul_zpow_le hmost)⟩

theorem near_self {m : Nat} (e : Int) : Near m e (m * 2 ^ e) := by
  have hpos := two_zpow_pos e
  constructor
  · linarith
  · linarith
  · intro
    linarith

section Places

variable {m : Nat} {e : Int} (hc : Canonical m e) (places : Nat)

include hc

theorem ofRatio_places (negative : Bool) (he : 0 ≤ e) :
    ofRatio negative (roundDiv ((ratio m e).1 * Nat.pow 10 places) (ratio m e).2) (Nat.pow 10 places) =
      .finite negative m e := by
  have hten : 0 < Nat.pow 10 places := Nat.pow_pos (by omega)
  have hm : 0 < m := by
    have := hc.full
    omega
  have hvalue := ratio_value m e
  have hratio : (ratio m e).2 = 1 := by rw [ratio, if_pos he]
  rw [hratio] at hvalue ⊢
  have hx : (((ratio m e).1 * Nat.pow 10 places : Nat) : ℚ) / (Nat.pow 10 places : Nat) = m * 2 ^ e := by
    have hten' : ((Nat.pow 10 places : Nat) : ℚ) ≠ 0 := by exact_mod_cast hten.ne'
    rw [Nat.cast_mul, mul_div_cancel_right₀ _ hten', ← hvalue, Nat.cast_one, div_one]
  rw [roundDiv_one]
  apply ofRatio_of_near negative hten hm hc
  rw [hx]
  exact near_self e

theorem rounded_lt (he : e < 0) :
    (roundDiv ((ratio m e).1 * Nat.pow 10 places) (ratio m e).2 : ℚ) / (Nat.pow 10 places : Nat) < 2 ^ 1023 := by
  have hten : (1 : ℚ) ≤ (Nat.pow 10 places : Nat) := by exact_mod_cast Nat.pow_pos (by omega)
  have hnear := (abs_le.mp (roundDiv_near ((ratio m e).1 * Nat.pow 10 places) (ratio_pos m e))).2
  rw [Nat.cast_mul, mul_div_right_comm, ratio_value] at hnear
  have hsmall : (m : ℚ) * 2 ^ e < 2 ^ 53 := by
    have hlt : (m : ℚ) < 2 ^ 53 := by exact_mod_cast hc.lt
    calc (m : ℚ) * 2 ^ e ≤ m * 1 := by
          apply mul_le_mul_of_nonneg_left _ (by positivity)
          exact zpow_le_one_of_nonpos₀ (by norm_num) he.le
      _ < 2 ^ 53 := by linarith
  rw [div_lt_iff₀ (by linarith)]
  calc (roundDiv ((ratio m e).1 * Nat.pow 10 places) (ratio m e).2 : ℚ)
      ≤ m * 2 ^ e * (Nat.pow 10 places : Nat) + 1 / 2 := by linarith
    _ < 2 ^ 53 * (Nat.pow 10 places : Nat) + (Nat.pow 10 places : Nat) := by
        have := mul_lt_mul_of_pos_right hsmall (lt_of_lt_of_le one_pos hten)
        linarith
    _ = (2 ^ 53 + 1) * (Nat.pow 10 places : Nat) := by ring
    _ ≤ 2 ^ 1023 * (Nat.pow 10 places : Nat) := by
        apply mul_le_mul_of_nonneg_right _ (by linarith)
        calc (2 : ℚ) ^ 53 + 1 ≤ 2 ^ 54 := by norm_num
          _ ≤ 2 ^ 1023 := pow_le_pow_right₀ (by norm_num) (by norm_num)

end Places

theorem roundTo_isFinite {x : Binary64} (places : Nat) (h : x.IsFinite) : (x.roundTo places).IsFinite := by
  cases x with
  | notANumber => exact h.elim
  | infinite negative => exact h.elim
  | finite negative m e =>
    have hc : Canonical m e := h
    simp only [roundTo]
    by_cases he : 0 ≤ e
    · rw [ofRatio_places hc places negative he]
      exact h
    · exact ofRatio_isFinite negative (Nat.pow_pos (by omega)) (rounded_lt hc places (by omega))

end Binary64

end EdgeAudit.Number

import EdgeAudit.Proofs.NearestDouble

namespace EdgeAudit.Number

/-- A whole number with 53 leading bits: the nearest multiple of what the last of them is worth. Of two
equally near ones it is the even multiple. -/
def roundedWhole (n : Nat) : Nat :=
  let unit := 2 ^ (n.log2 - 52)
  if 2 * (n % unit) < unit ∨ 2 * (n % unit) = unit ∧ n / unit % 2 = 0 then n - n % unit
  else n - n % unit + unit

variable {n : Nat}

theorem roundedWhole_eq (n : Nat) :
    roundedWhole n = roundDiv n (2 ^ (n.log2 - 52)) * 2 ^ (n.log2 - 52) := by
  simp only [roundedWhole, roundDiv]
  generalize 2 ^ (n.log2 - 52) = unit
  have hfloor : n - n % unit = n / unit * unit := by
    have hsplit := Nat.div_add_mod' n unit
    omega
  rcases Nat.lt_trichotomy (2 * (n % unit)) unit with hlt | heq | hgt
  · rw [if_pos (.inl hlt), if_pos hlt, hfloor]
  · have hnlt : ¬ 2 * (n % unit) < unit := by omega
    have hngt : ¬ unit < 2 * (n % unit) := by omega
    rw [if_neg hnlt, if_neg hngt]
    by_cases heven : n / unit % 2 = 0
    · rw [if_pos (.inr ⟨heq, heven⟩), if_pos heven, hfloor]
    · rw [if_neg (by omega), if_neg heven, hfloor, Nat.succ_mul]
  · have hnlt : ¬ 2 * (n % unit) < unit := by omega
    rw [if_neg (by omega), if_neg hnlt, if_pos hgt, hfloor, Nat.succ_mul]

theorem log2_le_of_lt (h : n < 2 ^ 53) : n.log2 ≤ 52 := by
  by_cases hn : n = 0
  · rw [hn]
    decide
  · have hlt : n.log2 < 53 := (Nat.log2_lt hn).mpr h
    omega

theorem roundedWhole_of_lt (h : n < 2 ^ 53) : roundedWhole n = n := by
  have hlog : n.log2 - 52 = 0 := by
    have hle := log2_le_of_lt h
    omega
  rw [roundedWhole_eq, hlog, Nat.pow_zero, roundDiv_one, Nat.mul_one]

theorem ne_zero_of_large (h : 2 ^ 53 ≤ n) : n ≠ 0 := by
  rintro rfl
  exact absurd h (by decide)

theorem le_log2 (h : 2 ^ 53 ≤ n) : 53 ≤ n.log2 :=
  (Nat.le_log2 (ne_zero_of_large h)).mpr h

theorem leading_bounds (h : 2 ^ 53 ≤ n) :
    2 ^ 52 ≤ roundDiv n (2 ^ (n.log2 - 52)) ∧ roundDiv n (2 ^ (n.log2 - 52)) ≤ 2 ^ 53 := by
  have hlog := le_log2 h
  have hlow : 2 ^ 52 ≤ n / 2 ^ (n.log2 - 52) := by
    rw [Nat.le_div_iff_mul_le (Nat.two_pow_pos _), ← Nat.pow_add]
    rw [(by omega : 52 + (n.log2 - 52) = n.log2)]
    exact Nat.log2_self_le (ne_zero_of_large h)
  have hhigh : n / 2 ^ (n.log2 - 52) < 2 ^ 53 := by
    rw [Nat.div_lt_iff_lt_mul (Nat.two_pow_pos _), ← Nat.pow_add]
    rw [(by omega : 53 + (n.log2 - 52) = n.log2 + 1)]
    exact Nat.lt_log2_self
  rcases roundDiv_eq_or n (2 ^ (n.log2 - 52)) with hround | hround
  · omega
  · omega

theorem le_roundedWhole (n : Nat) : n ≤ roundedWhole n + n / 2 ^ 52 := by
  by_cases h : n < 2 ^ 53
  · rw [roundedWhole_of_lt h]
    omega
  · have hlarge : 2 ^ 53 ≤ n := by omega
    have hlog := le_log2 hlarge
    have hunit : 2 ^ (n.log2 - 52) ≤ n / 2 ^ 52 := by
      rw [Nat.le_div_iff_mul_le (Nat.two_pow_pos _), ← Nat.pow_add,
        (by omega : n.log2 - 52 + 52 = n.log2)]
      exact Nat.log2_self_le (ne_zero_of_large hlarge)
    have hfloor : n / 2 ^ (n.log2 - 52) * 2 ^ (n.log2 - 52) ≤ roundedWhole n := by
      rw [roundedWhole_eq]
      apply Nat.mul_le_mul_right
      rcases roundDiv_eq_or n (2 ^ (n.log2 - 52)) with hround | hround
      · omega
      · omega
    have hsplit := Nat.div_add_mod' n (2 ^ (n.log2 - 52))
    have hmod := Nat.mod_lt n (Nat.two_pow_pos (n.log2 - 52))
    omega

namespace Binary64

theorem exponentOf_whole (hn : n ≠ 0) : exponentOf n 1 = (n.log2 : Int) - 52 := by
  apply (exponentOf_spec hn Nat.one_pos).unique
  rw [Nat.cast_one, div_one]
  refine ⟨by omega, ?_, .inl ?_⟩
  · rw [pow_mul_zpow, (by omega : ((53 : Nat) : Int) + (n.log2 - 52) = n.log2 + 1)]
    exact lt_two_pow_log2 n
  · rw [pow_mul_zpow, (by omega : ((52 : Nat) : Int) + (n.log2 - 52) = n.log2)]
    exact two_pow_log2_le hn

theorem toInt?_natCast (m k : Nat) : (finite false m k).toInt? = some ((m * 2 ^ k : Nat) : Int) := by
  simp [toInt?, ratio, Nat.mod_one]

theorem toInt?_neg (n j : Nat) : (finite false (n * 2 ^ j) (-(j : Int))).toInt? = some (n : Int) := by
  by_cases hzero : j = 0
  · subst hzero
    simp [toInt?, ratio, Nat.mod_one]
  · simp [toInt?, ratio, hzero]

theorem scaled_neg (n j : Nat) : scaled n 1 (-(j : Int)) = (n * 2 ^ j, 1) := by
  by_cases hzero : j = 0
  · subst hzero
    simp [scaled]
  · simp [scaled, hzero]

theorem ofRatio_small (hn : n ≠ 0) (h : n < 2 ^ 53) : (ofRatio false n 1).toInt? = some (n : Int) := by
  have hlog := log2_le_of_lt h
  obtain ⟨j, hj⟩ : ∃ j, n.log2 + j = 52 := ⟨52 - n.log2, by omega⟩
  have hm : n * 2 ^ j < 2 ^ 53 := by
    calc n * 2 ^ j < 2 ^ (n.log2 + 1) * 2 ^ j :=
          Nat.mul_lt_mul_of_pos_right Nat.lt_log2_self (Nat.two_pow_pos j)
      _ = 2 ^ 53 := by rw [← Nat.pow_add, (by omega : n.log2 + 1 + j = 53)]
  have hfew : ¬ (971 : Int) < -(j : Int) := by omega
  rw [ofRatio_eq_assembled false hn, exponentOf_whole hn, (by omega : (n.log2 : Int) - 52 = -(j : Int)),
    scaled_neg, roundDiv_one, assembled, if_neg (Nat.ne_of_lt hm), if_neg hfew]
  exact toInt?_neg n j

theorem assembled_cases {m : Nat} (k : Nat) (hlow : 2 ^ 52 ≤ m) (hhigh : m ≤ 2 ^ 53) :
    (m * 2 ^ k < 2 ^ 1024 ∧ (assembled false m k).toInt? = some ((m * 2 ^ k : Nat) : Int)) ∨
      (2 ^ 1024 ≤ m * 2 ^ k ∧ assembled false m k = .infinite false) := by
  unfold assembled
  by_cases hm : m = 2 ^ 53
  · rw [if_pos hm, hm, ← Nat.pow_add]
    by_cases hk : (971 : Int) < k + 1
    · right
      rw [if_pos hk]
      exact ⟨Nat.pow_le_pow_right (by decide) (by omega), rfl⟩
    · left
      rw [if_neg hk]
      refine ⟨Nat.pow_lt_pow_right (by decide) (by omega), ?_⟩
      rw [← Int.natCast_succ, toInt?_natCast, ← Nat.pow_add, (by omega : 52 + (k + 1) = 53 + k)]
  · rw [if_neg hm]
    by_cases hk : (971 : Int) < k
    · right
      rw [if_pos hk]
      refine ⟨?_, rfl⟩
      calc 2 ^ 1024 ≤ 2 ^ (52 + k) := Nat.pow_le_pow_right (by decide) (by omega)
        _ = 2 ^ 52 * 2 ^ k := Nat.pow_add 2 52 k
        _ ≤ m * 2 ^ k := Nat.mul_le_mul_right _ hlow
    · left
      rw [if_neg hk]
      refine ⟨?_, toInt?_natCast m k⟩
      calc m * 2 ^ k < 2 ^ 53 * 2 ^ k :=
            Nat.mul_lt_mul_of_pos_right (by omega) (Nat.two_pow_pos k)
        _ = 2 ^ (53 + k) := (Nat.pow_add 2 53 k).symm
        _ ≤ 2 ^ 1024 := Nat.pow_le_pow_right (by decide) (by omega)

theorem ofRatio_cases (hn : n ≠ 0) :
    (roundedWhole n < 2 ^ 1024 ∧ (ofRatio false n 1).toInt? = some (roundedWhole n : Int)) ∨
      (2 ^ 1024 ≤ roundedWhole n ∧ ofRatio false n 1 = .infinite false) := by
  by_cases h : n < 2 ^ 53
  · left
    rw [roundedWhole_of_lt h]
    exact ⟨Nat.lt_trans h (Nat.pow_lt_pow_right (by decide) (by decide)), ofRatio_small hn h⟩
  · have hlarge : 2 ^ 53 ≤ n := by omega
    have hlog := le_log2 hlarge
    obtain ⟨hlow, hhigh⟩ := leading_bounds hlarge
    have hexponent : (n.log2 : Int) - 52 = ((n.log2 - 52 : Nat) : Int) := by omega
    have hscaled : scaled n 1 ((n.log2 - 52 : Nat) : Int) = (n, 2 ^ (n.log2 - 52)) := by
      simp [scaled]
    rw [ofRatio_eq_assembled false hn, exponentOf_whole hn, hexponent, hscaled]
    rw [roundedWhole_eq]
    exact assembled_cases _ hlow hhigh

theorem ofDecimal_cases (n : Nat) :
    (roundedWhole n < 2 ^ 1024 ∧ (ofDecimal false n 0).toInt? = some (roundedWhole n : Int)) ∨
      (2 ^ 1024 ≤ roundedWhole n ∧ ofDecimal false n 0 = .infinite false) := by
  by_cases hn : n = 0
  · subst hn
    left
    rw [roundedWhole_of_lt (by decide)]
    have hzero : (ofDecimal false 0 0).toInt? = (finite false (0 * 2 ^ 1074) (-(1074 : Nat))).toInt? := by
      rw [Nat.zero_mul, ofDecimal, if_pos rfl, zero]
      rfl
    exact ⟨Nat.two_pow_pos 1024, hzero.trans (toInt?_neg 0 1074)⟩
  · rw [ofDecimal, if_neg hn]
    by_cases hmany : (400 : Int) < (n.log2 : Int) * 30103 / 100000 + 0
    · right
      have hlog : 1024 ≤ n.log2 := by omega
      have hlarge : 2 ^ 53 ≤ n := by
        refine Nat.le_trans ?_ (Nat.log2_self_le hn)
        exact Nat.pow_le_pow_right (by decide) (Nat.le_trans (by decide) hlog)
      have hbits := (leading_bounds hlarge).1
      refine ⟨?_, if_pos hmany⟩
      have hsplit : 52 + (n.log2 - 52) = n.log2 := Nat.add_sub_cancel' (Nat.le_trans (by decide) hlog)
      calc 2 ^ 1024 ≤ 2 ^ n.log2 := Nat.pow_le_pow_right (by decide) hlog
        _ = 2 ^ (52 + (n.log2 - 52)) := by rw [hsplit]
        _ = 2 ^ 52 * 2 ^ (n.log2 - 52) := Nat.pow_add 2 52 _
        _ ≤ roundedWhole n := by
          rw [roundedWhole_eq]
          exact Nat.mul_le_mul_right _ hbits
    · have hsome : ¬ (n.log2 : Int) * 30103 / 100000 + 0 < -400 := by omega
      have hwhole : n * Nat.pow 10 (0 : Int).toNat = n := Nat.mul_one n
      simp only [if_neg hmany, if_neg hsome, le_refl, if_true, hwhole]
      exact ofRatio_cases hn

end Binary64

end EdgeAudit.Number

import EdgeAudit.Number.Literal
import Mathlib.Algebra.Order.Ring.Nat
import Mathlib.Tactic.Ring

namespace EdgeAudit.Number

theorem roundDiv_le (num den : Nat) : roundDiv num den ≤ num / den + 1 := by
  simp only [roundDiv]
  split
  · omega
  · split
    · omega
    · split <;> omega

theorem digitsValue?_lt {base n : Nat} {value? : Char → Option Nat} {cs : List Char}
    (h : digitsValue? base value? cs = some n) : n < base ^ cs.length := by
  -- for any digits read before: `acc` is raised by less than one unit of its last place
  have hfold : ∀ (cs : List Char) (acc n : Nat), cs.foldlM (fun acc c => do
      let d ← value? c
      if d < base then some (acc * base + d) else none) acc = some n →
        n < (acc + 1) * base ^ cs.length := by
    intro cs
    induction cs with
    | nil =>
      intro acc n h
      cases h
      simp
    | cons c cs ih =>
      intro acc n h
      rw [List.foldlM_cons] at h
      obtain ⟨next, hnext, hrest⟩ := Option.bind_eq_some_iff.mp h
      obtain ⟨d, -, hd⟩ := Option.bind_eq_some_iff.mp hnext
      split at hd
      · rename_i hlt
        cases hd
        calc n < (acc * base + d + 1) * base ^ cs.length := ih _ n hrest
          _ ≤ ((acc + 1) * base) * base ^ cs.length := by
            apply Nat.mul_le_mul_right
            rw [Nat.add_mul]
            omega
          _ = (acc + 1) * base ^ (c :: cs).length := by
            rw [List.length_cons, Nat.pow_succ]
            ring
      · cases hd
  rw [digitsValue?] at h
  split at h
  · cases h
  · have hn := hfold cs 0 n h
    simpa using hn

theorem digitsValue?_foldl {base : Nat} {value? : Char → Option Nat} {value : Char → Nat}
    {cs : List Char} (h : ∀ c ∈ cs, value? c = some (value c) ∧ value c < base) (hne : cs ≠ []) :
    digitsValue? base value? cs = some (cs.foldl (fun acc c => acc * base + value c) 0) := by
  have hfold : ∀ acc, cs.foldlM (fun acc c => do
      let d ← value? c
      if d < base then some (acc * base + d) else none) acc =
        some (cs.foldl (fun acc c => acc * base + value c) acc) := by
    clear hne
    induction cs with
    | nil => exact fun acc => rfl
    | cons c cs ih =>
      intro acc
      obtain ⟨hvalue, hlt⟩ := h c (by simp)
      simpa [hvalue, hlt] using ih (fun d hd => h d (by simp [hd])) (acc * base + value c)
  rw [digitsValue?, if_neg (by simpa using hne), hfold]

theorem normalizeDigits_plain {cs : List Char} (hascii : ∀ c ∈ cs, c.toNat < 128)
    (hblank : ∀ c ∈ cs, isAsciiBlank c = false) : normalizeDigits cs = cs := by
  have hstay : ∀ xs : List Char, (∀ c ∈ xs, isAsciiBlank c = false) → xs.dropWhile isAsciiBlank = xs := by
    intro xs hxs
    cases xs with
    | nil => rfl
    | cons c xs => rw [List.dropWhile_cons_of_neg (by simp [hxs c (by simp)])]
  have hall : cs.all (fun c => decide (c.toNat < 128)) = true :=
    List.all_eq_true.mpr fun c hc => decide_eq_true (hascii c hc)
  rw [normalizeDigits, if_pos hall, stripBy, hstay cs hblank,
    hstay cs.reverse fun c hc => hblank c (List.mem_reverse.mp hc), List.reverse_reverse]

theorem two_pow_lt_ten_pow {a b : Nat} (h : a * 30103 < b * 100000) : 2 ^ a < 10 ^ b := by
  have hbase : 2 ^ 100000 ≤ 10 ^ 30103 := by decide +kernel
  apply lt_of_pow_lt_pow_left₀ 100000 (Nat.zero_le _)
  calc (2 ^ a) ^ 100000 = (2 ^ 100000) ^ a := by rw [← pow_mul, ← pow_mul, Nat.mul_comm]
    _ ≤ (10 ^ 30103) ^ a := Nat.pow_le_pow_left hbase a
    _ = 10 ^ (a * 30103) := by rw [← pow_mul, Nat.mul_comm]
    _ < 10 ^ (b * 100000) := Nat.pow_lt_pow_right (by decide) h
    _ = (10 ^ b) ^ 100000 := by rw [pow_mul]

namespace Binary64

variable {negative : Bool} {m num den k : Nat} {e n : Int}

theorem natAbs_of_toInt? (h : (finite negative m e).toInt? = some n) :
    n.natAbs = (ratio m e).1 / (ratio m e).2 := by
  simp only [toInt?] at h
  split at h
  · cases h
    split
    · rw [Int.natAbs_neg, ← Int.natCast_ediv, Int.natAbs_natCast]
    · rw [← Int.natCast_ediv, Int.natAbs_natCast]
  · cases h

theorem zero_toInt? (h : (zero negative).toInt? = some n) : n.natAbs = 0 := by
  have hzero : (ratio 0 (-1074)).1 = 0 := rfl
  rw [natAbs_of_toInt? h, hzero, Nat.zero_div]

theorem ratio_le (he : e ≤ (k : Int)) : (ratio m e).1 / (ratio m e).2 ≤ m * 2 ^ k := by
  by_cases hsign : 0 ≤ e
  · rw [ratio, if_pos hsign, Nat.div_one]
    exact Nat.mul_le_mul_left m (Nat.pow_le_pow_right (by decide) (by omega))
  · rw [ratio, if_neg hsign]
    exact Nat.le_trans (Nat.div_le_self _ _) (Nat.le_mul_of_pos_right m (Nat.two_pow_pos k))

theorem rounded_le (hden : 0 < den) (he : e ≤ (k : Int)) :
    (ratio (roundDiv (scaled num den e).1 (scaled num den e).2) e).1 /
      (ratio (roundDiv (scaled num den e).1 (scaled num den e).2) e).2 ≤ num / den + 2 ^ k := by
  have hround := roundDiv_le (scaled num den e).1 (scaled num den e).2
  by_cases hsign : 0 ≤ e
  · simp only [scaled, ratio, if_pos hsign, Nat.div_one, Nat.pow_eq] at hround ⊢
    have hunit : 2 ^ e.toNat ≤ 2 ^ k := Nat.pow_le_pow_right (by decide) (by omega)
    calc roundDiv num (den * 2 ^ e.toNat) * 2 ^ e.toNat
        ≤ (num / (den * 2 ^ e.toNat) + 1) * 2 ^ e.toNat := Nat.mul_le_mul_right _ hround
      _ = num / den / 2 ^ e.toNat * 2 ^ e.toNat + 2 ^ e.toNat := by
        rw [Nat.add_mul, Nat.one_mul, Nat.div_div_eq_div_mul]
      _ ≤ num / den + 2 ^ k := Nat.add_le_add (Nat.div_mul_le_self _ _) hunit
  · simp only [scaled, ratio, if_neg hsign, Nat.pow_eq] at hround ⊢
    have hunit : 0 < 2 ^ (-e).toNat := Nat.two_pow_pos _
    have hnum : num < (num / den + 1) * den :=
      (Nat.div_lt_iff_lt_mul hden).mp (Nat.lt_succ_self _)
    have hlt : num * 2 ^ (-e).toNat / den < (num / den + 1) * 2 ^ (-e).toNat := by
      rw [Nat.div_lt_iff_lt_mul hden]
      calc num * 2 ^ (-e).toNat < (num / den + 1) * den * 2 ^ (-e).toNat :=
            Nat.mul_lt_mul_of_pos_right hnum hunit
        _ = (num / den + 1) * 2 ^ (-e).toNat * den := by ring
    calc roundDiv (num * 2 ^ (-e).toNat) den / 2 ^ (-e).toNat
        ≤ ((num / den + 1) * 2 ^ (-e).toNat) / 2 ^ (-e).toNat := Nat.div_le_div_right (by omega)
      _ = num / den + 1 := Nat.mul_div_cancel _ hunit
      _ ≤ num / den + 2 ^ k := Nat.add_le_add_left Nat.one_le_two_pow _

def mostExponent : Nat := 971

theorem ofRatio_toInt?_le (hden : 0 < den) (h : (ofRatio negative num den).toInt? = some n) :
    n.natAbs ≤ num / den + 2 ^ 52 * 2 ^ mostExponent := by
  rw [ofRatio] at h
  split at h
  · rw [zero_toInt? h]
    exact Nat.zero_le _
  · simp only at h
    split at h
    · split at h
      · cases h
      · rename_i he
        rw [natAbs_of_toInt? h]
        have hle : exponentOf num den + 1 ≤ (mostExponent : Int) := Int.not_lt.mp he
        exact Nat.le_trans (ratio_le hle) (Nat.le_add_left _ _)
    · split at h
      · cases h
      · rename_i he
        rw [natAbs_of_toInt? h]
        have hle : exponentOf num den ≤ (mostExponent : Int) := Int.not_lt.mp he
        refine Nat.le_trans (rounded_le hden hle) (Nat.add_le_add_left ?_ _)
        exact Nat.le_mul_of_pos_left _ (Nat.two_pow_pos 52)

theorem magnitude_bound {digits : Nat} (h : (digits.log2 : Int) * 30103 / 100000 + e ≤ (k : Int)) :
    digits * 10 ^ e.toNat < 10 ^ (k + 2) * 10 ^ (-e).toNat := by
  have hpow : 2 ^ digits.log2 < 10 ^ (k + 1 - e).toNat := by
    apply two_pow_lt_ten_pow
    omega
  have hlog : digits < 2 ^ (digits.log2 + 1) := Nat.lt_log2_self
  have hexponent : (k + 1 - e).toNat + e.toNat + 1 = k + 2 + (-e).toNat := by omega
  calc digits * 10 ^ e.toNat < 2 ^ (digits.log2 + 1) * 10 ^ e.toNat :=
        Nat.mul_lt_mul_of_pos_right hlog (Nat.pow_pos (by decide))
    _ = 2 ^ digits.log2 * 2 * 10 ^ e.toNat := by rw [Nat.pow_succ]
    _ ≤ 10 ^ (k + 1 - e).toNat * 10 * 10 ^ e.toNat :=
        Nat.mul_le_mul_right _ (Nat.mul_le_mul (Nat.le_of_lt hpow) (by decide))
    _ = 10 ^ ((k + 1 - e).toNat + e.toNat + 1) := by
        rw [Nat.pow_succ, Nat.pow_add]
        ring
    _ = 10 ^ (k + 2) * 10 ^ (-e).toNat := by rw [hexponent, Nat.pow_add]

theorem quotient_lt {digits : Nat} (h : (digits.log2 : Int) * 30103 / 100000 + e ≤ (k : Int)) :
    (0 ≤ e → digits * 10 ^ e.toNat < 10 ^ (k + 2)) ∧
      (¬ 0 ≤ e → digits / 10 ^ (-e).toNat < 10 ^ (k + 2)) := by
  have hbound := magnitude_bound h
  refine ⟨?_, ?_⟩
  · intro he
    rwa [Int.toNat_of_nonpos (by omega : -e ≤ 0), Nat.pow_zero, Nat.mul_one] at hbound
  · intro he
    rw [Int.toNat_of_nonpos (by omega : e ≤ 0), Nat.pow_zero, Nat.mul_one] at hbound
    exact (Nat.div_lt_iff_lt_mul (Nat.pow_pos (by decide))).mpr hbound

def mostMagnitude : Nat := 400

theorem ofDecimal_toInt?_lt {digits : Nat} (h : (ofDecimal negative digits e).toInt? = some n) :
    n.natAbs < 10 ^ maxWholeDigits := by
  have hroom : 10 ^ (mostMagnitude + 2) + 2 ^ 52 * 2 ^ mostExponent < 10 ^ maxWholeDigits := by
    decide +kernel
  have hpos : 0 < 10 ^ maxWholeDigits := Nat.pow_pos (by decide)
  rw [ofDecimal] at h
  split at h
  · rwa [zero_toInt? h]
  · simp only at h
    split at h
    · cases h
    · rename_i hmagnitude
      have hquotient := quotient_lt (k := mostMagnitude) (Int.not_lt.mp hmagnitude)
      split at h
      · rwa [zero_toInt? h]
      · split at h
        · rename_i hsign
          have hle := ofRatio_toInt?_le (by decide) h
          rw [Nat.div_one] at hle
          exact Nat.lt_of_le_of_lt hle (Nat.lt_trans (Nat.add_lt_add_right (hquotient.1 hsign) _) hroom)
        · rename_i hsign
          have hle := ofRatio_toInt?_le (Nat.pow_pos (by decide)) h
          exact Nat.lt_of_le_of_lt hle (Nat.lt_trans (Nat.add_lt_add_right (hquotient.2 hsign) _) hroom)

end Binary64

theorem real?_toInt?_lt {cs : List Char} {x : Binary64} {n : Int} (hx : real? cs = some x)
    (h : x.toInt? = some n) : n.natAbs < 10 ^ maxWholeDigits := by
  simp only [real?] at hx
  split at hx
  · cases hx
    cases h
  split at hx
  · cases hx
    cases h
  · obtain ⟨digits, -, hrest⟩ := Option.bind_eq_some_iff.mp hx
    obtain ⟨e, -, heq⟩ := Option.bind_eq_some_iff.mp hrest
    cases heq
    exact Binary64.ofDecimal_toInt?_lt h

def isBased (cs : List Char) : Bool :=
  (splitBase (splitSign (normalizeDigits cs)).2).1 != 10

theorem whole?_lt {cs : List Char} {n : Int} (hplain : isBased cs = false) (h : whole? cs = some n) :
    n.natAbs < 10 ^ maxWholeDigits := by
  rw [isBased, bne_eq_false_iff_eq] at hplain
  simp only [whole?, hplain] at h
  obtain ⟨k, hk, hrest⟩ := Option.bind_eq_some_iff.mp h
  have hvalue := digitsValue?_lt hk
  simp only [if_true] at hrest
  split at hrest
  · cases hrest
  split at hrest
  · cases hrest
  · rename_i hlength
    cases hrest
    have hpow := Nat.pow_le_pow_right (n := 10) (by decide) (Nat.not_lt.mp hlength)
    split <;> omega

theorem parse?_lt {literal : String} {n : Int} (hplain : isBased (literal.toList.filter (· != '_')) = false)
    (h : parse? literal = some (.whole n)) : n.natAbs < 10 ^ maxWholeDigits := by
  simp only [parse?] at h
  split at h
  · rename_i k hwhole
    cases h
    exact whole?_lt hplain hwhole
  · obtain ⟨x, hx, hmatch⟩ := Option.map_eq_some_iff.mp h
    split at hmatch
    · rename_i k hk
      cases hmatch
      exact real?_toInt?_lt hx hk
    · cases hmatch

end EdgeAudit.Number

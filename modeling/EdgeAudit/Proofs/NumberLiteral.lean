import EdgeAudit.Proofs.CallStatement
import EdgeAudit.Proofs.LineHits
import EdgeAudit.Proofs.WholeDelay

namespace EdgeAudit.Number

open Listing Script Text

inductive Separated : List Char → List Char → Prop
  | last (d : Char) : Separated [d] [d]
  | next (d : Char) {ds text : List Char} : Separated ds text → Separated (d :: ds) (d :: text)
  | apart (d : Char) {ds text : List Char} :
      Separated ds text → Separated (d :: ds) (d :: '_' :: text)

def IsDigitOf (v : Nat) (c : Char) : Prop :=
  c = v.digitChar ∨ c = v.digitChar.toUpper

def baseMarks : List (Char × Nat) :=
  [('x', 16), ('X', 16), ('o', 8), ('O', 8), ('b', 2), ('B', 2)]

/-- The literals of a number: its decimal digits without zeros in front, or digits in another base
after their mark. -/
inductive Writes (n : Nat) : List Char → Prop
  | decimal {text : List Char} (h : Separated (Nat.toDigits 10 n) text) : Writes n text
  | based {mark : Char} {base : Nat} {vs : List Nat} {ds text : List Char}
      (hmark : (mark, base) ∈ baseMarks) (hvs : ∀ v ∈ vs, v < base)
      (hvalue : Nat.ofDigits base vs.reverse = n) (hds : List.Forall₂ IsDigitOf vs ds)
      (h : Separated ds text) : Writes n ('0' :: mark :: text)

namespace Separated

variable {ds text r : List Char} {p : Char → Bool}

theorem exists_cons (h : Separated ds text) : ∃ d ds' text', ds = d :: ds' ∧ text = d :: text' := by
  cases h <;> exact ⟨_, _, _, rfl, rfl⟩

theorem self (hne : ds ≠ []) : Separated ds ds := by
  induction ds with
  | nil => exact absurd rfl hne
  | cons d ds ih =>
    cases ds with
    | nil => exact .last d
    | cons e ds => exact .next d (ih (List.cons_ne_nil _ _))

theorem mem (h : Separated ds text) : ∀ c ∈ text, c ∈ ds ∨ c = '_' := by
  induction h with
  | last d => exact fun c hc => .inl hc
  | next d h ih =>
    intro c hc
    rcases List.mem_cons.mp hc with rfl | hc
    · exact .inl (by simp)
    · exact (ih c hc).imp_left (List.mem_cons_of_mem d)
  | apart d h ih =>
    intro c hc
    rcases List.mem_cons.mp hc with rfl | hc
    · exact .inl (by simp)
    · rcases List.mem_cons.mp hc with rfl | hc
      · exact .inr rfl
      · exact (ih c hc).imp_left (List.mem_cons_of_mem d)

theorem filter (h : Separated ds text) (hds : ∀ d ∈ ds, d ≠ '_') : text.filter (· != '_') = ds := by
  induction h with
  | last d => simpa using hds
  | next d h ih =>
    have hd : d ≠ '_' := hds d (by simp)
    simp [hd, ih fun e he => hds e (by simp [he])]
  | apart d h ih =>
    have hd : d ≠ '_' := hds d (by simp)
    simp [hd, ih fun e he => hds e (by simp [he])]

section Length

variable (hline : p '_' = false)

include hline

theorem digitsFrom_digit {d : Char} {cs : List Char} (after : Bool) (hd : p d = true) :
    digitsFrom p after (d :: cs) = 1 + digitsFrom p true cs := by
  have hne : d ≠ '_' := by
    rintro rfl
    rw [hline] at hd
    cases hd
  rw [digitsFrom.eq_def]
  split <;> simp_all

theorem digitsFrom_eq (h : Separated ds text) (hp : ∀ d ∈ ds, p d = true) (hclose : p ')' = false)
    (after : Bool) : digitsFrom p after (text ++ ')' :: r) = text.length := by
  induction h generalizing after with
  | last d =>
    have hstop : digitsFrom p true (')' :: r) = 0 := by simp [digitsFrom, hclose]
    rw [List.singleton_append, digitsFrom_digit hline after (hp d (by simp)), hstop]
    rfl
  | next d h ih =>
    have hrest := ih (fun e he => hp e (by simp [he])) true
    rw [List.cons_append, digitsFrom_digit hline after (hp d (by simp)), hrest, List.length_cons,
      Nat.add_comm]
  | apart d h ih =>
    obtain ⟨e, es, rest, rfl, rfl⟩ := h.exists_cons
    have he : p e = true := hp e (by simp)
    have hrest := ih (fun e he => hp e (by simp [he])) true
    rw [List.cons_append, digitsFrom_digit hline true he, List.length_cons] at hrest
    have hpass : digitsFrom p true ('_' :: e :: (rest ++ ')' :: r)) =
        2 + digitsFrom p true (rest ++ ')' :: r) := by simp [digitsFrom, he]
    rw [List.cons_append, List.cons_append, List.cons_append,
      digitsFrom_digit hline after (hp d (by simp)), hpass]
    simp only [List.length_cons]
    omega

end Length

end Separated

section Decimal

theorem isDecimal_of_isDigit {c : Char} (h : c.isDigit = true) : isDecimal c = true :=
  InText.ascii_forall (P := fun c => c.isDigit = true → isDecimal c = true) (by decide)
    (alphanum_ascii (by simp [Char.isAlphanum, h])) h

theorem eq_zero_of_head? {n : Nat} (h : (Nat.toDigits 10 n).head? = some '0') : n = 0 := by
  induction n using Nat.strongRecOn with
  | ind n ih =>
    rw [Nat.toDigits_eq_if (by decide)] at h
    split at h
    · exact Nat.digitChar_eq_zero.mp (Option.some.inj h)
    · rw [List.head?_append_of_ne_nil _ Nat.toDigits_ne_nil] at h
      have hless := ih (n / 10) (by omega) h
      omega

def decimalOf {n : Nat} (hn : n < 10 ^ maxWholeDigits) : Listing.Decimal where
  digits := Nat.toDigits 10 n
  nonempty := Nat.toDigits_ne_nil
  plain c hc := Nat.isDigit_of_mem_toDigits (by decide) (by decide) hc
  zero h := by
    rw [eq_zero_of_head? h]
    rfl
  short := (Nat.length_toDigits_le_iff (by decide) (by decide)).mpr hn

theorem decimalLength_eq {cs r : List Char} {m : Nat} (hdigits : digitsLength isDecimal cs = m)
    (hwhole : wholeLength cs = m) (hrest : cs.drop m = ')' :: r) (hm : 0 < m) : decimalLength cs = m := by
  have hne : m ≠ 0 := by omega
  simp [decimalLength, hdigits, hwhole, hrest, exponentLength, hne]

variable (delay : Listing.Decimal) {text : List Char} (h : Separated delay.digits text)

include h

theorem separated_cases : text = ['0'] ∨ ∃ d rest, text = d :: rest ∧ d ≠ '0' ∧ d.isDigit = true := by
  obtain ⟨d, ds, rest, hds, rfl⟩ := h.exists_cons
  by_cases hd : d = '0'
  · have hzero := delay.zero (by rw [hds, hd]; rfl)
    rw [hzero] at h
    cases h with
    | last => exact .inl rfl
    | next _ h => cases h
    | apart _ h => cases h
  · exact .inr ⟨d, rest, rfl, hd, delay.plain d (by simp [hds])⟩

theorem isNumeral_decimal : IsNumeral text := by
  rcases separated_cases delay h with rfl | ⟨d, rest, rfl, hd, hdigit⟩
  · exact ⟨rfl, fun r => rfl⟩
  · refine ⟨isDecimal_of_isDigit hdigit, ?_⟩
    intro r
    have hlength : digitsLength isDecimal (d :: rest ++ ')' :: r) = (d :: rest).length :=
      h.digitsFrom_eq (by decide) (fun c hc => isDecimal_of_isDigit (delay.plain c hc)) (by decide) false
    have hnumber : numberLength (d :: rest ++ ')' :: r) = decimalLength (d :: rest ++ ')' :: r) := by
      rw [List.cons_append, numberLength.eq_def]
      split <;> simp_all
    have hwhole : wholeLength (d :: rest ++ ')' :: r) = digitsLength isDecimal (d :: rest ++ ')' :: r) := by
      rw [List.cons_append, wholeLength.eq_def]
      split <;> simp_all
    rw [hnumber]
    exact decimalLength_eq hlength (hwhole.trans hlength) (List.drop_left) (Nat.succ_pos _)

theorem readAsNumber_separated : ReadAsNumber text := by
  have hmem : ∀ c ∈ text, c.isDigit = true ∨ c = '_' :=
    fun c hc => (h.mem c hc).imp_left (delay.plain c)
  obtain ⟨d, ds, rest, hds, rfl⟩ := h.exists_cons
  exact readAsNumber_decimal (delay.plain d (by simp [hds])) (fun c hc => hmem c (by simp [hc]))

end Decimal

section Based

theorem base_le {mark : Char} {base : Nat} (hmark : (mark, base) ∈ baseMarks) : base ≤ 16 :=
  (by decide : ∀ m ∈ baseMarks, m.2 ≤ 16) _ hmark

theorem digit_forall {P : Nat → Char → Prop} {base : Nat}
    (h : ∀ v < base, P v v.digitChar ∧ P v v.digitChar.toUpper) {v : Nat} {c : Char} (hv : v < base)
    (hc : IsDigitOf v c) : P v c := by
  rcases hc with rfl | rfl
  · exact (h v hv).1
  · exact (h v hv).2

theorem digit_plain {v : Nat} {c : Char} (hv : v < 16) (hc : IsDigitOf v c) :
    hexValue? c = some v ∧ c.toNat < 128 ∧ isAsciiBlank c = false ∧ c ≠ '_' :=
  digit_forall (P := fun v c => hexValue? c = some v ∧ c.toNat < 128 ∧ isAsciiBlank c = false ∧ c ≠ '_')
    (by decide) hv hc

variable {mark : Char} {base : Nat} {ds text : List Char} (hmark : (mark, base) ∈ baseMarks)
  (hds : ∀ d ∈ ds, ∃ v < base, IsDigitOf v d) (h : Separated ds text)

section Class

variable {p : Char → Bool} (hp : ∀ v < base, p v.digitChar = true ∧ p v.digitChar.toUpper = true)

include hds hp

theorem digits_of_class : ∀ d ∈ ds, p d = true := by
  intro d hd
  obtain ⟨v, hv, hdigit⟩ := hds d hd
  exact digit_forall (P := fun _ c => p c = true) hp hv hdigit

include h

theorem basedLength_eq (hline : p '_' = false) (hclose : p ')' = false) (r : List Char) :
    basedLength p (text ++ ')' :: r) = text.length + 2 := by
  have hlength : digitsLength p (text ++ ')' :: r) = text.length :=
    h.digitsFrom_eq hline (digits_of_class hds hp) hclose false
  obtain ⟨d, ds', rest, -, rfl⟩ := h.exists_cons
  simp only [basedLength, hlength, List.drop_left]
  simp
  omega

theorem text_of_class (hline : p '_' = true) : ∀ c ∈ text, p c = true := by
  intro c hc
  rcases h.mem c hc with hc | rfl
  · exact digits_of_class hds hp c hc
  · exact hline

end Class

include hmark hds h

theorem isNumeral_based : IsNumeral ('0' :: mark :: text) := by
  refine ⟨rfl, fun r => ?_⟩
  have hdecimal : ∀ y, ∀ m ∈ baseMarks, decimalLength ('0' :: m.1 :: y) = 1 := by
    intro y m hm
    simp only [baseMarks, List.mem_cons, List.not_mem_nil, or_false] at hm
    rcases hm with rfl | rfl | rfl | rfl | rfl | rfl <;> rfl
  have hbased : numberLength ('0' :: mark :: text ++ ')' :: r) = max (text.length + 2)
      (decimalLength ('0' :: mark :: (text ++ ')' :: r))) := by
    simp only [baseMarks, List.mem_cons, Prod.mk.injEq, List.not_mem_nil, or_false] at hmark
    rcases hmark with ⟨rfl, rfl⟩ | ⟨rfl, rfl⟩ | ⟨rfl, rfl⟩ | ⟨rfl, rfl⟩ | ⟨rfl, rfl⟩ | ⟨rfl, rfl⟩
    all_goals
      rw [← basedLength_eq hds h _ _ _ r]
      · rfl
      all_goals decide
  rw [hbased, hdecimal _ _ hmark]
  simp

theorem readAsNumber_based : ReadAsNumber ('0' :: mark :: text) := by
  refine ⟨⟨'0', mark :: text, rfl, by decide⟩, ?_⟩
  intro β k s x r hs hk
  have hne : text ≠ [] := by
    obtain ⟨d, ds', rest, -, rfl⟩ := h.exists_cons
    exact List.cons_ne_nil _ _
  have hread : ∀ {m digit : Char → Bool}, m mark = true → digit '_' = true → digit ')' = false →
      (∀ v < base, digit v.digitChar = true ∧ digit v.digitChar.toUpper = true) →
        Pattern.read (InText.based m digit) k s = some x :=
    fun hm hline hclose hdigit => read_based hm (text_of_class hds h hdigit hline) hne hclose hs hk
  simp only [baseMarks, List.mem_cons, Prod.mk.injEq, List.not_mem_nil, or_false] at hmark
  -- The alternatives stand in the order of the bases; those before the right one fail at the mark.
  rcases hmark with ⟨rfl, rfl⟩ | ⟨rfl, rfl⟩ | ⟨rfl, rfl⟩ | ⟨rfl, rfl⟩ | ⟨rfl, rfl⟩ | ⟨rfl, rfl⟩
  iterate 2
    exact Pattern.read_either_left (hread (by decide) (by decide) (by decide) (by decide))
  iterate 2
    refine (Pattern.read_either_right (fails_based_mark (by decide) hs)).trans ?_
    exact Pattern.read_either_left (hread (by decide) (by decide) (by decide) (by decide))
  iterate 2
    refine (Pattern.read_either_right (fails_based_mark (by decide) hs)).trans ?_
    refine (Pattern.read_either_right (fails_based_mark (by decide) hs)).trans ?_
    exact Pattern.read_either_left (hread (by decide) (by decide) (by decide) (by decide))

theorem parse?_based {n : Nat} (hvalue : digitsValue? base hexValue? ds = some n) :
    parse? (String.ofList ('0' :: mark :: text)) = some (.whole n) := by
  have hplain : ∀ c ∈ '0' :: mark :: ds, c.toNat < 128 ∧ isAsciiBlank c = false ∧ c ≠ '_' := by
    have hletter : ∀ m ∈ baseMarks, m.1.toNat < 128 ∧ isAsciiBlank m.1 = false ∧ m.1 ≠ '_' := by decide
    simp only [List.forall_mem_cons]
    refine ⟨by decide, hletter _ hmark, ?_⟩
    intro c hc
    obtain ⟨v, hv, hdigit⟩ := hds c hc
    exact (digit_plain (Nat.lt_of_lt_of_le hv (base_le hmark)) hdigit).2
  have hfilter : ('0' :: mark :: text).filter (· != '_') = '0' :: mark :: ds := by
    have hline : mark ≠ '_' := (hplain mark (by simp)).2.2
    have htext := h.filter fun d hd => (hplain d (by simp [hd])).2.2
    simp [hline, htext]
  have hnormal : normalizeDigits ('0' :: mark :: ds) = '0' :: mark :: ds :=
    normalizeDigits_plain (fun c hc => (hplain c hc).1) (fun c hc => (hplain c hc).2.1)
  have hwhole : whole? ('0' :: mark :: ds) = some (n : Int) := by
    simp only [baseMarks, List.mem_cons, Prod.mk.injEq, List.not_mem_nil, or_false] at hmark
    rcases hmark with ⟨rfl, rfl⟩ | ⟨rfl, rfl⟩ | ⟨rfl, rfl⟩ | ⟨rfl, rfl⟩ | ⟨rfl, rfl⟩ | ⟨rfl, rfl⟩ <;>
      simp [whole?, hnormal, splitSign, splitBase, hvalue]
  rw [parse?, String.toList_ofList, hfilter]
  simp only [hwhole]

end Based

section Digits

variable {base : Nat} {vs : List Nat} {ds : List Char} (hvs : ∀ v ∈ vs, v < base)
  (hds : List.Forall₂ IsDigitOf vs ds)

include hvs hds

theorem exists_value : ∀ d ∈ ds, ∃ v < base, IsDigitOf v d := by
  induction hds with
  | nil => simp
  | @cons v c vs ds hdigit hds ih =>
    simp only [List.forall_mem_cons] at hvs ⊢
    exact ⟨⟨v, hvs.1, hdigit⟩, ih hvs.2⟩

theorem digitsValue?_ofDigits (hbase : base ≤ 16) (hne : ds ≠ []) :
    digitsValue? base hexValue? ds = some (Nat.ofDigits base vs.reverse) := by
  have hvalue : ∀ c ∈ ds, hexValue? c = some ((hexValue? c).getD 0) ∧ (hexValue? c).getD 0 < base := by
    intro c hc
    obtain ⟨v, hv, hdigit⟩ := exists_value hvs hds c hc
    rw [(digit_plain (Nat.lt_of_lt_of_le hv hbase) hdigit).1]
    exact ⟨rfl, hv⟩
  have hfold : ∀ acc, ds.foldl (fun acc c => acc * base + (hexValue? c).getD 0) acc =
      acc * base ^ vs.length + Nat.ofDigits base vs.reverse := by
    clear hne hvalue
    induction hds with
    | nil => simp
    | @cons v c vs ds hdigit hds ih =>
      intro acc
      have hvalue := (digit_plain (Nat.lt_of_lt_of_le (hvs v (by simp)) hbase) hdigit).1
      rw [List.foldl_cons, ih fun u hu => hvs u (by simp [hu])]
      simp only [hvalue, Option.getD_some, List.reverse_cons, Nat.ofDigits_append, List.length_reverse,
        Nat.ofDigits_singleton, List.length_cons, Nat.pow_succ]
      ring
  rw [digitsValue?_foldl hvalue hne, hfold, Nat.zero_mul, Nat.zero_add]

end Digits

namespace Writes

variable {n : Nat} {literal : List Char} (h : Writes n literal) (hn : n < 10 ^ maxWholeDigits)

include h hn

theorem isNumeral : IsNumeral literal := by
  cases h with
  | decimal h => exact isNumeral_decimal (decimalOf hn) h
  | based hmark hvs hvalue hds h => exact isNumeral_based hmark (exists_value hvs hds) h

theorem readAsNumber : ReadAsNumber literal := by
  cases h with
  | decimal h => exact readAsNumber_separated (decimalOf hn) h
  | based hmark hvs hvalue hds h => exact readAsNumber_based hmark (exists_value hvs hds) h

theorem parse?_eq : parse? (String.ofList literal) = some (.whole n) := by
  cases h with
  | decimal h =>
    have hfilter := h.filter fun d hd hline => by
      rw [hline] at hd
      exact absurd ((decimalOf hn).plain '_' hd) (by decide)
    rw [(decimalOf hn).parse?_of_filter hfilter]
    show some (Quantity.whole (Nat.ofDigitChars 10 (Nat.toDigits 10 n) 0 : Nat)) = _
    rw [Nat.ofDigitChars_ten_toDigits]
  | based hmark hvs hvalue hds h =>
    apply parse?_based hmark (exists_value hvs hds) h
    rw [← hvalue]
    apply digitsValue?_ofDigits hvs hds (base_le hmark)
    obtain ⟨d, ds', rest, rfl, -⟩ := h.exists_cons
    exact List.cons_ne_nil _ _

end Writes

end EdgeAudit.Number

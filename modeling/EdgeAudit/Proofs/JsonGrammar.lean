import EdgeAudit.Proofs.NumberLiteral
import EdgeAudit.Proofs.WholeDelay
import EdgeAudit.Text.Json

/-!
The grammar of JSON, with the value that each text stands for, and the reading of its strings and numbers.
-/

namespace EdgeAudit.Json

open Number Text

def IsSpace (c : Char) : Prop :=
  c = ' ' ∨ c = '\n' ∨ c = '\r' ∨ c = '\t'

def Spaces (w : List Char) : Prop :=
  ∀ c ∈ w, IsSpace c

structure Digits (ds : List Char) : Prop where
  nonempty : ds ≠ []
  plain : ∀ d ∈ ds, d.isDigit = true

structure WholeText (ds : List Char) : Prop extends Digits ds where
  zero : ds.head? = some '0' → ds = ['0']

def minus (negative : Bool) : List Char :=
  if negative then ['-'] else []

def signed (negative : Bool) (n : Nat) : Int :=
  if negative then -n else n

theorem signed_natAbs (n : Int) : signed (n < 0) n.natAbs = n := by
  by_cases h : n < 0
  · simp only [signed, decide_eq_true h, if_true]
    omega
  · simp only [signed, decide_eq_false h, if_neg Bool.false_ne_true]
    omega

inductive FractionText : List Char → List Char → Prop
  | absent : FractionText [] []
  | point {ds : List Char} (h : Digits ds) : FractionText ('.' :: ds) ds

def powerSigns : List (List Char × Bool) :=
  [([], false), (['+'], false), (['-'], true)]

inductive PowerText : List Char → Int → Prop
  | absent : PowerText [] 0
  | marked {mark : Char} {sign ds : List Char} {negative : Bool} (hmark : mark = 'e' ∨ mark = 'E')
      (hsign : (sign, negative) ∈ powerSigns) (h : Digits ds) :
      PowerText (mark :: (sign ++ ds)) (signed negative (Nat.ofDigitChars 10 ds 0))

/-- A number is whole without a fraction and a power; else it is the nearest double. -/
inductive NumberText : List Char → Json → Prop
  | whole (negative : Bool) {whole : List Char} (h : WholeText whole) :
      NumberText (Json.minus negative ++ whole) (.int (signed negative (Nat.ofDigitChars 10 whole 0)))
  | real (negative : Bool) {whole fraction ds power : List Char} {e : Int} (hwhole : WholeText whole)
      (hfraction : FractionText fraction ds) (hpower : PowerText power e) (h : fraction ++ power ≠ []) :
      NumberText (Json.minus negative ++ (whole ++ (fraction ++ power)))
        (.real (.ofDecimal negative (Nat.ofDigitChars 10 (whole ++ ds) 0) (e - ds.length)))

def HexText (ds : List Char) (n : Nat) : Prop :=
  ∃ vs : List Nat, vs.length = 4 ∧ (∀ v ∈ vs, v < 16) ∧ List.Forall₂ IsDigitOf vs ds ∧
    n = Nat.ofDigits 16 vs.reverse

def shortEscapes : List (Char × Char) :=
  [('"', '"'), ('\\', '\\'), ('/', '/'), ('b', Char.ofNat 8), ('f', Char.ofNat 12), ('n', '\n'), ('r', '\r'),
    ('t', '\t')]

inductive CharText : List Char → Char → Prop
  | plain {c : Char} (hc : 0x20 ≤ c.toNat) (hquote : c ≠ '"') (hslash : c ≠ '\\') : CharText [c] c
  | short {mark c : Char} (h : (mark, c) ∈ shortEscapes) : CharText ['\\', mark] c
  | unit {ds : List Char} {c : Char} (h : HexText ds c.toNat) : CharText ('\\' :: 'u' :: ds) c
  | pair {ds ds' : List Char} {high low : Nat} {c : Char} (hhigh : HexText ds high) (hlow : HexText ds' low)
      (hh : 0xD800 ≤ high ∧ high < 0xDC00) (hl : 0xDC00 ≤ low ∧ low < 0xE000)
      (hc : c.toNat = 0x10000 + (high - 0xD800) * 0x400 + (low - 0xDC00)) :
      CharText ('\\' :: 'u' :: ds ++ '\\' :: 'u' :: ds') c

inductive CharsText : List Char → List Char → Prop
  | nil : CharsText [] []
  | cons {t ts cs : List Char} {c : Char} (h : CharText t c) (hs : CharsText ts cs) :
      CharsText (t ++ ts) (c :: cs)

def StringText (t : List Char) (s : String) : Prop :=
  ∃ body, CharsText body s.toList ∧ t = '"' :: body ++ ['"']

def KeyText (t : List Char) (s : String) : Prop :=
  ∃ a quoted b, Spaces a ∧ StringText quoted s ∧ Spaces b ∧ t = a ++ (quoted ++ b)

structure Member where
  keyText : List Char
  key : String
  valueText : List Char
  value : Json

def Member.text (m : Member) : List Char :=
  m.keyText ++ ':' :: m.valueText

def Member.pair (m : Member) : String × Json :=
  (m.key, m.value)

def boolText : Bool → List Char
  | true => ['t', 'r', 'u', 'e']
  | false => ['f', 'a', 'l', 's', 'e']

/-- A text and the value that it stands for. -/
inductive ValueText : List Char → Json → Prop
  | null : ValueText ['n', 'u', 'l', 'l'] .null
  | bool (b : Bool) : ValueText (boolText b) (.bool b)
  | number {t : List Char} {j : Json} (h : NumberText t j) : ValueText t j
  | str {t : List Char} {s : String} (h : StringText t s) : ValueText t (.str s)
  | emptyArr {w : List Char} (h : Spaces w) : ValueText ('[' :: w ++ [']']) (.arr [])
  | arr {items : List (List Char × Json)} (hne : items ≠ []) (h : ∀ p ∈ items, ValueText p.1 p.2) :
      ValueText ('[' :: [','].intercalate (items.map (·.1)) ++ [']']) (.arr (items.map (·.2)))
  | emptyObj {w : List Char} (h : Spaces w) : ValueText ('\x7b' :: w ++ ['\x7d']) (.obj [])
  | obj {members : List Member} (hne : members ≠ []) (hkeys : ∀ m ∈ members, KeyText m.keyText m.key)
      (h : ∀ m ∈ members, ValueText m.valueText m.value) :
      ValueText ('\x7b' :: [','].intercalate (members.map (·.text)) ++ ['\x7d']) (.obj (members.map (·.pair)))
  | spaced {a t b : List Char} {j : Json} (ha : Spaces a) (h : ValueText t j) (hb : Spaces b) :
      ValueText (a ++ (t ++ b)) j

def Denotes (text : String) (j : Json) : Prop :=
  ValueText text.toList j

section Spaces

variable {w w' cs : List Char} {c : Char}

theorem Spaces.append (h : Spaces w) (h' : Spaces w') : Spaces (w ++ w') := by
  intro c hc
  rw [List.mem_append] at hc
  exact hc.elim (h c) (h' c)

theorem skipBlank_space (h : IsSpace c) : skipBlank (c :: cs) = skipBlank cs := by
  rw [skipBlank]
  exact if_pos h

theorem skipBlank_spaces (h : Spaces w) (cs : List Char) : skipBlank (w ++ cs) = skipBlank cs := by
  induction w with
  | nil => rfl
  | cons c w ih =>
    obtain ⟨hc, hw⟩ := List.forall_mem_cons.mp h
    rw [List.cons_append, skipBlank_space hc, ih hw]

theorem skipBlank_cons (h : ¬ IsSpace c) : skipBlank (c :: cs) = c :: cs := by
  rw [skipBlank]
  exact if_neg h

theorem skipBlank_skipBlank (cs : List Char) : skipBlank (skipBlank cs) = skipBlank cs := by
  induction cs with
  | nil => rfl
  | cons c cs ih =>
    by_cases hc : IsSpace c
    · rw [skipBlank_space hc, ih]
    · rw [skipBlank_cons hc, skipBlank_cons hc]

end Spaces

section Strings

theorem readHex4_append {ds rest : List Char} {n : Nat} (h : HexText ds n) :
    readHex4 (ds ++ rest) = some (n, rest) := by
  obtain ⟨vs, hlength, hvs, hds, rfl⟩ := h
  have hds4 : ds.length = 4 := by rw [← hds.length_eq, hlength]
  have hne : ds ≠ [] := by
    rintro rfl
    simp at hds4
  have hvalue := digitsValue?_ofDigits hvs hds (by omega) hne
  obtain ⟨a, b, c, d, rfl⟩ := List.length_eq_four.mp hds4
  show (digitsValue? 16 hexValue? [a, b, c, d]).bind _ = _
  rw [hvalue]
  rfl

theorem readEscape_short {mark c : Char} {rest : List Char} (h : (mark, c) ∈ shortEscapes) :
    readEscape (mark :: rest) = some (c, rest) := by
  simp only [shortEscapes, List.mem_cons, Prod.mk.injEq, List.not_mem_nil, or_false] at h
  rcases h with h | h | h | h | h | h | h | h
  all_goals
    obtain ⟨rfl, rfl⟩ := h
    rfl

theorem readEscape_unit {ds rest : List Char} {c : Char} (h : HexText ds c.toNat) :
    readEscape ('u' :: (ds ++ rest)) = some (c, rest) := by
  have hvalid : c.toNat < 0xD800 ∨ 0xDFFF < c.toNat := by
    have := c.valid
    simp only [UInt32.isValidChar, Nat.isValidChar] at this
    rw [Char.toNat]
    omega
  rw [readEscape, readHex4_append h]
  show (if 0xD800 ≤ c.toNat ∧ c.toNat < 0xDC00 then _ else _) = _
  rw [if_neg (by omega), if_neg (by omega), Char.ofNat_toNat]

theorem readEscape_pair {ds ds' rest : List Char} {high low : Nat} {c : Char} (hhigh : HexText ds high)
    (hlow : HexText ds' low) (hh : 0xD800 ≤ high ∧ high < 0xDC00) (hl : 0xDC00 ≤ low ∧ low < 0xE000)
    (hc : c.toNat = 0x10000 + (high - 0xD800) * 0x400 + (low - 0xDC00)) :
    readEscape ('u' :: (ds ++ '\\' :: 'u' :: (ds' ++ rest))) = some (c, rest) := by
  rw [readEscape, readHex4_append hhigh]
  show (if 0xD800 ≤ high ∧ high < 0xDC00 then _ else _) = _
  rw [if_pos hh]
  show (readHex4 (ds' ++ rest)).bind _ = _
  rw [readHex4_append hlow]
  show (if 0xDC00 ≤ low ∧ low < 0xE000 then _ else _) = _
  rw [if_pos hl, ← hc, Char.ofNat_toNat]

theorem readString_char {t rest acc : List Char} {c : Char} (h : CharText t c) (n : Nat) :
    readString (n + 1) acc (t ++ rest) = readString n (c :: acc) rest := by
  cases h with
  | plain hc hquote hslash =>
    rw [List.singleton_append, readString]
    · exact hquote
    · exact hslash
  | short h =>
    show (readEscape (_ :: rest)).bind _ = _
    rw [readEscape_short h]
    rfl
  | unit h =>
    show (readEscape ('u' :: (_ ++ rest))).bind _ = _
    rw [readEscape_unit h]
    rfl
  | @pair ds ds' high low _ hhigh hlow hh hl hc =>
    have htext : ('\\' :: 'u' :: ds ++ '\\' :: 'u' :: ds') ++ rest =
        '\\' :: 'u' :: (ds ++ '\\' :: 'u' :: (ds' ++ rest)) := by simp
    rw [htext]
    show (readEscape ('u' :: (ds ++ '\\' :: 'u' :: (ds' ++ rest)))).bind _ = _
    rw [readEscape_pair hhigh hlow hh hl hc]
    rfl

theorem CharText.length_pos {t : List Char} {c : Char} (h : CharText t c) : 0 < t.length := by
  cases h <;> simp

theorem readString_chars {body cs : List Char} (h : CharsText body cs) (rest : List Char) :
    ∀ (n : Nat) (acc : List Char), body.length < n →
      readString n acc (body ++ '"' :: rest) = some (String.ofList (acc.reverse ++ cs), rest) := by
  induction h with
  | nil =>
    intro n acc hn
    obtain ⟨n, rfl⟩ : ∃ k, n = k + 1 := ⟨n - 1, by simp at hn; omega⟩
    simp [readString]
  | @cons t ts cs c h hs ih =>
    intro n acc hn
    have hpos := h.length_pos
    rw [List.length_append] at hn
    obtain ⟨n, rfl⟩ : ∃ k, n = k + 1 := ⟨n - 1, by omega⟩
    rw [List.append_assoc, readString_char h, ih n (c :: acc) (by omega)]
    simp

theorem readString_quoted {body : List Char} {s : String} (h : CharsText body s.toList) (rest : List Char) :
    readString ((body ++ '"' :: rest).length + 1) [] (body ++ '"' :: rest) = some (s, rest) := by
  rw [readString_chars h rest _ [] (by simp)]
  simp

end Strings

section Numbers

theorem span_append {p : Char → Bool} {t rest : List Char} (ht : ∀ c ∈ t, p c = true)
    (hrest : ∀ c ∈ rest.head?, p c = false) : (t ++ rest).span p = (t, rest) := by
  rw [List.span_eq_takeWhile_dropWhile, List.takeWhile_append_of_pos ht, List.dropWhile_append_of_pos ht]
  cases rest with
  | nil => simp
  | cons c rest =>
    have hc := hrest c (by simp)
    rw [List.takeWhile_cons_of_neg (by simp [hc]), List.dropWhile_cons_of_neg (by simp [hc]), List.append_nil]

theorem Digits.exists_cons {ds : List Char} (h : Digits ds) : ∃ d r, ds = d :: r ∧ d.isDigit = true := by
  obtain ⟨d, r, rfl⟩ := List.exists_cons_of_ne_nil h.nonempty
  exact ⟨d, r, rfl, h.plain d (by simp)⟩

theorem Digits.mem {ds : List Char} (h : Digits ds) {c : Char} (hc : c ∈ ds) : isNumberChar c = true := by
  simp [isNumberChar, h.plain c hc]

theorem splitSign_digits {ds : List Char} (h : Digits ds) (rest : List Char) :
    splitSign (ds ++ rest) = (false, ds ++ rest) := by
  obtain ⟨d, r, rfl, hd⟩ := h.exists_cons
  have hsign := (Listing.digit_value hd).2.2
  simp only [List.mem_cons, List.not_mem_nil, or_false, not_or] at hsign
  rw [List.cons_append, splitSign]
  · exact fun _ h => hsign.2.1 (List.cons.inj h).1
  · exact fun _ h => hsign.2.2 (List.cons.inj h).1

theorem splitSign_minus (negative : Bool) {ds : List Char} (h : Digits ds) (rest : List Char) :
    splitSign (minus negative ++ (ds ++ rest)) = (negative, ds ++ rest) := by
  cases negative with
  | false =>
    show splitSign (ds ++ rest) = _
    exact splitSign_digits h rest
  | true => rfl

theorem spanDigits_append {ds rest : List Char} (h : ∀ d ∈ ds, d.isDigit = true)
    (hrest : ∀ c ∈ rest.head?, c.isDigit = false) : spanDigits (ds ++ rest) = (ds, rest) :=
  span_append (p := fun c => '0' ≤ c && c ≤ '9') h hrest

theorem powerSigns_cases {sign : List Char} {negative : Bool} (h : (sign, negative) ∈ powerSigns) :
    (sign = [] ∧ negative = false) ∨ (sign = ['+'] ∧ negative = false) ∨ (sign = ['-'] ∧ negative = true) := by
  simpa [powerSigns] using h

theorem splitSign_power {sign ds : List Char} {negative : Bool} (hsign : (sign, negative) ∈ powerSigns)
    (h : Digits ds) : splitSign (sign ++ ds) = (negative, ds) := by
  rcases powerSigns_cases hsign with ⟨rfl, rfl⟩ | ⟨rfl, rfl⟩ | ⟨rfl, rfl⟩
  · have hdigits := splitSign_digits h []
    rwa [List.append_nil] at hdigits
  · rfl
  · rfl

theorem mem_sign {sign : List Char} {negative : Bool} {c : Char} (hsign : (sign, negative) ∈ powerSigns)
    (hc : c ∈ sign) : isNumberChar c = true := by
  rcases powerSigns_cases hsign with ⟨rfl, rfl⟩ | ⟨rfl, rfl⟩ | ⟨rfl, rfl⟩
  · cases hc
  all_goals
    obtain rfl := List.mem_singleton.mp hc
    rfl

section Tail

variable {fraction ds power : List Char} {e : Int} (hfraction : FractionText fraction ds)
  (hpower : PowerText power e)

include hpower

theorem power_cases : power = [] ∨ ∃ c r, power = c :: r ∧ (c = 'e' ∨ c = 'E') := by
  cases hpower with
  | absent => exact .inl rfl
  | marked hmark hsign h => exact .inr ⟨_, _, rfl, hmark⟩

theorem exponent?_eq : exponent? power = some e := by
  cases hpower with
  | absent => rfl
  | @marked mark sign ds negative hmark hsign h =>
    rw [exponent?, if_pos hmark, splitSign_power hsign h]
    show (digitsValue? 10 hexValue? ds).bind _ = _
    rw [Listing.digits_value h.plain h.nonempty]
    rfl

theorem power_head : ∀ c ∈ power.head?, c.isDigit = false := by
  obtain rfl | ⟨c, r, rfl, hc⟩ := power_cases hpower
  · simp
  · rw [List.head?_cons]
    rintro c' ⟨rfl⟩
    obtain rfl | rfl := hc <;> rfl

theorem mem_power : ∀ c ∈ power, isNumberChar c = true := by
  cases hpower with
  | absent => simp
  | @marked mark sign ds negative hmark hsign h =>
    have hmark' : isNumberChar mark = true := by
      obtain rfl | rfl := hmark <;> rfl
    intro c hc
    obtain rfl | hc := List.mem_cons.mp hc
    · exact hmark'
    · exact (List.mem_append.mp hc).elim (mem_sign hsign) h.mem

include hfraction

theorem tail_head : ∀ c ∈ (fraction ++ power).head?, c.isDigit = false := by
  cases hfraction with
  | absent => exact power_head hpower
  | point h =>
    rw [List.cons_append, List.head?_cons]
    rintro c ⟨rfl⟩
    rfl

theorem mem_tail : ∀ c ∈ fraction ++ power, isNumberChar c = true := by
  intro c hc
  rw [List.mem_append] at hc
  obtain hc | hc := hc
  · cases hfraction with
    | absent => cases hc
    | point h =>
      rw [List.mem_cons] at hc
      obtain rfl | hc := hc
      · rfl
      · exact h.mem hc
  · exact mem_power hpower c hc

theorem fraction?_eq (negative : Bool) {whole : List Char} (hwhole : Digits whole) :
    fraction? negative (whole ++ (fraction ++ power)) =
      some (.ofDecimal negative (Nat.ofDigitChars 10 (whole ++ ds) 0) (e - ds.length)) := by
  have hspan := spanDigits_append hwhole.plain (tail_head hfraction hpower)
  have hdigits : ∀ c ∈ whole ++ ds, c.isDigit = true := by
    intro c hc
    rw [List.mem_append] at hc
    obtain hc | hc := hc
    · exact hwhole.plain c hc
    · cases hfraction with
      | absent => cases hc
      | point h => exact h.plain c hc
  have hvalue := Listing.digits_value hdigits (by simp [hwhole.nonempty])
  have hexponent := exponent?_eq hpower
  rw [fraction?, hspan]
  cases hfraction with
  | absent =>
    obtain rfl | ⟨c, r, rfl, hc⟩ := power_cases hpower
    · show (digitsValue? 10 hexValue? (whole ++ [])).bind _ = _
      rw [hvalue]
      cases hpower
      rfl
    · obtain rfl | rfl := hc
      all_goals
        show (digitsValue? 10 hexValue? (whole ++ [])).bind _ = _
        rw [hvalue]
        show (exponent? (_ :: r)).bind _ = _
        rw [hexponent]
        rfl
  | point h =>
    have hpart := spanDigits_append h.plain (power_head hpower)
    show (digitsValue? 10 hexValue? (whole ++ (spanDigits (ds ++ power)).1)).bind (fun digits =>
      (exponent? (spanDigits (ds ++ power)).2).bind fun e =>
        some (Binary64.ofDecimal negative digits (e - (spanDigits (ds ++ power)).1.length))) = _
    rw [hpart, hvalue]
    show (exponent? power).bind _ = _
    rw [hexponent]
    rfl

end Tail

theorem numberChar_plain {c : Char} (h : isNumberChar c = true) : c.toNat < 128 ∧ isAsciiBlank c = false := by
  simp only [isNumberChar, Bool.or_eq_true, beq_iff_eq] at h
  rcases h with ((((h | rfl) | rfl) | rfl) | rfl) | rfl
  · exact ⟨Listing.alphanum_ascii (by simp [Char.isAlphanum, h]), (Listing.digit_value h).2.1⟩
  all_goals decide

theorem mem_minus {negative : Bool} {c : Char} (h : c ∈ minus negative) : isNumberChar c = true := by
  cases negative with
  | false => cases h
  | true =>
    obtain rfl := List.mem_singleton.mp h
    rfl

theorem NumberText.mem {t : List Char} {j : Json} (h : NumberText t j) : ∀ c ∈ t, isNumberChar c = true := by
  intro c hc
  cases h with
  | whole negative h => exact (List.mem_append.mp hc).elim mem_minus h.toDigits.mem
  | real negative hwhole hfraction hpower h =>
    obtain hc | hc := List.mem_append.mp hc
    · exact mem_minus hc
    · exact (List.mem_append.mp hc).elim hwhole.toDigits.mem (mem_tail hfraction hpower c)

theorem NumberText.head {t : List Char} {j : Json} (h : NumberText t j) :
    ∃ c r, t = c :: r ∧ (c = '-' ∨ c.isDigit = true) := by
  have hhead : ∀ (negative : Bool) {ds : List Char} (rest : List Char), WholeText ds →
      ∃ c r, minus negative ++ (ds ++ rest) = c :: r ∧ (c = '-' ∨ c.isDigit = true) := by
    intro negative ds rest h
    cases negative with
    | true => exact ⟨'-', _, rfl, .inl rfl⟩
    | false =>
      obtain ⟨d, r, rfl, hd⟩ := h.exists_cons
      exact ⟨d, r ++ rest, rfl, .inr hd⟩
  cases h with
  | whole negative h =>
    have hempty := hhead negative [] h
    rwa [List.append_nil] at hempty
  | real negative hwhole hfraction hpower h => exact hhead negative _ hwhole

theorem lower_ne {ds : List Char} (h : Digits ds) (rest : List Char) {c : Char} (hc : c = 'i' ∨ c = 'n')
    (r : List Char) : String.ofList ((ds ++ rest).map Char.toLower) ≠ String.ofList (c :: r) := by
  intro heq
  obtain ⟨d, r, rfl, hd⟩ := h.exists_cons
  have hlower : d.toLower ≠ 'i' ∧ d.toLower ≠ 'n' :=
    InText.ascii_forall (P := fun c => c.isDigit = true → c.toLower ≠ 'i' ∧ c.toLower ≠ 'n') (by decide)
      (Listing.alphanum_ascii (by simp [Char.isAlphanum, hd])) hd
  have hhead := (List.cons.inj (String.ofList_injective heq)).1
  rw [← hhead] at hc
  exact hc.elim hlower.1 hlower.2

theorem readNumber_eq {t : List Char} {j : Json} (h : NumberText t j) : readNumber t = some j := by
  have hplain : normalizeDigits t = t := by
    apply normalizeDigits_plain
    · exact fun c hc => (numberChar_plain (h.mem c hc)).1
    · exact fun c hc => (numberChar_plain (h.mem c hc)).2
  cases h with
  | @whole negative whole hwhole =>
    have hsign := splitSign_minus negative hwhole.toDigits []
    rw [List.append_nil] at hsign
    rw [readNumber, hsign]
    show (if whole.all Char.isDigit = true then _ else _) = _
    rw [if_pos (List.all_eq_true.mpr hwhole.plain), Listing.digits_value hwhole.plain hwhole.nonempty]
    rfl
  | @real negative whole fraction ds power e hwhole hfraction hpower h =>
    have hsign := splitSign_minus negative hwhole.toDigits (fraction ++ power)
    have hall : (whole ++ (fraction ++ power)).all Char.isDigit = false := by
      obtain ⟨c, r, htail⟩ := List.exists_cons_of_ne_nil h
      have hc := tail_head hfraction hpower c (by rw [htail]; rfl)
      rw [htail]
      simp [hc]
    have hinf := lower_ne hwhole.toDigits (fraction ++ power) (.inl rfl) ['n', 'f']
    have hinfinity := lower_ne hwhole.toDigits (fraction ++ power) (.inl rfl) ['n', 'f', 'i', 'n', 'i', 't', 'y']
    have hnan := lower_ne hwhole.toDigits (fraction ++ power) (.inr rfl) ['a', 'n']
    have hreal : real? (minus negative ++ (whole ++ (fraction ++ power))) =
        fraction? negative (whole ++ (fraction ++ power)) := by
      rw [real?, hplain, hsign]
      exact (if_neg (not_or.mpr ⟨hinf, hinfinity⟩)).trans (if_neg hnan)
    rw [readNumber, hsign]
    show (if (whole ++ (fraction ++ power)).all Char.isDigit = true then _ else _) = _
    rw [hall, if_neg Bool.false_ne_true, hreal, fraction?_eq hfraction hpower negative hwhole.toDigits]
    rfl

end Numbers

end EdgeAudit.Json

import EdgeAudit.Text.Utf8
import Mathlib.Data.List.Forall2
import Mathlib.Tactic.SplitIfs

/-!
Decoding what was encoded. The bytes after the first one of a character lie in the ranges that the first
byte asks for (`encode_fits`). So a whole character is read as it was written, whatever follows it, and
one that is cut off is a single fault that takes all of its bytes. Bytes that lie in these ranges are the
encoding of the character that is read from them (`encode_codeOf`).
-/

namespace EdgeAudit.Text

section Ranges

variable {n : Nat}

theorem continuationRanges_one (h : n < 0x80) : continuationRanges n = some [] :=
  if_pos h

theorem continuationRanges_two (h : 0xC2 ≤ n) (h' : n < 0xE0) :
    continuationRanges n = some [(0x80, 0xBF)] := by
  grind [continuationRanges]

theorem continuationRanges_three (h : 0xE0 ≤ n) (h' : n < 0xF0) :
    continuationRanges n = some [(if n = 0xE0 then 0xA0 else 0x80, if n = 0xED then 0x9F else 0xBF),
      (0x80, 0xBF)] := by
  grind [continuationRanges]

theorem continuationRanges_four (h : 0xF0 ≤ n) (h' : n ≤ 0xF4) :
    continuationRanges n = some [(if n = 0xF0 then 0x90 else 0x80, if n = 0xF4 then 0x8F else 0xBF),
      (0x80, 0xBF), (0x80, 0xBF)] := by
  grind [continuationRanges]

theorem continuationRanges_none (h : 0x80 ≤ n ∧ n < 0xC2 ∨ 0xF4 < n) : continuationRanges n = none := by
  grind [continuationRanges]

end Ranges

def Fits (ranges : List (Nat × Nat)) (bytes : List UInt8) : Prop :=
  List.Forall₂ (fun r b => r.1 ≤ b.toNat ∧ b.toNat ≤ r.2) ranges bytes

def codeOf (first : UInt8) (more : List UInt8) : Nat :=
  more.foldl (fun n b => n * 64 + b.toNat % 64) (firstBits first.toNat more.length)

theorem codeOf_two (a b : UInt8) : codeOf a [b] = a.toNat % 32 * 64 + b.toNat % 64 := rfl

theorem codeOf_three (a b c : UInt8) :
    codeOf a [b, c] = (a.toNat % 16 * 64 + b.toNat % 64) * 64 + c.toNat % 64 := rfl

theorem codeOf_four (a b c d : UInt8) : codeOf a [b, c, d] =
    ((a.toNat % 8 * 64 + b.toNat % 64) * 64 + c.toNat % 64) * 64 + d.toNat % 64 := rfl

theorem toNat_byte {n : Nat} (h : n < 256) : (UInt8.ofNat n).toNat = n :=
  UInt8.toNat_ofNat_of_lt' h

theorem encode_fits (c : Char) : ∃ first more ranges, String.utf8EncodeChar c = first :: more ∧
    continuationRanges first.toNat = some ranges ∧ Fits ranges more ∧ codeOf first more = c.toNat := by
  have hvalid : c.val.toNat < 0xD800 ∨ 0xDFFF < c.val.toNat ∧ c.val.toNat < 0x110000 := c.valid
  unfold String.utf8EncodeChar
  change ∃ first more ranges, _ ∧ _ ∧ _ ∧ _ = c.val.toNat
  generalize c.val.toNat = v at hvalid ⊢
  have htail (w : Nat) : (UInt8.ofNat (w % 64 + 128)).toNat = w % 64 + 128 := toNat_byte (by omega)
  dsimp only
  by_cases hone : v ≤ 127
  · rw [if_pos hone]
    have hfirst : (UInt8.ofNat v).toNat = v := toNat_byte (by omega)
    exact ⟨_, [], [], rfl, continuationRanges_one (by omega), .nil, hfirst⟩
  rw [if_neg hone]
  by_cases htwo : v ≤ 2047
  · rw [if_pos htwo]
    have hfirst : (UInt8.ofNat (v / 64 % 32 + 192)).toNat = v / 64 + 192 :=
      (toNat_byte (by omega)).trans (by omega)
    refine ⟨_, _, _, rfl, continuationRanges_two (by omega) (by omega), ?_, ?_⟩
    · exact .cons (by rw [htail]; omega) .nil
    · rw [codeOf_two, hfirst, htail]
      omega
  rw [if_neg htwo]
  by_cases hthree : v ≤ 65535
  · rw [if_pos hthree]
    have hfirst : (UInt8.ofNat (v / 4096 % 16 + 224)).toNat = v / 4096 + 224 :=
      (toNat_byte (by omega)).trans (by omega)
    refine ⟨_, _, _, rfl, continuationRanges_three (by omega) (by omega), ?_, ?_⟩
    · refine .cons ?_ (.cons ?_ .nil)
      · rw [htail, hfirst]
        dsimp only
        split_ifs <;> omega
      · rw [htail]
        omega
    · rw [codeOf_three, hfirst, htail, htail]
      omega
  · rw [if_neg hthree]
    have hfirst : (UInt8.ofNat (v / 262144 % 8 + 240)).toNat = v / 262144 + 240 :=
      (toNat_byte (by omega)).trans (by omega)
    refine ⟨_, _, _, rfl, continuationRanges_four (by omega) (by omega), ?_, ?_⟩
    · refine .cons ?_ (.cons ?_ (.cons ?_ .nil))
      · rw [htail, hfirst]
        dsimp only
        split_ifs <;> omega
      · rw [htail]
        omega
      · rw [htail]
        omega
    · rw [codeOf_four, hfirst, htail, htail, htail]
      omega

theorem Fits.length {ranges : List (Nat × Nat)} {bytes : List UInt8} (h : Fits ranges bytes) :
    bytes.length = ranges.length :=
  h.length_eq.symm

theorem fitting_whole {ranges : List (Nat × Nat)} {bytes : List UInt8} (h : Fits ranges bytes)
    (rest : List UInt8) : fitting ranges (bytes ++ rest) = bytes := by
  induction h with
  | nil =>
    cases rest <;> rfl
  | cons hb _ ih => rw [List.cons_append, fitting, if_pos hb, ih]

theorem fitting_cut {ranges : List (Nat × Nat)} {part lost : List UInt8}
    (h : Fits ranges (part ++ lost)) : fitting ranges part = part := by
  induction part generalizing ranges with
  | nil =>
    cases ranges <;> rfl
  | cons b part ih =>
    cases h with
    | cons hb h => rw [fitting, if_pos hb, ih h]

section Pieces

variable {c : Char} {first : UInt8} {part lost : List UInt8}

theorem firstChar_encode {more : List UInt8} (h : String.utf8EncodeChar c = first :: more)
    (position : Nat) (rest : List UInt8) : firstChar position first (more ++ rest) = .ok c := by
  obtain ⟨first', more', ranges, henc, hranges, hfits, hcode⟩ := encode_fits c
  obtain ⟨rfl, rfl⟩ := List.cons.inj (h.symm.trans henc)
  have hchar : Char.ofNat (codeOf first more) = c := by rw [hcode, Char.ofNat_toNat]
  simp only [firstChar, hranges, fitting_whole hfits, hfits.length, if_true]
  rw [← hfits.length]
  exact congrArg Except.ok hchar

theorem firstChar_cut (h : String.utf8EncodeChar c = first :: (part ++ lost)) (hlost : lost ≠ [])
    (position : Nat) : firstChar position first part =
      .error ⟨position, first :: part, .unexpectedEnd⟩ := by
  obtain ⟨first', more', ranges, henc, hranges, hfits, -⟩ := encode_fits c
  obtain ⟨rfl, rfl⟩ := List.cons.inj (h.symm.trans henc)
  have hshort : part.length ≠ ranges.length := by
    have hlength := hfits.length
    have hpos := List.length_pos_of_ne_nil hlost
    rw [List.length_append] at hlength
    omega
  simp only [firstChar, hranges, fitting_cut hfits, if_neg hshort, if_true]

theorem utf8Pieces_skip (position : Nat) (skipped rest : List UInt8) :
    utf8Pieces position skipped.length (skipped ++ rest) =
      utf8Pieces (position + skipped.length) 0 rest := by
  induction skipped generalizing position with
  | nil => rfl
  | cons b skipped ih =>
    rw [List.length_cons, List.cons_append, utf8Pieces, ih]
    congr 1
    omega

theorem utf8Pieces_encode (position : Nat) (c : Char) (rest : List UInt8) :
    utf8Pieces position 0 (String.utf8EncodeChar c ++ rest) =
      .ok c :: utf8Pieces (position + c.utf8Size) 0 rest := by
  obtain ⟨first, more, -, henc, -⟩ := encode_fits c
  have hsize := String.length_utf8EncodeChar c
  rw [henc, List.length_cons] at hsize
  rw [henc, List.cons_append, utf8Pieces, firstChar_encode henc]
  simp only [← hsize, Nat.add_sub_cancel]
  rw [utf8Pieces_skip, Nat.add_assoc, Nat.add_comm 1]

theorem utf8Pieces_cut (position : Nat) (c : Char) {n : Nat} (h : n < c.utf8Size) :
    ∀ piece ∈ utf8Pieces position 0 ((String.utf8EncodeChar c).take n), ∃ fault, piece = .error fault := by
  cases n with
  | zero => simp [utf8Pieces]
  | succ n =>
    obtain ⟨first, more, -, henc, -⟩ := encode_fits c
    have hsize := String.length_utf8EncodeChar c
    rw [henc, List.length_cons] at hsize
    have hcut : String.utf8EncodeChar c = first :: (more.take n ++ more.drop n) := by
      rw [henc, List.take_append_drop]
    have hlost : more.drop n ≠ [] := by
      rw [Ne, List.drop_eq_nil_iff]
      omega
    rw [henc, List.take_succ_cons, utf8Pieces, firstChar_cut hcut hlost]
    simp only [List.length_cons, Nat.add_sub_cancel]
    have hrest := utf8Pieces_skip (position + 1) (more.take n) []
    rw [List.append_nil] at hrest
    rw [hrest]
    simp [utf8Pieces]

end Pieces

section Encoded

theorem fitting_prefix (ranges : List (Nat × Nat)) (bytes : List UInt8) : fitting ranges bytes <+: bytes := by
  fun_induction fitting ranges bytes with
  | case1 lo hi ranges b bytes h ih => exact (List.prefix_cons_inj b).mpr ih
  | case2 => exact List.nil_prefix
  | case3 => exact List.nil_prefix

theorem fits_fitting {ranges : List (Nat × Nat)} {bytes : List UInt8}
    (h : (fitting ranges bytes).length = ranges.length) : Fits ranges (fitting ranges bytes) := by
  fun_induction fitting ranges bytes with
  | case1 lo hi ranges b bytes hb ih => exact .cons hb (ih (by simpa using h))
  | case2 => simp at h
  | case3 ranges bytes hne =>
    have hnil : ranges = [] := by simpa using h.symm
    rw [hnil]
    exact .nil

theorem val_ofNat {n : Nat} (h : n.isValidChar) : (Char.ofNat n).val.toNat = n := by
  rw [Char.ofNat, dif_pos h]
  rfl

theorem ofNat_byte {n : Nat} {b : UInt8} (h : n = b.toNat) : UInt8.ofNat n = b := by
  rw [h, UInt8.ofNat_toNat]

theorem encode_codeOf_two {first b : UInt8} (hfirst : 0xC2 ≤ first.toNat ∧ first.toNat < 0xE0)
    (hb : 0x80 ≤ b.toNat ∧ b.toNat ≤ 0xBF) :
    String.utf8EncodeChar (Char.ofNat (codeOf first [b])) = [first, b] := by
  unfold String.utf8EncodeChar
  rw [codeOf_two, val_ofNat (.inl (by omega))]
  dsimp only
  rw [if_neg (by omega), if_pos (by omega)]
  exact congrArg₂ List.cons (ofNat_byte (by omega)) (congrArg₂ List.cons (ofNat_byte (by omega)) rfl)

theorem encode_codeOf_three {first b c : UInt8} (hfirst : 0xE0 ≤ first.toNat ∧ first.toNat < 0xF0)
    (hb : (if first.toNat = 0xE0 then 0xA0 else 0x80) ≤ b.toNat ∧
      b.toNat ≤ if first.toNat = 0xED then 0x9F else 0xBF)
    (hc : 0x80 ≤ c.toNat ∧ c.toNat ≤ 0xBF) :
    String.utf8EncodeChar (Char.ofNat (codeOf first [b, c])) = [first, b, c] := by
  have hvalue : 0x800 ≤ (first.toNat % 16 * 64 + b.toNat % 64) * 64 + c.toNat % 64 ∧
      ((first.toNat % 16 * 64 + b.toNat % 64) * 64 + c.toNat % 64 < 0xD800 ∨
      0xDFFF < (first.toNat % 16 * 64 + b.toNat % 64) * 64 + c.toNat % 64) := by
    split_ifs at hb <;> omega
  unfold String.utf8EncodeChar
  rw [codeOf_three, val_ofNat (hvalue.2.imp_right fun h => ⟨h, by omega⟩)]
  dsimp only
  rw [if_neg (by omega), if_neg (by omega), if_pos (by omega)]
  exact congrArg₂ List.cons (ofNat_byte (by omega)) (congrArg₂ List.cons
    (ofNat_byte (by split_ifs at hb <;> omega)) (congrArg₂ List.cons (ofNat_byte (by omega)) rfl))

theorem encode_codeOf_four {first b c d : UInt8} (hfirst : 0xF0 ≤ first.toNat ∧ first.toNat ≤ 0xF4)
    (hb : (if first.toNat = 0xF0 then 0x90 else 0x80) ≤ b.toNat ∧
      b.toNat ≤ if first.toNat = 0xF4 then 0x8F else 0xBF)
    (hc : 0x80 ≤ c.toNat ∧ c.toNat ≤ 0xBF) (hd : 0x80 ≤ d.toNat ∧ d.toNat ≤ 0xBF) :
    String.utf8EncodeChar (Char.ofNat (codeOf first [b, c, d])) = [first, b, c, d] := by
  have hvalue : 0x10000 ≤ ((first.toNat % 8 * 64 + b.toNat % 64) * 64 + c.toNat % 64) * 64 + d.toNat % 64 ∧
      ((first.toNat % 8 * 64 + b.toNat % 64) * 64 + c.toNat % 64) * 64 + d.toNat % 64 < 0x110000 := by
    split_ifs at hb <;> omega
  unfold String.utf8EncodeChar
  rw [codeOf_four, val_ofNat (.inr ⟨by omega, hvalue.2⟩)]
  dsimp only
  rw [if_neg (by omega), if_neg (by omega), if_neg (by omega)]
  exact congrArg₂ List.cons (ofNat_byte (by omega)) (congrArg₂ List.cons
    (ofNat_byte (by split_ifs at hb <;> omega)) (congrArg₂ List.cons (ofNat_byte (by omega))
    (congrArg₂ List.cons (ofNat_byte (by omega)) rfl)))

theorem encode_codeOf {first : UInt8} {more : List UInt8} {ranges : List (Nat × Nat)}
    (hranges : continuationRanges first.toNat = some ranges) (hfits : Fits ranges more) :
    String.utf8EncodeChar (Char.ofNat (codeOf first more)) = first :: more := by
  by_cases hone : first.toNat < 0x80
  · rw [continuationRanges_one hone] at hranges
    cases hranges
    cases hfits
    have hcode : codeOf first [] = first.toNat := rfl
    unfold String.utf8EncodeChar
    rw [val_ofNat (by rw [hcode]; exact .inl (by omega)), hcode]
    dsimp only
    rw [if_pos (by omega), ofNat_byte rfl]
  by_cases htwo : first.toNat < 0xE0
  · by_cases hgap : first.toNat < 0xC2
    · rw [continuationRanges_none (.inl ⟨by omega, hgap⟩)] at hranges
      cases hranges
    rw [continuationRanges_two (by omega) htwo] at hranges
    cases hranges
    obtain _ | ⟨hb, hnil⟩ := hfits
    cases hnil
    exact encode_codeOf_two ⟨by omega, htwo⟩ hb
  by_cases hthree : first.toNat < 0xF0
  · rw [continuationRanges_three (by omega) hthree] at hranges
    cases hranges
    obtain _ | ⟨hb, hrest⟩ := hfits
    obtain _ | ⟨hc, hnil⟩ := hrest
    cases hnil
    exact encode_codeOf_three ⟨by omega, hthree⟩ hb hc
  · by_cases hgap : 0xF4 < first.toNat
    · rw [continuationRanges_none (.inr hgap)] at hranges
      cases hranges
    rw [continuationRanges_four (by omega) (by omega)] at hranges
    cases hranges
    obtain _ | ⟨hb, hrest⟩ := hfits
    obtain _ | ⟨hc, hrest⟩ := hrest
    obtain _ | ⟨hd, hnil⟩ := hrest
    cases hnil
    exact encode_codeOf_four ⟨by omega, by omega⟩ hb hc hd

theorem encode_firstChar {position : Nat} {first : UInt8} {rest : List UInt8} {c : Char}
    (h : firstChar position first rest = .ok c) :
    ∃ more later, rest = more ++ later ∧ String.utf8EncodeChar c = first :: more := by
  unfold firstChar at h
  split at h
  · cases h
  · rename_i ranges hranges
    dsimp only at h
    split at h
    · rename_i hlength
      obtain ⟨later, hlater⟩ := fitting_prefix ranges rest
      refine ⟨fitting ranges rest, later, hlater.symm, ?_⟩
      have hcode := encode_codeOf hranges (fits_fitting hlength)
      rw [codeOf, hlength] at hcode
      cases h
      exact hcode
    · cases h

theorem bytes_of_pieces {position : Nat} {bytes : List UInt8} {text : List Char}
    (h : utf8Pieces position 0 bytes = text.map .ok) : bytes = text.flatMap String.utf8EncodeChar := by
  induction text generalizing position bytes with
  | nil =>
    cases bytes with
    | nil => rfl
    | cons b rest => cases h
  | cons c cs ih =>
    cases bytes with
    | nil => cases h
    | cons b rest =>
      rw [utf8Pieces, List.map_cons, List.cons.injEq] at h
      obtain ⟨hfirst, hrest⟩ := h
      obtain ⟨more, later, rfl, hencode⟩ := encode_firstChar hfirst
      have hsize := String.length_utf8EncodeChar c
      rw [hencode, List.length_cons] at hsize
      have hskip : c.utf8Size - 1 = more.length := by omega
      rw [hfirst] at hrest
      dsimp only at hrest
      rw [hskip, utf8Pieces_skip] at hrest
      rw [List.flatMap_cons, hencode, ← ih hrest]
      rfl

end Encoded

end EdgeAudit.Text

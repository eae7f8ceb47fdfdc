import EdgeAudit.Proofs.Failure
import EdgeAudit.Proofs.SourcePosition
import EdgeAudit.Proofs.Utf8Decoding
import EdgeAudit.Source.Offset

namespace EdgeAudit

open Text

section Lengths

variable {text : List Char} {c : Char}

theorem utf8Bytes_cons (c : Char) (cs : List Char) :
    utf8Bytes (c :: cs) = String.utf8EncodeChar c ++ utf8Bytes cs :=
  List.flatMap_cons

theorem utf8Bytes_append (a b : List Char) : utf8Bytes (a ++ b) = utf8Bytes a ++ utf8Bytes b :=
  List.flatMap_append

theorem utf8Length_cons (c : Char) (cs : List Char) :
    utf8Length (c :: cs) = c.utf8Size + utf8Length cs := by
  rw [utf8Length, utf8Bytes_cons, List.length_append, String.length_utf8EncodeChar]
  rfl

theorem utf8Length_append (a b : List Char) : utf8Length (a ++ b) = utf8Length a + utf8Length b := by
  rw [utf8Length, utf8Bytes_append, List.length_append]
  rfl

theorem length_le_utf8Length (text : List Char) : text.length ≤ utf8Length text := by
  induction text with
  | nil => exact Nat.le_refl 0
  | cons c cs ih =>
    have hpos := c.utf8Size_pos
    rw [utf8Length_cons, List.length_cons]
    omega

theorem utf8Size_eq_one : c.utf8Size = 1 ↔ c.toNat < 128 := by
  rw [Char.utf8Size_eq_one_iff, UInt32.le_iff_toNat_le]
  exact Nat.lt_succ_iff.symm

theorem asciiOnly_iff : asciiOnly text = true ↔ ∀ c ∈ text, c.toNat < 128 := by
  rw [asciiOnly, beq_iff_eq]
  induction text with
  | nil => simp [utf8Length, utf8Bytes]
  | cons c cs ih =>
    have hpos := c.utf8Size_pos
    have hle := length_le_utf8Length cs
    rw [utf8Length_cons, List.length_cons, List.forall_mem_cons, ← ih, ← utf8Size_eq_one]
    omega

end Lengths

def charsEndingBy (text : List Char) (bytes : Nat) : Nat :=
  (List.range text.length).countP fun i => utf8Length (text.take (i + 1)) ≤ bytes

section Endings

variable {text cs : List Char} {c : Char} {a b bytes : Nat}

theorem charsEndingBy_le : charsEndingBy text bytes ≤ text.length := by
  have h := List.countP_le_length (p := fun i => utf8Length (text.take (i + 1)) ≤ bytes)
    (l := List.range text.length)
  rwa [List.length_range] at h

theorem charsEndingBy_mono (h : a ≤ b) : charsEndingBy text a ≤ charsEndingBy text b := by
  apply List.countP_mono_left
  intro i _ hi
  rw [decide_eq_true_eq] at hi ⊢
  omega

theorem charsEndingBy_within (h : c.utf8Size ≤ bytes) :
    charsEndingBy (c :: cs) bytes = charsEndingBy cs (bytes - c.utf8Size) + 1 := by
  have hshift : (fun i => decide (utf8Length ((c :: cs).take (i + 1)) ≤ bytes)) ∘ Nat.succ =
      fun i => decide (utf8Length (cs.take (i + 1)) ≤ bytes - c.utf8Size) := by
    funext i
    simp only [Function.comp_apply, Nat.succ_eq_add_one, List.take_succ_cons, utf8Length_cons,
      decide_eq_decide]
    omega
  rw [charsEndingBy, List.length_cons, List.range_succ_eq_map, List.countP_cons, List.countP_map, hshift]
  simp [charsEndingBy, h, utf8Length, utf8Bytes]

theorem charsEndingBy_beyond (h : bytes < c.utf8Size) : charsEndingBy (c :: cs) bytes = 0 := by
  rw [charsEndingBy, List.countP_eq_zero]
  intro i _ hi
  rw [List.take_succ_cons, utf8Length_cons, decide_eq_true_eq] at hi
  omega

theorem charsEndingBy_ascii (h : ∀ c ∈ text, c.toNat < 128) (hle : bytes ≤ text.length) :
    charsEndingBy text bytes = bytes := by
  induction text generalizing bytes with
  | nil =>
    rw [List.length_nil] at hle
    simp [charsEndingBy]
    omega
  | cons c cs ih =>
    rw [List.forall_mem_cons, ← utf8Size_eq_one] at h
    by_cases hzero : bytes = 0
    · rw [hzero]
      exact charsEndingBy_beyond (by omega)
    · rw [List.length_cons] at hle
      rw [charsEndingBy_within (by omega), ih h.2 (by omega)]
      omega

end Endings

section Decoding

variable {text : List Char}

theorem utf8Pieces_take (text : List Char) (position bytes : Nat) :
    ∃ faults : List (Except Utf8Fault Char), (∀ piece ∈ faults, ∃ fault, piece = .error fault) ∧
      utf8Pieces position 0 ((utf8Bytes text).take bytes) =
        (text.take (charsEndingBy text bytes)).map .ok ++ faults := by
  induction text generalizing position bytes with
  | nil => exact ⟨[], by simp, by simp [utf8Bytes, utf8Pieces]⟩
  | cons c cs ih =>
    have hsize := String.length_utf8EncodeChar c
    by_cases hfits : c.utf8Size ≤ bytes
    · obtain ⟨faults, hfaults, hpieces⟩ := ih (position + c.utf8Size) (bytes - c.utf8Size)
      refine ⟨faults, hfaults, ?_⟩
      rw [utf8Bytes_cons, List.take_append, List.take_of_length_le (by omega), hsize,
        utf8Pieces_encode, hpieces, charsEndingBy_within hfits]
      rfl
    · refine ⟨_, utf8Pieces_cut position c (by omega : bytes < c.utf8Size), ?_⟩
      rw [utf8Bytes_cons, List.take_append_of_le_length (by omega), charsEndingBy_beyond (by omega)]
      rfl

theorem utf8Pieces_bytes (text : List Char) (position : Nat) :
    utf8Pieces position 0 (utf8Bytes text) = text.map .ok := by
  induction text generalizing position with
  | nil => rfl
  | cons c cs ih => rw [utf8Bytes_cons, utf8Pieces_encode, ih, List.map_cons]

theorem mapM_id_eq_ok {ε α : Type} {pieces : List (Except ε α)} {text : List α} :
    pieces.mapM id = .ok text ↔ pieces = text.map .ok := by
  induction pieces generalizing text with
  | nil => cases text <;> simp [pure, Except.pure]
  | cons piece pieces ih =>
    rw [mapM_cons_eq_ok]
    simp only [ih, id]
    cases text with
    | nil => simp
    | cons c cs => simp [and_comm]

theorem decodeUtf8_eq_ok {bytes : List UInt8} {text : List Char} :
    decodeUtf8 bytes = .ok text ↔ bytes = utf8Bytes text := by
  rw [decodeUtf8, mapM_id_eq_ok]
  constructor
  · exact bytes_of_pieces
  · rintro rfl
    exact utf8Pieces_bytes text 0

theorem decodeUtf8Leniently_take (text : List Char) (bytes : Nat) :
    decodeUtf8Leniently ((utf8Bytes text).take bytes) = text.take (charsEndingBy text bytes) := by
  obtain ⟨faults, hfaults, hpieces⟩ := utf8Pieces_take text 0 bytes
  rw [decodeUtf8Leniently, hpieces, List.filterMap_append, List.filterMap_map]
  refine (congrArg₂ (· ++ ·) List.filterMap_some (List.filterMap_eq_nil_iff.mpr ?_)).trans
    (List.append_nil _)
  intro piece hpiece
  obtain ⟨fault, rfl⟩ := hfaults piece hpiece
  rfl

theorem length_decodeUtf8Leniently (text : List Char) (bytes : Nat) :
    (decodeUtf8Leniently ((utf8Bytes text).take bytes)).length = charsEndingBy text bytes := by
  rw [decodeUtf8Leniently_take, List.length_take, Nat.min_eq_left charsEndingBy_le]

theorem decodeUtf8Replacing_bytes (text : List Char) : decodeUtf8Replacing (utf8Bytes text) = text := by
  rw [decodeUtf8Replacing, utf8Pieces_bytes, List.map_map]
  exact List.map_id _

theorem charOffset_natCast {bytes : Nat} (h : bytes ≤ utf8Length text) :
    charOffset text bytes = charsEndingBy text bytes := by
  unfold charOffset
  cases hascii : asciiOnly text with
  | true =>
    have hlength : utf8Length text = text.length := by simpa [asciiOnly] using hascii
    rw [if_pos rfl, charsEndingBy_ascii (asciiOnly_iff.mp hascii) (by omega)]
  | false => rw [if_neg (by simp), sliceEnd_natCast h, length_decodeUtf8Leniently]

end Decoding

/-- A byte offset between two characters, or at one of the ends. -/
def Boundary (text : List Char) (bytes : Nat) : Prop :=
  ∃ i, i ≤ text.length ∧ bytes = utf8Length (text.take i)

section Boundaries

variable {text : List Char} {i j : Nat}

theorem charsEndingBy_boundary (h : i ≤ text.length) :
    charsEndingBy text (utf8Length (text.take i)) = i := by
  induction text generalizing i with
  | nil =>
    rw [List.length_nil] at h
    simp [charsEndingBy]
    omega
  | cons c cs ih =>
    cases i with
    | zero =>
      apply charsEndingBy_beyond
      exact c.utf8Size_pos
    | succ i =>
      rw [List.length_cons] at h
      rw [List.take_succ_cons, utf8Length_cons, charsEndingBy_within (by omega), Nat.add_sub_cancel_left,
        ih (by omega)]

theorem take_utf8Bytes (text : List Char) (i : Nat) :
    (utf8Bytes text).take (utf8Length (text.take i)) = utf8Bytes (text.take i) := by
  have hsplit := utf8Bytes_append (text.take i) (text.drop i)
  rw [List.take_append_drop] at hsplit
  rw [hsplit]
  exact List.take_left

theorem drop_utf8Bytes (text : List Char) (i : Nat) :
    (utf8Bytes text).drop (utf8Length (text.take i)) = utf8Bytes (text.drop i) := by
  have hsplit := utf8Bytes_append (text.take i) (text.drop i)
  rw [List.take_append_drop] at hsplit
  rw [hsplit]
  exact List.drop_left

theorem textBetween_boundaries (h : i ≤ j) :
    textBetween text (utf8Length (text.take i)) (utf8Length (text.take j)) = (text.take j).drop i := by
  have hfirst : text.take i = (text.take j).take i := by rw [List.take_take, Nat.min_eq_left h]
  rw [textBetween, take_utf8Bytes, hfirst, drop_utf8Bytes, decodeUtf8Replacing_bytes]

end Boundaries

theorem utf8Length_take_le (text : List Char) (i : Nat) : utf8Length (text.take i) ≤ utf8Length text := by
  have hsplit := utf8Length_append (text.take i) (text.drop i)
  rw [List.take_append_drop] at hsplit
  omega

/-- The character offset of a byte offset counts the characters that end by then, as decoding the bytes
before it does, also in ASCII texts, where nothing is decoded. It is monotone, and between characters it
cuts the text where the byte offset cuts the bytes. -/
theorem charOffset_chars (text : List Char) :
    (asciiOnly text = true ↔ ∀ c ∈ text, c.toNat < 128) ∧
    (∀ b : Nat, b ≤ utf8Length text →
      charOffset text b = charsEndingBy text b ∧
      charOffset text b = (decodeUtf8Leniently ((utf8Bytes text).take b)).length ∧
      (asciiOnly text = true → (decodeUtf8Leniently ((utf8Bytes text).take b)).length = b)) ∧
    (∀ a b : Nat, a ≤ b → b ≤ utf8Length text → charOffset text a ≤ charOffset text b) ∧
    ∀ a b : Nat, Boundary text a → Boundary text b → a ≤ b →
      textBetween text a b = (text.take (charOffset text b).toNat).drop (charOffset text a).toNat := by
  refine ⟨asciiOnly_iff, ?_, ?_, ?_⟩
  · intro b hb
    have hoffset := charOffset_natCast hb
    refine ⟨hoffset, by rw [hoffset, length_decodeUtf8Leniently], ?_⟩
    intro hascii
    rw [charOffset, if_pos hascii] at hoffset
    rw [length_decodeUtf8Leniently]
    omega
  · intro a b hab hb
    rw [charOffset_natCast (by omega), charOffset_natCast hb]
    exact Int.ofNat_le.mpr (charsEndingBy_mono hab)
  · rintro a b ⟨i, hi, rfl⟩ ⟨j, hj, rfl⟩ hab
    have hij : i ≤ j := by
      rw [← charsEndingBy_boundary hi, ← charsEndingBy_boundary hj]
      exact charsEndingBy_mono hab
    rw [charOffset_natCast (utf8Length_take_le text i), charOffset_natCast (utf8Length_take_le text j),
      charsEndingBy_boundary hi, charsEndingBy_boundary hj]
    exact textBetween_boundaries hij

theorem charOffset_chars_within : 3 ≤ utf8Length ['é', '😀', 'a'] ∧
    charOffset ['é', '😀', 'a'] 3 = 1 ∧ Boundary ['é', '😀', 'a'] 2 ∧ Boundary ['é', '😀', 'a'] 6 ∧
    textBetween ['é', '😀', 'a'] 2 6 = ['😀'] := by
  obtain ⟨-, hcounts, -, hcuts⟩ := charOffset_chars ['é', '😀', 'a']
  have htwo : Boundary ['é', '😀', 'a'] 2 := ⟨1, by decide, by decide⟩
  have hsix : Boundary ['é', '😀', 'a'] 6 := ⟨2, by decide, by decide⟩
  have hthree : charOffset ['é', '😀', 'a'] 3 = 1 := (hcounts 3 (by decide)).1.trans (by decide)
  refine ⟨by decide, hthree, htwo, hsix, ?_⟩
  have hcut := hcuts 2 6 htwo hsix (by decide)
  rw [(hcounts 2 (by decide)).1, (hcounts 6 (by decide)).1] at hcut
  exact hcut.trans (by decide)

end EdgeAudit

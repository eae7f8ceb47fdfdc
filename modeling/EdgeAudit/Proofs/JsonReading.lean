import EdgeAudit.Proofs.JsonGrammar
import Mathlib.Tactic.Tauto

namespace EdgeAudit.Json

open Number Text

theorem readValue_skipBlank (n : Nat) (cs : List Char) : readValue n (skipBlank cs) = readValue n cs := by
  cases n with
  | zero => rfl
  | succ n => rw [readValue, readValue, skipBlank_skipBlank]

theorem readValue_spaces {w : List Char} (h : Spaces w) (n : Nat) (cs : List Char) :
    readValue n (w ++ cs) = readValue n cs := by
  rw [← readValue_skipBlank, skipBlank_spaces h, readValue_skipBlank]

theorem readItems_skipBlank (n : Nat) (cs : List Char) (acc : List Json) :
    readItems n (skipBlank cs) acc = readItems n cs acc := by
  cases n with
  | zero => rfl
  | succ n => rw [readItems, readItems, readValue_skipBlank]

theorem readMembers_skipBlank (n : Nat) (cs : List Char) (acc : List (String × Json)) :
    readMembers n (skipBlank cs) acc = readMembers n cs acc := by
  cases n with
  | zero => rfl
  | succ n => rw [readMembers, readMembers, skipBlank_skipBlank]

def Stops (rest : List Char) : Prop :=
  ∀ c ∈ rest.head?, isNumberChar c = false ∧ c.isAlpha = false

theorem stops_cons {c : Char} (h : IsSpace c ∨ c = ',' ∨ c = ']' ∨ c = '\x7d') (rest : List Char) :
    Stops (c :: rest) := by
  rintro c' ⟨rfl⟩
  rcases h with (rfl | rfl | rfl | rfl) | rfl | rfl | rfl
  all_goals decide

theorem Spaces.stops {w rest : List Char} (hw : Spaces w) (h : Stops rest) : Stops (w ++ rest) := by
  cases w with
  | nil => exact h
  | cons c w => exact stops_cons (.inl (hw c (by simp))) _

/-- The reader finds the value in front of any text that ends it, and leaves white space at most. -/
def Reads (t : List Char) (j : Json) : Prop :=
  ∀ (n : Nat) (rest : List Char), t.length < n → Stops rest →
    ∃ w, Spaces w ∧ readValue n (t ++ rest) = some (j, w ++ rest)

theorem exists_fuel {t : List Char} {n : Nat} (h : t.length < n) : ∃ k, n = k + 1 :=
  ⟨n - 1, by omega⟩

theorem readValue_scalar {c : Char} (cs : List Char) (n : Nat) (hspace : ¬ IsSpace c)
    (hc : c ∉ ['"', '[', '\x7b']) :
    readValue (n + 1) (c :: cs) =
      if c.isAlpha then
        (ofWord (String.ofList ((c :: cs).span Char.isAlpha).1)).map (·, ((c :: cs).span Char.isAlpha).2)
      else (readNumber ((c :: cs).span isNumberChar).1).map (·, ((c :: cs).span isNumberChar).2) := by
  simp only [List.mem_cons, List.not_mem_nil, or_false, not_or] at hc
  rw [readValue, skipBlank_cons hspace]
  split
  · rename_i h
    exact absurd (List.cons.inj h).1 hc.1
  · rename_i h
    exact absurd (List.cons.inj h).1 hc.2.1
  · rename_i h
    exact absurd (List.cons.inj h).1 hc.2.2
  · rename_i h
    cases h
    rfl
  · rename_i h
    cases h

theorem reads_word {c : Char} {t : List Char} {j : Json} (hall : (c :: t).all Char.isAlpha = true)
    (hword : ofWord (String.ofList (c :: t)) = some j) : Reads (c :: t) j := by
  intro n rest hn hrest
  obtain ⟨n, rfl⟩ := exists_fuel hn
  have halpha := List.all_eq_true.mp hall
  have hc := halpha c (by simp)
  have hspan := span_append halpha fun d hd => (hrest d hd).2
  rw [List.cons_append] at hspan ⊢
  refine ⟨[], by simp [Spaces], ?_⟩
  rw [readValue_scalar, if_pos hc, hspan]
  · show (ofWord (String.ofList (c :: t))).map _ = _
    rw [hword]
    rfl
  · rintro (rfl | rfl | rfl | rfl) <;> cases hc
  · intro hmem
    simp only [List.mem_cons, List.not_mem_nil, or_false] at hmem
    rcases hmem with rfl | rfl | rfl <;> cases hc

theorem numberHead_plain {c : Char} (h : c = '-' ∨ c.isDigit = true) :
    (c ∉ [' ', '\n', '\r', '\t']) ∧ (c ∉ ['"', '[', '\x7b', ']']) ∧ c.isAlpha = false := by
  rcases h with rfl | h
  · decide
  · exact InText.ascii_forall (P := fun c => c.isDigit = true → (c ∉ [' ', '\n', '\r', '\t']) ∧
      (c ∉ ['"', '[', '\x7b', ']']) ∧ c.isAlpha = false) (by decide)
      (Listing.alphanum_ascii (by simp [Char.isAlphanum, h])) h

theorem reads_number {t : List Char} {j : Json} (h : NumberText t j) : Reads t j := by
  intro n rest hn hrest
  obtain ⟨n, rfl⟩ := exists_fuel hn
  have hspan := span_append h.mem fun d hd => (hrest d hd).1
  have hread := readNumber_eq h
  obtain ⟨c, r, rfl, hhead⟩ := h.head
  obtain ⟨hspace, hopen, halpha⟩ := numberHead_plain hhead
  rw [List.cons_append] at hspan ⊢
  refine ⟨[], by simp [Spaces], ?_⟩
  rw [readValue_scalar, halpha, if_neg Bool.false_ne_true, hspan]
  · show (readNumber (c :: r)).map _ = _
    rw [hread]
    rfl
  · simpa [IsSpace] using hspace
  · simp only [List.mem_cons, List.not_mem_nil, or_false, not_or] at hopen ⊢
    exact ⟨hopen.1, hopen.2.1, hopen.2.2.1⟩

theorem reads_string {t : List Char} {s : String} (h : StringText t s) : Reads t (.str s) := by
  obtain ⟨body, hbody, rfl⟩ := h
  intro n rest hn hrest
  obtain ⟨n, rfl⟩ := exists_fuel hn
  refine ⟨[], by simp [Spaces], ?_⟩
  have htext : ('"' :: body ++ ['"']) ++ rest = '"' :: (body ++ '"' :: rest) := by simp
  rw [htext, readValue, skipBlank_cons (by simp [IsSpace])]
  show (readString ((body ++ '"' :: rest).length + 1) [] (body ++ '"' :: rest)).map _ = _
  rw [readString_quoted hbody]
  rfl

theorem Reads.spaced {a t b : List Char} {j : Json} (ha : Spaces a) (h : Reads t j) (hb : Spaces b) :
    Reads (a ++ (t ++ b)) j := by
  intro n rest hn hrest
  simp only [List.length_append] at hn
  obtain ⟨w, hw, hread⟩ := h n (b ++ rest) (by omega) (hb.stops hrest)
  refine ⟨w ++ b, hw.append hb, ?_⟩
  rw [List.append_assoc, readValue_spaces ha, List.append_assoc, List.append_assoc, hread]

theorem ValueText.head {t : List Char} {j : Json} (h : ValueText t j) :
    ∃ w c r, Spaces w ∧ t = w ++ c :: r ∧ ¬ IsSpace c ∧ c ≠ ']' := by
  have hnone : Spaces [] := by simp [Spaces]
  induction h with
  | null => exact ⟨[], 'n', _, hnone, rfl, by simp [IsSpace], by decide⟩
  | bool b =>
    cases b with
    | true => exact ⟨[], 't', _, hnone, rfl, by simp [IsSpace], by decide⟩
    | false => exact ⟨[], 'f', _, hnone, rfl, by simp [IsSpace], by decide⟩
  | number h =>
    obtain ⟨c, r, rfl, hhead⟩ := h.head
    obtain ⟨hspace, hopen, -⟩ := numberHead_plain hhead
    refine ⟨[], c, r, hnone, rfl, by simpa [IsSpace] using hspace, ?_⟩
    rintro rfl
    simp at hopen
  | str h =>
    obtain ⟨body, -, rfl⟩ := h
    exact ⟨[], '"', _, hnone, rfl, by simp [IsSpace], by decide⟩
  | emptyArr h => exact ⟨[], '[', _, hnone, rfl, by simp [IsSpace], by decide⟩
  | arr hne h ih => exact ⟨[], '[', _, hnone, rfl, by simp [IsSpace], by decide⟩
  | emptyObj h => exact ⟨[], '\x7b', _, hnone, rfl, by simp [IsSpace], by decide⟩
  | obj hne hkeys h ih => exact ⟨[], '\x7b', _, hnone, rfl, by simp [IsSpace], by decide⟩
  | @spaced a t b j ha h hb ih =>
    obtain ⟨w, c, r, hw, rfl, hc⟩ := ih
    exact ⟨a ++ w, c, r ++ b, ha.append hw, by simp, hc⟩

theorem readItems_step {t : List Char} {j : Json} (h : Reads t j) {n : Nat} (hn : t.length < n)
    {c : Char} (hc : c = ',' ∨ c = ']') (rest : List Char) (acc : List Json) :
    readItems (n + 1) (t ++ c :: rest) acc =
      if c = ',' then readItems n rest (j :: acc) else some ((j :: acc).reverse, rest) := by
  obtain ⟨w, hw, hread⟩ := h n (c :: rest) hn (stops_cons (by tauto) rest)
  have hskip : skipBlank (w ++ c :: rest) = c :: rest := by
    rw [skipBlank_spaces hw, skipBlank_cons]
    rcases hc with rfl | rfl <;> simp [IsSpace]
  rw [readItems, hread]
  simp only [hskip]
  rcases hc with rfl | rfl <;> rfl

theorem readItems_eq {items : List (List Char × Json)} (hne : items ≠ []) (h : ∀ p ∈ items, Reads p.1 p.2)
    (rest : List Char) : ∀ (n : Nat) (acc : List Json), ([','].intercalate (items.map (·.1))).length + 1 < n →
      readItems n ([','].intercalate (items.map (·.1)) ++ ']' :: rest) acc =
        some (acc.reverse ++ items.map (·.2), rest) := by
  induction items with
  | nil => exact absurd rfl hne
  | cons p items ih =>
    intro n acc hn
    obtain ⟨hp, hitems⟩ := List.forall_mem_cons.mp h
    obtain ⟨n, rfl⟩ : ∃ k, n = k + 1 := ⟨n - 1, by omega⟩
    cases items with
    | nil =>
      simp only [List.map_cons, List.map_nil, List.intercalate_singleton] at hn ⊢
      rw [readItems_step hp (by omega) (.inr rfl), if_neg (by decide), List.reverse_cons]
    | cons q items =>
      simp only [List.map_cons, List.intercalate_cons_cons, List.length_append, List.length_singleton] at hn ⊢
      rw [List.append_assoc, List.append_assoc, List.singleton_append,
        readItems_step hp (by omega) (.inl rfl), if_pos rfl]
      have hrest := ih (by simp) hitems n (p.2 :: acc) (by simp only [List.map_cons]; omega)
      simp only [List.map_cons] at hrest
      rw [hrest]
      simp

theorem reads_arr {items : List (List Char × Json)} (hne : items ≠ []) (htext : ∀ p ∈ items, ValueText p.1 p.2)
    (h : ∀ p ∈ items, Reads p.1 p.2) :
    Reads ('[' :: [','].intercalate (items.map (·.1)) ++ [']']) (.arr (items.map (·.2))) := by
  intro n rest hn hrest
  obtain ⟨n, rfl⟩ := exists_fuel hn
  simp only [List.length_append, List.length_cons, List.length_nil] at hn
  refine ⟨[], by simp [Spaces], ?_⟩
  have hitems := readItems_eq hne h rest n [] (by omega)
  -- the first item keeps the reader from taking the array for an empty one
  obtain ⟨c, r, hskip, hc⟩ : ∃ c r, skipBlank ([','].intercalate (items.map (·.1)) ++ ']' :: rest) = c :: r ∧
      c ≠ ']' := by
    obtain ⟨p, items, rfl⟩ := List.exists_cons_of_ne_nil hne
    obtain ⟨w, c, r, hw, hp, hspace, hc⟩ := (htext p (by simp)).head
    cases items with
    | nil =>
      refine ⟨c, r ++ ']' :: rest, ?_, hc⟩
      simp [hp, skipBlank_spaces hw, skipBlank_cons hspace]
    | cons q items =>
      refine ⟨c, r ++ ',' :: [','].intercalate (q.1 :: items.map (·.1)) ++ ']' :: rest, ?_, hc⟩
      simp [List.intercalate_cons_cons, hp, skipBlank_spaces hw, skipBlank_cons hspace]
  rw [← readItems_skipBlank, hskip] at hitems
  have happend : ('[' :: [','].intercalate (items.map (·.1)) ++ [']']) ++ rest =
      '[' :: ([','].intercalate (items.map (·.1)) ++ ']' :: rest) := by simp
  rw [happend, readValue, skipBlank_cons (by simp [IsSpace])]
  simp only [hskip]
  split
  · rename_i heq
    exact absurd (List.cons.inj heq).1 hc
  · rw [hitems]
    rfl

theorem readMembers_step {m : Member} (hkey : KeyText m.keyText m.key) (h : Reads m.valueText m.value) {n : Nat}
    (hn : m.valueText.length < n) {c : Char} (hc : c = ',' ∨ c = '\x7d') (rest : List Char)
    (acc : List (String × Json)) :
    readMembers (n + 1) (m.text ++ c :: rest) acc =
      if c = ',' then readMembers n rest (m.pair :: acc) else some ((m.pair :: acc).reverse, rest) := by
  obtain ⟨a, quoted, b, ha, ⟨body, hbody, rfl⟩, hb, hkeyText⟩ := hkey
  obtain ⟨w, hw, hread⟩ := h n (c :: rest) hn (stops_cons (by tauto) rest)
  have htext : m.text ++ c :: rest = a ++ '"' :: (body ++ '"' :: (b ++ ':' :: (m.valueText ++ c :: rest))) := by
    simp [Member.text, hkeyText]
  have hcolon : skipBlank (b ++ ':' :: (m.valueText ++ c :: rest)) = ':' :: (m.valueText ++ c :: rest) := by
    rw [skipBlank_spaces hb, skipBlank_cons (by simp [IsSpace])]
  have hskip : skipBlank (w ++ c :: rest) = c :: rest := by
    rw [skipBlank_spaces hw, skipBlank_cons]
    rcases hc with rfl | rfl <;> simp [IsSpace]
  rw [htext, readMembers, skipBlank_spaces ha, skipBlank_cons (by simp [IsSpace])]
  simp only [readString_quoted hbody, hcolon, hread, hskip]
  rcases hc with rfl | rfl <;> rfl

theorem readMembers_eq {members : List Member} (hne : members ≠ [])
    (hkeys : ∀ m ∈ members, KeyText m.keyText m.key) (h : ∀ m ∈ members, Reads m.valueText m.value)
    (rest : List Char) : ∀ (n : Nat) (acc : List (String × Json)),
      ([','].intercalate (members.map (·.text))).length + 1 < n →
      readMembers n ([','].intercalate (members.map (·.text)) ++ '\x7d' :: rest) acc =
        some (acc.reverse ++ members.map (·.pair), rest) := by
  induction members with
  | nil => exact absurd rfl hne
  | cons m members ih =>
    intro n acc hn
    obtain ⟨hkey, hkeys⟩ := List.forall_mem_cons.mp hkeys
    obtain ⟨hm, hmembers⟩ := List.forall_mem_cons.mp h
    obtain ⟨n, rfl⟩ : ∃ k, n = k + 1 := ⟨n - 1, by omega⟩
    have hlength : m.valueText.length < m.text.length := by
      simp [Member.text]
      omega
    cases members with
    | nil =>
      simp only [List.map_cons, List.map_nil, List.intercalate_singleton] at hn ⊢
      rw [readMembers_step hkey hm (by omega) (.inr rfl), if_neg (by decide), List.reverse_cons]
    | cons q members =>
      simp only [List.map_cons, List.intercalate_cons_cons, List.length_append, List.length_singleton] at hn ⊢
      rw [List.append_assoc, List.append_assoc, List.singleton_append,
        readMembers_step hkey hm (by omega) (.inl rfl), if_pos rfl]
      have hrest := ih (by simp) hkeys hmembers n (m.pair :: acc) (by simp only [List.map_cons]; omega)
      simp only [List.map_cons] at hrest
      rw [hrest]
      simp

theorem reads_obj {members : List Member} (hne : members ≠ [])
    (hkeys : ∀ m ∈ members, KeyText m.keyText m.key) (h : ∀ m ∈ members, Reads m.valueText m.value) :
    Reads ('\x7b' :: [','].intercalate (members.map (·.text)) ++ ['\x7d']) (.obj (members.map (·.pair))) := by
  intro n rest hn hrest
  obtain ⟨n, rfl⟩ := exists_fuel hn
  simp only [List.length_append, List.length_cons, List.length_nil] at hn
  refine ⟨[], by simp [Spaces], ?_⟩
  have hmembers := readMembers_eq hne hkeys h rest n [] (by omega)
  obtain ⟨r, hskip⟩ : ∃ r, skipBlank ([','].intercalate (members.map (·.text)) ++ '\x7d' :: rest) = '"' :: r := by
    obtain ⟨m, members, rfl⟩ := List.exists_cons_of_ne_nil hne
    obtain ⟨a, quoted, b, ha, ⟨body, hbody, rfl⟩, hb, hkeyText⟩ := hkeys m (by simp)
    have hquote : ¬ IsSpace '"' := by simp [IsSpace]
    cases members with
    | nil => simp [Member.text, hkeyText, skipBlank_spaces ha, skipBlank_cons hquote]
    | cons q members =>
      simp [List.intercalate_cons_cons, Member.text, hkeyText, skipBlank_spaces ha, skipBlank_cons hquote]
  rw [← readMembers_skipBlank, hskip] at hmembers
  have happend : ('\x7b' :: [','].intercalate (members.map (·.text)) ++ ['\x7d']) ++ rest =
      '\x7b' :: ([','].intercalate (members.map (·.text)) ++ '\x7d' :: rest) := by simp
  rw [happend, readValue, skipBlank_cons (by simp [IsSpace])]
  simp only [hskip]
  show (readMembers n ('"' :: r) []).map _ = _
  rw [hmembers]
  rfl

theorem reads_empty {w : List Char} (h : Spaces w) :
    Reads ('[' :: w ++ [']']) (.arr []) ∧ Reads ('\x7b' :: w ++ ['\x7d']) (.obj []) := by
  constructor
  all_goals
    intro n rest hn hrest
    obtain ⟨n, rfl⟩ := exists_fuel hn
    refine ⟨[], by simp [Spaces], ?_⟩
    rw [List.cons_append, List.cons_append, List.append_assoc, readValue, skipBlank_cons (by simp [IsSpace])]
    simp only [skipBlank_spaces h]
    rw [List.singleton_append, skipBlank_cons (by simp [IsSpace])]
    rfl

theorem ValueText.reads {t : List Char} {j : Json} (h : ValueText t j) : Reads t j := by
  induction h with
  | null => exact reads_word rfl rfl
  | bool b =>
    cases b with
    | true => exact reads_word rfl rfl
    | false => exact reads_word rfl rfl
  | number h => exact reads_number h
  | str h => exact reads_string h
  | emptyArr h => exact (reads_empty h).1
  | arr hne h ih => exact reads_arr hne h ih
  | emptyObj h => exact (reads_empty h).2
  | obj hne hkeys h ih => exact reads_obj hne hkeys ih
  | spaced ha h hb ih => exact ih.spaced ha hb

theorem skipBlank_of_spaces {w : List Char} (h : Spaces w) : skipBlank w = [] := by
  have hskip := skipBlank_spaces h []
  rwa [List.append_nil] at hskip

theorem Denotes.parse?_eq {text : String} {j : Json} (h : Denotes text j) : parse? text = some j := by
  obtain ⟨w, hw, hread⟩ := ValueText.reads h (text.toList.length + 1) [] (by omega) (by simp [Stops])
  rw [List.append_nil, List.append_nil] at hread
  simp [parse?, hread, skipBlank_of_spaces hw]

theorem Denotes.unique {text : String} {j j' : Json} (h : Denotes text j) (h' : Denotes text j') : j = j' := by
  have heq := h.parse?_eq
  rw [h'.parse?_eq] at heq
  exact (Option.some.inj heq).symm

end EdgeAudit.Json

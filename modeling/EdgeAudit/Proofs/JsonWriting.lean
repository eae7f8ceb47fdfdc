import Mathlib
import EdgeAudit.Proofs.DecimalText
import EdgeAudit.Proofs.IntegerText
import EdgeAudit.Proofs.JsonReading

namespace EdgeAudit.Json

open Number Text

def Ascii (cs : List Char) : Prop :=
  ∀ c ∈ cs, c.toNat < 128

inductive Every (whole : Int → Prop) (real : Binary64 → Prop) : Json → Prop
  | null : Every whole real .null
  | bool (b : Bool) : Every whole real (.bool b)
  | int {n : Int} (h : whole n) : Every whole real (.int n)
  | real {x : Binary64} (h : real x) : Every whole real (.real x)
  | str (s : String) : Every whole real (.str s)
  | arr {xs : List Json} (h : ∀ x ∈ xs, Every whole real x) : Every whole real (.arr xs)
  | obj {ms : List (String × Json)} (h : ∀ m ∈ ms, Every whole real m.2) : Every whole real (.obj ms)

def Short (n : Int) : Prop :=
  n.natAbs < 10 ^ maxWholeDigits

abbrev Writable : Json → Prop :=
  Every Short Binary64.IsFinite

section Every

variable {whole : Int → Prop} {real : Binary64 → Prop}

theorem every_int {n : Int} : Every whole real (.int n) ↔ whole n :=
  ⟨fun h => by cases h; assumption, .int⟩

theorem every_real {x : Binary64} : Every whole real (.real x) ↔ real x :=
  ⟨fun h => by cases h; assumption, .real⟩

theorem every_str {s : String} : Every whole real (.str s) :=
  .str s

theorem every_arr {xs : List Json} : Every whole real (.arr xs) ↔ ∀ x ∈ xs, Every whole real x :=
  ⟨fun h => by cases h; assumption, .arr⟩

theorem every_obj {ms : List (String × Json)} :
    Every whole real (.obj ms) ↔ ∀ m ∈ ms, Every whole real m.2 :=
  ⟨fun h => by cases h; assumption, .obj⟩

end Every

section Ascii

variable {as bs : List Char} {c : Char}

theorem ascii_nil : Ascii [] := by simp [Ascii]

theorem Ascii.cons (hc : c.toNat < 128) (h : Ascii as) : Ascii (c :: as) :=
  List.forall_mem_cons.mpr ⟨hc, h⟩

theorem Ascii.append (ha : Ascii as) (hb : Ascii bs) : Ascii (as ++ bs) :=
  fun c hc => (List.mem_append.mp hc).elim (ha c) (hb c)

theorem Ascii.flatMap {α : Type} {f : α → List Char} {xs : List α} (h : ∀ x ∈ xs, Ascii (f x)) :
    Ascii (xs.flatMap f) := by
  intro c hc
  obtain ⟨x, hx, hcx⟩ := List.mem_flatMap.mp hc
  exact h x hx c hcx

end Ascii

section Strings

def padded (k n : Nat) : List Char :=
  List.replicate (k - (Nat.toDigits 16 n).length) '0' ++ Nat.toDigits 16 n

theorem padded_succ {k : Nat} (hk : 0 < k) (n : Nat) :
    padded (k + 1) n = padded k (n / 16) ++ [(n % 16).digitChar] := by
  by_cases hn : n < 16
  · obtain ⟨j, rfl⟩ : ∃ j, k = j + 1 := ⟨k - 1, by omega⟩
    rw [padded, padded, Nat.toDigits_of_lt_base hn, Nat.div_eq_of_lt hn, Nat.mod_eq_of_lt hn,
      Nat.toDigits_zero]
    simp [List.replicate_succ']
  · rw [padded, padded, Nat.toDigits_of_base_le (by omega) (by omega : 16 ≤ n), List.length_append,
      List.length_singleton, Nat.add_sub_add_right, List.append_assoc]

theorem hex4_eq {n : Nat} (h : n < 65536) :
    hex4 n = [(n / 4096).digitChar, (n / 256 % 16).digitChar, (n / 16 % 16).digitChar, (n % 16).digitChar] := by
  have hfirst : padded 1 (n / 16 / 16 / 16) = [(n / 16 / 16 / 16).digitChar] := by
    rw [padded, Nat.toDigits_of_lt_base (by omega)]
    rfl
  have hfour : hex4 n = padded 4 n := rfl
  rw [hfour, padded_succ (by omega), padded_succ (by omega), padded_succ (by omega), hfirst]
  simp only [Nat.div_div_eq_div_mul]
  rfl

theorem hexText_hex4 {n : Nat} (h : n < 65536) : HexText (hex4 n) n := by
  refine ⟨[n / 4096, n / 256 % 16, n / 16 % 16, n % 16], rfl, ?_, ?_, ?_⟩
  · simp only [List.forall_mem_cons, List.not_mem_nil, false_implies, implies_true, and_true]
    omega
  · rw [hex4_eq h]
    simp [IsDigitOf]
  · simp [Nat.ofDigits]
    omega

theorem toNat_lt (c : Char) : c.toNat < 0x110000 := by
  have hvalid := c.valid
  simp only [UInt32.isValidChar, Nat.isValidChar] at hvalid
  rw [Char.toNat]
  omega

theorem eq_of_toNat {c : Char} {n : Nat} (h : c.toNat = n) : c = Char.ofNat n := by
  rw [← h, Char.ofNat_toNat]

theorem charText_escapedChar (c : Char) : CharText (escapedChar c) c := by
  have hlt := toNat_lt c
  unfold escapedChar
  split
  · subst c
    exact .short (by decide)
  split
  · subst c
    exact .short (by decide)
  split
  · subst c
    exact .short (by decide)
  split
  · subst c
    exact .short (by decide)
  split
  · subst c
    exact .short (by decide)
  split
  · rename_i h
    rw [eq_of_toNat h]
    exact .short (by decide)
  split
  · rename_i h
    rw [eq_of_toNat h]
    exact .short (by decide)
  split
  · rename_i hquote hslash _ _ _ _ _ h
    exact .plain h.1 hquote hslash
  split
  · rename_i h
    exact .unit (hexText_hex4 h)
  · refine .pair (hexText_hex4 (by omega)) (hexText_hex4 (by omega)) (by omega) (by omega) (by omega)

theorem charsText_flatMap (cs : List Char) : CharsText (cs.flatMap escapedChar) cs := by
  induction cs with
  | nil => exact .nil
  | cons c cs ih =>
    rw [List.flatMap_cons]
    exact .cons (charText_escapedChar c) ih

theorem stringText_quotedString (s : String) : StringText (quotedString s) s :=
  ⟨_, charsText_flatMap s.toList, rfl⟩

theorem ascii_hex4 {n : Nat} (h : n < 65536) : Ascii (hex4 n) := by
  have hdigit : ∀ k < 16, k.digitChar.toNat < 128 := by decide
  rw [hex4_eq h]
  exact .cons (hdigit _ (by omega)) (.cons (hdigit _ (by omega)) (.cons (hdigit _ (by omega))
    (.cons (hdigit _ (by omega)) ascii_nil)))

theorem ascii_escapedChar (c : Char) : Ascii (escapedChar c) := by
  have hlt := toNat_lt c
  have hslash : ∀ {cs : List Char}, Ascii cs → Ascii ('\\' :: cs) := fun h => h.cons (by decide)
  unfold escapedChar
  iterate 7
    split
    · exact hslash (ascii_nil.cons (by decide))
  split
  · rename_i h
    have hle : c.toNat ≤ 126 := h.2
    exact ascii_nil.cons (by omega)
  split
  · rename_i h
    exact hslash ((ascii_hex4 h).cons (by decide))
  · apply Ascii.append
    · exact hslash ((ascii_hex4 (by omega)).cons (by decide))
    · exact hslash ((ascii_hex4 (by omega)).cons (by decide))

theorem ascii_quotedString (s : String) : Ascii (quotedString s) := by
  have hquote : ('"' : Char).toNat < 128 := by decide
  apply Ascii.append
  · exact (Ascii.flatMap fun c _ => ascii_escapedChar c).cons hquote
  · exact ascii_nil.cons hquote

end Strings

section Numbers

theorem numberText_int (n : Int) : NumberText (toString n).toList (.int n) := by
  have hvalue : signed (n < 0) (Nat.ofDigitChars 10 (Nat.toDigits 10 n.natAbs) 0) = n := by
    rw [Nat.ofDigitChars_ten_toDigits, signed_natAbs]
  have htext : (toString n).toList = minus (n < 0) ++ Nat.toDigits 10 n.natAbs := by
    rw [toList_toString_int]
    by_cases h : n < 0 <;> simp [minus, h]
  have hnumber := NumberText.whole (n < 0) (wholeText_toDigits n.natAbs)
  rwa [hvalue, ← htext] at hnumber

theorem realText_eq {x : Binary64} (h : x.IsFinite) : realText x = x.text := by
  cases x with
  | notANumber => exact h.elim
  | infinite negative => exact h.elim
  | finite negative m e => rfl

theorem NumberText.ascii {t : List Char} {j : Json} (h : NumberText t j) : Ascii t :=
  fun c hc => (numberChar_plain (h.mem c hc)).1

end Numbers

section Separated

variable {α β γ : Type}

def withEnd (f : List Char → α → β) (ending : List Char) : List α → List β
  | [] => []
  | [x] => [f ending x]
  | x :: y :: xs => f [] x :: withEnd f ending (y :: xs)

variable {f : List Char → α → β} {ending : List Char}

theorem mem_withEnd {xs : List α} {b : β} (h : b ∈ withEnd f ending xs) :
    ∃ x ∈ xs, ∃ w, (w = [] ∨ w = ending) ∧ b = f w x := by
  induction xs using withEnd.induct with
  | case1 => cases h
  | case2 x => exact ⟨x, by simp, ending, .inr rfl, List.mem_singleton.mp h⟩
  | case3 x y xs ih =>
    rw [withEnd, List.mem_cons] at h
    obtain rfl | h := h
    · exact ⟨x, by simp, [], .inl rfl, rfl⟩
    · obtain ⟨z, hz, hb⟩ := ih h
      exact ⟨z, List.mem_cons_of_mem x hz, hb⟩

theorem map_withEnd {g : β → γ} {k : α → γ} (h : ∀ w x, g (f w x) = k x) (xs : List α) :
    (withEnd f ending xs).map g = xs.map k := by
  induction xs using withEnd.induct with
  | case1 => rfl
  | case2 x => simp [withEnd, h]
  | case3 x y xs ih =>
    rw [withEnd, List.map_cons, ih, h]
    rfl

theorem withEnd_ne_nil (x : α) (xs : List α) : withEnd f ending (x :: xs) ≠ [] := by
  cases xs <;> simp [withEnd]

theorem intercalate_withEnd {text : β → List Char} {body : α → List Char}
    (h : ∀ w x, text (f w x) = body x ++ w) (x : α) (xs : List α) :
    [','].intercalate ((withEnd f ending (x :: xs)).map text) =
      body x ++ xs.flatMap (fun y => ',' :: body y) ++ ending := by
  induction xs generalizing x with
  | nil => simp [withEnd, h]
  | cons y xs ih =>
    obtain ⟨t, ts, hts⟩ := List.exists_cons_of_ne_nil
      (mt List.map_eq_nil_iff.mp (withEnd_ne_nil y xs))
    have hrest := ih y
    rw [hts] at hrest
    rw [withEnd, List.map_cons, hts, List.intercalate_cons_cons, hrest, h]
    simp

end Separated

theorem spaces_nil : Spaces [] := by simp [Spaces]

theorem spaces_lineBreak (indent : Option Nat) (depth : Nat) : Spaces (lineBreak indent depth) := by
  cases indent with
  | none => simp [lineBreak, Spaces]
  | some n =>
    intro c hc
    obtain rfl | hc := List.mem_cons.mp hc
    · exact .inr (.inl rfl)
    · exact .inl (List.mem_replicate.mp hc).2

theorem Spaces.ascii {w : List Char} (h : Spaces w) : Ascii w := by
  intro c hc
  rcases h c hc with rfl | rfl | rfl | rfl <;> decide

section Writing

variable {indent : Option Nat} {depth : Nat}

theorem writeItems?_eq (xs : List Json) : writeItems? indent depth xs =
    (xs.mapM (write? indent depth)).map (List.flatMap fun t => ',' :: lineBreak indent depth ++ t) := by
  induction xs with
  | nil => rfl
  | cons x xs ih =>
    rw [writeItems?, ih, List.mapM_cons]
    cases write? indent depth x with
    | none => rfl
    | some t => cases xs.mapM (write? indent depth) <;> rfl

theorem writeMembers?_eq (ms : List (String × Json)) : writeMembers? indent depth ms =
    (ms.mapM fun m => (write? indent depth m.2).map fun t => quotedString m.1 ++ ':' :: ' ' :: t).map
      (List.flatMap fun t => ',' :: lineBreak indent depth ++ t) := by
  induction ms with
  | nil => rfl
  | cons m ms ih =>
    rw [writeMembers?, ih, List.mapM_cons]
    cases write? indent depth m.2 with
    | none => rfl
    | some t =>
      cases ms.mapM fun m => (write? indent depth m.2).map fun t => quotedString m.1 ++ ':' :: ' ' :: t with
      | none => rfl
      | some ts => simp

theorem mapM_eq_some {α β : Type} {f : α → Option β} {g : α → β} {xs : List α}
    (h : ∀ x ∈ xs, f x = some (g x)) : xs.mapM f = some (xs.map g) := by
  induction xs with
  | nil => rfl
  | cons x xs ih =>
    rw [List.mapM_cons, h x (by simp), ih fun y hy => h y (by simp [hy])]
    rfl

def written (indent : Option Nat) (depth : Nat) (j : Json) : List Char :=
  (write? indent depth j).getD []

theorem write?_eq_written {j : Json} (h : (write? indent depth j).isSome = true) :
    write? indent depth j = some (written indent depth j) := by
  obtain ⟨t, ht⟩ := Option.isSome_iff_exists.mp h
  rw [written, ht, Option.getD_some]

theorem mapM_written {xs : List Json} (h : ∀ x ∈ xs, (write? indent depth x).isSome = true) :
    xs.mapM (write? indent depth) = some (xs.map (written indent depth)) :=
  mapM_eq_some fun x hx => write?_eq_written (h x hx)

def itemBody (indent : Option Nat) (depth : Nat) (j : Json) : List Char :=
  lineBreak indent depth ++ written indent depth j

def memberBody (indent : Option Nat) (depth : Nat) (m : String × Json) : List Char :=
  lineBreak indent depth ++ quotedString m.1 ++ ':' :: ' ' :: written indent depth m.2

theorem write?_arr {x : Json} {xs : List Json} (h : ∀ y ∈ x :: xs, (write? indent (depth + 1) y).isSome = true) :
    write? indent depth (.arr (x :: xs)) = some ('[' :: (itemBody indent (depth + 1) x ++
      (xs.flatMap fun y => ',' :: itemBody indent (depth + 1) y) ++ lineBreak indent depth) ++ [']']) := by
  rw [List.forall_mem_cons] at h
  rw [write?, writeItems?_eq, write?_eq_written h.1, mapM_written h.2]
  simp [itemBody, List.flatMap_map]

theorem write?_obj {m : String × Json} {ms : List (String × Json)}
    (h : ∀ n ∈ m :: ms, (write? indent (depth + 1) n.2).isSome = true) :
    write? indent depth (.obj (m :: ms)) = some ('\x7b' :: (memberBody indent (depth + 1) m ++
      (ms.flatMap fun n => ',' :: memberBody indent (depth + 1) n) ++ lineBreak indent depth) ++ ['\x7d']) := by
  rw [List.forall_mem_cons] at h
  have hmembers : (ms.mapM fun m => (write? indent (depth + 1) m.2).map fun t => quotedString m.1 ++ ':' :: ' ' :: t) =
      some (ms.map fun m => quotedString m.1 ++ ':' :: ' ' :: written indent (depth + 1) m.2) := by
    apply mapM_eq_some
    intro n hn
    rw [write?_eq_written (h.2 n hn), Option.map_some]
  rw [write?, writeMembers?_eq, write?_eq_written h.1, hmembers]
  simp [memberBody, List.flatMap_map]

def itemOf (indent : Option Nat) (depth : Nat) (w : List Char) (j : Json) : List Char × Json :=
  (lineBreak indent depth ++ (written indent depth j ++ w), j)

def memberOf (indent : Option Nat) (depth : Nat) (w : List Char) (m : String × Json) : Member :=
  ⟨lineBreak indent depth ++ (quotedString m.1 ++ []), m.1, [' '] ++ (written indent depth m.2 ++ w), m.2⟩

theorem spaces_of_end {ending w : List Char} (h : Spaces ending) (hw : w = [] ∨ w = ending) : Spaces w := by
  obtain rfl | rfl := hw
  · exact spaces_nil
  · exact h

theorem valueText_arr {x : Json} {xs : List Json}
    (h : ∀ y ∈ x :: xs, ValueText (written indent (depth + 1) y) y) :
    ValueText ('[' :: (itemBody indent (depth + 1) x ++ (xs.flatMap fun y => ',' :: itemBody indent (depth + 1) y) ++
      lineBreak indent depth) ++ [']']) (.arr (x :: xs)) := by
  let items := withEnd (itemOf indent (depth + 1)) (lineBreak indent depth) (x :: xs)
  have htext : [','].intercalate (items.map (·.1)) = itemBody indent (depth + 1) x ++
      (xs.flatMap fun y => ',' :: itemBody indent (depth + 1) y) ++ lineBreak indent depth :=
    intercalate_withEnd (by simp [itemOf, itemBody]) x xs
  have hvalues : items.map (·.2) = (x :: xs).map id := map_withEnd (by simp [itemOf]) (x :: xs)
  have hitems : ∀ p ∈ items, ValueText p.1 p.2 := by
    intro p hp
    obtain ⟨y, hy, w, hw, rfl⟩ := mem_withEnd hp
    exact .spaced (spaces_lineBreak _ _) (h y hy) (spaces_of_end (spaces_lineBreak _ _) hw)
  have harr := ValueText.arr (withEnd_ne_nil x xs) hitems
  rw [← htext]
  rwa [hvalues, List.map_id] at harr

theorem valueText_obj {m : String × Json} {ms : List (String × Json)}
    (h : ∀ n ∈ m :: ms, ValueText (written indent (depth + 1) n.2) n.2) :
    ValueText ('\x7b' :: (memberBody indent (depth + 1) m ++
      (ms.flatMap fun n => ',' :: memberBody indent (depth + 1) n) ++ lineBreak indent depth) ++ ['\x7d'])
      (.obj (m :: ms)) := by
  let members := withEnd (memberOf indent (depth + 1)) (lineBreak indent depth) (m :: ms)
  have htext : [','].intercalate (members.map (·.text)) = memberBody indent (depth + 1) m ++
      (ms.flatMap fun n => ',' :: memberBody indent (depth + 1) n) ++ lineBreak indent depth :=
    intercalate_withEnd (by simp [memberOf, Member.text, memberBody]) m ms
  have hvalues : members.map (·.pair) = (m :: ms).map id :=
    map_withEnd (by simp [memberOf, Member.pair]) (m :: ms)
  have hkeys : ∀ n ∈ members, KeyText n.keyText n.key := by
    intro n hn
    obtain ⟨y, hy, w, hw, rfl⟩ := mem_withEnd hn
    exact ⟨_, _, [], spaces_lineBreak _ _, stringText_quotedString y.1, spaces_nil, rfl⟩
  have hmembers : ∀ n ∈ members, ValueText n.valueText n.value := by
    intro n hn
    obtain ⟨y, hy, w, hw, rfl⟩ := mem_withEnd hn
    exact .spaced (by simp [Spaces, IsSpace]) (h y hy) (spaces_of_end (spaces_lineBreak _ _) hw)
  have hobj := ValueText.obj (withEnd_ne_nil m ms) hkeys hmembers
  rw [← htext]
  rwa [hvalues, List.map_id] at hobj

theorem ascii_arr {x : Json} {xs : List Json} (h : ∀ y ∈ x :: xs, Ascii (written indent (depth + 1) y)) :
    Ascii ('[' :: (itemBody indent (depth + 1) x ++ (xs.flatMap fun y => ',' :: itemBody indent (depth + 1) y) ++
      lineBreak indent depth) ++ [']']) := by
  have hitem : ∀ y ∈ x :: xs, Ascii (itemBody indent (depth + 1) y) :=
    fun y hy => (spaces_lineBreak _ _).ascii.append (h y hy)
  refine .append (.cons (by decide) (.append (.append (hitem x (by simp)) ?_) (spaces_lineBreak _ _).ascii))
    (ascii_nil.cons (by decide))
  exact .flatMap fun y hy => (hitem y (List.mem_cons_of_mem x hy)).cons (by decide)

theorem ascii_obj {m : String × Json} {ms : List (String × Json)}
    (h : ∀ n ∈ m :: ms, Ascii (written indent (depth + 1) n.2)) :
    Ascii ('\x7b' :: (memberBody indent (depth + 1) m ++
      (ms.flatMap fun n => ',' :: memberBody indent (depth + 1) n) ++ lineBreak indent depth) ++ ['\x7d']) := by
  have hmember : ∀ n ∈ m :: ms, Ascii (memberBody indent (depth + 1) n) := fun n hn =>
    .append ((spaces_lineBreak _ _).ascii.append (ascii_quotedString n.1))
      (((h n hn).cons (by decide)).cons (by decide))
  refine .append (.cons (by decide) (.append (.append (hmember m (by simp)) ?_) (spaces_lineBreak _ _).ascii))
    (ascii_nil.cons (by decide))
  exact .flatMap fun n hn => (hmember n (List.mem_cons_of_mem m hn)).cons (by decide)

theorem write?_writable {j : Json} (h : Writable j) : ∀ depth, ∃ t, write? indent depth j = some t ∧
    ValueText t j ∧ Ascii t := by
  have hwritten : ∀ {k : Json} {depth : Nat}, (∃ t, write? indent depth k = some t ∧ ValueText t k ∧ Ascii t) →
      (write? indent depth k).isSome = true ∧ ValueText (written indent depth k) k ∧
        Ascii (written indent depth k) := by
    rintro k depth ⟨t, ht, hvalue, hascii⟩
    rw [written, ht]
    exact ⟨rfl, hvalue, hascii⟩
  induction h with
  | null => exact fun depth => ⟨_, rfl, .null, by simp [Ascii]⟩
  | bool b =>
    intro depth
    cases b with
    | true => exact ⟨_, rfl, .bool true, by simp [Ascii]⟩
    | false => exact ⟨_, rfl, .bool false, by simp [Ascii]⟩
  | @int n h =>
    refine fun depth => ⟨(toString n).toList, ?_, .number (numberText_int n), (numberText_int n).ascii⟩
    rw [write?, wholeText?_of_lt h, Option.map_some]
  | real h =>
    refine fun depth => ⟨_, rfl, ?_⟩
    rw [realText_eq h]
    exact ⟨.number (Binary64.numberText_text h), (Binary64.numberText_text h).ascii⟩
  | str s => exact fun depth => ⟨_, rfl, .str (stringText_quotedString s), ascii_quotedString s⟩
  | @arr xs h ih =>
    intro depth
    cases xs with
    | nil => exact ⟨_, rfl, .emptyArr spaces_nil, by simp [Ascii]⟩
    | cons x xs =>
      have hitems : ∀ y ∈ x :: xs, _ := fun y hy => hwritten (ih y hy (depth + 1))
      exact ⟨_, write?_arr fun y hy => (hitems y hy).1, valueText_arr fun y hy => (hitems y hy).2.1,
        ascii_arr fun y hy => (hitems y hy).2.2⟩
  | @obj ms h ih =>
    intro depth
    cases ms with
    | nil => exact ⟨_, rfl, .emptyObj spaces_nil, by simp [Ascii]⟩
    | cons m ms =>
      have hmembers : ∀ n ∈ m :: ms, _ := fun n hn => hwritten (ih n hn (depth + 1))
      exact ⟨_, write?_obj fun n hn => (hmembers n hn).1, valueText_obj fun n hn => (hmembers n hn).2.1,
        ascii_obj fun n hn => (hmembers n hn).2.2⟩

mutual

theorem short_of_write? : ∀ {j : Json} {depth : Nat}, (write? indent depth j).isSome = true →
    Every Short (fun _ => True) j
  | .null, _, _ => .null
  | .bool b, _, _ => .bool b
  | .int n, _, h => by
    rw [write?, Option.isSome_map, wholeText?_eq] at h
    refine .int ?_
    by_contra hlong
    rw [if_neg (by exact hlong)] at h
    cases h
  | .real x, _, _ => .real trivial
  | .str s, _, _ => .str s
  | .arr [], _, _ => .arr (by simp)
  | .arr (x :: xs), depth, h => by
    rw [write?] at h
    cases hx : write? indent (depth + 1) x with
    | none => simp [hx] at h
    | some t =>
      have hxs : (writeItems? indent (depth + 1) xs).isSome = true := by
        cases hxs : writeItems? indent (depth + 1) xs with
        | none => simp [hx, hxs] at h
        | some ts => rfl
      exact .arr (List.forall_mem_cons.mpr ⟨short_of_write? (by rw [hx]; rfl), short_of_writeItems? hxs⟩)
  | .obj [], _, _ => .obj (by simp)
  | .obj ((k, v) :: ms), depth, h => by
    rw [write?] at h
    cases hv : write? indent (depth + 1) v with
    | none => simp [hv] at h
    | some t =>
      have hms : (writeMembers? indent (depth + 1) ms).isSome = true := by
        cases hms : writeMembers? indent (depth + 1) ms with
        | none => simp [hv, hms] at h
        | some ts => rfl
      exact .obj (List.forall_mem_cons.mpr ⟨short_of_write? (by rw [hv]; rfl), short_of_writeMembers? hms⟩)

theorem short_of_writeItems? : ∀ {xs : List Json} {depth : Nat},
    (writeItems? indent depth xs).isSome = true → ∀ x ∈ xs, Every Short (fun _ => True) x
  | [], _, _ => by simp
  | x :: xs, depth, h => by
    rw [writeItems?] at h
    cases hx : write? indent depth x with
    | none => simp [hx] at h
    | some t =>
      have hxs : (writeItems? indent depth xs).isSome = true := by
        cases hxs : writeItems? indent depth xs with
        | none => simp [hx, hxs] at h
        | some ts => rfl
      exact List.forall_mem_cons.mpr ⟨short_of_write? (by rw [hx]; rfl), short_of_writeItems? hxs⟩

theorem short_of_writeMembers? : ∀ {ms : List (String × Json)} {depth : Nat},
    (writeMembers? indent depth ms).isSome = true → ∀ m ∈ ms, Every Short (fun _ => True) m.2
  | [], _, _ => by simp
  | (k, v) :: ms, depth, h => by
    rw [writeMembers?] at h
    cases hv : write? indent depth v with
    | none => simp [hv] at h
    | some t =>
      have hms : (writeMembers? indent depth ms).isSome = true := by
        cases hms : writeMembers? indent depth ms with
        | none => simp [hv, hms] at h
        | some ts => rfl
      exact List.forall_mem_cons.mpr ⟨short_of_write? (by rw [hv]; rfl), short_of_writeMembers? hms⟩

end

end Writing

theorem pretty?_writable {j : Json} (h : Writable j) :
    ∃ text, j.pretty? = some text ∧ Denotes (text ++ "\n") j ∧ Ascii (text ++ "\n").toList := by
  obtain ⟨t, ht, hvalue, hascii⟩ : ∃ t, write? (some 2) 0 j = some t ∧ ValueText t j ∧ Ascii t :=
    write?_writable h 0
  have htext : (String.ofList t ++ "\n").toList = t ++ ['\n'] := by simp
  refine ⟨String.ofList t, by rw [pretty?, ht, Option.map_some], ?_, ?_⟩
  · rw [Denotes, htext]
    exact .spaced spaces_nil hvalue (by simp [Spaces, IsSpace])
  · rw [htext]
    exact hascii.append (ascii_nil.cons (by decide))

end EdgeAudit.Json

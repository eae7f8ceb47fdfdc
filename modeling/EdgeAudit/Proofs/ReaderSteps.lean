import EdgeAudit.Proofs.PatternOpening
import EdgeAudit.Script.Parse

namespace EdgeAudit.Script

def keywords : List String :=
  reservedWords ++ ["abstract", "async", "await", "declare", "enum", "interface", "let", "module",
    "namespace", "type", "using", "yield"]

structure IsName (w : String) : Prop where
  start : w.toList.head?.any isNameStart = true
  parts : w.toList.all isNamePart = true
  free : w ∉ keywords

instance (w : String) : Decidable (IsName w) :=
  decidable_of_iff (w.toList.head?.any isNameStart = true ∧ w.toList.all isNamePart = true ∧
    w ∉ keywords) ⟨fun h => ⟨h.1, h.2.1, h.2.2⟩, fun h => ⟨h.start, h.parts, h.free⟩⟩

namespace IsName

variable {w : String}

theorem not_contains (hw : IsName w) {ws : List String} (h : ∀ v ∈ ws, v ∈ keywords) :
    ws.contains w = false := by
  rw [List.contains_eq_mem, decide_eq_false_iff_not]
  exact fun hmem => hw.free (h w hmem)

theorem isNamePart (hw : IsName w) : ∀ c ∈ w.toList, isNamePart c = true :=
  List.all_eq_true.mp hw.parts

theorem exists_cons (hw : IsName w) : ∃ c cs, w.toList = c :: cs ∧ isNameStart c = true := by
  have hstart := hw.start
  cases hcs : w.toList with
  | nil => simp [hcs] at hstart
  | cons c cs => exact ⟨c, cs, rfl, by simpa [hcs] using hstart⟩

theorem ne (hw : IsName w) {v : String} (h : v ∈ keywords) : w ≠ v :=
  fun heq => hw.free (heq ▸ h)

end IsName

theorem isNamePart_not_mark {ch : Char} (h : isNamePart ch = true) : ∀ d ∈ marks, d ≠ ch := by
  rintro d hd rfl
  simp [isNamePart, hd] at h

namespace Reader

variable {α β : Type} {p : Reader α} {q : α → Reader β} {c c' : Cursor} {a : α}

theorem bind_run (h : p c = some (a, c')) : (p >>= q) c = q a c' := by
  show (p c).bind _ = _
  rw [h]
  rfl

theorem bind_fails (h : p c = none) : (p >>= q) c = none := by
  show (p c).bind _ = _
  rw [h]
  rfl

theorem discard_fails (h : p c = none) : discard p c = none := by
  show (p c).bind _ = _
  rw [h]
  rfl

theorem discard_run (h : p c = some (a, c')) : discard p c = some ((), c') := by
  show (p c).bind _ = _
  rw [h]
  rfl

/-- To run a reader that is given by cases, take the cases of the reader first. -/
theorem apply_eq {x : Option (α × Cursor)} (h : ∀ k, k = p → k c = x) : p c = x :=
  h p rfl

theorem get_bind {k : Cursor → Reader α} : (get >>= k) c = k c c := rfl

theorem check_bind {k : Unit → Reader α} : (check true >>= k) c = k () c := rfl

theorem maybe_run (h : p c = some (a, c')) : maybe p c = some (some a, c') := by
  rw [maybe, h]

theorem maybe_fails (h : p c = none) : maybe p c = some (none, c) := by
  rw [maybe, h]

theorem ahead_fails (h : p c = none) : ahead p c = some (false, c) := by
  rw [ahead, h]
  rfl

theorem orElse_fails {p' : Reader α} (h : p c = none) : (p <|> p') c = p' c := by
  show (p c <|> _) = _
  rw [h]
  rfl

theorem repeatUpTo_fails (n : Nat) (h : p c = none) : repeatUpTo n p c = some ([], c) := by
  cases n with
  | zero => rfl
  | succ n => simp only [repeatUpTo, h]

theorem repeatUpTo_run {n : Nat} {c'' : Cursor} {as : List α} (h : p c = some (a, c'))
    (hlt : c.pos < c'.pos) (hrest : repeatUpTo n p c' = some (as, c'')) :
    repeatUpTo (n + 1) p c = some (a :: as, c'') := by
  simp only [repeatUpTo, h, if_pos hlt, hrest]

theorem many_fails (h : p c = none) : many p c = some ([], c) :=
  repeatUpTo_fails _ h

section Token

variable {n pos : Nat} {ch d : Char} {r ds : List Char} {s : String}

theorem trivia_token (hspace : isSpace ch = false) (hslash : ch ≠ '/') :
    trivia ⟨n, pos, ch :: r⟩ = some ((), ⟨n, pos, ch :: r⟩) := by
  have hskip : skipTriviaFrom .code pos (ch :: r) = some (pos, ch :: r) := by
    unfold skipTriviaFrom
    split <;> grind
  rw [trivia, hskip]
  rfl

theorem begin_eq (h : trivia c = some ((), c')) : begin c = some (c'.pos, c') := by
  rw [begin, bind_run h]
  rfl

theorem isPrefixOf_other (hs : s.toList = d :: ds) (hd : d ≠ ch) :
    s.toList.isPrefixOf (ch :: r) = false := by
  rw [hs, List.isPrefixOf, beq_eq_false_iff_ne.mpr hd, Bool.false_and]

theorem mark_fails (h : trivia c = some ((), ⟨n, pos, ch :: r⟩)) (hs : s.toList = d :: ds)
    (hd : d ≠ ch) : mark s c = none := by
  have hexact : exactly s ⟨n, pos, ch :: r⟩ = (check (s.toList.isPrefixOf (ch :: r)) >>= fun _ =>
    advance s.length) ⟨n, pos, ch :: r⟩ := rfl
  rw [mark, bind_run h, hexact, isPrefixOf_other hs hd]
  rfl

theorem markIf_fails (h : mark s c = none) : markIf s c = some (false, c) := by
  rw [markIf, bind_run (maybe_fails h)]
  rfl

theorem markAhead_fails (h : mark s c = none) : markAhead s c = some (false, c) :=
  ahead_fails h

theorem lineEndsAhead_token (h : trivia c = some ((), c)) : lineEndsAhead c = some (false, c) := by
  rw [lineEndsAhead, get_bind, bind_run h]
  show some ((c.rest.take (c.pos - c.pos)).any isLineEnd, c) = _
  simp

end Token


section Name

variable {n pos : Nat} {ch : Char} {r : List Char} {w : String}

theorem part_token (h : isNamePart ch = true) :
    trivia ⟨n, pos, ch :: r⟩ = some ((), ⟨n, pos, ch :: r⟩) := by
  apply trivia_token
  · simp only [isNamePart, Bool.and_eq_true, Bool.not_eq_true'] at h
    exact h.1.2
  · exact (isNamePart_not_mark h _ (by decide)).symm

theorem nameLengthFrom_parts {cs : List Char} (hcs : ∀ c ∈ cs, isNamePart c = true)
    (hch : ch ∈ marks) (hslash : ch ≠ '\\') : nameLengthFrom 0 false (cs ++ ch :: r) = cs.length := by
  have hstop : isNamePart ch = false := by simp [isNamePart, hch]
  induction cs with
  | nil => simp [nameLengthFrom, hslash, hstop]
  | cons c cs ih =>
    have hc := hcs c (by simp)
    have hne : c ≠ '\\' := (isNamePart_not_mark hc _ (by decide)).symm
    simp [nameLengthFrom, hne, hc, ih fun c hc => hcs c (by simp [hc])]

theorem bareName_run (hw : IsName w) (hch : ch ∈ marks) (hslash : ch ≠ '\\') :
    bareName ⟨n, pos, w.toList ++ ch :: r⟩ = some (w, ⟨n, pos + w.length, ch :: r⟩) := by
  have hlength : nameLength (w.toList ++ ch :: r) = w.length := by
    obtain ⟨c, cs, hcs, hstart⟩ := hw.exists_cons
    have hparts := hw.isNamePart
    rw [← String.length_toList, hcs]
    rw [hcs] at hparts
    have hne : c ≠ '\\' := (isNamePart_not_mark (hparts c (by simp)) _ (by decide)).symm
    have hrest : nameLengthFrom 0 false (cs ++ ch :: r) = cs.length :=
      nameLengthFrom_parts (fun c hc => hparts c (by simp [hc])) hch hslash
    simp [nameLength, nameLengthFrom, hne, hstart, hrest]
  have hpos : 0 < w.length := by
    obtain ⟨c, cs, hcs, -⟩ := hw.exists_cons
    simp [← String.length_toList, hcs]
  have hread : bareName ⟨n, pos, w.toList ++ ch :: r⟩ = (do
      check (0 < nameLength (w.toList ++ ch :: r))
      advance (nameLength (w.toList ++ ch :: r))
      return String.ofList ((w.toList ++ ch :: r).take (nameLength (w.toList ++ ch :: r))) :
        Reader String) ⟨n, pos, w.toList ++ ch :: r⟩ := rfl
  rw [hread, hlength, decide_eq_true hpos]
  show some (String.ofList ((w.toList ++ ch :: r).take w.length),
    (⟨n, pos + w.length, (w.toList ++ ch :: r).drop w.length⟩ : Cursor)) = _
  rw [← String.length_toList, List.take_left, List.drop_left, String.ofList_toList]

theorem bareName_fails (hstart : isNameStart ch = false) (hslash : ch ≠ '\\') :
    bareName ⟨n, pos, ch :: r⟩ = none := by
  have hlength : nameLength (ch :: r) = 0 := by simp [nameLength, nameLengthFrom, hslash, hstart]
  have hread : bareName ⟨n, pos, ch :: r⟩ = (do
      check (0 < nameLength (ch :: r))
      advance (nameLength (ch :: r))
      return String.ofList ((ch :: r).take (nameLength (ch :: r))) : Reader String)
        ⟨n, pos, ch :: r⟩ := rfl
  rw [hread, hlength]
  rfl

end Name

structure Plain (c : Cursor) : Prop where
  head : ∃ ch r, c.rest = ch :: r ∧ isNamePart ch = true
  words : ∀ w c', bareName c = some (w, c') → w ∉ keywords

namespace Plain

variable {s : String} {d : Char} {ds : List Char}

theorem trivia (hc : Plain c) : trivia c = some ((), c) := by
  obtain ⟨ch, r, hrest, hch⟩ := hc.head
  obtain ⟨n, pos, rest⟩ := c
  obtain rfl : rest = ch :: r := hrest
  exact part_token hch

theorem mark_fails (hc : Plain c) (h : Reader.trivia c' = some ((), c)) (hs : s.toList = d :: ds)
    (hd : d ∈ marks) : mark s c' = none := by
  obtain ⟨ch, r, hrest, hch⟩ := hc.head
  obtain ⟨n, pos, rest⟩ := c
  obtain rfl : rest = ch :: r := hrest
  exact Reader.mark_fails h hs (isNamePart_not_mark hch d hd)

theorem oneWord_fails (hc : Plain c) {ws : List String} (h : ∀ v ∈ ws, v ∈ keywords) :
    oneWord ws c = none := by
  have hname : anyName c = bareName c := bind_run hc.trivia
  cases hread : bareName c with
  | none => rw [oneWord, bind_fails (hname.trans hread)]
  | some x =>
    obtain ⟨w, c'⟩ := x
    have hfree : ws.contains w = false := by
      rw [List.contains_eq_mem, decide_eq_false_iff_not]
      exact fun hmem => hc.words w c' hread (h w hmem)
    rw [oneWord, bind_run (hname.trans hread), hfree]
    rfl

theorem wordAhead (hc : Plain c) (h : s ∈ keywords) : wordAhead s c = some (false, c) := by
  have hname : anyName c = bareName c := bind_run hc.trivia
  apply ahead_fails
  cases hread : bareName c with
  | none => rw [word, bind_fails (hname.trans hread)]
  | some x =>
    obtain ⟨w, c'⟩ := x
    have hne : (w == s) = false := by
      rw [beq_eq_false_iff_ne]
      rintro rfl
      exact hc.words w c' hread h
    rw [word, bind_run (hname.trans hread), hne]
    rfl

end Plain

theorem plain_name {w : String} {n pos : Nat} {ch : Char} {r : List Char} (hw : IsName w)
    (hch : ch ∈ marks) (hslash : ch ≠ '\\') : Plain ⟨n, pos, w.toList ++ ch :: r⟩ where
  head := by
    obtain ⟨c, cs, hcs, -⟩ := hw.exists_cons
    exact ⟨c, cs ++ ch :: r, by rw [hcs]; rfl, hw.isNamePart c (by simp [hcs])⟩
  words v c' h := by
    rw [bareName_run hw hch hslash] at h
    cases h
    exact hw.free

theorem plain_digit {n pos : Nat} {d : Char} {r : List Char} (hd : isDecimal d = true) :
    Plain ⟨n, pos, d :: r⟩ := by
  have hascii : d.toNat < 128 := by
    simp only [isDecimal, Bool.and_eq_true, decide_eq_true_eq] at hd
    exact Nat.lt_of_le_of_lt hd.2 (by decide)
  have hclass : isNamePart d = true ∧ isNameStart d = false ∧ d ≠ '\\' :=
    InText.ascii_forall (P := fun d => isDecimal d = true → isNamePart d = true ∧
      isNameStart d = false ∧ d ≠ '\\') (by decide) hascii hd
  refine ⟨⟨d, r, rfl, hclass.1⟩, ?_⟩
  intro w c' h
  rw [bareName_fails hclass.2.1 hclass.2.2] at h
  cases h

end Reader

end EdgeAudit.Script

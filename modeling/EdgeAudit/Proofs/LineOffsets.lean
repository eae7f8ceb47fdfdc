import EdgeAudit.Proofs.PathJoin
import EdgeAudit.Proofs.SourcePosition
import EdgeAudit.Source.Frame
import Mathlib.Algebra.GroupWithZero.Nat
import Mathlib.Data.Set.Function

/-!
Offsets in a text and places in its lines. An offset cuts a text in two, and with it the lines: the last
line before the cut and the first one after it are two halves of one line (`position_split`). All that is
said about places follows from this.
-/

namespace EdgeAudit

open Text

section Lines

variable {text : List Char} {lines before after : List (List Char)} {last first : List Char}

theorem splitLines_eq (text : List Char) : splitLines text = text.splitOn '\n' := by
  unfold splitLines List.splitOn
  induction text with
  | nil => rfl
  | cons c cs ih =>
    rw [splitOn, List.splitOnP_cons_eq_if_modifyHead, ih]
    by_cases hc : c = '\n'
    · simp [hc]
    · rw [if_neg hc, if_neg (by simpa using hc)]
      cases hsplit : cs.splitOnP (· == '\n') with
      | nil => exact absurd hsplit (List.splitOnP_ne_nil _ _)
      | cons l ls => rfl

theorem intercalate_splitLines (text : List Char) : ['\n'].intercalate (splitLines text) = text := by
  rw [splitLines_eq, List.intercalate_splitOn]

theorem splitLines_intercalate (h : ∀ line ∈ lines, '\n' ∉ line) (hne : lines ≠ []) :
    splitLines (['\n'].intercalate lines) = lines := by
  rw [splitLines_eq, List.splitOn_intercalate '\n' h hne]

theorem length_splitLines (text : List Char) : (splitLines text).length = text.count '\n' + 1 := by
  unfold splitLines
  induction text with
  | nil => rfl
  | cons c cs ih =>
    rw [splitOn]
    by_cases hc : c = '\n'
    · simp [hc, ih]
    · rw [if_neg hc, List.count_cons_of_ne hc, ← ih]
      cases hsplit : splitOn '\n' cs with
      | nil => exact absurd hsplit (splitOn_ne_nil '\n' cs)
      | cons l ls => simp

theorem intercalate_snoc (before : List (List Char)) (last : List Char) :
    ['\n'].intercalate (before ++ [last]) = before.flatMap (· ++ ['\n']) ++ last := by
  induction before with
  | nil => simp
  | cons line before ih =>
    rw [List.cons_append, List.intercalate_cons_of_ne_nil (by simp), ih]
    simp

theorem intercalate_joined (before after : List (List Char)) (last first : List Char) :
    ['\n'].intercalate (before ++ (last ++ first) :: after) =
      ['\n'].intercalate (before ++ [last]) ++ ['\n'].intercalate (first :: after) := by
  induction before with
  | nil =>
    cases after with
    | nil => simp
    | cons line after => simp
  | cons line before ih =>
    rw [List.cons_append, List.cons_append, List.intercalate_cons_of_ne_nil (by simp),
      List.intercalate_cons_of_ne_nil (by simp), ih]
    simp

theorem lineTail_intercalate (before : List (List Char)) (h : '\n' ∉ last) :
    lineTail (['\n'].intercalate (before ++ [last])) = last.length := by
  have hends : lineTail (before.flatMap (· ++ ['\n'])) = 0 := by
    rcases List.eq_nil_or_concat before with rfl | ⟨before, line, rfl⟩
    · rfl
    · simp [lineTail]
  rw [intercalate_snoc, lineTail_append h, hends, Nat.zero_add]

theorem length_intercalate (before : List (List Char)) (last : List Char) :
    (['\n'].intercalate (before ++ [last])).length =
      (before.map fun line => line.length + 1).sum + last.length := by
  rw [intercalate_snoc, List.length_append, List.length_flatMap]
  simp

theorem exists_last (text : List Char) : ∃ before last, splitLines text = before ++ [last] := by
  rcases List.eq_nil_or_concat (splitLines text) with h | ⟨before, last, h⟩
  · exact absurd h (splitOn_ne_nil '\n' text)
  · exact ⟨before, last, by simpa using h⟩

theorem exists_first (text : List Char) : ∃ first after, splitLines text = first :: after :=
  List.exists_cons_of_ne_nil (splitOn_ne_nil '\n' text)

theorem position_of_lines {head : List Char} (rest : List Char) (h : splitLines head = before ++ [last]) :
    position (head ++ rest) head.length = ((before.length + 1 : Int), (last.length : Int)) := by
  have hlast : '\n' ∉ last := by
    have hmem : last ∈ splitLines head := by simp [h]
    exact not_mem_of_mem_splitOn hmem
  have hcount := length_splitLines head
  have htail := lineTail_intercalate before hlast
  rw [← h, intercalate_splitLines] at htail
  rw [h, List.length_append, List.length_singleton] at hcount
  rw [position_natCast (by simp), List.take_left, htail, ← hcount]
  rfl

theorem position_split {offset : Nat} (h : offset ≤ text.length) :
    ∃ before last first after, splitLines (text.take offset) = before ++ [last] ∧
      splitLines (text.drop offset) = first :: after ∧
      splitLines text = before ++ (last ++ first) :: after ∧
      position text offset = ((before.length + 1 : Int), (last.length : Int)) := by
  obtain ⟨before, last, hbefore⟩ := exists_last (text.take offset)
  obtain ⟨first, after, hafter⟩ := exists_first (text.drop offset)
  refine ⟨before, last, first, after, hbefore, hafter, ?_, ?_⟩
  · have hplain : ∀ line ∈ before ++ (last ++ first) :: after, '\n' ∉ line := by
      have hleft : ∀ line ∈ before ++ [last], '\n' ∉ line := fun line hline =>
        not_mem_of_mem_splitOn (hbefore ▸ hline)
      have hright : ∀ line ∈ first :: after, '\n' ∉ line := fun line hline =>
        not_mem_of_mem_splitOn (hafter ▸ hline)
      intro line hline
      rcases List.mem_append.mp hline with hline | hline
      · exact hleft line (by simp [hline])
      · rcases List.mem_cons.mp hline with rfl | hline
        · rw [List.mem_append, not_or]
          exact ⟨hleft last (by simp), hright first (by simp)⟩
        · exact hright line (by simp [hline])
    rw [← splitLines_intercalate hplain (by simp), intercalate_joined, ← hbefore, ← hafter,
      intercalate_splitLines, intercalate_splitLines, List.take_append_drop]
  · have hposition := position_of_lines (text.drop offset) hbefore
    rwa [List.take_append_drop, List.length_take, Nat.min_eq_left h] at hposition

end Lines

section Places

def offsets (text : List Char) : Set Int :=
  {offset | 0 ≤ offset ∧ offset ≤ text.length}

/-- The places of a text: a line, counted from one, and a column that is at most its length. -/
def linePlaces (text : List Char) : Set (Int × Int) :=
  {p | 1 ≤ p.1 ∧ p.1 ≤ (splitLines text).length ∧ 0 ≤ p.2 ∧
    p.2 ≤ ((splitLines text).getD (p.1 - 1).toNat []).length}

/-- The number of characters before a place: those of the lines before it with their ends, and those to
the left. -/
def offsetAt (text : List Char) (p : Int × Int) : Int :=
  p.2 + ((((splitLines text).take (p.1 - 1).toNat).map fun line => line.length + 1).sum : Nat)

def linesTo (lines : List (List Char)) (p : Int × Int) : List (List Char) :=
  lines.take (p.1 - 1).toNat ++ [(lines.getD (p.1 - 1).toNat []).take p.2.toNat]

def linesFrom (lines : List (List Char)) (p : Int × Int) : List (List Char) :=
  (lines.getD (p.1 - 1).toNat []).drop p.2.toNat :: lines.drop p.1.toNat

def cutLines (lines : List (List Char)) (start stop : Int × Int) : List Char :=
  ['\n'].intercalate (linesFrom (linesTo lines stop) start)

section Within

variable {text line : List Char} {before after : List (List Char)}

theorem getD_between (before after : List (List Char)) (line : List Char) :
    (before ++ line :: after).getD ((before.length + 1 : Int) - 1).toNat [] = line := by
  simp

theorem take_between (before after : List (List Char)) (line : List Char) :
    (before ++ line :: after).take ((before.length + 1 : Int) - 1).toNat = before := by
  simp

theorem mem_linePlaces (h : splitLines text = before ++ line :: after) (column : Nat) :
    ((before.length + 1 : Int), (column : Int)) ∈ linePlaces text ↔ column ≤ line.length := by
  have hlength : (splitLines text).length = before.length + (after.length + 1) := by simp [h]
  change (1 : Int) ≤ before.length + 1 ∧ before.length + 1 ≤ ((splitLines text).length : Int) ∧
    (0 : Int) ≤ column ∧ (column : Int) ≤ _ ↔ _
  rw [hlength, h, getD_between]
  omega

theorem offsetAt_between (h : splitLines text = before ++ line :: after) (column : Nat) :
    offsetAt text ((before.length + 1 : Int), (column : Int)) =
      ((before.map fun line => line.length + 1).sum + column : Nat) := by
  rw [offsetAt, h, take_between]
  omega

theorem linesTo_between (before after : List (List Char)) (line : List Char) (column : Nat) :
    linesTo (before ++ line :: after) ((before.length + 1 : Int), (column : Int)) =
      before ++ [line.take column] := by
  rw [linesTo, getD_between, take_between, Int.toNat_natCast]

theorem linesFrom_between (before after : List (List Char)) (line : List Char) (column : Nat) :
    linesFrom (before ++ line :: after) ((before.length + 1 : Int), (column : Int)) =
      line.drop column :: after := by
  have hindex : (before.length + 1 : Int).toNat = before.length + 1 := by omega
  rw [linesFrom, getD_between, Int.toNat_natCast, hindex]
  simp

theorem exists_between {p : Int × Int} (h : p ∈ linePlaces text) :
    ∃ before line after, ∃ column : Nat, splitLines text = before ++ line :: after ∧
      p = ((before.length + 1 : Int), (column : Int)) ∧ column ≤ line.length := by
  obtain ⟨hline, hlines, hcolumn, -⟩ := id h
  have hin : (p.1 - 1).toNat < (splitLines text).length := by omega
  have hsplit : splitLines text = _ ++ _ := (List.take_append_drop (p.1 - 1).toNat (splitLines text)).symm
  rw [List.drop_eq_getElem_cons hin] at hsplit
  have hlength : ((splitLines text).take (p.1 - 1).toNat).length = (p.1 - 1).toNat := by
    rw [List.length_take]
    omega
  have hp : p = ((((splitLines text).take (p.1 - 1).toNat).length + 1 : Int), (p.2.toNat : Int)) := by
    apply Prod.ext
    · simp only [hlength]
      omega
    · simp only
      omega
  refine ⟨_, _, _, p.2.toNat, hsplit, hp, ?_⟩
  rw [hp] at h
  exact (mem_linePlaces hsplit _).mp h

end Within

variable {text : List Char} {offset : Nat}

theorem position_mem_linePlaces (h : offset ≤ text.length) : position text offset ∈ linePlaces text := by
  obtain ⟨before, last, first, after, -, -, hlines, hposition⟩ := position_split h
  rw [hposition, mem_linePlaces hlines]
  simp

theorem offsetAt_position (h : offset ≤ text.length) : offsetAt text (position text offset) = offset := by
  obtain ⟨before, last, first, after, hbefore, -, hlines, hposition⟩ := position_split h
  have hlength := length_intercalate before last
  rw [← hbefore, intercalate_splitLines, List.length_take, Nat.min_eq_left h] at hlength
  rw [hposition, offsetAt_between hlines, ← hlength]

theorem position_offsetAt {p : Int × Int} (h : p ∈ linePlaces text) :
    ∃ offset : Nat, offset ≤ text.length ∧ offsetAt text p = offset ∧ position text offset = p := by
  obtain ⟨before, line, after, column, hlines, rfl, hcolumn⟩ := exists_between h
  have hcut : text = ['\n'].intercalate (before ++ [line.take column]) ++
      ['\n'].intercalate (line.drop column :: after) := by
    rw [← intercalate_joined, List.take_append_drop, ← hlines, intercalate_splitLines]
  have hhead : splitLines (['\n'].intercalate (before ++ [line.take column])) =
      before ++ [line.take column] := by
    apply splitLines_intercalate _ (by simp)
    have hplain : ∀ l ∈ before ++ line :: after, '\n' ∉ l := fun l hl =>
      not_mem_of_mem_splitOn (hlines ▸ hl)
    intro l hl
    rcases List.mem_append.mp hl with hl | hl
    · exact hplain l (by simp [hl])
    · rw [List.mem_singleton.mp hl]
      exact fun hmem => hplain line (by simp) (List.mem_of_mem_take hmem)
  have hlength := length_intercalate before (line.take column)
  rw [List.length_take, Nat.min_eq_left hcolumn] at hlength
  refine ⟨_, ?_, (offsetAt_between hlines column).trans (by rw [← hlength]), ?_⟩
  · rw [hcut, List.length_append]
    omega
  · have hposition := position_of_lines (['\n'].intercalate (line.drop column :: after)) hhead
    rwa [← hcut, List.length_take, Nat.min_eq_left hcolumn] at hposition

theorem linesTo_position (h : offset ≤ text.length) :
    linesTo (splitLines text) (position text offset) = splitLines (text.take offset) := by
  obtain ⟨before, last, first, after, hbefore, -, hlines, hposition⟩ := position_split h
  rw [hposition, hlines, linesTo_between, List.take_left, hbefore]

theorem linesFrom_position (h : offset ≤ text.length) :
    linesFrom (splitLines text) (position text offset) = splitLines (text.drop offset) := by
  obtain ⟨before, last, first, after, -, hafter, hlines, hposition⟩ := position_split h
  rw [hposition, hlines, linesFrom_between, List.drop_left, hafter]

theorem position_take {stop : Nat} (hle : offset ≤ stop) (h : stop ≤ text.length) :
    position (text.take stop) offset = position text offset := by
  have hlength : offset ≤ (text.take stop).length := by simp; omega
  rw [position_natCast hlength, position_natCast (by omega), List.take_take, Nat.min_eq_left hle]

theorem cutLines_position {start stop : Nat} (hle : start ≤ stop) (h : stop ≤ text.length) :
    cutLines (splitLines text) (position text start) (position text stop) =
      (text.take stop).drop start := by
  have hlength : start ≤ (text.take stop).length := by simp; omega
  rw [cutLines, linesTo_position h, ← position_take hle h, linesFrom_position hlength,
    intercalate_splitLines]

theorem position_lt {start stop : Nat} (hlt : start < stop) (h : stop ≤ text.length) :
    Prod.Lex (· < ·) (· < ·) (position text start) (position text stop) := by
  have hbefore : (locate "" text start 0).Before (locate "" text stop 0) := locate_before hlt h
  exact Prod.lex_iff.mpr hbefore

/-- Offsets and places of a text correspond to each other in order, and what stands between two offsets
is what stands between their places. -/
theorem position_bijOn (text : List Char) :
    (∀ a ∈ offsets text, ∀ b ∈ offsets text, a < b →
      Prod.Lex (· < ·) (· < ·) (position text a) (position text b)) ∧
    Set.BijOn (position text) (offsets text) (linePlaces text) ∧
    Set.InvOn (offsetAt text) (position text) (offsets text) (linePlaces text) ∧
    ∀ (file : String) (start stop : Int), 0 ≤ start → start ≤ stop → stop ≤ text.length →
      ∃ endLine endColumn, (locate file text start stop).endLine = some endLine ∧
        (locate file text start stop).endColumn = some endColumn ∧
        cutLines (splitLines text)
          ((locate file text start stop).line, (locate file text start stop).column)
          (endLine, endColumn) = (text.take stop.toNat).drop start.toNat := by
  have hmaps : Set.MapsTo (position text) (offsets text) (linePlaces text) := by
    rintro offset ⟨hzero, hlength⟩
    obtain ⟨n, rfl⟩ := Int.eq_ofNat_of_zero_le hzero
    exact position_mem_linePlaces (by omega)
  have hback : Set.MapsTo (offsetAt text) (linePlaces text) (offsets text) := by
    intro p hp
    obtain ⟨n, hn, hoffset, -⟩ := position_offsetAt hp
    rw [hoffset]
    exact ⟨by omega, by omega⟩
  have hinverse : Set.InvOn (offsetAt text) (position text) (offsets text) (linePlaces text) := by
    constructor
    · rintro offset ⟨hzero, hlength⟩
      obtain ⟨n, rfl⟩ := Int.eq_ofNat_of_zero_le hzero
      exact offsetAt_position (by omega)
    · intro p hp
      obtain ⟨n, -, hoffset, hposition⟩ := position_offsetAt hp
      rw [hoffset, hposition]
  refine ⟨?_, Set.InvOn.bijOn hinverse hmaps hback, hinverse, ?_⟩
  · rintro a ⟨hzero, -⟩ b ⟨-, hlength⟩ hlt
    obtain ⟨m, rfl⟩ := Int.eq_ofNat_of_zero_le hzero
    obtain ⟨n, rfl⟩ := Int.eq_ofNat_of_zero_le (show 0 ≤ b by omega)
    exact position_lt (by omega) (by omega)
  · intro file start stop hzero hle hlength
    obtain ⟨m, rfl⟩ := Int.eq_ofNat_of_zero_le hzero
    obtain ⟨n, rfl⟩ := Int.eq_ofNat_of_zero_le (show 0 ≤ stop by omega)
    exact ⟨_, _, rfl, rfl, cutLines_position (by omega) (by omega)⟩

theorem position_bijOn_lines : (0 : Int) ≤ 1 ∧ (1 : Int) ≤ 5 ∧
    (5 : Int) ≤ ['a', 'b', '\n', '\n', 'c', '\n'].length ∧
    cutLines [['a', 'b'], [], ['c'], []] (1, 1) (3, 1) = ['b', '\n', '\n', 'c'] := by
  refine ⟨by decide, by decide, by decide, ?_⟩
  obtain ⟨-, -, -, hcut⟩ := position_bijOn ['a', 'b', '\n', '\n', 'c', '\n']
  obtain ⟨endLine, endColumn, hline, hcolumn, hstretch⟩ :=
    hcut "x.js" 1 5 (by decide) (by decide) (by decide)
  cases hline
  cases hcolumn
  exact hstretch

end Places

end EdgeAudit

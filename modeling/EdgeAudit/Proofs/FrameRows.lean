import EdgeAudit.Proofs.Failure
import EdgeAudit.Proofs.IntegerText
import EdgeAudit.Proofs.LineOffsets
import Mathlib.Data.List.Forall2

namespace EdgeAudit

open Number Text

section Gutters

variable {m n width number : Nat} {marked : Bool} {line : List Char}

def gutter (width : Nat) (marked : Bool) (number : Nat) : List Char :=
  frameRow width marked number []

theorem frameRow_eq (width : Nat) (marked : Bool) (number : Nat) (line : List Char) :
    frameRow width marked number line = gutter width marked number ++ line := by
  simp [frameRow, gutter]

theorem toList_toString (n : Nat) : (toString n).toList = Nat.toDigits 10 n := by
  simp

theorem length_toString_le (h : m ≤ n) : (toString m).length ≤ (toString n).length := by
  have hpos : 0 < (Nat.toDigits 10 n).length := Nat.length_toDigits_pos
  rw [← String.length_toList, ← String.length_toList, toList_toString, toList_toString,
    Nat.length_toDigits_le_iff (by decide) hpos]
  apply lt_of_le_of_lt h
  rw [← Nat.length_toDigits_le_iff (by decide) hpos]

theorem length_gutter (h : (toString number).length ≤ width) :
    (gutter width marked number).length = width + 5 := by
  simp only [gutter, frameRow, padLeft, List.length_append, List.length_cons, List.length_replicate,
    String.length_toList, List.length_nil]
  have : " | ".length = 3 := rfl
  omega

theorem head?_gutter : (gutter width marked number).head? = some '>' ↔ marked = true := by
  cases marked <;> simp [gutter, frameRow]

theorem newline_not_mem_gutter : '\n' ∉ gutter width marked number := by
  have hdigits : '\n' ∉ (toString number).toList := by
    rw [toList_toString]
    intro hmem
    have hdigit := Nat.isDigit_of_mem_toDigits (b := 10) (by decide) (by decide) hmem
    revert hdigit
    decide
  cases marked <;> simpa [gutter, frameRow, padLeft] using hdigits

end Gutters

section Indices

def numbersBetween (first last : Int) : List Int :=
  (List.range (last + 1 - first).toNat).map fun (i : Nat) => first + i

theorem mem_numbersBetween {first last k : Int} :
    k ∈ numbersBetween first last ↔ first ≤ k ∧ k ≤ last := by
  rw [numbersBetween, List.mem_map]
  constructor
  · rintro ⟨i, hi, rfl⟩
    rw [List.mem_range] at hi
    omega
  · intro hk
    refine ⟨(k - first).toNat, ?_, by omega⟩
    rw [List.mem_range]
    omega

theorem numbersBetween_succ (first last : Int) :
    numbersBetween (first + 1) (last + 1) = (numbersBetween first last).map (· + 1) := by
  have hlength : last + 1 + 1 - (first + 1) = last + 1 - first := by omega
  rw [numbersBetween, numbersBetween, hlength, List.map_map]
  apply List.map_congr_left
  intro i _
  simp only [Function.comp_apply]
  omega

def lineAt? (lines : List (List Char)) (index : Int) : Option (List Char) :=
  if 0 ≤ index then lines[index.toNat]? else none

theorem lineAt?_eq {lines : List (List Char)} {index : Int} (hzero : 0 ≤ index)
    (hlast : index < lines.length) : lineAt? lines index = some (lines.getD index.toNat []) := by
  have hin : index.toNat < lines.length := by omega
  simp [lineAt?, hzero, hin]

def firstIndex (location : Location) (context : Int) : Int :=
  max 0 (location.line - context - 1)

def lastIndex (text : List Char) (location : Location) (context : Int) : Int :=
  min (((splitLines text).length : Int) - 1) (location.endLine.getD location.line + context - 1)

inductive FrameFault
  | noLine (index : Int)
  | tooLong
  deriving DecidableEq

/-- The rows around a location, where each line is taken by its index and may be missing. -/
def indexedRows (text : List Char) (location : Location) (context : Int) :
    Except FrameFault (List (List Char)) := do
  let lastLine := location.endLine.getD location.line
  let last := lastIndex text location context
  let width ← match wholeText? (last + 1) with
    | some number => .ok number.length
    | none => .error .tooLong
  (numbersBetween (firstIndex location context) last).mapM fun index =>
    match lineAt? (splitLines text) index with
    | some line => .ok (frameRow width (location.line ≤ index + 1 && index + 1 ≤ lastLine)
        (index + 1).toNat line)
    | none => .error (.noLine index)

theorem linesBetween_eq {lines : List (List Char)} {first last : Int} (hfirst : 0 ≤ first)
    (hlast : last < lines.length) :
    linesBetween lines first last = (numbersBetween first last).map fun index =>
      ((index + 1).toNat, lines.getD index.toNat []) := by
  apply List.ext_getElem
  · simp only [linesBetween, numbersBetween, List.length_map, List.length_zipIdx, List.length_take,
      List.length_drop, List.length_range]
    omega
  · intro i hleft hright
    simp only [numbersBetween, List.length_map, List.length_range] at hright
    have hindex : (first + i).toNat = first.toNat + i := by omega
    have hnumber : (first + i + 1).toNat = first.toNat + i + 1 := by omega
    have hin : first.toNat + i < lines.length := by omega
    simp [linesBetween, numbersBetween, hindex, hnumber, hin]

variable (text : List Char) (location : Location) (context : Int)

theorem firstIndex_nonneg : 0 ≤ firstIndex location context := by
  unfold firstIndex
  omega

theorem lastIndex_lt : lastIndex text location context < (splitLines text).length := by
  unfold lastIndex
  omega

def rowsOf : List (List Char) :=
  (numbersBetween (firstIndex location context) (lastIndex text location context)).map fun index =>
    frameRow (toString (lastIndex text location context + 1)).length
      (location.line ≤ index + 1 && index + 1 ≤ location.endLine.getD location.line)
      (index + 1).toNat ((splitLines text).getD index.toNat [])

def Numbered : Prop :=
  (lastIndex text location context + 1).natAbs < 10 ^ maxWholeDigits

theorem frameRows?_eq : frameRows? text location context =
    (wholeText? (lastIndex text location context + 1)).map fun number =>
      (linesBetween (splitLines text) (firstIndex location context) (lastIndex text location context)).map
        fun (n, line) => frameRow number.length
          (location.line ≤ n && n ≤ location.endLine.getD location.line) n line := by
  show (wholeText? (lastIndex text location context + 1)).bind _ = _
  cases wholeText? (lastIndex text location context + 1) <;> rfl

theorem frameRows?_numbered (h : Numbered text location context) :
    frameRows? text location context = some (rowsOf text location context) := by
  rw [frameRows?_eq, wholeText?_of_lt h, Option.map_some, Option.some.injEq,
    linesBetween_eq (firstIndex_nonneg location context) (lastIndex_lt text location context),
    List.map_map]
  apply List.map_congr_left
  intro index hindex
  have hfirst := firstIndex_nonneg location context
  have hnumber : (((index + 1).toNat : Nat) : Int) = index + 1 := by
    rw [mem_numbersBetween] at hindex
    omega
  simp only [Function.comp_apply, hnumber]

theorem frameRows?_unnumbered (h : ¬ Numbered text location context) :
    frameRows? text location context = none := by
  rw [frameRows?_eq, wholeText?_eq_none.mpr (Nat.not_lt.mp h), Option.map_none]

theorem indexedRows_numbered (h : Numbered text location context) :
    indexedRows text location context = .ok (rowsOf text location context) := by
  rw [indexedRows, wholeText?_of_lt h]
  apply mapM_eq_ok
  intro index hindex
  rw [mem_numbersBetween] at hindex
  have hfirst := firstIndex_nonneg location context
  have hlast := lastIndex_lt text location context
  rw [lineAt?_eq (by omega) (by omega)]

theorem indexedRows_unnumbered (h : ¬ Numbered text location context) :
    indexedRows text location context = .error .tooLong := by
  rw [indexedRows, wholeText?_eq_none.mpr (Nat.not_lt.mp h)]
  rfl

end Indices

section Rows

variable {text : List Char}

theorem newline_not_mem_rowsOf {location : Location} {context : Int} {row : List Char}
    (h : row ∈ rowsOf text location context) : '\n' ∉ row := by
  rw [rowsOf, List.mem_map] at h
  obtain ⟨index, hindex, rfl⟩ := h
  rw [mem_numbersBetween] at hindex
  have hfirst := firstIndex_nonneg location context
  have hlast := lastIndex_lt text location context
  have hin : index.toNat < (splitLines text).length := by omega
  rw [frameRow_eq, List.mem_append, not_or]
  refine ⟨newline_not_mem_gutter, ?_⟩
  rw [List.getD_eq_getElem?_getD, List.getElem?_eq_getElem hin, Option.getD_some]
  exact not_mem_of_mem_splitOn (List.getElem_mem hin)

theorem splitLines_rowsOf {location : Location} {context : Int}
    (h : firstIndex location context ≤ lastIndex text location context) :
    splitLines (List.intercalate ['\n'] (rowsOf text location context)) = rowsOf text location context := by
  apply splitLines_intercalate (fun row => newline_not_mem_rowsOf)
  have hfirst : firstIndex location context ∈
      numbersBetween (firstIndex location context) (lastIndex text location context) :=
    mem_numbersBetween.mpr ⟨le_rfl, h⟩
  exact List.ne_nil_of_mem (List.mem_map_of_mem hfirst)

/-- A row shows line `k` behind a gutter, which has a mark if the line is one from `start` to `stop`. -/
structure Shows (lines : List (List Char)) (start stop : Int) (width : Nat) (k : Int) (row : List Char) :
    Prop where
  line : lineAt? lines (k - 1) = some (row.drop (width + 5))
  front : row.take (width + 5) = gutter width (start ≤ k && k ≤ stop) k.toNat
  frontWidth : (row.take (width + 5)).length = width + 5
  number : (toString k).length ≤ width
  mark : row.head? = some '>' ↔ start ≤ k ∧ k ≤ stop

theorem rowsOf_shows (text : List Char) (location : Location) (context : Int) :
    List.Forall₂ (Shows (splitLines text) location.line (location.endLine.getD location.line)
        (toString (lastIndex text location context + 1)).length)
      (numbersBetween (firstIndex location context + 1) (lastIndex text location context + 1))
      (rowsOf text location context) := by
  rw [rowsOf, numbersBetween_succ, List.forall₂_map_left_iff, List.forall₂_map_right_iff,
    List.forall₂_same]
  intro index hindex
  rw [mem_numbersBetween] at hindex
  have hfirst := firstIndex_nonneg location context
  have hlast := lastIndex_lt text location context
  have hnumber : (toString (index + 1)).length ≤ (toString (lastIndex text location context + 1)).length := by
    obtain ⟨k, hk⟩ := Int.eq_ofNat_of_zero_le (show 0 ≤ index + 1 by omega)
    obtain ⟨l, hl⟩ := Int.eq_ofNat_of_zero_le (show 0 ≤ lastIndex text location context + 1 by omega)
    rw [hk, hl]
    exact length_toString_le (show k ≤ l by omega)
  have hwidth (marked : Bool) : (gutter (toString (lastIndex text location context + 1)).length marked
      (index + 1).toNat).length = (toString (lastIndex text location context + 1)).length + 5 := by
    apply length_gutter
    obtain ⟨k, hk⟩ := Int.eq_ofNat_of_zero_le (show 0 ≤ index + 1 by omega)
    rw [hk] at hnumber ⊢
    exact hnumber
  rw [frameRow_eq]
  constructor
  · rw [List.drop_left' (hwidth _), Int.add_sub_cancel]
    exact lineAt?_eq (by omega) (by omega)
  · rw [List.take_left' (hwidth _)]
  · rw [List.take_left' (hwidth _), hwidth]
  · exact hnumber
  · rw [List.head?_append_of_ne_nil _ (by simp [gutter, frameRow]), head?_gutter]
    simp

theorem locate_lines {start stop : Nat} (hle : start ≤ stop) (h : stop ≤ text.length) :
    1 ≤ (position text start).1 ∧ (position text start).1 ≤ (position text stop).1 ∧
      (position text stop).1 ≤ (splitLines text).length := by
  obtain ⟨hfirst, -, -, -⟩ := position_mem_linePlaces (show start ≤ text.length by omega)
  obtain ⟨-, hlast, -, -⟩ := position_mem_linePlaces h
  refine ⟨hfirst, ?_, hlast⟩
  rcases Nat.lt_or_eq_of_le hle with hlt | rfl
  · have hlex := position_lt hlt h
    rw [Prod.lex_iff] at hlex
    omega
  · exact le_rfl

end Rows

/-- A frame has one row for each line around its location, in order: the line behind a gutter of one
width, in which the lines of the location are marked. Whatever the location, no line is asked for that
the text does not have, and there is a frame exactly if the number behind its last row can be written. -/
theorem codeFrame_rows (text : List Char) :
    (∀ (file : String) (start stop context : Int), 0 ≤ start → start ≤ stop → stop ≤ text.length →
      0 ≤ context → (splitLines text).length < 10 ^ maxWholeDigits →
      ∃ endLine code, (locate file text start stop).endLine = some endLine ∧
        codeFrame? text (locate file text start stop) context = some code ∧
        let line := (locate file text start stop).line
        let first := max 1 (line - context)
        let last := min ((splitLines text).length : Int) (endLine + context)
        first ≤ last ∧
        List.Forall₂ (Shows (splitLines text) line endLine (toString last).length)
          (numbersBetween first last) (splitLines code.toList)) ∧
    ∀ location context,
      (Numbered text location context → ∃ rows, indexedRows text location context = .ok rows ∧
        codeFrame? text location context = some (String.ofList (List.intercalate ['\n'] rows))) ∧
      (¬ Numbered text location context → indexedRows text location context = .error .tooLong ∧
        codeFrame? text location context = none) := by
  constructor
  · intro file start stop context hzero hle hstop hcontext hlines
    obtain ⟨m, rfl⟩ := Int.eq_ofNat_of_zero_le hzero
    obtain ⟨n, rfl⟩ := Int.eq_ofNat_of_zero_le (show 0 ≤ stop by omega)
    obtain ⟨hline, hspan, hend⟩ := locate_lines (show m ≤ n by omega) (show n ≤ text.length by omega)
    have hfirst : max 1 ((locate file text m n).line - context) =
        firstIndex (locate file text m n) context + 1 := by
      change max 1 ((position text m).1 - context) = max 0 ((position text m).1 - context - 1) + 1
      omega
    have hlast : min ((splitLines text).length : Int) ((position text n).1 + context) =
        lastIndex text (locate file text m n) context + 1 := by
      change _ = min (((splitLines text).length : Int) - 1) ((position text n).1 + context - 1) + 1
      omega
    have hsome : max 1 ((locate file text m n).line - context) ≤
        min ((splitLines text).length : Int) ((position text n).1 + context) := by
      change max 1 ((position text m).1 - context) ≤ _
      omega
    have hnumbered : Numbered text (locate file text m n) context := by
      rw [Numbered, ← hlast]
      omega
    refine ⟨(position text n).1, String.ofList (List.intercalate ['\n'] (rowsOf text (locate file text m n) context)),
      rfl, ?_, hsome, ?_⟩
    · rw [codeFrame?, frameRows?_numbered text _ _ hnumbered, Option.map_some]
    · rw [String.toList_ofList, splitLines_rowsOf (by omega), hfirst, hlast]
      exact rowsOf_shows text (locate file text m n) context
  · intro location context
    constructor
    · intro h
      exact ⟨_, indexedRows_numbered text location context h,
        by rw [codeFrame?, frameRows?_numbered text location context h, Option.map_some]⟩
    · intro h
      exact ⟨indexedRows_unnumbered text location context h,
        by rw [codeFrame?, frameRows?_unnumbered text location context h, Option.map_none]⟩

theorem codeFrame_rows_tenth : (0 : Int) ≤ 8 ∧ (8 : Int) ≤ 8 ∧
    (8 : Int) ≤ (List.replicate 9 '\n').length ∧ (0 : Int) ≤ 1 ∧
    (splitLines (List.replicate 9 '\n')).length < 10 ^ maxWholeDigits ∧
    List.Forall₂ (Shows (List.replicate 10 []) 9 9 2) [8, 9, 10]
      ["   8 | ".toList, ">  9 | ".toList, "  10 | ".toList] := by
  have hlines : (splitLines (List.replicate 9 '\n')).length < 10 ^ maxWholeDigits := by decide +kernel
  refine ⟨by decide, by decide, by decide, by decide, hlines, ?_⟩
  obtain ⟨hrows, -⟩ := codeFrame_rows (List.replicate 9 '\n')
  obtain ⟨endLine, code, hend, hcode, -, hshown⟩ :=
    hrows "x.js" 8 8 1 (by decide) (by decide) (by decide) (by decide) hlines
  cases hend
  have hframe : codeFrame? (List.replicate 9 '\n') (locate "x.js" (List.replicate 9 '\n') 8 8) 1 =
      some "   8 | \n>  9 | \n  10 | " := by decide +kernel
  rw [hframe, Option.some.injEq] at hcode
  subst hcode
  exact hshown

/-- A location far above the text, whose frame would end with a number of 4301 digits. -/
theorem codeFrame_unnumbered :
    codeFrame? ['a'] ⟨"/p/x.ts", 1 - (10 ^ maxWholeDigits : Nat), 0, none, none⟩ (-1) = none := by
  rw [codeFrame?, frameRows?_unnumbered, Option.map_none]
  unfold Numbered
  decide +kernel

end EdgeAudit

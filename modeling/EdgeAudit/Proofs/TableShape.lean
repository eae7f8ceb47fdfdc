import EdgeAudit.Proofs.PathJoin
import EdgeAudit.Proofs.ReportOrder
import Mathlib.Data.List.Forall2

namespace EdgeAudit

open Text

namespace Table

def waits (waiting : Bool) (c : Char) : Bool :=
  !waiting && c == '\\'

def waitsAfter (waiting : Bool) (cs : List Char) : Bool :=
  cs.foldl waits waiting

def cellsFrom : Bool → List Char → List (List Char)
  | _, [] => [[]]
  | waiting, c :: cs =>
    if c = '|' ∧ waiting = false then [] :: cellsFrom (waits waiting c) cs
    else match cellsFrom (waits waiting c) cs with
      | [] => [[c]]
      | l :: ls => (c :: l) :: ls

def cells (line : List Char) : List (List Char) :=
  cellsFrom false line

def bars (taken : Bool) : Bool → List Char → Nat
  | _, [] => 0
  | waiting, c :: cs => (if c = '|' ∧ waiting = taken then 1 else 0) + bars taken (waits waiting c) cs

variable {waiting taken : Bool} {a b cs : List Char}

theorem waitsAfter_append : waitsAfter waiting (a ++ b) = waitsAfter (waitsAfter waiting a) b :=
  List.foldl_append

theorem waits_of_ne {c : Char} (hc : c ≠ '\\') : waits waiting c = false := by
  simp [waits, hc]

theorem bars_append : bars taken waiting (a ++ b) =
    bars taken waiting a + bars taken (waitsAfter waiting a) b := by
  induction a generalizing waiting with
  | nil => simp [bars, waitsAfter]
  | cons c a ih =>
    simp only [List.cons_append, bars, ih]
    rw [Nat.add_assoc]
    rfl

theorem bars_plain (h : '|' ∉ cs) : bars taken waiting cs = 0 := by
  induction cs generalizing waiting with
  | nil => rfl
  | cons c cs ih =>
    rw [List.mem_cons, not_or] at h
    rw [bars, if_neg (fun hc => h.1 hc.1.symm), ih h.2]

theorem length_cellsFrom (waiting : Bool) (cs : List Char) :
    (cellsFrom waiting cs).length = bars false waiting cs + 1 := by
  induction cs generalizing waiting with
  | nil => rfl
  | cons c cs ih =>
    have hlength := ih (waits waiting c)
    rw [cellsFrom, bars]
    split
    · simp [hlength]
      omega
    · split <;> simp_all

theorem cellsFrom_plain (h : bars false waiting cs = 0) : cellsFrom waiting cs = [cs] := by
  induction cs generalizing waiting with
  | nil => rfl
  | cons c cs ih =>
    rw [bars] at h
    split at h
    · omega
    · rename_i hc
      rw [cellsFrom, if_neg hc, ih (by omega)]

theorem cellsFrom_bar (h : waitsAfter waiting a = false) :
    cellsFrom waiting (a ++ '|' :: b) = cellsFrom waiting a ++ cells b := by
  induction a generalizing waiting with
  | nil =>
    obtain rfl : waiting = false := h
    rfl
  | cons c a ih =>
    have hrest : cellsFrom (waits waiting c) (a ++ '|' :: b) = _ := ih h
    rw [List.cons_append, cellsFrom, cellsFrom, hrest]
    split
    · rfl
    · have hne : cellsFrom (waits waiting c) a ≠ [] := by
        intro hnil
        have hlength := length_cellsFrom (waits waiting c) a
        rw [hnil] at hlength
        cases hlength
      obtain ⟨l, ls, hcons⟩ := List.exists_cons_of_ne_nil hne
      rw [hcons]
      rfl

theorem cells_plain (h : bars false false cs = 0) : cells cs = [cs] :=
  cellsFrom_plain h

theorem waitsAfter_blank : waitsAfter waiting (a ++ [' ']) = false := by
  rw [waitsAfter_append]
  exact waits_of_ne (by decide)

theorem bars_markdownCell (waiting : Bool) (text : String) :
    bars false waiting (markdownCell text).toList = bars true waiting text.toList := by
  rw [markdownCell, String.toList_ofList]
  induction text.toList generalizing waiting with
  | nil => rfl
  | cons c cs ih =>
    rw [List.flatMap_cons, bars_append, ih, bars]
    by_cases hbar : c = '|'
    · subst hbar
      cases waiting <;> rfl
    · by_cases hend : c = '\n'
      · subst hend
        cases waiting <;> rfl
      · simp [hbar, hend, bars, waitsAfter]

end Table

open Table

theorem length_splitOn (sep : Char) (cs : List Char) : (splitOn sep cs).length = cs.count sep + 1 := by
  induction cs with
  | nil => rfl
  | cons c cs ih =>
    rw [splitOn]
    split
    · rename_i hc
      simp [hc, ih]
    · rename_i hc
      split <;> simp_all

theorem splitOn_lines (ls : List String) :
    splitOn '\n' (ls.flatMap lineText) = ls.flatMap (fun l => splitOn '\n' l.toList) ++ [[]] := by
  induction ls with
  | nil => rfl
  | cons l ls ih =>
    rw [List.flatMap_cons, lineText, List.append_assoc, List.singleton_append, splitOn_append_sep, ih,
      List.flatMap_cons, List.append_assoc]

namespace Finding

def breaks (f : Finding) (cwd : String) : Nat :=
  f.ruleId.toList.count '\n' + (Path.display f.location.file cwd).toList.count '\n'

/-- The bars that open a cell inside what is shown of a finding. -/
def openings (f : Finding) (cwd : String) : Nat :=
  bars false false f.ruleId.toList + bars false false (Path.display f.location.file cwd).toList +
    bars true false f.message.toList

variable (f : Finding) (cwd : String)

theorem waitsAfter_rowCells : ∀ cell ∈ f.rowCells cwd, waitsAfter false cell = false := by
  simp only [rowCells, List.map_cons, List.map_nil, List.forall_mem_cons, String.toList_append]
  refine ⟨waitsAfter_blank, ?_, ?_, waitsAfter_blank, by simp⟩
  all_goals
    show waitsAfter false (_ ++ ['\x60', ' ']) = false
    rw [← List.singleton_append (l := [' ']), ← List.append_assoc]
    exact waitsAfter_blank

theorem cells_row : cells (f.row cwd) =
    [] :: (f.rowCells cwd).flatMap cells ++ [[]] := by
  have hcells : ∀ parts : List (List Char), (∀ part ∈ parts, waitsAfter false part = false) →
      cells (parts.flatMap fun part => part ++ ['|']) = parts.flatMap cells ++ [[]] := by
    intro parts hparts
    induction parts with
    | nil => rfl
    | cons part parts ih =>
      rw [List.forall_mem_cons] at hparts
      rw [List.flatMap_cons, List.append_assoc, List.singleton_append, cells, cellsFrom_bar hparts.1,
        ih hparts.2, List.flatMap_cons, List.append_assoc]
      rfl
  rw [row, List.cons_append, ← hcells _ (f.waitsAfter_rowCells cwd)]
  rfl

theorem bars_rowCells : (f.rowCells cwd).map (bars false false) =
    [0, bars false false f.ruleId.toList, bars false false (Path.display f.location.file cwd).toList,
      bars true false f.message.toList] := by
  have hline : '|' ∉ (toString f.location.line).toList := not_mem_toString_int (by decide) rfl _
  have hframe : ∀ front text back : List Char, front = [' '] ∨ front = [' ', '\x60'] → '|' ∉ back →
      bars false false (front ++ text ++ back) = bars false false text := by
    rintro front text back (rfl | rfl) hback
    all_goals
      rw [bars_append, bars_append, bars_plain hback]
      simp [bars, waitsAfter, waits]
  simp only [rowCells, List.map_cons, List.map_nil, String.toList_append, List.cons.injEq, and_true]
  refine ⟨?_, ?_, ?_, ?_⟩
  · cases f.severity <;> rfl
  · exact hframe _ _ _ (.inr rfl) (by decide)
  · rw [List.append_assoc, List.append_assoc]
    exact hframe _ _ _ (.inr rfl) (by simpa using hline)
  · rw [← bars_markdownCell]
    exact hframe _ _ _ (.inl rfl) (by decide)

theorem length_cells_row : (cells (f.row cwd)).length = 6 + f.openings cwd := by
  have hlength : ∀ parts : List (List Char), (parts.flatMap cells).length =
      parts.length + (parts.map (bars false false)).foldr (· + ·) 0 := by
    intro parts
    induction parts with
    | nil => rfl
    | cons part parts ih =>
      simp only [List.flatMap_cons, List.length_append, ih, cells, length_cellsFrom, List.length_cons,
        List.map_cons, List.foldr_cons]
      omega
  rw [cells_row, List.cons_append, List.length_cons, List.length_append, hlength, bars_rowCells]
  simp only [rowCells, List.length_map, List.length_cons, List.length_nil, List.foldr_cons, List.foldr_nil,
    openings]
  omega

theorem cells_eq_rowCells : cells (f.row cwd) = [] :: f.rowCells cwd ++ [[]] ↔
    f.openings cwd = 0 := by
  constructor
  · intro h
    have hlength := f.length_cells_row cwd
    rw [h] at hlength
    simp only [rowCells, List.length_append, List.length_cons, List.length_map, List.length_nil] at hlength
    omega
  · intro h
    have hplain : ∀ cell ∈ f.rowCells cwd, cells cell = [cell] := by
      intro cell hcell
      have hbars : bars false false cell ∈ (f.rowCells cwd).map (bars false false) := List.mem_map_of_mem hcell
      rw [bars_rowCells] at hbars
      simp only [List.mem_cons, List.not_mem_nil, or_false] at hbars
      apply cells_plain
      rw [openings] at h
      omega
    rw [cells_row, List.flatMap_congr hplain, List.flatMap_singleton']

theorem count_row : (f.row cwd).count '\n' = f.breaks cwd := by
  have hseverity : f.severity.name.toList.count '\n' = 0 := by
    cases f.severity <;> decide
  have hline : (toString f.location.line).toList.count '\n' = 0 :=
    List.count_eq_zero.mpr (not_mem_toString_int (by decide) rfl _)
  have hmessage : (markdownCell f.message).toList.count '\n' = 0 := by
    rw [List.count_eq_zero, markdownCell, String.toList_ofList, List.mem_flatMap]
    rintro ⟨c, -, hc⟩
    split at hc
    · simp at hc
    · split at hc
      · simp at hc
      · rename_i hend
        exact hend (List.mem_singleton.mp hc).symm
  simp only [row, rowCells, List.map_cons, List.map_nil, List.flatMap_cons, List.flatMap_nil, List.count_cons,
    List.count_append, List.count_nil, String.toList_append, hseverity, hline, hmessage, breaks]
  simp

end Finding

namespace ScanResult

variable (r : ScanResult) (cwd : String)

theorem wholeText_plain (x : Number.Binary64) : '\n' ∉ x.wholeText.toList := by
  cases x with
  | finite negative m e =>
    show '\n' ∉ ((if negative then "-" else "") ++ toString (Number.roundDiv _ _)).toList
    rw [String.toList_append, List.mem_append, not_or]
    refine ⟨?_, not_mem_toString_nat rfl _⟩
    cases negative <;> decide
  | infinite negative => cases negative <;> decide
  | notANumber => decide

theorem markdownTop_plain : ∀ line ∈ r.markdownTop, '\n' ∉ line.toList := by
  have hwhole : ∀ n : Int, '\n' ∉ (toString n).toList := not_mem_toString_int (by decide) rfl
  have hduration := wholeText_plain r.duration.toBinary64
  intro line hline
  rw [markdownTop, List.mem_append] at hline
  rcases hline with hline | hline
  · simp only [List.mem_cons, List.not_mem_nil, or_false] at hline
    rcases hline with rfl | rfl | rfl | rfl
    · decide
    · decide
    · simp only [String.toList_append, List.mem_append, hwhole, hduration]
      decide
    · decide
  · split at hline
    · rw [List.mem_singleton.mp hline]
      decide
    · simp only [List.mem_cons, List.not_mem_nil, or_false] at hline
      rcases hline with rfl | rfl <;> decide

theorem splitOn_markdown {text : String} (h : r.markdown cwd = .ok text) :
    splitOn '\n' text.toList = r.markdownTop.map String.toList ++
      r.topFindings.flatMap (fun f => splitOn '\n' (f.row cwd)) ++ [[]] := by
  have htop : r.markdownTop.flatMap (fun l => splitOn '\n' l.toList) = r.markdownTop.map String.toList := by
    rw [List.flatMap_congr fun l hl => splitOn_plain (r.markdownTop_plain l hl)]
    exact List.flatMap_pure_eq_map _ _
  have hrows : (r.topFindings.flatMap fun f => f.row cwd ++ ['\n']) =
      (r.topFindings.map fun f => String.ofList (f.row cwd)).flatMap lineText := by
    simp only [List.flatMap_map, lineText, String.toList_ofList]
  rw [markdown_lists h, hrows, ← List.flatMap_append, splitOn_lines, List.flatMap_append, htop, List.flatMap_map]
  simp only [String.toList_ofList]

/-- There is a document, its table has a line for each finding, and the line has the cells meant for it. -/
def HasTable : Prop :=
  ∃ text, r.markdown cwd = .ok text ∧ ∃ rows : List (List Char),
    splitOn '\n' text.toList = r.markdownTop.map String.toList ++ rows ++ [[]] ∧
    List.Forall₂ (fun f row => cells row = [] :: Finding.rowCells f cwd ++ [[]]) r.topFindings rows

theorem length_lines (f : Finding) : (splitOn '\n' (f.row cwd)).length = f.breaks cwd + 1 := by
  rw [length_splitOn, f.count_row]

theorem length_le_lines (fs : List Finding) :
    fs.length ≤ (fs.flatMap fun f => splitOn '\n' (f.row cwd)).length := by
  induction fs with
  | nil => simp
  | cons f fs ih =>
    rw [List.flatMap_cons, List.length_append, length_lines, List.length_cons]
    omega

theorem breaks_of_length {fs : List Finding}
    (h : (fs.flatMap fun f => splitOn '\n' (f.row cwd)).length = fs.length) :
    ∀ f ∈ fs, f.breaks cwd = 0 := by
  induction fs with
  | nil => simp
  | cons f fs ih =>
    have hle := length_le_lines cwd fs
    rw [List.flatMap_cons, List.length_append, length_lines, List.length_cons] at h
    rw [List.forall_mem_cons]
    exact ⟨by omega, ih (by omega)⟩

theorem lines_of_breaks {fs : List Finding} (h : ∀ f ∈ fs, f.breaks cwd = 0) :
    (fs.flatMap fun f => splitOn '\n' (f.row cwd)) =
      fs.map fun f => (f.row cwd) := by
  have hplain : ∀ f ∈ fs, splitOn '\n' (f.row cwd) = [(f.row cwd)] := by
    intro f hf
    apply splitOn_plain
    rw [← List.count_eq_zero, f.count_row, h f hf]
  rw [List.flatMap_congr hplain]
  exact List.flatMap_pure_eq_map _ _

theorem hasTable_iff : r.HasTable cwd ↔
    r.Shows r.markdownWholes ∧ ∀ f ∈ r.findings, f.breaks cwd = 0 ∧ f.openings cwd = 0 := by
  have hcells : List.Forall₂ (fun f row => cells row = [] :: Finding.rowCells f cwd ++ [[]]) r.topFindings
      (r.topFindings.map fun f => f.row cwd) ↔ ∀ f ∈ r.topFindings, f.openings cwd = 0 := by
    rw [List.forall₂_map_right_iff, List.forall₂_same]
    exact forall₂_congr fun f _ => f.cells_eq_rowCells cwd
  rw [← forall_topFindings]
  constructor
  · rintro ⟨text, htext, rows, hlines, hrows⟩
    rw [r.splitOn_markdown cwd htext] at hlines
    obtain rfl : r.topFindings.flatMap (fun f => splitOn '\n' (f.row cwd)) = rows :=
      List.append_cancel_left (List.append_cancel_right hlines)
    have hbreaks := breaks_of_length cwd hrows.length_eq.symm
    rw [lines_of_breaks cwd hbreaks, hcells] at hrows
    exact ⟨markdown_written.mp ⟨text, htext⟩, fun f hf => ⟨hbreaks f hf, hrows f hf⟩⟩
  · rintro ⟨hshows, h⟩
    obtain ⟨text, htext⟩ := markdown_written.mpr hshows
    refine ⟨text, htext, _, r.splitOn_markdown cwd htext, ?_⟩
    rw [lines_of_breaks cwd fun f hf => (h f hf).1, hcells]
    exact fun f hf => (h f hf).2

/-- The lines and cells of a document with a table. A finding takes one line and one more for each line
end in its rule id or path, and four cells and one more for each bar there that no backslash precedes and
each bar of its message that one does; so the table keeps its shape exactly if there are none. -/
theorem markdown_shape :
    (∀ text, r.markdown cwd = .ok text → splitOn '\n' text.toList = r.markdownTop.map String.toList ++
      r.topFindings.flatMap (fun f => splitOn '\n' (f.row cwd)) ++ [[]]) ∧
    (∀ f : Finding, (splitOn '\n' (f.row cwd)).length = f.breaks cwd + 1 ∧
      (cells (f.row cwd)).length = 6 + f.openings cwd) ∧
    (r.HasTable cwd ↔ r.Shows r.markdownWholes ∧
      ∀ f ∈ r.findings, f.breaks cwd = 0 ∧ f.openings cwd = 0) := by
  refine ⟨fun text => r.splitOn_markdown cwd, ?_, r.hasTable_iff cwd⟩
  intro f
  exact ⟨length_lines cwd f, f.length_cells_row cwd⟩

end ScanResult

def barredFinding : Finding :=
  ⟨"edge/pattern:eval", .error, "m", ⟨"/project/a|b.js", 1, 0, none, none⟩, none, []⟩

theorem barred_not_hasTable :
    let r : ScanResult := { findings := [barredFinding] }
    (∃ text, r.markdown "/project" = .ok text) ∧ ¬ r.HasTable "/project" := by
  intro r
  have hshows : r.Shows r.markdownWholes := r.shows_of_lt (by intro n hn; cases hn) (by decide)
  refine ⟨ScanResult.markdown_written.mpr hshows, ?_⟩
  rw [ScanResult.hasTable_iff]
  rintro ⟨-, h⟩
  have hopenings := (h barredFinding (by simp [r])).2
  revert hopenings
  decide +kernel

end EdgeAudit

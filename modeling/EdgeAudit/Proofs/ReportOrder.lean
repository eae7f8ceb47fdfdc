import EdgeAudit.Proofs.Failure
import EdgeAudit.Proofs.IntegerText
import EdgeAudit.Proofs.NearestDouble
import EdgeAudit.Report.Format

namespace EdgeAudit

open Number Text

section Keys

def codePoints (s : String) : List Nat :=
  s.toList.map Char.toNat

theorem lt_iff_codePoints {s t : String} : s < t ↔ List.Lex (· < ·) (codePoints s) (codePoints t) := by
  rw [String.lt_iff]
  show List.Lex (· < ·) s.toList t.toList ↔ List.Lex (· < ·) (s.toList.map Char.toNat) (t.toList.map Char.toNat)
  generalize s.toList = l
  generalize t.toList = l'
  induction l generalizing l' with
  | nil => cases l' <;> simp
  | cons c l ih =>
    cases l' with
    | nil => simp
    | cons d l' =>
      have hlt : c < d ↔ c.toNat < d.toNat := Iff.rfl
      have heq : c = d ↔ c.toNat = d.toNat := ⟨congrArg _, fun h => Char.toNat_inj.mp h⟩
      rw [List.map_cons, List.map_cons, List.cons_lex_cons_iff, List.cons_lex_cons_iff, ih, hlt, heq]

namespace Finding

/-- One finding may stand before another: it is more serious, or as serious and in an earlier file, or
in the same file and not further down. -/
def Precedes (a b : Finding) : Prop :=
  b.severity.rank < a.severity.rank ∨ a.severity = b.severity ∧
    (List.Lex (· < ·) (codePoints a.location.file) (codePoints b.location.file) ∨
      a.location.file = b.location.file ∧ a.location.line ≤ b.location.line)

def tied (a b : Finding) : Bool :=
  a.severity == b.severity && a.location.file == b.location.file && a.location.line == b.location.line

variable {a b c : Finding}

theorem listedBefore_iff : a.listedBefore b = true ↔ a.Precedes b := by
  have hrank : a.severity.rank = b.severity.rank ↔ a.severity = b.severity := by
    cases a.severity <;> cases b.severity <;> decide
  rw [listedBefore, Precedes, ← lt_iff_codePoints]
  by_cases hs : a.severity = b.severity
  · by_cases hf : a.location.file = b.location.file
    · simp [hs, hf]
    · simp [hs, hf]
  · have hne := mt hrank.mp hs
    simp [hs, hne]

theorem Precedes.trans (hab : a.Precedes b) (hbc : b.Precedes c) : a.Precedes c := by
  simp only [Precedes, ← lt_iff_codePoints] at hab hbc ⊢
  rcases hab with hab | ⟨hs, hab⟩
  · rcases hbc with hbc | ⟨hs', -⟩
    · exact .inl (Nat.lt_trans hbc hab)
    · exact .inl (hs' ▸ hab)
  · rcases hbc with hbc | ⟨hs', hbc⟩
    · exact .inl (hs ▸ hbc)
    · refine .inr ⟨hs.trans hs', ?_⟩
      rcases hab with hab | ⟨hf, hab⟩
      · rcases hbc with hbc | ⟨hf', -⟩
        · exact .inl (String.lt_trans hab hbc)
        · exact .inl (hf' ▸ hab)
      · rcases hbc with hbc | ⟨hf', hbc⟩
        · exact .inl (hf ▸ hbc)
        · exact .inr ⟨hf.trans hf', Int.le_trans hab hbc⟩

theorem precedes_total (a b : Finding) : a.Precedes b ∨ b.Precedes a := by
  have hrank : a.severity.rank = b.severity.rank → a.severity = b.severity := by
    cases a.severity <;> cases b.severity <;> decide
  simp only [Precedes, ← lt_iff_codePoints]
  rcases Nat.lt_trichotomy a.severity.rank b.severity.rank with hlt | heq | hlt
  · exact .inr (.inl hlt)
  · have hs := hrank heq
    by_cases hf : a.location.file = b.location.file
    · rcases Int.le_total a.location.line b.location.line with hle | hle
      · exact .inl (.inr ⟨hs, .inr ⟨hf, hle⟩⟩)
      · exact .inr (.inr ⟨hs.symm, .inr ⟨hf.symm, hle⟩⟩)
    · by_cases hlt : a.location.file < b.location.file
      · exact .inl (.inr ⟨hs, .inl hlt⟩)
      · have hgt : b.location.file < a.location.file := by
          apply Classical.byContradiction
          intro hnot
          exact hf (String.le_antisymm (String.not_lt.mp hnot) (String.not_lt.mp hlt))
        exact .inr (.inr ⟨hs.symm, .inl hgt⟩)
  · exact .inl (.inl hlt)

theorem listedBefore_trans (a b c : Finding) (hab : a.listedBefore b = true) (hbc : b.listedBefore c = true) :
    a.listedBefore c = true := by
  rw [listedBefore_iff] at *
  exact hab.trans hbc

theorem listedBefore_total (a b : Finding) : (a.listedBefore b || b.listedBefore a) = true := by
  rw [Bool.or_eq_true, listedBefore_iff, listedBefore_iff]
  exact precedes_total a b

theorem precedes_of_tied {f : Finding} (ha : f.tied a = true) (hb : f.tied b = true) : a.Precedes b := by
  simp only [tied, Bool.and_eq_true, beq_iff_eq] at ha hb
  obtain ⟨⟨hs, hf⟩, hl⟩ := ha
  obtain ⟨⟨hs', hf'⟩, hl'⟩ := hb
  refine .inr ⟨hs.symm.trans hs', .inr ⟨hf.symm.trans hf', ?_⟩⟩
  exact Int.le_of_eq (hl.symm.trans hl')

end Finding

end Keys

namespace ScanResult

variable (r : ScanResult)

theorem topFindings_perm : r.topFindings.Perm r.findings :=
  List.mergeSort_perm _ _

theorem topFindings_sorted : r.topFindings.Pairwise Finding.Precedes :=
  (List.pairwise_mergeSort Finding.listedBefore_trans Finding.listedBefore_total r.findings).imp
    Finding.listedBefore_iff.mp

theorem topFindings_tied (f : Finding) : r.topFindings.filter f.tied = r.findings.filter f.tied := by
  -- The tied findings are in order already, so sorting keeps them as a sublist.
  have hpair : (r.findings.filter f.tied).Pairwise fun a b => a.listedBefore b = true := by
    rw [List.pairwise_iff_forall_sublist]
    intro a b hab
    have hmem : ∀ c ∈ [a, b], f.tied c = true := fun c hc => (List.mem_filter.mp (hab.subset hc)).2
    exact Finding.listedBefore_iff.mpr (Finding.precedes_of_tied (hmem a (by simp)) (hmem b (by simp)))
  have hsub : (r.findings.filter f.tied).Sublist r.topFindings :=
    List.sublist_mergeSort Finding.listedBefore_trans Finding.listedBefore_total hpair List.filter_sublist
  have hkept : (r.findings.filter f.tied).Sublist (r.topFindings.filter f.tied) := by
    simpa using hsub.filter f.tied
  exact (hkept.eq_of_length (r.topFindings_perm.filter _).length_eq.symm).symm

theorem topSlice_nonneg (n : Nat) : r.topSlice (some n) = r.topFindings.take n := by
  have hlength : r.topFindings.length = r.findings.length := r.topFindings_perm.length_eq
  show r.topFindings.take (sliceEnd r.findings.length n) = _
  rw [sliceEnd, if_neg (by omega), ← hlength, Int.toNat_natCast, List.take_eq_take_iff, Nat.min_assoc,
    Nat.min_self]

theorem topSlice_neg (n : Nat) : r.topSlice (some (-(n + 1))) =
    r.topFindings.take (r.topFindings.length - (n + 1)) := by
  have hlength : r.topFindings.length = r.findings.length := r.topFindings_perm.length_eq
  show r.topFindings.take (sliceEnd r.findings.length _) = _
  rw [sliceEnd, if_pos (by omega), hlength]
  congr 1
  omega

theorem total_eq_length : r.total = r.findings.length := by
  show r.count .error + (r.count .warning + (r.count .info + 0)) = _
  simp only [count]
  induction r.findings with
  | nil => rfl
  | cons f fs ih =>
    simp only [List.countP_cons, List.length_cons, ← ih]
    cases f.severity <;> simp <;> omega

theorem hasSeverity_iff (severity : Severity) : r.hasSeverity severity = true ↔ 0 < r.count severity := by
  rw [hasSeverity, List.any_eq_true, count, List.countP_pos_iff]

theorem exitCode_eq (strict : Bool) : r.exitCode strict =
    if 0 < r.count .error ∨ strict = true ∧ 0 < r.count .warning then 2 else if 0 < r.total then 1 else 0 := by
  have htotal : 0 < r.total ↔ ¬ r.findings.isEmpty = true := by
    rw [total_eq_length, List.isEmpty_iff, List.length_pos_iff]
  simp only [exitCode, Bool.and_eq_true, hasSeverity_iff, htotal]
  by_cases herror : 0 < r.count .error
  · simp [herror]
  · by_cases hwarning : strict = true ∧ 0 < r.count .warning
    · simp [herror, hwarning]
    · by_cases hnone : r.findings.isEmpty = true <;> simp [herror, hwarning, hnone]

end ScanResult

section Lines

def lineText (s : String) : List Char :=
  s.toList ++ ['\n']

theorem joinWith_lines {ls : List String} (hne : ls ≠ []) :
    (joinWith "\n" ls).toList ++ ['\n'] = ls.flatMap lineText := by
  induction ls with
  | nil => exact absurd rfl hne
  | cons l ls ih =>
    cases ls with
    | nil => simp [joinWith, lineText]
    | cons l' ls =>
      have hrest := ih (List.cons_ne_nil _ _)
      rw [joinWith] at hrest ⊢
      rw [String.intercalate_cons_cons, List.flatMap_cons, ← hrest]
      simp [lineText]

theorem trimEndBy_append (p : Char → Bool) (cs : List Char) :
    ∃ cut, trimEndBy p cs ++ cut = cs ∧ ∀ c ∈ cut, p c = true := by
  refine ⟨(cs.reverse.takeWhile p).reverse, ?_, ?_⟩
  · rw [trimEndBy, ← List.reverse_append, List.takeWhile_append_dropWhile, List.reverse_reverse]
  · intro c hc
    exact List.all_eq_true.mp List.all_takeWhile c (List.mem_reverse.mp hc)

theorem prefix_trimEndBy {p : Char → Bool} {a cs : List Char} {c : Char} (h : a ++ [c] <+: cs) (hc : p c = false) :
    a ++ [c] <+: trimEndBy p cs := by
  obtain ⟨cut, hcut, hp⟩ := trimEndBy_append p cs
  rcases List.prefix_or_prefix_of_prefix h ⟨cut, hcut⟩ with hin | ⟨x, hx⟩
  · exact hin
  · rcases List.eq_nil_or_concat x with rfl | ⟨y, d, rfl⟩
    · exact ⟨[], by simpa using hx.symm⟩
    · rw [List.concat_eq_append, ← List.append_assoc] at hx
      obtain ⟨ha, hd⟩ := List.append_inj' hx rfl
      rw [← hcut, ← ha, List.append_assoc, List.prefix_append_right_inj] at h
      have hmem : c ∈ cut := h.subset (by simp)
      rw [hp c hmem] at hc
      cases hc

end Lines

namespace Finding

def heading (f : Finding) (cwd : String) : String :=
  "[" ++ f.severity.title ++ "] " ++ f.ruleId ++ " " ++ Path.display f.location.file cwd ++ ":" ++
    toString f.location.line ++ ":" ++ toString f.location.column

def frameLines (f : Finding) : List String :=
  f.codeFrame.toList.flatMap fun code => (splitOn '\n' code.toList).map fun row => "    " ++ String.ofList row

def adviceLines (f : Finding) : List String :=
  f.suggestions.flatMap fun s =>
    ("  -> " ++ s.message) :: (s.docsUrl.toList.filter (· != "")).map ("     " ++ ·)

def shown (f : Finding) (cwd : String) : List String :=
  [f.heading cwd, "  " ++ f.message] ++ f.frameLines ++ f.adviceLines ++ [""]

def block (f : Finding) (cwd : String) : List Char :=
  (f.shown cwd).flatMap lineText

def rowCells (f : Finding) (cwd : String) : List (List Char) :=
  [" " ++ f.severity.name ++ " ", " \x60" ++ f.ruleId ++ "\x60 ",
    " \x60" ++ Path.display f.location.file cwd ++ ":" ++ toString f.location.line ++ "\x60 ",
    " " ++ markdownCell f.message ++ " "].map String.toList

def row (f : Finding) (cwd : String) : List Char :=
  '|' :: (f.rowCells cwd).flatMap fun cell => cell ++ ['|']

end Finding

theorem shownWhole_eq_ok {n : Int} {text : String} :
    shownWhole n = .ok text ↔ n.natAbs < 10 ^ maxWholeDigits ∧ text = toString n := by
  rw [shownWhole, wholeText?_eq]
  by_cases h : n.natAbs < 10 ^ maxWholeDigits
  · simp [h, eq_comm]
  · simp [h]

theorem bind_shownWhole {α : Type} {g : String → α} {n : Int} {a : α} :
    (shownWhole n >>= fun text => pure (g text)) = .ok a ↔
      n.natAbs < 10 ^ maxWholeDigits ∧ a = g (toString n) := by
  simp only [bind_eq_ok, shownWhole_eq_ok, pure_eq_ok]
  constructor
  · rintro ⟨text, ⟨hn, rfl⟩, rfl⟩
    exact ⟨hn, rfl⟩
  · rintro ⟨hn, rfl⟩
    exact ⟨_, ⟨hn, rfl⟩, rfl⟩

theorem durationText_eq_ok {q : Quantity} {text : String} : durationText q = .ok text ↔
    (∀ n, q = .whole n → n.natAbs < Binary64.overflow) ∧ text = q.toBinary64.wholeText := by
  cases q with
  | real x => simp [durationText, Quantity.toBinary64, eq_comm]
  | whole n =>
    have hbound : n.natAbs < Binary64.overflow ↔ ∀ s, Binary64.ofInt n ≠ .infinite s := by
      rw [← Nat.not_le, ← Binary64.ofInt_infinite, not_exists]
    rw [durationText, Quantity.toBinary64]
    simp only [Quantity.whole.injEq, forall_eq', hbound]
    cases Binary64.ofInt n with
    | infinite s => simp
    | finite s m e => simp [eq_comm]
    | notANumber => simp [eq_comm]

namespace Finding

variable {f : Finding} {cwd : String}

theorem lines_eq_ok {ls : List String} : f.lines cwd = .ok ls ↔
    (f.location.line.natAbs < 10 ^ maxWholeDigits ∧ f.location.column.natAbs < 10 ^ maxWholeDigits) ∧
      ls = f.shown cwd := by
  have hadvice : f.suggestions.flatMap (·.lines) = f.adviceLines := by
    refine List.flatMap_congr fun s _ => ?_
    cases hurl : s.docsUrl with
    | none => simp [Suggestion.lines, hurl]
    | some url => by_cases hempty : url = "" <;> simp [Suggestion.lines, hurl, hempty]
  simp only [lines, bind_eq_ok, shownWhole_eq_ok, hadvice, pure_eq_ok]
  constructor
  · rintro ⟨line, ⟨hline, rfl⟩, column, ⟨hcolumn, rfl⟩, rfl⟩
    refine ⟨⟨hline, hcolumn⟩, ?_⟩
    cases hcode : f.codeFrame <;> simp [shown, heading, frameLines, hcode, String.append_assoc]
  · rintro ⟨⟨hline, hcolumn⟩, rfl⟩
    refine ⟨_, ⟨hline, rfl⟩, _, ⟨hcolumn, rfl⟩, ?_⟩
    cases hcode : f.codeFrame <;> simp [shown, heading, frameLines, hcode, String.append_assoc]

theorem markdownRow_eq_ok {text : String} : f.markdownRow cwd = .ok text ↔
    f.location.line.natAbs < 10 ^ maxWholeDigits ∧ text = String.ofList (f.row cwd) := by
  have hrow : ∀ line : String, ("| " ++ f.severity.name ++ " | \x60" ++ f.ruleId ++ "\x60 | \x60" ++
      Path.display f.location.file cwd ++ ":" ++ line ++ "\x60 | " ++ markdownCell f.message ++ " |") =
      String.ofList ('|' :: ([" " ++ f.severity.name ++ " ", " \x60" ++ f.ruleId ++ "\x60 ",
        " \x60" ++ Path.display f.location.file cwd ++ ":" ++ line ++ "\x60 ",
        " " ++ markdownCell f.message ++ " "].map String.toList).flatMap fun cell => cell ++ ['|']) := by
    intro line
    apply String.toList_inj.mp
    simp only [String.toList_append, String.toList_ofList, List.map_cons, List.map_nil, List.flatMap_cons,
      List.flatMap_nil, List.append_assoc, List.append_nil]
    rfl
  rw [markdownRow, bind_shownWhole, hrow]
  rfl

theorem heading_last (f : Finding) (cwd : String) :
    ∃ cs c, (f.heading cwd).toList = cs ++ [c] ∧ isBlank c = false := by
  obtain ⟨d, hd⟩ : ∃ d, (Nat.toDigits 10 f.location.column.natAbs).getLast? = some d :=
    Option.ne_none_iff_exists'.mp (by simp)
  have hdigit : d.isDigit = true :=
    Nat.isDigit_of_mem_toDigits (by decide) (by decide) (List.mem_of_getLast? hd)
  have hlast : (f.heading cwd).toList.getLast? = some d := by
    rw [heading, String.toList_append, toList_toString_int, List.getLast?_append, List.getLast?_append, hd]
    rfl
  obtain ⟨cs, hcs⟩ := List.getLast?_eq_some_iff.mp hlast
  exact ⟨cs, d, hcs, isBlank_of_isDigit hdigit⟩

end Finding

namespace ScanResult

def summary (r : ScanResult) : List String :=
  let header := countRow "Severity" "Count"
  ["Scan Summary", signLine 40 '=', header, signLine header.length '-'] ++
    (r.counts.map fun p => countRow p.1.title (toString (p.2 : Int))) ++
    [signLine header.length '-', "Files     : " ++ toString r.fileCount] ++
    (r.cachedCount.toList.map fun n => "Cached    : " ++ toString n) ++
    ["Findings  : " ++ toString (r.total : Int), "Duration  : " ++ r.duration.toBinary64.wholeText ++ "ms"]

def prettyHead (r : ScanResult) : List String :=
  r.summary ++ if r.findings.isEmpty then [] else ["", "Findings", signLine 40 '-']

def markdownTop (r : ScanResult) : List String :=
  ["# Edge Compatibility Report", "",
    "Scanned **" ++ toString r.fileCount ++ "** files in " ++ r.duration.toBinary64.wholeText ++ "ms: " ++
      toString (r.count .error : Int) ++ " errors, " ++ toString (r.count .warning : Int) ++ " warnings, " ++
      toString (r.count .info : Int) ++ " info.", ""] ++
    if r.findings.isEmpty then ["No issues found."]
    else ["| Severity | Rule | Location | Message |", "| --- | --- | --- | --- |"]

def prettyWholes (r : ScanResult) : List Int :=
  r.counts.map (fun p => (p.2 : Int)) ++ [r.fileCount] ++ r.cachedCount.toList ++ [(r.total : Int)] ++
    r.findings.flatMap fun f => [f.location.line, f.location.column]

def markdownWholes (r : ScanResult) : List Int :=
  [r.fileCount, r.count .error, r.count .warning, r.count .info] ++ r.findings.map (·.location.line)

/-- The given numbers of a result can be written, and so can its duration. -/
def Shows (r : ScanResult) (wholes : List Int) : Prop :=
  (∀ n ∈ wholes, n.natAbs < 10 ^ maxWholeDigits) ∧ ∀ n, r.duration = .whole n → n.natAbs < Binary64.overflow

variable (r : ScanResult) (cwd : String)

theorem shows_of_lt {wholes : List Int} (hreal : ∀ n, r.duration ≠ .whole n) (h : ∀ n ∈ wholes, n.natAbs < 10) :
    r.Shows wholes :=
  ⟨fun n hn => (h n hn).trans_le (Nat.le_self_pow (by decide) 10), fun n hn => absurd hn (hreal n)⟩

theorem topFindings_of_isEmpty (h : r.findings.isEmpty = true) : r.topFindings = [] := by
  apply List.Perm.eq_nil
  rw [← List.isEmpty_iff.mp h]
  exact r.topFindings_perm

theorem forall_topFindings {p : Finding → Prop} : (∀ f ∈ r.topFindings, p f) ↔ ∀ f ∈ r.findings, p f :=
  forall_congr' fun f => by rw [r.topFindings_perm.mem_iff]

theorem summaryLines_eq_ok {ls : List String} : r.summaryLines = .ok ls ↔
    ((∀ p ∈ r.counts, (p.2 : Int).natAbs < 10 ^ maxWholeDigits) ∧ r.fileCount.natAbs < 10 ^ maxWholeDigits ∧
      (∀ n ∈ r.cachedCount.toList, n.natAbs < 10 ^ maxWholeDigits) ∧
      (r.total : Int).natAbs < 10 ^ maxWholeDigits ∧
      ∀ n, r.duration = .whole n → n.natAbs < Binary64.overflow) ∧ ls = r.summary := by
  simp only [summaryLines, bind_eq_ok, mapM_eq_ok_iff fun (p : Severity × Nat) _ => bind_shownWhole,
    mapM_eq_ok_iff fun (n : Int) _ => bind_shownWhole, shownWhole_eq_ok, durationText_eq_ok, pure_eq_ok]
  constructor
  · rintro ⟨_, ⟨hcounts, rfl⟩, _, ⟨hfiles, rfl⟩, _, ⟨hcached, rfl⟩, _, ⟨htotal, rfl⟩, _, ⟨hduration, rfl⟩, rfl⟩
    exact ⟨⟨hcounts, hfiles, hcached, htotal, hduration⟩, rfl⟩
  · rintro ⟨⟨hcounts, hfiles, hcached, htotal, hduration⟩, rfl⟩
    exact ⟨_, ⟨hcounts, rfl⟩, _, ⟨hfiles, rfl⟩, _, ⟨hcached, rfl⟩, _, ⟨htotal, rfl⟩, _, ⟨hduration, rfl⟩, rfl⟩

theorem findingLines_eq_ok {ls : List String} : r.findingLines cwd = .ok ls ↔
    (∀ f ∈ r.findings, f.location.line.natAbs < 10 ^ maxWholeDigits ∧
      f.location.column.natAbs < 10 ^ maxWholeDigits) ∧
    ls = (if r.findings.isEmpty then [] else ["", "Findings", signLine 40 '-']) ++
      r.topFindings.flatMap (·.shown cwd) := by
  rw [findingLines]
  by_cases hempty : r.findings.isEmpty = true
  · have htop := r.topFindings_of_isEmpty hempty
    rw [if_pos hempty, if_pos hempty, pure_eq_ok, htop]
    rw [List.isEmpty_iff] at hempty
    simp [hempty, eq_comm]
  · simp only [if_neg hempty, bind_eq_ok, mapM_eq_ok_iff fun (f : Finding) _ => f.lines_eq_ok, pure_eq_ok,
      forall_topFindings]
    constructor
    · rintro ⟨_, ⟨hshort, rfl⟩, rfl⟩
      exact ⟨hshort, rfl⟩
    · rintro ⟨hshort, rfl⟩
      exact ⟨_, ⟨hshort, rfl⟩, rfl⟩

def prettyLines (r : ScanResult) (cwd : String) : List String :=
  r.prettyHead ++ r.topFindings.flatMap (·.shown cwd) ++ r.errorLines cwd

theorem pretty_eq_ok {text : String} : r.pretty cwd = .ok text ↔ r.Shows r.prettyWholes ∧
    text = String.ofList (trimEndBy isBlank (joinWith "\n" (r.prettyLines cwd)).toList) ++ "\n" := by
  have hshows : r.Shows r.prettyWholes ↔
      ((∀ p ∈ r.counts, (p.2 : Int).natAbs < 10 ^ maxWholeDigits) ∧ r.fileCount.natAbs < 10 ^ maxWholeDigits ∧
        (∀ n ∈ r.cachedCount.toList, n.natAbs < 10 ^ maxWholeDigits) ∧
        (r.total : Int).natAbs < 10 ^ maxWholeDigits ∧
        ∀ n, r.duration = .whole n → n.natAbs < Binary64.overflow) ∧
      ∀ f ∈ r.findings, f.location.line.natAbs < 10 ^ maxWholeDigits ∧
        f.location.column.natAbs < 10 ^ maxWholeDigits := by
    simp only [Shows, prettyWholes, List.forall_mem_append, List.forall_mem_map, List.forall_mem_flatMap,
      List.forall_mem_cons, List.not_mem_nil, false_implies, implies_true, and_true]
    generalize 10 ^ maxWholeDigits = bound
    tauto
  have hlines : r.summary ++ ((if r.findings.isEmpty then [] else ["", "Findings", signLine 40 '-']) ++
      r.topFindings.flatMap (·.shown cwd)) ++ r.errorLines cwd = r.prettyLines cwd := by
    simp only [prettyLines, prettyHead, List.append_assoc]
  simp only [pretty, bind_eq_ok, summaryLines_eq_ok, findingLines_eq_ok, pure_eq_ok, hshows]
  constructor
  · rintro ⟨_, ⟨hsummary, rfl⟩, _, ⟨hfindings, rfl⟩, rfl⟩
    exact ⟨⟨hsummary, hfindings⟩, by rw [hlines]⟩
  · rintro ⟨⟨hsummary, hfindings⟩, rfl⟩
    exact ⟨_, ⟨hsummary, rfl⟩, _, ⟨hfindings, rfl⟩, by rw [hlines]⟩

theorem markdownHead_eq_ok {ls : List String} : r.markdownHead = .ok ls ↔
    ((∀ n ∈ [r.fileCount, r.count .error, r.count .warning, r.count .info], n.natAbs < 10 ^ maxWholeDigits) ∧
      ∀ n, r.duration = .whole n → n.natAbs < Binary64.overflow) ∧
    ls = ["# Edge Compatibility Report", "",
      "Scanned **" ++ toString r.fileCount ++ "** files in " ++ r.duration.toBinary64.wholeText ++ "ms: " ++
        toString (r.count .error : Int) ++ " errors, " ++ toString (r.count .warning : Int) ++ " warnings, " ++
        toString (r.count .info : Int) ++ " info.", ""] := by
  simp only [markdownHead, bind_eq_ok, shownWhole_eq_ok, durationText_eq_ok, pure_eq_ok, List.forall_mem_cons,
    List.not_mem_nil, false_implies, implies_true, and_true]
  constructor
  · rintro ⟨_, ⟨hfiles, rfl⟩, _, ⟨hduration, rfl⟩, _, ⟨herrors, rfl⟩, _, ⟨hwarnings, rfl⟩, _, ⟨hinfos, rfl⟩, rfl⟩
    exact ⟨⟨⟨hfiles, herrors, hwarnings, hinfos⟩, hduration⟩, rfl⟩
  · rintro ⟨⟨⟨hfiles, herrors, hwarnings, hinfos⟩, hduration⟩, rfl⟩
    exact ⟨_, ⟨hfiles, rfl⟩, _, ⟨hduration, rfl⟩, _, ⟨herrors, rfl⟩, _, ⟨hwarnings, rfl⟩, _, ⟨hinfos, rfl⟩, rfl⟩

theorem markdownTable_eq_ok {ls : List String} : r.markdownTable cwd = .ok ls ↔
    (∀ f ∈ r.findings, f.location.line.natAbs < 10 ^ maxWholeDigits) ∧
    ls = (if r.findings.isEmpty then ["No issues found."]
      else ["| Severity | Rule | Location | Message |", "| --- | --- | --- | --- |"]) ++
      r.topFindings.map fun f => String.ofList (f.row cwd) := by
  rw [markdownTable]
  by_cases hempty : r.findings.isEmpty = true
  · have htop := r.topFindings_of_isEmpty hempty
    rw [if_pos hempty, if_pos hempty, pure_eq_ok, htop]
    rw [List.isEmpty_iff] at hempty
    simp [hempty, eq_comm]
  · simp only [if_neg hempty, bind_eq_ok, mapM_eq_ok_iff fun (f : Finding) _ => f.markdownRow_eq_ok, pure_eq_ok,
      forall_topFindings]
    constructor
    · rintro ⟨_, ⟨hshort, rfl⟩, rfl⟩
      exact ⟨hshort, rfl⟩
    · rintro ⟨hshort, rfl⟩
      exact ⟨_, ⟨hshort, rfl⟩, rfl⟩

def markdownLines (r : ScanResult) (cwd : String) : List String :=
  r.markdownTop ++ r.topFindings.map fun f => String.ofList (f.row cwd)

theorem markdown_eq_ok {text : String} : r.markdown cwd = .ok text ↔
    r.Shows r.markdownWholes ∧ text = joinWith "\n" (r.markdownLines cwd) ++ "\n" := by
  have hlines : ∀ head table rows : List String, head ++ (table ++ rows) = head ++ table ++ rows :=
    fun _ _ _ => (List.append_assoc _ _ _).symm
  have hshows : r.Shows r.markdownWholes ↔
      ((∀ n ∈ [r.fileCount, r.count .error, r.count .warning, r.count .info], n.natAbs < 10 ^ maxWholeDigits) ∧
        ∀ n, r.duration = .whole n → n.natAbs < Binary64.overflow) ∧
      ∀ f ∈ r.findings, f.location.line.natAbs < 10 ^ maxWholeDigits := by
    rw [Shows, markdownWholes, List.forall_mem_append, List.forall_mem_map]
    generalize 10 ^ maxWholeDigits = bound
    tauto
  simp only [markdown, bind_eq_ok, markdownHead_eq_ok, markdownTable_eq_ok, pure_eq_ok, hshows]
  constructor
  · rintro ⟨_, ⟨hhead, rfl⟩, _, ⟨htable, rfl⟩, rfl⟩
    exact ⟨⟨hhead, htable⟩, by rw [hlines]; rfl⟩
  · rintro ⟨⟨hhead, htable⟩, rfl⟩
    exact ⟨_, ⟨hhead, rfl⟩, _, ⟨htable, rfl⟩, by rw [hlines]; rfl⟩

variable {r cwd}

theorem pretty_written : (∃ text, r.pretty cwd = .ok text) ↔ r.Shows r.prettyWholes := by
  simp [pretty_eq_ok]

theorem markdown_written : (∃ text, r.markdown cwd = .ok text) ↔ r.Shows r.markdownWholes := by
  simp [markdown_eq_ok]

theorem markdown_lists {text : String} (h : r.markdown cwd = .ok text) : text.toList =
    r.markdownTop.flatMap lineText ++ r.topFindings.flatMap fun f => f.row cwd ++ ['\n'] := by
  obtain ⟨-, rfl⟩ := r.markdown_eq_ok cwd |>.mp h
  rw [String.toList_append]
  show (joinWith "\n" _).toList ++ ['\n'] = _
  rw [joinWith_lines (by simp [markdownLines, markdownTop]), markdownLines, List.flatMap_append, List.flatMap_map]
  simp only [lineText, String.toList_ofList]

theorem prettyLines_ne_nil : r.prettyLines cwd ≠ [] := by
  simp [prettyLines, prettyHead, summary]

theorem pretty_kept {text : String} (h : r.pretty cwd = .ok text) :
    ∃ blanks : List Char, (∀ c ∈ blanks, isBlank c = true) ∧ ∃ kept : List Char, text.toList = kept ++ ['\n'] ∧
      kept ++ blanks ++ ['\n'] = r.prettyHead.flatMap lineText ++ r.topFindings.flatMap (·.block cwd) ++
        (r.errorLines cwd).flatMap lineText := by
  obtain ⟨-, rfl⟩ := r.pretty_eq_ok cwd |>.mp h
  obtain ⟨blanks, hcut, hblank⟩ := trimEndBy_append isBlank (joinWith "\n" (r.prettyLines cwd)).toList
  refine ⟨blanks, hblank, _, by rw [String.toList_append, String.toList_ofList]; rfl, ?_⟩
  rw [hcut, joinWith_lines prettyLines_ne_nil, prettyLines]
  simp only [List.flatMap_append, List.flatMap_assoc]
  rfl

theorem pretty_heading {text : String} (htext : r.pretty cwd = .ok text) {before after : List Finding}
    {f : Finding} (h : r.topFindings = before ++ f :: after) :
    r.prettyHead.flatMap lineText ++ before.flatMap (·.block cwd) ++ (f.heading cwd).toList <+: text.toList := by
  obtain ⟨-, rfl⟩ := r.pretty_eq_ok cwd |>.mp htext
  obtain ⟨cs, c, hlast, hblank⟩ := f.heading_last cwd
  have hjoin := joinWith_lines (@prettyLines_ne_nil r cwd)
  have hlines : (r.prettyLines cwd).flatMap lineText = (r.prettyHead.flatMap lineText ++
      before.flatMap (·.block cwd) ++ (f.heading cwd).toList) ++ '\n' :: ((f.shown cwd).tail.flatMap lineText ++
        after.flatMap (·.block cwd) ++ (r.errorLines cwd).flatMap lineText) := by
    simp [prettyLines, h, List.flatMap_append, List.flatMap_assoc, Finding.block, Finding.shown, lineText]
  have hstart : r.prettyHead.flatMap lineText ++ before.flatMap (·.block cwd) ++ (f.heading cwd).toList <+:
      (joinWith "\n" (r.prettyLines cwd)).toList := by
    refine List.prefix_of_prefix_length_le ⟨_, hlines.symm⟩ ⟨['\n'], hjoin⟩ ?_
    have hlength := congrArg List.length (hjoin.trans hlines)
    simp only [List.length_append, List.length_cons, List.length_nil] at hlength ⊢
    omega
  rw [String.toList_append, String.toList_ofList]
  refine List.IsPrefix.trans ?_ (List.prefix_append _ _)
  rw [hlast, ← List.append_assoc] at hstart ⊢
  exact prefix_trimEndBy hstart hblank

/-- The findings are sorted by severity, file and line, those with equal keys as they were found; a
slice cuts this list; both reports are written exactly if their numbers can be, and write the list out one
finding after the other; and the counts and the exit code are those of the list. -/
theorem report_ordered (r : ScanResult) (cwd : String) :
    (r.topFindings.Perm r.findings ∧ r.topFindings.Pairwise Finding.Precedes ∧
      ∀ f : Finding, r.topFindings.filter f.tied = r.findings.filter f.tied) ∧
    (r.topSlice none = r.topFindings ∧ ∀ n : Nat, r.topSlice (some n) = r.topFindings.take n ∧
      r.topSlice (some (-(n + 1))) = r.topFindings.take (r.topFindings.length - (n + 1))) ∧
    (((∃ text, r.pretty cwd = .ok text) ↔ r.Shows r.prettyWholes) ∧
      ∀ text, r.pretty cwd = .ok text →
        (∃ blanks : List Char, (∀ c ∈ blanks, isBlank c = true) ∧ ∃ kept : List Char,
          text.toList = kept ++ ['\n'] ∧ kept ++ blanks ++ ['\n'] = r.prettyHead.flatMap lineText ++
            r.topFindings.flatMap (·.block cwd) ++ (r.errorLines cwd).flatMap lineText) ∧
        ∀ (before after : List Finding) (f : Finding), r.topFindings = before ++ f :: after →
          r.prettyHead.flatMap lineText ++ before.flatMap (·.block cwd) ++ (f.heading cwd).toList <+:
            text.toList) ∧
    (((∃ text, r.markdown cwd = .ok text) ↔ r.Shows r.markdownWholes) ∧
      ∀ text, r.markdown cwd = .ok text → text.toList = r.markdownTop.flatMap lineText ++
        r.topFindings.flatMap fun f => f.row cwd ++ ['\n']) ∧
    (r.count .error + r.count .warning + r.count .info = r.topFindings.length ∧
      r.total = r.topFindings.length) ∧
    ∀ strict : Bool, r.exitCode strict =
      if 0 < r.count .error ∨ strict = true ∧ 0 < r.count .warning then 2
      else if 0 < r.total then 1 else 0 := by
  have hlength : r.total = r.topFindings.length :=
    r.total_eq_length.trans r.topFindings_perm.length_eq.symm
  have hsum : r.count .error + r.count .warning + r.count .info = r.total := by
    show _ = r.count .error + (r.count .warning + (r.count .info + 0))
    omega
  refine ⟨⟨r.topFindings_perm, r.topFindings_sorted, r.topFindings_tied⟩,
    ⟨rfl, fun n => ⟨r.topSlice_nonneg n, r.topSlice_neg n⟩⟩, ⟨pretty_written, ?_⟩,
    ⟨markdown_written, fun text => markdown_lists⟩, ⟨hsum.trans hlength, hlength⟩, r.exitCode_eq⟩
  intro text htext
  exact ⟨pretty_kept htext, fun before after f => pretty_heading htext⟩

end ScanResult

def timerFound (line : Int) : Finding :=
  ⟨"edge/pattern:long-timers", .warning, "a|b", ⟨"/project/a.ts", line, 2, none, none⟩, none, []⟩

def callFound : Finding :=
  ⟨"edge/pattern:eval", .error, " ", ⟨"/project/b.ts", 9, 0, none, none⟩, none, []⟩

def mixedResult : ScanResult where
  findings := [timerFound 7, callFound, timerFound 4]
  fileCount := 2

theorem mixedResult_top : mixedResult.topFindings = [callFound, timerFound 4, timerFound 7] := by
  have hfirst : (timerFound 7).listedBefore callFound = false := by decide
  have hsecond : callFound.listedBefore (timerFound 4) = true := by decide
  have hthird : (timerFound 7).listedBefore (timerFound 4) = false := by decide
  simp [mixedResult, ScanResult.topFindings, List.mergeSort, List.MergeSort.Internal.splitInTwo,
    hfirst, hsecond, hthird]

theorem report_ordered_mixed :
    mixedResult.topSlice (some (-1)) = [callFound, timerFound 4] ∧
    (∃ text, mixedResult.pretty "/project" = .ok text ∧
      mixedResult.prettyHead.flatMap lineText ++ callFound.block "/project" ++
        "[WARNING] edge/pattern:long-timers a.ts:4:2".toList <+: text.toList) ∧
    (∃ text, mixedResult.markdown "/project" = .ok text ∧ text.toList = mixedResult.markdownTop.flatMap lineText ++
      ("| error | \x60edge/pattern:eval\x60 | \x60b.ts:9\x60 |   |\n" ++
        "| warning | \x60edge/pattern:long-timers\x60 | \x60a.ts:4\x60 | a\\|b |\n" ++
        "| warning | \x60edge/pattern:long-timers\x60 | \x60a.ts:7\x60 | a\\|b |\n").toList) ∧
    mixedResult.total = 3 ∧ mixedResult.exitCode false = 2 := by
  obtain ⟨-, ⟨-, hslice⟩, ⟨hpretty, hblocks⟩, ⟨hmarkdown, hrows⟩, ⟨-, htotal⟩, hexit⟩ :=
    mixedResult.report_ordered "/project"
  have hreal : ∀ n, mixedResult.duration ≠ .whole n := by
    intro n hn
    cases hn
  obtain ⟨text, htext⟩ := hpretty.mpr (mixedResult.shows_of_lt hreal (by decide))
  obtain ⟨page, hpage⟩ := hmarkdown.mpr (mixedResult.shows_of_lt hreal (by decide))
  refine ⟨?_, ⟨text, htext, ?_⟩, ⟨page, hpage, ?_⟩, ?_, ?_⟩
  · exact (hslice 0).2.trans (by rw [mixedResult_top]; rfl)
  · have hplace := (hblocks text htext).2 [callFound] [timerFound 7] (timerFound 4) mixedResult_top
    have hheading : ((timerFound 4).heading "/project").toList =
        "[WARNING] edge/pattern:long-timers a.ts:4:2".toList := by decide +kernel
    rw [hheading] at hplace
    simpa using hplace
  · have hlisted : ([callFound, timerFound 4, timerFound 7].flatMap fun f => f.row "/project" ++ ['\n']) =
        ("| error | \x60edge/pattern:eval\x60 | \x60b.ts:9\x60 |   |\n" ++
          "| warning | \x60edge/pattern:long-timers\x60 | \x60a.ts:4\x60 | a\\|b |\n" ++
          "| warning | \x60edge/pattern:long-timers\x60 | \x60a.ts:7\x60 | a\\|b |\n").toList := by
      decide +kernel
    rw [hrows page hpage, mixedResult_top, hlisted]
  · rw [htotal, mixedResult_top]
    rfl
  · rw [hexit false, if_pos (.inl (by decide))]

/-- A whole duration beyond every double is not written, and then neither report is. -/
theorem report_unwritten :
    let r : ScanResult := { findings := [callFound], duration := .whole (10 ^ 400) }
    (∀ text, r.pretty "/project" ≠ .ok text) ∧ ∀ text, r.markdown "/project" ≠ .ok text := by
  intro r
  have hlarge : Binary64.overflow ≤ ((10 : Int) ^ 400).natAbs := by
    have hpower := Binary64.overflow_le (k := 3 * 400) (by decide)
    rw [Nat.pow_mul] at hpower
    rw [Int.natAbs_pow]
    exact hpower.trans (Nat.pow_le_pow_left (by decide) 400)
  have hhidden : ∀ wholes, ¬ r.Shows wholes := fun wholes h => (h.2 _ rfl).not_ge hlarge
  exact ⟨fun text htext => hhidden _ (ScanResult.pretty_written.mp ⟨text, htext⟩),
    fun text htext => hhidden _ (ScanResult.markdown_written.mp ⟨text, htext⟩)⟩

end EdgeAudit

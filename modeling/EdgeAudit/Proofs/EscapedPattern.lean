import EdgeAudit.Glob.Search
import EdgeAudit.Proofs.PathParts
import EdgeAudit.Proofs.PatternLanguage

namespace EdgeAudit.Glob

open Text

def escaped (cs : List Char) : List Char :=
  cs.flatMap fun c => if special.contains c then ['\\', c] else [c]

variable {c : Char} {cs name : List Char}

theorem toList_escape (path : String) : (escape path).toList = escaped path.toList := by
  simp [escape, escaped]

theorem escaped_special (h : c ∈ special) (cs : List Char) :
    escaped (c :: cs) = '\\' :: c :: escaped cs := by
  simp [escaped, h]

theorem escaped_plain (h : c ∉ special) (cs : List Char) : escaped (c :: cs) = c :: escaped cs := by
  simp [escaped, h]

theorem escaped_append (a b : List Char) : escaped (a ++ b) = escaped a ++ escaped b := by
  simp [escaped]

theorem head?_of_escaped (h : (escaped cs).head? = some c) (hc : c ≠ '\\') : cs.head? = some c := by
  cases cs with
  | nil => exact h
  | cons d cs =>
    by_cases hd : d ∈ special
    · rw [escaped_special hd] at h
      exact absurd (Option.some.inj h).symm hc
    · rw [escaped_plain hd] at h
      exact h

theorem length_le_escaped (cs : List Char) : cs.length ≤ (escaped cs).length := by
  induction cs with
  | nil => simp [escaped]
  | cons c cs ih =>
    by_cases hc : c ∈ special
    · rw [escaped_special hc, List.length_cons, List.length_cons, List.length_cons]
      omega
    · rw [escaped_plain hc, List.length_cons, List.length_cons]
      omega

section Braces

open Braced

theorem countRow_texts (pieces : List (List Char)) (row : List Braced) :
    countRow (pieces.map .text ++ row) = countRow row := by
  induction pieces with
  | nil => rfl
  | cons piece pieces ih =>
    rw [List.map_cons, List.cons_append, countRow, count, Nat.one_mul, ih]

theorem textsRow_texts (pieces : List (List Char)) (row : List Braced) :
    textsRow (pieces.map .text ++ row) = (textsRow row).map (pieces.flatten ++ ·) := by
  induction pieces with
  | nil => simp
  | cons piece pieces ih =>
    rw [List.map_cons, List.cons_append, textsRow, ih]
    simp [texts]

def escapedRow (cs : List Char) : List Braced :=
  (cs.map fun c => escaped [c]).map .text

theorem countRow_escapedRow (cs : List Char) (row : List Braced) :
    countRow (escapedRow cs ++ row) = countRow row :=
  countRow_texts _ row

theorem textsRow_escapedRow (cs : List Char) (row : List Braced) :
    textsRow (escapedRow cs ++ row) = (textsRow row).map (escaped cs ++ ·) := by
  have hflatten : (cs.map fun c => escaped [c]).flatten = escaped cs := by
    simp [escaped, List.flatMap_def]
  rw [escapedRow, textsRow_texts, hflatten]

theorem readRow_escaped (cs : List Char) (n : Nat) (dollar start : Bool) (rest : List Char) :
    ∃ dollar' start', readRow (cs.length + n) 0 false dollar start (escaped cs ++ rest) =
      (readRow n 0 false dollar' start' rest).map fun (row, rest) => (escapedRow cs ++ row, rest) := by
  induction cs generalizing dollar start with
  | nil => exact ⟨dollar, start, by simp [escaped, escapedRow]⟩
  | cons c cs ih =>
    rw [List.length_cons, Nat.add_right_comm]
    have hstep : ∃ dollar', readRow (cs.length + n + 1) 0 false dollar start
        (escaped (c :: cs) ++ rest) = (readRow (cs.length + n) 0 false dollar' false
          (escaped cs ++ rest)).map fun (row, rest) => (.text (escaped [c]) :: row, rest) := by
      by_cases hc : c ∈ special
      · refine ⟨false, ?_⟩
        simp [escaped_special hc, readRow, show escaped [] = [] from rfl]
      · have hback : c ≠ '\\' := fun h => hc (by simp [h, special])
        have hbrace : c ≠ '\x7b' := fun h => hc (by simp [h, special])
        refine ⟨decide (c = '$'), ?_⟩
        by_cases hdollar : c = '$'
        · subst hdollar
          simp [escaped_plain hc, readRow, show escaped [] = [] from rfl]
        · simp [escaped_plain hc, readRow, hdollar, hback, hbrace, show escaped [] = [] from rfl]
    obtain ⟨dollar', hstep⟩ := hstep
    obtain ⟨dollar'', start'', hrest⟩ := ih dollar' false
    refine ⟨dollar'', start'', ?_⟩
    rw [hstep, hrest, Option.map_map]
    rfl

theorem expandBraces_escape (path : String) :
    expandBraces [escape path] = .ok [escaped path.toList] := by
  have hbraced : braced (escape path).toList = escapedRow path.toList := by
    have hlength := length_le_escaped path.toList
    obtain ⟨k, hk⟩ := Nat.exists_eq_add_of_le
      (show path.toList.length + 1 ≤ 2 * (escaped path.toList).length + 2 by omega)
    obtain ⟨dollar, start, hrow⟩ := readRow_escaped path.toList (1 + k) false true []
    rw [List.append_nil] at hrow
    rw [toList_escape, braced, hk, Nat.add_assoc, hrow, Nat.add_comm 1 k]
    simp [readRow]
  have hcount := countRow_escapedRow path.toList []
  have htexts := textsRow_escapedRow path.toList []
  rw [List.append_nil] at hcount htexts
  have hkeep : dropEmptyEnd [escaped path.toList] = [escaped path.toList] := by
    cases escaped path.toList <;> rfl
  simp only [expandBraces, List.map_cons, List.map_nil, hbraced, hcount, List.flatMap_cons,
    List.flatMap_nil, htexts, textsRow, List.append_nil, hkeep]
  rfl

end Braces

section Pieces

theorem readPieces_escaped (hname : '/' ∉ name) (n : Nat) (before : List Piece) (first : Bool)
    (rest : List Char) :
    readPieces (name.length + n) before first (escaped name ++ rest) =
      readPieces n ((name.map Piece.char).reverse ++ before) (first && name.isEmpty) rest := by
  induction name generalizing before first with
  | nil => simp [escaped]
  | cons c name ih =>
    rw [List.mem_cons, not_or] at hname
    have hstep : readPieces ((c :: name).length + n) before first (escaped (c :: name) ++ rest) =
        readPieces (name.length + n) (.char c :: before) false (escaped name ++ rest) := by
      rw [List.length_cons, Nat.add_right_comm]
      by_cases hc : c ∈ special
      · rw [escaped_special hc, List.cons_append, List.cons_append, readPieces]
        exact Ne.symm hname.1
      · have hstar : c ≠ '*' := fun h => hc (by simp [h, special])
        have hany : c ≠ '?' := fun h => hc (by simp [h, special])
        have hback : c ≠ '\\' := fun h => hc (by simp [h, special])
        have hbracket : c ≠ '[' := fun h => hc (by simp [h, special])
        rw [escaped_plain hc, List.cons_append, readPieces]
        exacts [hstar, hany, Ne.symm hname.1, hback, hbracket]
    rw [hstep, ih hname.2]
    simp

theorem pieces_escaped (hname : '/' ∉ name) : pieces (escaped name) = name.map Piece.char := by
  have hfuel : (escaped name).length + 1 = name.length + ((escaped name).length + 1 - name.length) := by
    have := length_le_escaped name
    omega
  have hread := readPieces_escaped hname ((escaped name).length + 1 - name.length) [] true []
  rw [List.append_nil, ← hfuel] at hread
  rw [pieces, hread]
  cases (escaped name).length + 1 - name.length <;> simp [readPieces]

theorem reads_chars {dots : Dots} {s t : Spot} :
    (Pattern.all ((name.map Piece.char).map (Piece.pattern dots))).Reads s t ↔
      ∃ r, s.rest = name ++ r ∧ t = s.past name r := by
  induction name generalizing s with
  | nil =>
    simp only [List.map_nil, Pattern.all, Pattern.Reads, List.nil_append, exists_eq_left']
    rw [Spot.past_nil s s.rest rfl]
  | cons c name ih =>
    rw [List.map_cons, List.map_cons, Pattern.reads_all_cons]
    constructor
    · rintro ⟨m, ⟨d, r, hs, hd, rfl⟩, hrest⟩
      obtain ⟨r', hr', rfl⟩ := ih.mp hrest
      obtain rfl : d = c := by simpa using hd
      simp only [Spot.past_rest] at hr'
      exact ⟨r', by rw [hs, hr', List.cons_append], by simp⟩
    · rintro ⟨r, hs, rfl⟩
      refine ⟨s.past [c] (name ++ r), ⟨c, name ++ r, hs, by simp, rfl⟩, ?_⟩
      exact ih.mpr ⟨r, rfl, by simp⟩

theorem fits_escaped {dots : Dots} (hname : '/' ∉ name) (hcs : '/' ∉ cs) :
    fits dots (escaped name) cs = true ↔ name = cs := by
  rw [fits, pieces_escaped hname, Pattern.fits_iff]
  constructor
  · rintro ⟨t, ⟨m, hchars, a, r, hr, -, ha, rfl⟩, hend⟩
    obtain ⟨r', hr', rfl⟩ := reads_chars.mp hchars
    obtain rfl : r = [] := hend
    obtain rfl : r' = a := by simpa using hr
    have hcs' : cs = name ++ r' := hr'
    cases r' with
    | nil => simpa using hcs'.symm
    | cons c r' =>
      obtain rfl : c = '/' := by simpa [isSlash] using ha c (by simp)
      exact absurd (by simp [hcs']) hcs
  · rintro rfl
    refine ⟨(Spot.first name).past name [], ⟨_, reads_chars.mpr ⟨[], by simp [Spot.first], rfl⟩, ?_⟩, rfl⟩
    exact ⟨[], [], rfl, Nat.le_refl _, by simp, (Spot.past_nil _ _ rfl).symm⟩

end Pieces

section Segments

variable {n : String} {names : List String}

theorem splitSegments_escaped (hname : '/' ∉ name) (n : Nat) (before rest : List Char) :
    splitSegments (name.length + n) before (escaped name ++ rest) =
      splitSegments n ((escaped name).reverse ++ before) rest := by
  induction name generalizing before with
  | nil => simp [escaped]
  | cons c name ih =>
    rw [List.mem_cons, not_or] at hname
    rw [List.length_cons, Nat.add_right_comm]
    by_cases hc : c ∈ special
    · rw [escaped_special hc, List.cons_append, List.cons_append, splitSegments]
      · rw [ih hname.2]
        simp
      · exact Ne.symm hname.1
    · have hback : c ≠ '\\' := fun h => hc (by simp [h, special])
      have hbracket : c ≠ '[' := fun h => hc (by simp [h, special])
      rw [escaped_plain hc, List.cons_append, splitSegments]
      · rw [ih hname.2]
        simp
      · exact Ne.symm hname.1
      all_goals simp_all

theorem splitSegments_names {last : String} (hnames : ∀ n ∈ names, Path.IsName n)
    (hlast : Path.IsName last) (n : Nat) (rest : List Char) :
    splitSegments ((joinWith "/" (names ++ [last])).toList.length + n) []
        (escaped (joinWith "/" (names ++ [last])).toList ++ rest) =
      (names.map fun n => escaped n.toList) ++
        splitSegments n (escaped last.toList).reverse rest := by
  induction names with
  | nil => simpa [joinWith] using splitSegments_escaped hlast.2 n [] rest
  | cons m names ih =>
    have hslash : '/' ∉ special := by decide
    have hjoin : (joinWith "/" (m :: names ++ [last])).toList =
        m.toList ++ '/' :: (joinWith "/" (names ++ [last])).toList := by
      cases names <;> exact Path.toList_joinWith_cons ..
    have hfuel : (m.toList ++ '/' :: (joinWith "/" (names ++ [last])).toList).length + n =
        m.toList.length + ((joinWith "/" (names ++ [last])).toList.length + n + 1) := by
      rw [List.length_append, List.length_cons]
      omega
    rw [hjoin, hfuel, escaped_append, escaped_plain hslash, List.append_assoc, List.cons_append,
      splitSegments_escaped (hnames m (by simp)).2, splitSegments,
      ih fun k hk => hnames k (List.mem_cons_of_mem m hk)]
    simp

def nameSegment (n : String) : Segment :=
  .ofText (escaped n.toList)

theorem escaped_eq_self (h : '\\' ∉ escaped cs) : escaped cs = cs := by
  induction cs with
  | nil => rfl
  | cons c cs ih =>
    by_cases hc : c ∈ special
    · simp [escaped_special hc] at h
    · rw [escaped_plain hc, List.mem_cons, not_or] at h
      rw [escaped_plain hc, ih h.2]

theorem nameSegment_cases (n : String) :
    nameSegment n = .wild (escaped n.toList) ∨ nameSegment n = .literal n := by
  have hstars : escaped n.toList ≠ ['*', '*'] := by
    cases n.toList with
    | nil => simp [escaped]
    | cons c cs =>
      by_cases hc : c ∈ special
      · simp [escaped_special hc]
      · rw [escaped_plain hc]
        intro h
        exact hc (by simp [(List.cons.inj h).1, special])
  rw [nameSegment, Segment.ofText, if_neg hstars]
  split
  · exact .inl rfl
  · rename_i hmagic
    have hback : '\\' ∉ escaped n.toList := by
      intro h
      exact hmagic (List.any_eq_true.mpr ⟨_, h, by simp [magic]⟩)
    exact .inr (by rw [escaped_eq_self hback, String.ofList_toList])

theorem nameSegment_fits (hn : Path.IsName n) {m : String} (hm : '/' ∉ m.toList) :
    (nameSegment n).fits m = true ↔ n = m := by
  rcases nameSegment_cases n with h | h
  · rw [h, Segment.fits, fits_escaped hn.2 hm, String.toList_inj]
  · rw [h, Segment.fits, beq_iff_eq]

theorem escaped_ne_nil (h : Path.IsName n) : escaped n.toList ≠ [] := by
  have hlength := length_le_escaped n.toList
  have hnil : n.toList ≠ [] := by simpa using h.1
  intro he
  rw [he, List.length_nil, Nat.le_zero, List.length_eq_zero_iff] at hlength
  exact hnil hlength

theorem collapse_names (names : List String) (rest : List Segment) :
    collapse (names.map nameSegment ++ rest) = names.map nameSegment ++ collapse rest := by
  induction names with
  | nil => rfl
  | cons n names ih =>
    rcases nameSegment_cases n with h | h
    all_goals rw [List.map_cons, h, List.cons_append, collapse, ih]
    all_goals simp

theorem segments_append (hnames : ∀ n ∈ names, Path.IsName n) (hne : names ≠ []) {rest : List Char}
    {parts : List (List Char)} (hparts : ∀ p ∈ parts, p ≠ [])
    (hrest : ∀ n before, rest.length < n →
      splitSegments n before rest = before.reverse :: parts) :
    segments (escaped (joinWith "/" names).toList ++ rest) =
      names.map nameSegment ++ collapse (parts.map Segment.ofText) := by
  have hsplit : splitSegments ((escaped (joinWith "/" names).toList ++ rest).length + 1) []
      (escaped (joinWith "/" names).toList ++ rest) =
        (names.map fun n => escaped n.toList) ++ parts := by
    obtain ⟨init, last, rfl⟩ : ∃ init last, names = init ++ [last] :=
      ⟨_, _, (List.dropLast_append_getLast hne).symm⟩
    have hlast : Path.IsName last := hnames last (by simp)
    have hinit : ∀ n ∈ init, Path.IsName n := fun n hn => hnames n (by simp [hn])
    have hlength := length_le_escaped (joinWith "/" (init ++ [last])).toList
    obtain ⟨k, hk⟩ := Nat.exists_eq_add_of_le hlength
    rw [List.length_append, hk, Nat.add_assoc, Nat.add_assoc, splitSegments_names hinit hlast,
      hrest _ _ (by omega)]
    simp
  have hfull : ∀ p ∈ (names.map fun n => escaped n.toList) ++ parts, p ≠ [] := by
    intro p hp
    rcases List.mem_append.mp hp with hp | hp
    · obtain ⟨n, hn, rfl⟩ := List.mem_map.mp hp
      exact escaped_ne_nil (hnames n hn)
    · exact hparts p hp
  have hsome : (names.map fun n => escaped n.toList) ++ parts ≠ [] := by simp [hne]
  have hend : (((names.map fun n => escaped n.toList) ++ parts).getLast?.getD []).isEmpty =
      false := by
    rw [List.getLast?_eq_some_getLast hsome]
    exact List.isEmpty_eq_false_iff.mpr (hfull _ (List.getLast_mem hsome))
  have hfilter : ((names.map fun n => escaped n.toList) ++ parts).filter (fun p => !p.isEmpty) =
      (names.map fun n => escaped n.toList) ++ parts :=
    List.filter_eq_self.mpr fun p hp => by simpa using hfull p hp
  simp only [segments, hsplit, hend, hfilter, Bool.false_eq_true, if_false, List.map_append,
    List.map_map]
  exact collapse_names names _

theorem segments_names (hnames : ∀ n ∈ names, Path.IsName n) (hne : names ≠ []) :
    segments (escaped (joinWith "/" names).toList) = names.map nameSegment := by
  have hrest : ∀ (n : Nat) (before : List Char), ([] : List Char).length < n →
      splitSegments n before [] = [before.reverse] := by
    intro n before _
    cases n <;> simp [splitSegments]
  have hsegments := segments_append hnames hne (List.forall_mem_nil _) hrest
  simpa [collapse] using hsegments

end Segments

end EdgeAudit.Glob

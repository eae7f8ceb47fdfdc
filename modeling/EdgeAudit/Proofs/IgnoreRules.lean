import EdgeAudit.Proofs.IgnoreDirectories
import EdgeAudit.Proofs.ScanReturns

namespace EdgeAudit

open EdgeAudit.Path Ignore

namespace Ignore

variable {patterns : List IgnorePattern} {p q : IgnorePattern} {path : List Char} {w : Way}

def IgnorePattern.Passes (q : IgnorePattern) (path : List Char) (w : Way) : Prop :=
  q.match? path = none ∨ w = .path ∧ q.match? path = some .directory ∧ q.ignores = false

/-- The last pattern that counts is no negation. -/
def DecidesAgainst (patterns : List IgnorePattern) (path : List Char) : Prop :=
  ∃ before p after w, patterns = before ++ p :: after ∧ p.ignores = true ∧
    p.match? path = some w ∧ ∀ q ∈ after, q.Passes path w

theorem next_eq_ignored {v : Option Verdict} : Verdict.next path v p = some ⟨true, w⟩ ↔
    p.ignores = true ∧ p.match? path = some w ∨ v = some ⟨true, w⟩ ∧ p.Passes path w := by
  unfold Verdict.next IgnorePattern.Passes
  cases hp : p.match? path with
  | none => simp
  | some way =>
    cases way with
    | path => simp
    | directory =>
      rcases v with _ | ⟨b, _ | _⟩
      · simp
      · cases w <;> simp
      · cases hi : p.ignores <;> cases w <;> simp

theorem foldl_next_eq_ignored : patterns.foldl (Verdict.next path) none = some ⟨true, w⟩ ↔
    ∃ before p after, patterns = before ++ p :: after ∧ p.ignores = true ∧
      p.match? path = some w ∧ ∀ q ∈ after, q.Passes path w := by
  induction patterns using List.reverseRecOn with
  | nil => simp
  | append_singleton patterns p ih =>
    rw [List.foldl_append, List.foldl_cons, List.foldl_nil, next_eq_ignored, ih]
    constructor
    · rintro (⟨hp, hw⟩ | ⟨⟨before, q, after, rfl, hq, hw, hafter⟩, hp⟩)
      · exact ⟨patterns, p, [], rfl, hp, hw, by simp⟩
      · refine ⟨before, q, after ++ [p], by simp, hq, hw, ?_⟩
        intro r hr
        rcases List.mem_append.mp hr with hr | hr
        · exact hafter r hr
        · rw [List.mem_singleton.mp hr]
          exact hp
    · rintro ⟨before, q, after, hsplit, hq, hw, hafter⟩
      -- the deciding pattern is the last one, or the last one passes
      rcases List.eq_nil_or_concat after with rfl | ⟨after, r, rfl⟩
      · obtain ⟨-, hlast⟩ := List.append_inj' hsplit rfl
        cases hlast
        exact .inl ⟨hq, hw⟩
      · rw [List.concat_eq_append, ← List.cons_append, ← List.append_assoc] at hsplit
        obtain ⟨hbefore, hlast⟩ := List.append_inj' hsplit rfl
        cases hlast
        refine .inr ⟨⟨before, q, after, hbefore, hq, hw, ?_⟩, hafter p (by simp)⟩
        exact fun r hr => hafter r (by simp [hr])

theorem ignoresPath_iff {path : String} :
    ignoresPath patterns path = true ↔ DecidesAgainst patterns path.toList := by
  have hsome : ∀ v : Option Verdict,
      (v.map (·.ignored)).getD false = true ↔ ∃ w, v = some ⟨true, w⟩ := by
    rintro (_ | ⟨b, w⟩)
    · simp
    · simp
  rw [ignoresPath, hsome]
  simp only [foldl_next_eq_ignored, DecidesAgainst]
  constructor
  · rintro ⟨w, before, p, after, h⟩
    exact ⟨before, p, after, w, h⟩
  · rintro ⟨before, p, after, w, h⟩
    exact ⟨w, before, p, after, h⟩

end Ignore

namespace Files

variable {f : Files} {cwd base place : String} {i : IgnoreFile} {patterns : List IgnorePattern}
  {ws names : List String}

/-- Names lead from a directory to one whose ignore file has the given patterns. -/
structure IgnoresWith (f : Files) (cwd : String) (ws : List String)
    (patterns : List IgnorePattern) : Prop where
  there : ∃ way e, f.find cwd = .ok (way, e) ∧ f.root.HasIgnoreFile way e ws
  read : ∃ text, f.readLenient (Path.join (ws.foldl Path.join cwd) fileName) = .ok text ∧
    patternsOf text = .ok patterns

theorem ignoreFile_eq_ok : f.ignoreFile base = .ok (.ok i) ↔ i.base = base ∧
    ∃ text, f.readLenient (Path.join base fileName) = .ok text ∧ patternsOf text = .ok i.patterns := by
  obtain ⟨base', patterns⟩ := i
  rw [ignoreFile]
  cases f.readLenient (Path.join base fileName) with
  | error fault => simp
  | ok text =>
    cases htext : patternsOf text with
    | error e => simp [Except.map, htext]
    | ok patterns' => simp [Except.map, htext, eq_comm]

theorem mem_ignoreFilesOf {bases : List String} {files : List IgnoreFile} {notes notes' : List LogLine}
    (h : f.ignoreFilesOf notes bases = .ok (files, notes')) :
    i ∈ files ↔ i.base ∈ bases ∧ f.ignoreFile i.base = .ok (.ok i) := by
  induction bases generalizing notes notes' files with
  | nil =>
    cases h
    simp
  | cons base bases ih =>
    have hbase : ∀ {file}, f.ignoreFile base = .ok (.ok file) → file.base = base :=
      fun hfile => (ignoreFile_eq_ok.mp hfile).1
    rw [ignoreFilesOf] at h
    obtain ⟨file, hfile, hrest⟩ := bind_eq_ok.mp h
    rw [mapError_eq_ok] at hfile
    cases file with
    | error note =>
      rw [ih hrest, List.mem_cons, or_and_right]
      refine (or_iff_right ?_).symm
      rintro ⟨rfl, hi⟩
      cases hfile.symm.trans hi
    | ok file =>
      obtain ⟨⟨files', notes''⟩, hfiles, hreturn⟩ := bind_eq_ok.mp hrest
      cases hreturn
      rw [List.mem_cons, List.mem_cons, ih hfiles, or_and_right]
      refine or_congr_left ?_
      constructor
      · rintro rfl
        exact ⟨hbase hfile, by rw [hbase hfile]; exact hfile⟩
      · rintro ⟨rfl, hi⟩
        cases hfile.symm.trans hi
        rfl

theorem mem_ignoreFiles (hproper : f.root.Proper) {files : List IgnoreFile} {notes : List LogLine}
    (h : f.ignoreFiles cwd = .ok (files, notes)) :
    i ∈ files ↔ ∃ ws, i.base = ws.foldl Path.join cwd ∧ f.IgnoresWith cwd ws i.patterns := by
  rw [mem_ignoreFilesOf h, ignoreFile_eq_ok, ignoreBases]
  cases hfind : f.find cwd with
  | error fault =>
    constructor
    · rintro ⟨hnone, -⟩
      cases hnone
    · rintro ⟨ws, -, ⟨way, e, hfound, -⟩, -⟩
      cases hfind.symm.trans hfound
  | ok found =>
    obtain ⟨way, e⟩ := found
    have he : e.Proper := Entry.everyDir_at? hproper (Entry.walk_at? hfind)
    rw [Entry.mem_ignoreBases _ _ _ _ e he]
    constructor
    · rintro ⟨⟨ws, hws, hbase⟩, -, hread⟩
      rw [hbase] at hread
      exact ⟨ws, hbase, ⟨way, e, hfind, hws⟩, hread⟩
    · rintro ⟨ws, hbase, ⟨way', e', hfound, hws⟩, hread⟩
      cases hfind.symm.trans hfound
      rw [← hbase] at hread
      exact ⟨⟨ws, hws, hbase⟩, rfl, hread⟩

theorem ignores_iff (hcwd : Normal cwd) (hws : ∀ n ∈ ws, IsOrdinary n ∧ IsName n)
    (hnames : ∀ n ∈ names, IsOrdinary n ∧ IsName n) (hbase : i.base = ws.foldl Path.join cwd) :
    i.ignores (names.foldl Path.join cwd) = true ↔ ws <+: names ∧ DecidesAgainst i.patterns
      (relativeTo (names.foldl Path.join cwd) (ws.foldl Path.join cwd)).toList := by
  obtain ⟨hplace, hroot, hparts⟩ := normal_foldl_join hcwd hnames
  obtain ⟨hdir, hroot', hparts'⟩ := normal_foldl_join hcwd hws
  have hsame : ¬ (Path.root (names.foldl Path.join cwd) != Path.root i.base) = true := by
    rw [hbase, hroot, hroot']
    simp
  have hafter : ∀ rest, after? (parts i.base) (parts (names.foldl Path.join cwd)) = some rest ↔
      names = ws ++ rest := by
    intro rest
    rw [after?_eq_some, hbase, hparts, hparts', List.append_assoc, List.append_cancel_left_eq]
  have hrelative : ∀ rest, names = ws ++ rest →
      relativeTo (names.foldl Path.join cwd) (ws.foldl Path.join cwd) =
        if rest = [] then "." else Text.joinWith "/" rest := by
    rintro rest rfl
    refine relativeTo_of_parts hdir hplace ?_
    rw [hparts, hparts', List.append_assoc]
  rw [IgnoreFile.ignores, if_neg hsame]
  cases hcase : after? (parts i.base) (parts (names.foldl Path.join cwd)) with
  | none =>
    constructor
    · intro h
      cases h
    · rintro ⟨⟨rest, hrest⟩, -⟩
      rw [(hafter rest).mpr hrest.symm] at hcase
      cases hcase
  | some rest =>
    have hrest := (hafter rest).mp hcase
    have hbegin : ws <+: names := ⟨rest, hrest.symm⟩
    rw [hrelative rest hrest]
    cases rest with
    | nil => simp [ignoresPath_iff, hbegin]
    | cons n rest => simp [ignoresPath_iff, hbegin]

theorem IgnoresWith.ordinary (h : f.IgnoresWith cwd ws patterns) (hproper : f.root.Proper) :
    ∀ n ∈ ws, IsOrdinary n ∧ IsName n := by
  obtain ⟨way, e, hfind, -, x, hat, -⟩ := h.there
  have he : e.Proper := Entry.everyDir_at? hproper (Entry.walk_at? hfind)
  exact fun n hn => he.names hat n (List.mem_append_left _ hn)

theorem ignoredBy_iff (hproper : f.root.Proper) (hcwd : Normal cwd)
    (hnames : ∀ n ∈ names, IsOrdinary n ∧ IsName n) {files : List IgnoreFile} {notes : List LogLine}
    (hfiles : f.ignoreFiles cwd = .ok (files, notes)) :
    ignoredBy files (names.foldl Path.join cwd) = true ↔ ∃ ws patterns, ws <+: names ∧
      f.IgnoresWith cwd ws patterns ∧ DecidesAgainst patterns
        (relativeTo (names.foldl Path.join cwd) (ws.foldl Path.join cwd)).toList := by
  rw [ignoredBy, List.any_eq_true]
  constructor
  · rintro ⟨i, hi, hignores⟩
    obtain ⟨ws, hbase, hwith⟩ := (mem_ignoreFiles hproper hfiles).mp hi
    obtain ⟨hbegin, hdecides⟩ := (ignores_iff hcwd (hwith.ordinary hproper) hnames hbase).mp hignores
    exact ⟨ws, i.patterns, hbegin, hwith, hdecides⟩
  · rintro ⟨ws, patterns, hbegin, hwith, hdecides⟩
    refine ⟨⟨ws.foldl Path.join cwd, patterns⟩, (mem_ignoreFiles hproper hfiles).mpr ⟨ws, rfl, hwith⟩, ?_⟩
    exact (ignores_iff hcwd (hwith.ordinary hproper) hnames rfl).mpr ⟨hbegin, hdecides⟩

/-- A candidate is dropped exactly if one of the ignore files from the directory down to it decides
against it; a deeper one does not take this back. -/
theorem discover_drops_iff {w : Wanted} {excluded : Option (List String)} {all : List String}
    (hproper : f.root.Proper) (hcwd : Normal cwd) (hnames : ∀ n ∈ names, IsOrdinary n ∧ IsName n)
    (hall : f.candidates cwd w excluded = .ok all) (hplace : names.foldl Path.join cwd ∈ all)
    (hlegible : ∀ base ∈ f.ignoreBases cwd, f.Legible base) :
    ∃ found notes, f.discover cwd w excluded true = .ok (found, notes) ∧
      (names.foldl Path.join cwd ∉ found ↔ ∃ ws patterns, ws <+: names ∧
        f.IgnoresWith cwd ws patterns ∧ DecidesAgainst patterns
          (relativeTo (names.foldl Path.join cwd) (ws.foldl Path.join cwd)).toList) := by
  obtain ⟨⟨files, notes⟩, hfiles⟩ : ∃ r, f.ignoreFiles cwd = .ok r :=
    (ignoreFilesOf_returns []).mpr hlegible
  have hsome : all.isEmpty = false := by
    rw [List.isEmpty_eq_false_iff]
    exact List.ne_nil_of_mem hplace
  refine ⟨all.filter fun path => !ignoredBy files path, notes, ?_, ?_⟩
  · simp [discover, hall, hfiles, hsome, bind, Except.bind, pure, Except.pure]
  · rw [← ignoredBy_iff hproper hcwd hnames hfiles, List.mem_filter]
    simp [hplace]

section Samples

def nestedProject : Entry :=
  .dir [(".gitignore", .file ⟨#[42, 46, 106, 115, 10]⟩ 0),
    ("sub", .dir [(".gitignore", .file ⟨#[33, 107, 101, 101, 112, 46, 106, 115, 10]⟩ 0),
      ("keep.js", .file .empty 0)])]

def nestedTree : Files :=
  ⟨.dir [("T", .dir [("project", nestedProject)])]⟩

def scripts : IgnorePattern :=
  ⟨.path [.names, .glob [.star, .char '.', .char 'j', .char 's']], true, false⟩

def kept : IgnorePattern :=
  ⟨.path [.names, .glob ("keep.js".toList.map .char)], false, false⟩

theorem nestedTree_find : nestedTree.find "/T/project" = .ok (["T", "project"], nestedProject) := by
  have hparts : parts "/T/project" = ["T", "project"] ∧ ¬ maxNameBytes < "T".utf8ByteSize ∧
    ¬ maxNameBytes < "project".utf8ByteSize := by decide +kernel
  simp [find, hparts, nestedTree, nestedProject, Entry.walk, Entry.at?, Entry.child?, assocGet?]

theorem nestedTree_reads : nestedTree.readLenient "/T/project/.gitignore" = .ok "*.js\n".toList ∧
    nestedTree.readLenient "/T/project/sub/.gitignore" = .ok "!keep.js\n".toList := by
  have hparts : parts "/T/project/.gitignore" = ["T", "project", ".gitignore"] ∧
    parts "/T/project/sub/.gitignore" = ["T", "project", "sub", ".gitignore"] ∧
    ¬ maxNameBytes < "T".utf8ByteSize ∧ ¬ maxNameBytes < "project".utf8ByteSize ∧
    ¬ maxNameBytes < "sub".utf8ByteSize ∧ ¬ maxNameBytes < ".gitignore".utf8ByteSize := by
    decide +kernel
  have htexts : Text.unifyLineEnds (Text.decodeUtf8Leniently
      (⟨#[42, 46, 106, 115, 10]⟩ : ByteArray).toList) = "*.js\n".toList ∧
    Text.unifyLineEnds (Text.decodeUtf8Leniently
      (⟨#[33, 107, 101, 101, 112, 46, 106, 115, 10]⟩ : ByteArray).toList) = "!keep.js\n".toList := by
    decide +kernel
  constructor
  all_goals
    simp [readLenient, readBytes, find, hparts, nestedTree, nestedProject, Entry.walk, Entry.at?,
      Entry.child?, assocGet?, htexts, bind, Except.bind, pure, Except.pure]

theorem nestedTree_bases : nestedTree.ignoreBases "/T/project" = ["/T/project", "/T/project/sub"] := by
  have hsort : ∀ a b : List String, ([(".gitignore", a), ("sub", b)] : List (String × List String)).mergeSort
      (fun a b => a.1 ≤ b.1) = [(".gitignore", a), ("sub", b)] :=
    fun a b => List.mergeSort_of_pairwise (by simp)
  have hsort' : ([(".gitignore", []), ("keep.js", [])] : List (String × List String)).mergeSort
      (fun a b => a.1 ≤ b.1) = [(".gitignore", []), ("keep.js", [])] :=
    List.mergeSort_of_pairwise (by decide +kernel)
  have hjoin : Path.join "/T/project" "sub" = "/T/project/sub" := by decide +kernel
  simp [ignoreBases, nestedTree_find, nestedProject, Entry.ignoreBases, Entry.ignoreBasesEach,
    Entry.leadsToDir?, fileName, prunedNames, hsort, hsort', hjoin]

theorem nestedTree_files :
    nestedTree.ignoreFile "/T/project" = .ok (.ok ⟨"/T/project", [scripts]⟩) ∧
      nestedTree.ignoreFile "/T/project/sub" = .ok (.ok ⟨"/T/project/sub", [kept]⟩) := by
  have hpaths : Path.join "/T/project" fileName = "/T/project/.gitignore" ∧
    Path.join "/T/project/sub" fileName = "/T/project/sub/.gitignore" := by
    decide +kernel
  rw [ignoreFile_eq_ok, ignoreFile_eq_ok, hpaths.1, hpaths.2]
  exact ⟨⟨rfl, _, nestedTree_reads.1, rfl⟩, ⟨rfl, _, nestedTree_reads.2, rfl⟩⟩

theorem nestedTree_candidates : nestedTree.candidates "/T/project" ⟨[], ["sub/keep.js"]⟩ none =
    .ok ["/T/project/sub/keep.js"] := by
  have hliterally : foundLiterally "/T/project" ["sub/keep.js"] defaultExcluded =
      .ok ["/T/project/sub/keep.js"] := by decide +kernel
  have honce : (["/T/project/sub/keep.js"] : List String).eraseDups = ["/T/project/sub/keep.js"] := by
    decide +kernel
  simp [candidates, foundByPatterns, hliterally, honce, bind, Except.bind, pure, Except.pure]

theorem nested_negation_dropped :
    nestedTree.ignoreFile "/T/project/sub" = .ok (.ok ⟨"/T/project/sub", [kept]⟩) ∧
      kept.match? "keep.js".toList = some .path ∧ kept.ignores = false ∧
      scripts.match? "sub".toList = none ∧
      nestedTree.discover "/T/project" ⟨[], ["sub/keep.js"]⟩ none true = .ok ([], []) := by
  refine ⟨nestedTree_files.2, by decide +kernel, rfl, by decide +kernel, ?_⟩
  have hfiles : nestedTree.ignoreFiles "/T/project" =
      .ok ([⟨"/T/project", [scripts]⟩, ⟨"/T/project/sub", [kept]⟩], []) := by
    simp [ignoreFiles, nestedTree_bases, ignoreFilesOf, nestedTree_files, bind, Except.bind, pure,
      Except.pure]
  have hignored : ignoredBy [⟨"/T/project", [scripts]⟩, ⟨"/T/project/sub", [kept]⟩]
      "/T/project/sub/keep.js" = true := by decide +kernel
  simp [discover, nestedTree_candidates, hfiles, hignored, bind, Except.bind, pure, Except.pure]

theorem discover_drops_iff_nested :
    nestedTree.root.Proper ∧ Normal "/T/project" ∧
      nestedTree.candidates "/T/project" ⟨[], ["sub/keep.js"]⟩ none =
        .ok ["/T/project/sub/keep.js"] ∧
      (∀ base ∈ nestedTree.ignoreBases "/T/project", nestedTree.Legible base) ∧
      ∃ found notes,
        nestedTree.discover "/T/project" ⟨[], ["sub/keep.js"]⟩ none true = .ok (found, notes) ∧
        (["sub", "keep.js"].foldl Path.join "/T/project" ∉ found ↔ ∃ ws patterns,
          ws <+: ["sub", "keep.js"] ∧ nestedTree.IgnoresWith "/T/project" ws patterns ∧
            DecidesAgainst patterns (relativeTo (["sub", "keep.js"].foldl Path.join "/T/project")
              (ws.foldl Path.join "/T/project")).toList) := by
  have hproper : nestedTree.root.Proper := by decide
  have hcwd : Normal "/T/project" := ⟨rfl, by decide +kernel⟩
  have hplace : ["sub", "keep.js"].foldl Path.join "/T/project" ∈ ["/T/project/sub/keep.js"] := by
    decide +kernel
  have hlegible : ∀ base ∈ nestedTree.ignoreBases "/T/project", nestedTree.Legible base := by
    rw [nestedTree_bases]
    intro base hbase
    rw [← ignoreFile_returns]
    rcases List.mem_cons.mp hbase with rfl | hbase
    · exact ⟨_, nestedTree_files.1⟩
    · rw [List.mem_singleton.mp hbase]
      exact ⟨_, nestedTree_files.2⟩
  exact ⟨hproper, hcwd, nestedTree_candidates, hlegible,
    discover_drops_iff hproper hcwd (by decide) nestedTree_candidates hplace hlegible⟩

end Samples

end Files

end EdgeAudit

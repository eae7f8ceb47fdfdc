import EdgeAudit.Proofs.HiddenNames
import EdgeAudit.Proofs.PlainTree
import EdgeAudit.Proofs.ScanReturns

namespace EdgeAudit

open EdgeAudit.Path Glob

namespace Files

variable {f : Files} {cwd path place : String} {w : Wanted} {excluded : Option (List String)}
  {useIgnoreFiles : Bool} {names : List String} {texts : List (List Char)}

def Finds (f : Files) (cwd : String) (w : Wanted) (excluded : Option (List String))
    (useIgnoreFiles : Bool) (place : String) : Prop :=
  ∃ found notes, f.discover cwd w excluded useIgnoreFiles = .ok (found, notes) ∧ place ∈ found

/-- Names lead from a directory to a file below it. -/
structure FileBelow (f : Files) (cwd : String) (names : List String) (place : String) : Prop where
  normal : Normal cwd
  ordinary : ∀ n ∈ names, IsOrdinary n ∧ IsName n
  nonempty : names ≠ []
  place_eq : place = Path.join cwd (Text.joinWith "/" names)
  file : ∃ way bytes mtime, f.find place = .ok (way, .file bytes mtime)

theorem FileBelow.relative (h : f.FileBelow cwd names place) :
    relativeTo place cwd = Text.joinWith "/" names := by
  rw [h.place_eq, relativeTo_join h.normal h.ordinary h.nonempty]

theorem fileBelow_of_at? (hplain : f.root.Plain) (hroot : f.root.isLink = false)
    (hcwd : Normal cwd) (hnames : ∀ n ∈ names, IsOrdinary n ∧ IsName n) (hne : names ≠ [])
    (hsize : ∀ n ∈ parts cwd ++ names, n.utf8ByteSize ≤ maxNameBytes)
    {bytes : ByteArray} {mtime : Int}
    (hfile : f.root.at? (parts cwd ++ names) = some (.file bytes mtime)) :
    f.FileBelow cwd names (Path.join cwd (Text.joinWith "/" names)) := by
  obtain ⟨-, -, hparts⟩ := normal_join hcwd hnames hne
  have hordinary := ordinary_append hcwd hnames
  refine ⟨hcwd, hnames, hne, rfl, parts cwd ++ names, bytes, mtime, ?_⟩
  rw [find, hparts, Entry.walk_unlinked (hplain.at?_ne_link hroot) fun n hn => (hordinary n hn).1]
  exact ⟨rfl, hfile, hsize⟩

def literally (path : String) : Wanted :=
  ⟨[], [path]⟩

def escapedFrom (cwd place : String) : Wanted :=
  ⟨[escape (relativeTo place cwd)], []⟩

theorem ignoreBases_plain (hplain : f.root.Plain) : f.ignoreBases cwd = [] := by
  rw [ignoreBases]
  split
  · rename_i way e hfind
    exact Entry.Plain.ignoreBases_eq_nil _ _ _ e (Entry.everyDir_at? hplain (Entry.walk_at? hfind))
  · rfl

theorem ignoreFiles_plain (hplain : f.root.Plain) : f.ignoreFiles cwd = .ok ([], []) := by
  rw [ignoreFiles, ignoreBases_plain hplain]
  rfl

theorem discover_unignored (hnone : f.ignoreFiles cwd = .ok ([], []))
    {r : List String × List LogLine} :
    f.discover cwd w excluded useIgnoreFiles = .ok r ↔
      ∃ found, f.candidates cwd w excluded = .ok found ∧ r = (found, []) := by
  unfold discover
  simp only [bind_eq_ok, mapError_eq_ok]
  refine exists_congr fun found => and_congr_right fun _ => ?_
  split
  · rw [hnone]
    simp [Ignore.ignoredBy, bind, Except.bind, pure, Except.pure, eq_comm]
  · simp [pure, Except.pure, eq_comm]

theorem discover_plain (hplain : f.root.Plain) {r : List String × List LogLine} :
    f.discover cwd w excluded useIgnoreFiles = .ok r ↔
      ∃ found, f.candidates cwd w excluded = .ok found ∧ r = (found, []) :=
  discover_unignored (ignoreFiles_plain hplain)

theorem finds_plain (hplain : f.root.Plain) {patterns files byPatterns literally : List String}
    (hasked : patterns ≠ [] ∨ files ≠ [])
    (hpatterns : f.foundByPatterns cwd patterns (excluded.getD defaultExcluded) = .ok byPatterns)
    (hfiles : foundLiterally cwd files (excluded.getD defaultExcluded) = .ok literally)
    (place : String) :
    f.Finds cwd ⟨patterns, files⟩ excluded useIgnoreFiles place ↔
      place ∈ byPatterns ∨ place ∈ literally := by
  have hgiven : ¬ (patterns.isEmpty && files.isEmpty) = true := by
    simpa [← not_and_or] using hasked
  have hcandidates : f.candidates cwd ⟨patterns, files⟩ excluded =
      .ok ((byPatterns ++ literally).eraseDups.mergeSort (· ≤ ·)) := by
    simp only [candidates, if_neg hgiven, hpatterns, hfiles]
    rfl
  have hmem : place ∈ (byPatterns ++ literally).eraseDups.mergeSort (· ≤ ·) ↔
      place ∈ byPatterns ∨ place ∈ literally := by
    rw [List.mem_mergeSort, List.mem_eraseDups, List.mem_append]
  rw [← hmem]
  simp only [Finds, discover_plain hplain, hcandidates, Except.ok.injEq, exists_eq_left', Prod.mk.injEq]
  constructor
  · rintro ⟨found, notes, ⟨rfl, -⟩, hplace⟩
    exact hplace
  · intro hplace
    exact ⟨_, [], ⟨rfl, rfl⟩, hplace⟩

theorem foundLiterally_one {patterns : List String} {b : Bool}
    (h : matchesAny patterns (relativeTo (absolute cwd path) cwd) = .ok b) :
    foundLiterally cwd [path] patterns = .ok (if b then [] else [absolute cwd path]) := by
  simp only [foundLiterally, List.mapM_cons, List.mapM_nil, h]
  cases b <;> rfl

theorem FileBelow.searched (hfile : f.FileBelow cwd names place) (hplain : f.root.Plain) :
    Text.joinWith "/" names ∈ f.searchPattern cwd (escaped (Text.joinWith "/" names).toList) ∧
      ∀ path ∈ f.searchPattern cwd (escaped (Text.joinWith "/" names).toList),
        path = Text.joinWith "/" names := by
  obtain ⟨way, bytes, mtime, hfind⟩ := hfile.file
  obtain ⟨-, -, hparts⟩ := normal_join hfile.normal hfile.ordinary hfile.nonempty
  rw [← hfile.place_eq] at hparts
  have hroot : f.root.isLink = false := by
    have hat := Entry.walk_at? hfind
    cases hlink : f.root with
    | file bytes mtime => rfl
    | dir entries => rfl
    | link target =>
      rw [hlink] at hat
      cases way <;> cases hat
  have hordinary : ∀ n ∈ parts cwd ++ names, IsOrdinary n :=
    fun n hn => (ordinary_append hfile.normal hfile.ordinary n hn).1
  rw [find, hparts, Entry.walk_unlinked (hplain.at?_ne_link hroot) hordinary] at hfind
  obtain ⟨-, hat, hsize⟩ := hfind
  exact searchPattern_names (hplain.unlinked hroot) hfile.ordinary hfile.nonempty
    (fun n hn => hordinary n (List.mem_append_left names hn)) hsize hat

theorem foundByPatterns_escape (f : Files) (cwd path : String) {patterns : List String}
    (htexts : expandBraces patterns = .ok texts) : f.foundByPatterns cwd [escape path] patterns =
      .ok (((f.searchPattern cwd (escaped path.toList)).filter fun found =>
        !texts.any fun t => fits .matched t found.toList &&
          (t.head? == some '/' || found.toList.head? != some '/')).map (absolute cwd)) := by
  simp only [foundByPatterns, glob, expandBraces_escape, htexts]
  simp [bind, Except.bind, pure, Except.pure]

section Routes

variable (hplain : f.root.Plain)
  (htexts : expandBraces (excluded.getD defaultExcluded) = .ok texts)

include hplain htexts

theorem finds_literally :
    f.Finds cwd (literally path) excluded useIgnoreFiles (absolute cwd path) ↔
      ∀ t ∈ texts, fits .plain t (relativeTo (absolute cwd path) cwd).toList = false := by
  have hmatch : matchesAny (excluded.getD defaultExcluded) (relativeTo (absolute cwd path) cwd) =
      .ok (texts.any fun t => fits .plain t (relativeTo (absolute cwd path) cwd).toList) := by
    rw [matchesAny, htexts]
    rfl
  have hnone : f.foundByPatterns cwd [] (excluded.getD defaultExcluded) = .ok [] := rfl
  rw [literally, finds_plain hplain (.inr (by simp)) hnone (foundLiterally_one hmatch)]
  cases hany : texts.any fun t => fits .plain t (relativeTo (absolute cwd path) cwd).toList with
  | true => simpa using hany
  | false => simpa using hany

theorem finds_escaped (hfile : f.FileBelow cwd names place) :
    f.Finds cwd (escapedFrom cwd place) excluded useIgnoreFiles place ↔
      ∀ t ∈ texts, fits .matched t (relativeTo place cwd).toList = false := by
  obtain ⟨hthere, honly⟩ := hfile.searched hplain
  have hhead : (Text.joinWith "/" names).toList.head? ≠ some '/' := by
    simpa [isAbsolute] using isAbsolute_joinWith fun n hn => (hfile.ordinary n hn).2
  have hkept : (!texts.any fun t => fits .matched t (Text.joinWith "/" names).toList &&
      (t.head? == some '/' || (Text.joinWith "/" names).toList.head? != some '/')) = true ↔
        ∀ t ∈ texts, fits .matched t (Text.joinWith "/" names).toList = false := by
    simp [hhead]
  have hnone : foundLiterally cwd [] (excluded.getD defaultExcluded) = .ok [] := rfl
  have hfound := foundByPatterns_escape f cwd (Text.joinWith "/" names) htexts
  rw [escapedFrom, hfile.relative, finds_plain hplain (.inl (by simp)) hfound hnone, ← hkept,
    hfile.place_eq, ← absolute_join hfile.normal hfile.ordinary hfile.nonempty, List.mem_map]
  constructor
  · rintro (⟨path, hpath, -⟩ | hnone)
    · obtain ⟨hpath, hkeep⟩ := List.mem_filter.mp hpath
      rw [honly path hpath] at hkeep
      exact hkeep
    · cases hnone
  · intro hkeep
    exact .inl ⟨_, List.mem_filter.mpr ⟨hthere, hkeep⟩, rfl⟩

end Routes

theorem noHidden_joinWith (hnames : ∀ n ∈ names, IsName n)
    (hshown : ∀ n ∈ names, n.toList.head? ≠ some '.') :
    NoHidden (Text.joinWith "/" names).toList := by
  have hname : ∀ n ∈ names, ∀ a r, n.toList = a ++ '.' :: r → ∃ c ∈ a.getLast?, c ≠ '/' := by
    intro n hn a r hsplit
    have ha : a ≠ [] := by
      rintro rfl
      exact hshown n hn (by rw [hsplit]; rfl)
    refine ⟨a.getLast ha, List.getLast?_eq_some_getLast ha, ?_⟩
    intro hslash
    apply (hnames n hn).2
    rw [hsplit, ← hslash]
    exact List.mem_append_left _ (List.getLast_mem ha)
  induction names with
  | nil =>
    intro a r hsplit
    simp [Text.joinWith] at hsplit
  | cons n names ih =>
    cases names with
    | nil =>
      intro a r hsplit
      exact hname n (by simp) a r (by simpa [Text.joinWith] using hsplit)
    | cons m names =>
      have hrest := ih (fun k hk => hnames k (List.mem_cons_of_mem n hk))
        (fun k hk => hshown k (List.mem_cons_of_mem n hk))
        fun k hk => hname k (List.mem_cons_of_mem n hk)
      intro a r hsplit
      rw [toList_joinWith_cons] at hsplit
      rcases List.append_eq_append_iff.mp hsplit with ⟨b, rfl, hb⟩ | ⟨b, hn, hb⟩
      · cases b with
        | nil => simp at hb
        | cons d b =>
          obtain ⟨rfl, hrest'⟩ := List.cons.inj hb
          obtain ⟨c, hc, hslash⟩ := hrest b r hrest'
          exact ⟨c, by simp [List.getLast?_cons, Option.mem_def.mp hc], hslash⟩
      · cases b with
        | nil => simp at hb
        | cons d b =>
          obtain ⟨rfl, -⟩ := List.cons.inj hb
          exact hname n (by simp) a b hn

theorem discover_returns_plain (hplain : f.root.Plain) :
    (∃ r, f.discover cwd w excluded useIgnoreFiles = .ok r) ↔
      Bounded w.patterns ∧ Bounded (excluded.getD defaultExcluded) := by
  rw [← candidates_returns (f := f) (w := w)]
  simp only [discover_plain hplain]
  constructor
  · rintro ⟨r, found, hfound, -⟩
    exact ⟨found, hfound⟩
  · rintro ⟨found, hfound⟩
    exact ⟨_, found, hfound, rfl⟩

theorem finds_iff_texts (hplain : f.root.Plain) {P : List (List Char) → Prop}
    (h : ∀ texts, expandBraces (excluded.getD defaultExcluded) = .ok texts →
      (f.Finds cwd w excluded useIgnoreFiles place ↔ P texts)) :
    f.Finds cwd w excluded useIgnoreFiles place ↔
      ∃ texts, expandBraces (excluded.getD defaultExcluded) = .ok texts ∧ P texts := by
  constructor
  · intro hfinds
    have ⟨found, notes, hfound, _⟩ := hfinds
    obtain ⟨-, hbounded⟩ := (discover_returns_plain hplain).mp ⟨_, hfound⟩
    obtain ⟨texts, htexts⟩ := expandBraces_returns.mpr hbounded
    exact ⟨texts, htexts, (h texts htexts).mp hfinds⟩
  · rintro ⟨texts, htexts, hP⟩
    exact (h texts htexts).mpr hP

theorem bounded_escapedFrom (cwd place : String) : Bounded (escapedFrom cwd place).patterns :=
  expandBraces_returns.mp ⟨_, expandBraces_escape _⟩

/-- For a file without dots in front of its names it does not matter how it is asked for; otherwise
the search may leave out more. -/
theorem discover_literally_escaped (hplain : f.root.Plain) (hfile : f.FileBelow cwd names place)
    (hpath : absolute cwd path = place) (excluded : Option (List String)) (useIgnoreFiles : Bool) :
    ((∃ r, f.discover cwd (literally path) excluded useIgnoreFiles = .ok r) ↔
      ∃ r, f.discover cwd (escapedFrom cwd place) excluded useIgnoreFiles = .ok r) ∧
    (f.Finds cwd (escapedFrom cwd place) excluded useIgnoreFiles place →
      f.Finds cwd (literally path) excluded useIgnoreFiles place) ∧
    ((∀ n ∈ names, n.toList.head? ≠ some '.') →
      (f.Finds cwd (literally path) excluded useIgnoreFiles place ↔
        f.Finds cwd (escapedFrom cwd place) excluded useIgnoreFiles place)) ∧
    (f.Finds cwd (literally path) excluded useIgnoreFiles place ∧
        ¬ f.Finds cwd (escapedFrom cwd place) excluded useIgnoreFiles place ↔
      ∃ texts, expandBraces (excluded.getD defaultExcluded) = .ok texts ∧
        (∀ t ∈ texts, fits .plain t (relativeTo place cwd).toList = false) ∧
        ∃ t ∈ texts, fits .matched t (relativeTo place cwd).toList = true) := by
  subst hpath
  have hreturns : (∃ r, f.discover cwd (literally path) excluded useIgnoreFiles = .ok r) ↔
      ∃ r, f.discover cwd (escapedFrom cwd (absolute cwd path)) excluded useIgnoreFiles = .ok r := by
    rw [discover_returns_plain hplain, discover_returns_plain hplain]
    exact and_congr_left' ⟨fun _ => bounded_escapedFrom _ _, fun _ => bounded_nil⟩
  refine ⟨hreturns, ?_⟩
  rw [finds_iff_texts hplain fun _ ht => finds_literally hplain ht,
    finds_iff_texts hplain fun _ ht => finds_escaped hplain ht hfile]
  have hless : ∀ t, fits .matched t (relativeTo (absolute cwd path) cwd).toList = false →
      fits .plain t (relativeTo (absolute cwd path) cwd).toList = false := by
    intro t hmatched
    rw [← Bool.not_eq_true] at hmatched ⊢
    exact fun hfits => hmatched (fits_matched_of_plain hfits)
  refine ⟨?_, ?_, ?_⟩
  · rintro ⟨texts, htexts, hkept⟩
    exact ⟨texts, htexts, fun t ht => hless t (hkept t ht)⟩
  · intro hshown
    have hhidden : NoHidden (relativeTo (absolute cwd path) cwd).toList := by
      rw [hfile.relative]
      exact noHidden_joinWith (fun n hn => (hfile.ordinary n hn).2) hshown
    simp only [← Bool.not_eq_true, fits_matched_iff_plain hhidden]
  · constructor
    · rintro ⟨⟨texts, htexts, hkept⟩, hout⟩
      refine ⟨texts, htexts, hkept, ?_⟩
      by_contra hnone
      simp only [not_exists, not_and, Bool.not_eq_true] at hnone
      exact hout ⟨texts, htexts, hnone⟩
    · rintro ⟨texts, htexts, hkept, t, ht, hmatched⟩
      refine ⟨⟨texts, htexts, hkept⟩, ?_⟩
      rintro ⟨texts', htexts', hnone⟩
      cases htexts.symm.trans htexts'
      rw [hnone t ht] at hmatched
      cases hmatched

section Samples

def dottedTree : Files :=
  ⟨.dir [("T", .dir [("project", .dir
    [(".a.js", .file .empty 0), ("src", .dir [("b.js", .file .empty 0)])])])]⟩

theorem normal_project : Normal "/T/project" :=
  ⟨rfl, by decide +kernel⟩

theorem dottedTree_hidden : dottedTree.FileBelow "/T/project" [".a.js"] "/T/project/.a.js" := by
  have hjoin : Path.join "/T/project" (Text.joinWith "/" [".a.js"]) = "/T/project/.a.js" := by
    decide +kernel
  rw [← hjoin]
  exact fileBelow_of_at? (by decide) rfl normal_project (by decide) (by simp) (by decide +kernel) rfl

theorem hidden_literally_kept :
    dottedTree.Finds "/T/project" (literally ".a.js") (some ["**/*"]) true "/T/project/.a.js" ∧
      ¬ dottedTree.Finds "/T/project" (escapedFrom "/T/project" "/T/project/.a.js")
        (some ["**/*"]) true "/T/project/.a.js" := by
  have hplain : dottedTree.root.Plain := by decide
  have htexts : expandBraces ((some ["**/*"]).getD defaultExcluded) = .ok ["**/*".toList] := by
    rfl
  have hplace : absolute "/T/project" ".a.js" = "/T/project/.a.js" := by decide +kernel
  have hkept : dottedTree.Finds "/T/project" (literally ".a.js") (some ["**/*"]) true
      (absolute "/T/project" ".a.js") :=
    (finds_literally hplain htexts).mpr (by decide +kernel)
  rw [hplace] at hkept
  refine ⟨hkept, ?_⟩
  intro hfound
  have hnone := (finds_escaped hplain htexts dottedTree_hidden).mp hfound
  exact absurd hnone (by decide +kernel)

theorem dottedTree_below : dottedTree.FileBelow "/T/project" ["src", "b.js"] "/T/project/src/b.js" := by
  have hjoin : Path.join "/T/project" (Text.joinWith "/" ["src", "b.js"]) = "/T/project/src/b.js" := by
    decide +kernel
  rw [← hjoin]
  exact fileBelow_of_at? (by decide) rfl normal_project (by decide) (by simp) (by decide +kernel) rfl

theorem discover_literally_escaped_below :
    dottedTree.root.Plain ∧
      dottedTree.FileBelow "/T/project" ["src", "b.js"] "/T/project/src/b.js" ∧
      absolute "/T/project" "lib/../src//b.js" = "/T/project/src/b.js" ∧
      (dottedTree.Finds "/T/project" (literally "lib/../src//b.js") (some ["**/*"]) true
          "/T/project/src/b.js" ↔
        dottedTree.Finds "/T/project" (escapedFrom "/T/project" "/T/project/src/b.js")
          (some ["**/*"]) true "/T/project/src/b.js") := by
  have hplain : dottedTree.root.Plain := by decide
  have hpath : absolute "/T/project" "lib/../src//b.js" = "/T/project/src/b.js" := by decide +kernel
  exact ⟨hplain, dottedTree_below, hpath,
    (discover_literally_escaped hplain dottedTree_below hpath (some ["**/*"]) true).2.2.1
      (by decide)⟩

end Samples

end Files

end EdgeAudit

import EdgeAudit.Proofs.Discovery
import EdgeAudit.Proofs.Exclusion
import EdgeAudit.Proofs.ScanReturns
import Mathlib.Data.List.Sort

/-!
Which files are selected, said for each place alone: some path asks for it, no exception bars it and
no ignore file ignores it. What is asked for by several paths is therefore the union of what each
asks for, and more exceptions never bring a file back.
-/

namespace EdgeAudit

open Glob Ignore

namespace Glob

variable {patterns : List String} {texts : List (List Char)} {t : List Char}

def textsOf (pattern : String) : List (List Char) :=
  dropEmptyEnd (Braced.textsRow (braced pattern.toList))

theorem mem_expandBraces (h : expandBraces patterns = .ok texts) :
    t ∈ texts ↔ ∃ p ∈ patterns, t ∈ textsOf p := by
  simp only [expandBraces] at h
  split at h
  · cases h
  · cases h
    simp only [List.mem_eraseDups, List.mem_flatMap, List.mem_map, exists_exists_and_eq_and, textsOf]

theorem Bounded.sublist {patterns' : List String} (h : Bounded patterns')
    (hsub : patterns.Sublist patterns') : Bounded patterns := by
  refine Nat.le_trans ?_ h
  clear h
  induction hsub with
  | slnil => exact Nat.le_refl _
  | cons p _ ih =>
    rw [List.map_cons, List.sum_cons]
    omega
  | cons_cons p _ ih =>
    rw [List.map_cons, List.map_cons, List.sum_cons, List.sum_cons]
    omega

/-- An exception matches a path that a search comes upon; one that is not absolute matches no
absolute path. -/
def Bars (excluded : List String) (path : List Char) : Prop :=
  ∃ q ∈ excluded, ∃ t ∈ textsOf q, fits .matched t path = true ∧
    (t.head? = some '/' ∨ path.head? ≠ some '/')

def Refuses (excluded : List String) (path : List Char) : Prop :=
  ∃ q ∈ excluded, ∃ t ∈ textsOf q, fits .plain t path = true

theorem Bars.mono {excluded excluded' : List String} {path : List Char} (h : Bars excluded path)
    (hsub : excluded ⊆ excluded') : Bars excluded' path := by
  obtain ⟨q, hq, hrest⟩ := h
  exact ⟨q, hsub hq, hrest⟩

theorem Refuses.mono {excluded excluded' : List String} {path : List Char} (h : Refuses excluded path)
    (hsub : excluded ⊆ excluded') : Refuses excluded' path := by
  obtain ⟨q, hq, hrest⟩ := h
  exact ⟨q, hsub hq, hrest⟩

theorem matchesAny_eq_ok {path : String} {b : Bool} (h : matchesAny patterns path = .ok b) :
    b = true ↔ Refuses patterns path.toList := by
  obtain ⟨texts, htexts, hb⟩ := bind_eq_ok.mp h
  cases hb
  simp only [List.any_eq_true, mem_expandBraces htexts, Refuses]
  constructor
  · rintro ⟨t, ⟨q, hq, ht⟩, hfits⟩
    exact ⟨q, hq, t, ht, hfits⟩
  · rintro ⟨q, hq, t, ht, hfits⟩
    exact ⟨t, ⟨q, hq, ht⟩, hfits⟩

end Glob

namespace Files

variable {f : Files} {cwd place : String} {w : Wanted} {excluded : Option (List String)}
  {patterns exceptions found : List String}

def FoundBy (f : Files) (cwd : String) (exceptions : List String) (pattern place : String) : Prop :=
  ∃ t ∈ textsOf pattern, ∃ path ∈ f.searchPattern cwd t,
    Path.absolute cwd path = place ∧ ¬ Bars exceptions path.toList

def GivenBy (cwd : String) (exceptions : List String) (path place : String) : Prop :=
  Path.absolute cwd path = place ∧ ¬ Refuses exceptions (Path.relativeTo place cwd).toList

theorem mem_glob {path : String} (h : f.glob cwd patterns exceptions = .ok found) :
    path ∈ found ↔ (∃ p ∈ patterns, ∃ t ∈ textsOf p, path ∈ f.searchPattern cwd t) ∧
      ¬ Bars exceptions path.toList := by
  obtain ⟨texts, htexts, h⟩ := bind_eq_ok.mp h
  obtain ⟨out, hout, h⟩ := bind_eq_ok.mp h
  cases h
  have hbars : (out.any fun p => fits .matched p path.toList &&
      (p.head? == some '/' || path.toList.head? != some '/')) = true ↔ Bars exceptions path.toList := by
    simp only [List.any_eq_true, mem_expandBraces hout, Bars, Bool.and_eq_true, Bool.or_eq_true,
      beq_iff_eq, bne_iff_ne]
    constructor
    · rintro ⟨t, ⟨q, hq, ht⟩, hfits⟩
      exact ⟨q, hq, t, ht, hfits⟩
    · rintro ⟨q, hq, t, ht, hfits⟩
      exact ⟨t, ⟨q, hq, ht⟩, hfits⟩
  rw [List.mem_filter, ← hbars, List.mem_flatMap]
  simp only [mem_expandBraces htexts, Bool.not_eq_true', Bool.not_eq_true]
  refine and_congr_left' ?_
  constructor
  · rintro ⟨t, ⟨p, hp, ht⟩, hpath⟩
    exact ⟨p, hp, t, ht, hpath⟩
  · rintro ⟨p, hp, t, ht, hpath⟩
    exact ⟨t, ⟨p, hp, ht⟩, hpath⟩

theorem mem_foundByPatterns (h : f.foundByPatterns cwd patterns exceptions = .ok found) :
    place ∈ found ↔ ∃ p ∈ patterns, f.FoundBy cwd exceptions p place := by
  unfold foundByPatterns at h
  by_cases hnone : patterns = []
  · subst hnone
    cases h
    simp
  · rw [if_neg (by simpa using hnone)] at h
    obtain ⟨paths, hpaths, h⟩ := bind_eq_ok.mp h
    cases h
    simp only [List.mem_map, mem_glob hpaths, FoundBy]
    constructor
    · rintro ⟨path, ⟨⟨p, hp, t, ht, hpath⟩, hbars⟩, hplace⟩
      exact ⟨p, hp, t, ht, path, hpath, hplace, hbars⟩
    · rintro ⟨p, hp, t, ht, path, hpath, hplace, hbars⟩
      exact ⟨path, ⟨⟨p, hp, t, ht, hpath⟩, hbars⟩, hplace⟩

theorem mem_foundLiterally {files : List String} (h : foundLiterally cwd files exceptions = .ok found) :
    place ∈ found ↔ ∃ path ∈ files, GivenBy cwd exceptions path place := by
  obtain ⟨kept, hkept, h⟩ := bind_eq_ok.mp h
  cases h
  obtain ⟨g, hg, rfl⟩ := mapM_ok hkept
  have hone : ∀ path ∈ files, (g path = some place ↔ GivenBy cwd exceptions path place) := by
    intro path hpath
    obtain ⟨b, hb, hgiven⟩ := bind_eq_ok.mp (hg path hpath)
    have hrefuses := matchesAny_eq_ok hb
    unfold GivenBy
    cases b with
    | true =>
      rw [← Except.ok.inj hgiven]
      constructor
      · intro h
        cases h
      · rintro ⟨rfl, hnot⟩
        exact absurd (hrefuses.mp rfl) hnot
    | false =>
      rw [← Except.ok.inj hgiven, Option.some.injEq]
      constructor
      · rintro rfl
        exact ⟨rfl, fun hr => Bool.false_ne_true (hrefuses.mpr hr)⟩
      · exact fun h => h.1
  simp only [List.mem_filterMap, List.mem_map, id_eq]
  constructor
  · rintro ⟨_, ⟨path, hpath, rfl⟩, hplace⟩
    exact ⟨path, hpath, (hone path hpath).mp hplace⟩
  · rintro ⟨path, hpath, hgiven⟩
    exact ⟨_, ⟨path, hpath, rfl⟩, (hone path hpath).mpr hgiven⟩

def searched (w : Wanted) : List String :=
  if w.patterns.isEmpty && w.files.isEmpty then defaultIncluded else w.patterns

/-- A place that is asked for and not excepted. -/
def Asked (f : Files) (cwd : String) (w : Wanted) (exceptions : List String) (place : String) : Prop :=
  (∃ p ∈ searched w, f.FoundBy cwd exceptions p place) ∨
    ∃ path ∈ w.files, GivenBy cwd exceptions path place

theorem mem_candidates (h : f.candidates cwd w excluded = .ok found) :
    place ∈ found ↔ f.Asked cwd w (excluded.getD defaultExcluded) place := by
  obtain ⟨byPatterns, hpatterns, h⟩ := bind_eq_ok.mp h
  obtain ⟨literally, hfiles, h⟩ := bind_eq_ok.mp h
  cases h
  rw [List.mem_mergeSort, List.mem_eraseDups, List.mem_append, mem_foundByPatterns hpatterns,
    mem_foundLiterally hfiles]
  rfl

def Spares (f : Files) (cwd place : String) : Prop :=
  ∀ files notes, f.ignoreFiles cwd = .ok (files, notes) → ignoredBy files place = false

theorem mem_discover {notes : List LogLine} (h : f.discover cwd w excluded true = .ok (found, notes)) :
    place ∈ found ↔ f.Asked cwd w (excluded.getD defaultExcluded) place ∧ f.Spares cwd place := by
  obtain ⟨all, hall, h⟩ := bind_eq_ok.mp h
  rw [mapError_eq_ok] at hall
  rw [← mem_candidates hall]
  by_cases hnone : all = []
  · subst hnone
    cases h
    simp
  · rw [if_pos (by simpa using hnone)] at h
    obtain ⟨⟨files, notes'⟩, hfiles, h⟩ := bind_eq_ok.mp h
    rw [mapError_eq_ok] at hfiles
    cases h
    simp only [List.mem_filter, Bool.not_eq_true']
    refine and_congr_right' ⟨?_, fun h => h files _ hfiles⟩
    rintro hspared files' notes'' hfiles'
    cases hfiles.symm.trans hfiles'
    exact hspared

theorem Asked.antitone {exceptions' : List String} (h : f.Asked cwd w exceptions' place)
    (hsub : exceptions ⊆ exceptions') : f.Asked cwd w exceptions place := by
  rcases h with ⟨p, hp, t, ht, path, hpath, hplace, hbars⟩ | ⟨path, hpath, hplace, hrefuses⟩
  · exact .inl ⟨p, hp, t, ht, path, hpath, hplace, fun h => hbars (h.mono hsub)⟩
  · exact .inr ⟨path, hpath, hplace, fun h => hrefuses (h.mono hsub)⟩

section Paths

variable {raw : String} {paths : List String}

theorem wantedBy_ne {v : Wanted} (h : f.wantedBy cwd raw = .ok v) : v.patterns ≠ [] ∨ v.files ≠ [] := by
  obtain ⟨file, -, h⟩ := bind_eq_ok.mp h
  cases file with
  | true =>
    cases h
    simp
  | false =>
    obtain ⟨dir, -, h⟩ := bind_eq_ok.mp h
    cases dir with
    | true =>
      cases h
      simp [defaultIncluded]
    | false =>
      cases h
      simp

theorem searched_of_ne (h : w.patterns ≠ [] ∨ w.files ≠ []) : searched w = w.patterns := by
  refine if_neg ?_
  simpa [← not_and_or] using h

def AskedBy (f : Files) (cwd : String) (exceptions : List String) (raw place : String) : Prop :=
  ∃ v, f.wantedBy cwd raw = .ok v ∧ f.Asked cwd v exceptions place

theorem asked_paths (hne : paths ≠ []) (h : f.wanted cwd paths = .ok w) :
    f.Asked cwd w exceptions place ↔ ∃ raw ∈ paths, f.AskedBy cwd exceptions raw place := by
  obtain ⟨each, heach, h⟩ := bind_eq_ok.mp h
  cases h
  have : Inhabited Wanted := ⟨⟨[], []⟩⟩
  obtain ⟨g, hg, rfl⟩ := mapM_ok heach
  have hsearched : ∀ raw ∈ paths, searched (g raw) = (g raw).patterns :=
    fun raw hraw => searched_of_ne (wantedBy_ne (hg raw hraw))
  obtain ⟨first, hfirst⟩ := List.exists_mem_of_ne_nil paths hne
  have hall : searched ⟨(paths.map g).flatMap (·.patterns), (paths.map g).flatMap (·.files)⟩ =
      (paths.map g).flatMap (·.patterns) := by
    apply searched_of_ne
    rcases wantedBy_ne (hg first hfirst) with hsome | hsome
    · refine .inl fun hnone => hsome ?_
      exact List.flatMap_eq_nil_iff.mp hnone _ (List.mem_map_of_mem hfirst)
    · refine .inr fun hnone => hsome ?_
      exact List.flatMap_eq_nil_iff.mp hnone _ (List.mem_map_of_mem hfirst)
  have hone : ∀ raw ∈ paths,
      (f.AskedBy cwd exceptions raw place ↔ f.Asked cwd (g raw) exceptions place) := by
    intro raw hraw
    simp only [AskedBy, hg raw hraw, Except.ok.injEq, exists_eq_left']
  constructor
  · rintro (⟨p, hp, hfound⟩ | ⟨path, hpath, hgiven⟩)
    · rw [hall] at hp
      obtain ⟨_, hv, hp⟩ := List.mem_flatMap.mp hp
      obtain ⟨raw, hraw, rfl⟩ := List.mem_map.mp hv
      exact ⟨raw, hraw, (hone raw hraw).mpr (.inl ⟨p, (hsearched raw hraw).symm ▸ hp, hfound⟩)⟩
    · obtain ⟨_, hv, hpath⟩ := List.mem_flatMap.mp hpath
      obtain ⟨raw, hraw, rfl⟩ := List.mem_map.mp hv
      exact ⟨raw, hraw, (hone raw hraw).mpr (.inr ⟨path, hpath, hgiven⟩)⟩
  · rintro ⟨raw, hraw, hasked⟩
    have hv := List.mem_map_of_mem (f := g) hraw
    rcases (hone raw hraw).mp hasked with ⟨p, hp, hfound⟩ | ⟨path, hpath, hgiven⟩
    · rw [hsearched raw hraw] at hp
      exact .inl ⟨p, hall.symm ▸ List.mem_flatMap.mpr ⟨_, hv, hp⟩, hfound⟩
    · exact .inr ⟨path, List.mem_flatMap.mpr ⟨_, hv, hpath⟩, hgiven⟩

theorem wanted_sublist {paths' : List String} (hsub : paths.Sublist paths')
    (h : f.wanted cwd paths' = .ok w) :
    ∃ v, f.wanted cwd paths = .ok v ∧ v.patterns.Sublist w.patterns := by
  obtain ⟨each, heach, h⟩ := bind_eq_ok.mp h
  cases h
  have : Inhabited Wanted := ⟨⟨[], []⟩⟩
  obtain ⟨g, hg, rfl⟩ := mapM_ok heach
  obtain ⟨v, hv⟩ : ∃ v, f.wanted cwd paths = .ok v :=
    wanted_returns.mpr fun raw hraw => wantedBy_returns.mp ⟨_, hg raw (hsub.subset hraw)⟩
  refine ⟨v, hv, ?_⟩
  obtain ⟨each, heach, hv⟩ := bind_eq_ok.mp hv
  cases hv
  obtain ⟨g', hg', rfl⟩ := mapM_ok heach
  have hsame : paths.map g' = paths.map g :=
    List.map_congr_left fun raw hraw => Except.ok.inj ((hg' raw hraw).symm.trans (hg raw (hsub.subset hraw)))
  rw [hsame]
  exact (hsub.map g).flatMap _

end Paths

end Files

namespace Scanner

variable {s : Scanner} {f : Files} {paths paths' : List String} {found found' : List String}
  {notes notes' : List LogLine} {place : String}

theorem mem_discover_paths (hne : paths ≠ [])
    (h : ({ s with paths := paths } : Scanner).discover f = .ok (found, notes)) :
    place ∈ found ↔ (∃ raw ∈ paths, f.AskedBy s.cwd (s.config.excluded.getD defaultExcluded) raw place) ∧
      f.Spares s.cwd place := by
  obtain ⟨w, hw, h⟩ := bind_eq_ok.mp h
  rw [mapError_eq_ok, wanted, if_neg (by simpa using hne)] at hw
  rw [Files.mem_discover h, Files.asked_paths hne hw]

theorem discover_sublist (hne : paths ≠ []) (hsub : paths.Sublist paths')
    (h : ({ s with paths := paths' } : Scanner).discover f = .ok (found, notes)) :
    ∃ r, ({ s with paths := paths } : Scanner).discover f = .ok r := by
  have hne' : paths' ≠ [] := by
    rintro rfl
    exact hne (List.sublist_nil.mp hsub)
  obtain ⟨w, hw, all, hall, hlegible⟩ := discover_returns.mp ⟨_, h⟩
  have hgiven : f.wanted s.cwd paths' = .ok w := by
    rwa [wanted, if_neg (by simpa using hne')] at hw
  obtain ⟨v, hv, hpatterns⟩ := Files.wanted_sublist hsub hgiven
  obtain ⟨hbounded, hexcluded⟩ := Files.candidates_returns.mp ⟨all, hall⟩
  obtain ⟨few, hfew⟩ : ∃ few, f.candidates s.cwd v s.config.excluded = .ok few :=
    Files.candidates_returns.mpr ⟨hbounded.sublist hpatterns, hexcluded⟩
  refine discover_returns.mpr ⟨v, ?_, few, hfew, ?_⟩
  · rw [wanted, if_neg (by simpa using hne)]
    exact hv
  · intro hsome
    obtain ⟨place, hplace⟩ := List.exists_mem_of_ne_nil few hsome
    apply hlegible
    rw [Files.mem_candidates hfew, Files.asked_paths hne hv] at hplace
    obtain ⟨raw, hraw, hasked⟩ := hplace
    exact List.ne_nil_of_mem ((Files.mem_candidates hall).mpr
      ((Files.asked_paths hne' hgiven).mpr ⟨raw, hsub.subset hraw, hasked⟩))

theorem eq_of_same_places (h : found.Pairwise (· < ·)) (h' : found'.Pairwise (· < ·))
    (hsame : ∀ place, place ∈ found ↔ place ∈ found') : found = found' := by
  have : @Std.Antisymm String (· < ·) := ⟨fun a b hab hba => absurd hba (String.lt_asymm hab)⟩
  have : @Std.Irrefl String (· < ·) := ⟨String.lt_irrefl⟩
  exact h.eq_of_mem_iff h' hsame

/-- The files selected by two lists of paths together are the union of those selected by each, so that
order and repetition of paths do not matter; and more exceptions select no further file. -/
theorem discover_union (s : Scanner) (f : Files) :
    (∀ P Q found notes, P ≠ [] → Q ≠ [] →
      ({ s with paths := P ++ Q } : Scanner).discover f = .ok (found, notes) →
      ∃ left leftNotes right rightNotes,
        ({ s with paths := P } : Scanner).discover f = .ok (left, leftNotes) ∧
        ({ s with paths := Q } : Scanner).discover f = .ok (right, rightNotes) ∧
        found.Pairwise (· < ·) ∧ ∀ place, place ∈ found ↔ place ∈ left ∨ place ∈ right) ∧
    (∀ P P' found notes found' notes', P ≠ [] → (∀ raw, raw ∈ P ↔ raw ∈ P') →
      ({ s with paths := P } : Scanner).discover f = .ok (found, notes) →
      ({ s with paths := P' } : Scanner).discover f = .ok (found', notes') → found = found') ∧
    ∀ E E' found notes found' notes', E ⊆ E' →
      ({ s with config.excluded := some E } : Scanner).discover f = .ok (found, notes) →
      ({ s with config.excluded := some E' } : Scanner).discover f = .ok (found', notes') →
      found' ⊆ found := by
  refine ⟨?_, ?_, ?_⟩
  · intro P Q found notes hP hQ h
    obtain ⟨⟨left, leftNotes⟩, hleft⟩ := discover_sublist hP (List.sublist_append_left P Q) h
    obtain ⟨⟨right, rightNotes⟩, hright⟩ := discover_sublist hQ (List.sublist_append_right P Q) h
    refine ⟨left, leftNotes, right, rightNotes, hleft, hright, discover_sorted h, ?_⟩
    intro place
    rw [mem_discover_paths (by simp [hP]) h, mem_discover_paths hP hleft, mem_discover_paths hQ hright,
      ← or_and_right]
    simp only [List.mem_append, or_and_right, exists_or]
  · intro P P' found notes found' notes' hP hsame h h'
    have hP' : P' ≠ [] := by
      obtain ⟨raw, hraw⟩ := List.exists_mem_of_ne_nil P hP
      exact List.ne_nil_of_mem ((hsame raw).mp hraw)
    apply eq_of_same_places (discover_sorted h) (discover_sorted h')
    intro place
    simp only [mem_discover_paths hP h, mem_discover_paths hP' h', hsame]
  · intro E E' found notes found' notes' hsub h h' place hplace
    obtain ⟨w, hw, h⟩ := bind_eq_ok.mp h
    obtain ⟨w', hw', h'⟩ := bind_eq_ok.mp h'
    obtain rfl : w = w' := by
      rw [mapError_eq_ok] at hw hw'
      exact Except.ok.inj (hw.symm.trans hw')
    obtain ⟨hasked, hspared⟩ := (Files.mem_discover h').mp hplace
    exact (Files.mem_discover h).mpr ⟨hasked.antitone hsub, hspared⟩

section Samples

open Files

theorem dottedTree_wantedBy :
    dottedTree.wantedBy "/T/project" "src" = .ok ⟨defaultIncluded.map ("src/" ++ ·), []⟩ ∧
      dottedTree.wantedBy "/T/project" ".a.js" = .ok ⟨[], ["/T/project/.a.js"]⟩ ∧
      dottedTree.wantedBy "/T/project" "*.js" = .ok ⟨["*.js"], []⟩ := by
  have hpaths : Path.tidy (Path.join "/T/project" "src") = "/T/project/src" ∧
      Path.tidy (Path.join "/T/project" ".a.js") = "/T/project/.a.js" ∧
      Path.tidy (Path.join "/T/project" "*.js") = "/T/project/*.js" := by decide +kernel
  have hparts : Path.parts "/T/project/src" = ["T", "project", "src"] ∧
      Path.parts "/T/project/.a.js" = ["T", "project", ".a.js"] ∧
      Path.parts "/T/project/*.js" = ["T", "project", "*.js"] := by decide +kernel
  have hshort : ∀ n ∈ ["T", "project", "src", ".a.js", "*.js"], ¬ maxNameBytes < n.utf8ByteSize := by
    decide +kernel
  have hwhole : ¬ maxPathBytes < "/T/project/src".utf8ByteSize ∧
      ¬ maxPathBytes < "/T/project/.a.js".utf8ByteSize ∧ ¬ maxPathBytes < "/T/project/*.js".utf8ByteSize := by
    decide +kernel
  have hrelative : Path.relativeTo "/T/project/src" "/T/project" = "src" ∧
      escape (Path.tidy "src") ++ "/" = "src/" := by decide +kernel
  simp [wantedBy, isFile, isDir, test, find, hpaths, hparts, hrelative, hshort, hwhole, dottedTree, Entry.walk,
    Entry.at?, Entry.child?, assocGet?, bind, Except.bind, pure, Except.pure]

def mixed (paths exceptions : List String) : Scanner :=
  { cwd := "/T/project", paths := paths, config := { excluded := some exceptions } }

theorem mixed_returns {paths exceptions : List String} {w : Wanted} (hne : paths ≠ [])
    (hw : dottedTree.wanted "/T/project" paths = .ok w) (hpatterns : Bounded w.patterns)
    (hexceptions : Bounded exceptions) : ∃ r, (mixed paths exceptions).discover dottedTree = .ok r := by
  obtain ⟨all, hall⟩ : ∃ all, dottedTree.candidates "/T/project" w (some exceptions) = .ok all :=
    candidates_returns.mpr ⟨hpatterns, hexceptions⟩
  have hplain : dottedTree.root.Plain := by decide
  have hnone : dottedTree.ignoreFiles "/T/project" = .ok ([], []) := ignoreFiles_plain hplain
  refine discover_returns.mpr ⟨w, ?_, all, hall, fun _ => (ignoreFilesOf_returns []).mp ⟨_, hnone⟩⟩
  rwa [mixed, wanted, if_neg (by simpa using hne)]

theorem discover_union_mixed : ∃ found notes left leftNotes right rightNotes again againNotes fewer fewerNotes,
    (mixed (["src"] ++ [".a.js", "*.js"]) []).discover dottedTree = .ok (found, notes) ∧
    (mixed ["src"] []).discover dottedTree = .ok (left, leftNotes) ∧
    (mixed [".a.js", "*.js"] []).discover dottedTree = .ok (right, rightNotes) ∧
    (mixed ["*.js", ".a.js", "src", ".a.js"] []).discover dottedTree = .ok (again, againNotes) ∧
    (mixed ["src", ".a.js", "*.js"] ["**/*.js"]).discover dottedTree = .ok (fewer, fewerNotes) ∧
    "/T/project/.a.js" ∈ found ∧ found.Pairwise (· < ·) ∧
    (∀ place, place ∈ found ↔ place ∈ left ∨ place ∈ right) ∧ found = again ∧ fewer ⊆ found := by
  obtain ⟨hdir, hfile, hglob⟩ := dottedTree_wantedBy
  have hw : dottedTree.wanted "/T/project" ["src", ".a.js", "*.js"] =
      .ok ⟨defaultIncluded.map ("src/" ++ ·) ++ ["*.js"], ["/T/project/.a.js"]⟩ := by
    simp [Files.wanted, hdir, hfile, hglob, bind, Except.bind, pure, Except.pure]
  have hw' : dottedTree.wanted "/T/project" ["*.js", ".a.js", "src", ".a.js"] =
      .ok ⟨"*.js" :: defaultIncluded.map ("src/" ++ ·), ["/T/project/.a.js", "/T/project/.a.js"]⟩ := by
    simp [Files.wanted, hdir, hfile, hglob, bind, Except.bind, pure, Except.pure]
  have hexceptions : Bounded ["**/*.js"] := by decide +kernel
  obtain ⟨⟨found, notes⟩, hfound⟩ := mixed_returns (by simp) hw (by decide +kernel) bounded_nil
  obtain ⟨⟨again, againNotes⟩, hagain⟩ := mixed_returns (by simp) hw' (by decide +kernel) bounded_nil
  obtain ⟨⟨fewer, fewerNotes⟩, hfewer⟩ := mixed_returns (by simp) hw (by decide +kernel) hexceptions
  obtain ⟨hunion, hsame, hless⟩ := discover_union (mixed ["src", ".a.js", "*.js"] []) dottedTree
  obtain ⟨left, leftNotes, right, rightNotes, hleft, hright, hsorted, hmem⟩ :=
    hunion ["src"] [".a.js", "*.js"] found notes (by simp) (by simp) hfound
  refine ⟨found, notes, left, leftNotes, right, rightNotes, again, againNotes, fewer, fewerNotes, hfound, hleft,
    hright, hagain, hfewer, ?_, hsorted, hmem, ?_, ?_⟩
  · rw [mem_discover_paths (s := mixed [] []) (by simp) hfound]
    refine ⟨⟨".a.js", by simp, _, hfile, .inr ⟨"/T/project/.a.js", by simp, ?_⟩⟩, ?_⟩
    · exact ⟨by decide +kernel, by simp [mixed, Refuses]⟩
    · intro files notes hfiles
      cases (ignoreFiles_plain (by decide)).symm.trans hfiles
      rfl
  · refine hsame _ _ _ _ _ _ (by simp) ?_ hfound hagain
    intro raw
    simp only [List.mem_cons, List.not_mem_nil, or_false]
    tauto
  · exact hless [] ["**/*.js"] _ _ _ _ (by simp) hfound hfewer

end Samples

end Scanner

end EdgeAudit

import EdgeAudit.Proofs.AddedFile
import EdgeAudit.Proofs.IgnoreRules
import EdgeAudit.Proofs.SelectedFiles

/-!
An ignore file is local: one that is added to a directory only removes selected files at and below that
directory, and below a pruned name it does nothing. This holds as long as no link that was there leads
to or through the new file.
-/

namespace EdgeAudit

open EdgeAudit.Path Ignore Text

namespace Path

variable {names : List String}

theorem parts_foldl_join (base : String) (h : ∀ n ∈ names, IsName n) :
    parts (names.foldl join base) = parts base ++ names := by
  induction names generalizing base with
  | nil => simp
  | cons m names ih =>
    rw [List.forall_mem_cons] at h
    rw [List.foldl_cons, ih (join base m) h.2, parts_join h.1.isAbsolute, h.1.parts, List.append_assoc]
    rfl

end Path

namespace Files

variable {f f' : Files} {cwd base place path : String} {dir ws : List String} {bytes : ByteArray}
  {mtime : Int} {w : Wanted} {exceptions : List String} {text : List Char} {i : IgnoreFile}
  {files files' : List IgnoreFile} {notes notes' : List LogLine}

def lenientText (bytes : ByteArray) : List Char :=
  unifyLineEnds (decodeUtf8Leniently bytes.toList)

theorem readLenient_eq_ok : f.readLenient path = .ok text ↔
    ∃ way bytes mtime, f.find path = .ok (way, .file bytes mtime) ∧ lenientText bytes = text := by
  unfold readLenient readBytes
  constructor
  · intro h
    obtain ⟨bytes, hbytes, h⟩ := bind_eq_ok.mp h
    cases h
    split at hbytes
    · cases hbytes
    · rename_i way bytes' mtime hfind
      cases hbytes
      exact ⟨way, bytes, mtime, hfind, rfl⟩
    · cases hbytes
  · rintro ⟨way, bytes, mtime, hfind, rfl⟩
    rw [hfind]
    rfl

def IgnoreFileAt (f : Files) (cwd : String) (ws : List String) : Prop :=
  ∃ way e, f.find cwd = .ok (way, e) ∧ f.root.HasIgnoreFile way e ws

theorem mem_ignoreBases_iff (hproper : f.root.Proper) :
    base ∈ f.ignoreBases cwd ↔ ∃ ws, f.IgnoreFileAt cwd ws ∧ base = ws.foldl Path.join cwd := by
  unfold ignoreBases IgnoreFileAt
  cases hfind : f.find cwd with
  | error fault => simp
  | ok found =>
    obtain ⟨way, e⟩ := found
    have he := Entry.everyDir_at? hproper (Entry.walk_at? hfind)
    simp only [Entry.mem_ignoreBases _ _ _ _ e he, Except.ok.injEq, Prod.mk.injEq]
    refine exists_congr fun ws => and_congr_left' ?_
    constructor
    · intro hws
      exact ⟨way, e, ⟨rfl, rfl⟩, hws⟩
    · rintro ⟨_, _, ⟨rfl, rfl⟩, hws⟩
      exact hws

def Holds (f : Files) (cwd : String) (ws place : List String) : Prop :=
  ∃ way e, f.find cwd = .ok (way, e) ∧ place = way ++ ws

/-- The second tree has one ignore file more. No ignore file that was searched for leads to it, and no
link that led nowhere leads through it. -/
structure GainsIgnoreFile (f f' : Files) (cwd : String) (dir : List String) (bytes : ByteArray)
    (mtime : Int) : Prop where
  gains : Entry.Gains f.root f'.root dir fileName bytes mtime
  apart : ∀ base ∈ f.ignoreBases cwd, ∀ e,
    f'.find (Path.join base fileName) ≠ .ok (dir ++ [fileName], e)
  through : Entry.NoneThrough f.root f'.root

namespace GainsIgnoreFile

variable (h : f.GainsIgnoreFile f' cwd dir bytes mtime)

include h

theorem asked_mono (ha : f.Asked cwd w exceptions place) : f'.Asked cwd w exceptions place := by
  rcases ha with ⟨p, hp, t, ht, path, hpath, hrest⟩ | hgiven
  · exact .inl ⟨p, hp, t, ht, path, (mem_search h.gains h.through _ _).1 hpath, hrest⟩
  · exact .inr hgiven

theorem asked_cases (ha : f'.Asked cwd w exceptions place) : f.Asked cwd w exceptions place ∨
    ∃ path, Path.absolute cwd path = place ∧
      f'.PathLeads (Path.join cwd path) (dir ++ [fileName]) := by
  rcases ha with ⟨p, hp, t, ht, path, hpath, hplace, hbars⟩ | hgiven
  · rcases (mem_search h.gains h.through _ _).2 hpath with hold | hnew
    · exact .inl (.inl ⟨p, hp, t, ht, path, hold, hplace, hbars⟩)
    · exact .inr ⟨path, hplace, hnew⟩
  · exact .inl (.inr hgiven)

theorem ignoreFileAt_mono (hws : f.IgnoreFileAt cwd ws) : f'.IgnoreFileAt cwd ws := by
  obtain ⟨way, e, hfind, hhas⟩ := hws
  obtain ⟨entries, rfl⟩ := hhas.isDir
  obtain ⟨hpruned, x, hx, hdir⟩ := hhas
  obtain ⟨entries', x', hfind', hx', hold, hkept⟩ := below_mono h.gains hfind hx
  rw [← List.append_assoc] at hold
  refine ⟨way, _, hfind', hpruned, x', hx', ?_⟩
  rw [h.gains.leadsToDir? h.through hold hkept]
  exact hdir

theorem ignoreFileAt_cases (hws : f'.IgnoreFileAt cwd ws) :
    f.IgnoreFileAt cwd ws ∨ f.Holds cwd ws dir ∧ ∀ n ∈ ws, n ∉ prunedNames := by
  obtain ⟨way, e', hfind', hhas⟩ := hws
  obtain ⟨entries', rfl⟩ := hhas.isDir
  obtain ⟨hpruned, x', hx', hdir⟩ := hhas
  rcases below_cases h.gains hfind' hx' with ⟨hnew, -⟩ | ⟨entries, x, hfind, hx, hold, hkept⟩
  · right
    rw [← List.append_assoc] at hnew
    obtain ⟨hway, -⟩ := List.append_inj' hnew rfl
    have hroot : (Entry.dir entries').at? [] = some (.dir entries') := rfl
    rcases below_cases h.gains hfind' hroot with ⟨-, hfile⟩ | ⟨entries, -, hfind, -⟩
    · cases hfile
    · exact ⟨⟨way, _, hfind, hway.symm⟩, hpruned⟩
  · left
    rw [← List.append_assoc] at hold
    rw [h.gains.leadsToDir? h.through hold hkept] at hdir
    exact ⟨way, _, hfind, hpruned, x, hx, hdir⟩

theorem readLenient_old (hbase : base ∈ f.ignoreBases cwd) :
    f'.readLenient (Path.join base fileName) = .ok text ↔
      f.readLenient (Path.join base fileName) = .ok text := by
  have hends := h.gains.walk maxLinks [] (parts (Path.join base fileName))
  change Entry.Ends _ _ (f.find _) (f'.find _) at hends
  have hapart := h.apart base hbase
  rw [readLenient_eq_ok, readLenient_eq_ok]
  generalize hold : f.find (Path.join base fileName) = o at hends
  generalize hnew : f'.find (Path.join base fileName) = o' at hends hapart
  cases hends with
  | lost => simp
  | past => simp
  | file => exact absurd rfl (hapart _)
  | @found way e e' =>
    have hat := Entry.walk_at? hold
    have hkept := h.gains.kept way (h.gains.ne_of_at? hat)
    rw [hat, Entry.walk_at? hnew] at hkept
    cases hkept <;> simp

theorem legible_old (hbase : base ∈ f.ignoreBases cwd) : f'.Legible base ↔ f.Legible base := by
  unfold Legible
  simp only [h.readLenient_old hbase]

theorem readLenient_new (hws : f.Holds cwd ws dir)
    (hread : f'.readLenient (Path.join (ws.foldl Path.join cwd) fileName) = .ok text) :
    text = lenientText bytes := by
  obtain ⟨way, e, hfind, rfl⟩ := hws
  obtain ⟨e', hfind'⟩ := find_mono h.gains hfind
  obtain ⟨way', bytes', mtime', hfound, rfl⟩ := readLenient_eq_ok.mp hread
  have hfile : f'.root.at? (way ++ (ws ++ [fileName])) = some (.file bytes mtime) := by
    rw [← List.append_assoc]
    exact h.gains.file
  have hnames : ∀ n ∈ ws ++ [fileName], IsName n :=
    fun n hn => (h.gains.proper'.names hfile n (List.mem_append_right way hn)).2
  have hparts := parts_foldl_join cwd hnames
  rw [List.foldl_append, List.foldl_cons, List.foldl_nil] at hparts
  have hleads := pathLeads_below h.gains.proper' hfind' hfile (by simp) hparts
  cases hleads.unique (pathLeads_of_find hfound)
  cases hfile.symm.trans (Entry.walk_at? hfound)
  rfl

theorem legible_new {patterns : List IgnorePattern} (hwell : patternsOf (lenientText bytes) = .ok patterns)
    (hws : f.Holds cwd ws dir) : f'.Legible (ws.foldl Path.join cwd) := by
  intro text htext
  rw [h.readLenient_new hws htext, ← mapM_returns]
  exact bind_pure_returns.mp ⟨patterns, hwell⟩

theorem legible_iff {patterns : List IgnorePattern} (hwell : patternsOf (lenientText bytes) = .ok patterns) :
    (∀ base ∈ f'.ignoreBases cwd, f'.Legible base) ↔ ∀ base ∈ f.ignoreBases cwd, f.Legible base := by
  constructor
  · intro hall base hbase
    obtain ⟨ws, hws, rfl⟩ := (mem_ignoreBases_iff h.gains.proper).mp hbase
    refine (h.legible_old hbase).mp (hall _ ?_)
    exact (mem_ignoreBases_iff h.gains.proper').mpr ⟨ws, h.ignoreFileAt_mono hws, rfl⟩
  · intro hall base hbase
    obtain ⟨ws, hws, rfl⟩ := (mem_ignoreBases_iff h.gains.proper').mp hbase
    rcases h.ignoreFileAt_cases hws with hold | ⟨hnew, -⟩
    · have hbase' := (mem_ignoreBases_iff h.gains.proper).mpr ⟨ws, hold, rfl⟩
      exact (h.legible_old hbase').mpr (hall _ hbase')
    · exact h.legible_new hwell hnew

theorem mem_ignoreFiles_mono (hfiles : f.ignoreFiles cwd = .ok (files, notes))
    (hfiles' : f'.ignoreFiles cwd = .ok (files', notes')) (hi : i ∈ files) : i ∈ files' := by
  obtain ⟨hbase, hfile⟩ := (mem_ignoreFilesOf hfiles).mp hi
  obtain ⟨ws, hws, hshown⟩ := (mem_ignoreBases_iff h.gains.proper).mp hbase
  obtain ⟨-, text, hread, hpatterns⟩ := ignoreFile_eq_ok.mp hfile
  refine (mem_ignoreFilesOf hfiles').mpr ⟨?_, ?_⟩
  · exact (mem_ignoreBases_iff h.gains.proper').mpr ⟨ws, h.ignoreFileAt_mono hws, hshown⟩
  · exact ignoreFile_eq_ok.mpr ⟨rfl, text, (h.readLenient_old hbase).mpr hread, hpatterns⟩

theorem mem_ignoreFiles_cases (hfiles : f.ignoreFiles cwd = .ok (files, notes))
    (hfiles' : f'.ignoreFiles cwd = .ok (files', notes')) (hi : i ∈ files') : i ∈ files ∨
      ∃ ws, i.base = ws.foldl Path.join cwd ∧ f.Holds cwd ws dir ∧ ∀ n ∈ ws, n ∉ prunedNames := by
  obtain ⟨hbase, hfile⟩ := (mem_ignoreFilesOf hfiles').mp hi
  obtain ⟨ws, hws, hshown⟩ := (mem_ignoreBases_iff h.gains.proper').mp hbase
  obtain ⟨-, text, hread, hpatterns⟩ := ignoreFile_eq_ok.mp hfile
  rcases h.ignoreFileAt_cases hws with hold | hnew
  · have hbase' := (mem_ignoreBases_iff h.gains.proper).mpr ⟨ws, hold, hshown⟩
    left
    refine (mem_ignoreFilesOf hfiles).mpr ⟨hbase', ?_⟩
    exact ignoreFile_eq_ok.mpr ⟨rfl, text, (h.readLenient_old hbase').mp hread, hpatterns⟩
  · exact .inr ⟨ws, hshown, hnew⟩

end GainsIgnoreFile

theorem parts_of_ignores (hi : i.ignores place = true) : parts i.base <+: parts place := by
  unfold IgnoreFile.ignores at hi
  split at hi
  · cases hi
  · split at hi
    · cases hi
    all_goals
      rename_i hafter
      exact ⟨_, (after?_eq_some.mp hafter).symm⟩

section Discovery

variable {excluded : Option (List String)} {patterns : List IgnorePattern} {found found' : List String}

theorem ignoreFiles_of_mem (h : f.discover cwd w excluded true = .ok (found, notes))
    (hplace : place ∈ found) : ∃ files notes, f.ignoreFiles cwd = .ok (files, notes) := by
  obtain ⟨all, hall, hlegible⟩ := discover_returns.mp ⟨_, h⟩
  have hasked := ((mem_discover h).mp hplace).1
  have hsome := List.ne_nil_of_mem ((mem_candidates hall).mpr hasked)
  obtain ⟨⟨files, notes⟩, hfiles⟩ := (ignoreFilesOf_returns []).mpr (hlegible hsome)
  exact ⟨files, notes, hfiles⟩

def ReachedAt (f : Files) (cwd : String) (way : List String) (place : String) : Prop :=
  ∃ path, Path.absolute cwd path = place ∧ f.PathLeads (Path.join cwd path) way

/-- The place is that of a directory or has more names, and only then may be a file. -/
def AtOrBelow (f : Files) (place base : String) : Prop :=
  ∃ rest, parts place = parts base ++ rest ∧
    (rest = [] → ∀ way bytes mtime, f.find place ≠ .ok (way, .file bytes mtime))

theorem atOrBelow_of_parts (hproper : f.root.Proper) {entries : List (String × Entry)}
    (hdir : f.root.at? dir = some (.dir entries)) (hws : f.Holds cwd ws dir)
    (hparts : parts (ws.foldl Path.join cwd) <+: parts place) :
    f.AtOrBelow place (ws.foldl Path.join cwd) := by
  obtain ⟨rest, hrest⟩ := hparts
  refine ⟨rest, hrest.symm, ?_⟩
  rintro rfl way bytes mtime hfile
  obtain ⟨start, e, hfind, rfl⟩ := hws
  have hnames : ∀ n ∈ ws, IsName n :=
    fun n hn => (hproper.names hdir n (List.mem_append_right start hn)).2
  have hplace : parts place = parts cwd ++ ws := by
    rw [← hrest, List.append_nil, parts_foldl_join cwd hnames]
  have hleads := pathLeads_below hproper hfind hdir (by simp) hplace
  cases hleads.unique (pathLeads_of_find hfile)
  cases hdir.symm.trans (Entry.walk_at? hfile)

namespace GainsIgnoreFile

variable (h : f.GainsIgnoreFile f' cwd dir bytes mtime)

include h

theorem returns_before (hwell : patternsOf (lenientText bytes) = .ok patterns)
    (hreturns : ∃ r, f'.discover cwd w excluded true = .ok r) :
    ∃ r, f.discover cwd w excluded true = .ok r := by
  obtain ⟨all', hall', hlegible⟩ := discover_returns.mp hreturns
  obtain ⟨all, hall⟩ := candidates_returns.mpr (candidates_returns.mp ⟨all', hall'⟩)
  refine discover_returns.mpr ⟨all, hall, fun hsome => (h.legible_iff hwell).mp (hlegible ?_)⟩
  obtain ⟨place, hplace⟩ := List.exists_mem_of_ne_nil all hsome
  have hasked := h.asked_mono ((mem_candidates hall).mp hplace)
  exact List.ne_nil_of_mem ((mem_candidates hall').mpr hasked)

theorem returns_after (hwell : patternsOf (lenientText bytes) = .ok patterns)
    (hlegible : ∀ base ∈ f.ignoreBases cwd, f.Legible base)
    (hreturns : ∃ r, f.discover cwd w excluded true = .ok r) :
    ∃ r, f'.discover cwd w excluded true = .ok r := by
  obtain ⟨all, hall, -⟩ := discover_returns.mp hreturns
  obtain ⟨all', hall'⟩ := candidates_returns.mpr (candidates_returns.mp ⟨all, hall⟩)
  exact discover_returns.mpr ⟨all', hall', fun _ => (h.legible_iff hwell).mpr hlegible⟩

theorem mem_found_cases (hfound : f.discover cwd w excluded true = .ok (found, notes))
    (hfound' : f'.discover cwd w excluded true = .ok (found', notes')) (hplace : place ∈ found') :
    place ∈ found ∨ f'.ReachedAt cwd (dir ++ [fileName]) place := by
  obtain ⟨hasked', hspared⟩ := (mem_discover hfound').mp hplace
  rcases h.asked_cases hasked' with hasked | hnew
  · left
    refine (mem_discover hfound).mpr ⟨hasked, ?_⟩
    intro files notes hfiles
    obtain ⟨files', notes', hfiles'⟩ := ignoreFiles_of_mem hfound' hplace
    have hall := hspared files' notes' hfiles'
    rw [ignoredBy, List.any_eq_false] at hall ⊢
    exact fun i hi => hall i (h.mem_ignoreFiles_mono hfiles hfiles' hi)
  · exact .inr hnew

theorem mem_found_lost (hfound : f.discover cwd w excluded true = .ok (found, notes))
    (hfound' : f'.discover cwd w excluded true = .ok (found', notes')) (hplace : place ∈ found)
    (hlost : place ∉ found') : ∃ ws, f.Holds cwd ws dir ∧ (∀ n ∈ ws, n ∉ prunedNames) ∧
      parts (ws.foldl Path.join cwd) <+: parts place := by
  obtain ⟨hasked, hspared⟩ := (mem_discover hfound).mp hplace
  obtain ⟨files, notes, hfiles⟩ := ignoreFiles_of_mem hfound hplace
  have hnot : ¬ f'.Spares cwd place :=
    fun hspared' => hlost ((mem_discover hfound').mpr ⟨h.asked_mono hasked, hspared'⟩)
  simp only [Spares, not_forall, Bool.not_eq_false] at hnot
  obtain ⟨files', notes', hfiles', hignored⟩ := hnot
  obtain ⟨i, hi, hignores⟩ := List.any_eq_true.mp hignored
  rcases h.mem_ignoreFiles_cases hfiles hfiles' hi with hold | ⟨ws, hbase, hholds, hpruned⟩
  · have hkept := List.any_eq_false.mp (hspared files notes hfiles) i hold
    exact absurd hignores hkept
  · refine ⟨ws, hholds, hpruned, ?_⟩
    rw [← hbase]
    exact parts_of_ignores hignores

end GainsIgnoreFile

def addIgnoreFile (f : Files) (dir : List String) (bytes : ByteArray) (mtime : Int) : Files :=
  ⟨f.root.put (.file bytes mtime) (dir ++ [fileName])⟩

/-- A new ignore file that can be read, and that no link found before leads to or through, takes files at
or below its directory from the selection. It adds none but itself, leaves all others, and takes
none if its directory is at or below a pruned name. -/
theorem discover_ignore_local {entries : List (String × Entry)} (hproper : f.root.Proper)
    (hdir : f.root.at? dir = some (.dir entries)) (hfresh : f.root.at? (dir ++ [fileName]) = none)
    (hwell : patternsOf (lenientText bytes) = .ok patterns)
    (hapart : ∀ base ∈ f.ignoreBases cwd, ∀ e,
      (f.addIgnoreFile dir bytes mtime).find (Path.join base fileName) ≠ .ok (dir ++ [fileName], e))
    (hthrough : Entry.NoneThrough f.root (f.addIgnoreFile dir bytes mtime).root)
    (w : Wanted) (excluded : Option (List String)) :
    ((∃ r, (f.addIgnoreFile dir bytes mtime).discover cwd w excluded true = .ok r) →
      ∃ r, f.discover cwd w excluded true = .ok r) ∧
    ((∀ base ∈ f.ignoreBases cwd, f.Legible base) → (∃ r, f.discover cwd w excluded true = .ok r) →
      ∃ r, (f.addIgnoreFile dir bytes mtime).discover cwd w excluded true = .ok r) ∧
    ∀ found notes found' notes', f.discover cwd w excluded true = .ok (found, notes) →
      (f.addIgnoreFile dir bytes mtime).discover cwd w excluded true = .ok (found', notes') →
      (∀ place ∈ found', place ∈ found ∨
        (f.addIgnoreFile dir bytes mtime).ReachedAt cwd (dir ++ [fileName]) place) ∧
      (∀ place ∈ found, place ∉ found' →
        ∃ ws, f.Holds cwd ws dir ∧ f.AtOrBelow place (ws.foldl Path.join cwd)) ∧
      ∀ ws n, f.Holds cwd ws dir → n ∈ ws → n ∈ prunedNames → found ⊆ found' := by
  have hname : IsOrdinary fileName ∧ IsName fileName := by decide
  have h : f.GainsIgnoreFile (f.addIgnoreFile dir bytes mtime) cwd dir bytes mtime :=
    ⟨Entry.gains_put hproper hname hdir hfresh bytes mtime, hapart, hthrough⟩
  refine ⟨h.returns_before hwell, h.returns_after hwell, ?_⟩
  intro found notes found' notes' hfound hfound'
  refine ⟨fun place => h.mem_found_cases hfound hfound', ?_, ?_⟩
  · intro place hplace hlost
    obtain ⟨ws, hholds, -, hparts⟩ := h.mem_found_lost hfound hfound' hplace hlost
    exact ⟨ws, hholds, atOrBelow_of_parts hproper hdir hholds hparts⟩
  · intro ws n hholds hn hpruned place hplace
    by_contra hlost
    obtain ⟨ws', ⟨way', e', hfind', hdir'⟩, hfree, -⟩ := h.mem_found_lost hfound hfound' hplace hlost
    obtain ⟨way, e, hfind, rfl⟩ := hholds
    cases hfind.symm.trans hfind'
    rw [List.append_cancel_left hdir'] at hn
    exact hfree n hn hpruned

section Samples

def scriptsBytes : ByteArray :=
  ⟨#[42, 46, 106, 115, 10]⟩

theorem lenientText_scripts : lenientText scriptsBytes = "*.js\n".toList := by
  decide +kernel

theorem patternsOf_scripts : patternsOf (lenientText scriptsBytes) = .ok [scripts] := by
  rw [lenientText_scripts]
  rfl

theorem ignoreFile_scripts (hread : f.readBytes (Path.join base fileName) = .ok scriptsBytes) :
    f.ignoreFile base = .ok (.ok ⟨base, [scripts]⟩) := by
  rw [ignoreFile_eq_ok]
  refine ⟨rfl, lenientText scriptsBytes, ?_, patternsOf_scripts⟩
  rw [readLenient, hread]
  rfl

theorem dottedTree_candidates (f : Files) :
    f.candidates "/T/project" ⟨[], ["src/b.js"]⟩ none = .ok ["/T/project/src/b.js"] := by
  have hliterally : foundLiterally "/T/project" ["src/b.js"] defaultExcluded =
      .ok ["/T/project/src/b.js"] := by decide +kernel
  have honce : (["/T/project/src/b.js"] : List String).eraseDups = ["/T/project/src/b.js"] := by
    decide +kernel
  simp [candidates, foundByPatterns, hliterally, honce, bind, Except.bind, pure, Except.pure]

theorem dottedTree_added : (dottedTree.addIgnoreFile ["T", "project", "src"] scriptsBytes 0).discover
    "/T/project" ⟨[], ["src/b.js"]⟩ none true = .ok ([], []) := by
  have hadded : dottedTree.addIgnoreFile ["T", "project", "src"] scriptsBytes 0 =
      ⟨.dir [("T", .dir [("project", .dir [(".a.js", .file .empty 0), ("src", .dir
        [("b.js", .file .empty 0), (".gitignore", .file scriptsBytes 0)])])])]⟩ := by
    rfl
  have hpaths : Path.join "/T/project" "src" = "/T/project/src" ∧
      Path.join "/T/project/src" fileName = "/T/project/src/.gitignore" := by decide
  have hparts : parts "/T/project" = ["T", "project"] ∧
      parts "/T/project/src/.gitignore" = ["T", "project", "src", ".gitignore"] := by decide
  have hshort : ∀ n ∈ ["T", "project", "src", ".gitignore"], ¬ maxNameBytes < n.utf8ByteSize := by
    decide
  have hsort : ∀ a b : List String, ([(".a.js", a), ("src", b)] : List (String × List String)).mergeSort
      (fun a b => a.1 ≤ b.1) = [(".a.js", a), ("src", b)] :=
    fun a b => List.mergeSort_of_pairwise (by simp)
  have hbases : (dottedTree.addIgnoreFile ["T", "project", "src"] scriptsBytes 0).ignoreBases
      "/T/project" = ["/T/project/src"] := by
    simp [hadded, ignoreBases, find, hparts, hshort, Entry.walk, Entry.at?, Entry.child?, assocGet?,
      Entry.ignoreBases, Entry.ignoreBasesEach, Entry.leadsToDir?, fileName, prunedNames, hsort, hpaths]
  have hread : (dottedTree.addIgnoreFile ["T", "project", "src"] scriptsBytes 0).readBytes
      (Path.join "/T/project/src" fileName) = .ok scriptsBytes := by
    simp [hadded, readBytes, find, hpaths, hparts, hshort, Entry.walk, Entry.at?, Entry.child?, assocGet?]
  have hignored : ignoredBy [⟨"/T/project/src", [scripts]⟩] "/T/project/src/b.js" = true := by
    decide
  simp [discover, dottedTree_candidates, ignoreFiles, hbases, ignoreFilesOf, ignoreFile_scripts hread,
    hignored, bind, Except.bind, pure, Except.pure]

theorem discover_ignore_local_source : ∃ found notes,
    dottedTree.discover "/T/project" ⟨[], ["src/b.js"]⟩ none true = .ok (found, notes) ∧
    (dottedTree.addIgnoreFile ["T", "project", "src"] scriptsBytes 0).discover "/T/project"
      ⟨[], ["src/b.js"]⟩ none true = .ok ([], []) ∧
    "/T/project/src/b.js" ∈ found ∧ ∀ place ∈ found, ∃ ws,
      dottedTree.Holds "/T/project" ws ["T", "project", "src"] ∧
      dottedTree.AtOrBelow place (ws.foldl Path.join "/T/project") := by
  have hplain : dottedTree.root.Plain := by decide
  have hnone : dottedTree.ignoreFiles "/T/project" = .ok ([], []) := ignoreFiles_plain hplain
  have hbases : dottedTree.ignoreBases "/T/project" = [] := ignoreBases_plain hplain
  have hfound : dottedTree.discover "/T/project" ⟨[], ["src/b.js"]⟩ none true =
      .ok (["/T/project/src/b.js"], []) := by
    simp [discover, dottedTree_candidates, hnone, ignoredBy, bind, Except.bind, pure, Except.pure]
  have hthrough : Entry.NoneThrough dottedTree.root
      (dottedTree.addIgnoreFile ["T", "project", "src"] scriptsBytes 0).root :=
    fun way n target hlink => absurd hlink (hplain.at?_ne_link rfl _ target)
  obtain ⟨-, -, hlocal⟩ := discover_ignore_local (by decide) rfl rfl patternsOf_scripts
    (by rw [hbases]; simp) hthrough ⟨[], ["src/b.js"]⟩ none
  obtain ⟨-, hlost, -⟩ := hlocal _ _ _ _ hfound dottedTree_added
  exact ⟨_, _, hfound, dottedTree_added, by simp, fun place hplace => hlost place hplace (by simp)⟩

def linkedTree : Files :=
  ⟨.dir [("T", .dir [("project", .dir [("b.js", .link "d/.gitignore/b.js"), ("d", .dir []),
    ("e", .dir [(".gitignore", .link "../d/.gitignore"), ("a.js", .file .empty 0)])])])]⟩

def linkedTreeAdded : Files :=
  ⟨.dir [("T", .dir [("project", .dir [("b.js", .link "d/.gitignore/b.js"),
    ("d", .dir [(".gitignore", .file scriptsBytes 0)]),
    ("e", .dir [(".gitignore", .link "../d/.gitignore"), ("a.js", .file .empty 0)])])])]⟩

theorem linkedTree_through :
    linkedTree.root.walk true maxLinks ["T", "project"] ["b.js"] = .error .notFound ∧
      linkedTreeAdded.root.walk true maxLinks ["T", "project"] ["b.js"] = .error .notDirectory := by
  have htarget : parts "d/.gitignore/b.js" = ["d", ".gitignore", "b.js"] ∧
      isAbsolute "d/.gitignore/b.js" = false := by decide
  have hshort : ∀ n ∈ ["d", ".gitignore", "b.js"], ¬ maxNameBytes < n.utf8ByteSize := by
    decide
  simp [htarget, hshort, maxLinks, linkedTree, linkedTreeAdded, Entry.walk, Entry.at?, Entry.child?,
    assocGet?]

theorem linkedTree_reads : linkedTree.readBytes "/T/project/e/.gitignore" = .error .notFound ∧
    linkedTreeAdded.readBytes "/T/project/d/.gitignore" = .ok scriptsBytes ∧
    linkedTreeAdded.readBytes "/T/project/e/.gitignore" = .ok scriptsBytes := by
  have hparts : parts "/T/project/d/.gitignore" = ["T", "project", "d", ".gitignore"] ∧
      parts "/T/project/e/.gitignore" = ["T", "project", "e", ".gitignore"] ∧
      parts "../d/.gitignore" = ["..", "d", ".gitignore"] ∧
      isAbsolute "../d/.gitignore" = false := by decide
  have hshort : ∀ n ∈ ["T", "project", "d", "e", ".gitignore"], ¬ maxNameBytes < n.utf8ByteSize := by
    decide
  simp [readBytes, find, hparts, hshort, maxLinks, linkedTree, linkedTreeAdded, Entry.walk, Entry.at?,
    Entry.child?, assocGet?]

theorem linkedTree_links :
    linkedTree.root.leadsToDir? ["T", "project", "e"] fileName (.link "../d/.gitignore") = some false ∧
      linkedTreeAdded.root.leadsToDir? ["T", "project", "e"] fileName (.link "../d/.gitignore") =
        some false := by
  have htarget : parts "../d/.gitignore" = ["..", "d", ".gitignore"] ∧
      isAbsolute "../d/.gitignore" = false := by decide
  have hshort : ∀ n ∈ ["d", ".gitignore"], ¬ maxNameBytes < n.utf8ByteSize := by
    decide
  simp [Entry.leadsToDir?, fileName, htarget, hshort, maxLinks, linkedTree, linkedTreeAdded, Entry.walk,
    Entry.at?, Entry.child?, assocGet?]

theorem find_project {entries : List (String × Entry)} (hpath : parts path = ["T", "project"]) :
    (⟨.dir [("T", .dir [("project", .dir entries)])]⟩ : Files).find path =
      .ok (["T", "project"], .dir entries) := by
  have hshort : ¬ maxNameBytes < "T".utf8ByteSize ∧ ¬ maxNameBytes < "project".utf8ByteSize := by
    decide
  simp [find, hpath, hshort, Entry.walk, Entry.at?, Entry.child?, assocGet?]

theorem linkedTree_search : linkedTree.searchPattern "/T/project" "b.js".toList = ["b.js"] ∧
    linkedTreeAdded.searchPattern "/T/project" "b.js".toList = [] := by
  have hsegments : Glob.segments "b.js".toList = [.literal "b.js"] := by decide
  have hstart : (if "b.js".toList.head? = some '/' then "/" else "") = "" := by decide
  have hpaths : parts (Path.join "/T/project" "") = ["T", "project"] ∧ Path.join "" "b.js" = "b.js" := by
    decide
  have hfind : linkedTree.find (Path.join "/T/project" "") = _ := find_project hpaths.1
  have hfind' : linkedTreeAdded.find (Path.join "/T/project" "") = _ := find_project hpaths.1
  rw [searchPattern, searchPattern, hsegments, hstart]
  simp [search, list, hpaths, hfind, hfind', Entry.listedChild, Entry.leadsToDir?, Glob.Segment.fits,
    linkedTree_through]

theorem linkedTree_candidates :
    linkedTree.candidates "/T/project" ⟨["b.js"], ["e/a.js"]⟩ (some []) =
        .ok ["/T/project/b.js", "/T/project/e/a.js"] ∧
      linkedTreeAdded.candidates "/T/project" ⟨["b.js"], ["e/a.js"]⟩ (some []) =
        .ok ["/T/project/e/a.js"] := by
  have hliterally : foundLiterally "/T/project" ["e/a.js"] [] = .ok ["/T/project/e/a.js"] := by
    decide
  have hexpanded : Glob.expandBraces ["b.js"] = .ok ["b.js".toList] ∧ Glob.expandBraces [] = .ok [] :=
    ⟨rfl, rfl⟩
  have hplace : absolute "/T/project" "b.js" = "/T/project/b.js" := by decide
  have honce : (["/T/project/b.js", "/T/project/e/a.js"] : List String).eraseDups =
        ["/T/project/b.js", "/T/project/e/a.js"] ∧
      (["/T/project/e/a.js"] : List String).eraseDups = ["/T/project/e/a.js"] := by
    decide
  have hsort : (["/T/project/b.js", "/T/project/e/a.js"] : List String).mergeSort (· ≤ ·) =
      ["/T/project/b.js", "/T/project/e/a.js"] := List.mergeSort_of_pairwise (by decide)
  have hglob : linkedTree.glob "/T/project" ["b.js"] [] = .ok ["b.js"] ∧
      linkedTreeAdded.glob "/T/project" ["b.js"] [] = .ok [] := by
    simp only [glob, hexpanded, bind, Except.bind, List.flatMap_cons, List.flatMap_nil, linkedTree_search]
    simp [pure, Except.pure]
  simp [candidates, foundByPatterns, hglob, hplace, hliterally, honce, hsort, bind, Except.bind, pure,
    Except.pure]

theorem linkedTree_bases : linkedTree.ignoreBases "/T/project" = ["/T/project/e"] ∧
    linkedTreeAdded.ignoreBases "/T/project" = ["/T/project/d", "/T/project/e"] := by
  have hpaths : Path.join "/T/project" "d" = "/T/project/d" ∧
      Path.join "/T/project" "e" = "/T/project/e" := by decide
  have hparts : parts "/T/project" = ["T", "project"] := by decide
  have hfind : linkedTree.find "/T/project" = _ := find_project hparts
  have hfind' : linkedTreeAdded.find "/T/project" = _ := find_project hparts
  have hsort : ∀ a b c : List String,
      ([("b.js", a), ("d", b), ("e", c)] : List (String × List String)).mergeSort (fun a b => a.1 ≤ b.1) =
        [("b.js", a), ("d", b), ("e", c)] :=
    fun a b c => List.mergeSort_of_pairwise (by simp)
  have hsort' : ∀ a b : List String,
      ([(".gitignore", a), ("a.js", b)] : List (String × List String)).mergeSort (fun a b => a.1 ≤ b.1) =
        [(".gitignore", a), ("a.js", b)] :=
    fun a b => List.mergeSort_of_pairwise (by simp)
  obtain ⟨hlink, hlink'⟩ := linkedTree_links
  have hfile : linkedTreeAdded.root.leadsToDir? ["T", "project", "d"] fileName (.file scriptsBytes 0) =
      some false := rfl
  rw [fileName] at hlink hlink' hfile
  simp [ignoreBases, hfind, hfind', Entry.ignoreBases, Entry.ignoreBasesEach, hlink, hlink', hfile,
    fileName, prunedNames, hsort, hsort', hpaths]

/-- A new ignore file takes files from other directories through links: the ignore file of another
directory that is a link to it, and a link through it. -/
theorem linked_ignore_outside :
    linkedTree.root.Proper ∧ linkedTree.root.at? ["T", "project", "d"] = some (.dir []) ∧
      patternsOf (lenientText scriptsBytes) = .ok [scripts] ∧
      linkedTree.addIgnoreFile ["T", "project", "d"] scriptsBytes 0 = linkedTreeAdded ∧
      (∀ place ∈ ["/T/project/b.js", "/T/project/e/a.js"], ¬ ["T", "project", "d"] <+: parts place) ∧
      ∃ notes, linkedTree.discover "/T/project" ⟨["b.js"], ["e/a.js"]⟩ (some []) true =
          .ok (["/T/project/b.js", "/T/project/e/a.js"], notes) ∧
        linkedTreeAdded.discover "/T/project" ⟨["b.js"], ["e/a.js"]⟩ (some []) true = .ok ([], []) := by
  have hpaths : Path.join "/T/project/d" fileName = "/T/project/d/.gitignore" ∧
      Path.join "/T/project/e" fileName = "/T/project/e/.gitignore" := by decide
  obtain ⟨hmissing, hread, hread'⟩ := linkedTree_reads
  have hfile : ∃ note, linkedTree.ignoreFile "/T/project/e" = .ok (.error note) := by
    simp [ignoreFile, readLenient, hpaths, hmissing, bind, Except.bind]
  obtain ⟨note, hfile⟩ := hfile
  have hfiles' : linkedTreeAdded.ignoreFile "/T/project/d" = .ok (.ok ⟨"/T/project/d", [scripts]⟩) ∧
      linkedTreeAdded.ignoreFile "/T/project/e" = .ok (.ok ⟨"/T/project/e", [scripts]⟩) :=
    ⟨ignoreFile_scripts (hpaths.1 ▸ hread), ignoreFile_scripts (hpaths.2 ▸ hread')⟩
  have hignored : ignoredBy [⟨"/T/project/d", [scripts]⟩, ⟨"/T/project/e", [scripts]⟩]
      "/T/project/e/a.js" = true := by decide
  refine ⟨by decide, rfl, patternsOf_scripts, rfl, by decide, [note], ?_, ?_⟩
  · simp [discover, linkedTree_candidates, ignoreFiles, linkedTree_bases, ignoreFilesOf, hfile, ignoredBy,
      bind, Except.bind, pure, Except.pure]
  · simp [discover, linkedTree_candidates, ignoreFiles, linkedTree_bases, ignoreFilesOf, hfiles', hignored,
      bind, Except.bind, pure, Except.pure]

end Samples

end Discovery

end Files

end EdgeAudit

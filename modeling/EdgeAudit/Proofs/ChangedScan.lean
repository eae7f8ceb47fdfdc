import EdgeAudit.Proofs.PathJoin
import EdgeAudit.Proofs.RuleSettings

namespace EdgeAudit

open Text

namespace Path

theorem normal_absolute {root : String} (h : Normal root) (name : String) :
    Normal (absolute root name) := by
  apply normal_normalize
  unfold join
  by_cases hname : isAbsolute name = true
  · rw [if_pos hname]
    exact hname
  · rw [if_neg hname]
    obtain ⟨cs, hcs⟩ := List.head?_eq_some_iff.mp (beq_iff_eq.mp h.absolute)
    split <;> simp [isAbsolute, hcs]

end Path

namespace VersionControl

def Lists (v : VersionControl) (c : ChangeCommand) (name : String) : Prop :=
  ∃ output, v c = .exited 0 output ∧ name ≠ "" ∧ name.toList ∈ splitOn '\x00' output.toList

theorem mem_listed {v : VersionControl} {c : ChangeCommand} {name : String} :
    name ∈ v.listed c ↔ v.Lists c name := by
  have hpiece (text : List Char) : name ∈ (splitOn '\x00' text).filterMap (fun piece =>
      if piece.isEmpty then none else some (String.ofList piece)) ↔
      name ≠ "" ∧ name.toList ∈ splitOn '\x00' text := by
    rw [List.mem_filterMap]
    constructor
    · rintro ⟨piece, hpiece, hname⟩
      split at hname
      · cases hname
      · rename_i hfull
        cases hname
        refine ⟨?_, by simpa using hpiece⟩
        intro he
        have hnil : piece = [] := by simpa using congrArg String.toList he
        simp [hnil] at hfull
    · rintro ⟨hne, hmem⟩
      refine ⟨name.toList, hmem, ?_⟩
      have hfull : name.toList.isEmpty = false := by simpa using hne
      simp [hfull]
  unfold listed Lists
  rw [hpiece]
  cases hc : v c with
  | timedOut => simp [CommandOutcome.output?, splitOn]
  | notRun => simp [CommandOutcome.output?, splitOn]
  | exited code output =>
    by_cases hcode : code = 0
    · simp [CommandOutcome.output?, hcode]
    · simp [CommandOutcome.output?, hcode, splitOn]

theorem mem_changedFiles {v : VersionControl} {root path : String} :
    path ∈ v.changedFiles root ↔ v.isActive = true ∧
      ∃ name, (v.Lists .staged name ∨ v.Lists .unstaged name) ∧ path = Path.absolute root name := by
  unfold changedFiles
  by_cases hactive : v.isActive = true
  · rw [if_pos hactive, List.mem_eraseDups, List.mem_map]
    simp only [hactive, true_and, List.mem_append, mem_listed, eq_comm]
  · simp [hactive]

theorem nodup_changedFiles (v : VersionControl) (root : String) : (v.changedFiles root).Nodup := by
  unfold changedFiles
  split
  · exact nodup_eraseDups _
  · exact List.nodup_nil

end VersionControl

namespace Scanner

variable {s : Scanner} {f : Files}

theorem keepChanged_eq {changed : List String} (h : ∀ path ∈ changed, Path.Normal path)
    (files : List String) : keepChanged changed files = files.filter (· ∈ changed) := by
  have hsame : changed.map Path.normalize = changed := by
    rw [List.map_congr_left fun path hp => (h path hp).normal]
    exact List.map_id' changed
  unfold keepChanged
  rw [hsame]
  apply List.filter_congr
  intro path _
  exact List.contains_eq_mem path changed

theorem outcomeAt_local {path : String} (hlocal : ∀ rule ∈ s.registry.rules, rule.Local)
    (ha : s.alone f path = .ok (s.outcomeAt f path)) :
    ∀ x ∈ (s.outcomeAt f path).findings, x.location.file = path := by
  intro x hx
  rw [Sight.scanned_findings ha] at hx
  split at hx
  · obtain ⟨y, hy, hheard⟩ := List.mem_filterMap.mp hx
    rw [heard?_fields hheard]
    cases hseen : f.sight s.cwd s.maxSize path with
    | rejected fault => simp [hseen, Sight.reported] at hy
    | unreadable fault => simp [hseen, Sight.reported] at hy
    | readable text =>
      rw [hseen] at hy
      obtain ⟨rule, hrule, hy⟩ := List.mem_flatMap.mp hy
      obtain ⟨found, hfound, hmem⟩ := Rule.mem_findings hy
      have henabled := List.mem_of_mem_filter hrule
      exact hlocal rule (List.mem_of_mem_filter henabled) _ _ hfound y hmem
  · cases hx

theorem filter_findings {files : List String} {F : String → List Finding} (p : String → Bool)
    (h : ∀ path ∈ files, ∀ x ∈ F path, x.location.file = path) :
    (files.filter p).flatMap F = (files.flatMap F).filter fun x => p x.location.file := by
  rw [flatMap_filter, List.filter_flatMap]
  apply List.flatMap_congr
  intro path hp
  have hpath : ∀ x ∈ F path, p x.location.file = p path := fun x hx => by rw [h path hp x hx]
  rw [List.filter_congr hpath]
  cases p path <;> simp

theorem filter_errors {files : List String} {failure? : String → Option ExecutionFailure}
    (p : String → Bool) :
    (files.filter p).filterMap (fun path => (failure? path).map fun e => (⟨path, e.message⟩ : FileError)) =
      (files.filterMap fun path => (failure? path).map fun e => (⟨path, e.message⟩ : FileError)).filter
        fun e => p e.file := by
  rw [List.filter_filterMap, List.filterMap_filter]
  apply List.filterMap_congr
  intro path _
  cases failure? path with
  | none => simp
  | some failure => cases hp : p path <;> simp [Option.filter, hp]

/-- The version control lists files by their normal paths, each once, and a scan of these files has the
errors and findings that a scan of all files has for them, in the same order. -/
theorem scan_changed_restricts (s : Scanner) (f : Files) (v : VersionControl)
    (elapsed elapsed' : Number.Binary64) (hcwd : Path.Normal s.cwd) :
    let changed := v.changedFiles s.cwd
    let whole : Scanner := { s with incremental := false }
    let part : Scanner := { s with incremental := true }
    changed.Nodup ∧ (∀ path ∈ changed, Path.Normal path) ∧
    (∀ path, path ∈ changed ↔ v.isActive = true ∧
      ∃ name, (v.Lists .staged name ∨ v.Lists .unstaged name) ∧ path = Path.absolute s.cwd name) ∧
    ((∃ out, whole.scan f (v.changes s.cwd) elapsed none = .ok out) →
      ∃ out, part.scan f (v.changes s.cwd) elapsed' none = .ok out) ∧
    ∀ out out', whole.Scans f (v.changes s.cwd) elapsed none out →
      part.Scans f (v.changes s.cwd) elapsed' none out' →
      ∃ found notes, s.discover f = .ok (found, notes) ∧
        out'.result.fileCount = (found.filter (· ∈ changed)).length ∧
        out'.result.errors = out.result.errors.filter (fun e => e.file ∈ changed) ∧
        (∃ outcome : String → FileScan, (∀ path ∈ found, s.alone f path = .ok (outcome path)) ∧
          out.result.findings = found.flatMap (fun path => (outcome path).findings) ∧
          out'.result.findings =
            (found.filter (· ∈ changed)).flatMap fun path => (outcome path).findings) ∧
        ((∀ rule ∈ s.registry.rules, rule.Local) →
          out'.result.findings = out.result.findings.filter fun x => x.location.file ∈ changed) := by
  intro changed whole part
  have hnormal : ∀ path ∈ changed, Path.Normal path := by
    intro path hp
    obtain ⟨-, name, -, rfl⟩ := VersionControl.mem_changedFiles.mp hp
    exact Path.normal_absolute hcwd name
  have hunused : Unused none := by
    intro c hc
    cases hc
  have hselected (found : List String) : (part.selected (v.changes s.cwd) found).1 =
      found.filter (· ∈ changed) := keepChanged_eq hnormal found
  refine ⟨v.nodup_changedFiles s.cwd, hnormal, fun _ => VersionControl.mem_changedFiles, ?_, ?_⟩
  · rintro ⟨out, hout⟩
    obtain ⟨found, notes, hd, hall, -⟩ := scans_result hunused (scan_scans hout)
    refine scan_returns (s := part) (scan_eq_ok.mp hout).1 hd ?_ elapsed' none
    intro path hp
    rw [hselected] at hp
    exact ⟨_, hall path (List.mem_of_mem_filter hp)⟩
  · intro out out' hout hout'
    obtain ⟨found, notes, hd, hall, hfindings, herrors, -⟩ := scans_result hunused hout
    obtain ⟨found', notes', hd', -, hfindings', herrors', hcount'⟩ := scans_result hunused hout'
    have hsame : (found', notes') = (found, notes) := Except.ok.inj (hd'.symm.trans hd)
    cases hsame
    rw [hselected] at hfindings' herrors' hcount'
    refine ⟨found, notes, hd, hcount', ?_, ⟨s.outcomeAt f, hall, hfindings, hfindings'⟩, ?_⟩
    · rw [herrors, herrors', filter_errors]
      rfl
    · intro hlocal
      rw [hfindings, hfindings', filter_findings]
      · rfl
      · intro path hp
        exact outcomeAt_local hlocal (hall path hp)

def sampleControl : VersionControl
  | .insideWorkTree => .exited 0 "true\n"
  | .staged => .exited 0 "b.js\x00./b.js\x00../q\x00"
  | .unstaged => .timedOut

theorem scan_changed_restricts_staged : ∃ out out',
    sampleScanner.Scans (sampleFiles ⟨#[98]⟩ 1) (sampleControl.changes "/p") (.ofInt 0) none out ∧
    { sampleScanner with incremental := true }.Scans (sampleFiles ⟨#[98]⟩ 1) (sampleControl.changes "/p")
      (.ofInt 0) none out' ∧
    out'.result.fileCount = 1 ∧
    out'.result.findings = out.result.findings.filter fun x => x.location.file ∈ ["/p/b.js", "/q"] := by
  have hchanged : sampleControl.changedFiles sampleScanner.cwd = ["/p/b.js", "/q"] := by decide +kernel
  have hlocal : ∀ rule ∈ sampleScanner.registry.rules, rule.Local := by
    intro rule hrule
    obtain rfl := List.mem_singleton.mp hrule
    exact (CustomRule.toRule_marks _).isLocal
  obtain ⟨-, -, -, hreturns, hboth⟩ := scan_changed_restricts sampleScanner (sampleFiles ⟨#[98]⟩ 1)
    sampleControl (.ofInt 0) (.ofInt 0) ⟨rfl, by decide +kernel⟩
  have hwhole : ∃ out, sampleScanner.scan (sampleFiles ⟨#[98]⟩ 1) (sampleControl.changes "/p")
      (.ofInt 0) none = .ok out :=
    scan_returns rfl (sample_discover _ _) (fun path _ => returns_of_rules_nil rfl rfl sample_stays path) _ _
  obtain ⟨out', hout'⟩ := hreturns hwhole
  obtain ⟨out, hout⟩ := hwhole
  obtain ⟨found, notes, hd, hcount, -, -, hfindings⟩ :=
    hboth out out' (scan_scans hout) (scan_scans hout')
  have hfound : (found, notes) = (["/p/a.js", "/p/b.js"], []) :=
    Except.ok.inj (hd.symm.trans (sample_discover _ _))
  cases hfound
  refine ⟨out, out', scan_scans hout, scan_scans hout', ?_, ?_⟩
  · rw [hcount, hchanged]
    decide
  · rw [hfindings hlocal, hchanged]

end Scanner

end EdgeAudit

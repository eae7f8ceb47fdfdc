import EdgeAudit.Proofs.CachedOutcome
import EdgeAudit.Proofs.Discovery
import EdgeAudit.Rule.Custom

namespace EdgeAudit

namespace Sight

variable {executor : Executor} {config : Config} {rules : List Rule} {cwd path : String}
  {seen : Sight} {scan : FileScan}

def failure? (executor : Executor) (config : Config) (rules : List Rule) (path : String)
    (seen : Sight) : Option ExecutionFailure :=
  match seen.outcome? executor config rules path with
  | some (.error failure) => some failure
  | _ => none

theorem scanned_fields (h : seen.scanned executor config rules cwd path = .ok scan) :
    scan.path = path ∧ scan.error = seen.failure? executor config rules path ∧
      ((∀ found, seen.outcome? executor config rules path ≠ some (.ok found)) →
        scan.findings = []) := by
  unfold scanned at h
  unfold failure? outcome?
  cases ho : seen.executed? executor config rules path with
  | none =>
    simp only [ho, Except.ok.injEq] at h
    subst h
    exact ⟨rfl, rfl, fun _ => rfl⟩
  | some executed =>
    cases executed with
    | error cause =>
      rw [ho] at h
      cases h
    | ok outcome =>
      cases outcome with
      | error failure =>
        simp only [ho, Except.ok.injEq] at h
        subst h
        exact ⟨rfl, rfl, fun _ => rfl⟩
      | ok found =>
        cases hf : config.applySettings (Path.relativeTo path cwd) found with
        | error e => simp [ho, hf, bind, Except.bind] at h
        | ok findings =>
          simp only [ho, hf, bind, Except.bind, pure, Except.pure, Except.ok.injEq] at h
          subst h
          exact ⟨rfl, rfl, fun hn => absurd rfl (hn found)⟩

end Sight

def Rule.Stays (rule : Rule) : Prop :=
  ∀ source failure, rule.detect source = .error failure → failure.exitCode? = none

theorem CustomRule.stays (r : CustomRule) : r.toRule.Stays := by
  intro source failure h
  simp only [toRule, detect] at h
  split at h
  · cases h
    rfl
  · split at h
    · split at h
      · cases h
        rfl
      · cases h
    · cases h

theorem Task.outcome_of_stays {t : Task} (h : ∀ rule ∈ t.rules, rule.Stays) :
    ∃ outcome, t.outcome = .ok outcome := by
  unfold outcome
  cases hrun : t.run with
  | ok found => exact ⟨_, rfl⟩
  | error failure =>
    simp only [run, detectAll] at hrun
    have hfail : t.rules.mapM (fun r => r.detect (Source.read t.path t.text t.target t.strict)) =
        .error failure := by
      cases hall : t.rules.mapM fun r => r.detect (Source.read t.path t.text t.target t.strict) with
      | error failure' =>
        rw [hall] at hrun
        cases hrun
        rfl
      | ok found =>
        rw [hall] at hrun
        cases hrun
    obtain ⟨rule, hrule, hdetect⟩ := mapM_error hfail
    exact ⟨_, by simp only [h rule hrule _ _ hdetect]; rfl⟩

theorem Config.applySettings_nil {c : Config} (h : c.rules = []) (relative : String) (found : List Finding) :
    c.applySettings relative found = .ok found := by
  have hset : ∀ finding ∈ found, c.applySetting relative finding = .ok (some finding) := by
    intro finding _
    simp [applySetting, setting?, h, assocGet?, pure, Except.pure]
  rw [applySettings, mapM_eq_ok hset]
  simp [bind, Except.bind, pure, Except.pure]

namespace Scanner

variable {s : Scanner} {f : Files}

def outcomeAt (s : Scanner) (f : Files) (path : String) : FileScan :=
  (s.alone f path).toOption.getD { path }

theorem alone_eq_outcomeAt {path : String} {scan : FileScan} (h : s.alone f path = .ok scan) :
    s.outcomeAt f path = scan := by
  simp [outcomeAt, h, Except.toOption]

theorem map_outcomeAt {paths : List String} {scans : List FileScan}
    (h : List.Forall₂ (fun path scan => s.alone f path = .ok { scan with fromCache := false })
      paths scans) :
    paths.map (s.outcomeAt f) = scans.map fun scan => { scan with fromCache := false } := by
  induction h with
  | nil => rfl
  | cons h _ ih => rw [List.map_cons, List.map_cons, ih, alone_eq_outcomeAt h]

theorem mem_returns {paths : List String} {scans : List FileScan}
    (h : List.Forall₂ (fun path scan => s.alone f path = .ok { scan with fromCache := false })
      paths scans) {path : String} (hp : path ∈ paths) :
    s.alone f path = .ok (s.outcomeAt f path) := by
  induction h with
  | nil => cases hp
  | cons h _ ih =>
    rcases List.mem_cons.mp hp with rfl | hp
    · rw [alone_eq_outcomeAt h, h]
    · exact ih hp

theorem resultOf_outcomes {paths : List String} {scans : List FileScan}
    (h : List.Forall₂ (fun path scan => s.alone f path = .ok { scan with fromCache := false })
      paths scans) (cached : Bool) (duration : Number.Quantity) :
    (resultOf scans cached duration).findings =
        paths.flatMap (fun path => (s.outcomeAt f path).findings) ∧
      (resultOf scans cached duration).errors = paths.filterMap (fun path =>
        ((f.sight s.cwd s.maxSize path).failure? s.executor s.config s.rules path).map
          fun e => ⟨path, e.message⟩) ∧
      (resultOf scans cached duration).fileCount = paths.length := by
  have hmap := map_outcomeAt h
  have hlen : scans.length = paths.length := by simpa using (congrArg List.length hmap).symm
  refine ⟨?_, ?_, ?_⟩
  · calc scans.flatMap (·.findings)
        = (scans.map fun scan => { scan with fromCache := false }).flatMap (·.findings) := by
          rw [List.flatMap_map]
      _ = (paths.map (s.outcomeAt f)).flatMap (·.findings) := by rw [hmap]
      _ = paths.flatMap (fun path => (s.outcomeAt f path).findings) := by rw [List.flatMap_map]
  · have herr : ∀ path ∈ paths, ((s.outcomeAt f path).error.map fun e =>
        (⟨(s.outcomeAt f path).path, e.message⟩ : FileError)) =
        ((f.sight s.cwd s.maxSize path).failure? s.executor s.config s.rules path).map
          fun e => ⟨path, e.message⟩ := by
      intro path hp
      obtain ⟨hpath, he, -⟩ := Sight.scanned_fields (mem_returns h hp)
      rw [hpath, he]
    calc scans.filterMap (fun x => x.error.map fun e => (⟨x.path, e.message⟩ : FileError))
        = (scans.map fun scan => { scan with fromCache := false }).filterMap
            (fun x => x.error.map fun e => (⟨x.path, e.message⟩ : FileError)) := by
          rw [List.filterMap_map]
          rfl
      _ = paths.filterMap (fun path => (s.outcomeAt f path).error.map fun e =>
            (⟨(s.outcomeAt f path).path, e.message⟩ : FileError)) := by
          rw [← hmap, List.filterMap_map]
          rfl
      _ = _ := List.filterMap_congr herr
  · simp [resultOf, hlen]

theorem returns_of_rules_nil (h : s.config.rules = []) (hhere : s.executor = .here)
    (hstay : ∀ rule ∈ s.registry.rules, rule.Stays) (path : String) : s.Returns f path := by
  have hrules : ∀ rule ∈ s.rules, rule.Stays := fun rule hrule =>
    hstay rule (List.mem_of_mem_filter (List.mem_of_mem_filter hrule))
  unfold Returns alone
  cases f.sight s.cwd s.maxSize path with
  | rejected fault => exact ⟨_, rfl⟩
  | unreadable fault => exact ⟨_, rfl⟩
  | readable text =>
    obtain ⟨outcome, ho⟩ := Task.outcome_of_stays (t := ⟨path, text, s.config.target, s.config.strict, s.rules⟩) hrules
    simp only [Sight.scanned, Sight.executed?, hhere, Executor.execute, ho, mapError_ok]
    cases outcome with
    | error failure => exact ⟨_, rfl⟩
    | ok found =>
      exact ⟨_, by simp only [Config.applySettings_nil h, bind, Except.bind]; rfl⟩

def sampleFiles (bytes : ByteArray) (mtime : Int) : Files :=
  ⟨.dir [("p", .dir [("a.js", .file bytes mtime), ("b.js", .file ⟨#[98]⟩ 1)])]⟩

def needleRule : CustomRule :=
  { id := "b", needle := "b" }

def sampleScanner : Scanner where
  cwd := "/p"
  config := { excluded := some [] }
  paths := ["a.js", "b.js"]
  registry := ⟨[CustomRule.toRule
    { id := "b", needle := "b", refusal := some "no", refusedPath := "b.js" }]⟩

theorem sample_stays : ∀ rule ∈ sampleScanner.registry.rules, rule.Stays := by
  simp only [sampleScanner, List.forall_mem_singleton]
  exact CustomRule.stays _

theorem sample_parts : Path.parts "/p" = ["p"] ∧ Path.parts "/p/a.js" = ["p", "a.js"] ∧
    Path.parts "/p/b.js" = ["p", "b.js"] ∧ Path.tidy (Path.join "/p" "a.js") = "/p/a.js" ∧
    Path.tidy (Path.join "/p" "b.js") = "/p/b.js" ∧
    ∀ name ∈ ["a.js", "b.js"], Path.join (Path.ofParts ["p"]) (Path.ofParts ["p", name]) = Path.ofParts ["p", name] ∧
      (Path.ofParts ["p", name]).toList.all Text.isBlank = false ∧
      (Path.ofParts ["p", name]).toList.contains '\x00' = false := by
  decide +kernel

theorem sample_lists : "/p/a.js" ≤ "/p/b.js" ∧ "a.js" ≤ "b.js" ∧
    Path.ofParts ["p", "a.js"] = "/p/a.js" ∧ Path.ofParts ["p", "b.js"] = "/p/b.js" ∧
    Files.foundLiterally "/p" ["/p/a.js", "/p/b.js"] [] = .ok ["/p/a.js", "/p/b.js"] ∧
    (["/p/a.js", "/p/b.js"] : List String).eraseDups = ["/p/a.js", "/p/b.js"] := by
  decide +kernel

theorem sample_text : Files.textOf ⟨#[98]⟩ = .ok ['b'] := by
  decide +kernel

theorem sample_short : ¬ maxNameBytes < "p".utf8ByteSize ∧ ¬ maxNameBytes < "a.js".utf8ByteSize ∧
    ¬ maxNameBytes < "b.js".utf8ByteSize ∧ ¬ maxPathBytes < "/p/a.js".utf8ByteSize ∧
    ¬ maxPathBytes < "/p/b.js".utf8ByteSize := by
  decide

section

variable (bytes : ByteArray) (mtime : Int)

theorem sample_find_a : (sampleFiles bytes mtime).find "/p/a.js" =
    .ok (["p", "a.js"], .file bytes mtime) := by
  simp [Files.find, sample_parts, sample_short, sampleFiles, Entry.walk, Entry.at?, Entry.child?, assocGet?]

theorem sample_find_b : (sampleFiles bytes mtime).find "/p/b.js" =
    .ok (["p", "b.js"], .file ⟨#[98]⟩ 1) := by
  simp [Files.find, sample_parts, sample_short, sampleFiles, Entry.walk, Entry.at?, Entry.child?, assocGet?]

theorem sample_ignoreFiles : (sampleFiles bytes mtime).ignoreFiles "/p" = .ok ([], []) := by
  have hsort : ([("a.js", []), ("b.js", [])] : List (String × List String)).mergeSort
      (fun a b => a.1 ≤ b.1) = [("a.js", []), ("b.js", [])] :=
    List.mergeSort_of_pairwise (by simp [sample_lists])
  simp [hsort, Files.ignoreFiles, Files.ignoreFilesOf, Files.ignoreBases, Files.find, sampleFiles,
    Entry.walk, sample_parts, sample_short, Entry.at?, Entry.child?, assocGet?, Entry.ignoreBases, Entry.ignoreBasesEach,
    Ignore.fileName, Ignore.prunedNames]

theorem sample_candidates : (sampleFiles bytes mtime).candidates "/p" ⟨[], ["/p/a.js", "/p/b.js"]⟩ (some []) =
    .ok ["/p/a.js", "/p/b.js"] := by
  have hsort : (["/p/a.js", "/p/b.js"] : List String).mergeSort (· ≤ ·) = ["/p/a.js", "/p/b.js"] :=
    List.mergeSort_of_pairwise (by simp [sample_lists])
  simp [Files.candidates, Files.foundByPatterns, sample_lists, hsort, bind, Except.bind, pure, Except.pure]

theorem sample_discover :
    sampleScanner.discover (sampleFiles bytes mtime) = .ok (["/p/a.js", "/p/b.js"], []) := by
  have hwa : (sampleFiles bytes mtime).wantedBy "/p" "a.js" = .ok ⟨[], ["/p/a.js"]⟩ := by
    simp [Files.wantedBy, sample_parts, sample_short, Files.isFile, Files.test, sample_find_a,
      bind, Except.bind, pure, Except.pure]
  have hwb : (sampleFiles bytes mtime).wantedBy "/p" "b.js" = .ok ⟨[], ["/p/b.js"]⟩ := by
    simp [Files.wantedBy, sample_parts, sample_short, Files.isFile, Files.test, sample_find_b,
      bind, Except.bind, pure, Except.pure]
  have hw : sampleScanner.wanted (sampleFiles bytes mtime) = .ok ⟨[], ["/p/a.js", "/p/b.js"]⟩ := by
    simp [Scanner.wanted, sampleScanner, Files.wanted, hwa, hwb, bind, Except.bind, pure, Except.pure]
  rw [Scanner.discover, hw]
  simp [bind, Except.bind, Files.discover, sampleScanner, sample_candidates,
    sample_ignoreFiles, Ignore.ignoredBy, pure, Except.pure]

theorem sample_realParts : (sampleFiles bytes mtime).realParts "/p" = ["p"] ∧
    (sampleFiles bytes mtime).realParts "/p/a.js" = ["p", "a.js"] ∧
    (sampleFiles bytes mtime).realParts "/p/b.js" = ["p", "b.js"] := by
  refine ⟨?_, ?_, ?_⟩ <;>
    simp [Files.realParts, sample_parts, sampleFiles, Entry.realWay, Entry.at?, Entry.child?, assocGet?]

theorem sample_vet_of (name : String) (data : ByteArray) (time : Int) (hname : name ∈ ["a.js", "b.js"])
    (hreal : (sampleFiles bytes mtime).realParts (Path.ofParts ["p", name]) = ["p", name])
    (hfind : (sampleFiles bytes mtime).find (Path.ofParts ["p", name]) = .ok (["p", name], .file data time))
    (h : data.size ≤ 10) : sampleScanner.vet (sampleFiles bytes mtime) (Path.ofParts ["p", name]) =
      .ok ⟨Path.ofParts ["p", name], Path.ofParts ["p", name], time⟩ := by
  obtain ⟨hjoin, hblank, hzero⟩ := sample_parts.2.2.2.2.2 name hname
  have hplace : (sampleFiles bytes mtime).validatePath (Path.ofParts ["p", name]) "/p" =
      .ok (Path.ofParts ["p", name]) := by
    simp only [Files.validatePath, sample_realParts, hreal, hjoin, hblank, hzero]
    simp [Path.after?]
  have hsize : ¬ sampleScanner.maxSize < data.size := by
    have : (10 : Int) ≤ sampleScanner.maxSize := by decide
    omega
  have hfile : (sampleFiles bytes mtime).validateFile (Path.ofParts ["p", name]) sampleScanner.maxSize =
      .ok ⟨data.size, time⟩ := by
    simp only [Files.validateFile, hfind, if_neg hsize]
  have hcwd : sampleScanner.cwd = "/p" := rfl
  simp only [vet, hcwd, hplace, hfile, bind, Except.bind, pure, Except.pure]

theorem sample_vet (h : bytes.size ≤ 10) : sampleScanner.vet (sampleFiles bytes mtime) "/p/a.js" =
    .ok ⟨"/p/a.js", "/p/a.js", mtime⟩ := by
  have hvet := sample_vet_of bytes mtime "a.js" bytes mtime (by simp)
  simp only [sample_lists] at hvet
  exact hvet (sample_realParts bytes mtime).2.1 (sample_find_a bytes mtime) h

theorem sample_vet_b : sampleScanner.vet (sampleFiles bytes mtime) "/p/b.js" =
    .ok ⟨"/p/b.js", "/p/b.js", 1⟩ := by
  have hvet := sample_vet_of bytes mtime "b.js" ⟨#[98]⟩ 1 (by simp)
  simp only [sample_lists] at hvet
  exact hvet (sample_realParts bytes mtime).2.2 (sample_find_b bytes mtime) (by decide)

theorem sample_readText {text : List Char} (h : Files.textOf bytes = .ok text) :
    (sampleFiles bytes mtime).readText "/p/a.js" = .ok text := by
  have hbytes : (sampleFiles bytes mtime).readBytes "/p/a.js" = .ok bytes := by
    simp [Files.readBytes, sample_find_a]
  rw [Files.readText_of_readBytes hbytes, h]

theorem sample_readText_b : (sampleFiles bytes mtime).readText "/p/b.js" = .ok ['b'] := by
  have hbytes : (sampleFiles bytes mtime).readBytes "/p/b.js" = .ok ⟨#[98]⟩ := by
    simp [Files.readBytes, sample_find_b]
  rw [Files.readText_of_readBytes hbytes, sample_text]

end

/-- The result of a scan without a cache is put together, in the sorted order of the files, from what
each file gives alone, whatever the workers and the order in which files take their steps. -/
theorem scan_concat_outcomes (s : Scanner) (f : Files) (changes : ChangeSet)
    (elapsed : Number.Binary64) (parallel : Bool) (maxWorkers : Option Int) (out : ScanOutcome)
    (h : ({ s with parallel, maxWorkers } : Scanner).Scans f changes elapsed none out) :
    ∃ found notes, s.discover f = .ok (found, notes) ∧ found.Pairwise (· < ·) ∧
      ∃ outcome : String → FileScan,
        (∀ path ∈ (s.selected changes found).1,
          (f.sight s.cwd s.maxSize path).scanned s.executor s.config s.rules s.cwd path =
            .ok (outcome path)) ∧
        out.result.findings =
          (s.selected changes found).1.flatMap (fun path => (outcome path).findings) ∧
        out.result.errors = (s.selected changes found).1.filterMap (fun path =>
          ((f.sight s.cwd s.maxSize path).failure? s.executor s.config s.rules path).map
            fun e => ⟨path, e.message⟩) ∧
        out.result.fileCount = (s.selected changes found).1.length ∧
        ∀ path ∈ (s.selected changes found).1,
          (∀ findings, (f.sight s.cwd s.maxSize path).outcome? s.executor s.config s.rules path ≠
            some (.ok findings)) → (outcome path).findings = [] := by
  obtain ⟨found, notes, scans, hd, hall, hres, -⟩ :=
    scans_known (serves_reliable _ f) (fun c hc => by cases hc) h
  obtain ⟨hfind, herr, hcount⟩ :=
    resultOf_outcomes hall (none : Option FindingCache).isSome (.real (elapsed.scale 1000))
  refine ⟨found, notes, hd, discover_sorted hd, s.outcomeAt f, ?_, ?_, ?_, ?_, ?_⟩
  · exact fun path hp => mem_returns hall hp
  · rw [hres]
    exact hfind
  · rw [hres]
    exact herr
  · rw [hres]
    exact hcount
  · intro path hp hnone
    exact (Sight.scanned_fields (mem_returns hall hp)).2.2 hnone

theorem scan_concat_outcomes_sample : ∃ out,
    ({ sampleScanner with parallel := true, maxWorkers := some (-1) } : Scanner).Scans
      (sampleFiles ⟨#[98]⟩ 1) {} (.ofInt 0) none out ∧
    out.result.fileCount = 2 ∧ ∃ outcome : String → FileScan, out.result.findings =
      (outcome "/p/a.js").findings ++ (outcome "/p/b.js").findings := by
  obtain ⟨out, hout⟩ := scan_returns
    (s := { sampleScanner with parallel := true, maxWorkers := some (-1) }) (f := sampleFiles ⟨#[98]⟩ 1) rfl
    (sample_discover _ _) (fun path _ => returns_of_rules_nil rfl rfl sample_stays path) (.ofInt 0) none
  have hscan := scan_scans hout
  obtain ⟨found, notes, hd, -, outcome, -, hfind, -, hcount, -⟩ :=
    scan_concat_outcomes sampleScanner (sampleFiles ⟨#[98]⟩ 1) {} (.ofInt 0) true (some (-1)) out hscan
  rw [sample_discover] at hd
  cases hd
  refine ⟨out, hscan, hcount, outcome, ?_⟩
  rw [hfind]
  simp [selected, sampleScanner]

end Scanner

end EdgeAudit

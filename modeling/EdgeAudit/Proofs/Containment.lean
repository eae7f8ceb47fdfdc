import EdgeAudit.Proofs.Interleaving
import EdgeAudit.Proofs.LinkResolution

/-!
What a scan reads lies in its directory, as long as the way to it leads somewhere. The real path of a
way that goes in a circle may be a link out of the directory.
-/

namespace EdgeAudit

open EdgeAudit.Path Relation

namespace Files

variable {f : Files} {path base place : String} {way w : List String} {k : Nat} {e : Entry}

def fullPath (f : Files) (base path : String) : String :=
  join (ofParts (f.realParts base)) path

theorem parts_ofParts_real (f : Files) (path : String) :
    parts (ofParts (f.realParts path)) = f.realParts path :=
  parts_ofParts fun n hn => (f.realParts_names path n hn).2

theorem validatePath_eq_ok : f.validatePath path base = .ok place ↔
    (path.toList.all Text.isBlank = false ∧ '\x00' ∉ path.toList) ∧
      f.realParts base <+: f.realParts (f.fullPath base path) ∧
      place = ofParts (f.realParts (f.fullPath base path)) := by
  unfold validatePath fullPath
  cases hblank : path.toList.all Text.isBlank with
  | true => simp
  | false =>
    by_cases hnul : '\x00' ∈ path.toList
    · simp [hnul]
    · simp only [hnul, List.contains_eq_mem, decide_false, Bool.false_eq_true, if_false, true_and,
        not_false_eq_true, ← after?_returns]
      cases after? (f.realParts base) (f.realParts (join (ofParts (f.realParts base)) path)) with
      | none => simp
      | some rest => simp [eq_comm]

theorem find_leads (h : f.find path = .ok (way, e)) :
    (∃ k, f.root.Leads k [] (parts path) way) ∧ f.root.LinkFree way ∧ f.root.at? way = some e := by
  obtain ⟨k, hk⟩ := Entry.walk_leads (fun n hn => (isName_of_mem_parts hn).1) h
  exact ⟨⟨k, hk⟩, hk.linkFree Entry.linkFree_nil, Entry.walk_at? h⟩

theorem find_real (hlead : f.root.Leads k [] (parts path) w)
    (h : f.find (ofParts (f.realParts path)) = .ok (way, e)) : way = f.realParts path := by
  obtain ⟨⟨j, hj⟩, -, -⟩ := find_leads h
  rw [parts_ofParts_real] at hj
  have hfree : f.root.LinkFree ([] ++ f.realParts path) := by
    rw [List.nil_append, realParts_of_leads hlead]
    exact hlead.linkFree Entry.linkFree_nil
  have hstraight := hfree.leads fun n hn => (f.realParts_names path n hn).1
  exact (hj.unique hstraight).2

end Files

def Stage.file? : Stage → Option Pending
  | .reading file => some file
  | .judging file _ => some file
  | _ => none

namespace Scanner

variable {s : Scanner} {f : Files}

theorem fileStep_vetted {path : String} {stage stage' : Stage} {st st' : ScanState}
    (h : FileStep s f path stage st stage' st')
    (hv : ∀ file, stage.file? = some file → s.vet f path = .ok file) :
    ∀ file, stage'.file? = some file → s.vet f path = .ok file := by
  cases h with
  | finish h => simp [Stage.file?]
  | suspend h =>
    intro file hfile
    cases hfile
    exact inspect_pending h
  | fail hr h => simp [Stage.file?]
  | read hr => exact hv
  | judge h => simp [Stage.file?]

theorem reachable_vetted {p : Progress} {paths : List String} {b : Batch}
    (h : ReflTransGen (Batch.Step s f) (Batch.start p paths) b) {path : String} {stage : Stage}
    (hmem : (path, stage) ∈ b.stages) {file : Pending} (hfile : stage.file? = some file) :
    s.vet f path = .ok file := by
  have hall := Batch.reachable_holds
    (Q := fun path stage => ∀ file, stage.file? = some file → s.vet f path = .ok file)
    (C := fun _ => True) (fun _ _ _ _ _ step hq _ => ⟨fileStep_vetted step hq, trivial⟩) h
    (Batch.start_holds (by simp [Stage.file?]) paths trivial)
  exact hall.1 _ hmem file hfile

theorem judging_reachable {path : String} {file : Pending} {text : List Char}
    (hv : s.vet f path = .ok file) (hr : f.readText file.place = .ok text) :
    ∃ b, ReflTransGen (Batch.Step s f) (Batch.start { cache := none } [path]) b ∧
      (path, .judging file text) ∈ b.stages := by
  have hinspect : s.inspect f { cache := none } path = (.pending file, { cache := none }) := by
    simp [inspect, hv, ScanState.lookup]
  refine ⟨⟨{ cache := none }, [(path, .judging file text)]⟩, ?_, by simp⟩
  exact .head (@Batch.Step.turn _ _ _ _ [] [] _ _ _ (fun _ => by simp) (.suspend hinspect))
    (.single (@Batch.Step.turn _ _ _ _ [] [] _ _ _ (fun h => by cases h) (.read hr)))

/-- Validation accepts only paths in the real directory of a scan, and of the paths that lead somewhere
exactly those that lead there. What a scan reads stands at a way without links, to which the accepted
path leads; and it stands at the accepted path itself if the path that was asked for leads anywhere. -/
theorem reads_contained (s : Scanner) (f : Files) :
    (∀ path place, f.validatePath path s.cwd = .ok place → f.realParts s.cwd <+: parts place) ∧
    (∀ path k w, f.root.Leads k [] (parts (f.fullPath s.cwd path)) w → ∀ place,
      f.validatePath path s.cwd = .ok place ↔
        (path.toList.all Text.isBlank = false ∧ '\x00' ∉ path.toList) ∧
          f.realParts s.cwd <+: w ∧ place = ofParts w) ∧
    ∀ (p : Progress) (paths : List String) (b : Batch),
      ReflTransGen (Batch.Step s f) (Batch.start p paths) b →
      ∀ path stage file, (path, stage) ∈ b.stages → stage.file? = some file →
        f.realParts s.cwd <+: parts file.place ∧
        ∃ way bytes, f.readBytes file.place = .ok bytes ∧
          f.root.at? way = some (.file bytes file.mtime) ∧ f.root.LinkFree way ∧
          (∃ k, f.root.Leads k [] (parts file.place) way) ∧
          ((∃ k w, f.root.Leads k [] (parts (f.fullPath s.cwd path)) w) → way = parts file.place) := by
  have hinside : ∀ path place, f.validatePath path s.cwd = .ok place →
      f.realParts s.cwd <+: parts place := by
    intro path place h
    obtain ⟨-, hbelow, rfl⟩ := Files.validatePath_eq_ok.mp h
    rwa [f.parts_ofParts_real]
  refine ⟨hinside, ?_, ?_⟩
  · intro path k w hlead place
    rw [Files.validatePath_eq_ok, Files.realParts_of_leads hlead]
  · intro p paths b h path stage file hmem hfile
    obtain ⟨place, stats, hplace, hstats, rfl⟩ := vet_eq_ok (reachable_vetted h hmem hfile)
    obtain ⟨way, bytes, hfind⟩ := Files.validateFile_eq_ok hstats
    obtain ⟨hleads, hfree, hat⟩ := Files.find_leads hfind
    have hbytes : f.readBytes place = .ok bytes := by
      rw [Files.readBytes, hfind]
    refine ⟨hinside path place hplace, way, bytes, hbytes, hat, hfree, hleads, ?_⟩
    rintro ⟨k, w, hlead⟩
    obtain ⟨-, -, rfl⟩ := Files.validatePath_eq_ok.mp hplace
    rw [f.parts_ofParts_real]
    exact Files.find_real hlead hfind

def chainFiles : Files :=
  ⟨.dir [("p", .dir [("a.js", .link "d/b.js"), ("d", .link "e"),
    ("e", .dir [("b.js", .file ⟨#[98]⟩ 1)])])]⟩

theorem reads_contained_chain : chainFiles.validatePath "/p/a.js" "/p" = .ok "/p/e/b.js" := by
  have hp : parts "/p" = ["p"] ∧ parts "/p/a.js" = ["p", "a.js"] ∧ parts "d/b.js" = ["d", "b.js"] ∧
      parts "e" = ["e"] := by decide +kernel
  have hstart : Entry.linkStart ["p"] "d/b.js" = ["p"] ∧ Entry.linkStart ["p"] "e" = ["p"] := by
    decide +kernel
  have hplain : ∀ way ∈ [["p"], ["p", "e"], ["p", "e", "b.js"]], ∀ target,
      chainFiles.root.at? way ≠ some (.link target) := by
    simp [chainFiles, Entry.at?, Entry.child?, assocGet?]
  have hbase : chainFiles.root.Leads 1 [] (parts "/p") ["p"] := by
    rw [hp.1]
    exact .into (by decide) (hplain ["p"] (by simp)) .here
  have hdir : chainFiles.root.Leads 1 (Entry.linkStart ["p"] "e") (parts "e") ["p", "e"] := by
    rw [hstart.2, hp.2.2.2]
    exact .into (by decide) (hplain ["p", "e"] (by simp)) .here
  have hfile : chainFiles.root.Leads 3 (Entry.linkStart ["p"] "d/b.js") (parts "d/b.js")
      ["p", "e", "b.js"] := by
    rw [hstart.1, hp.2.2.1]
    exact .through (by decide) rfl hdir (.into (by decide) (hplain ["p", "e", "b.js"] (by simp)) .here)
  have hlead : chainFiles.root.Leads 5 [] (parts "/p/a.js") ["p", "e", "b.js"] := by
    rw [hp.2.1]
    exact .into (by decide) (hplain ["p"] (by simp)) (.through (by decide) rfl hfile .here)
  have hreal : chainFiles.realParts "/p" = ["p"] := Files.realParts_of_leads hbase
  have hfull : chainFiles.fullPath "/p" "/p/a.js" = "/p/a.js" := by
    rw [Files.fullPath, hreal]
    decide +kernel
  have haccepted := (reads_contained { cwd := "/p" } chainFiles).2.1 "/p/a.js" 5 ["p", "e", "b.js"]
  rw [hfull, hreal] at haccepted
  exact (haccepted hlead "/p/e/b.js").mpr (by decide +kernel)

def circleFiles : Files :=
  ⟨.dir [("p", .dir [("b.js", .link "../out/secret.js"), ("loop", .link "loop"),
      ("c.js", .link "missing/../loop/../b.js")]),
    ("out", .dir [("secret.js", .file ⟨#[101, 118, 97, 108, 40, 120, 41, 59, 10]⟩ 1)])]⟩

theorem circle_realParts : circleFiles.realParts "/p" = ["p"] ∧
    circleFiles.realParts "/p/c.js" = ["p", "b.js"] := by
  have hp : parts "/p" = ["p"] ∧ parts "/p/c.js" = ["p", "c.js"] ∧ parts "loop" = ["loop"] ∧
      parts "missing/../loop/../b.js" = ["missing", "..", "loop", "..", "b.js"] ∧
      isAbsolute "loop" = false ∧ isAbsolute "missing/../loop/../b.js" = false := by decide +kernel
  have hdots : resolveDots true ["p", "loop", "..", "b.js"] = ["p", "b.js"] := by decide +kernel
  have hcount : circleFiles.root.linkCount = 3 := by decide +kernel
  rw [Files.realParts, Files.realParts, hcount]
  simp [hp, hdots, Entry.realWay, circleFiles, Entry.at?, Entry.child?, assocGet?, WayStep.name?,
    List.filterMap]

theorem circle_find : circleFiles.find "/p/b.js" = .ok (["out", "secret.js"],
    .file ⟨#[101, 118, 97, 108, 40, 120, 41, 59, 10]⟩ 1) := by
  have hp : parts "/p/b.js" = ["p", "b.js"] ∧ parts "../out/secret.js" = ["..", "out", "secret.js"] ∧
      isAbsolute "../out/secret.js" = false ∧ ¬ maxNameBytes < "p".utf8ByteSize ∧
      ¬ maxNameBytes < "b.js".utf8ByteSize ∧ ¬ maxNameBytes < "out".utf8ByteSize ∧
      ¬ maxNameBytes < "secret.js".utf8ByteSize := by decide +kernel
  simp [Files.find, hp, circleFiles, maxLinks, Entry.walk, Entry.at?, Entry.child?, assocGet?]

/-- A scan of the project reads a file beside it. -/
theorem circle_read_outside : ∃ b,
    ReflTransGen (Batch.Step { cwd := "/p" } circleFiles) (Batch.start { cache := none } ["/p/c.js"]) b ∧
    ("/p/c.js", Stage.judging ⟨"/p/c.js", "/p/b.js", 1⟩ "eval(x);\n".toList) ∈ b.stages ∧
    circleFiles.find "/p/b.js" = .ok (["out", "secret.js"],
      .file ⟨#[101, 118, 97, 108, 40, 120, 41, 59, 10]⟩ 1) ∧
    ¬ circleFiles.realParts "/p" <+: ["out", "secret.js"] := by
  have hplace : circleFiles.validatePath "/p/c.js" "/p" = .ok "/p/b.js" := by
    have hfull : circleFiles.fullPath "/p" "/p/c.js" = "/p/c.js" := by
      rw [Files.fullPath, circle_realParts.1]
      decide +kernel
    rw [Files.validatePath_eq_ok, hfull, circle_realParts.1, circle_realParts.2]
    decide +kernel
  have hread : circleFiles.readText "/p/b.js" = .ok "eval(x);\n".toList := by
    have hbytes : circleFiles.readBytes "/p/b.js" =
        .ok ⟨#[101, 118, 97, 108, 40, 120, 41, 59, 10]⟩ := by
      rw [Files.readBytes, circle_find]
    rw [Files.readText_of_readBytes hbytes]
    decide +kernel
  have hvet : Scanner.vet { cwd := "/p" } circleFiles "/p/c.js" = .ok ⟨"/p/c.js", "/p/b.js", 1⟩ := by
    simp [Scanner.vet, hplace, Files.validateFile, circle_find, defaultMaxSize, ByteArray.size, bind,
      Except.bind, pure, Except.pure]
  obtain ⟨b, hrun, hmem⟩ := judging_reachable hvet hread
  refine ⟨b, hrun, hmem, circle_find, ?_⟩
  rw [circle_realParts.1]
  decide

end Scanner

end EdgeAudit

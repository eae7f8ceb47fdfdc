import EdgeAudit.Proofs.FindingPlaces
import EdgeAudit.Proofs.ScanOrder
import EdgeAudit.Proofs.WorkerSession

/-!
When a scan returns: no fault of a scanned file stops it and no exception of a rule, but an ignore file
with a line that cannot be read does, and so do patterns that stand for too many texts, a rule that ends
the program, a worker nothing comes back from and a path or a tree that is too deep for the lookups.
-/

namespace EdgeAudit

namespace Glob

mutual

theorem Braced.length_texts : ∀ b : Braced, b.texts.length = b.count
  | .text _ => rfl
  | .choice options => Braced.length_textsEach options

theorem Braced.length_textsRow : ∀ row : List Braced, (textsRow row).length = countRow row
  | [] => rfl
  | b :: bs => by
    rw [textsRow, countRow, List.length_flatMap, ← length_texts b, ← length_textsRow bs]
    simp

theorem Braced.length_textsEach :
    ∀ rows : List (List Braced), (textsEach rows).length = countEach rows
  | [] => rfl
  | row :: rows => by
    rw [textsEach, countEach, List.length_append, length_textsRow row, length_textsEach rows]

end

def Bounded (patterns : List String) : Prop :=
  (patterns.map fun p => (Braced.textsRow (braced p.toList)).length).sum ≤ Braced.maxTexts

instance (patterns : List String) : Decidable (Bounded patterns) :=
  inferInstanceAs (Decidable (_ ≤ _))

variable {patterns : List String}

theorem expandBraces_returns : (∃ texts, expandBraces patterns = .ok texts) ↔ Bounded patterns := by
  have hcount : ((patterns.map fun p => braced p.toList).map Braced.countRow).foldr (· + ·) 0 =
      (patterns.map fun p => (Braced.textsRow (braced p.toList)).length).sum := by
    simp only [Braced.length_textsRow, List.map_map]
    rfl
  simp only [expandBraces, Bounded, hcount]
  split
  · rename_i hmany
    constructor
    · rintro ⟨texts, ht⟩
      cases ht
    · intro hfew
      omega
  · rename_i hfew
    exact ⟨fun _ => by omega, fun _ => ⟨_, rfl⟩⟩

theorem matchesAny_returns (path : String) :
    (∃ b, matchesAny patterns path = .ok b) ↔ Bounded patterns := by
  rw [← expandBraces_returns]
  exact bind_pure_returns

theorem bounded_nil : Bounded [] := by
  decide

theorem bounded_defaultIncluded : Bounded defaultIncluded := by
  decide +kernel

end Glob

namespace Files

open Glob Ignore

variable {f : Files} {cwd : String} {w : Wanted} {excluded : Option (List String)}

def Overlong (f : Files) (path : String) : Prop :=
  '\x00' ∉ path.toList ∧ (maxPathBytes < path.utf8ByteSize ∨ f.find path = .error .nameTooLong)

theorem test_returns {p : Entry → Bool} {path : String} :
    (∃ b, f.test p path = .ok b) ↔ ¬ f.Overlong path := by
  unfold test Overlong
  by_cases hnul : '\x00' ∈ path.toList
  · simp [hnul]
  · simp only [hnul, List.contains_eq_mem, decide_false, Bool.false_eq_true, if_false]
    by_cases hlong : maxPathBytes < path.utf8ByteSize
    · simp [hlong]
    · simp only [hlong, if_false]
      cases hfind : f.find path with
      | ok found => simp
      | error fault => cases fault <;> simp

theorem wantedBy_returns {raw : String} :
    (∃ w, f.wantedBy cwd raw = .ok w) ↔ ¬ f.Overlong (Path.tidy (Path.join cwd raw)) := by
  unfold wantedBy isFile isDir
  rw [bind_returns]
  constructor
  · rintro ⟨file, hfile, -⟩
    exact test_returns.mp ⟨file, hfile⟩
  · intro h
    obtain ⟨file, hfile⟩ := test_returns.mpr h
    refine ⟨file, hfile, ?_⟩
    cases file with
    | true => exact ⟨_, rfl⟩
    | false =>
      refine (bind_returns_of_total ?_).mpr (test_returns.mpr h)
      intro dir
      cases dir <;> exact ⟨_, rfl⟩

theorem wanted_returns {paths : List String} : (∃ w, f.wanted cwd paths = .ok w) ↔
    ∀ raw ∈ paths, ¬ f.Overlong (Path.tidy (Path.join cwd raw)) := by
  simp only [← wantedBy_returns, ← mapM_returns]
  exact bind_pure_returns

theorem glob_returns {patterns excluded : List String} :
    (∃ found, f.glob cwd patterns excluded = .ok found) ↔ Bounded patterns ∧ Bounded excluded := by
  rw [← expandBraces_returns, ← expandBraces_returns]
  unfold glob
  rw [bind_returns]
  constructor
  · rintro ⟨texts, ht, hout⟩
    exact ⟨⟨texts, ht⟩, bind_pure_returns.mp hout⟩
  · rintro ⟨⟨texts, ht⟩, hout⟩
    exact ⟨texts, ht, bind_pure_returns.mpr hout⟩

theorem foundByPatterns_returns {patterns excluded : List String} :
    (∃ found, f.foundByPatterns cwd patterns excluded = .ok found) ↔
      patterns = [] ∨ Bounded patterns ∧ Bounded excluded := by
  cases patterns with
  | nil => simp [foundByPatterns, pure, Except.pure]
  | cons p ps =>
    rw [← glob_returns (f := f)]
    simp only [foundByPatterns, List.isEmpty_cons, Bool.false_eq_true, if_false, reduceCtorEq,
      false_or]
    exact bind_pure_returns

theorem foundLiterally_returns {files excluded : List String} :
    (∃ found, foundLiterally cwd files excluded = .ok found) ↔ files = [] ∨ Bounded excluded := by
  unfold foundLiterally
  rw [bind_pure_returns, mapM_returns]
  have hone : ∀ path, (∃ kept, (do
      let place := Path.absolute cwd path
      if ← matchesAny excluded (Path.relativeTo place cwd) then return none else return some place :
        Except GlobError (Option String)) = .ok kept) ↔ Bounded excluded := by
    intro path
    rw [← matchesAny_returns (Path.relativeTo (Path.absolute cwd path) cwd)]
    refine bind_returns_of_total ?_
    intro b
    cases b <;> exact ⟨_, rfl⟩
  simp only [hone]
  cases files with
  | nil => simp
  | cons path paths =>
    simp only [reduceCtorEq, false_or]
    exact ⟨fun h => h path (by simp), fun h _ _ => h⟩

theorem candidates_returns : (∃ found, f.candidates cwd w excluded = .ok found) ↔
    Bounded w.patterns ∧ Bounded (excluded.getD defaultExcluded) := by
  unfold candidates
  rw [bind_returns]
  simp only [bind_pure_returns, foundLiterally_returns, exists_and_right, foundByPatterns_returns]
  obtain ⟨patterns, files⟩ := w
  cases patterns with
  | cons p ps =>
    simp only [List.isEmpty_cons, Bool.false_and, Bool.false_eq_true, if_false, reduceCtorEq, false_or]
    exact ⟨fun h => h.1, fun h => ⟨h, .inr h.2⟩⟩
  | nil =>
    cases files with
    | nil =>
      have hne : defaultIncluded ≠ [] := by simp [defaultIncluded]
      simp [hne, bounded_nil, bounded_defaultIncluded]
    | cons path paths => simp [bounded_nil]

/-- The ignore file of a directory, if it has a text, consists of lines that can be read. -/
def Legible (f : Files) (base : String) : Prop :=
  ∀ text, f.readLenient (Path.join base fileName) = .ok text →
    ∀ line ∈ lines text, ∃ p, IgnorePattern.ofLine? (String.ofList line) = .ok p

theorem ignoreFile_returns {base : String} :
    (∃ file, f.ignoreFile base = .ok file) ↔ f.Legible base := by
  simp only [ignoreFile, Legible]
  cases f.readLenient (Path.join base fileName) with
  | error fault => simp
  | ok text =>
    simp only [Except.ok.injEq, forall_eq', ← mapM_returns]
    rw [map_returns]
    exact bind_pure_returns

theorem ignoreFilesOf_returns {bases : List String} (notes : List LogLine) :
    (∃ files, f.ignoreFilesOf notes bases = .ok files) ↔ ∀ base ∈ bases, f.Legible base := by
  induction bases generalizing notes with
  | nil => simp [ignoreFilesOf]
  | cons base bases ih =>
    rw [List.forall_mem_cons, ← ignoreFile_returns, ignoreFilesOf, bind_returns]
    simp only [mapError_eq_ok]
    constructor
    · rintro ⟨file, hfile, hrest⟩
      refine ⟨⟨file, hfile⟩, ?_⟩
      cases file with
      | error note => exact (ih _).mp hrest
      | ok file => exact (ih _).mp ((bind_returns_of_total fun _ => ⟨_, rfl⟩).mp hrest)
    · rintro ⟨⟨file, hfile⟩, hrest⟩
      refine ⟨file, hfile, ?_⟩
      cases file with
      | error note => exact (ih _).mpr hrest
      | ok file => exact (bind_returns_of_total fun _ => ⟨_, rfl⟩).mpr ((ih _).mpr hrest)

theorem discover_returns : (∃ r, f.discover cwd w excluded true = .ok r) ↔
    ∃ found, f.candidates cwd w excluded = .ok found ∧
      (found ≠ [] → ∀ base ∈ f.ignoreBases cwd, f.Legible base) := by
  unfold discover
  rw [bind_returns]
  simp only [mapError_eq_ok]
  apply exists_congr
  intro found
  apply and_congr_right'
  cases found with
  | nil => simp [pure, Except.pure]
  | cons path paths =>
    rw [← ignoreFilesOf_returns []]
    simp only [List.isEmpty_cons, Bool.not_false, Bool.and_self, if_true, ne_eq, reduceCtorEq,
      not_false_eq_true, forall_const]
    rw [bind_pure_returns]
    simp only [mapError_eq_ok]
    rfl

end Files

namespace Config

variable {c : Config} {relative : String} {finding : Finding} {findings : List Finding}

/-- The setting of a finding's rule, if there is one, can be applied to it: its patterns stand for few
texts, and if the rule is turned off they match the file. -/
def Settles (c : Config) (relative : String) (finding : Finding) : Prop :=
  ∀ setting, c.setting? finding.ruleId = some setting → Glob.Bounded setting.ignore ∧
    (setting.level = .off → Glob.matchesAny setting.ignore relative = .ok true)

theorem ofSetting_returns {level : RuleLevel} :
    (∃ severity, Severity.ofSetting level.name = .ok severity) ↔ level ≠ .off := by
  cases level with
  | off =>
    have hword : Severity.ofSetting RuleLevel.off.name = .error (.unknown "off") := rfl
    simp [hword]
  | warn => exact ⟨fun _ => by decide, fun _ => ⟨.warning, rfl⟩⟩
  | error => exact ⟨fun _ => by decide, fun _ => ⟨.error, rfl⟩⟩

theorem applySetting_returns :
    (∃ kept, c.applySetting relative finding = .ok kept) ↔ c.Settles relative finding := by
  unfold applySetting Settles
  cases c.setting? finding.ruleId with
  | none => simp [pure, Except.pure]
  | some setting =>
    simp only [Option.some.injEq, forall_eq']
    rw [bind_returns, ← Glob.matchesAny_returns relative]
    simp only [mapError_eq_ok]
    constructor
    · rintro ⟨ignored, hignored, hrest⟩
      refine ⟨⟨ignored, hignored⟩, ?_⟩
      intro hoff
      cases ignored with
      | true => exact hignored
      | false =>
        obtain ⟨severity, hseverity⟩ := bind_pure_returns.mp hrest
        exact absurd hoff (ofSetting_returns.mp ⟨severity, mapError_eq_ok.mp hseverity⟩)
    · rintro ⟨⟨ignored, hignored⟩, hoff⟩
      refine ⟨ignored, hignored, ?_⟩
      cases ignored with
      | true => exact ⟨none, rfl⟩
      | false =>
        have hlevel : setting.level ≠ .off := by
          intro h
          rw [hoff h] at hignored
          cases hignored
        obtain ⟨severity, hseverity⟩ := ofSetting_returns.mpr hlevel
        exact bind_pure_returns.mpr ⟨severity, mapError_eq_ok.mpr hseverity⟩

theorem applySettings_returns : (∃ kept, c.applySettings relative findings = .ok kept) ↔
    ∀ finding ∈ findings, c.Settles relative finding := by
  simp only [← applySetting_returns, ← mapM_returns]
  exact bind_pure_returns

end Config

section Signatures

def Rule.Signed (r : Rule) : Prop :=
  ∀ source found, r.detect source = .ok found → ∀ x ∈ found, x.ruleId = r.id

def Rule.Local (r : Rule) : Prop :=
  ∀ source found, r.detect source = .ok found → ∀ x ∈ found, x.location.file = source.path

def Rule.Marks (r : Rule) : Prop :=
  ∀ source found, r.detect source = .ok found → ∀ x ∈ found,
    ∃ start stop severity message suggestions,
      x = source.finding start stop r.id severity message suggestions

theorem Rule.Marks.signed {r : Rule} (h : r.Marks) : r.Signed := by
  intro source found hfound x hx
  obtain ⟨start, stop, severity, message, suggestions, rfl⟩ := h source found hfound x hx
  rfl

theorem Rule.Marks.isLocal {r : Rule} (h : r.Marks) : r.Local := by
  intro source found hfound x hx
  obtain ⟨start, stop, severity, message, suggestions, rfl⟩ := h source found hfound x hx
  rfl

theorem ModuleRule.toRule_marks (m : ModuleRule) (id : String) (sort : RuleSort)
    (occurrences : Source → List Occurrence) : (m.toRule id sort occurrences).Marks := by
  intro source found h x hx
  cases h
  obtain ⟨o, -, rfl⟩ := List.mem_map.mp hx
  exact ⟨_, _, _, _, _, rfl⟩

theorem timerRule_marks (threshold : Number.Quantity) : (timerRule threshold).Marks := by
  intro source found h x hx
  obtain ⟨parts, hparts, hfound⟩ := bind_eq_ok.mp h
  cases hfound
  obtain ⟨part, hpart, rfl⟩ := List.mem_filterMap.mp hx
  obtain ⟨g, hg, rfl⟩ := mapM_ok hparts
  obtain ⟨o, ho, hgo⟩ := List.mem_map.mp hpart
  have hone := hg o ho
  rw [hgo, timerFinding] at hone
  split at hone
  · cases hone
  · split at hone
    · cases hone
    · split at hone
      · cases hone
      · cases hone
        exact ⟨_, _, _, _, _, rfl⟩

theorem BuiltIn.rule_marks (b : BuiltIn) : b.rule.Marks := by
  cases b with
  | forbidden m => exact m.toRule_marks _ _ _
  | caution m => exact m.toRule_marks _ _ _
  | buffer m => exact m.toRule_marks _ _ _
  | dynamicCode =>
    intro source found h x hx
    cases h
    obtain ⟨o, -, rfl⟩ := List.mem_map.mp hx
    exact ⟨_, _, _, _, _, rfl⟩
  | wasmSync =>
    intro source found h x hx
    cases h
    obtain ⟨o, -, rfl⟩ := List.mem_map.mp hx
    exact ⟨_, _, _, _, _, rfl⟩
  | longTimer threshold => exact timerRule_marks threshold
  | dependency table =>
    intro source found h x hx
    cases h
    obtain ⟨o, -, hx⟩ := List.mem_filterMap.mp hx
    obtain ⟨flagged, -, rfl⟩ := Option.map_eq_some_iff.mp hx
    exact ⟨_, _, _, _, _, rfl⟩

theorem BuiltIn.rule_signed (b : BuiltIn) : b.rule.Signed :=
  b.rule_marks.signed

theorem CustomRule.toRule_marks (rule : CustomRule) : rule.toRule.Marks := by
  intro source found h x hx
  have hfound : found = rule.report source := by
    change rule.detect source = .ok found at h
    unfold CustomRule.detect at h
    split at h
    · cases h
    · split at h
      · split at h
        · cases h
        · cases h
          rfl
      · cases h
        rfl
  rw [hfound] at hx
  obtain ⟨start, -, rfl⟩ := List.mem_map.mp hx
  exact ⟨_, _, _, _, _, rfl⟩

theorem Executor.execute_ok {e : Executor} {t : Task} {limit : Option Number.Binary64}
    {found : List Finding} (h : (e.execute t limit).1 = .ok (.ok found)) : t.run = .ok found := by
  have houtcome : t.outcome = .ok (.ok found) := by
    rw [execute_outcome] at h
    cases e with
    | here => exact mapError_eq_ok.mp h
    | isolated worker limit' =>
      cases hmade : t.outcome with
      | error failure =>
        rw [hmade] at h
        obtain ⟨stop, hstop, -⟩ | ⟨cause, hcause⟩ := Worker.deliver_exit (worker t.path) t.path
          (limit.getD limit') failure
        · cases h.symm.trans hstop
        · cases h.symm.trans hcause
      | ok outcome =>
        rw [hmade] at h
        obtain hthrough | ⟨failure, hfailure, -⟩ | ⟨cause, hcause⟩ := Worker.deliver_outcome (worker t.path) t.path
          (limit.getD limit')
        · cases h.symm.trans (hthrough outcome)
          rfl
        · cases h.symm.trans (hfailure outcome)
        · cases h.symm.trans (hcause outcome)
  unfold Task.outcome at houtcome
  cases hrun : t.run with
  | ok found' =>
    rw [hrun] at houtcome
    cases houtcome
    rfl
  | error failure =>
    rw [hrun] at houtcome
    cases hexit : failure.exitCode?.isSome <;> simp [hexit] at houtcome

end Signatures

namespace Scanner

variable {s : Scanner} {f : Files} {path : String}

def Reports (s : Scanner) (f : Files) (path : String) (finding : Finding) : Prop :=
  ∃ text found, f.sight s.cwd s.maxSize path = .readable text ∧
    (s.executor.execute (s.task path text) none).1 = .ok (.ok found) ∧ finding ∈ found

theorem returns_iff : s.Returns f path ↔
    (∀ text, f.sight s.cwd s.maxSize path = .readable text → s.executor.Returns (s.task path text) none) ∧
    ∀ finding, s.Reports f path finding → s.config.Settles (s.relative path) finding := by
  unfold Returns alone Reports
  cases f.sight s.cwd s.maxSize path with
  | rejected fault => simp [Sight.scanned, Sight.executed?]
  | unreadable fault => simp [Sight.scanned, Sight.executed?]
  | readable text =>
    simp only [Sight.scanned, Sight.executed?, Sight.readable.injEq, forall_eq', ← Executor.execute_returns, task]
    cases ho : (s.executor.execute ⟨path, text, s.config.target, s.config.strict, s.rules⟩ none).1 with
    | error cause => simp
    | ok outcome =>
      cases outcome with
      | error failure =>
        refine ⟨fun _ => ⟨⟨_, rfl⟩, ?_⟩, fun _ => ⟨_, rfl⟩⟩
        rintro finding ⟨text', found, rfl, hfound, -⟩
        cases ho.symm.trans hfound
      | ok found =>
        refine (bind_pure_returns.trans Config.applySettings_returns).trans ?_
        constructor
        · intro hall
          refine ⟨⟨_, rfl⟩, ?_⟩
          rintro finding ⟨text', found', rfl, hfound, hmem⟩
          cases ho.symm.trans hfound
          exact hall finding hmem
        · rintro ⟨-, hall⟩ finding hmem
          exact hall finding ⟨text, found, rfl, ho, hmem⟩

/-- What has to hold for a scan to return. -/
structure Unhindered (s : Scanner) (f : Files) (changes : ChangeSet) : Prop where
  shallow : s.outOfStack = false
  named : ∀ raw ∈ s.paths, ¬ f.Overlong (Path.tidy (Path.join s.cwd raw))
  included : ∀ w, s.wanted f = .ok w → Glob.Bounded w.patterns
  excluded : Glob.Bounded (s.config.excluded.getD defaultExcluded)
  ignored : ∀ w found, s.wanted f = .ok w → f.candidates s.cwd w s.config.excluded = .ok found →
    found ≠ [] → ∀ base ∈ f.ignoreBases s.cwd, f.Legible base
  executed : ∀ found notes, s.discover f = .ok (found, notes) →
    ∀ path ∈ (s.selected changes found).1, ∀ text, f.sight s.cwd s.maxSize path = .readable text →
      s.executor.Returns (s.task path text) none
  settled : ∀ found notes, s.discover f = .ok (found, notes) →
    ∀ path ∈ (s.selected changes found).1, ∀ finding, s.Reports f path finding →
      s.config.Settles (s.relative path) finding

theorem wanted_returns : (∃ w, s.wanted f = .ok w) ↔
    ∀ raw ∈ s.paths, ¬ f.Overlong (Path.tidy (Path.join s.cwd raw)) := by
  unfold wanted
  cases hpaths : s.paths with
  | nil => simp
  | cons raw raws => exact Files.wanted_returns

theorem discover_returns : (∃ r, s.discover f = .ok r) ↔
    ∃ w, s.wanted f = .ok w ∧ ∃ found, f.candidates s.cwd w s.config.excluded = .ok found ∧
      (found ≠ [] → ∀ base ∈ f.ignoreBases s.cwd, f.Legible base) := by
  unfold discover
  rw [bind_returns]
  simp only [mapError_eq_ok, Files.discover_returns]

theorem executor_returns_of_stays (hhere : s.executor = .here) (hstay : ∀ rule ∈ s.registry.rules, rule.Stays)
    (path : String) (text : List Char) : s.executor.Returns (s.task path text) none := by
  have hrules : ∀ rule ∈ s.rules, rule.Stays := fun rule hrule =>
    hstay rule (List.mem_of_mem_filter (List.mem_of_mem_filter hrule))
  obtain ⟨outcome, ho⟩ := Task.outcome_of_stays (t := s.task path text) hrules
  simp [hhere, Executor.Returns, ho, Except.isOk, Except.toBool]

theorem level_of_reports (hrules : ∀ r ∈ s.registry.enabledRules, r.Signed) {finding : Finding}
    (h : s.Reports f path finding) {setting : RuleSetting}
    (hsetting : s.config.setting? finding.ruleId = some setting) : setting.level ≠ .off := by
  obtain ⟨text, found, -, hfound, hmem⟩ := h
  obtain ⟨g, hg, rfl⟩ := detectAll_ok (Executor.execute_ok hfound)
  obtain ⟨part, hpart, hmem⟩ := List.mem_flatten.mp hmem
  obtain ⟨r, hr, rfl⟩ := List.mem_map.mp hpart
  obtain ⟨henabled, hon⟩ := List.mem_filter.mp hr
  have hid := hrules r henabled _ _ (hg r hr) finding hmem
  rw [hid] at hsetting
  intro hoff
  simp [Config.isDisabled, hsetting, hoff] at hon

variable {changes : ChangeSet} {elapsed : Number.Binary64}

theorem Unhindered.returns (h : s.Unhindered f changes) (elapsed : Number.Binary64)
    (cache : Option FindingCache) : ∃ out, s.scan f changes elapsed cache = .ok out := by
  obtain ⟨w, hw⟩ := wanted_returns.mpr h.named
  obtain ⟨all, hall⟩ := Files.candidates_returns.mpr ⟨h.included w hw, h.excluded⟩
  obtain ⟨⟨found, notes⟩, hd⟩ := discover_returns.mpr ⟨w, hw, all, hall, h.ignored w all hw hall⟩
  exact scan_returns h.shallow hd
    (fun path hp => returns_iff.mpr ⟨h.executed found notes hd path hp, h.settled found notes hd path hp⟩)
    elapsed cache

theorem unhindered_of_scan {out : ScanOutcome} (h : s.scan f changes elapsed none = .ok out) :
    s.Unhindered f changes := by
  obtain ⟨found, notes, scans, hd, hall, -⟩ :=
    scans_known (serves_reliable s f) (fun c hc => by cases hc) (scan_scans h)
  obtain ⟨w, hw, all, hcandidates, hignored⟩ := discover_returns.mp ⟨_, hd⟩
  have hbounded := Files.candidates_returns.mp ⟨all, hcandidates⟩
  have hfiles : ∀ found' notes', s.discover f = .ok (found', notes') →
      ∀ path ∈ (s.selected changes found').1, s.Returns f path := by
    intro found' notes' hd' path hp
    cases hd.symm.trans hd'
    exact ⟨_, mem_returns hall hp⟩
  refine ⟨(scan_eq_ok.mp h).1, wanted_returns.mp ⟨w, hw⟩, ?_, hbounded.2, ?_,
    fun found' notes' hd' path hp => (returns_iff.mp (hfiles found' notes' hd' path hp)).1,
    fun found' notes' hd' path hp => (returns_iff.mp (hfiles found' notes' hd' path hp)).2⟩
  · intro w' hw'
    rw [hw] at hw'
    cases hw'
    exact hbounded.1
  · intro w' all' hw' hall'
    rw [hw] at hw'
    cases hw'
    rw [hcandidates] at hall'
    cases hall'
    exact hignored

def illegibleFiles : Files :=
  ⟨.dir [("p", .dir [(".gitignore", .file ⟨#[33, 10]⟩ 1),
    ("a.js", .file ⟨#[101, 118, 97, 108, 40, 120, 41, 59, 10]⟩ 1)])]⟩

theorem illegible_candidates : illegibleFiles.candidates "/p" ⟨[], ["/p/a.js"]⟩ none =
    .ok ["/p/a.js"] := by
  have hliterally : Files.foundLiterally "/p" ["/p/a.js"] defaultExcluded = .ok ["/p/a.js"] := by
    decide +kernel
  have honce : (["/p/a.js"] : List String).eraseDups = ["/p/a.js"] := by
    decide +kernel
  simp [Files.candidates, Files.foundByPatterns, hliterally, honce, bind, Except.bind, pure, Except.pure]

theorem illegible_ignoreFiles : illegibleFiles.ignoreFiles "/p" = .error ⟨.invalid "!", []⟩ := by
  have hp : Path.parts "/p" = ["p"] ∧ Path.parts "/p/.gitignore" = ["p", ".gitignore"] ∧
    ¬ maxNameBytes < "p".utf8ByteSize ∧ ¬ maxNameBytes < ".gitignore".utf8ByteSize := by decide +kernel
  have hsort : ([(".gitignore", []), ("a.js", [])] : List (String × List String)).mergeSort
      (fun a b => a.1 ≤ b.1) = [(".gitignore", []), ("a.js", [])] :=
    List.mergeSort_of_pairwise (by decide +kernel)
  have hbases : illegibleFiles.ignoreBases "/p" = ["/p"] := by
    simp [hsort, Files.ignoreBases, Files.find, illegibleFiles, Entry.walk, hp, Entry.at?,
      Entry.child?, assocGet?, Entry.ignoreBases, Entry.ignoreBasesEach, Entry.leadsToDir?,
      Ignore.fileName, Ignore.prunedNames]
  have hread : illegibleFiles.readBytes "/p/.gitignore" = .ok ⟨#[33, 10]⟩ := by
    simp [Files.readBytes, Files.find, hp, illegibleFiles, Entry.walk, Entry.at?, Entry.child?, assocGet?]
  have htext : Text.unifyLineEnds (Text.decodeUtf8Leniently (⟨#[33, 10]⟩ : ByteArray).toList) =
      ['!', '\n'] := by decide +kernel
  have hpatterns : Ignore.patternsOf ['!', '\n'] = .error (.invalid "!") := rfl
  have hpath : Path.join "/p" Ignore.fileName = "/p/.gitignore" := by decide +kernel
  simp [Files.ignoreFiles, hbases, Files.ignoreFilesOf, Files.ignoreFile, Files.readLenient, hpath,
    hread, htext, hpatterns, Except.map, bind, Except.bind, pure, Except.pure]

end Scanner

end EdgeAudit

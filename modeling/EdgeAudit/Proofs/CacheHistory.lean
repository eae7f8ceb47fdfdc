import EdgeAudit.Proofs.FileWrites
import EdgeAudit.Proofs.ScanOrder

/-!
The cache of a scanner over all that it was used for. When one task of a scan fails, its siblings are not
stopped: they go on beside whatever follows, until they are done or dropped. As long as none of these strays
reads a file that has changed since the stray has looked at its time, no scan can tell the cache from none.
-/

namespace EdgeAudit

open Relation

/-- Tasks that scans have left behind, each with how far it has come, beside the batch under way. -/
structure Beside where
  strays : List (String × Stage)
  batch : Batch

namespace Beside

/-- A step of the batch or of a stray. A stray is late if the file that it reads is not as it was when the
stray looked at it; `late` says whether that may happen. -/
inductive Step (s : Scanner) (f : Files) (late : Bool) : Beside → Beside → Prop
  | own {strays : List (String × Stage)} {b b' : Batch} (h : Batch.Step s f b b') :
      Step s f late ⟨strays, b⟩ ⟨strays, b'⟩
  | stray {b : Batch} {st : ScanState} {before after : List (String × Stage)} {path : String}
      {stage stage' : Stage} (prompt : late = true ∨ ∀ file, stage = .reading file → s.vet f path = .ok file)
      (h : FileStep s f path stage b.progress.toScanState stage' st) :
      Step s f late ⟨before ++ (path, stage) :: after, b⟩
        ⟨before ++ (path, stage') :: after, ⟨{ b.progress with toScanState := st }, b.stages⟩⟩

inductive Runs (s : Scanner) (f : Files) (late : Bool) : List (String × Stage) → Progress →
    List (List String) → List FileScan → List (String × Stage) → Progress → Prop
  | nil (strays : List (String × Stage)) (p : Progress) : Runs s f late strays p [] [] strays p
  | cons {strays strays' strays'' : List (String × Stage)} {p p' : Progress} {b : Batch} {batch : List String}
      {batches : List (List String)} {scans more : List FileScan}
      (h : ReflTransGen (Step s f late) ⟨strays, Batch.start p batch⟩ ⟨strays', b⟩)
      (done : b.stages.map (·.2) = scans.map .done)
      (rest : Runs s f late strays' b.progress batches more strays'' p') :
      Runs s f late strays p (batch :: batches) (scans ++ more) strays'' p'

variable {s : Scanner} {f : Files} {late : Bool} {L Q : String → Stage → Prop} {C : ScanState → Prop}
  {strays strays' : List (String × Stage)}

def Holds (L Q : String → Stage → Prop) (C : ScanState → Prop) (x : Beside) : Prop :=
  (∀ y ∈ x.strays, L y.1 y.2) ∧ x.batch.Holds Q C

structure Keeps (s : Scanner) (f : Files) (late : Bool) (L Q : String → Stage → Prop)
    (C : ScanState → Prop) : Prop where
  own : ∀ path stage st stage' st', FileStep s f path stage st stage' st' →
    Q path stage → C st → Q path stage' ∧ C st'
  stray : ∀ path stage st stage' st',
    (late = true ∨ ∀ file, stage = .reading file → s.vet f path = .ok file) →
    FileStep s f path stage st stage' st' → L path stage → C st → L path stage' ∧ C st'

theorem step_holds (keep : Keeps s f late L Q C) {x x' : Beside} (h : Step s f late x x')
    (hx : x.Holds L Q C) : x'.Holds L Q C := by
  obtain ⟨hL, hQ, hC⟩ := hx
  cases h with
  | own h => exact ⟨hL, Batch.step_holds keep.own h ⟨hQ, hC⟩⟩
  | @stray b st before after path stage stage' prompt h =>
    obtain ⟨hl, hc⟩ := keep.stray _ _ _ _ _ prompt h (hL (path, stage) (by simp)) hC
    refine ⟨?_, hQ, hc⟩
    intro y hy
    rcases List.mem_append.mp hy with hy | hy
    · exact hL y (by simp [hy])
    · rcases List.mem_cons.mp hy with rfl | hy
      · exact hl
      · exact hL y (by simp [hy])

theorem reachable_holds (keep : Keeps s f late L Q C) {x x' : Beside}
    (h : ReflTransGen (Step s f late) x x') (hx : x.Holds L Q C) : x'.Holds L Q C := by
  induction h with
  | refl => exact hx
  | tail _ step ih => exact step_holds keep step ih

theorem reachable_paths {x x' : Beside} (h : ReflTransGen (Step s f late) x x') :
    x'.batch.stages.map (·.1) = x.batch.stages.map (·.1) := by
  induction h with
  | refl => rfl
  | tail _ step ih =>
    cases step with
    | own h => exact (Batch.step_paths h).trans ih
    | stray => exact ih

theorem Runs.holds (keep : Keeps s f late L Q C) (hQ : ∀ path, Q path .waiting) {p p' : Progress}
    {batches : List (List String)} {scans : List FileScan} (h : Runs s f late strays p batches scans strays' p')
    (hL : ∀ y ∈ strays, L y.1 y.2) (hC : C p.toScanState) :
    List.Forall₂ (fun path scan => Q path (.done scan)) batches.flatten scans ∧
      (∀ y ∈ strays', L y.1 y.2) ∧ C p'.toScanState := by
  induction h with
  | nil strays p => exact ⟨.nil, hL, hC⟩
  | @cons strays strays' strays'' p p' b batch batches scans more h done rest ih =>
    obtain ⟨hL', hbatch⟩ := reachable_holds keep h ⟨hL, Batch.start_holds hQ batch hC⟩
    have hpaths : b.stages.map (·.1) = batch := by
      have hsame := reachable_paths h
      simpa [Batch.start, Function.comp_def] using hsame
    have hfirst := Batch.forall₂_stages hbatch.1
    rw [hpaths, done, List.forall₂_map_right_iff] at hfirst
    obtain ⟨hrest, hends⟩ := ih hL' hbatch.2
    exact ⟨List.rel_append hfirst hrest, hends⟩

theorem own_steps (strays : List (String × Stage)) {b b' : Batch} (h : ReflTransGen (Batch.Step s f) b b') :
    ReflTransGen (Step s f late) ⟨strays, b⟩ ⟨strays, b'⟩ := by
  induction h with
  | refl => exact .refl
  | tail _ step ih => exact ih.tail (.own step)

theorem runs_of_batchesRun {p p' : Progress} {batches : List (List String)} {scans : List FileScan}
    (h : BatchesRun s f p batches scans p') (strays : List (String × Stage)) :
    Runs s f late strays p batches scans strays p' := by
  induction h with
  | nil p => exact .nil strays p
  | cons h _ ih =>
    obtain ⟨b, hrun, hdone, rfl⟩ := h
    exact .cons (own_steps strays hrun) hdone ih

end Beside

structure Occasion where
  files : Files
  changes : ChangeSet := {}
  elapsed : Number.Binary64 := .ofInt 0
  parallel : Bool := false
  maxWorkers : Option Int := none

namespace Scanner

variable {s : Scanner} {f g : Files} {path : String} {late : Bool} {trees : List Files}
  {strays strays' : List (String × Stage)}

def atOccasion (s : Scanner) (m : Occasion) : Scanner :=
  { s with parallel := m.parallel, maxWorkers := m.maxWorkers }

def ScansBeside (s : Scanner) (f : Files) (late : Bool) (changes : ChangeSet) (elapsed : Number.Binary64)
    (cache : Option FindingCache) (strays : List (String × Stage)) (out : ScanOutcome)
    (strays' : List (String × Stage)) : Prop :=
  s.outOfStack = false ∧ ∃ found notes scans p, s.discover f = .ok (found, notes) ∧
    Beside.Runs s f late strays { cache, notes := s.openingNotes changes found notes }
      (s.batches (s.selected changes found).1) scans strays' p ∧
    out = ⟨resultOf scans cache.isSome (.real (elapsed.scale 1000)), p.completed, p.notes, p.cache⟩

theorem Scans.beside {changes : ChangeSet} {elapsed : Number.Binary64} {cache : Option FindingCache}
    {out : ScanOutcome} (h : s.Scans f changes elapsed cache out) (late : Bool) (strays : List (String × Stage)) :
    s.ScansBeside f late changes elapsed cache strays out strays := by
  obtain ⟨hstack, found, notes, scans, p, hd, hrun, rfl⟩ := h
  exact ⟨hstack, found, notes, scans, p, hd, Beside.runs_of_batchesRun hrun strays, rfl⟩

/-- A scan that fails leaves what was stored before that, by the batches that came to their end and by the
steps of the next one, and the files of that one become strays. -/
def Stops (s : Scanner) (f : Files) (late : Bool) (changes : ChangeSet) (cache : Option FindingCache)
    (strays : List (String × Stage)) (cache' : Option FindingCache) (strays' : List (String × Stage)) :
    Prop :=
  ∃ found notes finished batch rest scans between p more b, s.discover f = .ok (found, notes) ∧
    s.batches (s.selected changes found).1 = finished ++ batch :: rest ∧
    Beside.Runs s f late strays { cache, notes := s.openingNotes changes found notes } finished scans between p ∧
    ReflTransGen (Beside.Step s f late) ⟨between, Batch.start p batch⟩ ⟨more, b⟩ ∧
    cache' = b.progress.cache ∧ strays' = more ++ b.stages

def Strays (s : Scanner) (f : Files) (late : Bool) (cache : Option FindingCache)
    (strays : List (String × Stage)) (cache' : Option FindingCache) (strays' : List (String × Stage)) :
    Prop :=
  ∃ b, ReflTransGen (Beside.Step s f late) ⟨strays, ⟨{ cache }, []⟩⟩ ⟨strays', b⟩ ∧ cache' = b.progress.cache

/-- The occasions on which a scanner was used so far, the cache that this has left, and the strays. -/
inductive Course (s : Scanner) (late : Bool) :
    List Occasion → Option FindingCache → List (String × Stage) → Prop
  | opened {capacity : Int} {cache : FindingCache} (h : Cache.create capacity = .ok cache) :
      Course s late [] (some cache) []
  | scanned {past : List Occasion} {m : Occasion} {cache : Option FindingCache} {out : ScanOutcome}
      {strays strays' : List (String × Stage)} (before : Course s late past cache strays)
      (h : (s.atOccasion m).ScansBeside m.files late m.changes m.elapsed cache strays out strays') :
      Course s late (past ++ [m]) out.cache strays'
  | stopped {past : List Occasion} {m : Occasion} {cache cache' : Option FindingCache}
      {strays strays' : List (String × Stage)} (before : Course s late past cache strays)
      (h : (s.atOccasion m).Stops m.files late m.changes cache strays cache' strays') :
      Course s late (past ++ [m]) cache' strays'
  | strayed {past : List Occasion} {m : Occasion} {cache cache' : Option FindingCache}
      {strays strays' : List (String × Stage)} (before : Course s late past cache strays)
      (h : (s.atOccasion m).Strays m.files late cache strays cache' strays') :
      Course s late (past ++ [m]) cache' strays'

def History (s : Scanner) (past : List Occasion) (cache : Option FindingCache) : Prop :=
  ∃ late strays, s.Course late past cache strays

/-- Through one path the same bytes are reached whenever the time of the last change is the same. -/
def Unambiguous (s : Scanner) (trees : List Files) : Prop :=
  ∀ f ∈ trees, ∀ g ∈ trees, ∀ path a b, s.vet f path = .ok a → s.vet g path = .ok b →
    a.mtime = b.mtime → f.readBytes a.place = g.readBytes b.place

theorem alone_congr {a b : Pending} (ha : s.vet f path = .ok a) (hb : s.vet g path = .ok b)
    (h : f.readBytes a.place = g.readBytes b.place) : s.alone f path = s.alone g path := by
  obtain ⟨bytes, hva, hpa⟩ := vet_version ha
  have hbytes : f.readBytes a.place = .ok bytes := Files.readBytes_version hpa hva
  have hfa : f.readText a.place = Files.textOf bytes := Files.readText_of_readBytes hbytes
  have hgb : g.readText b.place = Files.textOf bytes :=
    Files.readText_of_readBytes (h.symm.trans hbytes)
  cases ht : Files.textOf bytes with
  | error fault => rw [alone_unreadable ha (hfa.trans ht), alone_unreadable hb (hgb.trans ht)]
  | ok text =>
    rw [alone, alone, sight_readable ha (hfa.trans ht), sight_readable hb (hgb.trans ht)]

theorem serves_all_reliable {trees : List Files} (hu : s.Unambiguous trees) (hf : f ∈ trees) :
    s.Reliable f (fun path entry => ∀ g ∈ trees, s.Serves g path entry) where
  serves h := h f hf
  stored hv ha g hg _ hv' ht :=
    alone_congr hv' hv (hu g hg f hf _ _ _ hv' hv ht) ▸ ha

theorem fileStep_elsewhere {stage' : Stage} {st st' : ScanState} {file : Pending} {text : List Char}
    (h : FileStep s f path (.judging file text) st stage' st') (g : Files) :
    FileStep s g path (.judging file text) st stage' st' := by
  cases h with
  | judge h => exact .judge h

theorem keeps_known (hu : s.Unambiguous trees) (hf : f ∈ trees) :
    Beside.Keeps s f false (fun path stage => ∃ g ∈ trees, s.Known g path stage) (s.Known f)
      (·.Stores fun path entry => ∀ g ∈ trees, s.Serves g path entry) where
  own _ _ _ _ _ step := fileStep_known (serves_all_reliable hu hf) step
  stray path stage st stage' st' prompt step known hst := by
    obtain ⟨g, hg, hk⟩ := known
    have prompt := prompt.resolve_left (by decide)
    cases stage with
    | waiting =>
      obtain ⟨hk', hst'⟩ := fileStep_known (serves_all_reliable hu hf) step trivial hst
      exact ⟨⟨f, hf, hk'⟩, hst'⟩
    | reading file =>
      obtain ⟨hk', hst'⟩ := fileStep_known (serves_all_reliable hu hf) step (prompt file rfl) hst
      exact ⟨⟨f, hf, hk'⟩, hst'⟩
    | judging file text =>
      -- The text was read from `g`; what is made of it has nothing to do with the files of now.
      obtain ⟨hk', hst'⟩ := fileStep_known (serves_all_reliable hu hg) (fileStep_elsewhere step g) hk hst
      exact ⟨⟨g, hg, hk'⟩, hst'⟩
    | done scan => cases step

theorem course_serves (hu : s.Unambiguous trees) {past : List Occasion} {cache : Option FindingCache}
    (h : s.Course false past cache strays) (hpast : ∀ m ∈ past, m.files ∈ trees) :
    (∀ c, cache = some c → c.Forall fun path entry => ∀ g ∈ trees, s.Serves g path entry) ∧
      ∀ y ∈ strays, ∃ g ∈ trees, s.Known g y.1 y.2 := by
  induction h with
  | @opened capacity cache h =>
    refine ⟨?_, by simp⟩
    intro c hc
    cases hc
    exact Cache.forall_create h
  | @scanned past m cache out strays strays' _ h ih =>
    have hkeep := keeps_known (s := s.atOccasion m) hu (hpast m (by simp))
    obtain ⟨hcache, hstrays⟩ := ih fun m hm => hpast m (by simp [hm])
    obtain ⟨-, found, notes, scans, p, -, hrun, rfl⟩ := h
    obtain ⟨-, hstrays', hcache'⟩ := hrun.holds hkeep (fun _ => trivial) hstrays hcache
    exact ⟨hcache', hstrays'⟩
  | @stopped past m cache cache' strays strays' _ h ih =>
    have hm := hpast m (by simp)
    have hkeep := keeps_known (s := s.atOccasion m) hu hm
    obtain ⟨hcache, hstrays⟩ := ih fun m hm => hpast m (by simp [hm])
    obtain ⟨found, notes, finished, batch, rest, scans, between, p, more, b, -, -, hrun, hsteps, rfl, rfl⟩ := h
    obtain ⟨-, hbetween, hp⟩ := hrun.holds hkeep (fun _ => trivial) hstrays hcache
    obtain ⟨hmore, hstages, hstores⟩ := Beside.reachable_holds hkeep hsteps
      ⟨hbetween, Batch.start_holds (fun _ => trivial) batch hp⟩
    refine ⟨hstores, ?_⟩
    intro y hy
    rcases List.mem_append.mp hy with hy | hy
    · exact hmore y hy
    · exact ⟨m.files, hm, hstages y hy⟩
  | @strayed past m cache cache' strays strays' _ h ih =>
    have hkeep := keeps_known (s := s.atOccasion m) hu (hpast m (by simp))
    obtain ⟨hcache, hstrays⟩ := ih fun m hm => hpast m (by simp [hm])
    obtain ⟨b, hsteps, rfl⟩ := h
    obtain ⟨hstrays', -, hstores⟩ := Beside.reachable_holds hkeep hsteps ⟨hstrays, by simp, hcache⟩
    exact ⟨hstores, hstrays'⟩

theorem unambiguous_of_rewritten (h : f.Rewritten g) : s.Unambiguous [f, g] := by
  have hsame : ∀ path a b, s.vet f path = .ok a → s.vet g path = .ok b → a.mtime = b.mtime →
      f.readBytes a.place = g.readBytes b.place := by
    intro path a b ha hb ht
    obtain ⟨old, hold, hpa⟩ := vet_version ha
    obtain ⟨new, hnew, hpb⟩ := vet_version hb
    obtain ⟨bytes, mtime, hv, hlater⟩ := h.version? hold
    rw [hnew] at hv
    cases hv
    rw [Files.readBytes_version hpa hold, Files.readBytes_version hpb hnew]
    rcases hlater with hlt | ⟨hbytes, -⟩
    · omega
    · rw [hbytes]
  intro x hx y hy path a b ha hb ht
  simp only [List.mem_cons, List.not_mem_nil, or_false] at hx hy
  rcases hx with rfl | rfl <;> rcases hy with rfl | rfl
  · rw [ha] at hb
    cases hb
    rfl
  · exact hsame path a b ha hb ht
  · exact (hsame path b a hb ha ht.symm).symm
  · rw [ha] at hb
    cases hb
    rfl

theorem sample_rewritten {old bytes : ByteArray} {since mtime : Int} (h : since < mtime) :
    (sampleFiles old since).Rewritten (sampleFiles bytes mtime) := by
  refine ⟨"/p/a.js", _, old, since, bytes, mtime, sample_find_a old since, h, ?_⟩
  rw [Files.write, Files.place, sample_find_a]
  simp [sampleFiles, Entry.put, Entry.child?, Entry.entries, assocGet?, assocSet]

def endingRule : Rule :=
  { needleRule.toRule with
    detect := fun source => if source.path = "/p/b.js" then .error (.exits 1) else .ok (needleRule.report source) }

def endingScanner : Scanner :=
  { sampleScanner with incremental := true, registry := ⟨[endingRule]⟩ }

def needlesIn (text : List Char) : List Finding :=
  needleRule.report (Source.read "/p/a.js" text .auto false)

theorem needlesIn_eq_nil {text : List Char} : needlesIn text = [] ↔ places needleRule.needle.toList text = [] := by
  rw [needlesIn, CustomRule.report, List.map_eq_nil_iff, Source.read]

def lookedAt : Pending := ⟨"/p/a.js", "/p/a.js", 1⟩

def leftBehind (stage : Stage) : List (String × Stage) :=
  [("/p/a.js", stage), ("/p/b.js", .judging ⟨"/p/b.js", "/p/b.js", 1⟩ ['b'])]

def endedScan : Occasion where
  files := sampleFiles ⟨#[98]⟩ 1
  changes := ⟨["/p/a.js", "/p/b.js"], []⟩
  parallel := true

theorem ending_stops (late : Bool) : (endingScanner.atOccasion endedScan).Stops endedScan.files late
    endedScan.changes (some ⟨1, []⟩) [] (some ⟨1, []⟩) (leftBehind (.reading lookedAt)) := by
  let s := endingScanner.atOccasion endedScan
  let found := ["/p/a.js", "/p/b.js"]
  let p : Progress := { cache := some ⟨1, []⟩, notes := s.openingNotes endedScan.changes found [] }
  have hfiles : (s.selected endedScan.changes found).1 = found := by decide +kernel
  have hbatches : s.batches found = [] ++ found :: [] := by
    simp [s, batches, endingScanner, sampleScanner, atOccasion, endedScan, batchSize, defaultWorkers, inBatches, found]
  have hva : s.vet endedScan.files "/p/a.js" = .ok lookedAt := sample_vet ⟨#[98]⟩ 1 (by decide)
  have hvb : s.vet endedScan.files "/p/b.js" = .ok ⟨"/p/b.js", "/p/b.js", 1⟩ := sample_vet_b ⟨#[98]⟩ 1
  have hread : endedScan.files.readText (Pending.place ⟨"/p/b.js", "/p/b.js", 1⟩) = .ok ['b'] :=
    sample_readText_b ⟨#[98]⟩ 1
  have hfirst : Batch.Step s endedScan.files ⟨p, [] ++ ("/p/a.js", .waiting) :: [("/p/b.js", .waiting)]⟩
      ⟨p, [] ++ ("/p/a.js", .reading lookedAt) :: [("/p/b.js", .waiting)]⟩ :=
    .turn (by simp) (.suspend (inspect_miss hva rfl))
  have hsecond : Batch.Step s endedScan.files ⟨p, [("/p/a.js", .reading lookedAt)] ++ [("/p/b.js", .waiting)]⟩
      ⟨p, [("/p/a.js", .reading lookedAt)] ++ [("/p/b.js", .reading ⟨"/p/b.js", "/p/b.js", 1⟩)]⟩ :=
    .turn (by simp) (.suspend (inspect_miss hvb rfl))
  have hthird : Batch.Step s endedScan.files
      ⟨p, [("/p/a.js", .reading lookedAt)] ++ [("/p/b.js", .reading ⟨"/p/b.js", "/p/b.js", 1⟩)]⟩
      ⟨p, [("/p/a.js", .reading lookedAt)] ++ [("/p/b.js", .judging ⟨"/p/b.js", "/p/b.js", 1⟩ ['b'])]⟩ :=
    .turn (by simp) (.read hread)
  have hd : s.discover endedScan.files = .ok (found, []) := sample_discover ⟨#[98]⟩ 1
  have hall : s.batches (s.selected endedScan.changes found).1 = [] ++ found :: [] := by
    rw [hfiles, hbatches]
  have hsteps : ReflTransGen (Beside.Step s endedScan.files late) ⟨[], Batch.start p found⟩
      ⟨[], ⟨p, leftBehind (.reading lookedAt)⟩⟩ :=
    Beside.own_steps [] (((ReflTransGen.single hfirst).tail hsecond).tail hthird)
  exact ⟨found, [], [], found, [], [], [], p, [], _, hd, hall, .nil [] p, hsteps, rfl, rfl⟩

theorem ending_detect (text : List Char) :
    detectAll endingScanner.rules (Source.read "/p/a.js" text .auto false) = .ok (needlesIn text) := by
  have hrules : endingScanner.rules = [endingRule] := rfl
  have hdetect : endingRule.detect (Source.read "/p/a.js" text .auto false) = .ok (needlesIn text) := by
    simp [endingRule, Source.read, needlesIn]
  simp only [detectAll, hrules, List.mapM_cons, List.mapM_nil, hdetect, bind, Except.bind, pure, Except.pure,
    List.flatten_cons, List.flatten_nil, List.append_nil]

theorem ending_evaluate (st : ScanState) (text : List Char) : ∃ notes,
    endingScanner.evaluate st lookedAt text = .ok ({ path := "/p/a.js", findings := needlesIn text },
      ⟨st.cache.map fun c => c.set "/p/a.js" (needlesIn text) 1, notes⟩) := by
  have hrun : (endingScanner.executor.execute (endingScanner.task "/p/a.js" text) none).1 =
      .ok (.ok (needlesIn text)) := by
    have houtcome : (endingScanner.task "/p/a.js" text).outcome = .ok (.ok (needlesIn text)) := by
      rw [Task.outcome, show (endingScanner.task "/p/a.js" text).run = _ from ending_detect text]
    show (endingScanner.task "/p/a.js" text).outcome.mapError .ofRule = _
    rw [houtcome, mapError_ok]
  have hset : endingScanner.config.applySettings (endingScanner.relative "/p/a.js") (needlesIn text) =
      .ok (needlesIn text) := Config.applySettings_nil rfl _ _
  have hpath : lookedAt.path = "/p/a.js" := rfl
  exact ⟨_, by simp only [evaluate, hpath, hrun, hset, mapError_ok, bind, Except.bind]; rfl⟩

theorem ending_strays {bytes : ByteArray} {text : List Char} {mtime : Int} {late : Bool} {m : Occasion}
    (hfiles : m.files = sampleFiles bytes mtime) (htext : Files.textOf bytes = .ok text)
    (hprompt : late = true ∨ (endingScanner.atOccasion m).vet m.files "/p/a.js" = .ok lookedAt) :
    (endingScanner.atOccasion m).Strays m.files late (some ⟨1, []⟩) (leftBehind (.reading lookedAt))
      (some ⟨1, [("/p/a.js", ⟨needlesIn text, 1⟩)]⟩)
      (leftBehind (.done { path := "/p/a.js", findings := needlesIn text })) := by
  have hread : m.files.readText lookedAt.place = .ok text := by
    rw [hfiles]
    exact sample_readText _ mtime htext
  obtain ⟨notes, hjudge⟩ := ending_evaluate { cache := some ⟨1, []⟩ } text
  have hprompt' : late = true ∨ ∀ file, Stage.reading lookedAt = .reading file →
      (endingScanner.atOccasion m).vet m.files "/p/a.js" = .ok file := by
    refine hprompt.imp_right fun hv file hfile => ?_
    cases hfile
    exact hv
  have hfirst : Beside.Step (endingScanner.atOccasion m) m.files late
      ⟨[] ++ leftBehind (.reading lookedAt), ⟨{ cache := some ⟨1, []⟩ }, []⟩⟩
      ⟨[] ++ leftBehind (.judging lookedAt text), ⟨{ cache := some ⟨1, []⟩ }, []⟩⟩ :=
    .stray hprompt' (.read hread)
  have hsecond : Beside.Step (endingScanner.atOccasion m) m.files late
      ⟨[] ++ leftBehind (.judging lookedAt text), ⟨{ cache := some ⟨1, []⟩ }, []⟩⟩
      ⟨[] ++ leftBehind (.done { path := "/p/a.js", findings := needlesIn text }),
        ⟨{ cache := some ⟨1, [("/p/a.js", ⟨needlesIn text, 1⟩)]⟩, notes }, []⟩⟩ :=
    .stray (.inr fun _ h => by cases h) (.judge hjudge)
  exact ⟨_, (ReflTransGen.single hfirst).tail hsecond, rfl⟩

theorem ending_alone : endingScanner.alone (sampleFiles ⟨#[98]⟩ 1) "/p/a.js" =
    .ok { path := "/p/a.js", findings := needlesIn ['b'] } := by
  obtain ⟨notes, hjudge⟩ := ending_evaluate { cache := none } ['b']
  have hv : endingScanner.vet (sampleFiles ⟨#[98]⟩ 1) "/p/a.js" = .ok lookedAt := sample_vet ⟨#[98]⟩ 1 (by decide)
  rw [alone, sight_readable hv (sample_readText _ 1 sample_text)]
  exact (evaluate_eq_ok hjudge).1

theorem ending_course {bytes : ByteArray} {text : List Char} {mtime : Int} (late : Bool) {m : Occasion}
    (hfiles : m.files = sampleFiles bytes mtime) (htext : Files.textOf bytes = .ok text)
    (hprompt : late = true ∨ (endingScanner.atOccasion m).vet m.files "/p/a.js" = .ok lookedAt) :
    endingScanner.Course late [endedScan, m] (some ⟨1, [("/p/a.js", ⟨needlesIn text, 1⟩)]⟩)
      (leftBehind (.done { path := "/p/a.js", findings := needlesIn text })) := by
  have hopened : endingScanner.Course late [] (some ⟨1, []⟩) [] := .opened (show Cache.create 1 = _ from rfl)
  exact (hopened.stopped (ending_stops late)).strayed (ending_strays hfiles htext hprompt)

/-- A stray that reads its file too late stores what the next scan must not be served, for the file is again
as it was when the stray looked at it. -/
theorem late_stray_served : ∃ cache strays scan st,
    endingScanner.Course true [endedScan, { files := sampleFiles ⟨#[99]⟩ 2 }] cache strays ∧
    endingScanner.Unambiguous [sampleFiles ⟨#[98]⟩ 1, sampleFiles ⟨#[99]⟩ 2] ∧
    endingScanner.inspect (sampleFiles ⟨#[98]⟩ 1) { cache } "/p/a.js" = (.finished scan, st) ∧
    scan.findings = [] ∧ needlesIn ['b'] ≠ [] ∧ endingScanner.alone (sampleFiles ⟨#[98]⟩ 1) "/p/a.js" =
      .ok { path := "/p/a.js", findings := needlesIn ['b'] } := by
  have hist := ending_course true (m := { files := sampleFiles ⟨#[99]⟩ 2 }) rfl
    (by decide +kernel : Files.textOf ⟨#[99]⟩ = .ok ['c']) (.inl rfl)
  have hv : endingScanner.vet (sampleFiles ⟨#[98]⟩ 1) "/p/a.js" = .ok lookedAt := sample_vet ⟨#[98]⟩ 1 (by decide)
  have hit : (ScanState.lookup { cache := some ⟨1, [("/p/a.js", ⟨needlesIn ['c'], 1⟩)]⟩ } "/p/a.js" lookedAt.mtime).1 =
      some (needlesIn ['c']) := rfl
  obtain ⟨st, hi⟩ := inspect_hit hv hit
  have hnone : needlesIn ['c'] = [] := needlesIn_eq_nil.mpr (by decide +kernel)
  have hsome : needlesIn ['b'] ≠ [] := mt needlesIn_eq_nil.mp (by decide +kernel)
  exact ⟨_, _, _, st, hist, unambiguous_of_rewritten (sample_rewritten (by decide)), hi, hnone, hsome, ending_alone⟩

end Scanner

end EdgeAudit

import EdgeAudit.Proofs.FileOutcome
import Mathlib.Data.List.Forall2
import Mathlib.Logic.Relation

namespace EdgeAudit

open Relation

inductive Stage
  | waiting
  | reading (file : Pending)
  | judging (file : Pending) (text : List Char)
  | done (scan : FileScan)

/-- What one file does at a time. Between two of these steps other files may take theirs. -/
inductive FileStep (s : Scanner) (f : Files) (path : String) :
    Stage → ScanState → Stage → ScanState → Prop
  | finish {st st' : ScanState} {scan : FileScan}
      (h : s.inspect f st path = (.finished scan, st')) :
      FileStep s f path .waiting st (.done scan) st'
  | suspend {st st' : ScanState} {file : Pending}
      (h : s.inspect f st path = (.pending file, st')) :
      FileStep s f path .waiting st (.reading file) st'
  | fail {st st' : ScanState} {file : Pending} {fault : ReadFault} {scan : FileScan}
      (hr : f.readText file.place = .error fault) (h : s.finish f st file = .ok (scan, st')) :
      FileStep s f path (.reading file) st (.done scan) st'
  | read {st : ScanState} {file : Pending} {text : List Char}
      (hr : f.readText file.place = .ok text) :
      FileStep s f path (.reading file) st (.judging file text) st
  | judge {st st' : ScanState} {file : Pending} {text : List Char} {scan : FileScan}
      (h : s.evaluate st file text = .ok (scan, st')) :
      FileStep s f path (.judging file text) st (.done scan) st'

def Progress.moved (p : Progress) (path : String) (st : ScanState) : Stage → Progress
  | .done _ => p.complete st path
  | _ => { p with toScanState := st }

@[simp] theorem Progress.moved_state (p : Progress) (path : String) (st : ScanState)
    (stage : Stage) : (p.moved path st stage).toScanState = st := by
  cases stage <;> rfl

structure Batch where
  progress : Progress
  stages : List (String × Stage)

namespace Batch

def start (p : Progress) (paths : List String) : Batch :=
  ⟨p, paths.map fun path => (path, .waiting)⟩

inductive Step (s : Scanner) (f : Files) : Batch → Batch → Prop
  | turn {p : Progress} {st : ScanState} {before after : List (String × Stage)} {path : String}
      {stage stage' : Stage} (inOrder : stage = .waiting → ∀ x ∈ before, x.2 ≠ .waiting)
      (h : FileStep s f path stage p.toScanState stage' st) :
      Step s f ⟨p, before ++ (path, stage) :: after⟩
        ⟨p.moved path st stage', before ++ (path, stage') :: after⟩

def Run (s : Scanner) (f : Files) (p : Progress) (paths : List String) (scans : List FileScan)
    (p' : Progress) : Prop :=
  ∃ b : Batch, ReflTransGen (Step s f) (start p paths) b ∧
    b.stages.map (·.2) = scans.map .done ∧ b.progress = p'

variable {s : Scanner} {f : Files} {p p' : Progress} {paths : List String}
  {scans : List FileScan} {Q : String → Stage → Prop} {C : ScanState → Prop}

def Holds (Q : String → Stage → Prop) (C : ScanState → Prop) (b : Batch) : Prop :=
  (∀ x ∈ b.stages, Q x.1 x.2) ∧ C b.progress.toScanState

theorem start_holds (hQ : ∀ path, Q path .waiting) (paths : List String)
    (hC : C p.toScanState) : (start p paths).Holds Q C := by
  refine ⟨?_, hC⟩
  intro x hx
  obtain ⟨path, -, rfl⟩ := List.mem_map.mp hx
  exact hQ path

theorem step_paths {b b' : Batch} (h : Step s f b b') :
    b'.stages.map (·.1) = b.stages.map (·.1) := by
  cases h
  simp

theorem run_paths {b b' : Batch} (h : ReflTransGen (Step s f) b b') :
    b'.stages.map (·.1) = b.stages.map (·.1) := by
  induction h with
  | refl => rfl
  | tail _ step ih => exact (step_paths step).trans ih

/-- What every step of a file preserves is preserved by every step of a batch. -/
theorem step_holds
    (keep : ∀ path stage st stage' st', FileStep s f path stage st stage' st' →
      Q path stage → C st → Q path stage' ∧ C st')
    {b b' : Batch} (h : Step s f b b') (hb : b.Holds Q C) : b'.Holds Q C := by
  cases h with
  | @turn p st before after path stage stage' _ h =>
    obtain ⟨hQ, hC⟩ := hb
    obtain ⟨hq, hc⟩ := keep _ _ _ _ _ h (hQ (path, stage) (by simp)) hC
    refine ⟨?_, by simpa using hc⟩
    intro x hx
    rcases List.mem_append.mp hx with hx | hx
    · exact hQ x (by simp [hx])
    · rcases List.mem_cons.mp hx with rfl | hx
      · exact hq
      · exact hQ x (by simp [hx])

theorem reachable_holds
    (keep : ∀ path stage st stage' st', FileStep s f path stage st stage' st' →
      Q path stage → C st → Q path stage' ∧ C st')
    {b b' : Batch} (h : ReflTransGen (Step s f) b b') (hb : b.Holds Q C) : b'.Holds Q C := by
  induction h with
  | refl => exact hb
  | tail _ step ih => exact step_holds keep step ih

theorem forall₂_stages {stages : List (String × Stage)} (hQ : ∀ x ∈ stages, Q x.1 x.2) :
    List.Forall₂ Q (stages.map (·.1)) (stages.map (·.2)) := by
  rw [List.forall₂_map_left_iff, List.forall₂_map_right_iff]
  exact List.forall₂_same.mpr hQ

theorem run_holds (hQ : ∀ path, Q path .waiting)
    (keep : ∀ path stage st stage' st', FileStep s f path stage st stage' st' →
      Q path stage → C st → Q path stage' ∧ C st')
    (h : Run s f p paths scans p') (hC : C p.toScanState) :
    List.Forall₂ (fun path scan => Q path (.done scan)) paths scans ∧ C p'.toScanState := by
  obtain ⟨b, hrun, hdone, rfl⟩ := h
  obtain ⟨hq, hc⟩ := reachable_holds keep hrun (start_holds hQ paths hC)
  refine ⟨?_, hc⟩
  have hpaths : b.stages.map (·.1) = paths := by
    rw [run_paths hrun]
    simp [start, Function.comp_def]
  have hall := forall₂_stages hq
  rw [hpaths, hdone, List.forall₂_map_right_iff] at hall
  exact hall

end Batch

inductive BatchesRun (s : Scanner) (f : Files) :
    Progress → List (List String) → List FileScan → Progress → Prop
  | nil (p : Progress) : BatchesRun s f p [] [] p
  | cons {p p' p'' : Progress} {batch : List String} {batches : List (List String)}
      {scans more : List FileScan} (h : Batch.Run s f p batch scans p')
      (rest : BatchesRun s f p' batches more p'') :
      BatchesRun s f p (batch :: batches) (scans ++ more) p''

theorem BatchesRun.holds {s : Scanner} {f : Files} {Q : String → Stage → Prop}
    {C : ScanState → Prop} (hQ : ∀ path, Q path .waiting)
    (keep : ∀ path stage st stage' st', FileStep s f path stage st stage' st' →
      Q path stage → C st → Q path stage' ∧ C st')
    {p p' : Progress} {batches : List (List String)} {scans : List FileScan}
    (h : BatchesRun s f p batches scans p') (hC : C p.toScanState) :
    List.Forall₂ (fun path scan => Q path (.done scan)) batches.flatten scans ∧
      C p'.toScanState := by
  induction h with
  | nil p => exact ⟨.nil, hC⟩
  | cons h _ ih =>
    obtain ⟨hfirst, hC⟩ := Batch.run_holds hQ keep h hC
    obtain ⟨hrest, hC⟩ := ih hC
    exact ⟨List.rel_append hfirst hrest, hC⟩

theorem flatten_inBatches {α : Type} (n : Nat) (xs : List α) : (inBatches n xs).flatten = xs := by
  fun_induction inBatches n xs with
  | case1 => rfl
  | case2 x xs ih => simp [ih]

namespace Scanner

theorem flatten_batches (s : Scanner) (files : List String) : (s.batches files).flatten = files := by
  unfold batches
  split
  · exact flatten_inBatches _ _
  · induction files with
    | nil => rfl
    | cons path files ih => simp [ih]

def openingNotes (s : Scanner) (changes : ChangeSet) (found : List String) (notes : List LogLine) :
    List LogLine :=
  notes ++ (s.selected changes found).2 ++ [⟨.info, .scan,
    "Scanning " ++ toString (s.selected changes found).1.length ++ " files..."⟩]

/-- A scan that returns, whatever the order in which the files of each batch take their steps. -/
def Scans (s : Scanner) (f : Files) (changes : ChangeSet) (elapsed : Number.Binary64)
    (cache : Option FindingCache) (out : ScanOutcome) : Prop :=
  s.outOfStack = false ∧ ∃ found notes scans p, s.discover f = .ok (found, notes) ∧
    BatchesRun s f { cache, notes := s.openingNotes changes found notes }
      (s.batches (s.selected changes found).1) scans p ∧
    out = ⟨resultOf scans cache.isSome (.real (elapsed.scale 1000)), p.completed, p.notes, p.cache⟩

def stageOf : Inspection → Stage
  | .finished scan => .done scan
  | .pending file => .reading file

variable {s : Scanner} {f : Files}

theorem inspect_pending {st st' : ScanState} {path : String} {file : Pending}
    (h : s.inspect f st path = (.pending file, st')) : s.vet f path = .ok file := by
  rcases inspect_cases s f st path with ⟨_, _, _, hi⟩ | ⟨_, _, _, _, _, hi⟩ | ⟨file', hv, _, hi⟩
  · simp [hi] at h
  · simp [hi] at h
  · simp only [hi, Prod.mk.injEq, Inspection.pending.injEq] at h
    exact h.1 ▸ hv

def Inspects (s : Scanner) (f : Files) (path : String) (i : Inspection) : Prop :=
  ∀ file, i = .pending file → s.vet f path = .ok file

theorem start_step (p : Progress) (path : String) {before : List (String × Stage)}
    (hb : ∀ x ∈ before, x.2 ≠ .waiting) (after : List (String × Stage)) :
    Batch.Step s f ⟨p, before ++ (path, .waiting) :: after⟩
      ⟨(s.start f p path).2, before ++ (path, stageOf (s.start f p path).1) :: after⟩ ∧
      stageOf (s.start f p path).1 ≠ .waiting ∧ s.Inspects f path (s.start f p path).1 := by
  unfold start
  cases hi : s.inspect f p.toScanState path with
  | mk i st =>
    cases i with
    | finished scan =>
      exact ⟨.turn (fun _ => hb) (.finish hi), by simp [stageOf], by simp [Inspects]⟩
    | pending file =>
      refine ⟨.turn (fun _ => hb) (.suspend hi), by simp [stageOf], ?_⟩
      intro file' h
      cases h
      exact inspect_pending hi

theorem startAll_steps (paths : List String) (p : Progress) {before : List (String × Stage)}
    (hb : ∀ x ∈ before, x.2 ≠ .waiting) :
    ReflTransGen (Batch.Step s f) ⟨p, before ++ paths.map fun path => (path, .waiting)⟩
      ⟨(s.startAll f p paths).2, before ++ paths.zip ((s.startAll f p paths).1.map stageOf)⟩ ∧
      List.Forall₂ (s.Inspects f) paths (s.startAll f p paths).1 := by
  induction paths generalizing p before with
  | nil => exact ⟨.refl, .nil⟩
  | cons path paths ih =>
    obtain ⟨hstep, hne, hof⟩ := start_step (s := s) (f := f) p path hb
      (paths.map fun path => (path, .waiting))
    have hb' : ∀ x ∈ before ++ [(path, stageOf (s.start f p path).1)], x.2 ≠ .waiting := by
      intro x hx
      rcases List.mem_append.mp hx with hx | hx
      · exact hb x hx
      · rw [List.mem_singleton.mp hx]
        exact hne
    obtain ⟨hsteps, hall⟩ := ih (s.start f p path).2 hb'
    simp only [List.append_assoc, List.cons_append, List.nil_append] at hsteps
    exact ⟨.head hstep hsteps, .cons hof hall⟩

theorem resume_steps {p p' : Progress} {path : String} {i : Inspection} {scan : FileScan}
    (hof : s.Inspects f path i) (h : s.resume f p i = .ok (scan, p')) (before after : List (String × Stage)) :
    ReflTransGen (Batch.Step s f) ⟨p, before ++ (path, stageOf i) :: after⟩
      ⟨p', before ++ (path, .done scan) :: after⟩ := by
  cases i with
  | finished done =>
    simp only [resume, Except.ok.injEq, Prod.mk.injEq] at h
    obtain ⟨rfl, rfl⟩ := h
    exact .refl
  | pending file =>
    have hpath := vet_path (hof file rfl)
    cases hf : s.finish f p.toScanState file with
    | error e => simp [resume, hf, bind, Except.bind] at h
    | ok pair =>
      obtain ⟨scan', st⟩ := pair
      simp only [resume, hf, bind, Except.bind, pure, Except.pure, Except.ok.injEq,
        Prod.mk.injEq, hpath] at h
      obtain ⟨rfl, rfl⟩ := h
      cases hr : f.readText file.place with
      | error fault => exact .single (.turn (fun h => by cases h) (.fail hr hf))
      | ok text =>
        have hread : Batch.Step s f ⟨p, before ++ (path, .reading file) :: after⟩
            ⟨p, before ++ (path, .judging file text) :: after⟩ :=
          .turn (fun h => by cases h) (.read hr)
        have hjudge : Batch.Step s f ⟨p, before ++ (path, .judging file text) :: after⟩
            ⟨p.complete st path, before ++ (path, .done scan') :: after⟩ := by
          have he : s.evaluate p.toScanState file text = .ok (scan', st) := by
            simpa only [finish, hr] using hf
          exact .turn (fun h => by cases h) (.judge he)
        exact .head hread (.single hjudge)

theorem resumeAll_steps {is : List Inspection} {paths : List String} {p p' : Progress}
    {scans : List FileScan} (hof : List.Forall₂ (s.Inspects f) paths is)
    (h : s.resumeAll f p is = .ok (scans, p')) (before : List (String × Stage)) :
    ReflTransGen (Batch.Step s f) ⟨p, before ++ paths.zip (is.map stageOf)⟩
      ⟨p', before ++ paths.zip (scans.map .done)⟩ ∧ paths.length = scans.length := by
  -- `before` has the files that are done: each resumed file joins them
  induction hof generalizing p scans before with
  | nil =>
    simp only [resumeAll, Except.ok.injEq, Prod.mk.injEq] at h
    obtain ⟨rfl, rfl⟩ := h
    exact ⟨.refl, rfl⟩
  | @cons path i paths is hi _ ih =>
    cases hr : s.resume f p i with
    | error e => simp [resumeAll, hr, bind, Except.bind] at h
    | ok pair =>
      obtain ⟨scan, p₁⟩ := pair
      cases hm : s.resumeAll f p₁ is with
      | error e => simp [resumeAll, hr, hm, bind, Except.bind] at h
      | ok pair =>
        obtain ⟨more, p₂⟩ := pair
        simp only [resumeAll, hr, hm, bind, Except.bind, pure, Except.pure, Except.ok.injEq,
          Prod.mk.injEq] at h
        obtain ⟨rfl, rfl⟩ := h
        obtain ⟨hsteps, hlen⟩ := ih hm (before ++ [(path, .done scan)])
        simp only [List.append_assoc, List.cons_append, List.nil_append] at hsteps
        refine ⟨?_, by simp [hlen]⟩
        exact (resume_steps hi hr before _).trans hsteps

theorem scanBatch_run {p p' : Progress} {paths : List String} {scans : List FileScan}
    (h : s.scanBatch f p paths = .ok (scans, p')) : Batch.Run s f p paths scans p' := by
  have hnone : ∀ x ∈ ([] : List (String × Stage)), x.2 ≠ .waiting := by simp
  obtain ⟨hstart, hof⟩ := startAll_steps (s := s) (f := f) paths p hnone
  obtain ⟨hresume, hlen⟩ := resumeAll_steps hof h []
  refine ⟨_, hstart.trans hresume, ?_, rfl⟩
  simpa using List.map_snd_zip (by simp [hlen])

theorem scanBatches_run {batches : List (List String)} {p p' : Progress} {scans : List FileScan}
    (h : s.scanBatches f p batches = .ok (scans, p')) : BatchesRun s f p batches scans p' := by
  induction batches generalizing p scans with
  | nil =>
    simp only [scanBatches, Except.ok.injEq, Prod.mk.injEq] at h
    obtain ⟨rfl, rfl⟩ := h
    exact .nil p
  | cons batch batches ih =>
    cases hb : s.scanBatch f p batch with
    | error e => simp [scanBatches, hb, bind, Except.bind] at h
    | ok pair =>
      obtain ⟨first, p₁⟩ := pair
      cases hm : s.scanBatches f p₁ batches with
      | error e => simp [scanBatches, hb, hm, bind, Except.bind] at h
      | ok pair =>
        obtain ⟨more, p₂⟩ := pair
        simp only [scanBatches, hb, hm, bind, Except.bind, pure, Except.pure, Except.ok.injEq,
          Prod.mk.injEq] at h
        obtain ⟨rfl, rfl⟩ := h
        exact .cons (scanBatch_run hb) (ih hm)

theorem scan_eq_ok {changes : ChangeSet} {elapsed : Number.Binary64} {cache : Option FindingCache}
    {out : ScanOutcome} : s.scan f changes elapsed cache = .ok out ↔
      s.outOfStack = false ∧ ∃ found notes scans p, s.discover f = .ok (found, notes) ∧
        s.scanBatches f { cache, notes := s.openingNotes changes found notes }
          (s.batches (s.selected changes found).1) = .ok (scans, p) ∧
        out = ⟨resultOf scans cache.isSome (.real (elapsed.scale 1000)), p.completed, p.notes, p.cache⟩ := by
  cases hstack : s.outOfStack with
  | true => simp [scan, hstack, throw, throwThe, MonadExceptOf.throw, bind, Except.bind]
  | false =>
    simp only [scan, hstack, Bool.false_eq_true, if_false, bind_eq_ok, mapError_eq_ok, pure_eq_ok,
      Prod.exists, true_and, openingNotes]
    constructor
    · rintro ⟨found, notes, hd, scans, p, hb, rfl⟩
      exact ⟨found, notes, scans, p, hd, hb, rfl⟩
    · rintro ⟨found, notes, scans, p, hd, hb, rfl⟩
      exact ⟨found, notes, hd, scans, p, hb, rfl⟩

theorem scan_scans {changes : ChangeSet} {elapsed : Number.Binary64} {cache : Option FindingCache}
    {out : ScanOutcome} (h : s.scan f changes elapsed cache = .ok out) :
    s.Scans f changes elapsed cache out := by
  obtain ⟨hstack, found, notes, scans, p, hd, hb, rfl⟩ := scan_eq_ok.mp h
  exact ⟨hstack, found, notes, scans, p, hd, scanBatches_run hb, rfl⟩

section Returns

def Returns (s : Scanner) (f : Files) (path : String) : Prop :=
  ∃ scan, s.alone f path = .ok scan

theorem finish_returns {path : String} {file : Pending} (hv : s.vet f path = .ok file)
    (ha : s.Returns f path) (st : ScanState) : ∃ r, s.finish f st file = .ok r := by
  obtain ⟨scan, ha⟩ := ha
  cases hr : f.readText file.place with
  | error fault => simp [finish, hr]
  | ok text =>
    have hpath := vet_path hv
    simp only [alone, sight_readable hv hr, Sight.scanned, Sight.executed?] at ha
    simp only [finish, hr, evaluate, task, hpath]
    cases ho : (s.executor.execute ⟨path, text, s.config.target, s.config.strict, s.rules⟩ none).1 with
    | error cause =>
      rw [ho] at ha
      cases ha
    | ok outcome =>
      cases outcome with
      | error failure => exact ⟨_, rfl⟩
      | ok found =>
        cases hf : s.config.applySettings (Path.relativeTo path s.cwd) found with
        | error e => simp [ho, hf, bind, Except.bind] at ha
        | ok findings =>
          have hf' : s.config.applySettings (s.relative path) found = .ok findings := hf
          simp [hf', bind, Except.bind, pure, Except.pure]

theorem resumeAll_returns {paths : List String} {is : List Inspection}
    (hof : List.Forall₂ (s.Inspects f) paths is)
    (ha : ∀ path file, (path, Inspection.pending file) ∈ paths.zip is → s.Returns f path)
    (p : Progress) : ∃ r, s.resumeAll f p is = .ok r := by
  induction hof generalizing p with
  | nil => exact ⟨_, rfl⟩
  | @cons path i paths is hi _ ih =>
    have hfirst : ∃ r, s.resume f p i = .ok r := by
      cases i with
      | finished scan => exact ⟨_, rfl⟩
      | pending file =>
        obtain ⟨r, hr⟩ := finish_returns (hi file rfl) (ha path file (by simp)) p.toScanState
        exact ⟨(r.1, p.complete r.2 file.path), by simp [resume, hr, bind, Except.bind, pure, Except.pure]⟩
    obtain ⟨⟨scan, p₁⟩, hr⟩ := hfirst
    obtain ⟨⟨more, p₂⟩, hm⟩ := ih (fun path file hp => ha path file (by simp [hp])) p₁
    exact ⟨(scan :: more, p₂), by simp [resumeAll, hr, hm, bind, Except.bind, pure, Except.pure]⟩

theorem scanBatches_returns (batches : List (List String))
    (ha : ∀ path ∈ batches.flatten, s.Returns f path) (p : Progress) :
    ∃ r, s.scanBatches f p batches = .ok r := by
  induction batches generalizing p with
  | nil => exact ⟨_, rfl⟩
  | cons batch batches ih =>
    have hnone : ∀ x ∈ ([] : List (String × Stage)), x.2 ≠ .waiting := by simp
    have hof := (startAll_steps (s := s) (f := f) batch p hnone).2
    obtain ⟨⟨scans, p₁⟩, hb⟩ := resumeAll_returns hof
      (fun path file hp => ha path (by simp [(List.of_mem_zip hp).1])) (s.startAll f p batch).2
    have hb' : s.scanBatch f p batch = .ok (scans, p₁) := hb
    obtain ⟨⟨more, p₂⟩, hm⟩ := ih (fun path hp => ha path (by simp [hp])) p₁
    exact ⟨(scans ++ more, p₂), by simp [scanBatches, hb', hm, bind, Except.bind, pure, Except.pure]⟩

theorem scan_of_scanBatches (hstack : s.outOfStack = false) {changes : ChangeSet} {found : List String}
    {notes : List LogLine} {cache : Option FindingCache} (hd : s.discover f = .ok (found, notes))
    (h : ∃ r, s.scanBatches f { cache, notes := s.openingNotes changes found notes }
      (s.batches (s.selected changes found).1) = .ok r) (elapsed : Number.Binary64) :
    ∃ out, s.scan f changes elapsed cache = .ok out := by
  obtain ⟨⟨scans, p⟩, hb⟩ := h
  exact ⟨_, scan_eq_ok.mpr ⟨hstack, found, notes, scans, p, hd, hb, rfl⟩⟩

theorem scan_returns (hstack : s.outOfStack = false) {changes : ChangeSet} {found : List String}
    {notes : List LogLine} (hd : s.discover f = .ok (found, notes))
    (ha : ∀ path ∈ (s.selected changes found).1, s.Returns f path) (elapsed : Number.Binary64)
    (cache : Option FindingCache) : ∃ out, s.scan f changes elapsed cache = .ok out :=
  scan_of_scanBatches hstack hd (scanBatches_returns _ (by rwa [flatten_batches]) _) elapsed

end Returns

end Scanner

end EdgeAudit

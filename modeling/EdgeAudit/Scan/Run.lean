import EdgeAudit.Change
import EdgeAudit.Report.Result
import EdgeAudit.Scan.Stage

namespace EdgeAudit

open Number

def inBatches {α : Type} (n : Nat) : List α → List (List α)
  | [] => []
  | x :: xs => (x :: xs.take n) :: inBatches n (xs.drop n)
termination_by xs => xs.length
decreasing_by
  simp only [List.length_drop, List.length_cons]
  omega

structure Progress extends ScanState where
  completed : List String := []

namespace Progress

def complete (p : Progress) (st : ScanState) (path : String) : Progress :=
  { toScanState := st, completed := p.completed ++ [path] }

end Progress

structure ScanOutcome where
  result : ScanResult
  completed : List String
  notes : List LogLine
  cache : Option FindingCache

structure ProgressReport where
  current : Nat
  total : Int
  message : String
deriving Repr, DecidableEq

namespace Scanner

variable (s : Scanner) (f : Files)

def resume (p : Progress) : Inspection → Except (Halted EvaluationError) (FileScan × Progress)
  | .finished scan => .ok (scan, p)
  | .pending file => do
    let (scan, st) ← s.finish f p.toScanState file
    return (scan, p.complete st file.path)

def start (p : Progress) (path : String) : Inspection × Progress :=
  match s.inspect f p.toScanState path with
  | (.finished scan, st) => (.finished scan, p.complete st path)
  | (.pending file, st) => (.pending file, { p with toScanState := st })

def startAll (p : Progress) : List String → List Inspection × Progress
  | [] => ([], p)
  | path :: paths =>
    let (i, p) := s.start f p path
    let (is, p) := startAll p paths
    (i :: is, p)

def resumeAll (p : Progress) :
    List Inspection → Except (Halted EvaluationError) (List FileScan × Progress)
  | [] => .ok ([], p)
  | i :: is => do
    let (scan, p) ← s.resume f p i
    let (scans, p) ← resumeAll p is
    return (scan :: scans, p)

/-- A batch: all its files are started, then all are taken to their end. -/
def scanBatch (p : Progress) (paths : List String) :
    Except (Halted EvaluationError) (List FileScan × Progress) :=
  -- the cache is asked for every file of a batch before any of them stores its findings
  let (is, p) := s.startAll f p paths
  s.resumeAll f p is

def scanBatches (p : Progress) :
    List (List String) → Except (Halted EvaluationError) (List FileScan × Progress)
  | [] => .ok ([], p)
  | batch :: batches => do
    let (scans, p) ← s.scanBatch f p batch
    let (more, p) ← scanBatches p batches
    return (scans ++ more, p)

def batches (files : List String) : List (List String) :=
  if s.parallel then inBatches (s.batchSize files.length - 1) files else files.map fun p => [p]

def resultOf (scans : List FileScan) (cached : Bool) (duration : Quantity) : ScanResult where
  findings := scans.flatMap (·.findings)
  fileCount := scans.length
  duration := duration
  cachedCount := if cached then some (scans.countP (·.fromCache) : Nat) else none
  errors := scans.filterMap fun x => x.error.map fun e => ⟨x.path, e.message⟩

def selected (changes : ChangeSet) (files : List String) : List String × List LogLine :=
  if s.incremental then
    let kept := keepChanged changes.paths files
    (kept, changes.notes ++ [⟨.info, .scan, "Incremental scan: " ++ toString kept.length ++ " of " ++
      toString files.length ++ " files changed"⟩])
  else (files, [])

/-- A whole scan. `changes` has the files known to be changed, and `elapsed` is the time that the
scan takes in seconds. -/
def scan (changes : ChangeSet) (elapsed : Binary64) (cache : Option FindingCache) :
    Except (Halted ScanError) ScanOutcome := do
  if s.outOfStack then throw ⟨.discovery .outOfStack, []⟩
  let (found, notes) ← (s.discover f).mapError fun h => ⟨.discovery h.error, h.notes⟩
  let (files, selection) := s.selected changes found
  let notes := notes ++ selection ++
    [⟨.info, .scan, "Scanning " ++ toString files.length ++ " files..."⟩]
  let (scans, p) ← (s.scanBatches f { cache, notes } (s.batches files)).mapError fun h =>
    ⟨.evaluation h.error, h.notes⟩
  return ⟨resultOf scans cache.isSome (.real (elapsed.scale 1000)), p.completed, p.notes, p.cache⟩

def reports (o : ScanOutcome) : List ProgressReport :=
  o.completed.zipIdx.map fun (path, i) => ⟨i + 1, o.result.fileCount, s.relative path⟩

end Scanner

end EdgeAudit

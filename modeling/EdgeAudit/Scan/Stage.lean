import EdgeAudit.Files.Source
import EdgeAudit.Scan.Scanner

namespace EdgeAudit

abbrev FindingCache := Cache (List Finding) Int

structure FileScan where
  path : String
  findings : List Finding := []
  fromCache : Bool := false
  error : Option ExecutionFailure := none
  deriving DecidableEq, Repr

structure ScanState where
  cache : Option FindingCache
  notes : List LogLine := []

namespace ScanState

def note (st : ScanState) (level : LogLevel) (source : LogSource) (text : String) : ScanState :=
  { st with notes := st.notes ++ [⟨level, source, text⟩] }

def store (st : ScanState) (path : String) (findings : List Finding) (mtime : Int) : ScanState :=
  { st with cache := st.cache.map fun c => c.set path findings mtime }

def lookup (st : ScanState) (path : String) (mtime : Int) : Option (List Finding) × ScanState :=
  match st.cache with
  | none => (none, st)
  | some c =>
    let (found, c) := c.getValid path mtime
    (found, { st with cache := some c })

end ScanState

structure Pending where
  path : String
  place : String
  mtime : Int
  deriving DecidableEq, Repr

inductive Inspection
  | finished (scan : FileScan)
  | pending (file : Pending)

namespace Config

def applySetting (c : Config) (relative : String) (finding : Finding) :
    Except EvaluationError (Option Finding) := do
  match c.setting? finding.ruleId with
  | none => return some finding
  | some setting =>
    if ← (Glob.matchesAny setting.ignore relative).mapError .glob then return none
    else
      let severity ← (Severity.ofSetting setting.level.name).mapError .level
      return some { finding with severity }

def applySettings (c : Config) (relative : String) (findings : List Finding) :
    Except EvaluationError (List Finding) := do
  return (← findings.mapM (c.applySetting relative)).filterMap id

end Config

namespace Scanner

variable (s : Scanner) (f : Files)

def vet (path : String) : Except PathFault Pending := do
  let place ← f.validatePath path s.cwd
  let stats ← f.validateFile place s.maxSize
  return ⟨path, place, stats.mtime⟩

/-- First stage: a file that may not be read is skipped, and one that has not changed is served from
the cache. -/
def inspect (st : ScanState) (path : String) : Inspection × ScanState :=
  match s.vet f path with
  | .error fault =>
    (.finished { path }, st.note .warning .scan
      ("Skipping " ++ s.relative path ++ ": " ++ fault.message))
  | .ok file =>
    match st.lookup path file.mtime with
    | (some findings, st) =>
      (.finished { path, findings, fromCache := true },
        st.note .debug .scan ("Cache hit for " ++ s.relative path))
    | (none, st) => (.pending file, st)

def task (path : String) (text : List Char) : Task :=
  ⟨path, text, s.config.target, s.config.strict, s.rules⟩

def evaluates (path : String) : Bool :=
  match s.executor with
  | .here => true
  | .isolated worker _ =>
    let w := worker path
    w.pipeError.isNone && w.startError.isNone && !w.crashes

def taskNotes (path : String) (text : List Char) : List LogLine :=
  if s.evaluates path && (Script.Dialect.ofPath? path).isSome &&
      (Source.treeOf? path text).isNone then
    [⟨.debug, .script, "Syntax errors in " ++ path ++ ", using pattern matching"⟩]
  else []

/-- Third stage: the text of a file is judged by the rules, and the findings are stored. -/
def evaluate (st : ScanState) (file : Pending) (text : List Char) :
    Except (Halted EvaluationError) (FileScan × ScanState) := do
  let st := { st with notes := st.notes ++ s.taskNotes file.path text }
  match (s.executor.execute (s.task file.path text) none).1 with
  | .error cause => throw ⟨.escape cause, st.notes⟩
  | .ok (.error failure) =>
    return ({ path := file.path, error := some failure }, st.note .warning .scan
      ("Failed to scan " ++ s.relative file.path ++ ": " ++ failure.message))
  | .ok (.ok found) =>
    let findings ← (s.config.applySettings (s.relative file.path) found).mapError (⟨·, st.notes⟩)
    -- stored with the settings applied, under the time seen by the first stage
    return ({ path := file.path, findings }, st.store file.path findings file.mtime)

def finish (st : ScanState) (file : Pending) :
    Except (Halted EvaluationError) (FileScan × ScanState) :=
  match f.readText file.place with
  | .error fault =>
    .ok ({ path := file.path }, st.note .warning .scan
      ("Failed to scan " ++ s.relative file.path ++ ": " ++ fault.message))
  | .ok text => s.evaluate st file text

end Scanner

end EdgeAudit

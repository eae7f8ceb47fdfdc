import EdgeAudit.Cache
import EdgeAudit.Config.Basic
import EdgeAudit.Discovery
import EdgeAudit.Execution.Worker
import EdgeAudit.Files.Validation
import EdgeAudit.Rule.Catalog

namespace EdgeAudit

structure Scanner where
  cwd : String
  config : Config := {}
  paths : List String := []
  incremental : Bool := false
  parallel : Bool := false
  maxWorkers : Option Int := none
  registry : Registry := defaultRegistry
  executor : Executor := .here
  maxSize : Int := defaultMaxSize
  /-- Looking for files takes more calls inside each other than the program has stack for: one for each
  directory inside another, each part of a pattern and each brace inside another. -/
  outOfStack : Bool := false

/-- Why the scan of a file ends the whole scan: a setting cannot be applied, or nothing came of the
task of the file. -/
inductive EvaluationError
  | glob (error : Glob.GlobError)
  | level (error : Severity.Error)
  | escape (cause : Escape)
  deriving DecidableEq, Repr

inductive ScanError
  | discovery (error : DiscoveryError)
  | evaluation (error : EvaluationError)
  deriving DecidableEq, Repr

namespace Scanner

def relative (s : Scanner) (path : String) : String :=
  Path.relativeTo path s.cwd

def wanted (s : Scanner) (f : Files) : Except LookupFault Wanted :=
  if s.paths.isEmpty then .ok ⟨s.config.included.getD [], []⟩ else f.wanted s.cwd s.paths

def discover (s : Scanner) (f : Files) :
    Except (Halted DiscoveryError) (List String × List LogLine) := do
  let wanted ← (s.wanted f).mapError fun fault => ⟨.lookup fault, []⟩
  f.discover s.cwd wanted s.config.excluded true

def rules (s : Scanner) : List Rule :=
  s.registry.enabledRules.filter fun r => !s.config.isDisabled r.id

def keepChanged (changed files : List String) : List String :=
  let changed := changed.map Path.normalize
  files.filter fun path => changed.contains path

def defaultWorkers : Nat := 4

def batchSize (s : Scanner) (fileCount : Nat) : Nat :=
  2 * (max 1 (s.maxWorkers.getD (min defaultWorkers fileCount : Nat))).toNat

end Scanner

end EdgeAudit

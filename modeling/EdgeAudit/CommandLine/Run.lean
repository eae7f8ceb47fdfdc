import EdgeAudit.CommandLine.Command
import EdgeAudit.Config.Load
import EdgeAudit.Files.Edit
import EdgeAudit.Scan.Run

namespace EdgeAudit.CommandLine

open Number

structure Environment where
  files : Files
  cwd : String
  versionControl : VersionControl
  worker : String → Worker
  elapsed : Binary64
  stack : Stack := {}

inductive RunFailure
  | load (error : LoadError)
  | scan (error : ScanError)
  | report (fault : ReportFault)
  | write (fault : LookupFault)

structure RunReport where
  outcome : Except RunFailure Nat
  stdout : String := ""
  stderr : String := ""
  files : Files
  written : Option (String × String) := none

def starterConfig : String :=
  "# Target edge runtime: next, vercel, cloudflare, deno or auto
edgeTarget: auto

# Strict mode: fail on warnings
strict: false

# Include/exclude patterns (glob)
include:
  - \"src/**/*.\x7bts,tsx,js,jsx,mts,mjs\x7d\"
exclude:
  - \"**/node_modules/**\"
  - \"**/dist/**\"
  - \"**/.next/**\"
  - \"**/build/**\"

# Rule configuration
rules: \x7b\x7d
  # node-core/forbidden-module:fs: \"off\"
  # node-core/caution:crypto: warn
  # deps/not-edge-safe:
  #   severity: error
  #   ignore: [\"scripts/**\"]
"

def starterName : String := "edgecompat.config.yaml"

def runInit (env : Environment) (force : Bool) : RunReport :=
  let path := Path.join env.cwd starterName
  let there := match env.files.find path with
    | .ok _ => true
    | .error _ => false
  if there && !force then
    { outcome := .ok 1, files := env.files,
      stderr := starterName ++ " already exists (use --force to overwrite)\n" }
  else match env.files.writeText path starterConfig with
    | .error fault => { outcome := .error (.write fault), files := env.files }
    | .ok files =>
      { outcome := .ok 0, files, stdout := "Created " ++ starterName ++ "\n",
        written := some (path, starterConfig) }

/-- The configuration of a scan: what the arguments say counts more than what the file says. -/
def resolveConfig (env : Environment) (a : ScanArguments) : Except LoadError Config := do
  let path := a.configPath.bind fun p => if p = "" then none else some p
  let config ← env.files.loadConfig env.stack env.cwd path
  return { config with
    strict := a.strict.getD config.strict
    target := a.target.getD config.target }

def scannerOf (env : Environment) (a : ScanArguments) (config : Config) : Scanner where
  cwd := env.cwd
  config := config
  paths := a.paths
  incremental := a.changed
  parallel := a.parallel
  maxWorkers := a.maxWorkers
  executor := if a.isolated then .isolated env.worker Executor.defaultLimit else .here

def printed (verbose : Bool) (notes : List LogLine) : String :=
  String.join ((notes.filter fun l => verbose || l.level == .warning).map fun l => l.shown ++ "\n")

def writeReport (f : Files) (cwd path text : String) : Except LookupFault Files := do
  let path := Path.join cwd path
  let f ← f.ensureDirs (Path.ofParts ((Path.parts path).filter (· != ".")).dropLast)
  f.writeText path text

def runScan (env : Environment) (a : ScanArguments) : RunReport :=
  match resolveConfig env a with
  | .error (.config error) =>
    { outcome := .ok 2, files := env.files,
      stderr := "Configuration error: " ++ error.message ++ "\n" }
  | .error error => { outcome := .error (.load error), files := env.files }
  | .ok config =>
    let s := scannerOf env a config
    let cache := if a.cache then (Cache.create Cache.defaultCapacity).toOption else none
    match s.scan env.files (env.versionControl.changes env.cwd) env.elapsed cache with
    | .error halted =>
      { outcome := .error (.scan halted.error), files := env.files,
        stderr := printed a.verbose halted.notes }
    | .ok o =>
      let stderr := printed a.verbose o.notes
      let code := o.result.exitCode config.strict
      match o.result.render a.format env.cwd with
      | .error fault => { outcome := .error (.report fault), stderr, files := env.files }
      | .ok report =>
        match a.outputPath.bind fun p => if p = "" then none else some p with
        | none => { outcome := .ok code, stdout := report, stderr, files := env.files }
        | some path =>
          match writeReport env.files env.cwd path report with
          | .error fault => { outcome := .error (.write fault), stderr, files := env.files }
          | .ok files =>
            { outcome := .ok code, stdout := "Report written to " ++ path ++ "\n", stderr, files,
              written := some (Path.join env.cwd path, report) }

def Command.run (env : Environment) : Command → RunReport
  | .init force => runInit env force
  | .scan a => runScan env a

end EdgeAudit.CommandLine

import EdgeAudit.CommandLine.Run

namespace EdgeAudit.Main

open CommandLine Number

def nanoseconds (t : IO.FS.SystemTime) : Int :=
  t.sec * 1000000000 + t.nsec.toNat

/-- Reads what stands at a path and all below it. A link becomes a link to the place that it leads
to, and what cannot be read is an empty file. -/
partial def readEntry (path : String) : IO Entry := do
  let place := System.mkFilePath [path]
  let metadata ← place.symlinkMetadata
  match metadata.type with
  | .dir =>
    let entries ← (← place.readDir).toList.mapM fun child => do
      return (child.fileName, ← readEntry (Path.join path child.fileName))
    return .dir entries
  | .symlink =>
    try return .link (← IO.FS.realPath place).toString
    catch _ => return .link ""
  | _ =>
    try return .file (← IO.FS.readBinFile place) (nanoseconds metadata.modified)
    catch _ => return .file ByteArray.empty (nanoseconds metadata.modified)

def addPath (f : Files) (path : String) : IO Files := do
  try
    let entry ← readEntry path
    return ⟨f.root.put entry (Path.parts (Path.normalize path))⟩
  catch _ => return f

def Command.paths : Command → List String
  | .scan a => a.paths ++ a.configPath.toList
  | .init _ => []

def readFiles (cwd : String) (command : Command) : IO Files := do
  let inside := Path.parts cwd
  let others := ((Command.paths command).map (Path.absolute cwd)).filter fun path =>
    (Path.after? inside (Path.parts path)).isNone
  (others ++ [cwd]).foldlM addPath Files.empty

def describe : RunFailure → String
  | .load (.config error) => error.message
  | .load (.lookup fault) => fault.title
  | .load (.decoding fault) => fault.message
  | .load (.value _) => "the configuration holds a value that cannot be read"
  | .load (.unwritten .tooLong) => Number.tooLongText
  | .load (.unwritten .tooDeep) => "the configuration holds a value that is nested too deeply"
  | .scan (.discovery (.glob _)) => "the patterns stand for too many paths"
  | .scan (.discovery (.ignore error)) => error.message
  | .scan (.discovery (.lookup fault)) => fault.title
  | .scan (.discovery .outOfStack) => "directories or patterns are nested too deeply"
  | .scan (.evaluation (.glob _)) => "the patterns stand for too many paths"
  | .scan (.evaluation (.level error)) => error.message
  | .scan (.evaluation (.escape _)) => "a rule or its worker ended the scan"
  | .report .tooLong => Number.tooLongText
  | .report .tooLarge => "the duration is too large"
  | .write fault => fault.title

def perform (command : Command) : IO UInt32 := do
  let start ← IO.monoNanosNow
  let cwd := (← IO.FS.realPath (← IO.currentDir)).toString
  let files ← readFiles cwd command
  let elapsed := Binary64.ofRatio false ((← IO.monoNanosNow) - start) 1000000000
  let report := command.run
    { files, cwd, elapsed, versionControl := fun _ => .notRun, worker := fun _ => {} }
  match report.written with
  | some (path, text) =>
    IO.FS.createDirAll (System.mkFilePath [Path.ofParts (Path.parts path).dropLast])
    IO.FS.writeFile (System.mkFilePath [path]) text
  | none => pure ()
  IO.print report.stdout
  IO.eprint report.stderr
  match report.outcome with
  | .ok code => return code.toUInt32
  | .error failure =>
    IO.eprintln (programName ++ ": " ++ describe failure)
    return 1

end EdgeAudit.Main

open EdgeAudit CommandLine in
def main (arguments : List String) : IO UInt32 := do
  match readProgram arguments with
  | .ok command => Main.perform command
  | .error stopped =>
    IO.print stopped.output
    for line in stopped.complaint do
      IO.eprintln line
    return stopped.exitCode.toUInt32

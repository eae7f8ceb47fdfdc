import EdgeAudit.Path.Basic
import EdgeAudit.Text.Blank
import EdgeAudit.Log
import EdgeAudit.Text.Quoted

namespace EdgeAudit

open Text

inductive CommandOutcome
  | exited (code : Int) (output : String)
  | timedOut
  | notRun
  deriving DecidableEq, Repr

inductive ChangeCommand
  | insideWorkTree
  | staged
  | unstaged
  deriving DecidableEq, Repr

namespace ChangeCommand

def arguments : ChangeCommand → List String
  | .insideWorkTree => ["rev-parse", "--is-inside-work-tree"]
  | .staged => ["diff", "--cached"] ++ names
  | .unstaged => ["diff"] ++ names
where
  names : List String := ["--name-only", "-z", "--relative", "--diff-filter=ACMR", "--"]

def line (c : ChangeCommand) : List String :=
  "git" :: c.arguments

def timeLimit : Nat := 30

def complaint (c : ChangeCommand) : CommandOutcome → Option String
  | .exited code _ =>
    if code = 0 then none
    else some ("git " ++ joinWith " " c.arguments ++ " exited with " ++ toString code ++ ": ")
  | .timedOut => some (failed (
      "Command '[" ++ joinWith ", " (c.line.map quoted) ++ "]' timed out after " ++
        toString timeLimit ++ " seconds"))
  | .notRun => some (failed "[Errno 2] No such file or directory")
where
  failed (reason : String) : String :=
    "git " ++ joinWith " " c.arguments ++ " failed: " ++ reason

end ChangeCommand

structure ChangeSet where
  paths : List String := []
  notes : List LogLine := []
  deriving DecidableEq, Repr

abbrev VersionControl := ChangeCommand → CommandOutcome

def CommandOutcome.output? : CommandOutcome → Option String
  | .exited code output => if code = 0 then some output else none
  | _ => none

namespace VersionControl

def isActive (v : VersionControl) : Bool :=
  ((v .insideWorkTree).output?.map fun output =>
    String.ofList (trimEndBy isBlank (output.toList.dropWhile isBlank)) == "true").getD false

def commands (v : VersionControl) : List ChangeCommand :=
  if v.isActive then [.insideWorkTree, .staged, .unstaged] else [.insideWorkTree]

def listed (v : VersionControl) (c : ChangeCommand) : List String :=
  (splitOn '\x00' ((v c).output?.getD "").toList).filterMap fun name =>
    if name.isEmpty then none else some (String.ofList name)

/-- The changed files, those staged first, as normal absolute paths. -/
def changedFiles (v : VersionControl) (root : String) : List String :=
  if v.isActive then
    ((v.listed .staged ++ v.listed .unstaged).map (Path.absolute root)).eraseDups
  else []

def notes (v : VersionControl) : List LogLine :=
  v.commands.filterMap fun c => (c.complaint (v c)).map fun text => ⟨.debug, .changes, text⟩

def changes (v : VersionControl) (root : String) : ChangeSet :=
  ⟨v.changedFiles root, v.notes⟩

end VersionControl

end EdgeAudit

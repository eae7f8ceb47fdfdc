import EdgeAudit.Glob.Search
import EdgeAudit.Ignore.Files

namespace EdgeAudit

open Glob Ignore

def defaultIncluded : List String :=
  ["**/*.\x7bts,tsx,js,jsx,mts,mjs,cts,cjs\x7d"]

def defaultExcluded : List String :=
  ["**/node_modules/**", "**/dist/**", "**/.next/**", "**/build/**", "**/.turbo/**",
   "**/coverage/**"]

inductive DiscoveryError
  | glob (error : GlobError)
  | ignore (error : IgnoreError)
  | lookup (fault : LookupFault)
  | outOfStack
  deriving DecidableEq, Repr

structure Wanted where
  patterns : List String
  files : List String
  deriving DecidableEq, Repr

namespace Files

/-- What a path asks for: a file itself, for a directory the usual files below it, and else the path
is a pattern. -/
def wantedBy (f : Files) (cwd raw : String) : Except LookupFault Wanted := do
  let path := Path.tidy (Path.join cwd raw)
  if ← f.isFile path then return ⟨[], [path]⟩
  else if ← f.isDir path then
    let relative := Path.relativeTo path cwd
    -- the name of a directory is no pattern, whatever characters it has
    let start := if relative = "." then "" else escape (Path.tidy relative) ++ "/"
    return ⟨defaultIncluded.map (start ++ ·), []⟩
  else return ⟨[raw], []⟩

def wanted (f : Files) (cwd : String) (paths : List String) : Except LookupFault Wanted := do
  let each ← paths.mapM (f.wantedBy cwd)
  return ⟨each.flatMap (·.patterns), each.flatMap (·.files)⟩

def foundByPatterns (f : Files) (cwd : String) (patterns excluded : List String) :
    Except GlobError (List String) := do
  if patterns.isEmpty then return []
  return (← f.glob cwd patterns excluded).map (Path.absolute cwd)

def foundLiterally (cwd : String) (files excluded : List String) :
    Except GlobError (List String) := do
  let kept ← files.mapM fun path => do
    let place := Path.absolute cwd path
    if ← matchesAny excluded (Path.relativeTo place cwd) then return none else return some place
  return kept.filterMap id

def candidates (f : Files) (cwd : String) (w : Wanted) (excluded : Option (List String)) :
    Except GlobError (List String) := do
  let patterns := if w.patterns.isEmpty && w.files.isEmpty then defaultIncluded else w.patterns
  let excluded := excluded.getD defaultExcluded
  let byPatterns ← f.foundByPatterns cwd patterns excluded
  let literally ← foundLiterally cwd w.files excluded
  return (byPatterns ++ literally).eraseDups.mergeSort (· ≤ ·)

/-- The files that a scan looks at: those asked for that no ignore file ignores. -/
def discover (f : Files) (cwd : String) (w : Wanted) (excluded : Option (List String))
    (useIgnoreFiles : Bool) :
    Except (Halted DiscoveryError) (List String × List LogLine) := do
  let found ← (f.candidates cwd w excluded).mapError fun e => ⟨.glob e, []⟩
  -- with nothing to ignore the ignore files are not read, nor their faults met
  if useIgnoreFiles && !found.isEmpty then
    let (ignoreFiles, notes) ← (f.ignoreFiles cwd).mapError fun h => ⟨.ignore h.error, h.notes⟩
    return (found.filter fun path => !ignoredBy ignoreFiles path, notes)
  else return (found, [])

end Files

end EdgeAudit

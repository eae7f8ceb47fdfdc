import EdgeAudit.Files.Source
import EdgeAudit.Ignore.Match
import EdgeAudit.Log

namespace EdgeAudit

namespace Ignore

open Text

structure IgnoreFile where
  base : String
  patterns : List IgnorePattern

def endsLine (c : Char) : Bool :=
  ['\n', '\r', '\x0b', '\x0c', '\x1c', '\x1d', '\x1e', '\u0085', '\u2028', '\u2029'].contains c

def lines (cs : List Char) : List (List Char) :=
  match cs with
  | [] => []
  | _ => go [] cs
where
  go (before : List Char) : List Char → List (List Char)
    | [] => if before.isEmpty then [] else [before.reverse]
    | c :: cs => if endsLine c then before.reverse :: go [] cs else go (c :: before) cs

def patternsOf (text : List Char) : Except IgnoreError (List IgnorePattern) := do
  let found ← (lines text).mapM fun line => IgnorePattern.ofLine? (String.ofList line)
  return found.filterMap id

def prunedNames : List String :=
  [".git", "node_modules", ".next", "dist", "build", ".turbo", "coverage"]

def fileName : String := ".gitignore"

/-- Whether an ignore file ignores an absolute path. Paths outside its directory it does not. -/
def IgnoreFile.ignores (i : IgnoreFile) (path : String) : Bool :=
  if Path.root path != Path.root i.base then false
  else match Path.after? (Path.parts i.base) (Path.parts path) with
  | none => false
  | some [] => ignoresPath i.patterns "."
  | some rest => ignoresPath i.patterns (joinWith "/" rest)

def ignoredBy (files : List IgnoreFile) (path : String) : Bool :=
  files.any fun i => i.ignores path

end Ignore

namespace Entry

mutual

def ignoreBases (root : Entry) (way : List String) (shown : String) : Entry → List String
  | .dir entries =>
    (entries.filterMap fun (name, e) =>
      if name = Ignore.fileName && root.leadsToDir? way name e != some true then some shown
      else none) ++
    ((ignoreBasesEach root way shown entries).mergeSort fun a b => a.1 ≤ b.1).flatMap (·.2)
  | _ => []

def ignoreBasesEach (root : Entry) (way : List String) (shown : String) :
    List (String × Entry) → List (String × List String)
  | [] => []
  | (name, e) :: es =>
    (name, if Ignore.prunedNames.contains name then []
      else ignoreBases root (way ++ [name]) (Path.join shown name) e) ::
      ignoreBasesEach root way shown es

end

end Entry

namespace Files

open Ignore

def ignoreBases (f : Files) (cwd : String) : List String :=
  match f.find cwd with
  | .ok (way, e) => f.root.ignoreBases way cwd e
  | .error _ => []

def ignoreFile (f : Files) (base : String) : Except IgnoreError (Except LogLine IgnoreFile) :=
  let path := Path.join base fileName
  match f.readLenient path with
  | .ok text => (patternsOf text).map fun patterns => .ok ⟨base, patterns⟩
  | .error fault =>
    .ok (.error ⟨.warning, .discovery, "Could not read " ++ path ++ ": " ++ fault.message path⟩)

def ignoreFilesOf (f : Files) (notes : List LogLine) :
    List String → Except (Halted IgnoreError) (List IgnoreFile × List LogLine)
  | [] => .ok ([], notes)
  | base :: bases => do
    match ← (f.ignoreFile base).mapError (⟨·, notes⟩) with
    | .error note => f.ignoreFilesOf (notes ++ [note]) bases
    | .ok file =>
      let (files, notes) ← f.ignoreFilesOf notes bases
      return (file :: files, notes)

def ignoreFiles (f : Files) (cwd : String) :
    Except (Halted IgnoreError) (List IgnoreFile × List LogLine) :=
  f.ignoreFilesOf [] (f.ignoreBases cwd)

end Files

end EdgeAudit

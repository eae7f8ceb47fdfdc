import EdgeAudit.Files.Lookup
import EdgeAudit.Glob.Match

namespace EdgeAudit

namespace Glob

inductive Segment
  | literal (name : String)
  | wild (pattern : List Char)
  | names
  deriving DecidableEq, Repr

def magic : List Char :=
  ['*', '?', '[', ']', '\\', '\x7b', '\x7d']

def Segment.ofText (cs : List Char) : Segment :=
  if cs = ['*', '*'] then .names
  else if cs.any magic.contains then .wild cs
  else .literal (String.ofList cs)

def Segment.fits : Segment → String → Bool
  | .literal name, other => name == other
  | .wild pattern, name => Glob.fits .plain pattern name.toList
  | .names, name => !isHidden name
where
  isHidden (name : String) : Bool := name.toList.head? == some '.'

def splitSegments : (fuel : Nat) → (before : List Char) → List Char → List (List Char)
  | 0, before, _ => [before.reverse]
  | _, before, [] => [before.reverse]
  | n + 1, before, c :: cs =>
    match c, cs with
    | '/', _ => before.reverse :: splitSegments n [] cs
    | '\\', '/' :: rest => before.reverse :: splitSegments n [] rest
    | '\\', d :: rest => splitSegments n (d :: '\\' :: before) rest
    | '[', _ =>
      match CharClass.read? cs with
      | some (_, rest) =>
        splitSegments n ((c :: cs.take (cs.length - rest.length)).reverse ++ before) rest
      | none => splitSegments n (c :: before) cs
    | _, _ => splitSegments n (c :: before) cs

def collapse : List Segment → List Segment
  | .names :: rest =>
    match collapse rest with
    | .names :: rest => .names :: rest
    | rest => .names :: rest
  | s :: rest => s :: collapse rest
  | [] => []

def segments (pattern : List Char) : List Segment :=
  let parts := splitSegments (pattern.length + 1) [] pattern
  if (parts.getLast?.getD []).isEmpty then []
  else collapse ((parts.filter fun p => !p.isEmpty).map Segment.ofText)

end Glob

structure Listed where
  name : String
  path : String
  isDir : Bool

namespace Entry

def listedChild (root : Entry) (way : List String) (shown name : String) (e : Entry) :
    Option Listed :=
  (root.leadsToDir? way name e).map fun isDir => ⟨name, Path.join shown name, isDir⟩

mutual

def listedBelow (root : Entry) (way : List String) (shown : String) : Entry → List Listed
  | .dir entries => listedEach root way shown entries
  | _ => []

def listedEach (root : Entry) (way : List String) (shown : String) :
    List (String × Entry) → List Listed
  | [] => []
  | (name, e) :: es =>
    (root.listedChild way shown name e).toList ++
      (if Glob.Segment.names.fits name then
        listedBelow root (way ++ [name]) (Path.join shown name) e
      else []) ++
      listedEach root way shown es

end

end Entry

namespace Files

def list (f : Files) (base dir : String) : List Listed :=
  match f.find (Path.join base dir) with
  | .ok (way, .dir entries) =>
    entries.filterMap fun (name, e) => f.root.listedChild way dir name e
  | _ => []

def listBelow (f : Files) (base dir : String) : List Listed :=
  match f.find (Path.join base dir) with
  | .ok (way, e) => f.root.listedBelow way dir e
  | _ => []

def dirsIn (f : Files) (base dir : String) (s : Glob.Segment) : List String :=
  let special := match s with
    | .literal "." => [Path.join dir "."]
    | .literal ".." => [Path.join dir ".."]
    | _ => []
  special ++ ((f.list base dir).filter fun l => l.isDir && s.fits l.name).map (·.path)

def search (f : Files) (base dir : String) : List Glob.Segment → List String
  | [] => []
  | [.names] => ((f.listBelow base dir).filter fun l => !l.isDir && Glob.Segment.names.fits l.name).map
      (·.path)
  | [s] => ((f.list base dir).filter fun l => !l.isDir && s.fits l.name).map (·.path)
  | [.names, s] => ((f.listBelow base dir).filter fun l => !l.isDir && s.fits l.name).map (·.path)
  -- any number of names and the part after them are found in one descent
  | .names :: s :: rest =>
    (((f.listBelow base dir).filter fun l => l.isDir && s.fits l.name).map (·.path)).flatMap
      fun d => f.search base d rest
  | s :: rest => (f.dirsIn base dir s).flatMap fun d => f.search base d rest

def searchPattern (f : Files) (base : String) (pattern : List Char) : List String :=
  f.search base (if pattern.head? = some '/' then "/" else "") (Glob.segments pattern)

/-- The files that fit one of several patterns and none of those to leave out. The latter also match
names that start with a dot; one that is not absolute matches no absolute path. -/
def glob (f : Files) (base : String) (patterns excluded : List String) :
    Except Glob.GlobError (List String) := do
  let patterns ← Glob.expandBraces patterns
  let excluded ← Glob.expandBraces excluded
  let leftOut (path : List Char) : Bool := excluded.any fun p =>
    Glob.fits .matched p path && (p.head? == some '/' || path.head? != some '/')
  return ((patterns.flatMap (f.searchPattern base)).filter fun path => !leftOut path.toList)

end Files

end EdgeAudit

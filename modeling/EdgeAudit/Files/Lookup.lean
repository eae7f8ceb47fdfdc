import EdgeAudit.Files.Entry
import EdgeAudit.Text.Quoted

namespace EdgeAudit

inductive LookupFault
  | notFound
  | alreadyThere
  | notDirectory
  | isDirectory
  | nameTooLong
  | tooManyLinks
  deriving DecidableEq, Repr

namespace LookupFault

def number : LookupFault → Nat
  | .notFound => 2
  | .alreadyThere => 17
  | .notDirectory => 20
  | .isDirectory => 21
  | .nameTooLong => 36
  | .tooManyLinks => 40

def title : LookupFault → String
  | .notFound => "No such file or directory"
  | .alreadyThere => "File exists"
  | .notDirectory => "Not a directory"
  | .isDirectory => "Is a directory"
  | .nameTooLong => "File name too long"
  | .tooManyLinks => "Too many levels of symbolic links"

def message (f : LookupFault) (path : String) : String :=
  "[Errno " ++ toString f.number ++ "] " ++ f.title ++ ": " ++ Text.quoted path

end LookupFault

def maxNameBytes : Nat := 255

def maxPathBytes : Nat := 4095

def maxLinks : Nat := 40

/-- Follows names from the directory `here`, whose own way has no links. At most `links` links are
followed; a link at the end only if asked for. -/
def Entry.walk (root : Entry) (followLast : Bool) (links : Nat) (here : List String) :
    List String → Except LookupFault (List String × Entry)
  | [] =>
    match root.at? here with
    | some e => .ok (here, e)
    | none => .error .notFound
  | name :: rest =>
    match root.at? here with
    | some (.dir entries) =>
      if name = "." then root.walk followLast links here rest
      else if name = ".." then root.walk followLast links here.dropLast rest
      else if maxNameBytes < name.utf8ByteSize then .error .nameTooLong
      else match assocGet? (· == ·) name entries with
        | none => .error .notFound
        | some (.link target) =>
          if rest.isEmpty && !followLast then .ok (here ++ [name], .link target)
          else match links with
            | 0 => .error .tooManyLinks
            | n + 1 =>
              -- without a name to follow the walk would end at the link's own directory
              if target = "" then .error .notFound
              else root.walk followLast n (if Path.isAbsolute target then [] else here)
                (Path.parts target ++ rest)
        | some _ => root.walk followLast links (here ++ [name]) rest
    | some _ => .error .notDirectory
    | none => .error .notFound
termination_by rest => (links, rest.length)

def Entry.leadsToDir? (root : Entry) (way : List String) (name : String) : Entry → Option Bool
  | .file _ _ => some false
  | .dir _ => some true
  | .link _ =>
    match root.walk true maxLinks way [name] with
    | .ok (_, .dir _) => some true
    | .ok _ => some false
    | .error .notFound => some false
    | .error _ => none

namespace Files

def find (f : Files) (path : String) : Except LookupFault (List String × Entry) :=
  f.root.walk true maxLinks [] (Path.parts path)

def findLink (f : Files) (path : String) : Except LookupFault (List String × Entry) :=
  f.root.walk false maxLinks [] (Path.parts path)

/-- A test of the entry at a path. A path that leads nowhere fails the test; only a name or a whole
path that is too long is a fault. -/
def test (f : Files) (p : Entry → Bool) (path : String) : Except LookupFault Bool :=
  if path.toList.contains '\x00' then .ok false
  else if maxPathBytes < path.utf8ByteSize then .error .nameTooLong
  else match f.find path with
    | .ok (_, e) => .ok (p e)
    | .error .nameTooLong => .error .nameTooLong
    | .error _ => .ok false

def isFile (f : Files) (path : String) : Except LookupFault Bool :=
  f.test (fun
    | .file _ _ => true
    | _ => false) path

def isDir (f : Files) (path : String) : Except LookupFault Bool :=
  f.test (fun
    | .dir _ => true
    | _ => false) path

def readBytes (f : Files) (path : String) : Except LookupFault ByteArray :=
  match f.find path with
  | .error fault => .error fault
  | .ok (_, .file bytes _) => .ok bytes
  | .ok _ => .error .isDirectory

end Files

end EdgeAudit

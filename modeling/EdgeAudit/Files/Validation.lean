import EdgeAudit.Files.Lookup
import EdgeAudit.Files.RealPath
import EdgeAudit.Text.Blank

namespace EdgeAudit

inductive PathFault
  | empty
  | invalid
  | outside
  | notFound
  | inaccessible (fault : LookupFault) (path : String)
  | notFile
  | tooLarge (size : Nat) (most : Int)
  deriving DecidableEq, Repr

def PathFault.message : PathFault → String
  | .empty => "Path cannot be empty"
  | .invalid => "Path contains invalid characters"
  | .outside => "Path traversal detected - path must be within the working directory"
  | .notFound => "File not found"
  | .inaccessible fault path => "Failed to access file: " ++ fault.message path
  | .notFile => "Path is not a file"
  | .tooLarge size most => "File size (" ++ toString size ++
      " bytes) exceeds maximum allowed size (" ++ toString most ++ " bytes)"

structure FileStats where
  size : Nat
  mtime : Int
  deriving DecidableEq, Repr

def defaultMaxSize : Int := 10 * 1024 * 1024

namespace Files

/-- The real path of `path`, taken from the directory `base`, which must not lead out of it. -/
def validatePath (f : Files) (path base : String) : Except PathFault String :=
  if path.toList.all Text.isBlank then .error .empty
  else if path.toList.contains '\x00' then .error .invalid
  else
    let baseParts := f.realParts base
    let real := f.realParts (Path.join (Path.ofParts baseParts) path)
    match Path.after? baseParts real with
    | some _ => .ok (Path.ofParts real)
    | none => .error .outside

def validateFile (f : Files) (path : String) (most : Int) : Except PathFault FileStats :=
  match f.find path with
  | .error .notFound => .error .notFound
  | .error fault => .error (.inaccessible fault path)
  | .ok (_, .file bytes mtime) =>
    if most < bytes.size then .error (.tooLarge bytes.size most) else .ok ⟨bytes.size, mtime⟩
  | .ok _ => .error .notFile

end Files

end EdgeAudit

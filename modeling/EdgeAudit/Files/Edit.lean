import EdgeAudit.Files.Lookup

namespace EdgeAudit.Files

def place (f : Files) (path : String) : List String :=
  let parts := Path.parts path
  match f.find path with
  | .ok (way, _) => way
  | .error _ =>
    match f.find (Path.ofParts parts.dropLast) with
    | .ok (way, _) => way ++ parts.getLast?.toList
    | .error _ => Path.resolveDots true parts

def write (f : Files) (path : String) (bytes : ByteArray) (mtime : Int) : Files :=
  ⟨f.root.put (.file bytes mtime) (f.place path)⟩

def link (f : Files) (path target : String) : Files :=
  ⟨f.root.put (.link target) (f.place path)⟩

def makeDir (f : Files) (path : String) : Files :=
  match f.find path with
  | .ok _ => f
  | .error _ => ⟨f.root.put (.dir []) (f.place path)⟩

def touch (f : Files) (path : String) (mtime : Int) : Files :=
  match f.find path with
  | .ok (way, .file bytes _) => ⟨f.root.put (.file bytes mtime) way⟩
  | _ => f

def remove (f : Files) (path : String) : Files :=
  match f.findLink path with
  | .ok (way, _) => ⟨f.root.remove way⟩
  | .error _ => f

def target (f : Files) : (links : Nat) → String → Except LookupFault (List String)
  | links, path => do
    let parts := Path.parts path
    let (way, dir) ← f.find (Path.ofParts parts.dropLast)
    let name := parts.getLast?.getD ""
    match dir with
    | .dir entries =>
      if maxNameBytes < name.utf8ByteSize then throw .nameTooLong
      match assocGet? (· == ·) name entries, links with
      | some (.link _), 0 => throw .tooManyLinks
      | some (.link goal), n + 1 => f.target n (Path.join (Path.ofParts way) goal)
      | some (.dir _), _ => throw .isDirectory
      | _, _ => return way ++ [name]
    | _ => throw .notDirectory

def writeText (f : Files) (path text : String) : Except LookupFault Files := do
  match f.find path with
  | .ok (_, .dir _) => throw .isDirectory
  | .ok (way, _) => return ⟨f.root.put (.file text.toUTF8 0) way⟩
  | .error _ => return ⟨f.root.put (.file text.toUTF8 0) (← f.target maxLinks path)⟩

def ensureDir (f : Files) (path : String) (last : Bool) : Except LookupFault Files :=
  match f.find path with
  | .ok (_, .dir _) => .ok f
  | .ok _ => .error (if last then .alreadyThere else .notDirectory)
  | .error .notFound =>
    match f.findLink path with
    | .ok _ => .error .alreadyThere
    | .error _ => .ok (f.makeDir path)
  | .error fault => .error fault

def ensureDirs (f : Files) (path : String) : Except LookupFault Files :=
  let parts := Path.parts path
  (List.range parts.length).foldlM
    (fun f i => f.ensureDir (Path.ofParts (parts.take (i + 1))) (i + 1 == parts.length)) f

end EdgeAudit.Files

import EdgeAudit.Assoc
import EdgeAudit.Path.Basic

namespace EdgeAudit

/-- What stands under a name: a file with its bytes and the time of its last change, a link, or a
directory. There are no special files, no permissions and no names that are not Unicode text. -/
inductive Entry
  | file (bytes : ByteArray) (mtime : Int)
  | link (target : String)
  | dir (entries : List (String × Entry))

namespace Entry

def child? : Entry → String → Option Entry
  | .dir entries, name => assocGet? (· == ·) name entries
  | _, _ => none

def at? (e : Entry) : List String → Option Entry
  | [] => some e
  | name :: rest =>
    match e.child? name with
    | some child => child.at? rest
    | none => none

def entries : Entry → List (String × Entry)
  | .dir entries => entries
  | _ => []

def put (e : Entry) (new : Entry) : List String → Entry
  | [] => new
  | name :: rest =>
    .dir (assocSet (· == ·) name (((e.child? name).getD (.dir [])).put new rest) e.entries)

def remove (e : Entry) : List String → Entry
  | [] => .dir []
  | [name] => .dir (e.entries.filter fun p => p.1 != name)
  | name :: rest =>
    match e.child? name with
    | some child => .dir (assocSet (· == ·) name (child.remove rest) e.entries)
    | none => e

mutual

def linkCount : Entry → Nat
  | .file _ _ => 0
  | .link _ => 1
  | .dir entries => linkCounts entries

def linkCounts : List (String × Entry) → Nat
  | [] => 0
  | (_, e) :: es => linkCount e + linkCounts es

end

end Entry

structure Files where
  root : Entry

namespace Files

def empty : Files :=
  ⟨.dir []⟩

end Files

end EdgeAudit

import EdgeAudit.Files.Entry

namespace EdgeAudit

inductive WayStep
  | name (name : String)
  | arrived (start : List String)

namespace WayStep

def name? : WayStep → Option String
  | .name n => some n
  | .arrived _ => none

end WayStep

/-- Follows a way from the directory `here` and replaces every link by what it stands for. Names that
are not there stay as they are. `seen` has the links met so far, with the places they lead to once
these are known; a link met again before that goes in a circle, and the rest of the way is kept as it
is written. At most `links` links are opened. -/
def Entry.realWay (root : Entry) (links : Nat) (seen : List (List String × Option (List String)))
    (here : List String) : List WayStep → List String
  | [] => here
  | .arrived start :: todo => root.realWay links ((start, some here) :: seen) here todo
  | .name n :: todo =>
    if n = "" ∨ n = "." then root.realWay links seen here todo
    else if n = ".." then root.realWay links seen here.dropLast todo
    else
      let new := here ++ [n]
      match root.at? new with
      | some (.link target) =>
        match seen.find? fun s => s.1 == new with
        | some (_, some place) => root.realWay links seen place todo
        | some (_, none) => Path.resolveDots true (new ++ todo.filterMap WayStep.name?)
        | none =>
          match links with
          -- every link is opened once, so `linkCount` of them are enough
          | 0 => Path.resolveDots true (new ++ todo.filterMap WayStep.name?)
          | k + 1 =>
            root.realWay k ((new, none) :: seen) (if Path.isAbsolute target then [] else here)
              ((Path.parts target).map .name ++ .arrived new :: todo)
      | _ => root.realWay links seen new todo
termination_by todo => (links, todo.length)

namespace Files

def realParts (f : Files) (path : String) : List String :=
  f.root.realWay f.root.linkCount [] [] ((Path.parts path).map .name)

end Files

end EdgeAudit

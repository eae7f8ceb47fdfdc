import EdgeAudit.Rule.Basic

namespace EdgeAudit

/-- A rule made by a user: it reports a text wherever it stands, and may refuse files. -/
structure CustomRule where
  id : String
  name : String := ""
  category : String := "edge-pattern"
  severity : Severity := .info
  enabled : Bool := true
  undefined : Bool := false
  refusal : Option String := none
  refusedPath : String := ""
  needle : String := ""

def placesFrom (needle : List Char) (offset skip : Nat) : List Char → List Nat
  | [] => []
  | c :: cs =>
    match skip with
    | n + 1 => placesFrom needle (offset + 1) n cs
    | 0 =>
      if needle.isPrefixOf (c :: cs) then offset :: placesFrom needle (offset + 1) (needle.length - 1) cs
      else placesFrom needle (offset + 1) 0 cs

def places (needle text : List Char) : List Nat :=
  if needle.isEmpty then [] else placesFrom needle 0 0 text

def holdsText (text part : List Char) : Bool :=
  part.isEmpty || !(places part text).isEmpty

namespace CustomRule

def note (source : Source) : String :=
  source.target.name ++ "/" ++ (if source.strict then "True" else "False") ++ "/" ++
    (if source.tree.isSome then "tree" else "text")

def report (r : CustomRule) (source : Source) : List Finding :=
  (places r.needle.toList source.text).map fun start =>
    source.finding start (start + r.needle.length) r.id r.severity (note source) []

def detect (r : CustomRule) (source : Source) : Except RuleFailure (List Finding) :=
  if r.undefined then .error .undefined
  else match r.refusal with
    | some reason =>
      if holdsText source.path.toList r.refusedPath.toList then .error (.refused reason)
      else .ok (r.report source)
    | none => .ok (r.report source)

def toRule (r : CustomRule) : Rule where
  id := r.id
  name := r.name
  description := ""
  category := r.category
  severity := r.severity
  enabled := r.enabled
  sort := .custom
  detect := r.detect

end CustomRule

end EdgeAudit

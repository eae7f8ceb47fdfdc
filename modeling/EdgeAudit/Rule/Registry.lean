import EdgeAudit.Rule.Basic
import EdgeAudit.Text.Quoted

namespace EdgeAudit

def categories : List String :=
  ["node-core", "edge-pattern", "dependency", "bundle"]

inductive RegistryError
  | duplicate (id : String)
  | unknownCategory (id category : String)
  deriving DecidableEq, Repr

namespace RegistryError

def message : RegistryError → String
  | .duplicate id => "Rule with id \"" ++ id ++ "\" is already registered"
  | .unknownCategory id category =>
    "Rule " ++ Text.quoted id ++ " has unknown category " ++ Text.quoted category

end RegistryError

structure Registry where
  rules : List Rule

namespace Registry

def empty : Registry := ⟨[]⟩

def get? (r : Registry) (id : String) : Option Rule :=
  r.rules.find? fun rule => rule.id == id

def contains (r : Registry) (id : String) : Bool :=
  r.rules.any fun rule => rule.id == id

def size (r : Registry) : Nat :=
  r.rules.length

def register (r : Registry) (rule : Rule) : Except RegistryError Registry :=
  if r.contains rule.id then .error (.duplicate rule.id)
  else if !categories.contains rule.category then
    .error (.unknownCategory rule.id rule.category)
  else .ok ⟨r.rules ++ [rule]⟩

def registerAll (r : Registry) (rules : List Rule) : Except RegistryError Registry :=
  rules.foldlM register r

def setEnabled (r : Registry) (id : String) (enabled : Bool) : Registry :=
  ⟨r.rules.map fun rule => if rule.id == id then { rule with enabled := enabled } else rule⟩

def enabledRules (r : Registry) : List Rule :=
  r.rules.filter (·.enabled)

end Registry

end EdgeAudit

import EdgeAudit.Text.Split

namespace EdgeAudit

open Text

def refersTo (specifier module : String) : Bool :=
  let s := specifier.toList
  let plain := module.toList
  let full := "node:".toList ++ plain
  s == plain || s == full || (plain ++ ['/']).isPrefixOf s || (full ++ ['/']).isPrefixOf s

/-- The package that a specifier belongs to: its first part, or its first two after `@`. Relative
and absolute paths and `node:` modules belong to none. -/
def basePackage? (specifier : String) : Option String :=
  let s := specifier.toList
  if s.isEmpty || ['.'].isPrefixOf s || ['/'].isPrefixOf s || "node:".toList.isPrefixOf s then none
  else if ['@'].isPrefixOf s then
    match splitOn '/' s with
    | scope :: name :: _ => if name = [] then none else some (String.ofList (scope ++ '/' :: name))
    | _ => none
  else
    match splitOn '/' s with
    | first :: _ => if first = [] then none else some (String.ofList first)
    | [] => none

end EdgeAudit

import EdgeAudit.Text.Split

namespace EdgeAudit.Script

inductive Dialect
  | javascript
  | typescript
  | tsx
  deriving DecidableEq, Repr

namespace Dialect

def name : Dialect → String
  | .javascript => "javascript"
  | .typescript => "typescript"
  | .tsx => "tsx"

def typed : Dialect → Bool
  | .javascript => false
  | _ => true

def markup : Dialect → Bool
  | .typescript => false
  | _ => true

def ofExtension? (ext : String) : Option Dialect :=
  if [".js", ".jsx", ".mjs", ".cjs"].contains ext then some .javascript
  else if [".ts", ".mts", ".cts"].contains ext then some .typescript
  else if ext = ".tsx" then some .tsx
  else none

end Dialect

def pathParts (path : String) : List String :=
  ((Text.splitOn '/' path.toList).map String.ofList).filter fun p => p ≠ "" ∧ p ≠ "."

def extension (name : List Char) : List Char :=
  let tail := name.reverse.takeWhile (· != '.')
  if tail.length + 1 < name.length ∧ !tail.isEmpty then '.' :: tail.reverse else []

def Dialect.ofPath? (path : String) : Option Dialect :=
  match (pathParts path).getLast? with
  | none => none
  | some last => ofExtension? (String.ofList ((extension last.toList).map Char.toLower))

end EdgeAudit.Script

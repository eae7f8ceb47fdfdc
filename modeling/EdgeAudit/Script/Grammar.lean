import EdgeAudit.Script.Dialect
import EdgeAudit.Script.Literal
import EdgeAudit.Script.Semicolon
import EdgeAudit.Script.Tree

/-!
The languages of the tree-sitter grammars for JavaScript, TypeScript and TSX. A text in which they would
mark an error has no tree, and nodes that nobody asks for are of kind `other`.
-/

namespace EdgeAudit.Script

/-- What an expression that has been read can still turn out to be. -/
inductive Reading
  | value
  | reference
  | group
  | literal
  | pattern
  | defaulted
  deriving DecidableEq

namespace Reading

def isValue : Reading → Bool
  | .pattern => false
  | _ => true

def isPattern : Reading → Bool
  | .reference | .literal | .pattern => true
  | _ => false

def isItem (r : Reading) : Bool :=
  r.isPattern || r == .defaulted

def isTarget (r : Reading) : Bool :=
  r.isPattern || r == .group

def isUpdatable : Reading → Bool
  | .reference | .group => true
  | _ => false

def ofParts? (values items : Bool) : Option Reading :=
  match values, items with
  | true, true => some .literal
  | true, false => some .value
  | false, true => some .pattern
  | false, false => none

end Reading

structure Parsed where
  tree : Tree
  reading : Reading

structure Setting where
  barIn : Bool
  mayEnd : Bool
  barResult : Bool

namespace Setting

def inner : Setting := ⟨false, false, false⟩

def line : Setting := ⟨false, true, false⟩

end Setting

inductive Goal
  | expression (setting : Setting)
  | sequence (setting : Setting)
  | operand (setting : Setting)
  | binding
  | block
  | statement
  | markup
  | type

/-- A language and readers for the goals, from which larger readers are built. -/
structure Grammar where
  dialect : Dialect
  read : Goal → Reader Parsed

def reservedWords : List String :=
  ["break", "case", "catch", "class", "const", "continue", "debugger", "default", "delete", "do",
   "else", "export", "extends", "false", "finally", "for", "function", "if", "import", "in",
   "instanceof", "new", "null", "return", "super", "switch", "this", "throw", "true", "try",
   "typeof", "var", "void", "while", "with"]

def operandWords : List String :=
  ["class", "delete", "false", "function", "import", "new", "null", "super", "this", "true",
   "typeof", "void"]

open Reader

def finish (kind : NodeKind) (start : Nat) (children : List Tree) : Reader Tree := do
  return .node kind .plain start (← Reader.position) children

namespace Grammar

variable (g : Grammar)

def barredInExpression : List String :=
  if g.dialect.typed then operandWords else reservedWords

def barredInBinding : List String :=
  if g.dialect.typed then [] else reservedWords

def cover (setting : Setting) : Reader Parsed :=
  g.read (.expression setting)

def expression (setting : Setting) : Reader Tree := do
  let p ← g.read (.expression setting)
  check p.reading.isValue
  return p.tree

def sequence (setting : Setting) : Reader Tree := do
  return (← g.read (.sequence setting)).tree

def operand (setting : Setting) : Reader Tree := do
  let p ← g.read (.operand setting)
  check p.reading.isValue
  return p.tree

def binding : Reader Tree := do
  return (← g.read .binding).tree

def block : Reader Tree := do
  return (← g.read .block).tree

def statement : Reader Tree := do
  return (← g.read .statement).tree

def markup : Reader Tree := do
  return (← g.read .markup).tree

def type : Reader Tree := do
  return (← g.read .type).tree

end Grammar

namespace Reader

def holedList {α : Type} (close : String) (item : Reader α) : Reader (List α) := do
  let parts ← many do
    if ← markIf "," then return none
    check !(← markAhead close)
    let x ← item
    if !(← markIf ",") then check (← markAhead close)
    return some x
  mark close
  return parts.filterMap id

def commaList {α : Type} (close : String) (item : Reader α) : Reader (List α) := do
  let xs ← many do
    check !(← markAhead close)
    let x ← item
    if !(← markIf ",") then check (← markAhead close)
    return x
  mark close
  return xs

def commaItems {α : Type} (item : Reader α) : Reader (List α) := do
  let x ← item
  let xs ← many do
    mark ","
    item
  return x :: xs

def nameLeaf (kind : NodeKind) (barred : List String) : Reader Tree := do
  let s ← begin
  let w ← bareName
  check !(barred.contains w)
  finish kind s []

def nameAhead (barred : List String) : Reader Bool :=
  ahead (nameLeaf .identifier barred)

def stringLeaf : Reader Tree := do
  let s ← begin
  stringToken
  finish .string s []

end Reader

end EdgeAudit.Script

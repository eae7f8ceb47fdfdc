import EdgeAudit.Number.Literal
import EdgeAudit.Yaml.Error

namespace EdgeAudit.Yaml

structure Cursor where
  rest : List Char
  index : Nat
  line : Nat
  column : Nat

abbrev Reader := StateT Cursor (Except YamlError)

def isBreak (c : Char) : Bool :=
  c == '\n' || c == '\x85' || c == '\u2028' || c == '\u2029'

def isBreakOrEnd (c : Char) : Bool :=
  isBreak c || c == '\x00'

def isSpaceOrEnd (c : Char) : Bool :=
  isBreakOrEnd c || c == ' '

def isGapOrEnd (c : Char) : Bool :=
  isSpaceOrEnd c || c == '\t'

def isPrintable (c : Char) : Bool :=
  let n := c.toNat
  n == 0x9 || n == 0xA || n == 0xD || (0x20 ≤ n && n ≤ 0x7E) || n == 0x85 ||
    (0xA0 ≤ n && n ≤ 0xD7FF) || (0xE000 ≤ n && n ≤ 0xFFFD) || 0x10000 ≤ n

def isNameChar (c : Char) : Bool :=
  c.isAlphanum || c == '-' || c == '_'

namespace Cursor

def start (text : List Char) : Cursor :=
  ⟨text, 0, 0, 0⟩

def next (c : Cursor) : Cursor :=
  match c.rest with
  | [] => c
  | x :: rest =>
    if isBreak x then ⟨rest, c.index + 1, c.line + 1, 0⟩
    else if x = '\ufeff' then ⟨rest, c.index + 1, c.line, c.column⟩
    else ⟨rest, c.index + 1, c.line, c.column + 1⟩

def skip : (n : Nat) → Cursor → Cursor
  | 0, c => c
  | n + 1, c => skip n c.next

def peek (c : Cursor) (n : Nat) : Char :=
  (c.rest[n]?).getD '\x00'

def atMark (c : Cursor) (sign : Char) : Bool :=
  c.rest.take 3 == [sign, sign, sign] && isGapOrEnd (c.peek 3)

end Cursor

namespace Reader

def peek (n : Nat) : Reader Char := do
  return (← get).peek n

def skip (n : Nat) : Reader Unit :=
  modify (Cursor.skip n)

def takeWhile (p : Char → Bool) : Reader (List Char) := do
  let run := (← get).rest.takeWhile p
  skip run.length
  return run

def skipSpaces : Reader Unit := do
  let _ ← takeWhile (· == ' ')

def fail {α : Type} : Reader α :=
  throw .malformed

def require (b : Bool) : Reader Unit :=
  if b then pure () else fail

def lineBreak : Reader (List Char) := do
  let c ← peek 0
  if c == '\n' || c == '\x85' then
    skip 1
    return ['\n']
  else if isBreak c then
    skip 1
    return [c]
  else return []

def comment : Reader Unit := do
  if (← peek 0) == '#' then
    let _ ← takeWhile fun c => !isBreakOrEnd c

def restOfLine : Reader Unit := do
  skipSpaces
  comment
  require (isBreakOrEnd (← peek 0))
  let _ ← lineBreak

def hexNumber (width : Nat) : Reader Nat := do
  let digits := (← get).rest.take width
  require (digits.length == width)
  match Number.digitsValue? 16 Text.hexValue? digits with
  | none => fail
  | some n =>
    skip width
    return n

def folded (first : List Char) (more : List Char) : List Char :=
  if first != ['\n'] then first ++ more
  else if more.isEmpty then [' ']
  else more

end Reader

end EdgeAudit.Yaml

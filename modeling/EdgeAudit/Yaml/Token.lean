import EdgeAudit.Text.Utf8
import EdgeAudit.Yaml.Scalar

/-!
Documents as the safe loader of PyYAML reads them, in its three passes: tokens, nodes (`Yaml.Node`) and
values (`Yaml.Load`).
-/

namespace EdgeAudit.Yaml

open Reader

inductive Directive
  | version (major : Nat)
  | tag (handle start : String)
  | other
  deriving DecidableEq, Repr

inductive Token
  | streamEnd
  | directive (d : Directive)
  | documentStart
  | documentEnd
  | blockSequenceStart
  | blockMappingStart
  | blockEnd
  | flowSequenceStart
  | flowSequenceEnd
  | flowMappingStart
  | flowMappingEnd
  | flowEntry
  | blockEntry
  | key
  | value
  | alias (name : String)
  | anchor (name : String)
  | tag (handle : Option String) (suffix : String)
  | scalar (text : String) (plain : Bool)
  deriving DecidableEq, Repr

def directiveName : Reader String := do
  let name ← takeWhile isNameChar
  require !name.isEmpty
  require (isSpaceOrEnd (← peek 0))
  return String.ofList name

def versionNumber : Reader Nat := do
  let digits ← takeWhile Char.isDigit
  require !digits.isEmpty
  if Number.maxWholeDigits < digits.length then
    throw (.noSuchValue (Number.tooManyDigitsText digits.length))
  return digits.foldl (fun n c => n * 10 + (c.toNat - 48)) 0

def tagHandle : Reader String := do
  require ((← peek 0) == '!')
  if (← peek 1) == ' ' then
    skip 1
    return "!"
  skip 1
  let name ← takeWhile isNameChar
  require ((← peek 0) == '!')
  skip 1
  return "!" ++ String.ofList name ++ "!"

def isTagChar (c : Char) : Bool :=
  isNameChar c || (";/?:@&=+$,.!~*'()[]".toList).contains c

def escapedByte : Reader UInt8 := do
  skip 1
  return UInt8.ofNat (← hexNumber 2)

def escapedBytes : (fuel : Nat) → List UInt8 → Reader (List UInt8)
  | 0, bytes => return bytes
  | n + 1, bytes => do
    if (← peek 0) != '%' then return bytes
    let b ← escapedByte
    escapedBytes n (bytes ++ [b])

def tagRest : (fuel : Nat) → List Char → Reader (List Char)
  | 0, before => return before
  | n + 1, before => do
    let run ← takeWhile isTagChar
    if (← peek 0) == '%' then
      let bytes ← escapedBytes ((← get).rest.length + 1) []
      match Text.decodeUtf8 bytes with
      | .ok text => tagRest n (before ++ run ++ text)
      | .error _ => fail
    else return before ++ run

def tagText : Reader String := do
  let text ← tagRest ((← get).rest.length + 1) []
  require !text.isEmpty
  return String.ofList text

def directive : Reader Directive := do
  skip 1
  let name ← directiveName
  let d ← if name == "YAML" then do
      skipSpaces
      let major ← versionNumber
      require ((← peek 0) == '.')
      skip 1
      let _ ← versionNumber
      require (isSpaceOrEnd (← peek 0))
      pure (Directive.version major)
    else if name == "TAG" then do
      skipSpaces
      let handle ← tagHandle
      require ((← peek 0) == ' ')
      skipSpaces
      let start ← tagText
      require (isSpaceOrEnd (← peek 0))
      pure (Directive.tag handle start)
    else do
      let _ ← takeWhile fun c => !isBreakOrEnd c
      pure Directive.other
  restOfLine
  return d

def anchorName : Reader String := do
  skip 1
  let name ← takeWhile isNameChar
  require !name.isEmpty
  let c ← peek 0
  require (isGapOrEnd c || ['?', ':', ',', ']', '\x7d', '%', '@', '\x60'].contains c)
  return String.ofList name

def tag : Reader Token := do
  let c ← peek 1
  let t ← if c == '<' then do
      skip 2
      let suffix ← tagText
      require ((← peek 0) == '>')
      skip 1
      pure (Token.tag none suffix)
    else if isGapOrEnd c then do
      skip 1
      pure (Token.tag none "!")
    else do
      let word := ((← get).rest.drop 1).takeWhile fun c => !isSpaceOrEnd c
      if word.contains '!' then
        let handle ← tagHandle
        pure (Token.tag (some handle) (← tagText))
      else
        skip 1
        pure (Token.tag (some "!") (← tagText))
  require (isSpaceOrEnd (← peek 0))
  return t

end EdgeAudit.Yaml

import EdgeAudit.Yaml.Cursor

namespace EdgeAudit.Yaml

open Reader

def plainEnds (inFlow : Bool) : List Char → Bool
  | [] => true
  | c :: rest =>
    let next := rest.head?.getD '\x00'
    isGapOrEnd c ||
      (c == ':' && (isGapOrEnd next || (inFlow && [',', '[', ']', '\x7b', '\x7d'].contains next))) ||
      (inFlow && [',', '?', '[', ']', '\x7b', '\x7d'].contains c)

def plainRun (inFlow : Bool) : List Char → List Char
  | [] => []
  | c :: rest => if plainEnds inFlow (c :: rest) then [] else c :: plainRun inFlow rest

def atDocumentMark : Reader Bool := do
  let c ← get
  return c.atMark '-' || c.atMark '.'

def plainBreaks : (fuel : Nat) → List Char → Reader (Option (List Char))
  | 0, breaks => return some breaks
  | n + 1, breaks => do
    if ← atDocumentMark then return none
    skipSpaces
    let b ← lineBreak
    if b.isEmpty then return some breaks
    plainBreaks n (breaks ++ b)

def plainGap : Reader (List Char × Bool) := do
  let spaces ← takeWhile (· == ' ')
  let first ← lineBreak
  if first.isEmpty then return (spaces, false)
  match ← plainBreaks (← get).rest.length [] with
  | none => return ([], true)
  | some more => return (folded first more, true)

def plainFrom (inFlow : Bool) (indent : Int) :
    (fuel : Nat) → (before gap : List Char) → (broken : Bool) → Reader (List Char × Bool)
  | 0, before, _, broken => return (before, broken)
  | n + 1, before, gap, broken => do
    let run := plainRun inFlow (← get).rest
    if run.isEmpty then return (before, broken)
    skip run.length
    let before := before ++ gap ++ run
    let (gap, broken) ← plainGap
    let c ← get
    if gap.isEmpty || c.peek 0 == '#' || (!inFlow && (c.column : Int) < indent + 1) then
      return (before, broken)
    plainFrom inFlow indent n before gap broken

def plainText (inFlow : Bool) (indent : Int) : Reader (List Char × Bool) := do
  plainFrom inFlow indent ((← get).rest.length + 1) [] [] false

def quotedBreaks : (fuel : Nat) → List Char → Reader (List Char)
  | 0, breaks => return breaks
  | n + 1, breaks => do
    if ← atDocumentMark then fail
    let _ ← takeWhile fun c => c == ' ' || c == '\t'
    let b ← lineBreak
    if b.isEmpty then return breaks
    quotedBreaks n (breaks ++ b)

def quotedGap : Reader (List Char) := do
  let spaces ← takeWhile fun c => c == ' ' || c == '\t'
  if (← peek 0) == '\x00' then fail
  let first ← lineBreak
  if first.isEmpty then return spaces
  return folded first (← quotedBreaks ((← get).rest.length + 1) [])

def escapeLetter? (c : Char) : Option Char :=
  match c with
  | '0' => some '\x00'
  | 'a' => some '\x07'
  | 'b' => some '\x08'
  | 't' => some '\t'
  | '\t' => some '\t'
  | 'n' => some '\n'
  | 'v' => some '\x0b'
  | 'f' => some '\x0c'
  | 'r' => some '\r'
  | 'e' => some '\x1b'
  | ' ' => some ' '
  | '"' => some '"'
  | '\\' => some '\\'
  | '/' => some '/'
  | 'N' => some '\x85'
  | '_' => some '\xa0'
  | 'L' => some '\u2028'
  | 'P' => some '\u2029'
  | _ => none

def escapeWidth? (c : Char) : Option Nat :=
  match c with
  | 'x' => some 2
  | 'u' => some 4
  | 'U' => some 8
  | _ => none

def charOfCode (code : Nat) : Reader Char :=
  if 0x80000000 ≤ code then throw .outOfRange
  else if 0x110000 ≤ code then throw (.noSuchValue "chr() arg not in range(0x110000)")
  else if h : code.isValidChar then return Char.ofNatAux code h
  else return '\ufffd'

def lowSurrogate : Reader (Option Nat) := do
  let here ← get
  if here.rest.take 2 == ['\\', 'u'] then
    skip 2
    let code ← hexNumber 4
    if 0xDC00 ≤ code && code < 0xE000 then return some code
    set here
  return none

def coded (width : Nat) : Reader Char := do
  let code ← hexNumber width
  if 0xD800 ≤ code && code < 0xDC00 then
    match ← lowSurrogate with
    | some low => charOfCode (0x10000 + (code - 0xD800) * 0x400 + (low - 0xDC00))
    | none => charOfCode code
  else charOfCode code

def escape : Reader (List Char) := do
  let c ← peek 0
  match escapeLetter? c with
  | some x =>
    skip 1
    return [x]
  | none =>
    match escapeWidth? c with
    | some width =>
      skip 1
      return [← coded width]
    | none =>
      require (isBreak c)
      let _ ← lineBreak
      quotedBreaks ((← get).rest.length + 1) []

def endsQuotedRun (c : Char) : Bool :=
  c == '\'' || c == '"' || c == '\\' || isGapOrEnd c

def quotedRun (double : Bool) : (fuel : Nat) → List Char → Reader (List Char)
  | 0, before => return before
  | n + 1, before => do
    let run ← takeWhile fun c => !endsQuotedRun c
    let before := before ++ run
    let c ← peek 0
    if !double && c == '\'' && (← peek 1) == '\'' then
      skip 2
      quotedRun double n (before ++ ['\''])
    else if (double && c == '\'') || (!double && (c == '"' || c == '\\')) then
      skip 1
      quotedRun double n (before ++ [c])
    else if double && c == '\\' then
      skip 1
      quotedRun double n (before ++ (← escape))
    else return before

def quotedFrom (double : Bool) : (fuel : Nat) → List Char → Reader (List Char)
  | 0, _ => fail
  | n + 1, before => do
    if (← peek 0) == (if double then '"' else '\'') then
      skip 1
      return before
    let gap ← quotedGap
    let run ← quotedRun double ((← get).rest.length + 1) []
    quotedFrom double n (before ++ gap ++ run)

def quotedText (double : Bool) : Reader (List Char) := do
  skip 1
  let fuel := (← get).rest.length + 1
  quotedFrom double fuel (← quotedRun double fuel [])

inductive Chomping
  | clip
  | strip
  | keep
  deriving DecidableEq, Repr

def chompingSign : Reader (Option Chomping) := do
  let c ← peek 0
  if c == '+' then
    skip 1
    return some .keep
  else if c == '-' then
    skip 1
    return some .strip
  else return none

def indentDigit : Reader (Option Nat) := do
  let c ← peek 0
  if c.isDigit then
    require (c != '0')
    skip 1
    return some (c.toNat - 48)
  else return none

def blockSigns : Reader (Chomping × Option Nat) := do
  match ← chompingSign with
  | some chomping =>
    let digit ← indentDigit
    require (isSpaceOrEnd (← peek 0))
    return (chomping, digit)
  | none =>
    let digit ← indentDigit
    let chomping ← if digit.isSome then chompingSign else pure none
    require (isSpaceOrEnd (← peek 0))
    return (chomping.getD .clip, digit)

def leadingLines : (fuel : Nat) → List Char → Nat → Reader (List Char × Nat)
  | 0, breaks, widest => return (breaks, widest)
  | n + 1, breaks, widest => do
    let spaces ← takeWhile (· == ' ')
    let column := (← get).column
    let widest := if spaces.isEmpty then widest else max widest column
    let b ← lineBreak
    if b.isEmpty then return (breaks, widest)
    leadingLines n (breaks ++ b) widest

def indentTo (indent : Nat) : Reader Unit := do
  let c ← get
  let spaces := c.rest.takeWhile (· == ' ')
  skip (min spaces.length (indent - c.column))

def emptyLines (indent : Nat) : (fuel : Nat) → List Char → Reader (List Char)
  | 0, breaks => return breaks
  | n + 1, breaks => do
    indentTo indent
    let b ← lineBreak
    if b.isEmpty then return breaks
    emptyLines indent n (breaks ++ b)

def blockLines (folds : Bool) (indent : Nat) :
    (fuel : Nat) → (before breaks last : List Char) → Reader (List Char × List Char × List Char)
  | 0, before, breaks, last => return (before, last, breaks)
  | n + 1, before, breaks, last => do
    let c ← get
    if c.column != indent || c.peek 0 == '\x00' then return (before, last, breaks)
    let indented := c.peek 0 == ' ' || c.peek 0 == '\t'
    let line ← takeWhile fun c => !isBreakOrEnd c
    let before := before ++ breaks ++ line
    let last ← lineBreak
    let breaks ← emptyLines indent ((← get).rest.length + 1) []
    let c ← get
    if c.column != indent || c.peek 0 == '\x00' then return (before, last, breaks)
    let joins := folds && last == ['\n'] && !indented && !(c.peek 0 == ' ' || c.peek 0 == '\t')
    let joint := if joins then (if breaks.isEmpty then [' '] else []) else last
    blockLines folds indent n (before ++ joint) breaks last

def blockText (folds : Bool) (indent : Int) : Reader (List Char) := do
  skip 1
  let (chomping, digit) ← blockSigns
  restOfLine
  let least := max 1 (indent + 1).toNat
  let fuel := (← get).rest.length + 1
  let (breaks, indent) ← match digit with
    | none => do
      let (breaks, widest) ← leadingLines fuel [] 0
      pure (breaks, max least widest)
    | some d => do
      let indent := least + d - 1
      pure (← emptyLines indent fuel [], indent)
  let (text, last, breaks) ← blockLines folds indent fuel [] breaks []
  return text ++ (if chomping == .strip then [] else last) ++
    (if chomping == .keep then breaks else [])

end EdgeAudit.Yaml

import EdgeAudit.Yaml.Token

namespace EdgeAudit.Yaml

/-- A place where a key may have begun that is only known to be one by the colon after it. -/
structure PossibleKey where
  token : Nat
  required : Bool
  index : Nat
  line : Nat
  column : Nat

structure Scan where
  cursor : Cursor
  tokens : List Token
  depth : Nat
  indent : Int
  outer : List Int
  keyAllowed : Bool
  keys : List (Nat × PossibleKey)
  ended : Bool

abbrev Scanner := StateT Scan (Except YamlError)

namespace Scanner

def fail {α : Type} : Scanner α :=
  throw .malformed

def require (b : Bool) : Scanner Unit :=
  if b then pure () else fail

def reading {α : Type} (r : Reader α) : Scanner α := do
  let s ← get
  match r s.cursor with
  | .error e => throw e
  | .ok (a, cursor) =>
    set { s with cursor := cursor }
    return a

def peek (n : Nat) : Scanner Char := do
  return (← get).cursor.peek n

def column : Scanner Nat := do
  return (← get).cursor.column

def inFlow : Scanner Bool := do
  return 0 < (← get).depth

def emit (t : Token) : Scanner Unit :=
  modify fun s => { s with tokens := t :: s.tokens }

def emitAt (n : Nat) (t : Token) : Scanner Unit :=
  modify fun s =>
    let later := s.tokens.length - n
    { s with tokens := s.tokens.take later ++ t :: s.tokens.drop later }

def allowKey (b : Bool) : Scanner Unit :=
  modify fun s => { s with keyAllowed := b }

def dropStaleKeys : Scanner Unit := do
  let s ← get
  let stale (k : PossibleKey) : Bool :=
    k.line != s.cursor.line || 1024 < s.cursor.index - k.index
  require !(s.keys.any fun k => stale k.2 && k.2.required)
  set { s with keys := s.keys.filter fun k => !stale k.2 }

def dropKey : Scanner Unit := do
  let s ← get
  require !(s.keys.any fun k => k.1 == s.depth && k.2.required)
  set { s with keys := s.keys.filter fun k => k.1 != s.depth }

def noteKey : Scanner Unit := do
  let s ← get
  if s.keyAllowed then
    dropKey
    let c := s.cursor
    let key : PossibleKey :=
      ⟨s.tokens.length, s.depth == 0 && s.indent == c.column, c.index, c.line, c.column⟩
    modify fun s => { s with keys := (s.depth, key) :: s.keys }

def closeBlocksFrom (column : Int) : (fuel : Nat) → Scanner Unit
  | 0 => pure ()
  | n + 1 => do
    let s ← get
    if column < s.indent then
      set { s with
        indent := s.outer.headD (-1), outer := s.outer.drop 1, tokens := .blockEnd :: s.tokens }
      closeBlocksFrom column n

def closeBlocks (column : Int) : Scanner Unit := do
  let s ← get
  if s.depth == 0 then closeBlocksFrom column (s.outer.length + 1)

def openBlock (column : Nat) : Scanner Bool := do
  let s ← get
  if s.indent < column then
    set { s with indent := column, outer := s.indent :: s.outer }
    return true
  return false

def skipBlanks : (fuel : Nat) → Scanner Unit
  | 0 => pure ()
  | n + 1 => do
    let broken ← reading do
      Reader.skipSpaces
      Reader.comment
      Reader.lineBreak
    if !broken.isEmpty then
      if !(← inFlow) then allowKey true
      skipBlanks n

def sign (t : Token) : Scanner Unit := do
  reading (Reader.skip 1)
  emit t

def endBlocks : Scanner Unit := do
  closeBlocks (-1)
  dropKey
  allowKey false

def streamEnd : Scanner Unit := do
  endBlocks
  emit .streamEnd
  modify fun s => { s with keys := [], ended := true }

def documentMark (t : Token) : Scanner Unit := do
  endBlocks
  reading (Reader.skip 3)
  emit t

def flowStart (t : Token) : Scanner Unit := do
  noteKey
  modify fun s => { s with depth := s.depth + 1, keyAllowed := true }
  sign t

def flowEnd (t : Token) : Scanner Unit := do
  dropKey
  require (← inFlow)
  modify fun s => { s with depth := s.depth - 1, keyAllowed := false }
  sign t

def flowEntry : Scanner Unit := do
  allowKey true
  dropKey
  sign .flowEntry

def blockSign (start : Token) : Scanner Unit := do
  if !(← inFlow) then
    require (← get).keyAllowed
    if ← openBlock (← column) then emit start

def blockEntry : Scanner Unit := do
  blockSign .blockSequenceStart
  allowKey true
  dropKey
  sign .blockEntry

def explicitKey : Scanner Unit := do
  blockSign .blockMappingStart
  allowKey !(← inFlow)
  dropKey
  sign .key

def value : Scanner Unit := do
  let s ← get
  match s.keys.find? fun k => k.1 == s.depth with
  | some (_, key) =>
    set { s with keys := s.keys.filter fun k => k.1 != s.depth }
    -- the key has been read by now: its mark goes in front of its tokens
    emitAt key.token .key
    if s.depth == 0 then
      if ← openBlock key.column then emitAt key.token .blockMappingStart
    allowKey false
  | none =>
    blockSign .blockMappingStart
    allowKey !(← inFlow)
    dropKey
  sign .value

def keyLike (r : Reader Token) : Scanner Unit := do
  noteKey
  allowKey false
  emit (← reading r)

def blockScalar (folds : Bool) : Scanner Unit := do
  allowKey true
  dropKey
  let indent := (← get).indent
  let text ← reading (blockText folds indent)
  emit (.scalar (String.ofList text) false)

def plainScalar : Scanner Unit := do
  noteKey
  let s ← get
  let (text, broken) ← reading (plainText (0 < s.depth) s.indent)
  allowKey broken
  emit (.scalar (String.ofList text) true)

def signs : List Char :=
  ['-', '?', ':', ',', '[', ']', '\x7b', '\x7d', '#', '&', '*', '!', '|', '>', '\'', '"', '%', '@',
   '\x60']

def plainBegins : Scanner Bool := do
  let c ← peek 0
  let followed := !isGapOrEnd (← peek 1)
  let flow ← inFlow
  return (!isGapOrEnd c && !signs.contains c) ||
    (followed && (c == '-' || (!flow && (c == '?' || c == ':'))))

def step : Scanner Unit := do
  skipBlanks ((← get).cursor.rest.length + 1)
  dropStaleKeys
  closeBlocks (← column)
  let cursor := (← get).cursor
  let c ← peek 0
  let flow ← inFlow
  let gap := isGapOrEnd (← peek 1)
  if cursor.rest.isEmpty then streamEnd
  else if c == '%' && cursor.column == 0 then
    endBlocks
    emit (.directive (← reading directive))
  else if cursor.column == 0 && cursor.atMark '-' then documentMark .documentStart
  else if cursor.column == 0 && cursor.atMark '.' then documentMark .documentEnd
  else if c == '[' then flowStart .flowSequenceStart
  else if c == '\x7b' then flowStart .flowMappingStart
  else if c == ']' then flowEnd .flowSequenceEnd
  else if c == '\x7d' then flowEnd .flowMappingEnd
  else if c == ',' then flowEntry
  else if c == '-' && gap then blockEntry
  else if c == '?' && (flow || gap) then explicitKey
  else if c == ':' && (flow || gap) then value
  else if c == '*' then keyLike (return .alias (← anchorName))
  else if c == '&' then keyLike (return .anchor (← anchorName))
  else if c == '!' then keyLike tag
  else if c == '|' && !flow then blockScalar false
  else if c == '>' && !flow then blockScalar true
  else if c == '\'' then keyLike (return .scalar (String.ofList (← quotedText false)) false)
  else if c == '"' then keyLike (return .scalar (String.ofList (← quotedText true)) false)
  else if ← plainBegins then plainScalar
  else fail

def steps : (fuel : Nat) → Scanner Unit
  | 0 => fail
  | n + 1 => do
    step
    if !(← get).ended then steps n

end Scanner

def tokens (text : List Char) : Except YamlError (List Token) := do
  if text.any fun c => !isPrintable c then throw .malformed
  let text := if text.head? = some '\ufeff' then text.drop 1 else text
  let start : Scan := ⟨Cursor.start text, [], 0, -1, [], true, [], false⟩
  let (_, s) ← StateT.run (Scanner.steps (text.length + 2)) start
  return s.tokens.reverse

end EdgeAudit.Yaml

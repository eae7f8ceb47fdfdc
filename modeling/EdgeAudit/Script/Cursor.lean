import EdgeAudit.Script.Chars
import EdgeAudit.Text.Digit

namespace EdgeAudit.Script

open Text

structure Cursor where
  size : Nat
  pos : Nat
  rest : List Char

namespace Cursor

def first (cs : List Char) : Cursor :=
  ⟨cs.length, 0, cs⟩

def left (c : Cursor) : Nat :=
  c.size - c.pos

end Cursor

/-- A reader of syntax: it fails, or gives a result and the place after it. -/
abbrev Reader := StateT Cursor Option

namespace Reader

def check (b : Bool) : Reader Unit :=
  if b then pure () else failure

def position : Reader Nat := do
  return (← get).pos

def advance (n : Nat) : Reader Unit :=
  modify fun c => { c with pos := c.pos + n, rest := c.rest.drop n }

def maybe {α : Type} (p : Reader α) : Reader (Option α) := fun c =>
  match p c with
  | some (a, c') => some (some a, c')
  | none => some (none, c)

def ahead {α : Type} (p : Reader α) : Reader Bool := fun c =>
  some ((p c).isSome, c)

/-- Repeats a reader until it fails or stands still, at most `fuel` times. -/
def repeatUpTo {α : Type} : (fuel : Nat) → Reader α → Reader (List α)
  | 0, _ => pure []
  | n + 1, p => fun c =>
    match p c with
    | none => some ([], c)
    | some (a, c') =>
      if c.pos < c'.pos then
        match repeatUpTo n p c' with
        | some (as, c'') => some (a :: as, c'')
        | none => none
      else some ([], c)

def many {α : Type} (p : Reader α) : Reader (List α) := fun c =>
  repeatUpTo (c.left + 1) p c

end Reader

inductive TriviaState
  | code
  | lineComment
  | blockComment

def skipTriviaFrom : TriviaState → Nat → List Char → Option (Nat × List Char)
  | .code, pos, '/' :: '/' :: cs => skipTriviaFrom .lineComment (pos + 2) cs
  | .code, pos, '/' :: '*' :: cs => skipTriviaFrom .blockComment (pos + 2) cs
  | .code, pos, c :: cs =>
    if isSpace c then skipTriviaFrom .code (pos + 1) cs else some (pos, c :: cs)
  | .lineComment, pos, c :: cs =>
    skipTriviaFrom (if endsLineComment c then .code else .lineComment) (pos + 1) cs
  | .blockComment, pos, '*' :: '/' :: cs => skipTriviaFrom .code (pos + 2) cs
  | .blockComment, pos, _ :: cs => skipTriviaFrom .blockComment (pos + 1) cs
  | .blockComment, _, [] => none
  | _, pos, [] => some (pos, [])

namespace Reader

def trivia : Reader Unit := fun c =>
  (skipTriviaFrom .code c.pos c.rest).map fun (pos, rest) => ((), { c with pos, rest })

def begin : Reader Nat := do
  trivia
  position

def pageComment : Reader Unit := do
  trivia
  let cs := (← get).rest
  check ("<!--".toList.isPrefixOf cs || "-->".toList.isPrefixOf cs)
  advance (cs.takeWhile fun c => !isLineEnd c).length

def beginStatement : Reader Nat := do
  discard (many pageComment)
  begin

def peek : Reader (Option Char) := do
  return (← get).rest.head?

def startsWith (s : String) : Reader Bool := do
  return s.toList.isPrefixOf (← get).rest

def exactly (s : String) : Reader Unit := do
  check (← startsWith s)
  advance s.length

def mark (s : String) : Reader Unit := do
  trivia
  exactly s

def markAhead (s : String) : Reader Bool :=
  ahead (mark s)

def markIf (s : String) : Reader Bool := do
  return (← maybe (mark s)).isSome

def markBefore (s : String) (continued : List Char) : Reader Unit := do
  mark s
  match ← peek with
  | some c => check !(continued.contains c)
  | none => pure ()

end Reader

def nameEscape? : List Char → Option Nat
  | 'u' :: '\x7b' :: cs =>
    let digits := cs.takeWhile isHex
    if !digits.isEmpty ∧ (cs.drop digits.length).head? = some '\x7d' then some (digits.length + 3)
    else none
  | 'u' :: a :: b :: c :: d :: _ => if [a, b, c, d].all isHex then some 5 else none
  | _ => none

def nameLengthFrom : (escaped : Nat) → (first : Bool) → List Char → Nat
  | _, _, [] => 0
  | k + 1, _, _ :: cs => nameLengthFrom k false cs + 1
  | 0, first, c :: cs =>
    if c = '\\' then
      match nameEscape? cs with
      | some k => nameLengthFrom k false cs + 1
      | none => 0
    else if (if first then isNameStart c else isNamePart c) then nameLengthFrom 0 false cs + 1
    else 0

def nameLength (cs : List Char) : Nat :=
  nameLengthFrom 0 true cs

namespace Reader

def bareName : Reader String := do
  let cs := (← get).rest
  let n := nameLength cs
  check (0 < n)
  advance n
  return String.ofList (cs.take n)

def anyName : Reader String := do
  trivia
  bareName

def word (s : String) : Reader Unit := do
  check ((← anyName) == s)

def wordAhead (s : String) : Reader Bool :=
  ahead (word s)

def wordIf (s : String) : Reader Bool := do
  return (← maybe (word s)).isSome

def oneWord (ws : List String) : Reader String := do
  let w ← anyName
  check (ws.contains w)
  return w

def lineEndsAhead : Reader Bool := do
  let before ← get
  trivia
  let after ← get
  set before
  return (before.rest.take (after.pos - before.pos)).any isLineEnd

end Reader

end EdgeAudit.Script

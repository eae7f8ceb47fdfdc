import EdgeAudit.Script.Cursor

namespace EdgeAudit.Script

def afterLineComment (cs : List Char) : List Char :=
  cs.dropWhile fun c => !isLineEnd c

def afterBlockComment : Bool → List Char → Option (Bool × List Char)
  | b, '*' :: '/' :: cs => some (b, cs)
  | b, c :: cs => afterBlockComment (b || isLineEnd c) cs
  | _, [] => none

def passBlank : (fuel : Nat) → List Char → Option (List Char)
  | 0, cs => some cs
  | n + 1, '/' :: '/' :: cs => passBlank n (afterLineComment cs)
  | n + 1, '/' :: '*' :: cs =>
    match afterBlockComment false cs with
    | some (_, rest) => passBlank n rest
    | none => some []
  | _ + 1, '/' :: _ => none
  | n + 1, c :: cs => if isPlainSpace c then passBlank n cs else some (c :: cs)
  | _ + 1, [] => some []

def isLetter (c : Option Char) : Bool :=
  (c.map fun c => c.isAlpha || 0xC0 ≤ c.toNat).getD false

def endsBefore : List Char → Bool
  | [] => true
  | '.' :: cs => (cs.head?.map Char.isDigit).getD false
  | '+' :: cs => cs.head? == some '+'
  | '-' :: cs => cs.head? == some '-'
  | '!' :: cs => cs.head? != some '='
  | 'i' :: 'n' :: cs =>
    if !isLetter cs.head? then false
    else if "stanceof".toList.isPrefixOf cs then isLetter (cs.drop 8).head?
    else true
  | c :: _ => !(['\x60', ',', ':', ';', '*', '%', '>', '<', '=', '[', '(', '?', '^', '|', '&',
      '/'].contains c)

/--
Whether a semicolon may be left out before this text: at the end, before a closing brace, or at a
line end after which no token carries the statement on. Where nothing could carry it on anyway
(`closed`), a comment with a line end is enough.
-/
def mayEndHere : (fuel : Nat) → (closed : Bool) → List Char → Bool
  | 0, _, _ => false
  | _ + 1, _, [] => true
  | n + 1, closed, '/' :: '/' :: cs =>
    let after := afterLineComment cs
    let next := passBlank n after
    if closed && (next.map fun r => r.head? != some ',' && r.head? != some '=').getD false then true
    else mayEndHere n closed after
  | n + 1, closed, '/' :: '*' :: cs =>
    match afterBlockComment false cs with
    | some (lineEnd, rest) =>
      if closed ∧ lineEnd ∧ rest.head? ≠ some ',' ∧ rest.head? ≠ some '=' then true
      else mayEndHere n closed rest
    | none => false
  | n + 1, closed, c :: cs =>
    if c = '\x7d' ∨ c.toNat = 0 then true
    else if isLineEnd c then
      match passBlank n cs with
      | some r => endsBefore r
      | none => false
    else if isPlainSpace c then mayEndHere n closed cs
    else false

namespace Reader

def endAhead (closed : Bool) : Reader Bool := do
  let c ← get
  return mayEndHere (c.left + 2) closed c.rest

def semicolon (closed : Bool) : Reader Unit := do
  if ← endAhead closed then pure () else mark ";"

end Reader

end EdgeAudit.Script

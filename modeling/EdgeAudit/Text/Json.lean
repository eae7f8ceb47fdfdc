import EdgeAudit.Number.Literal

namespace EdgeAudit

open Number

inductive Json
  | null
  | bool (value : Bool)
  | int (value : Int)
  | real (value : Binary64)
  | str (value : String)
  | arr (items : List Json)
  | obj (members : List (String × Json))
  deriving Inhabited

namespace Json

def hex4 (n : Nat) : List Char :=
  let digits := Nat.toDigits 16 n
  List.replicate (4 - digits.length) '0' ++ digits

def escapedChar (c : Char) : List Char :=
  if c = '"' then ['\\', '"']
  else if c = '\\' then ['\\', '\\']
  else if c = '\n' then ['\\', 'n']
  else if c = '\r' then ['\\', 'r']
  else if c = '\t' then ['\\', 't']
  else if c.toNat = 8 then ['\\', 'b']
  else if c.toNat = 12 then ['\\', 'f']
  else if ' ' ≤ c ∧ c ≤ '~' then [c]
  else if c.toNat < 0x10000 then '\\' :: 'u' :: hex4 c.toNat
  else
    let n := c.toNat - 0x10000
    '\\' :: 'u' :: hex4 (0xD800 + n / 0x400) ++ '\\' :: 'u' :: hex4 (0xDC00 + n % 0x400)

def quotedString (s : String) : List Char :=
  '"' :: s.toList.flatMap escapedChar ++ ['"']

def realText : Binary64 → String
  | .notANumber => "NaN"
  | .infinite negative => if negative then "-Infinity" else "Infinity"
  | x => x.text

def lineBreak (indent : Option Nat) (depth : Nat) : List Char :=
  match indent with
  | none => []
  | some n => '\n' :: List.replicate (n * depth) ' '

mutual

/-- JSON text in ASCII; with an indentation, every item stands on its own line. A whole number that is
too long to be written leaves the whole value without a text. -/
def write? (indent : Option Nat) (depth : Nat) : Json → Option (List Char)
  | .null => some "null".toList
  | .bool true => some "true".toList
  | .bool false => some "false".toList
  | .int n => (wholeText? n).map String.toList
  | .real x => some (realText x).toList
  | .str s => some (quotedString s)
  | .arr [] => some ['[', ']']
  | .arr (x :: xs) => do
    let first ← write? indent (depth + 1) x
    let rest ← writeItems? indent (depth + 1) xs
    some ('[' :: lineBreak indent (depth + 1) ++ first ++ rest ++ lineBreak indent depth ++ [']'])
  | .obj [] => some ['\x7b', '\x7d']
  | .obj ((k, v) :: ms) => do
    let first ← write? indent (depth + 1) v
    let rest ← writeMembers? indent (depth + 1) ms
    some ('\x7b' :: lineBreak indent (depth + 1) ++ quotedString k ++ ':' :: ' ' :: first ++ rest ++
      lineBreak indent depth ++ ['\x7d'])

def writeItems? (indent : Option Nat) (depth : Nat) : List Json → Option (List Char)
  | [] => some []
  | x :: xs => do
    let first ← write? indent depth x
    let rest ← writeItems? indent depth xs
    some (',' :: lineBreak indent depth ++ first ++ rest)

def writeMembers? (indent : Option Nat) (depth : Nat) : List (String × Json) → Option (List Char)
  | [] => some []
  | (k, v) :: ms => do
    let first ← write? indent depth v
    let rest ← writeMembers? indent depth ms
    some (',' :: lineBreak indent depth ++ quotedString k ++ ':' :: ' ' :: first ++ rest)

end

def pretty? (j : Json) : Option String :=
  (j.write? (some 2) 0).map String.ofList

def line? (j : Json) : Option String :=
  (j.write? none 0).map String.ofList

def skipBlank : List Char → List Char
  | c :: cs => if c = ' ' ∨ c = '\n' ∨ c = '\r' ∨ c = '\t' then skipBlank cs else c :: cs
  | [] => []

def readHex4 : List Char → Option (Nat × List Char)
  | a :: b :: c :: d :: cs => do
    let n ← digitsValue? 16 Text.hexValue? [a, b, c, d]
    some (n, cs)
  | _ => none

def readEscape : List Char → Option (Char × List Char)
  | '"' :: cs => some ('"', cs)
  | '\\' :: cs => some ('\\', cs)
  | '/' :: cs => some ('/', cs)
  | 'n' :: cs => some ('\n', cs)
  | 'r' :: cs => some ('\r', cs)
  | 't' :: cs => some ('\t', cs)
  | 'b' :: cs => some (Char.ofNat 8, cs)
  | 'f' :: cs => some (Char.ofNat 12, cs)
  | 'u' :: cs => do
    let (n, rest) ← readHex4 cs
    if 0xD800 ≤ n ∧ n < 0xDC00 then
      match rest with
      | '\\' :: 'u' :: more => do
        let (m, rest) ← readHex4 more
        if 0xDC00 ≤ m ∧ m < 0xE000 then
          some (Char.ofNat (0x10000 + (n - 0xD800) * 0x400 + (m - 0xDC00)), rest)
        else none
      | _ => none
    else if 0xDC00 ≤ n ∧ n < 0xE000 then none
    else some (Char.ofNat n, rest)
  | _ => none

def readString : (fuel : Nat) → List Char → List Char → Option (String × List Char)
  | 0, _, _ => none
  | _ + 1, acc, '"' :: cs => some (String.ofList acc.reverse, cs)
  | n + 1, acc, '\\' :: cs => do
    let (c, rest) ← readEscape cs
    readString n (c :: acc) rest
  | n + 1, acc, c :: cs => readString n (c :: acc) cs
  | _ + 1, _, [] => none

def isNumberChar (c : Char) : Bool :=
  c.isDigit || c == '-' || c == '+' || c == '.' || c == 'e' || c == 'E'

def readNumber (cs : List Char) : Option Json :=
  let (negative, digits) := splitSign cs
  if digits.all Char.isDigit then
    (digitsValue? 10 Text.hexValue? digits).map fun n => .int (if negative then -n else n)
  else (real? cs).map .real

def ofWord (w : String) : Option Json :=
  if w = "null" then some .null
  else if w = "true" then some (.bool true)
  else if w = "false" then some (.bool false)
  else none

mutual

def readValue : (fuel : Nat) → List Char → Option (Json × List Char)
  | 0, _ => none
  | n + 1, cs =>
    match skipBlank cs with
    | '"' :: rest => (readString (rest.length + 1) [] rest).map fun (s, r) => (.str s, r)
    | '[' :: rest =>
      match skipBlank rest with
      | ']' :: r => some (.arr [], r)
      | r => (readItems n r []).map fun (xs, r) => (.arr xs, r)
    | '\x7b' :: rest =>
      match skipBlank rest with
      | '\x7d' :: r => some (.obj [], r)
      | r => (readMembers n r []).map fun (ms, r) => (.obj ms, r)
    | c :: rest =>
      if c.isAlpha then
        let (w, r) := (c :: rest).span Char.isAlpha
        (ofWord (String.ofList w)).map (·, r)
      else
        let (w, r) := (c :: rest).span isNumberChar
        (readNumber w).map (·, r)
    | [] => none

def readItems : (fuel : Nat) → List Char → List Json → Option (List Json × List Char)
  | 0, _, _ => none
  | n + 1, cs, acc =>
    match readValue n cs with
    | none => none
    | some (x, rest) =>
      match skipBlank rest with
      | ',' :: r => readItems n r (x :: acc)
      | ']' :: r => some ((x :: acc).reverse, r)
      | _ => none

def readMembers : (fuel : Nat) → List Char → List (String × Json) →
    Option (List (String × Json) × List Char)
  | 0, _, _ => none
  | n + 1, cs, acc =>
    match skipBlank cs with
    | '"' :: rest =>
      match readString (rest.length + 1) [] rest with
      | none => none
      | some (k, r) =>
        match skipBlank r with
        | ':' :: r =>
          match readValue n r with
          | none => none
          | some (v, rest) =>
            match skipBlank rest with
            | ',' :: r => readMembers n r ((k, v) :: acc)
            | '\x7d' :: r => some (((k, v) :: acc).reverse, r)
            | _ => none
        | _ => none
    | _ => none

end

def parse? (text : String) : Option Json := do
  let cs := text.toList
  let (j, rest) ← readValue (cs.length + 1) cs
  if (skipBlank rest).isEmpty then some j else none

def get? : Json → String → Option Json
  | .obj ms, k => (ms.find? fun m => m.1 == k).map (·.2)
  | _, _ => none

end Json

end EdgeAudit

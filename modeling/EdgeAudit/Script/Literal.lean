import EdgeAudit.Script.Cursor

namespace EdgeAudit.Script

open Text

def digitsFrom (p : Char → Bool) : (after : Bool) → List Char → Nat
  | after, '_' :: d :: ds => if after && p d then 2 + digitsFrom p true ds else 0
  | _, c :: cs => if p c then 1 + digitsFrom p true cs else 0
  | _, [] => 0

def digitsLength (p : Char → Bool) (cs : List Char) : Nat :=
  digitsFrom p false cs

def isDecimal (c : Char) : Bool :=
  '0' ≤ c && c ≤ '9'

def exponentLength : List Char → Nat
  | c :: cs =>
    if c = 'e' ∨ c = 'E' then
      let (sign, ds) := match cs with
        | '+' :: r => (1, r)
        | '-' :: r => (1, r)
        | r => (0, r)
      let n := digitsLength isDecimal ds
      if n = 0 then 0 else 1 + sign + n
    else 0
  | [] => 0

def wholeLength : List Char → Nat
  | '0' :: c :: cs =>
    if '1' ≤ c ∧ c ≤ '9' then 1 + digitsLength isDecimal (c :: cs) else 1
  | cs => digitsLength isDecimal cs

def decimalLength (cs : List Char) : Nat :=
  let digits := digitsLength isDecimal cs
  let whole := wholeLength cs
  let rest := cs.drop whole
  let pointed := match rest with
    | '.' :: r =>
      let part := digitsLength isDecimal r
      if whole = 0 ∧ part = 0 then 0
      else whole + 1 + part + exponentLength (r.drop part)
    | r => if whole = 0 then 0 else whole + exponentLength r
  let big := if 0 < digits ∧ (cs.drop digits).head? = some 'n' then digits + 1 else 0
  max (max digits pointed) big

def basedLength (p : Char → Bool) (cs : List Char) : Nat :=
  let n := digitsLength p cs
  if n = 0 then 0 else 2 + n + (if (cs.drop n).head? = some 'n' then 1 else 0)

def numberLength : List Char → Nat
  | '0' :: c :: cs =>
    let based :=
      if c = 'x' ∨ c = 'X' then basedLength isHex cs
      else if c = 'o' ∨ c = 'O' then basedLength (fun d => '0' ≤ d && d ≤ '7') cs
      else if c = 'b' ∨ c = 'B' then basedLength (fun d => d == '0' || d == '1') cs
      else 0
    max based (decimalLength ('0' :: c :: cs))
  | cs => decimalLength cs

def escapeLength? : List Char → Option Nat
  | 'x' :: a :: b :: _ => if isHex a && isHex b then some 3 else none
  | 'x' :: _ => none
  | 'u' :: cs => nameEscape? ('u' :: cs)
  | '\r' :: '\n' :: _ => some 2
  | c :: cs =>
    if '0' ≤ c ∧ c ≤ '7' then
      some (1 + ((cs.takeWhile fun d => '0' ≤ d && d ≤ '7').take 2).length)
    else some 1
  | [] => none

def stringLengthFrom (quote : Char) : (escaped : Nat) → List Char → Option Nat
  | _, [] => none
  | k + 1, _ :: cs => (stringLengthFrom quote k cs).map (· + 1)
  | 0, c :: cs =>
    if c = '\\' then
      match escapeLength? cs with
      | some k => (stringLengthFrom quote k cs).map (· + 1)
      | none => none
    else if c = quote then some 1
    else if c = '\n' ∨ c = '\r' then none
    else (stringLengthFrom quote 0 cs).map (· + 1)

def regexLength : (inClass : Bool) → List Char → Option Nat
  | inClass, '\\' :: c :: cs =>
    if c = '\n' then none else (regexLength inClass cs).map (· + 2)
  | inClass, c :: cs =>
    if c = '\n' ∨ c = '\\' then none
    else if c = '/' ∧ !inClass then some 1
    else (regexLength (if c = '[' then true else if c = ']' then false else inClass) cs).map (· + 1)
  | _, [] => none

def templateLengthFrom : (escaped : Nat) → List Char → Option Nat
  | _, [] => none
  | k + 1, _ :: cs => (templateLengthFrom k cs).map (· + 1)
  | 0, c :: cs =>
    if c = '\\' then
      match escapeLength? cs with
      | some k => (templateLengthFrom k cs).map (· + 1)
      | none => none
    else if c = '\x60' ∨ (c = '$' ∧ cs.head? = some '\x7b') then some 0
    else (templateLengthFrom 0 cs).map (· + 1)

namespace Reader

def numberToken : Reader Unit := do
  let n := numberLength (← get).rest
  check (0 < n)
  advance n

def stringToken : Reader Unit := do
  match (← get).rest with
  | q :: cs =>
    check (q == '"' || q == '\'')
    match stringLengthFrom q 0 cs with
    | some n => advance (n + 1)
    | none => failure
  | [] => failure

def regexToken : Reader Unit := do
  match (← get).rest with
  | '/' :: cs =>
    check (cs.head? != some '/')
    match regexLength false cs with
    | some n =>
      let flags := ((cs.drop n).takeWhile fun c => 'a' ≤ c && c ≤ 'z').length
      advance (1 + n + flags)
    | none => failure
  | _ => failure

def templateText : Reader Unit := do
  match templateLengthFrom 0 (← get).rest with
  | some n => advance n
  | none => failure

end Reader

end EdgeAudit.Script

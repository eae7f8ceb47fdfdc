import EdgeAudit.Number.Shortest
import EdgeAudit.Text.Blank
import EdgeAudit.Text.Digit

namespace EdgeAudit.Number

open EdgeAudit.Text

inductive Quantity
  | whole (value : Int)
  | real (value : Binary64)
  deriving DecidableEq, Repr

namespace Quantity

def compare? : Quantity → Quantity → Option Ordering
  | .whole a, .whole b => some (compare a b)
  | .real a, .whole b => a.compareInt? b
  | .whole a, .real b => (b.compareInt? a).map Ordering.swap
  | .real a, .real b => a.compare? b

def toBinary64 : Quantity → Binary64
  | .whole n => .ofInt n
  | .real x => x

end Quantity

/-- The most decimal digits that are read or written as a whole number. -/
def maxWholeDigits : Nat := 4300

def digitsValue? (base : Nat) (value? : Char → Option Nat) (cs : List Char) : Option Nat :=
  if cs.isEmpty then none
  else cs.foldlM (fun acc c => do
    let d ← value? c
    if d < base then some (acc * base + d) else none) 0

def splitSign : List Char → Bool × List Char
  | '-' :: cs => (true, cs)
  | '+' :: cs => (false, cs)
  | cs => (false, cs)

def stripBy (p : Char → Bool) (cs : List Char) : List Char :=
  ((cs.dropWhile p).reverse.dropWhile p).reverse

def isAsciiBlank (c : Char) : Bool :=
  c == ' ' || ('\t' ≤ c && c ≤ '\r')

def normalizeDigits (cs : List Char) : List Char :=
  if cs.all fun c => c.toNat < 128 then stripBy isAsciiBlank cs
  else stripBy isAsciiBlank <| cs.map fun c =>
    if isBlank c then ' '
    else match digitValue? c with
      | some d => Char.ofNat (48 + d)
      | none => c

def splitBase : List Char → Nat × List Char
  | '0' :: 'x' :: cs => (16, cs)
  | '0' :: 'X' :: cs => (16, cs)
  | '0' :: 'o' :: cs => (8, cs)
  | '0' :: 'O' :: cs => (8, cs)
  | '0' :: 'b' :: cs => (2, cs)
  | '0' :: 'B' :: cs => (2, cs)
  | cs => (10, cs)

def whole? (cs : List Char) : Option Int := do
  let (negative, cs) := splitSign (normalizeDigits cs)
  let (base, digits) := splitBase cs
  let n ← digitsValue? base hexValue? digits
  if base = 10 then
    if digits.head? = some '0' ∧ n ≠ 0 then none
    else if maxWholeDigits < digits.length then none
    else some ()
  else some ()
  some (if negative then -(n : Int) else (n : Int))

def spanDigits (cs : List Char) : List Char × List Char :=
  cs.span fun c => '0' ≤ c && c ≤ '9'

def exponent? : List Char → Option Int
  | [] => some 0
  | c :: cs =>
    if c = 'e' ∨ c = 'E' then do
      let (negative, cs) := splitSign cs
      let n ← digitsValue? 10 hexValue? cs
      some (if negative then -(n : Int) else (n : Int))
    else none

def fraction? (negative : Bool) (cs : List Char) : Option Binary64 := do
  let (whole, rest) := spanDigits cs
  let (part, rest) := match rest with
    | '.' :: r => spanDigits r
    | r => ([], r)
  let digits ← digitsValue? 10 hexValue? (whole ++ part)
  let e ← exponent? rest
  some (.ofDecimal negative digits (e - part.length))

def real? (cs : List Char) : Option Binary64 :=
  let (negative, cs) := splitSign (normalizeDigits cs)
  let lower := String.ofList (cs.map Char.toLower)
  if lower = "inf" ∨ lower = "infinity" then some (.infinite negative)
  else if lower = "nan" then some .notANumber
  else fraction? negative cs

/--
The value of a numeric literal with `_` anywhere: a whole number where it is written as one or
its double is one.
-/
def parse? (text : String) : Option Quantity :=
  let cs := text.toList.filter (· != '_')
  match whole? cs with
  | some n => some (.whole n)
  | none => (real? cs).map fun x =>
    match x.toInt? with
    | some n => .whole n
    | none => .real x

def wholeText? (n : Int) : Option String :=
  let text := toString n
  if maxWholeDigits < text.length - (if n < 0 then 1 else 0) then none else some text

def tooLongText : String :=
  "Exceeds the limit (4300 digits) for integer string conversion; " ++
    "use sys.set_int_max_str_digits() to increase the limit"

def tooManyDigitsText (digits : Nat) : String :=
  "Exceeds the limit (4300 digits) for integer string conversion: value has " ++ toString digits ++
    " digits; use sys.set_int_max_str_digits() to increase the limit"

def Quantity.text? : Quantity → Option String
  | .whole n => wholeText? n
  | .real x => some x.text

end EdgeAudit.Number

import EdgeAudit.Number.Binary64

namespace EdgeAudit.Number

structure Decimal where
  digits : Nat
  exponent : Int
  deriving DecidableEq, Repr

namespace Decimal

def ratio (d : Decimal) : Nat × Nat :=
  if 0 ≤ d.exponent then (d.digits * Nat.pow 10 d.exponent.toNat, 1)
  else (d.digits, Nat.pow 10 (-d.exponent).toNat)

def digitText (d : Decimal) : String :=
  toString d.digits

def leading (d : Decimal) : Int :=
  d.exponent + d.digitText.length - 1

def trimZeros : Nat → Decimal → Decimal
  | 0, d => d
  | n + 1, d =>
    if d.digits ≠ 0 ∧ d.digits % 10 = 0 then trimZeros n ⟨d.digits / 10, d.exponent + 1⟩ else d

def trim (d : Decimal) : Decimal :=
  d.trimZeros d.digitText.length

end Decimal

def floorLog10 (num den : Nat) : Int :=
  let reaches (k : Int) : Bool :=
    if 0 ≤ k then den * Nat.pow 10 k.toNat ≤ num else den ≤ num * Nat.pow 10 (-k).toNat
  -- an estimate from below, three steps short at most
  let start : Int := ((num.log2 : Int) - (den.log2 : Int) - 1) * 30103 / 100000 - 1
  let above := (List.range 4).filter fun (i : Nat) => reaches (start + i)
  start + (above.length : Int) - 1

def inUnits (num den : Nat) (unit : Int) : Nat × Nat :=
  if 0 ≤ unit then (num, den * Nat.pow 10 unit.toNat) else (num * Nat.pow 10 (-unit).toNat, den)

def carried (digits count : Nat) (unit : Int) : Decimal :=
  if digits = Nat.pow 10 count then ⟨Nat.pow 10 (count - 1), unit + 1⟩ else ⟨digits, unit⟩

def roundedDecimal (num den count : Nat) : Decimal :=
  let unit : Int := floorLog10 num den - count + 1
  let (n, d) := inUnits num den unit
  carried (roundDiv n d) count unit

def neighbours (num den count : Nat) : List Decimal :=
  let unit : Int := floorLog10 num den - count + 1
  let (n, d) := inUnits num den unit
  let below := n / d
  if roundDiv n d = below then [carried below count unit, carried (below + 1) count unit]
  else [carried (below + 1) count unit, carried below count unit]

def readsBack (mantissa : Nat) (exponent : Int) (d : Decimal) : Bool :=
  let (n, k) := d.ratio
  Binary64.ofRatio false n k == .finite false mantissa exponent

/--
The fewest digits that read back as the double, and of those decimals the one nearest to it.
Seventeen digits always do.
-/
def shortest (mantissa : Nat) (exponent : Int) : Decimal :=
  let (num, den) := Binary64.ratio mantissa exponent
  let attempt (count : Nat) : Option Decimal :=
    (neighbours num den count).find? (readsBack mantissa exponent)
  (((List.range 17).findSome? fun i => attempt (i + 1)).getD (roundedDecimal num den 17)).trim

structure Layout where
  leastPositional : Int
  mostPositional : Int
  keepPoint : Bool

namespace Layout

def exponentText (e : Int) : String :=
  let digits := toString e.natAbs
  (if e < 0 then "-" else "+") ++ (if digits.length < 2 then "0" ++ digits else digits)

def positional (l : Layout) (digits : List Char) (whole : Int) : String :=
  if whole ≤ 0 then
    "0." ++ String.ofList (List.replicate (-whole).toNat '0' ++ digits)
  else
    let padded := digits ++ List.replicate (whole.toNat - digits.length) '0'
    let fraction := padded.drop whole.toNat
    String.ofList (padded.take whole.toNat) ++
      (if fraction.isEmpty then (if l.keepPoint then ".0" else "")
       else "." ++ String.ofList fraction)

def scientific (digits : List Char) (leading : Int) : String :=
  String.ofList (digits.take 1) ++
    (if digits.length ≤ 1 then "" else "." ++ String.ofList (digits.drop 1)) ++
    "e" ++ exponentText leading

def write (l : Layout) (d : Decimal) : String :=
  let digits := d.digitText.toList
  if l.leastPositional ≤ d.leading ∧ d.leading ≤ l.mostPositional then
    l.positional digits (d.leading + 1)
  else scientific digits d.leading

end Layout

namespace Binary64

def plainLayout : Layout := ⟨-4, 15, true⟩

def text : Binary64 → String
  | .notANumber => "nan"
  | .infinite negative => if negative then "-inf" else "inf"
  | .finite negative m e =>
    (if negative then "-" else "") ++
      (if m = 0 then "0.0" else plainLayout.write (shortest m e))

def briefLayout : Layout := ⟨-4, 5, false⟩

def brief : Binary64 → String
  | .notANumber => "nan"
  | .infinite negative => if negative then "-inf" else "inf"
  | .finite negative m e =>
    let (num, den) := ratio m e
    (if negative then "-" else "") ++
      (if m = 0 then "0" else briefLayout.write (roundedDecimal num den 6).trim)

def wholeText : Binary64 → String
  | .notANumber => "nan"
  | .infinite negative => if negative then "-inf" else "inf"
  | .finite negative m e =>
    let (num, den) := ratio m e
    (if negative then "-" else "") ++ toString (roundDiv num den)

/-- The double nearest to the value rounded to `places` decimals; a tie goes to the even one. -/
def roundTo (places : Nat) : Binary64 → Binary64
  | .finite negative m e =>
    let (num, den) := ratio m e
    ofRatio negative (roundDiv (num * Nat.pow 10 places) den) (Nat.pow 10 places)
  | x => x

end Binary64

end EdgeAudit.Number

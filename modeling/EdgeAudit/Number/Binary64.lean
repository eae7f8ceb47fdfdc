namespace EdgeAudit.Number

def roundDiv (num den : Nat) : Nat :=
  let q := num / den
  let twice := 2 * (num % den)
  if twice < den then q
  else if den < twice then q + 1
  else if q % 2 = 0 then q
  else q + 1

/--
Double precision numbers. A finite one is `± mantissa * 2 ^ exponent`, kept with
`mantissa < 2 ^ 53`, `-1074 ≤ exponent`, and either `2 ^ 52 ≤ mantissa` or `exponent = -1074`.
-/
inductive Binary64
  | finite (negative : Bool) (mantissa : Nat) (exponent : Int)
  | infinite (negative : Bool)
  | notANumber
  deriving DecidableEq, Repr, Inhabited

namespace Binary64

def zero (negative : Bool) : Binary64 :=
  .finite negative 0 (-1074)

def scaled (num den : Nat) (e : Int) : Nat × Nat :=
  if 0 ≤ e then (num, den * Nat.pow 2 e.toNat) else (num * Nat.pow 2 (-e).toNat, den)

def exponentOf (num den : Nat) : Int :=
  let guess : Int := (num.log2 : Int) - (den.log2 : Int) - 53
  let (n, d) := scaled num den (guess + 1)
  -- the quotient of the leading powers of two is off by one bit at most
  max (-1074) (if Nat.pow 2 52 * d ≤ n then guess + 1 else guess)

/-- The double nearest to `± num / den`; a tie goes to the even mantissa. -/
def ofRatio (negative : Bool) (num den : Nat) : Binary64 :=
  if num = 0 then zero negative
  else
    let e := exponentOf num den
    let (n, d) := scaled num den e
    let m := roundDiv n d
    let (m, e) := if m = Nat.pow 2 53 then (Nat.pow 2 52, e + 1) else (m, e)
    if 971 < e then .infinite negative else .finite negative m e

def ofDecimal (negative : Bool) (digits : Nat) (exponent : Int) : Binary64 :=
  if digits = 0 then zero negative
  else
    let magnitude : Int := (digits.log2 : Int) * 30103 / 100000 + exponent
    if 400 < magnitude then .infinite negative
    else if magnitude < -400 then zero negative
    else if 0 ≤ exponent then ofRatio negative (digits * Nat.pow 10 exponent.toNat) 1
    else ofRatio negative digits (Nat.pow 10 (-exponent).toNat)

def ofInt (n : Int) : Binary64 :=
  ofRatio (n < 0) n.natAbs 1

def ratio (mantissa : Nat) (exponent : Int) : Nat × Nat :=
  if 0 ≤ exponent then (mantissa * Nat.pow 2 exponent.toNat, 1)
  else (mantissa, Nat.pow 2 (-exponent).toNat)

def toInt? : Binary64 → Option Int
  | .finite negative m e =>
    let (n, d) := ratio m e
    if n % d = 0 then some (if negative then -(n / d : Int) else (n / d : Int)) else none
  | _ => none

def scale (x : Binary64) (k : Nat) : Binary64 :=
  match x with
  | .finite negative m e =>
    let (n, d) := ratio m e
    ofRatio negative (n * k) d
  | .infinite negative => if k = 0 then .notANumber else .infinite negative
  | .notANumber => .notANumber

def negate : Binary64 → Binary64
  | .finite negative m e => .finite (!negative) m e
  | .infinite negative => .infinite (!negative)
  | .notANumber => .notANumber

def add : Binary64 → Binary64 → Binary64
  | .finite s m e, .finite t n f =>
    let (a, c) := ratio m e
    let (b, d) := ratio n f
    let x : Int := if s then -(a * d : Int) else (a * d : Int)
    let y : Int := if t then -(b * c : Int) else (b * c : Int)
    if x + y = 0 then zero (s && t) else ofRatio (x + y < 0) (x + y).natAbs (c * d)
  | .infinite a, .infinite b => if a == b then .infinite a else .notANumber
  | .infinite a, .finite .. => .infinite a
  | .finite .., .infinite b => .infinite b
  | _, _ => .notANumber

def compare? : Binary64 → Binary64 → Option Ordering
  | .notANumber, _ => none
  | _, .notANumber => none
  | .infinite a, .infinite b =>
    some (if a == b then .eq else if a then .lt else .gt)
  | .infinite a, .finite .. => some (if a then .lt else .gt)
  | .finite .., .infinite b => some (if b then .gt else .lt)
  | .finite s m e, .finite t n f =>
    let (a, c) := ratio m e
    let (b, d) := ratio n f
    let x : Int := if s then -(a * d : Int) else (a * d : Int)
    let y : Int := if t then -(b * c : Int) else (b * c : Int)
    some (compare x y)

def compareInt? : Binary64 → Int → Option Ordering
  | .notANumber, _ => none
  | .infinite a, _ => some (if a then .lt else .gt)
  | .finite s m e, k =>
    let (a, c) := ratio m e
    some (compare (if s then -(a : Int) else (a : Int)) (k * c))

end Binary64

end EdgeAudit.Number

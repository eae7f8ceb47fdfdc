import EdgeAudit.Text.Digit
import EdgeAudit.Text.Split

namespace EdgeAudit.Glob

open Text

/-- A text with choices: `a\x7bb,c\x7dd` stands for `abd` and `acd`. -/
inductive Braced
  | text (cs : List Char)
  | choice (options : List (List Braced))

namespace Braced

mutual

def count : Braced → Nat
  | text _ => 1
  | choice options => countEach options

def countRow : List Braced → Nat
  | [] => 1
  | b :: bs => count b * countRow bs

def countEach : List (List Braced) → Nat
  | [] => 0
  | row :: rows => countRow row + countEach rows

end

mutual

def texts : Braced → List (List Char)
  | text cs => [cs]
  | choice options => textsEach options

def textsRow : List Braced → List (List Char)
  | [] => [[]]
  | b :: bs => (texts b).flatMap fun cs => (textsRow bs).map (cs ++ ·)

def textsEach : List (List Braced) → List (List Char)
  | [] => []
  | row :: rows => textsRow row ++ textsEach rows

end

def wholeNumber? (cs : List Char) : Option (List Char × List Char) :=
  let (sign, rest) := match cs with
    | '-' :: rest => (['-'], rest)
    | _ => ([], cs)
  let digits := rest.takeWhile isDigit
  if digits.isEmpty then none else some (sign ++ digits, rest.drop digits.length)

def wholeValue (cs : List Char) : Int :=
  let value (ds : List Char) : Nat :=
    ds.foldl (fun n c => 10 * n + (digitValue? c).getD 0) 0
  match cs with
  | '-' :: ds => -(value ds : Int)
  | ds => value ds

def zeroPadded (cs : List Char) : Bool :=
  match cs with
  | '-' :: '0' :: _ :: _ => true
  | '0' :: _ :: _ => true
  | _ => false

def writeWhole (width : Nat) (n : Int) : List Char :=
  let sign := if n < 0 then ['-'] else []
  let digits := Nat.toDigits 10 n.natAbs
  sign ++ List.replicate (width - sign.length - digits.length) '0' ++ digits

def rangeLetters : List (List Char) :=
  (List.range' 65 58).map fun n => if n = 92 then [] else [Char.ofNat n]

def everyNth {α : Type} (step : Nat) (xs : List α) : List α :=
  (xs.zipIdx.filter fun x => x.2 % step == 0).map (·.1)

def maxTexts : Nat := 1000

def numberRange (first last : List Char) (step : Int) : List (List Char) :=
  let a := wholeValue first
  let b := wholeValue last
  let step := if step = 0 then 1 else step.natAbs
  let width := if zeroPadded first || zeroPadded last then max first.length last.length else 0
  let steps := min ((b - a).natAbs / step) maxTexts
  (List.range (steps + 1)).map fun (i : Nat) =>
    writeWhole width (if a < b then a + (i * step : Nat) else a - (i * step : Nat))

def letterRange (first last : Char) (step : Int) : List (List Char) :=
  let step := if step = 0 then 1 else step.natAbs
  let between (low high : Char) : List (List Char) :=
    (rangeLetters.drop (low.toNat - 65)).take (high.toNat - low.toNat + 1)
  if last < first then everyNth step (between last first).reverse
  else everyNth step (between first last)

def rangeStep? : List Char → Option (Int × List Char)
  | '\x7d' :: rest => some (1, rest)
  | '.' :: '.' :: cs =>
    match wholeNumber? cs with
    | some (step, '\x7d' :: rest) => some (wholeValue step, rest)
    | _ => none
  | _ => none

def range? (cs : List Char) : Option (Braced × List Char) :=
  let numbers : Option (Braced × List Char) := do
    let (first, rest) ← wholeNumber? cs
    let (last, rest) ← match rest with
      | '.' :: '.' :: rest => wholeNumber? rest
      | _ => none
    let (step, rest) ← rangeStep? rest
    return (choice ((numberRange first last step).map fun t => [text t]), rest)
  let letters : Option (Braced × List Char) := do
    match cs with
    | first :: '.' :: '.' :: last :: rest =>
      if first.isAlpha && last.isAlpha then
        let (step, rest) ← rangeStep? rest
        return (choice ((letterRange first last step).map fun t => [text t]), rest)
      else none
    | _ => none
  numbers.orElse fun _ => letters

mutual

def readRow : (fuel depth : Nat) → (inside dollar start : Bool) → List Char →
    Option (List Braced × List Char)
  | 0, _, _, _, _, _ => none
  | _ + 1, _, inside, _, _, [] => if inside then none else some ([], [])
  | n + 1, depth, inside, dollar, start, c :: cs =>
    let plain (piece rest : List Char) (dollar : Bool) : Option (List Braced × List Char) :=
      (readRow n depth inside dollar false rest).map fun (row, rest) => (text piece :: row, rest)
    if c = '$' then plain [c] cs true
    else if c = '\\' then
      match cs with
      | [] => plain [c] [] false
      | d :: rest => plain [c, d] rest false
    else if c = '\x7b' && !dollar then
      match readGroup n (depth + 1) start cs with
      | some (group, rest) =>
        (readRow n depth inside false false rest).map fun (row, rest) => (group ++ row, rest)
      | none => plain [c] cs false
    else if inside && (c = ',' || c = '\x7d') then some ([], c :: cs)
    else plain [c] cs false

def readGroup : (fuel depth : Nat) → (start : Bool) → List Char → Option (List Braced × List Char)
  | 0, _, _, _ => none
  | n + 1, depth, start, cs =>
    match range? cs with
    | some (range, rest) => some ([range], rest)
    | none =>
      match cs with
      | '\x7d' :: rest =>
        if depth = 1 && start then some ([text ['\x7b', '\x7d']], rest)
        else readOptions n depth [] none false cs
      | _ => readOptions n depth [] none false cs

def readOptions : (fuel depth : Nat) → (before : List (List Braced)) →
    (current : Option (List Braced)) → (comma : Bool) → List Char →
    Option (List Braced × List Char)
  | 0, _, _, _, _, _ => none
  | _ + 1, _, _, _, _, [] => none
  | n + 1, depth, before, current, comma, c :: cs =>
    let option := current.getD []
    if c = ',' then readOptions n depth (option :: before) none true cs
    else if c = '\x7d' && (comma || depth != 1) then
      if comma then some ([choice (option :: before).reverse], cs)
      else some (text ['\x7b'] :: option ++ [text ['\x7d']], cs)
    else
      let (closed, rest) := if c = '\x7d' then ([text ['\x7d']], cs) else ([], c :: cs)
      match readRow n depth true false false rest with
      | none => none
      | some (row, rest) => readOptions n depth before (some (option ++ closed ++ row)) comma rest

end

end Braced

def braced (pattern : List Char) : List Braced :=
  match Braced.readRow (2 * pattern.length + 2) 0 false false true pattern with
  | some (row, _) => row
  | none => [.text pattern]

def dropEmptyEnd (texts : List (List Char)) : List (List Char) :=
  match (texts.reverse.dropWhile List.isEmpty).reverse with
  | [] => [[]]
  | kept => kept

inductive GlobError
  | tooManyTexts
  deriving DecidableEq, Repr

def expandBraces (patterns : List String) : Except GlobError (List (List Char)) := do
  let rows := patterns.map fun p => braced p.toList
  if Braced.maxTexts < (rows.map Braced.countRow).foldr (· + ·) 0 then throw .tooManyTexts
  return (rows.flatMap fun row => dropEmptyEnd (Braced.textsRow row)).eraseDups

end EdgeAudit.Glob

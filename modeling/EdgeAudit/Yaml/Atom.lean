import EdgeAudit.Config.Value
import EdgeAudit.Text.Split
import EdgeAudit.Yaml.Kind

namespace EdgeAudit.Yaml

open Number Text

def wholeIn (base : Nat) (text : List Char) : Except YamlError Int :=
  let (negative, body) := splitSign (normalizeDigits text)
  let (marked, digits) := splitBase body
  let body := if marked = base then digits else body
  if base = 10 ∧ maxWholeDigits < body.length ∧ body.all Char.isDigit then
    .error (.noSuchValue (tooManyDigitsText body.length))
  else match digitsValue? base hexValue? body with
    | some n => .ok (if negative then -(n : Int) else n)
    | none => .error (.noSuchValue ("invalid literal for int() with base " ++ toString base ++ ": " ++
        quoted (String.ofList text)))

def sexagesimal (parts : List Int) : Int :=
  parts.foldl (fun n part => n * 60 + part) 0

def intOf (text : String) : Except YamlError Int := do
  let cs := text.toList.filter (· != '_')
  if cs.isEmpty then throw .noDigits
  let (negative, body) := splitSign cs
  let n ← match body with
    | [] => throw .noDigits
    | ['0'] => pure 0
    | '0' :: 'b' :: digits => wholeIn 2 digits
    | '0' :: 'x' :: digits => wholeIn 16 digits
    | '0' :: _ => wholeIn 8 body
    | _ =>
      if body.contains ':' then
        sexagesimal <$> (splitOn ':' body).mapM (wholeIn 10)
      else wholeIn 10 body
  return if negative then -n else n

def realOf (text : List Char) : Except YamlError Binary64 :=
  match real? text with
  | some x => .ok x
  | none => .error (.noSuchValue ("could not convert string to float: " ++
      quoted (String.ofList text)))

def maxRealParts : Nat := 174

def realSexagesimal (parts : List Binary64) : Except YamlError Binary64 :=
  if maxRealParts < parts.length then .error .outOfRange
  else .ok (parts.reverse.foldl (fun (sum, base) part => (sum.add (part.scale base), base * 60))
    (Binary64.zero false, 1)).1

def floatOf (text : String) : Except YamlError Binary64 := do
  let cs := (text.toList.filter (· != '_')).map Char.toLower
  if cs.isEmpty then throw .noDigits
  let (negative, body) := splitSign cs
  let x ← if body == ".inf".toList then pure (.infinite false)
    else if body == ".nan".toList then pure .notANumber
    else if body.contains ':' then do realSexagesimal (← (splitOn ':' body).mapM realOf)
    else realOf body
  return if negative then x.negate else x

def boolOf (text : String) : Except YamlError Bool :=
  let word := String.ofList (text.toList.map Char.toLower)
  if ["yes", "true", "on"].contains word then .ok true
  else if ["no", "false", "off"].contains word then .ok false
  else .error .noSuchWord

def partOf (s : Spot) (slot : Nat) : Nat :=
  ((s.get? slot).bind fun t => digitsValue? 10 hexValue? t.toList).getD 0

def microOf (digits : String) : Nat :=
  let six := (digits.toList ++ List.replicate 6 '0').take 6
  (digitsValue? 10 hexValue? six).getD 0

def zoneOf (s : Spot) : Option Int :=
  match s.get? 8 with
  | some sign =>
    let seconds : Int := partOf s 9 * 3600 + partOf s 10 * 60
    some (if sign = "-" then -seconds else seconds)
  | none => (s.get? 7).map fun _ => 0

def timeOf (text : String) : Except YamlError Value :=
  match anyTimePattern.readAll? (beforeLineEnd text.toList) with
  | none => .error .notATime
  | some s =>
    let date : Date := ⟨partOf s 0, partOf s 1, partOf s 2⟩
    match s.get? 3 with
    | none =>
      match date.fault? with
      | some reason => .error (.noSuchValue reason)
      | none => .ok (.date date)
    | some _ =>
      let zone := zoneOf s
      let moment : Moment :=
        ⟨date, partOf s 3, partOf s 4, partOf s 5, microOf ((s.get? 6).getD ""), zone⟩
      match (zone.bind Moment.zoneFault?).orElse fun _ => moment.fault? with
      | some reason => .error (.noSuchValue reason)
      | none => .ok (.moment moment)

def sixBits? (c : Char) : Option Nat :=
  if 'A' ≤ c ∧ c ≤ 'Z' then some (c.toNat - 65)
  else if 'a' ≤ c ∧ c ≤ 'z' then some (c.toNat - 71)
  else if '0' ≤ c ∧ c ≤ '9' then some (c.toNat + 4)
  else if c = '+' then some 62
  else if c = '/' then some 63
  else none

def base64From (place held pads : Nat) (bytes : List UInt8) : List Char → Option (List UInt8)
  | [] => if place = 0 then some bytes else none
  | c :: cs =>
    if c = '=' then
      if 2 ≤ place ∧ 4 ≤ place + pads + 1 then some bytes
      else base64From place held (if 2 ≤ place then pads + 1 else pads) bytes cs
    else match sixBits? c with
      | none => base64From place held pads bytes cs
      | some bits =>
        match place with
        | 0 => base64From 1 bits 0 bytes cs
        | 1 => base64From 2 (bits % 16) 0 (bytes ++ [UInt8.ofNat (held * 4 + bits / 16)]) cs
        | 2 => base64From 3 (bits % 4) 0 (bytes ++ [UInt8.ofNat (held * 16 + bits / 4)]) cs
        | _ => base64From 0 0 0 (bytes ++ [UInt8.ofNat (held * 64 + bits)]) cs

def bytesOf (text : String) : Except YamlError (List UInt8) :=
  if text.toList.any fun c => 128 ≤ c.toNat then .error .badNode
  else match base64From 0 0 0 [] text.toList with
    | some bytes => .ok bytes
    | none => .error .badNode

end EdgeAudit.Yaml

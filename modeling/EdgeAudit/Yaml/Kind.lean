import EdgeAudit.Text.Pattern
import EdgeAudit.Yaml.Node

namespace EdgeAudit.Yaml

open Text Pattern

inductive Kind
  | null
  | bool
  | int
  | float
  | binary
  | timestamp
  | text
  | sequence
  | mapping
  | set
  | orderedMap
  | pairs
  | merge
  | default
  deriving DecidableEq, Repr

def Kind.ofTag? (tag : String) : Option Kind :=
  match tag with
  | "tag:yaml.org,2002:null" => some .null
  | "tag:yaml.org,2002:bool" => some .bool
  | "tag:yaml.org,2002:int" => some .int
  | "tag:yaml.org,2002:float" => some .float
  | "tag:yaml.org,2002:binary" => some .binary
  | "tag:yaml.org,2002:timestamp" => some .timestamp
  | "tag:yaml.org,2002:str" => some .text
  | "tag:yaml.org,2002:seq" => some .sequence
  | "tag:yaml.org,2002:map" => some .mapping
  | "tag:yaml.org,2002:set" => some .set
  | "tag:yaml.org,2002:omap" => some .orderedMap
  | "tag:yaml.org,2002:pairs" => some .pairs
  | "tag:yaml.org,2002:merge" => some .merge
  | "tag:yaml.org,2002:value" => some .default
  | _ => none

def isDecimal (c : Char) : Bool :=
  c.isDigit

def isDecimalOrLow (c : Char) : Bool :=
  c.isDigit || c == '_'

def oneAmong (chars : String) : Pattern :=
  one fun c => chars.toList.contains c

def signs : Pattern :=
  optional (oneAmong "-+")

def digitRun : Pattern :=
  .seq (one isDecimal) (run isDecimalOrLow 0)

def exponentPart : Pattern :=
  optional (all [oneAmong "eE", oneAmong "-+", run isDecimal 1])

def sixtieths : Pattern :=
  let part := all [word ":", optional (one fun c => '0' ≤ c && c ≤ '5'), one isDecimal]
  .seq part (many part)

def floatPattern : Pattern :=
  oneOf
    [all [signs, digitRun, word ".", run isDecimalOrLow 0, exponentPart],
     all [word ".", digitRun, exponentPart],
     all [signs, digitRun, sixtieths, word ".", run isDecimalOrLow 0],
     all [signs, oneOf [word ".inf", word ".Inf", word ".INF"]],
     oneOf [word ".nan", word ".NaN", word ".NAN"]]

def intPattern : Pattern :=
  let nonZero : Pattern := .seq (one fun c => '1' ≤ c && c ≤ '9') (run isDecimalOrLow 0)
  oneOf
    [all [signs, word "0b", run (fun c => c == '0' || c == '1' || c == '_') 1],
     all [signs, word "0", run (fun c => ('0' ≤ c && c ≤ '7') || c == '_') 1],
     all [signs, oneOf [word "0", nonZero]],
     all [signs, word "0x", run (fun c => c.isDigit || ('a' ≤ c && c ≤ 'f') ||
       ('A' ≤ c && c ≤ 'F') || c == '_') 1],
     all [signs, nonZero, sixtieths]]

def digits (least most : Nat) : Pattern :=
  all (List.replicate least (one isDecimal) ++
    List.replicate (most - least) (optional (one isDecimal)))

def isGap (c : Char) : Bool :=
  c == ' ' || c == '\t'

def timePattern : Pattern :=
  all [oneOf [oneAmong "Tt", run isGap 1], keep 3 (digits 1 2), word ":", keep 4 (digits 2 2),
    word ":", keep 5 (digits 2 2), optional (.seq (word ".") (keep 6 (run isDecimal 0))),
    optional (.seq (run isGap 0) (keep 7 (oneOf
      [word "Z",
       all [keep 8 (oneAmong "-+"), keep 9 (digits 1 2),
         optional (.seq (word ":") (keep 10 (digits 2 2)))]])))]

def plainTimePattern : Pattern :=
  oneOf
    [all [digits 4 4, word "-", digits 2 2, word "-", digits 2 2],
     all [digits 4 4, word "-", digits 1 2, word "-", digits 1 2, timePattern]]

def anyTimePattern : Pattern :=
  all [keep 0 (digits 4 4), word "-", keep 1 (digits 1 2), word "-", keep 2 (digits 1 2),
    optional timePattern]

def boolWords : List String :=
  ["yes", "Yes", "YES", "no", "No", "NO", "true", "True", "TRUE", "false", "False", "FALSE", "on",
   "On", "ON", "off", "Off", "OFF"]

def beforeLineEnd (cs : List Char) : List Char :=
  if cs.getLast? = some '\n' then cs.dropLast else cs

def Kind.ofPlain (text : String) : Kind :=
  let cs := beforeLineEnd text.toList
  let word := String.ofList cs
  if text = "\n" then .text
  else if boolWords.contains word then .bool
  else if floatPattern.fits cs then .float
  else if intPattern.fits cs then .int
  else if word = "<<" then .merge
  else if ["", "~", "null", "Null", "NULL"].contains word then .null
  else if plainTimePattern.fits cs then .timestamp
  else if word = "=" then .default
  else .text

def Node.kind? : Node → Option Kind
  | .scalar none content plain => some (if plain then Kind.ofPlain content else .text)
  | .scalar (some "!") content _ => some (Kind.ofPlain content)
  | .scalar (some tag) _ _ => Kind.ofTag? tag
  | .sequence none _ => some .sequence
  | .sequence (some "!") _ => some .sequence
  | .sequence (some tag) _ => Kind.ofTag? tag
  | .mapping none _ => some .mapping
  | .mapping (some "!") _ => some .mapping
  | .mapping (some tag) _ => Kind.ofTag? tag
  | .enclosing isMapping => some (if isMapping then .mapping else .sequence)

end EdgeAudit.Yaml

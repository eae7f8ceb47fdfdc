namespace EdgeAudit.Text

inductive Utf8Reason
  | invalidStart
  | invalidContinuation
  | unexpectedEnd
  deriving DecidableEq, Repr

def Utf8Reason.message : Utf8Reason → String
  | .invalidStart => "invalid start byte"
  | .invalidContinuation => "invalid continuation byte"
  | .unexpectedEnd => "unexpected end of data"

structure Utf8Fault where
  position : Nat
  bytes : List UInt8
  reason : Utf8Reason
  deriving DecidableEq, Repr

def continuationRanges (first : Nat) : Option (List (Nat × Nat)) :=
  -- left out are longer forms of shorter encodings, the surrogates and codes beyond the last
  if first < 0x80 then some []
  else if first < 0xC2 then none
  else if first < 0xE0 then some [(0x80, 0xBF)]
  else if first = 0xE0 then some [(0xA0, 0xBF), (0x80, 0xBF)]
  else if first = 0xED then some [(0x80, 0x9F), (0x80, 0xBF)]
  else if first < 0xF0 then some [(0x80, 0xBF), (0x80, 0xBF)]
  else if first = 0xF0 then some [(0x90, 0xBF), (0x80, 0xBF), (0x80, 0xBF)]
  else if first < 0xF4 then some [(0x80, 0xBF), (0x80, 0xBF), (0x80, 0xBF)]
  else if first = 0xF4 then some [(0x80, 0x8F), (0x80, 0xBF), (0x80, 0xBF)]
  else none

def fitting : List (Nat × Nat) → List UInt8 → List UInt8
  | (lo, hi) :: ranges, b :: bytes =>
    if lo ≤ b.toNat ∧ b.toNat ≤ hi then b :: fitting ranges bytes else []
  | _, _ => []

def firstBits (first length : Nat) : Nat :=
  if length = 0 then first
  else if length = 1 then first % 0x20
  else if length = 2 then first % 0x10
  else first % 0x08

def firstChar (position : Nat) (first : UInt8) (rest : List UInt8) : Except Utf8Fault Char :=
  match continuationRanges first.toNat with
  | none => .error ⟨position, [first], .invalidStart⟩
  | some ranges =>
    let more := fitting ranges rest
    if more.length = ranges.length then
      .ok (Char.ofNat (more.foldl (fun n b => n * 64 + b.toNat % 64)
        (firstBits first.toNat ranges.length)))
    else
      .error ⟨position, first :: more,
        if more.length = rest.length then .unexpectedEnd else .invalidContinuation⟩

/-- The characters and faults of bytes, where the next `skip` bytes are already accounted for. -/
def utf8Pieces (position skip : Nat) : List UInt8 → List (Except Utf8Fault Char)
  | [] => []
  | b :: rest =>
    match skip with
    | n + 1 => utf8Pieces (position + 1) n rest
    | 0 =>
      let piece := firstChar position b rest
      let length := match piece with
        | .ok c => c.utf8Size
        | .error fault => fault.bytes.length
      piece :: utf8Pieces (position + 1) (length - 1) rest

def decodeUtf8 (bytes : List UInt8) : Except Utf8Fault (List Char) :=
  (utf8Pieces 0 0 bytes).mapM id

def decodeUtf8Leniently (bytes : List UInt8) : List Char :=
  (utf8Pieces 0 0 bytes).filterMap fun
    | .ok c => some c
    | .error _ => none

def decodeUtf8Replacing (bytes : List UInt8) : List Char :=
  (utf8Pieces 0 0 bytes).map fun
    | .ok c => c
    | .error _ => '\uFFFD'

def hexByte (b : UInt8) : String :=
  let digits := Nat.toDigits 16 b.toNat
  String.ofList (List.replicate (2 - digits.length) '0' ++ digits)

def Utf8Fault.message (f : Utf8Fault) : String :=
  let place := match f.bytes with
    | [b] => "byte 0x" ++ hexByte b ++ " in position " ++ toString f.position
    | bytes => "bytes in position " ++ toString f.position ++ "-" ++
        toString (f.position + bytes.length - 1)
  "'utf-8' codec can't decode " ++ place ++ ": " ++ f.reason.message

def unifyLineEnds : List Char → List Char
  | [] => []
  | '\r' :: '\n' :: cs => '\n' :: unifyLineEnds cs
  | c :: cs => (if c = '\r' then '\n' else c) :: unifyLineEnds cs

end EdgeAudit.Text

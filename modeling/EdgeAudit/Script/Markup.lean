import EdgeAudit.Script.Types

namespace EdgeAudit.Script.Grammar

open Reader Text

variable (g : Grammar)

def markupName : Reader Unit := do
  discard anyName
  discard (many do
    exactly "-"
    discard (many do
      match ← peek with
      | some c => check (isNamePart c || c == '-'); advance 1
      | none => failure))

def elementName : Reader Unit := do
  markupName
  if ← markIf ":" then markupName
  else discard (many (do mark "."; discard anyName))

def referenceLength? : List Char → Option Nat
  | '&' :: '#' :: x :: cs =>
    let (mark, digits) :=
      if x = 'x' ∨ x = 'X' then (3, cs.takeWhile isHex) else (2, (x :: cs).takeWhile isDecimal)
    let most := if mark = 3 then 6 else 5
    if !digits.isEmpty ∧ digits.length ≤ most ∧
        (('&' :: '#' :: x :: cs).drop (mark + digits.length)).head? = some ';'
    then some (mark + digits.length + 1) else none
  | '&' :: cs =>
    let name := cs.takeWhile Char.isAlpha
    if !name.isEmpty ∧ name.length ≤ 30 ∧ (cs.drop name.length).head? = some ';'
    then some (name.length + 2) else none
  | _ => none

def reference : Reader Unit := do
  match referenceLength? (← get).rest with
  | some n => advance n
  | none => failure

def attributeString : Reader Unit := do
  match ← peek with
  | some q =>
    check (q == '"' || q == '\'')
    advance 1
    discard (many do
      match (← get).rest with
      | '&' :: c :: _ => if c == '#' || c.isAlpha then reference else advance 1
      | c :: _ =>
        check (c != q)
        advance 1
      | [] => failure)
    exactly (String.ofList [q])
  | none => failure

def container : Reader Tree := do
  let s ← begin
  mark "\x7b"
  let parts ←
    if ← markAhead "\x7d" then pure []
    else if ← markIf "..." then pure [← g.expression .inner]
    else pure [← g.sequence .inner]
  mark "\x7d"
  finish .other s parts

def elementAttribute : Reader (List Tree) := do
  if ← markAhead "\x7b" then return [← g.container]
  attributeName
  if ← markIf "=" then
    trivia
    match ← peek with
    | some '\x7b' => return [← g.container]
    | some '<' => return [← g.markup]
    | _ =>
      attributeString
      return []
  else return []
where
  attributeName : Reader Unit := do
    markupName
    if ← markIf ":" then markupName

def markupText : Reader Unit := do
  let n := ((← get).rest.takeWhile fun c => !(['<', '>', '\x7b', '\x7d', '&'].contains c)).length
  check (0 < n)
  advance n

def markupChild : Reader (List Tree) := do
  match ← peek with
  | some '\x7b' => return [← g.container]
  | some '<' =>
    check !(← startsWith "</")
    return [← g.markup]
  | some '&' =>
    reference
    return []
  | _ =>
    markupText
    return []

def element : Reader Tree := do
  let s ← begin
  mark "<"
  let attributes ←
    if ← markAhead ">" then pure []
    else do
      elementName
      let targs ← if g.dialect.typed then g.typeArgumentsIf else pure []
      pure (targs ++ (← many g.elementAttribute).flatten)
  if ← markIf "/>" then
    finish .other s attributes
  else
    mark ">"
    let children ← many g.markupChild
    exactly "</"
    if !(← markAhead ">") then elementName
    mark ">"
    finish .other s (attributes ++ children.flatten)

end EdgeAudit.Script.Grammar

import EdgeAudit.Script.Types

namespace EdgeAudit.Script.Grammar

open Reader

variable (g : Grammar)

def bindingName : Reader Tree :=
  nameLeaf .identifier g.barredInBinding

def functionExpression : Reader Tree := do
  let s ← begin
  discard (wordIf "async")
  word "function"
  discard (markIf "*")
  discard (maybe g.bindingName)
  let signature ← g.callSignature
  let body ← g.block
  finish .other s (signature ++ [body])

def arrowBody (setting : Setting) : Reader Tree := do
  if ← markAhead "\x7b" then
    match ← maybe g.block with
    | some b => return b
    | none => g.expression setting
  else g.expression setting

def arrow (setting : Setting) : Reader Tree := do
  mark "=>"
  g.arrowBody setting

def memberModifiers (ws : List String) : Reader (List String) :=
  many do
    let w ← oneWord ws
    trivia
    match ← peek with
    | some c => check !(['(', '=', ';', '\x7d', '?', '!', ':', ',', '<'].contains c)
    | none => failure
    return w

def decorator : Reader Tree := do
  let s ← begin
  mark "@"
  if ← markAhead "(" then
    let e ← g.operand .inner
    finish .other s [e]
  else
    let t ← begin
    let name ← nameLeaf .identifier []
    let parts ← many do
      mark "."
      discard (markIf "#")
      nameLeaf .other []
    let target ← if parts.isEmpty then pure name else finish .other t [name]
    let targs ← if g.dialect.typed then g.typeArgumentsIf else pure []
    if ← markAhead "(" then
      let args ← g.arguments
      let call ← finish .call t (target.playing .callee :: targs ++ [args])
      finish .other s [call]
    else finish .other s (target :: targs)

def method (modifiers : List String) : Reader Tree := do
  let s ← begin
  let decorators ← many g.decorator
  discard (memberModifiers modifiers)
  discard (markIf "*")
  let name ← g.propertyName
  if g.dialect.typed then discard (markIf "?")
  let signature ← g.callSignature
  let body ← g.block
  finish .other s (decorators ++ name ++ signature ++ [body])

def initializerIf (setting : Setting) : Reader (List Tree) := do
  match ← maybe (markBefore "=" ['=', '>']) with
  | some _ => return [← g.expression setting]
  | none => return []

def classModifiers : List String :=
  if g.dialect.typed then
    ["declare", "public", "private", "protected", "static", "override", "readonly", "abstract",
      "accessor", "async", "get", "set"]
  else ["static", "async", "get", "set"]

def field : Reader Tree := do
  let s ← begin
  let decorators ← many g.decorator
  discard (memberModifiers g.classModifiers)
  discard (markIf "*")
  let name ← g.propertyName
  if g.dialect.typed then
    if !(← markIf "?") then discard (maybe (markBefore "!" ['=']))
  let rest ←
    if g.dialect.typed && ((← markAhead "(") || (← markAhead "<")) then g.callSignature
    else do
      let t ← g.typeAnnotationIf
      pure (t ++ (← g.initializerIf .line))
  let m ← finish .other s (decorators ++ name ++ rest)
  if !(g.dialect.typed && (← markIf ",")) then semicolon (rest.isEmpty)
  return m

def classIndex : Reader Tree := do
  check g.dialect.typed
  discard (memberModifiers ["static", "readonly"])
  let t ← g.indexSignature
  if !(← markIf ",") then semicolon true
  return t

def staticBlock : Reader Tree := do
  word "static"
  check (← markAhead "\x7b")
  g.block

def classMember : Reader (List Tree) := do
  if ← markIf ";" then return []
  match ← maybe g.staticBlock with
  | some t => return [t]
  | none =>
    match ← maybe g.classIndex with
    | some t => return [t]
    | none =>
      match ← maybe (g.method g.classModifiers) with
      | some t => return [t]
      | none =>
        match ← maybe g.field with
        | some t => return [t]
        | none =>
          check g.dialect.typed
          return [← g.decorator]

def classBody : Reader Tree := do
  let s ← begin
  mark "\x7b"
  let ms ← many g.classMember
  mark "\x7d"
  finish .other s ms.flatten

def heritage : Reader (List Tree) := do
  if g.dialect.typed then
    let extended ← if ← wordIf "extends" then
        commaItems do
          let e ← g.operand .inner
          let targs ← g.typeArgumentsIf
          return e :: targs
      else pure []
    let implemented ← if ← wordIf "implements" then commaItems g.type else pure []
    return extended.flatten ++ implemented
  else if ← wordIf "extends" then return [← g.expression .inner]
  else return []

def classTail (named : Bool) : Reader (List Tree) := do
  let barred := "extends" :: "implements" :: g.barredInBinding
  if named then discard (nameLeaf .other barred)
  else discard (maybe (nameLeaf .other barred))
  let tps ← g.typeParametersIf
  let h ← g.heritage
  let body ← g.classBody
  return tps ++ h ++ [body]

def classExpression (named : Bool) : Reader Tree := do
  let s ← begin
  let decorators ← many g.decorator
  word "class"
  let parts ← g.classTail named
  finish .other s (decorators ++ parts)

end EdgeAudit.Script.Grammar

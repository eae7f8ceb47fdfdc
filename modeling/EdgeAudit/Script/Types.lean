import EdgeAudit.Script.Grammar

namespace EdgeAudit.Script.Grammar

open Reader

variable (g : Grammar)

def typeArguments : Reader Tree := do
  let s ← begin
  mark "<"
  let ts ← commaList ">" g.type
  finish .other s ts

def typeArgumentsIf : Reader (List Tree) := do
  if ← ahead (markBefore "<" ['=']) then return [← g.typeArguments] else return []

def typeParameter : Reader Tree := do
  let s ← begin
  discard (many (do
    discard (oneWord ["const", "in", "out"])
    check (← nameAhead [])))
  discard (nameLeaf .other [])
  let bound ← if ← wordIf "extends" then pure [← g.type] else pure []
  let dflt ← if ← markIf "=" then pure [← g.type] else pure []
  finish .other s (bound ++ dflt)

def typeParameters : Reader Tree := do
  let s ← begin
  mark "<"
  let ps ← commaList ">" g.typeParameter
  check !ps.isEmpty
  finish .other s ps

def typeParametersIf : Reader (List Tree) := do
  if g.dialect.typed && (← markAhead "<") then return [← g.typeParameters] else return []

def typeAnnotation : Reader Tree := do
  mark ":"
  g.type

def typeAnnotationIf : Reader (List Tree) := do
  if g.dialect.typed && (← markAhead ":") then return [← g.typeAnnotation] else return []

def predicate : Reader Tree := do
  let s ← begin
  let asserted ← wordIf "asserts"
  if asserted then
    check !(← lineEndsAhead)
    discard (nameLeaf .other [])
    let t ← if ← wordIf "is" then pure [← g.type] else pure []
    finish .other s t
  else
    discard (nameLeaf .other [])
    check !(← lineEndsAhead)
    word "is"
    let t ← g.type
    finish .other s [t]

def resultType : Reader Tree := do
  match ← maybe g.predicate with
  | some t => return t
  | none => g.type

def resultAnnotationIf : Reader (List Tree) := do
  if g.dialect.typed && (← markIf ":") then return [← g.resultType] else return []

def dottedName : Reader Tree := do
  let s ← begin
  discard (nameLeaf .other [])
  discard (many (do mark "."; discard (nameLeaf .other [])))
  finish .other s []

def arguments : Reader Tree := do
  let s ← begin
  mark "("
  let xs ← holedList ")" do
    let t ← begin
    if ← markIf "..." then
      let e ← g.expression .inner
      finish .other t [e]
    else g.expression .inner
  return (← finish .other s xs).playing .arguments

def importedType : Reader Tree := do
  let s ← begin
  word "import"
  let callee := Tree.node .importWord .callee s (← Reader.position) []
  let args ← g.arguments
  let call ← finish .call s [callee, args]
  discard (many (do mark "."; discard (nameLeaf .other [])))
  let targs ← g.typeArgumentsIf
  finish .other s (call :: targs)

def typeQuery : Reader Tree := do
  let s ← begin
  word "typeof"
  if ← wordAhead "import" then
    let t ← g.importedType
    finish .other s [t]
  else
    discard (nameLeaf .other [])
    discard (many do
      if ← markIf "?." then discard (nameLeaf .other [])
      else
        mark "."
        discard (markIf "#")
        discard (nameLeaf .other []))
    let targs ← if ← lineEndsAhead then pure [] else g.typeArgumentsIf
    finish .other s targs

def propertyName : Reader (List Tree) := do
  trivia
  match ← peek with
  | some '[' =>
    advance 1
    let e ← g.expression .inner
    mark "]"
    return [e]
  | some '"' | some '\'' =>
    stringToken
    return []
  | some '#' =>
    advance 1
    discard bareName
    return []
  | some c =>
    if isDecimal c || c == '.' then numberToken else discard bareName
    return []
  | none => failure

def typedParameter : Reader Tree := do
  let s ← begin
  let decorators ← many do
    mark "@"
    g.operand .inner
  discard (many (do
    discard (oneWord ["public", "private", "protected", "override", "readonly"])
    trivia
    match ← peek with
    | some c => check !(['?', ':', ',', ')', '='].contains c)
    | none => failure))
  discard (markIf "...")
  let p ← if ← wordIf "this" then pure [] else pure [← g.binding]
  discard (markIf "?")
  let t ← g.typeAnnotationIf
  let d ← if ← markIf "=" then pure [← g.expression .inner] else pure []
  finish .other s (decorators ++ p ++ t ++ d)

def parameter : Reader Tree := do
  if g.dialect.typed then g.typedParameter
  else
    let s ← begin
    discard (markIf "...")
    let p ← g.cover .inner
    check p.reading.isItem
    finish .other s [p.tree]

def parameters : Reader Tree := do
  let s ← begin
  mark "("
  let ps ← commaList ")" g.parameter
  finish .other s ps

def callSignature : Reader (List Tree) := do
  let tps ← g.typeParametersIf
  let ps ← g.parameters
  let result ← g.resultAnnotationIf
  return tps ++ ps :: result

def functionType : Reader Tree := do
  let s ← begin
  if ← wordIf "abstract" then word "new"
  else discard (wordIf "new")
  let tps ← g.typeParametersIf
  let ps ← g.parameters
  mark "=>"
  let result ← g.resultType
  finish .other s (tps ++ [ps, result])

def optionalMark : Reader Unit := do
  if (← markIf "-?") || (← markIf "+?") then pure () else discard (markIf "?")

def indexSignature : Reader Tree := do
  let s ← begin
  if (← markIf "-") || (← markIf "+") then word "readonly" else discard (wordIf "readonly")
  mark "["
  discard (nameLeaf .other [])
  let keys ← if ← wordIf "in" then do
      let t ← g.type
      let renamed ← if ← wordIf "as" then pure [← g.type] else pure []
      pure (t :: renamed)
    else pure [← g.typeAnnotation]
  mark "]"
  optionalMark
  let t ← g.typeAnnotationIf
  finish .other s (keys ++ t)

def typeMember : Reader Tree := do
  let s ← begin
  match ← maybe g.indexSignature with
  | some t => return t
  | none =>
    if (← markAhead "(") || (← markAhead "<") then
      finish .other s (← g.callSignature)
    else
      let constructed ← maybe (do
        word "new"
        g.callSignature)
      match constructed with
      | some ts => finish .other s ts
      | none =>
        discard (many (do
          discard (oneWord ["public", "private", "protected", "static", "override", "readonly",
            "async", "get", "set", "export"])
          trivia
          match ← peek with
          | some c => check !(['?', ':', ',', ';', '(', '<', '\x7d', '='].contains c)
          | none => failure))
        let name ← g.propertyName
        discard (markIf "?")
        if (← markAhead "(") || (← markAhead "<") then
          finish .other s (name ++ (← g.callSignature))
        else finish .other s (name ++ (← g.typeAnnotationIf))

def objectType : Reader Tree := do
  let s ← begin
  mark "\x7b"
  discard (maybe (do if !(← markIf ",") then mark ";"))
  let ms ← many do
    check !(← markAhead "\x7d")
    let m ← g.typeMember
    if !(← markIf ",") then semicolon true
    return m
  mark "\x7d"
  finish .other s ms

def tupleMember : Reader Tree := do
  let s ← begin
  discard (markIf "...")
  let named ← maybe (do
    discard (nameLeaf .other [])
    discard (markIf "?")
    mark ":"
    let t ← g.type
    discard (markIf "?")
    return t)
  match named with
  | some t => finish .other s [t]
  | none =>
    let t ← g.type
    discard (markIf "?")
    finish .other s [t]

def templateType : Reader Tree := do
  let s ← begin
  exactly "\x60"
  templateText
  let parts ← many do
    exactly "$\x7b"
    let t ← g.type
    mark "\x7d"
    templateText
    return t
  exactly "\x60"
  finish .other s parts

def plainTypes : List String :=
  ["any", "number", "boolean", "string", "symbol", "void", "unknown", "never", "object"]

def namedType : Reader Tree := do
  let s ← begin
  let w ← ahead? anyName
  if w = "typeof" then g.typeQuery
  else if w = "import" then g.importedType
  else if w = "keyof" ∨ w = "readonly" ∨ w = "unique" then
    match ← maybe (do discard bareName; g.type) with
    | some t => finish .other s [t]
    | none => do
      discard bareName
      finish .other s (← g.typeArgumentsIf)
  else if w = "infer" then
    discard bareName
    discard (nameLeaf .other [])
    let bound ← maybe (do
      word "extends"
      let t ← g.type
      check !(← markAhead "?")
      return t)
    finish .other s bound.toList
  else if plainTypes.contains w then
    discard dottedName
    finish .other s []
  else
    discard dottedName
    let targs ← if ← lineEndsAhead then pure [] else g.typeArgumentsIf
    finish .other s targs
where
  ahead? (p : Reader String) : Reader String := do
    let before ← get
    let w ← p
    set before
    return w

def simpleType : Reader Tree := do
  let s ← begin
  match ← peek with
  | some '(' =>
    advance 1
    let t ← g.type
    mark ")"
    finish .other s [t]
  | some '\x7b' => g.objectType
  | some '[' =>
    advance 1
    let ts ← holedList "]" g.tupleMember
    finish .other s ts
  | some '"' | some '\'' =>
    stringToken
    finish .other s []
  | some '\x60' => g.templateType
  | some '-' =>
    advance 1
    trivia
    numberToken
    finish .other s []
  | some '*' =>
    advance 1
    finish .other s []
  | some '?' =>
    advance 1
    let t ← g.type
    finish .other s [t]
  | some c =>
    if isDecimal c || c == '.' then
      numberToken
      finish .other s []
    else g.namedType
  | none => failure

def postfixType : Reader Tree := do
  let s ← begin
  let t ← g.simpleType
  let parts ← many do
    mark "["
    if ← markIf "]" then return []
    let k ← g.type
    mark "]"
    return [k]
  finish .other s (t :: parts.flatten)

def anyType : Reader Tree := do
  let s ← begin
  match ← maybe g.functionType with
  | some t => return t
  | none =>
    if !(← markIf "|") then discard (markIf "&")
    let t ← g.postfixType
    let ts ← many do
      if !(← markIf "|") then mark "&"
      match ← maybe g.functionType with
      | some f => return f
      | none => g.postfixType
    let condition ← maybe (do
      word "extends"
      let bound ← g.type
      mark "?"
      let yes ← g.type
      mark ":"
      let no ← g.type
      return [bound, yes, no])
    finish .other s (t :: ts ++ condition.getD [])

end EdgeAudit.Script.Grammar

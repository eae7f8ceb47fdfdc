import EdgeAudit.Script.Expression

namespace EdgeAudit.Script.Grammar

open Reader

variable (g : Grammar)

def statements : Reader (List Tree) := do
  let ss ← many g.statement
  discard beginStatement
  return ss

def anyBlock : Reader Tree := do
  let s ← begin
  mark "\x7b"
  let ss ← g.statements
  mark "\x7d"
  finish .other s ss

def expressionStatement : Reader Tree := do
  let e ← g.sequence .line
  semicolon false
  return e

def condition : Reader Tree := do
  mark "("
  let e ← g.sequence .inner
  let t ← g.typeAnnotationIf
  mark ")"
  match t with
  | [] => return e
  | ts => finish .other e.start (e :: ts)

def declarator (setting : Setting) : Reader (List Tree × Bool) := do
  let name ← g.binding
  if g.dialect.typed then discard (maybe (markBefore "!" ['=']))
  let t ← g.typeAnnotationIf
  let v ← g.initializerIf setting
  return (name :: t ++ v, !v.isEmpty)

def declarators (setting : Setting) : Reader (List Tree × Bool) := do
  let ds ← commaItems (g.declarator setting)
  return (ds.flatMap (·.1), ((ds.getLast?).map (·.2)).getD false)

def declarationWord : Reader Unit := do
  if ← wordIf "await" then
    check !(← lineEndsAhead)
    word "using"
    check !(← lineEndsAhead)
  else
    let w ← oneWord ["var", "let", "const", "using"]
    if w == "using" then check !(← lineEndsAhead)

def variableList : Reader Tree := do
  let s ← begin
  declarationWord
  let (ts, valued) ← g.declarators .line
  semicolon !valued
  finish .other s ts

def functionDeclaration : Reader Tree := do
  let s ← begin
  if ← wordIf "async" then check !(← lineEndsAhead)
  word "function"
  discard (markIf "*")
  let name ← g.bindingName
  let signature ← g.callSignature
  match ← maybe g.block with
  | some b => finish .other s (name :: signature ++ [b])
  | none =>
    check g.dialect.typed
    semicolon true
    finish .other s (name :: signature)

def classDeclaration : Reader Tree := do
  let s ← begin
  let decorators ← many g.decorator
  if g.dialect.typed then discard (wordIf "abstract")
  word "class"
  let parts ← g.classTail true
  finish .other s (decorators ++ parts)

def enumeration : Reader Tree := do
  let s ← begin
  discard (wordIf "const")
  word "enum"
  discard (nameLeaf .other [])
  mark "\x7b"
  let ms ← commaList "\x7d" do
    let name ← g.propertyName
    return name ++ (← g.initializerIf .inner)
  finish .other s ms.flatten

def interface : Reader Tree := do
  let s ← begin
  word "interface"
  discard (nameLeaf .other [])
  let tps ← g.typeParametersIf
  let extended ← if ← wordIf "extends" then commaItems g.type else pure []
  let body ← g.objectType
  finish .other s (tps ++ extended ++ [body])

def typeAlias : Reader Tree := do
  let s ← begin
  word "type"
  discard (nameLeaf .other [])
  let tps ← g.typeParametersIf
  mark "="
  let t ← g.type
  semicolon true
  finish .other s (tps ++ [t])

def moduleDeclaration : Reader Tree := do
  let s ← begin
  discard (oneWord ["namespace", "module"])
  check !(← lineEndsAhead)
  match ← maybe stringLeaf with
  | some _ => pure ()
  | none => discard dottedName
  match ← maybe g.block with
  | some b => finish .other s [b]
  | none =>
    semicolon true
    finish .other s []

def importAlias : Reader Tree := do
  let s ← begin
  word "import"
  discard (nameLeaf .other [])
  mark "="
  discard dottedName
  semicolon true
  finish .other s []

def typedDeclaration : Reader Tree := do
  check g.dialect.typed
  g.enumeration <|> g.interface <|> g.typeAlias <|> g.moduleDeclaration <|> importAlias

def declaration : Reader Tree :=
  g.typedDeclaration <|> g.functionDeclaration <|> g.classDeclaration <|> g.variableList

def ambient : Reader Tree := do
  check g.dialect.typed
  let s ← begin
  word "declare"
  check !(← lineEndsAhead)
  let d ← (do word "global"; g.block) <|> g.declaration
  finish .other s [d]

def exportName (barred : List String) : Reader Unit :=
  discard stringLeaf <|> discard (nameLeaf .other barred)

def importSpecifier : Reader Unit := do
  let barred := g.barredInBinding.filter (· != "default")
  let renamed : Reader Unit := do
    exportName barred
    word "as"
    discard (nameLeaf .other g.barredInBinding)
  let plain : Reader Unit := discard (nameLeaf .other g.barredInBinding)
  let item : Reader Unit := renamed <|> plain
  let ends : Reader Unit := do
    check ((← markAhead ",") || (← markAhead "\x7d"))
  let typed : Reader Unit := do
    check g.dialect.typed
    discard (oneWord ["type", "typeof"])
    item
    ends
  typed <|> (do item; ends)

def importNames : Reader Unit := do
  mark "\x7b"
  discard (commaList "\x7d" g.importSpecifier)

def importAll : Reader Unit := do
  mark "*"
  word "as"
  discard (nameLeaf .other g.barredInBinding)

def importClause : Reader Unit :=
  g.importAll <|> g.importNames <|> (do
    discard (nameLeaf .other g.barredInBinding)
    if ← markIf "," then g.importAll <|> g.importNames)

def fromClause : Reader Tree := do
  word "from"
  return (← stringLeaf).playing .source

def importAttributes : Reader (List Tree) := do
  if ← endAhead true then return []
  match ← maybe (do
    discard (oneWord ["with", "assert"])
    return (← g.object).tree) with
  | some t => return [t]
  | none => return []

def requireClause : Reader Tree := do
  check g.dialect.typed
  let s ← begin
  discard (nameLeaf .other [])
  mark "="
  word "require"
  mark "("
  let source := (← stringLeaf).playing .source
  mark ")"
  finish .requireClause s [source]

def importBody : Reader Tree :=
  (do return (← stringLeaf).playing .source) <|>
    g.requireClause <|>
    (do g.importClause; fromClause)

def importStatement : Reader Tree := do
  let s ← begin
  word "import"
  let typed : Reader Tree := do
    check g.dialect.typed
    discard (oneWord ["type", "typeof"])
    g.importBody
  let body ← typed <|> g.importBody
  let attributes ← g.importAttributes
  semicolon true
  finish .importStatement s (body :: attributes)

def exportNames : Reader Unit := do
  let item : Reader Unit := do
    let barred := g.barredInBinding.filter (· != "default")
    exportName barred
    if ← wordIf "as" then exportName barred
    check ((← markAhead ",") || (← markAhead "\x7d"))
  mark "\x7b"
  discard (commaList "\x7d" ((do
    check g.dialect.typed
    discard (oneWord ["type", "typeof"])
    item) <|> item))

def exportList : Reader (List Tree) := do
  if g.dialect.typed then
    discard (maybe (do word "type"; check ((← markAhead "\x7b") || (← markAhead "*"))))
  if ← markIf "*" then
    if ← wordIf "as" then exportName (g.barredInBinding.filter (· != "default"))
    let source ← fromClause
    let attributes ← g.importAttributes
    semicolon true
    return source :: attributes
  else
    g.exportNames
    let source ← if ← wordAhead "from" then pure [← fromClause] else pure []
    let attributes ← g.importAttributes
    semicolon true
    return source ++ attributes

def exportDefault : Reader Tree := do
  word "default"
  let declared : Reader Tree :=
    g.functionDeclaration <|> g.classDeclaration <|> (do check g.dialect.typed; g.interface)
  declared <|> (do
    let e ← g.expression .line
    semicolon false
    return e)

def typedExport : Reader (List Tree) := do
  check g.dialect.typed
  let whole : Reader (List Tree) := do
    mark "="
    let e ← g.expression .line
    semicolon false
    return [e]
  let space : Reader (List Tree) := do
    word "as"
    word "namespace"
    discard (nameLeaf .other [])
    semicolon true
    return []
  whole <|> space

def exportStatement : Reader Tree := do
  let s ← begin
  let decorators ← many g.decorator
  word "export"
  let body ← g.exportList <|> (do return [← g.exportDefault]) <|> g.typedExport <|>
    (do return [← g.ambient]) <|> (do return [← g.declaration])
  finish .other s (decorators ++ body)

def ifStatement : Reader Tree := do
  let s ← begin
  word "if"
  let c ← g.condition
  let yes ← g.statement
  let no ← if ← wordIf "else" then pure [← g.statement] else pure []
  finish .other s (c :: yes :: no)

def forEachHead : Reader (List Tree) := do
  let setting : Setting := ⟨true, false, false⟩
  let declared : Reader (List Tree) := do
    declarationWord
    let name ← g.binding
    let t ← g.typeAnnotationIf
    let v ← g.initializerIf setting
    discard (oneWord ["of", "in"])
    return name :: t ++ v
  let target : Reader (List Tree) := do
    let p ← g.cover setting
    check p.reading.isTarget
    discard (oneWord ["of", "in"])
    return [p.tree]
  let left ← declared <|> target
  let right ← g.sequence .inner
  mark ")"
  return left ++ [right]

def forHead (barIn : Bool) : Reader (List Tree) := do
  let setting : Setting := ⟨barIn, true, false⟩
  let declared : Reader (List Tree) := do
    declarationWord
    let (ts, valued) ← g.declarators setting
    semicolon !valued
    return ts
  let plain : Reader (List Tree) := do
    let e ← g.sequence ⟨barIn, false, false⟩
    mark ";"
    return [e]
  let start ← declared <|> plain <|> (do mark ";"; return [])
  let test ← (do mark ";"; return []) <|> (do
    let e ← g.sequence .inner
    mark ";"
    return [e])
  let step ← if ← markAhead ")" then pure [] else pure [← g.sequence .inner]
  mark ")"
  return start ++ test ++ step

def forStatement : Reader Tree := do
  let s ← begin
  word "for"
  let awaited ← wordIf "await"
  mark "("
  let each : Reader (List Tree) := g.forEachHead
  let head ← if awaited then each else each <|> g.forHead true <|> g.forHead false
  let body ← g.statement
  finish .other s (head ++ [body])

def whileStatement : Reader Tree := do
  let s ← begin
  word "while"
  let c ← g.condition
  let body ← g.statement
  finish .other s [c, body]

def doStatement : Reader Tree := do
  let s ← begin
  word "do"
  let body ← g.statement
  word "while"
  let c ← g.condition
  discard (maybe (semicolon true))
  finish .other s [body, c]

def tryStatement : Reader Tree := do
  let s ← begin
  word "try"
  let body ← g.block
  let caught ← if ← wordIf "catch" then do
      let bound ← if ← markIf "(" then do
          let b ← g.binding
          let t ← g.typeAnnotationIf
          mark ")"
          pure (b :: t)
        else pure []
      pure (bound ++ [← g.block])
    else pure []
  let last ← if ← wordIf "finally" then pure [← g.block] else pure []
  finish .other s (body :: caught ++ last)

def switchStatement : Reader Tree := do
  let s ← begin
  word "switch"
  let c ← g.condition
  mark "\x7b"
  let cases ← many do
    let label ← (do
      word "case"
      return [← g.sequence .inner]) <|> (do
      word "default"
      return [])
    mark ":"
    return label ++ (← g.statements)
  mark "\x7d"
  finish .other s (c :: cases.flatten)

def withStatement : Reader Tree := do
  let s ← begin
  word "with"
  let c ← g.condition
  let body ← g.statement
  finish .other s [c, body]

def jumpStatement : Reader Tree := do
  let s ← begin
  discard (oneWord ["break", "continue"])
  if !(← endAhead true) then
    discard (maybe (nameLeaf .other g.barredInBinding))
  semicolon true
  finish .other s []

def valueStatement (w : String) (needed : Bool) : Reader Tree := do
  let s ← begin
  word w
  let value ←
    if !needed && ((← endAhead true) || (← markAhead ";")) then pure []
    else pure [← g.sequence .line]
  semicolon value.isEmpty
  finish .other s value

def labeled : Reader Tree := do
  let s ← begin
  discard (nameLeaf .other reservedWords)
  mark ":"
  let body ← g.statement
  finish .other s [body]

def innerWords : List String :=
  ["case", "default", "else", "catch", "finally"]

def wordStatement (w : String) : Reader Tree :=
  if w = "if" then g.ifStatement
  else if w = "for" then g.forStatement
  else if w = "while" then g.whileStatement
  else if w = "do" then g.doStatement
  else if w = "try" then g.tryStatement
  else if w = "switch" then g.switchStatement
  else if w = "with" then g.withStatement
  else if w = "break" ∨ w = "continue" then g.jumpStatement
  else if w = "return" then g.valueStatement "return" false
  else if w = "throw" then g.valueStatement "throw" true
  else if w = "debugger" then do
    let s ← begin
    word "debugger"
    semicolon true
    finish .other s []
  else if w = "import" then g.importStatement <|> g.typedDeclaration <|> g.expressionStatement
  else if w = "export" then g.exportStatement
  else if innerWords.contains w then failure
  else if ["function", "async", "class", "var", "let", "const", "using", "await"].contains w then
    g.declaration <|> g.labeled <|> g.expressionStatement
  else
    g.labeled <|> (do
      check (["abstract", "enum", "interface", "type", "namespace", "module"].contains w)
      check g.dialect.typed
      g.declaration) <|> (do
      check (w == "declare")
      g.ambient) <|> g.expressionStatement

def anyStatement : Reader Tree := do
  let s ← beginStatement
  match (← get).rest with
  | ';' :: _ =>
    advance 1
    finish .other s []
  | '\x7b' :: _ => g.anyBlock <|> g.expressionStatement
  | '@' :: _ => g.exportStatement <|> g.classDeclaration <|> g.expressionStatement
  | [] => failure
  | _ =>
    let before ← get
    match ← maybe bareName with
    | some w =>
      set before
      g.wordStatement w
    | none => g.expressionStatement

end EdgeAudit.Script.Grammar

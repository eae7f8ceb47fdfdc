import EdgeAudit.Script.Function
import EdgeAudit.Script.Markup

namespace EdgeAudit.Script.Grammar

open Reader

variable (g : Grammar)

def asValue (p : Reader Tree) : Reader Parsed := do
  return ⟨← p, .value⟩

def template : Reader Tree := do
  let s ← begin
  exactly "\x60"
  templateText
  let parts ← many do
    let t ← Reader.position
    exactly "$\x7b"
    let e ← g.sequence .inner
    mark "\x7d"
    let part ← finish .other t [e]
    templateText
    return part
  exactly "\x60"
  finish .other s parts

structure Part where
  trees : List Tree
  value : Bool
  item : Bool

def ofParts (s : Nat) (parts : List Part) : Reader Parsed := do
  let t ← finish .other s (parts.flatMap (·.trees))
  match Reading.ofParts? (parts.all (·.value)) (parts.all (·.item)) with
  | some r => return ⟨t, r⟩
  | none => failure

def spread : Reader Part := do
  let s ← begin
  mark "..."
  let p ← g.cover .inner
  return ⟨[← finish .other s [p.tree]], p.reading.isValue, p.reading.isPattern⟩

def objectMember : Reader Part := do
  if ← markAhead "..." then g.spread
  else
    let modifiers := if g.dialect.typed then g.classModifiers else ["static", "async", "get", "set"]
    match ← maybe (g.method modifiers) with
    | some t => return ⟨[t], true, false⟩
    | none =>
      let pair ← maybe (do
        let name ← g.propertyName
        mark ":"
        return name)
      match pair with
      | some name =>
        let v ← g.cover .inner
        return ⟨name ++ [v.tree], v.reading.isValue, v.reading.isItem⟩
      | none =>
        let name ← nameLeaf .other g.barredInBinding
        match ← maybe (markBefore "=" ['=', '>']) with
        | some _ =>
          let d ← g.expression .inner
          return ⟨[name, d], false, true⟩
        | none => return ⟨[name], true, true⟩

def object : Reader Parsed := do
  let s ← begin
  mark "\x7b"
  let parts ← holedList "\x7d" g.objectMember
  ofParts s parts

def array : Reader Parsed := do
  let s ← begin
  mark "["
  let parts ← holedList "]" do
    if ← markAhead "..." then g.spread
    else
      let p ← g.cover .inner
      return ⟨[p.tree], p.reading.isValue, p.reading.isItem⟩
  ofParts s parts

def anyBinding : Reader Parsed := do
  trivia
  let p ← match ← peek with
    | some '\x7b' => g.object
    | some '[' => g.array
    | _ => do pure ⟨← g.bindingName, .reference⟩
  check p.reading.isPattern
  return p

structure Entry where
  tree : Tree
  value : Bool
  item : Bool
  annotated : Bool

def entry : Reader Entry := do
  let s ← begin
  if ← markIf "..." then
    let p ← g.cover .inner
    let t ← g.typeAnnotationIf
    return ⟨← finish .other s (p.tree :: t), false, p.reading.isPattern, false⟩
  else
    let p ← g.cover .inner
    if g.dialect.typed then
      let optional ← maybe (do
        mark "?"
        trivia
        match ← peek with
        | some c => check ([':', ',', ')', '='].contains c)
        | none => failure)
      let t ← g.typeAnnotationIf
      if optional.isSome || !t.isEmpty then
        let d ← g.initializerIf .inner
        let tree ← finish .other s (p.tree :: t ++ d)
        return ⟨tree, optional.isNone && d.isEmpty && p.reading.isValue, p.reading.isPattern, true⟩
      else return ⟨p.tree, p.reading.isValue, p.reading.isItem, false⟩
    else return ⟨p.tree, p.reading.isValue, p.reading.isItem, false⟩

def entries : Reader (List Entry × Bool) := do
  mark "("
  let parts ← many do
    check !(← markAhead ")")
    let e ← g.entry
    let comma ← markIf ","
    if !comma then check (← markAhead ")")
    return (e, comma)
  mark ")"
  return (parts.map (·.1), ((parts.getLast?).map (·.2)).getD false)

def arrowTail (setting : Setting) : Reader (List Tree) := do
  let result ←
    if g.dialect.typed && !setting.barResult && (← markIf ":") then pure [← g.resultType]
    else pure []
  let body ← g.arrow setting
  return result ++ [body]

def parenthesized (setting : Setting) : Reader Parsed := do
  let s ← begin
  let (es, comma) ← g.entries
  let trees := es.map (·.tree)
  -- what the entries are is known only here, by the arrow that follows or does not
  let tail ← if es.all (·.item) then maybe (g.arrowTail setting) else pure none
  match tail with
  | some ts => return ⟨← finish .other s (trees ++ ts), .value⟩
  | none =>
    check (!es.isEmpty && !comma && es.all (·.value))
    check (es.length == 1 || es.all (!·.annotated))
    return ⟨← finish .other s trees, .group⟩

def genericArrow (setting : Setting) : Reader Tree := do
  let s ← begin
  discard (wordIf "async")
  let tps ← g.typeParameters
  let ps ← g.parameters
  let result ← g.resultAnnotationIf
  let body ← g.arrow setting
  finish .other s (tps :: ps :: result ++ [body])

def nameOperand (setting : Setting) : Reader Parsed := do
  let s ← begin
  let name ← nameLeaf .identifier g.barredInExpression
  if ← markAhead "=>" then
    let body ← g.arrow setting
    return ⟨← finish .other s [name, body], .value⟩
  else return ⟨name, .reference⟩

def asyncArrow (setting : Setting) : Reader Tree := do
  let s ← begin
  word "async"
  if ← markAhead "(" then
    let (es, _) ← g.entries
    check (es.all (·.item))
    let tail ← g.arrowTail setting
    finish .other s (es.map (·.tree) ++ tail)
  else
    let name ← nameLeaf .identifier g.barredInBinding
    let body ← g.arrow setting
    finish .other s [name, body]

def asyncOperand (setting : Setting) : Reader Parsed := do
  let function ← ahead (do
    word "async"
    check !(← lineEndsAhead)
    word "function")
  if function then asValue g.functionExpression
  else
    let generic ← if g.dialect.typed then maybe (g.genericArrow setting) else pure none
    match generic with
    | some t => return ⟨t, .value⟩
    | none =>
      match ← maybe (g.asyncArrow setting) with
      | some t => return ⟨t, .value⟩
      | none => g.nameOperand setting

def wordLeaf : Reader Parsed := do
  let s ← begin
  discard bareName
  return ⟨← finish .other s [], .value⟩

def importOperand : Reader Parsed := do
  let s ← begin
  word "import"
  let callee := Tree.node .importWord .callee s (← Reader.position) []
  if ← markAhead "(" then
    let args ← g.arguments
    return ⟨← finish .call s [callee, args], .value⟩
  else
    mark "."
    discard anyName
    return ⟨← finish .other s [callee], .value⟩

def targetOperand : Reader Parsed := do
  let s ← begin
  word "new"
  mark "."
  word "target"
  return ⟨← finish .other s [], .value⟩

def privateOperand : Reader Parsed := do
  let s ← begin
  mark "#"
  discard bareName
  check (← wordAhead "in")
  return ⟨← finish .other s [], .value⟩

def wordOperand (setting : Setting) (w : String) : Reader Parsed :=
  if w = "function" then asValue g.functionExpression
  else if w = "async" then g.asyncOperand setting
  else if w = "class" then asValue (g.classExpression false)
  else if w = "import" then g.importOperand
  else if w = "new" then targetOperand
  else if ["this", "super", "null", "true", "false"].contains w then wordLeaf
  else g.nameOperand setting

def primary (setting : Setting) : Reader Parsed := do
  let s ← begin
  match (← get).rest with
  | '(' :: _ => g.parenthesized setting
  | '[' :: _ => g.array
  | '\x7b' :: _ => g.object
  | '\x60' :: _ => asValue g.template
  | '"' :: _ => asValue stringLeaf
  | '\'' :: _ => asValue stringLeaf
  | '/' :: _ =>
    regexToken
    return ⟨← finish .other s [], .value⟩
  | '#' :: _ => privateOperand
  | '@' :: _ => asValue (g.classExpression false)
  | c :: _ =>
    if isDecimal c || c == '.' then
      numberToken
      return ⟨← finish .number s [], .value⟩
    else
      let before ← get
      let w ← bareName
      set before
      g.wordOperand setting w
  | [] => failure

def callOf (s : Nat) (callee : Tree) (typeArguments : List Tree) (args : Tree) : Reader Parsed := do
  return ⟨← finish .call s (callee.playing .callee :: typeArguments ++ [args]), .value⟩

def memberOf (s : Nat) (object : Tree) : Reader Parsed := do
  let p ← begin
  discard (maybe (exactly "#"))
  discard bareName
  let name := Tree.node .other .property p (← Reader.position) []
  return ⟨← finish .member s [object.playing .object, name], .reference⟩

def indexOf (s : Nat) (object : Tree) : Reader Parsed := do
  mark "["
  let i ← g.sequence .inner
  mark "]"
  return ⟨← finish .other s [object, i], .reference⟩

def instantiation (s : Nat) (callee : Tree) : Reader Parsed := do
  let targs ← g.typeArguments
  let lineEnds ← lineEndsAhead
  trivia
  match ← peek with
  | some '(' => callOf s callee [targs] (← g.arguments)
  | some '\x60' => callOf s callee [targs] ((← g.template).playing .arguments)
  | some c =>
    check (lineEnds || [')', ']', ',', ';', ':', '\x7d', '.', '?', '='].contains c)
    return ⟨← finish .other s [callee, targs], .value⟩
  | none => return ⟨← finish .other s [callee, targs], .value⟩

def chainStep (setting : Setting) (calls : Bool) (s : Nat) (cur : Parsed) : Reader Parsed := do
  check cur.reading.isValue
  let lineEnds ← lineEndsAhead
  trivia
  match (← get).rest with
  | '?' :: '.' :: c :: _ =>
    check !(isDecimal c)
    advance 2
    trivia
    match ← peek with
    | some '(' => callOf s cur.tree [] (← g.arguments)
    | some '[' => g.indexOf s cur.tree
    | some '<' =>
      check g.dialect.typed
      let targs ← g.typeArguments
      callOf s cur.tree [targs] (← g.arguments)
    | _ => memberOf s cur.tree
  | '.' :: c :: _ =>
    check (c != '.')
    advance 1
    memberOf s cur.tree
  | '[' :: _ => g.indexOf s cur.tree
  | '(' :: _ =>
    check calls
    callOf s cur.tree [] (← g.arguments)
  | '\x60' :: _ => callOf s cur.tree [] ((← g.template).playing .arguments)
  | '!' :: rest =>
    check (g.dialect.typed && rest.head? != some '=' && !(lineEnds && setting.mayEnd))
    advance 1
    return ⟨← finish .other s [cur.tree], .reference⟩
  | '<' :: _ =>
    check (g.dialect.typed && calls)
    g.instantiation s cur.tree
  | _ => failure

def chain (setting : Setting) (calls : Bool) (s : Nat) : (fuel : Nat) → Parsed → Reader Parsed
  | 0, cur => pure cur
  | n + 1, cur => do
    match ← maybe (g.chainStep setting calls s cur) with
    | some next => chain setting calls s n next
    | none => return cur

def chainAll (setting : Setting) (calls : Bool) (s : Nat) (cur : Parsed) : Reader Parsed := do
  g.chain setting calls s (← get).left cur

def constructionOf (s : Nat) (callee : Tree) : Reader Parsed := do
  let targs ← if g.dialect.typed then maybe g.typeArguments else pure none
  let args ← if ← markAhead "(" then pure [← g.arguments] else pure []
  let children := callee.playing .constructor :: targs.toList ++ args
  return ⟨← finish .construction s children, .value⟩

def construction (setting : Setting) : Reader Parsed := do
  let starts ← many do
    let s ← begin
    word "new"
    check !(← markAhead ".")
    return s
  check !starts.isEmpty
  let s ← begin
  let base ← g.chainAll setting false s (← g.primary setting)
  check base.reading.isValue
  let inner ← starts.tail.reverse.foldlM (fun cur s => do
    g.chainAll setting false s (← g.constructionOf s cur.tree)) base
  g.constructionOf (starts.headD s) inner.tree

def yielding (setting : Setting) : Reader Parsed := do
  let s ← begin
  word "yield"
  if ← markIf "*" then
    let e ← g.expression setting
    return ⟨← finish .other s [e], .value⟩
  else if setting.mayEnd && (← endAhead false) then
    return ⟨← finish .other s [], .value⟩
  else
    let e ← maybe (g.expression setting)
    return ⟨← finish .other s e.toList, .value⟩

def prefixedByWord (setting : Setting) : Reader Parsed := do
  let s ← begin
  discard (oneWord ["typeof", "void", "delete", "await"])
  let e ← g.operand setting
  return ⟨← finish .other s [e], .value⟩

def angled (setting : Setting) : Reader Parsed := do
  let generic ← if g.dialect.typed then maybe (g.genericArrow setting) else pure none
  match generic with
  | some t => return ⟨t, .value⟩
  | none =>
    if g.dialect.markup then
      let s ← begin
      g.chainAll setting true s (← asValue g.markup)
    else
      let s ← begin
      mark "<"
      let t ← g.type
      mark ">"
      let e ← g.operand setting
      return ⟨← finish .other s [t, e], .value⟩

def operandHead (setting : Setting) : Reader Parsed := do
  if ← wordAhead "new" then g.construction setting <|> g.primary setting
  else g.primary setting

def updates : List String :=
  [">>>=", "<<=", ">>=", "**=", "&&=", "||=", "??=", "+=", "-=", "*=", "/=", "%=", "^=", "&=", "|="]

def assigned (setting : Setting) (s : Nat) (target : Parsed) : Reader Parsed := do
  let plain ← if target.reading.isTarget then maybe (markBefore "=" ['=', '>']) else pure none
  if plain.isSome then
    let e ← g.expression setting
    let t ← finish .other s [target.tree, e]
    return ⟨t, if target.reading.isPattern then .defaulted else .value⟩
  else if target.reading.isUpdatable then
    trivia
    let cs := (← get).rest
    match updates.find? fun u => u.toList.isPrefixOf cs with
    | some u =>
      advance u.length
      let e ← g.expression setting
      return ⟨← finish .other s [target.tree, e], .value⟩
    | none => failure
  else failure

def updated (setting : Setting) : Reader Unit := do
  check !(setting.mayEnd && (← lineEndsAhead))
  mark "++" <|> mark "--"

def updatedAll (setting : Setting) (s : Nat) : (fuel : Nat) → Parsed → Reader Parsed
  | 0, p => pure p
  | n + 1, p => do
    let up ← if p.reading.isValue then maybe (updated setting) else pure none
    match up with
    | none => return p
    | some _ =>
      let t ← finish .other s [p.tree]
      updatedAll setting s n (← g.chainAll setting true s ⟨t, .value⟩)

def anyOperand (setting : Setting) : Reader Parsed := do
  let s ← begin
  match (← get).rest with
  | '+' :: '+' :: _ =>
    advance 2
    let e ← g.operand setting
    return ⟨← finish .other s [e], .value⟩
  | '-' :: '-' :: _ =>
    advance 2
    let e ← g.operand setting
    return ⟨← finish .other s [e], .value⟩
  | '<' :: _ => g.angled setting
  | c :: _ =>
    if ['!', '~', '+', '-'].contains c then
      advance 1
      let e ← g.operand setting
      return ⟨← finish .other s [e], .value⟩
    else if ← wordAhead "yield" then g.yielding setting
    else
      match ← maybe (g.prefixedByWord setting) with
      | some p => return p
      | none =>
        let p ← g.chainAll setting true s (← g.operandHead setting)
        let p ← g.updatedAll setting s (← get).left p
        match ← maybe (g.assigned setting s p) with
        | some a => return a
        | none => return p
  | [] => failure

def binaryMarks : List String :=
  [">>>", "===", "!==", ">>", "<<", "**", "&&", "||", "??", "==", "!=", "<=", ">=", "<", ">", "*",
   "/", "%", "+", "-", "&", "|", "^"]

def assignable : List String :=
  [">>>", ">>", "<<", "**", "&&", "||", "??", "*", "/", "%", "+", "-", "&", "|", "^"]

def binaryOperator (setting : Setting) : Reader Unit := do
  trivia
  let cs := (← get).rest
  match binaryMarks.find? fun m => m.toList.isPrefixOf cs with
  | some m =>
    let next := (cs.drop m.length).head?
    check !(assignable.contains m && next == some '=')
    check !((m == "+" && next == some '+') || (m == "-" && next == some '-'))
    advance m.length
  | none =>
    let w ← bareName
    check (w == "instanceof" || (w == "in" && !setting.barIn))

def ascription (setting : Setting) : Reader Tree := do
  check g.dialect.typed
  check !(setting.mayEnd && (← lineEndsAhead))
  let w ← oneWord ["as", "satisfies"]
  let s ← begin
  let t ← match ← maybe (do check (w == "as"); word "const") with
    | some _ => pure []
    | none => pure [← g.type]
  let calls ← many g.arguments
  finish .other s (t ++ calls)

def branches (setting : Setting) : Reader (List Tree) := do
  trivia
  match (← get).rest with
  | '?' :: '?' :: _ => failure
  | '?' :: '.' :: c :: _ => check (isDecimal c)
  | _ => pure ()
  mark "?"
  let yes ← maybe (do
    let e ← g.expression .inner
    mark ":"
    return e)
  let yes ← match yes with
    | some e => pure e
    | none => do
      -- the colon may have been taken for the result type of an arrow function
      let e ← g.expression ⟨false, false, true⟩
      mark ":"
      pure e
  let no ← g.expression setting
  return [yes, no]

def anyExpression (setting : Setting) : Reader Parsed := do
  let s ← begin
  let first ← g.read (.operand setting)
  if first.reading.isValue then
    let rest ← many do
      match ← maybe (g.ascription setting) with
      | some t => return t
      | none =>
        binaryOperator setting
        g.operand setting
    let condition ← maybe (g.branches setting)
    if rest.isEmpty && condition.isNone then return first
    else return ⟨← finish .other s (first.tree :: rest ++ condition.getD []), .value⟩
  else return first

def anySequence (setting : Setting) : Reader Parsed := do
  let s ← begin
  let es ← commaItems (g.expression setting)
  match es with
  | [e] => return ⟨e, .value⟩
  | es => return ⟨← finish .other s es, .value⟩

end EdgeAudit.Script.Grammar

import EdgeAudit.Construct.Basic
import EdgeAudit.Script.Tree

namespace EdgeAudit.InTree

open Number Script

def nodeText (cs : Array Char) (t : Tree) : String :=
  String.ofList (cs.extract t.start t.stop).toList

def isName (cs : Array Char) (t : Option Tree) (name : String) : Bool :=
  match t with
  | some t => t.kind == .identifier && nodeText cs t == name
  | none => false

def memberName? (cs : Array Char) (object : String) (t : Option Tree) : Option String := do
  let t ← t
  if t.kind = .member ∧ isName cs (t.child? .object) object then
    (t.child? .property).map (nodeText cs)
  else none

def stringValue? (cs : Array Char) (t : Option Tree) : Option String := do
  let t ← t
  if t.kind = .string ∧ t.start + 2 ≤ t.stop then
    some (String.ofList (cs.extract (t.start + 1) (t.stop - 1)).toList)
  else none

def arguments (t : Tree) : List Tree :=
  ((t.child? .arguments).map (·.children)).getD []

def importSource? (t : Tree) : Option Tree :=
  match t.child? .source with
  | some s => some s
  -- the form `import x = require("y")`
  | none => (t.children.find? fun c => c.kind = .requireClause).bind fun c =>
    (c.child? .source).or (c.children.find? fun d => d.kind = .string)

def reference? (cs : Array Char) (t : Tree) : Option (Link × Option Tree) :=
  match t.kind with
  | .importStatement => some (.staticImport, importSource? t)
  | .call =>
    let callee := t.child? .callee
    if (callee.map (·.kind)) = some .importWord then some (.dynamicImport, (arguments t).head?)
    else if isName cs callee "require" then some (.require, (arguments t).head?)
    else none
  | _ => none

def occurrence (t : Tree) (construct : Construct) (value : String)
    (delay : Option Quantity) : Occurrence :=
  ⟨t.start, t.stop, construct, value, delay⟩

def moduleReference? (links : List Link) (cs : Array Char) (t : Tree) : Option Occurrence := do
  let (link, source) ← reference? cs t
  let value ← stringValue? cs source
  if links.contains link then some (occurrence t (.reference link) value none) else none

def moduleReferences (links : List Link) (cs : Array Char) (root : Tree) : List Occurrence :=
  root.walk.filterMap (moduleReference? links cs)

def evalCall? (cs : Array Char) (t : Tree) : Option Occurrence :=
  if t.kind = .call ∧ isName cs (t.child? .callee) "eval" then
    some (occurrence t .evalCall "eval" none)
  else if t.kind = .construction ∧ isName cs (t.child? .constructor) "Function" then
    some (occurrence t .newFunction "Function" none)
  else none

def evalCalls (cs : Array Char) (root : Tree) : List Occurrence :=
  root.walk.filterMap (evalCall? cs)

def wasmInstantiation? (cs : Array Char) (t : Tree) : Option Occurrence := do
  if t.kind = .construction then
    let name ← memberName? cs "WebAssembly" (t.child? .constructor)
    if wasmConstructors.contains name then
      some (occurrence t .wasmSync ("WebAssembly." ++ name) none)
    else none
  else none

def wasmInstantiations (cs : Array Char) (root : Tree) : List Occurrence :=
  root.walk.filterMap (wasmInstantiation? cs)

def timerName? (cs : Array Char) (t : Tree) : Option String :=
  if t.kind = .call then timerNames.find? (isName cs (t.child? .callee)) else none

def timerCall? (cs : Array Char) (t : Tree) : Option Occurrence := do
  let name ← timerName? cs t
  let second ← (arguments t)[1]?
  if second.kind = .number then
    let delay ← parse? (nodeText cs second)
    some (occurrence t .timer name (some delay))
  else none

def timerCalls (cs : Array Char) (root : Tree) : List Occurrence :=
  root.walk.filterMap (timerCall? cs)

def bufferCall? (cs : Array Char) (t : Tree) : Option Occurrence := do
  if t.kind = .call then
    let name ← memberName? cs "Buffer" (t.child? .callee)
    if bufferMethods.contains name then
      some (occurrence t .bufferCall ("Buffer." ++ name) none)
    else none
  else none

def bufferCalls (cs : Array Char) (root : Tree) : List Occurrence :=
  root.walk.filterMap (bufferCall? cs)

end EdgeAudit.InTree

import EdgeAudit.Construct.InText
import EdgeAudit.Construct.InTree
import EdgeAudit.Script.Parse
import EdgeAudit.Target

namespace EdgeAudit

open Script

/-- A file as rules see it. Without a tree, constructs are looked for in the text. -/
structure Source where
  path : String
  text : List Char
  target : Target
  strict : Bool
  tree : Option Tree

namespace Source

def treeOf? (path : String) (text : List Char) : Option Tree := do
  let dialect ← Dialect.ofPath? path
  Script.parse? dialect text

def read (path : String) (text : List Char) (target : Target) (strict : Bool) : Source :=
  ⟨path, text, target, strict, treeOf? path text⟩

def moduleReferences (s : Source) (links : List Link) : List Occurrence :=
  match s.tree with
  | some t => InTree.moduleReferences links s.text.toArray t
  | none => InText.moduleReferences links s.text

def evalCalls (s : Source) : List Occurrence :=
  match s.tree with
  | some t => InTree.evalCalls s.text.toArray t
  | none => InText.evalCalls s.text

def wasmInstantiations (s : Source) : List Occurrence :=
  match s.tree with
  | some t => InTree.wasmInstantiations s.text.toArray t
  | none => InText.wasmInstantiations s.text

def timerCalls (s : Source) : List Occurrence :=
  match s.tree with
  | some t => InTree.timerCalls s.text.toArray t
  | none => InText.timerCalls s.text

def bufferCalls (s : Source) : List Occurrence :=
  match s.tree with
  | some t => InTree.bufferCalls s.text.toArray t
  | none => InText.bufferCalls s.text

end Source

end EdgeAudit

import EdgeAudit.Yaml.Layout

namespace EdgeAudit.Yaml

/-- A node of a document, with the tag that it has been given. An alias inside the node that it
names is an enclosing node. -/
inductive Node
  | scalar (tag : Option String) (text : String) (plain : Bool)
  | sequence (tag : Option String) (items : List Node)
  | mapping (tag : Option String) (entries : List (Node × Node))
  | enclosing (isMapping : Bool)
  deriving Inhabited

def Node.empty : Node :=
  .scalar none "" true

inductive Anchored
  | complete (node : Node)
  | reading (isMapping : Bool)

structure Reading where
  tokens : List Token
  handles : List (String × String)
  anchors : List (String × Anchored)
  room : Nat

abbrev Composer := StateT Reading (Except YamlError)

namespace Composer

def fail {α : Type} : Composer α :=
  throw .malformed

def peek : Composer Token := do
  return (← get).tokens.headD .streamEnd

def pass : Composer Unit :=
  modify fun s => { s with tokens := s.tokens.drop 1 }

def at? (ts : List Token) : Composer Bool := do
  return ts.contains (← peek)

def expect (t : Token) : Composer Unit := do
  if (← peek) == t then pass else fail

def fullTag (handle : Option String) (suffix : String) : Composer String := do
  match handle with
  | none => return suffix
  | some h =>
    match (← get).handles.find? fun p => p.1 == h with
    | some (_, start) => return start ++ suffix
    | none => fail

def tag? : Composer (Option String) := do
  match ← peek with
  | .tag handle suffix =>
    pass
    return some (← fullTag handle suffix)
  | _ => return none

def anchor? : Composer (Option String) := do
  match ← peek with
  | .anchor name =>
    pass
    return some name
  | _ => return none

def properties : Composer (Option String × Option String) := do
  match ← anchor? with
  | some name => return (some name, ← tag?)
  | none =>
    let tag ← tag?
    return (← anchor?, tag)

def name (anchor : Option String) (what : Anchored) : Composer Unit := do
  match anchor with
  | none => pure ()
  | some a =>
    modify fun s => { s with anchors := (a, what) :: s.anchors.filter fun p => p.1 != a }

def aliased (a : String) : Composer Node := do
  match (← get).anchors.find? fun p => p.1 == a with
  | none => fail
  | some (_, .complete node) => return node
  | some (_, .reading isMapping) => return .enclosing isMapping

def finish (anchor : Option String) (node : Node) : Composer Node := do
  name anchor (.complete node)
  return node

def inside {α : Type} (read : Composer α) : Composer α := do
  match (← get).room with
  | 0 => throw .tooDeep
  | room + 1 =>
    modify fun s => { s with room }
    let read ← read
    modify fun s => { s with room := s.room + 1 }
    return read

def emptyContent (anchor tag : Option String) : Composer Node := do
  if anchor.isNone && tag.isNone then fail
  finish anchor (.scalar tag "" true)

end Composer

open Composer

inductive Place
  | block
  | blockOrList
  | flow
  deriving DecidableEq

mutual

def node : (fuel : Nat) → Place → Composer Node
  | 0, _ => fail
  | n + 1, place => do
    match ← peek with
    | .alias a =>
      pass
      aliased a
    | _ =>
      let (anchor, tag) ← properties
      if let some a := anchor then
        if (← get).anchors.any fun p => p.1 == a then fail
      content n place anchor tag

def content : (fuel : Nat) → Place → Option String → Option String → Composer Node
  | 0, _, _, _ => fail
  | n + 1, place, anchor, tag => do
    let t ← peek
    if place == .blockOrList && t == .blockEntry then
      name anchor (.reading false)
      let items ← inside (indentlessItems n [])
      finish anchor (.sequence tag items)
    else match t with
      | .scalar text plain =>
        pass
        finish anchor (.scalar tag text plain)
      | .flowSequenceStart =>
        pass
        name anchor (.reading false)
        let items ← inside (flowItems n true [])
        finish anchor (.sequence tag items)
      | .flowMappingStart =>
        pass
        name anchor (.reading true)
        let entries ← inside (flowEntries n true [])
        finish anchor (.mapping tag entries)
      | .blockSequenceStart =>
        if place == .flow then emptyContent anchor tag
        else
          pass
          name anchor (.reading false)
          let items ← inside (blockItems n [])
          finish anchor (.sequence tag items)
      | .blockMappingStart =>
        if place == .flow then emptyContent anchor tag
        else
          pass
          name anchor (.reading true)
          let entries ← inside (blockEntries n [])
          finish anchor (.mapping tag entries)
      | _ => emptyContent anchor tag

def blockItems : (fuel : Nat) → List Node → Composer (List Node)
  | 0, _ => fail
  | n + 1, items => do
    if ← at? [.blockEntry] then
      pass
      let item ← if ← at? [.blockEntry, .blockEnd] then pure Node.empty else node n .block
      blockItems n (items ++ [item])
    else
      expect .blockEnd
      return items

def indentlessItems : (fuel : Nat) → List Node → Composer (List Node)
  | 0, _ => fail
  | n + 1, items => do
    if ← at? [.blockEntry] then
      pass
      let item ← if ← at? [.blockEntry, .key, .value, .blockEnd] then pure Node.empty
        else node n .block
      indentlessItems n (items ++ [item])
    else return items

def blockEntries : (fuel : Nat) → List (Node × Node) → Composer (List (Node × Node))
  | 0, _ => fail
  | n + 1, entries => do
    if ← at? [.key] then
      pass
      let key ← if ← at? [.key, .value, .blockEnd] then pure Node.empty else node n .blockOrList
      let value ← if ← at? [.value] then do
          pass
          if ← at? [.key, .value, .blockEnd] then pure Node.empty else node n .blockOrList
        else pure Node.empty
      blockEntries n (entries ++ [(key, value)])
    else
      expect .blockEnd
      return entries

def flowItems : (fuel : Nat) → (first : Bool) → List Node → Composer (List Node)
  | 0, _, _ => fail
  | n + 1, first, items => do
    if ← at? [.flowSequenceEnd] then
      pass
      return items
    if !first then expect .flowEntry
    if ← at? [.key] then
      pass
      let pair ← inside do
        let key ← if ← at? [.value, .flowEntry, .flowSequenceEnd] then pure Node.empty
          else node n .flow
        let value ← if ← at? [.value] then do
            pass
            if ← at? [.flowEntry, .flowSequenceEnd] then pure Node.empty else node n .flow
          else pure Node.empty
        return (key, value)
      flowItems n false (items ++ [.mapping none [pair]])
    else if ← at? [.flowSequenceEnd] then
      pass
      return items
    else
      let item ← node n .flow
      flowItems n false (items ++ [item])

def flowEntries : (fuel : Nat) → (first : Bool) → List (Node × Node) →
    Composer (List (Node × Node))
  | 0, _, _ => fail
  | n + 1, first, entries => do
    if ← at? [.flowMappingEnd] then
      pass
      return entries
    if !first then expect .flowEntry
    if ← at? [.key] then
      pass
      let key ← if ← at? [.value, .flowEntry, .flowMappingEnd] then pure Node.empty
        else node n .flow
      let value ← if ← at? [.value] then do
          pass
          if ← at? [.flowEntry, .flowMappingEnd] then pure Node.empty else node n .flow
        else pure Node.empty
      flowEntries n false (entries ++ [(key, value)])
    else if ← at? [.flowMappingEnd] then
      pass
      return entries
    else
      let key ← node n .flow
      flowEntries n false (entries ++ [(key, Node.empty)])

end

def directives : (fuel : Nat) → (version : Bool) → List (String × String) →
    Composer (List (String × String))
  | 0, _, _ => fail
  | n + 1, version, handles => do
    match ← peek with
    | .directive (.version major) =>
      pass
      if version || major != 1 then fail
      directives n true handles
    | .directive (.tag handle start) =>
      pass
      if handles.any fun p => p.1 == handle then fail
      directives n version (handles ++ [(handle, start)])
    | .directive .other =>
      pass
      directives n version handles
    | _ => return handles

def defaultHandles : List (String × String) :=
  [("!", "!"), ("!!", "tag:yaml.org,2002:")]

def passEnds : (fuel : Nat) → Composer Unit
  | 0 => pure ()
  | n + 1 => do
    if ← at? [.documentEnd] then
      pass
      passEnds n

def documentRoot (fuel : Nat) : Composer Node := do
  match ← peek with
  | .directive _ => return Node.empty
  | .documentStart => return Node.empty
  | .documentEnd => return Node.empty
  | .streamEnd => return Node.empty
  | _ => node fuel .block

def markedDocument (fuel : Nat) : Composer Node := do
  let handles ← directives fuel false []
  modify fun s => { s with handles := handles ++ defaultHandles }
  expect .documentStart
  documentRoot fuel

def document (fuel : Nat) : Composer (Option Node) := do
  if ← at? [.streamEnd] then return none
  let root ← match ← peek with
    | .directive _ => markedDocument fuel
    | .documentStart => markedDocument fuel
    | _ => node fuel .block
  passEnds fuel
  expect .streamEnd
  return some root

/-- The document of a text, with room for so many collections inside each other. -/
def Node.ofText (room : Nat) (text : List Char) : Except YamlError (Option Node) := do
  let ts ← tokens text
  let (root, _) ← StateT.run (document (8 * ts.length + 16)) ⟨ts, defaultHandles, [], room⟩
  return root

end EdgeAudit.Yaml

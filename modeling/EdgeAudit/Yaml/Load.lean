import EdgeAudit.Yaml.Atom

namespace EdgeAudit.Yaml

def Node.isKind (n : Node) (kind : Kind) : Bool :=
  n.kind? == some kind

mutual

def scalarText : Node → Except YamlError String
  | .scalar _ text _ => .ok text
  | .mapping _ entries => defaultText entries
  | .enclosing true => .error .endless
  | _ => .error .badNode

def defaultText : List (Node × Node) → Except YamlError String
  | [] => .error .badNode
  | (key, value) :: entries =>
    if key.isKind .default then scalarText value else defaultText entries

end

def Node.isScalar : Node → Bool
  | .scalar _ _ _ => true
  | _ => false

def atomOf (kind : Kind) (own : Bool) (text : String) : Except YamlError Value :=
  match kind with
  | .null => .ok .null
  | .bool => .bool <$> boolOf text
  | .int => .int <$> intOf text
  | .float => .real <$> floatOf text
  | .binary => .bytes <$> bytesOf text
  | .timestamp => if own then timeOf text else .error .notAText
  | .text => .ok (.text text)
  | _ => .error .badNode

def Kind.isAtom : Kind → Bool
  | .null => true
  | .bool => true
  | .int => true
  | .float => true
  | .binary => true
  | .timestamp => true
  | .text => true
  | _ => false

def Kind.isCollection : Kind → Bool
  | .sequence => true
  | .mapping => true
  | .set => true
  | .orderedMap => true
  | .pairs => true
  | _ => false

def entryOf (key value : Value) : Except YamlError (Value × Value) :=
  if key.isKey then .ok (key, value) else .error .badNode

mutual

def valueOf : Node → Except YamlError Value
  | .scalar tag text plain =>
    match Node.kind? (.scalar tag text plain) with
    | none => .error .badNode
    | some kind => atomOf kind true text
  | .sequence tag items =>
    match Node.kind? (.sequence tag []) with
    | some .sequence => .list <$> valuesOf items
    | some .orderedMap => .list <$> pairsOf items
    | some .pairs => .list <$> pairsOf items
    | _ => .error .badNode
  | .mapping tag entries =>
    match Node.kind? (.mapping tag []) with
    | some .mapping => do
      let (merged, own) ← entriesOf entries
      return Value.ofEntries (merged ++ own)
    | some .set => do
      let (merged, own) ← entriesOf entries
      match Value.ofEntries (merged ++ own) with
      | .mapping es => return .set (es.map (·.1))
      | other => return other
    | some kind =>
      if kind.isAtom then do
        let text ← defaultText entries
        atomOf kind false text
      else .error .badNode
    | none => .error .badNode
  | .enclosing isMapping => .ok (.loop isMapping)

def valuesOf : List Node → Except YamlError (List Value)
  | [] => .ok []
  | n :: ns => do
    let v ← valueOf n
    let vs ← valuesOf ns
    return v :: vs

def pairsOf : List Node → Except YamlError (List Value)
  | [] => .ok []
  | .mapping _ [(key, value)] :: ns => do
    let k ← valueOf key
    let v ← valueOf value
    let rest ← pairsOf ns
    return .pair k v :: rest
  | _ => .error .badNode

def entriesOf : List (Node × Node) →
    Except YamlError (List (Value × Value) × List (Value × Value))
  | [] => .ok ([], [])
  | (key, value) :: entries =>
    if key.isKind .merge then do
      let here ← mergedOf value
      let (merged, own) ← entriesOf entries
      return (here ++ merged, own)
    else do
      let k ← if key.isKind .default then Value.text <$> scalarText key else valueOf key
      let v ← valueOf value
      let entry ← entryOf k v
      let (merged, own) ← entriesOf entries
      return (merged, entry :: own)

def mergedOf : Node → Except YamlError (List (Value × Value))
  | .mapping _ entries => do
    let (merged, own) ← entriesOf entries
    return merged ++ own
  | .sequence _ items => mergedAll items
  | .enclosing true => .ok []
  | _ => .error .badNode

def mergedAll : List Node → Except YamlError (List (Value × Value))
  | [] => .ok []
  | .mapping _ entries :: ns => do
    let (merged, own) ← entriesOf entries
    let rest ← mergedAll ns
    return rest ++ merged ++ own
  | .enclosing true :: ns => mergedAll ns
  | _ => .error .badNode

end

abbrev Faults := List (List YamlError)

def Faults.join : Faults → Faults → Faults
  | [], later => later
  | first, [] => first
  | f :: first, l :: later => (f ++ l) :: join first later

def Node.fault? (n : Node) : Option YamlError :=
  match n.kind? with
  | none => some .badNode
  | some kind =>
    if kind.isCollection then none
    else match scalarText n with
      | .error e => some e
      | .ok text =>
        match atomOf kind n.isScalar text with
        | .error e => some e
        | .ok _ => none

def Node.keyFault? (key : Node) : Option YamlError :=
  if key.isKind .default then
    match scalarText key with
    | .error e => some e
    | .ok _ => none
  else if key.kind?.any Kind.isCollection then some .badNode
  else key.fault?

mutual

def mergesWell : List (Node × Node) → Bool
  | [] => true
  | (key, value) :: entries => (!key.isKind .merge || isMergeable value) && mergesWell entries

def isMergeable : Node → Bool
  | .mapping _ entries => mergesWell entries
  | .sequence _ items => allMergeable items
  | .enclosing isMapping => isMapping
  | _ => false

def allMergeable : List Node → Bool
  | [] => true
  | .mapping _ entries :: ns => mergesWell entries && allMergeable ns
  | .enclosing true :: ns => allMergeable ns
  | _ => false

end

mutual

def heldFaults : Node → Faults
  | .scalar tag text plain =>
    match Node.kind? (.scalar tag text plain) with
    | some kind => if kind.isCollection then [[.badNode]] else []
    | none => []
  | .sequence tag items =>
    match Node.kind? (.sequence tag []) with
    | some .sequence => itemFaults items
    | some .orderedMap => pairFaults items
    | some .pairs => pairFaults items
    | some kind => if kind.isCollection then [[.badNode]] else []
    | none => []
  | .mapping tag entries =>
    match Node.kind? (.mapping tag []) with
    | some .mapping => mappingFaults entries
    | some .set => mappingFaults entries
    | some kind => if kind.isCollection then [[.badNode]] else []
    | none => []
  | .enclosing _ => []

def itemFaults : List Node → Faults
  | [] => []
  | n :: ns => Faults.join (n.fault?.toList :: heldFaults n) (itemFaults ns)

def pairFaults : List Node → Faults
  | [] => []
  | .mapping _ [(key, value)] :: ns =>
    Faults.join (key.fault?.toList :: heldFaults key)
      (Faults.join (value.fault?.toList :: heldFaults value) (pairFaults ns))
  | _ => [[.badNode]]

def mappingFaults (entries : List (Node × Node)) : Faults :=
  let (merged, own) := entryFaults entries
  Faults.join [if mergesWell entries then [] else [.badNode]] (Faults.join merged own)

def entryFaults : List (Node × Node) → Faults × Faults
  | [] => ([], [])
  | (key, value) :: entries =>
    let (merged, own) := entryFaults entries
    if key.isKind .merge then (Faults.join (mergedFaults value) merged, own)
    else
      (merged, Faults.join [key.keyFault?.toList]
        (Faults.join (value.fault?.toList :: heldFaults value) own))

def mergedFaults : Node → Faults
  | .mapping _ entries =>
    let (merged, own) := entryFaults entries
    Faults.join merged own
  | .sequence _ items => mergedAllFaults items
  | _ => []

def mergedAllFaults : List Node → Faults
  | [] => []
  | .mapping _ entries :: ns =>
    let (merged, own) := entryFaults entries
    Faults.join (mergedAllFaults ns) (Faults.join merged own)
  | _ :: ns => mergedAllFaults ns

end

/-- The faults of a node and of all below it, in the order in which they come up. -/
def Node.faults (n : Node) : List YamlError :=
  (n.fault?.toList :: heldFaults n).flatten

/-- The value of a text with one document; no document is no value. Of several faults the first to come
up counts. -/
def load (room : Nat) (text : List Char) : Except YamlError Value := do
  match ← Node.ofText room text with
  | none => return .null
  | some root =>
    match root.faults.head? with
    | some fault => throw fault
    | none => valueOf root

end EdgeAudit.Yaml

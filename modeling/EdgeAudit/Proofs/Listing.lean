import EdgeAudit.Construct.InText
import EdgeAudit.Construct.InTree
import Mathlib.Data.List.Forall2

namespace EdgeAudit.Listing

open Number Script Text

def isIdentChar (c : Char) : Bool :=
  c.isAlphanum || c == '_' || c == '$'

def isSpecifierChar (c : Char) : Bool :=
  c.isAlphanum || ['@', '/', '.', '_', ':', '-'].contains c

structure Ident where
  chars : List Char
  nonempty : chars ≠ []
  plain : ∀ c ∈ chars, isIdentChar c = true
  ne_type : chars ≠ "type".toList

structure Quoted where
  quote : Char
  chars : List Char
  quote_cases : quote = '\'' ∨ quote = '"'
  nonempty : chars ≠ []
  plain : ∀ c ∈ chars, isSpecifierChar c = true

def Quoted.text (q : Quoted) : List Char :=
  q.quote :: (q.chars ++ [q.quote])

structure Decimal where
  digits : List Char
  nonempty : digits ≠ []
  plain : ∀ c ∈ digits, c.isDigit = true
  zero : digits.head? = some '0' → digits = ['0']
  short : digits.length ≤ maxWholeDigits

inductive Taken
  | single (name : Ident)
  | whole (name : Ident)
  | listed (first : Ident) (more : List Ident)
  | nothing

inductive Use
  | require (source : Quoted)
  | load (source : Quoted)
  | evaluate (code : Ident)
  | function (code : Ident)
  | wasm (kind : { name // name ∈ wasmConstructors }) (code : Ident)
  | buffer (method : { name // name ∈ bufferMethods }) (content : Ident)
  | timer (name : { name // name ∈ timerNames }) (callback : Ident) (delay : Decimal)

/-- A line: an import, or a statement that may bind its result to a constant. -/
inductive Line
  | imports (taken : Taken) (source : Quoted)
  | statement (binding : Option Ident) (use : Use)

def writeMore : List Ident → List Char → List Char
  | [], z => z
  | name :: more, z => ',' :: ' ' :: (name.chars ++ writeMore more z)

def Taken.write : Taken → List Char → List Char
  | single name, z => name.chars ++ ' ' :: ("from".toList ++ ' ' :: z)
  | whole name, z => '*' :: ' ' :: ("as".toList ++ ' ' ::
      (name.chars ++ ' ' :: ("from".toList ++ ' ' :: z)))
  | listed first more, z => '\x7b' :: ' ' ::
      (first.chars ++ writeMore more (' ' :: '\x7d' :: ' ' :: ("from".toList ++ ' ' :: z)))
  | nothing, z => z

namespace Use

def words : Use → List String
  | require _ => ["require"]
  | load _ => ["import"]
  | evaluate _ => ["eval"]
  | function _ => ["new", "Function"]
  | wasm kind _ => ["new", "WebAssembly." ++ kind.1]
  | buffer method _ => ["Buffer." ++ method.1]
  | timer name _ _ => [name.1]

def argument : Use → List Char
  | require source => source.text
  | load source => source.text
  | evaluate code => code.chars
  | function code => code.chars
  | wasm _ code => code.chars
  | buffer _ content => content.chars
  | timer _ callback delay => callback.chars ++ ',' :: ' ' :: delay.digits

end Use

def spaced : List String → List Char → List Char
  | [], z => z
  | [w], z => w.toList ++ z
  | w :: v :: words, z => w.toList ++ ' ' :: spaced (v :: words) z

def Use.write (use : Use) (z : List Char) : List Char :=
  spaced use.words ('(' :: (use.argument ++ ')' :: ';' :: z))

def writeBinding : Option Ident → List Char → List Char
  | none, z => z
  | some name, z => "const".toList ++ ' ' :: (name.chars ++ ' ' :: '=' :: ' ' :: z)

namespace Line

def write : Line → List Char → List Char
  | imports taken source, z => "import".toList ++ ' ' :: taken.write (source.text ++ ';' :: z)
  | statement binding use, z => writeBinding binding (use.write z)

def text (l : Line) : List Char :=
  l.write []

def lead : Line → Nat
  | statement (some name) _ => name.chars.length + 9
  | _ => 0

end Line

def program (closed : Bool) : List Line → List Char
  | [] => []
  | [l] => l.write (if closed then ['\n'] else [])
  | l :: m :: ls => l.write ('\n' :: program closed (m :: ls))

def placed (pos : Nat) : List Line → List (Nat × Line)
  | [] => []
  | l :: ls => (pos, l) :: placed (pos + l.text.length + 1) ls

def Use.construct : Use → Construct
  | require _ => .reference .require
  | load _ => .reference .dynamicImport
  | evaluate _ => .evalCall
  | function _ => .newFunction
  | wasm _ _ => .wasmSync
  | buffer _ _ => .bufferCall
  | timer _ _ _ => .timer

def Use.value : Use → String
  | require source => String.ofList source.chars
  | load source => String.ofList source.chars
  | evaluate _ => "eval"
  | function _ => "Function"
  | wasm kind _ => "WebAssembly." ++ kind.1
  | buffer method _ => "Buffer." ++ method.1
  | timer name _ _ => name.1

def Use.delay : Use → Option Quantity
  | timer _ _ delay => parse? (String.ofList delay.digits)
  | _ => none

namespace Line

def construct : Line → Construct
  | imports _ _ => .reference .staticImport
  | statement _ use => use.construct

def value : Line → String
  | imports _ source => String.ofList source.chars
  | statement _ use => use.value

def delay : Line → Option Quantity
  | imports _ _ => none
  | statement _ use => use.delay

def occurrence (pos : Nat) (l : Line) : Occurrence :=
  ⟨pos + l.lead, pos + l.lead, l.construct, l.value, l.delay⟩

end Line

section Write

theorem writeMore_append (more : List Ident) (y z : List Char) :
    writeMore more (y ++ z) = writeMore more y ++ z := by
  induction more with
  | nil => rfl
  | cons name more ih => simp [writeMore, ih]

theorem Taken.write_append (taken : Taken) (y z : List Char) :
    taken.write (y ++ z) = taken.write y ++ z := by
  cases taken with
  | single name => simp [write]
  | whole name => simp [write]
  | listed first more => simp [write, ← writeMore_append]
  | nothing => rfl

theorem spaced_append (words : List String) (y z : List Char) :
    spaced words (y ++ z) = spaced words y ++ z := by
  fun_induction spaced words y with
  | case1 => rfl
  | case2 w y => rw [spaced, List.append_assoc]
  | case3 w v words y ih => rw [spaced, ih, List.append_assoc, List.cons_append]

theorem Use.write_append (use : Use) (y z : List Char) : use.write (y ++ z) = use.write y ++ z := by
  rw [write, write, ← spaced_append]
  simp

theorem writeBinding_some (name : Ident) (z : List Char) : writeBinding (some name) z =
    "const".toList ++ ' ' :: (name.chars ++ ' ' :: '=' :: ' ' :: z) := rfl

theorem writeBinding_append (binding : Option Ident) (y z : List Char) :
    writeBinding binding (y ++ z) = writeBinding binding y ++ z := by
  cases binding with
  | none => rfl
  | some name =>
    rw [writeBinding_some, writeBinding_some]
    simp

theorem writeBinding_length (binding : Option Ident) (use : Use) :
    (writeBinding binding []).length = (Line.statement binding use).lead := by
  cases binding with
  | none => rfl
  | some name =>
    rw [writeBinding_some]
    simp [Line.lead]

theorem Line.write_imports (taken : Taken) (source : Quoted) (z : List Char) :
    (imports taken source).write z =
      "import".toList ++ ' ' :: taken.write (source.text ++ ';' :: z) := rfl

theorem Line.write_eq (l : Line) (z : List Char) : l.write z = l.text ++ z := by
  cases l with
  | imports taken source =>
    rw [text, write_imports, write_imports, List.append_assoc, List.cons_append,
      ← Taken.write_append]
    simp
  | statement binding use =>
    show writeBinding binding (use.write z) = writeBinding binding (use.write []) ++ z
    rw [← writeBinding_append, ← Use.write_append, List.nil_append]

end Write

def IsIdent (t : Option Tree) (start : Nat) (word : List Char) : Prop :=
  ∃ u, t = some u ∧ u.kind = .identifier ∧ u.start = start ∧ u.stop = start + word.length

def IsString (t : Option Tree) (start : Nat) (source : Quoted) : Prop :=
  ∃ u, t = some u ∧ u.kind = .string ∧ u.start = start ∧ u.stop = start + source.text.length

def IsMember (t : Option Tree) (start : Nat) (object property : List Char) : Prop :=
  ∃ u, t = some u ∧ u.kind = .member ∧ IsIdent (u.child? .object) start object ∧
    ∃ v, u.child? .property = some v ∧ v.start = start + object.length + 1 ∧
      v.stop = start + object.length + 1 + property.length

def Use.IsNode (start : Nat) (t : Tree) : Use → Prop
  | require source => t.kind = .call ∧ IsIdent (t.child? .callee) start "require".toList ∧
      IsString (InTree.arguments t).head? (start + 8) source
  | load source => t.kind = .call ∧ (t.child? .callee).map (·.kind) = some .importWord ∧
      IsString (InTree.arguments t).head? (start + 7) source
  | evaluate _ => t.kind = .call ∧ IsIdent (t.child? .callee) start "eval".toList
  | function _ => t.kind = .construction ∧
      IsIdent (t.child? .constructor) (start + 4) "Function".toList
  | wasm kind _ => t.kind = .construction ∧
      IsMember (t.child? .constructor) (start + 4) "WebAssembly".toList kind.1.toList
  | buffer method _ => t.kind = .call ∧
      IsMember (t.child? .callee) start "Buffer".toList method.1.toList
  | timer name callback delay => t.kind = .call ∧ IsIdent (t.child? .callee) start name.1.toList ∧
      ∃ u, (InTree.arguments t)[1]? = some u ∧ u.kind = .number ∧
        u.start = start + name.1.toList.length + callback.chars.length + 3 ∧
        u.stop = u.start + delay.digits.length

def Line.IsNode (pos : Nat) (t : Tree) (l : Line) : Prop :=
  t.start = pos + l.lead ∧
    match l with
    | imports taken source => t.kind = .importStatement ∧
        IsString (t.child? .source) (pos + 7 + (taken.write []).length) source
    | statement _ use => use.IsNode (pos + l.lead) t

def isSite (t : Tree) : Bool :=
  t.kind == .importStatement || t.kind == .call || t.kind == .construction

/-- The imports, calls and constructions of a tree are, in the order of the text, one for each line,
and each has the parts that are written in its line. -/
def Parsed (root : Tree) (lines : List Line) : Prop :=
  List.Forall₂ (fun l t => l.2.IsNode l.1 t) (placed 0 lines) (root.preorder.filter isSite)

end EdgeAudit.Listing

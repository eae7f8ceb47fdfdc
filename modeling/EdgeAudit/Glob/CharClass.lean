namespace EdgeAudit.Glob

structure CharClass where
  negated : Bool
  ranges : List (Char × Char)
  deriving DecidableEq, Repr

namespace CharClass

def contains (k : CharClass) (c : Char) : Bool :=
  (k.ranges.any fun r => r.1 ≤ c && c ≤ r.2) != k.negated

def named : List (String × List (Char × Char)) :=
  [("alnum", [('0', '9'), ('A', 'Z'), ('a', 'z')]),
   ("alpha", [('A', 'Z'), ('a', 'z')]),
   ("ascii", [('\x00', '\x7f')]),
   ("blank", [(' ', ' '), ('\t', '\t')]),
   ("cntrl", [('\x00', '\x1f'), ('\x7f', '\x7f')]),
   ("digit", [('0', '9')]),
   ("graph", [('\x21', '\x7e')]),
   ("lower", [('a', 'z')]),
   ("print", [('\x20', '\x7e')]),
   ("punct", [('\x21', '\x2f'), ('\x3a', '\x40'), ('\x5b', '\x60'), ('\x7b', '\x7e')]),
   ("space", [('\x09', '\x0d'), (' ', ' ')]),
   ("upper", [('A', 'Z')]),
   ("word", [('0', '9'), ('A', 'Z'), ('a', 'z'), ('_', '_')]),
   ("xdigit", [('0', '9'), ('A', 'F'), ('a', 'f')])]

def named? (cs : List Char) : Option (List (Char × Char) × List Char) :=
  named.findSome? fun (name, ranges) =>
    let written := [':'] ++ name.toList ++ [':', ']']
    if written.isPrefixOf cs then some (ranges, cs.drop written.length) else none

def member? : List Char → Option (Char × List Char)
  | '\\' :: c :: rest => if c = '/' then none else some (c, rest)
  | ['\\'] => none
  | c :: rest => if c = '/' then none else some (c, rest)
  | [] => none

def readMembers : (fuel : Nat) → (ranges : List (Char × Char)) → (last : Option Char) → List Char →
    Option (List (Char × Char) × List Char)
  | 0, _, _, _ => none
  | _, _, _, [] => none
  | n + 1, ranges, last, c :: cs =>
    let single : Option (List (Char × Char) × List Char) :=
      match member? (c :: cs) with
      | some (c, rest) => readMembers n ((c, c) :: ranges) (some c) rest
      | none => none
    match c with
    | ']' => some (ranges, cs)
    | '[' =>
      match named? cs with
      | some (more, rest) => readMembers n (more ++ ranges) none rest
      | none => single
    | '-' =>
      match last with
      | none => single
      | some a =>
        match cs with
        | ']' :: rest => some (('-', '-') :: ranges, rest)
        | '[' :: rest =>
          match named? rest with
          | some (more, rest) => readMembers n (('-', '-') :: more ++ ranges) none rest
          | none => readMembers n (if a ≤ '[' then (a, '[') :: ranges else ranges.tail) none rest
        | _ =>
          match member? cs with
          | some (b, rest) =>
            readMembers n (if a ≤ b then (a, b) :: ranges else ranges.tail) none rest
          | none => none
    | _ => single

def read? (cs : List Char) : Option (CharClass × List Char) := do
  let (negated, cs) := match cs with
    | '!' :: rest => (true, rest)
    | '^' :: rest => (true, rest)
    | _ => (false, cs)
  let fuel := cs.length + 1
  let (ranges, rest) ← match cs with
    | '-' :: rest => readMembers fuel [('-', '-')] (some '-') rest
    | ']' :: rest => readMembers fuel [(']', ']')] (some ']') rest
    | _ => readMembers fuel [] none cs
  return (⟨negated, ranges⟩, rest)

end CharClass

end EdgeAudit.Glob

namespace EdgeAudit.Text

/-- Patterns of text. Where several readings fit, the first in the order given here counts. -/
inductive Pattern
  | done
  | one (p : Char → Bool)
  | text (s : List Char)
  | run (p : Char → Bool) (least : Nat)
  | fewest (p : Char → Bool)
  | seq (a b : Pattern)
  | either (a b : Pattern)
  | many (a : Pattern)
  | keep (slot : Nat) (a : Pattern)
  | notAfter (p : Char → Bool)
  | notBefore (a : Pattern)
  | edge (p : Char → Bool)

structure Spot where
  before : Option Char
  pos : Nat
  rest : List Char
  kept : List (Nat × List Char)

namespace Spot

def first (cs : List Char) : Spot :=
  ⟨none, 0, cs, []⟩

def along (p : Char → Bool) (kept : List (Nat × List Char)) :
    Option Char → Nat → List Char → List Spot
  | before, pos, [] => [⟨before, pos, [], kept⟩]
  | before, pos, c :: cs =>
    ⟨before, pos, c :: cs, kept⟩ ::
      (if p c then along p kept (some c) (pos + 1) cs else [])

def after? (s : Spot) (cs : List Char) : Option Spot :=
  if cs.isPrefixOf s.rest then
    some { s with
      before := (cs.getLast?).or s.before
      pos := s.pos + cs.length
      rest := s.rest.drop cs.length }
  else none

def get? (s : Spot) (slot : Nat) : Option String :=
  (s.kept.find? fun k => k.1 == slot).map fun k => String.ofList k.2

end Spot

namespace Pattern

def iterate {β : Type} (step : (Spot → Option β) → Spot → Option β) (k : Spot → Option β) :
    (fuel : Nat) → Spot → Option β
  | 0, s => k s
  | n + 1, s =>
    -- a round that reads nothing would repeat for ever
    match step (fun t => if s.pos < t.pos then iterate step k n t else none) s with
    | some b => some b
    | none => k s

/-- Reads a pattern and goes on with `k`; other readings are tried until `k` succeeds. -/
def read {β : Type} : Pattern → (Spot → Option β) → Spot → Option β
  | done, k, s => k s
  | one p, k, s =>
    match s.rest with
    | c :: cs => if p c then k { s with before := some c, pos := s.pos + 1, rest := cs } else none
    | [] => none
  | text cs, k, s => (s.after? cs).bind k
  | run p least, k, s =>
    ((Spot.along p s.kept s.before s.pos s.rest).drop least).reverse.findSome? k
  | fewest p, k, s => (Spot.along p s.kept s.before s.pos s.rest).findSome? k
  | seq a b, k, s => read a (read b k) s
  | either a b, k, s =>
    match read a k s with
    | some r => some r
    | none => read b k s
  | many a, k, s => iterate (read a) k s.rest.length s
  | keep slot a, k, s =>
    read a (fun t => k { t with kept := (slot, s.rest.take (t.pos - s.pos)) :: t.kept }) s
  | notAfter p, k, s => if (s.before.map p).getD false then none else k s
  | notBefore a, k, s =>
    match read a some s with
    | some _ => none
    | none => k s
  | edge p, k, s =>
    if (s.before.map p).getD false != (s.rest.head?.map p).getD false then k s else none

def all : List Pattern → Pattern
  | [] => done
  | [a] => a
  | a :: as => seq a (all as)

def oneOf : List Pattern → Pattern
  | [] => notBefore done
  | [a] => a
  | a :: as => either a (oneOf as)

def optional (a : Pattern) : Pattern :=
  either a done

def word (s : String) : Pattern :=
  text s.toList

def readAll? (p : Pattern) (cs : List Char) : Option Spot :=
  p.read (fun s => if s.rest.isEmpty then some s else none) (Spot.first cs)

def fits (p : Pattern) (cs : List Char) : Bool :=
  (p.readAll? cs).isSome

structure Found where
  start : Nat
  after : Spot

def findFrom (p : Pattern) : (fuel : Nat) → Spot → List Found
  | 0, _ => []
  | n + 1, s =>
    match p.read some s with
    | some t =>
      if s.pos < t.pos then ⟨s.pos, t⟩ :: findFrom p n { t with kept := [] }
      else next n s
    | none => next n s
where
  next (n : Nat) (s : Spot) : List Found :=
    match s.rest with
    | [] => []
    | c :: cs => findFrom p n { s with before := some c, pos := s.pos + 1, rest := cs }

def findAll (p : Pattern) (cs : List Char) : List Found :=
  p.findFrom (cs.length + 1) (Spot.first cs)

end Pattern

end EdgeAudit.Text

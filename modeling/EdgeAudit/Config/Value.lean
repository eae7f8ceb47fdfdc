import EdgeAudit.Assoc
import EdgeAudit.Config.Date
import EdgeAudit.Number.Literal
import EdgeAudit.Text.Json
import EdgeAudit.Text.Quoted

namespace EdgeAudit

open Number

/-- A value of a configuration document. The entries of a mapping keep their order, and a list or
mapping that holds itself has a loop in its own place. -/
inductive Value
  | null
  | bool (value : Bool)
  | int (value : Int)
  | real (value : Binary64)
  | text (value : String)
  | bytes (value : List UInt8)
  | date (value : Date)
  | moment (value : Moment)
  | list (items : List Value)
  | set (items : List Value)
  | pair (first second : Value)
  | mapping (entries : List (Value × Value))
  | loop (ofMapping : Bool)
  deriving Inhabited

namespace Value

def quotedByte (mark : Char) (b : UInt8) : List Char :=
  let c := Char.ofNat b.toNat
  if c = mark ∨ c = '\\' then ['\\', c]
  else if c = '\t' then ['\\', 't']
  else if c = '\n' then ['\\', 'n']
  else if c = '\r' then ['\\', 'r']
  else if ' ' ≤ c ∧ c ≤ '~' then [c]
  else '\\' :: 'x' :: Text.hexDigits 2 b.toNat

def bytesWritten (bs : List UInt8) : String :=
  let mark := Text.quoteMark (bs.map fun b => Char.ofNat b.toNat)
  String.ofList ('b' :: mark :: bs.flatMap (quotedByte mark) ++ [mark])

mutual

def written : Value → String
  | .null => "None"
  | .bool true => "True"
  | .bool false => "False"
  | .int n => toString n
  | .real x => x.text
  | .text s => Text.quoted s
  | .bytes bs => bytesWritten bs
  | .date d => "datetime.date(" ++ d.fields ++ ")"
  | .moment t => t.written
  | .list xs => "[" ++ String.intercalate ", " (writtenItems xs) ++ "]"
  | .set [] => "set()"
  | .set (x :: xs) => "\x7b" ++ String.intercalate ", " (written x :: writtenItems xs) ++ "\x7d"
  | .pair a b => "(" ++ written a ++ ", " ++ written b ++ ")"
  | .mapping es => "\x7b" ++ String.intercalate ", " (writtenEntries es) ++ "\x7d"
  | .loop ofMapping => if ofMapping then "\x7b...\x7d" else "[...]"

def writtenItems : List Value → List String
  | [] => []
  | x :: xs => written x :: writtenItems xs

def writtenEntries : List (Value × Value) → List String
  | [] => []
  | (k, v) :: es => (written k ++ ": " ++ written v) :: writtenEntries es

end

inductive WriteFault
  | tooLong
  | tooDeep
  deriving DecidableEq, Repr

mutual

/-- What is met first that cannot be written, with room for so many values inside each other below the
first. -/
def writeFault? : (room : Nat) → Value → Option WriteFault
  | _, .int n => if (wholeText? n).isSome then none else some .tooLong
  | room, .list xs => itemsFault? room xs
  | _, .set [] => none
  | 0, .set _ => some .tooDeep
  | room + 1, .set xs => itemsFault? room xs
  | 0, .pair _ _ => some .tooDeep
  | room + 1, .pair a b => (writeFault? room a).or (writeFault? room b)
  | room, .mapping es => entriesFault? room es
  | _, _ => none

def itemsFault? : (room : Nat) → List Value → Option WriteFault
  | _, [] => none
  | 0, _ => some .tooDeep
  | room + 1, x :: xs => (writeFault? room x).or (itemsFault? (room + 1) xs)

def entriesFault? : (room : Nat) → List (Value × Value) → Option WriteFault
  | _, [] => none
  | 0, _ => some .tooDeep
  | room + 1, (k, v) :: es => ((writeFault? room k).or (writeFault? room v)).or (entriesFault? (room + 1) es)

end

def plain : Value → String
  | .text s => s
  | .date d => d.plain
  | .moment t => t.plain
  | v => v.written

def isTruthy : Value → Bool
  | .null => false
  | .bool b => b
  | .int n => n != 0
  | .real x => x.compareInt? 0 != some .eq
  | .text s => !s.isEmpty
  | .bytes bs => !bs.isEmpty
  | .list xs => !xs.isEmpty
  | .set xs => !xs.isEmpty
  | .mapping es => !es.isEmpty
  | _ => true

def isKey : Value → Bool
  | .list _ => false
  | .set _ => false
  | .mapping _ => false
  | .loop _ => false
  | .pair a b => a.isKey && b.isKey
  | _ => true

def quantity? : Value → Option Quantity
  | .bool b => some (.whole (if b then 1 else 0))
  | .int n => some (.whole n)
  | .real x => some (.real x)
  | _ => none

def sameAtom (a b : Value) : Bool :=
  match a.quantity?, b.quantity? with
  | some x, some y => x.compare? y == some .eq
  | none, none =>
    match a, b with
    | .null, .null => true
    | .text s, .text t => s == t
    | .bytes s, .bytes t => s == t
    | .date s, .date t => s == t
    | .moment s, .moment t => s == t
    | _, _ => false
  | _, _ => false

mutual

def same : Value → Value → Bool
  | .list xs, .list ys => sameItems xs ys
  | .set xs, .set ys => xs.length == ys.length && allIn xs ys
  | .pair a b, .pair c d => same a c && same b d
  | .mapping es, .mapping fs => es.length == fs.length && allEntriesIn es fs
  | a, b => sameAtom a b

def sameItems : List Value → List Value → Bool
  | [], [] => true
  | x :: xs, y :: ys => same x y && sameItems xs ys
  | _, _ => false

def allIn : List Value → List Value → Bool
  | [], _ => true
  | x :: xs, ys => ys.any (same x) && allIn xs ys

def allEntriesIn : List (Value × Value) → List (Value × Value) → Bool
  | [], _ => true
  | (k, v) :: es, fs => (fs.any fun f => same k f.1 && same v f.2) && allEntriesIn es fs

end

instance : BEq Value := ⟨same⟩

def get? : Value → String → Option Value
  | .mapping es, key => assocGet? same (.text key) es
  | _, _ => none

def ofEntries (entries : List (Value × Value)) : Value :=
  .mapping (entries.foldl (fun es (k, v) => assocSet same k v es) [])

mutual

def ofJson : Json → Value
  | .null => .null
  | .bool b => .bool b
  | .int n => .int n
  | .real x => .real x
  | .str s => .text s
  | .arr xs => .list (ofJsonItems xs)
  | .obj ms => ofEntries (ofJsonMembers ms)

def ofJsonItems : List Json → List Value
  | [] => []
  | x :: xs => ofJson x :: ofJsonItems xs

def ofJsonMembers : List (String × Json) → List (Value × Value)
  | [] => []
  | (k, v) :: ms => (.text k, ofJson v) :: ofJsonMembers ms

end

def texts? : Value → Option (List String)
  | .list xs => xs.mapM fun
    | .text s => some s
    | _ => none
  | _ => none

end Value

end EdgeAudit

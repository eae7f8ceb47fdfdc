import EdgeAudit.Construct.Basic
import EdgeAudit.Text.Pattern
import EdgeAudit.Text.Word

namespace EdgeAudit.InText

open Number Text Pattern

def valueSlot : Nat := 0

def delaySlot : Nat := 1

def isNameChar (c : Char) : Bool :=
  isWord c || c == '$'

def free : Pattern :=
  notAfter fun c => isNameChar c || c == '.'

def blanks : Pattern :=
  run isBlank 0

def gap : Pattern :=
  run isBlank 1

def name : Pattern :=
  run isNameChar 1

def specifier : Pattern :=
  let inside := keep valueSlot (run (fun c => c != '\'' && c != '"' && c != '\n') 1)
  either (all [word "'", inside, word "'"]) (all [word "\"", inside, word "\""])

def comments : Pattern :=
  many (all [word "/*", fewest fun _ => true, word "*/", blanks])

def clause : Pattern :=
  all [
    optional (all [name, blanks, word ",", blanks]),
    oneOf [
      name,
      all [word "*", blanks, word "as", gap, name],
      all [word "\x7b", run (· != '\x7d') 0, word "\x7d"]],
    blanks, word "from", blanks]

def staticImport : Pattern :=
  all [edge isWord, word "import", gap, optional (all [word "type", gap]), optional clause, specifier]

def callWith (f : String) : Pattern :=
  all [free, word f, blanks, word "(", blanks, comments, specifier, blanks, word ")"]

def reference : Link → Pattern
  | .staticImport => staticImport
  | .require => callWith "require"
  | .dynamicImport => callWith "import"

def evalCall : Pattern :=
  all [free, word "eval", blanks, word "("]

def newFunction : Pattern :=
  all [free, word "new", gap, word "Function", notBefore (one isNameChar),
    notBefore (seq blanks (word "."))]

def oneName (names : List String) : Pattern :=
  keep valueSlot (oneOf (names.map word))

def wasmSync : Pattern :=
  all [free, word "new", gap, word "WebAssembly.", oneName wasmConstructors, blanks, word "("]

def based (mark : Char → Bool) (digit : Char → Bool) : Pattern :=
  all [word "0", one mark, run digit 1]

def number : Pattern :=
  oneOf [
    based (fun c => c == 'x' || c == 'X') (fun c => isDigit c || isHex c || c == '_'),
    based (fun c => c == 'o' || c == 'O') (fun c => ('0' ≤ c && c ≤ '7') || c == '_'),
    based (fun c => c == 'b' || c == 'B') (fun c => c == '0' || c == '1' || c == '_'),
    seq
      (either
        (all [one isDigit, run (fun c => isDigit c || c == '_') 0,
          optional (all [word ".", run isDigit 0])])
        (all [word ".", run isDigit 1]))
      (optional (all [one (fun c => c == 'e' || c == 'E'),
        optional (one fun c => c == '+' || c == '-'), run isDigit 1]))]

def timer : Pattern :=
  let plain := run (fun c => c != ',' && c != '(' && c != ')') 0
  let inside := run (fun c => c != '(' && c != ')') 0
  all [free, oneName timerNames, blanks, word "(", plain,
    many (all [word "(", inside, word ")", plain]), word ",", blanks,
    keep delaySlot number, blanks, one fun c => c == ',' || c == ')']

def bufferCall : Pattern :=
  all [free, word "Buffer.", oneName bufferMethods, blanks, word "("]

def occurrences (p : Pattern) (construct : Construct) (value : String → String)
    (cs : List Char) : List Occurrence :=
  (p.findAll cs).map fun f =>
    ⟨f.start, f.after.pos, construct, value ((f.after.get? valueSlot).getD ""), none⟩

/-- Keeps the first of the occurrences that begin at one place, and sorts by place. -/
def inOrder (os : List Occurrence) : List Occurrence :=
  (os.foldl (fun acc o => if acc.any (·.start == o.start) then acc else acc ++ [o]) []).mergeSort
    fun a b => a.start ≤ b.start

def moduleReferences (links : List Link) (cs : List Char) : List Occurrence :=
  inOrder <| (Link.all.filter links.contains).flatMap fun link =>
    occurrences (reference link) (.reference link) id cs

def evalCalls (cs : List Char) : List Occurrence :=
  inOrder <| occurrences evalCall .evalCall (fun _ => "eval") cs ++
    occurrences newFunction .newFunction (fun _ => "Function") cs

def wasmInstantiations (cs : List Char) : List Occurrence :=
  inOrder <| occurrences wasmSync .wasmSync ("WebAssembly." ++ ·) cs

def timerCalls (cs : List Char) : List Occurrence :=
  inOrder <| (timer.findAll cs).filterMap fun f => do
    let delay ← parse? ((f.after.get? delaySlot).getD "")
    some ⟨f.start, f.after.pos, .timer, (f.after.get? valueSlot).getD "", some delay⟩

def bufferCalls (cs : List Char) : List Occurrence :=
  inOrder <| occurrences bufferCall .bufferCall ("Buffer." ++ ·) cs

end EdgeAudit.InText

import EdgeAudit.Script.Statement

namespace EdgeAudit.Script

open Reader

namespace Grammar

def plainly (p : Reader Tree) : Reader Parsed := do
  return ⟨← p, .value⟩

def step (g : Grammar) : Goal → Reader Parsed
  | .expression setting => g.anyExpression setting
  | .sequence setting => g.anySequence setting
  | .operand setting => g.anyOperand setting
  | .binding => g.anyBinding
  | .block => plainly g.anyBlock
  | .statement => plainly g.anyStatement
  | .markup => plainly g.element
  | .type => plainly g.anyType

def readUpTo (dialect : Dialect) : (depth : Nat) → Goal → Reader Parsed
  | 0, _ => failure
  | n + 1, goal => (⟨dialect, readUpTo dialect n⟩ : Grammar).step goal

end Grammar

def skipInterpreter : Reader Unit := do
  if ← startsWith "#!" then
    advance ((← get).rest.takeWhile (· != '\n')).length

def program (g : Grammar) : Reader Tree := do
  skipInterpreter
  let ss ← g.statements
  check (← get).rest.isEmpty
  return .node .other .plain 0 (← Reader.position) ss

/-- The tree of a source text, if it is a program of the language. -/
def parse? (dialect : Dialect) (cs : List Char) : Option Tree :=
  let depth := 8 * cs.length + 64
  ((program ⟨dialect, Grammar.readUpTo dialect depth⟩) (Cursor.first cs)).map (·.1)

end EdgeAudit.Script

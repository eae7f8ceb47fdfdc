import EdgeAudit.Finding

namespace EdgeAudit

def sliceEnd (length : Nat) (offset : Int) : Nat :=
  if offset < 0 then (offset + length).toNat else min offset.toNat length

/-- The line, counted from one, and the column, counted from zero, of an offset. -/
def position (text : List Char) (offset : Int) : Int × Int :=
  let head := text.take (sliceEnd text.length offset)
  let line := head.count '\n' + 1
  let lineStart := head.length - (head.reverse.takeWhile (· != '\n')).length
  (line, offset - lineStart)

def locate (file : String) (text : List Char) (start stop : Int) : Location :=
  let (line, column) := position text start
  let (endLine, endColumn) := position text stop
  ⟨file, line, column, some endLine, some endColumn⟩

end EdgeAudit

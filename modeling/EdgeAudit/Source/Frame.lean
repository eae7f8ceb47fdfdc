import EdgeAudit.Number.Literal
import EdgeAudit.Source.Position
import EdgeAudit.Text.Split

namespace EdgeAudit

open Text

def splitLines (text : List Char) : List (List Char) :=
  splitOn '\n' text

def frameRow (width : Nat) (marked : Bool) (number : Nat) (line : List Char) : List Char :=
  (if marked then '>' else ' ') :: ' ' :: padLeft width (toString number).toList ++
    " | ".toList ++ line

def linesBetween (lines : List (List Char)) (first last : Int) : List (Nat × List Char) :=
  ((lines.drop first.toNat).take (last + 1 - first).toNat).zipIdx.map fun l =>
    (first.toNat + l.2 + 1, l.1)

/-- The rows around a location, with `context` more lines on both sides; none when the number behind the
last of them is too long to be written. -/
def frameRows? (text : List Char) (location : Location) (context : Int) : Option (List (List Char)) := do
  let lines := splitLines text
  let lastLine := location.endLine.getD location.line
  let first := max 0 (location.line - context - 1)
  let last := min ((lines.length : Int) - 1) (lastLine + context - 1)
  let width := (← Number.wholeText? (last + 1)).length
  some <| (linesBetween lines first last).map fun (number, line) =>
    frameRow width (location.line ≤ number && number ≤ lastLine) number line

def codeFrame? (text : List Char) (location : Location) (context : Int) : Option String :=
  (frameRows? text location context).map fun rows => String.ofList (List.intercalate ['\n'] rows)

end EdgeAudit

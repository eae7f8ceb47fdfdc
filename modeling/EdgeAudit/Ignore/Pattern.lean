import EdgeAudit.Glob.Basic
import EdgeAudit.Text.Blank
import EdgeAudit.Text.Quoted
import EdgeAudit.Text.Split

/-!
Lines of ignore files as pathspec reads them: its patterns differ from those of `Glob` in what a slash, a
dot and a bracket mean.
-/

namespace EdgeAudit.Ignore

open Text Glob

inductive NamePiece
  | char (c : Char)
  | any
  | star
  | member (k : CharClass)
  deriving DecidableEq, Repr

inductive Segment
  | names
  | whole
  | glob (pieces : List NamePiece)
  deriving DecidableEq, Repr

inductive Shape
  | everything
  | below
  | path (segments : List Segment)
  deriving DecidableEq, Repr

structure IgnorePattern where
  shape : Shape
  ignores : Bool
  dirOnly : Bool
  deriving DecidableEq, Repr

inductive IgnoreError
  | invalid (line : String)
  | badRange (line : String)
  deriving DecidableEq, Repr

def IgnoreError.message : IgnoreError → String
  | .invalid line => "Invalid git pattern: " ++ quoted line
  | .badRange line => "bad character range in " ++ quoted line

def ranges? : List Char → Option (List (Char × Char))
  | [] => some []
  | [a] => some [(a, a)]
  | [a, '-'] => some [(a, a), ('-', '-')]
  | a :: '-' :: b :: rest =>
    if b < a then none else (ranges? rest).map ((a, b) :: ·)
  | a :: rest => (ranges? rest).map ((a, a) :: ·)

def bracketed? : List Char → Option (List Char × List Char)
  | [] => none
  | c :: cs =>
    match cs.dropWhile (· != ']') with
    | _ :: rest => some (c :: cs.takeWhile (· != ']'), rest)
    | [] => none

def readName (line : String) : (fuel : Nat) → List Char → Except IgnoreError (List NamePiece)
  | 0, _ => .ok []
  | _, [] => .ok []
  | n + 1, c :: cs =>
    match c, cs with
    | '\\', [] => .error (.invalid line)
    | '\\', d :: rest => (readName line n rest).map (.char d :: ·)
    | '*', _ => (readName line n cs).map (.star :: ·)
    | '?', _ => (readName line n cs).map (.any :: ·)
    | '[', _ =>
      let (negated, inner) := match cs with
        | '!' :: rest => (true, rest)
        | '^' :: rest => (true, rest)
        | _ => (false, cs)
      match bracketed? inner with
      | none => (readName line n cs).map (.char '[' :: ·)
      | some (members, rest) =>
        match ranges? members with
        | none => .error (.badRange line)
        | some ranges => (readName line n rest).map (.member ⟨negated, ranges⟩ :: ·)
    | _, _ => (readName line n cs).map (.char c :: ·)

def Segment.ofText (line : String) (cs : List Char) : Except IgnoreError Segment :=
  if cs = ['*', '*'] then .ok .names
  else if cs = ['*'] then .ok .whole
  else (readName line (cs.length + 1) cs).map .glob

def normalParts (parts : List (List Char)) : List (List Char) :=
  let parts := match parts with
    | [] :: rest => rest
    | [name] => if name = ['*', '*'] then [name] else [['*', '*'], name]
    | [name, []] => if name = ['*', '*'] then [name, []] else [['*', '*'], name, []]
    | parts => parts
  match parts.getLast? with
  | some [] => parts.dropLast ++ [['*', '*']]
  | _ => parts

def collapseNames : List Segment → List Segment
  | .names :: rest =>
    match collapseNames rest with
    | .names :: rest => .names :: rest
    | rest => .names :: rest
  | s :: rest => s :: collapseNames rest
  | [] => []

/-- The pattern in a line. Blanks at the end do not count unless a backslash stands before the last
one. Empty lines, notes and a single slash have none. -/
def IgnorePattern.ofLine? (line : String) : Except IgnoreError (Option IgnorePattern) := do
  let cs := line.toList
  let cs := if [' ', '\\'].isPrefixOf cs.reverse then cs else trimEndBy isBlank cs
  if cs.isEmpty || cs.head? == some '#' || cs == ['/'] then return none
  let (ignores, cs) := match cs with
    | '!' :: rest => (false, rest)
    | _ => (true, cs)
  let parts := splitOn '/' cs
  let dirOnly := parts.getLast? == some []
  let normal := normalParts parts
  if normal.isEmpty then throw (.invalid line)
  let segments ← normal.mapM (Segment.ofText line)
  let shape := match collapseNames segments with
    | [.names] => if dirOnly then Shape.below else .everything
    | [.names, .whole] => .everything
    | [.names, .whole, .names] => .below
    | segments => .path segments
  return some ⟨shape, ignores, dirOnly⟩

end EdgeAudit.Ignore

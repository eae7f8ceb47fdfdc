import EdgeAudit.Glob.CharClass
import EdgeAudit.Text.Pattern

/-!
Patterns of paths as wcmatch reads them, with whole names under two stars and choices in braces. Its search
leaves out files by patterns that match dots (`Dots.matched`), all others do not.
-/

namespace EdgeAudit.Glob

open Text

inductive Piece
  | char (c : Char)
  | slash
  | any (first : Bool)
  | star (first : Bool)
  | member (first : Bool) (k : CharClass)
  | names (start : Bool)
  deriving DecidableEq, Repr

def pushNames : List Piece → List Piece
  | [] => [.names true]
  | .slash :: before => .names false :: before
  | before => before

def afterNames? : List Char → Option (List Char)
  | [] => some []
  | '/' :: rest => some (rest.dropWhile (· == '/'))
  | '\\' :: '/' :: rest => some (rest.dropWhile (· == '/'))
  | _ => none

def readPieces : (fuel : Nat) → (before : List Piece) → (first : Bool) → List Char → List Piece
  | 0, before, _, _ => before.reverse
  | _, before, _, [] => before.reverse
  | n + 1, before, first, c :: cs =>
    match c with
    | '*' =>
      match (if first then cs else []) with
      | '*' :: rest =>
        match afterNames? rest with
        | some rest => readPieces n (pushNames before) true rest
        | none => readPieces n (.star first :: before) false (cs.dropWhile (· == '*'))
      | _ => readPieces n (.star first :: before) false (cs.dropWhile (· == '*'))
    | '?' => readPieces n (.any first :: before) false cs
    | '/' => readPieces n (.slash :: before) true (cs.dropWhile (· == '/'))
    | '\\' =>
      match cs with
      | [] => readPieces n (.char '\\' :: before) false []
      | '/' :: rest => readPieces n (.slash :: before) true rest
      | d :: rest => readPieces n (.char d :: before) false rest
    | '[' =>
      match CharClass.read? cs with
      | some (k, rest) => readPieces n (.member first k :: before) false rest
      | none => readPieces n (.char '[' :: before) false cs
    | _ => readPieces n (.char c :: before) false cs

def pieces (pattern : List Char) : List Piece :=
  readPieces (pattern.length + 1) [] true pattern

/-- How dots are matched: in `plain` patterns nothing but a dot matches a dot at the start of a name;
otherwise only the names `.` and `..` are left out. -/
inductive Dots
  | plain
  | matched
  deriving DecidableEq, Repr

def isSlash (c : Char) : Bool := c == '/'

def notSlash (c : Char) : Bool := c != '/'

def atStart : Pattern := .notAfter fun _ => true

def atEnd : Pattern := .notBefore (.one fun _ => true)

def ahead (a : Pattern) : Pattern := .notBefore (.notBefore a)

def Dots.barred : Dots → Pattern
  | .plain => .text ['.']
  | .matched => .all [.text ['.'], .optional (.text ['.']), .either (.one isSlash) atEnd]

def Dots.guard (dots : Dots) (first : Bool) : Pattern :=
  if first then .notBefore dots.barred else .done

def Dots.names (dots : Dots) : Pattern :=
  .seq (.many (.seq (.notBefore (.seq (.either (.one isSlash) atStart) dots.barred))
      (.one fun _ => true)))
    (.oneOf [.run isSlash 1, atStart, atEnd])

def Piece.pattern (dots : Dots) : Piece → Pattern
  | .char c => .one (· == c)
  | .slash => .run isSlash 1
  | .any first => .seq (dots.guard first) (.one notSlash)
  | .star true => .all [ahead (.one notSlash), dots.guard true, .run notSlash 0]
  | .star false => .run notSlash 0
  | .member first k => .seq (dots.guard first) (.one fun c => notSlash c && k.contains c)
  | .names true => dots.names
  | .names false => .seq (ahead (.one isSlash)) dots.names

/-- The paths that pieces match; slashes at the end do not matter. -/
def pathPattern (dots : Dots) (ps : List Piece) : Pattern :=
  .seq (.all (ps.map (Piece.pattern dots))) (.run isSlash 0)

def fits (dots : Dots) (pattern path : List Char) : Bool :=
  (pathPattern dots (pieces pattern)).fits path

end EdgeAudit.Glob

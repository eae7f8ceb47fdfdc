import EdgeAudit.Ignore.Pattern

namespace EdgeAudit.Ignore

open Text Glob

def NamePiece.pattern : NamePiece → Pattern
  | .char c => .one (· == c)
  | .any => .one notSlash
  | .star => .run notSlash 0
  | .member k => .one k.contains

def stretch : Pattern := .run (· != '\n') 1

def pathEnd : Pattern := .either (ahead (.seq (.text ['\n']) atEnd)) atEnd

def directoryMark : Pattern := .keep 0 (.text ['/'])

def segmentsPattern (dirOnly slash first : Bool) : List Segment → Pattern
  | [] => .done
  | .names :: rest =>
    if first then
      .seq (.optional (.seq stretch (.text ['/']))) (segmentsPattern dirOnly false false rest)
    else if rest.isEmpty then
      if dirOnly then directoryMark else .text ['/']
    else
      .seq (.optional (.seq (.text ['/']) stretch)) (segmentsPattern dirOnly true false rest)
  | s :: rest =>
    let name := match s with
      | .glob pieces => Pattern.all (pieces.map NamePiece.pattern)
      | _ => .run notSlash 1
    let here := if slash then .seq (.text ['/']) name else name
    if rest.isEmpty then .seq here (.either directoryMark pathEnd)
    else .seq here (segmentsPattern dirOnly true false rest)

inductive Way
  | directory
  | path
  deriving DecidableEq, Repr

def IgnorePattern.match? (p : IgnorePattern) (path : List Char) : Option Way :=
  match p.shape with
  | .everything => if path.any (· != '\n') then some .path else none
  | .below =>
    if path.contains '/' then some (if p.dirOnly then .directory else .path) else none
  | .path segments =>
    (Pattern.read (segmentsPattern p.dirOnly false true segments) some (Spot.first path)).map
      fun s => if (s.get? 0).isSome then .directory else .path

structure Verdict where
  ignored : Bool
  way : Way
  deriving DecidableEq, Repr

/-- One more pattern: a directory that is ignored wins over all before; otherwise a match of the path
itself is only overruled by another one. -/
def Verdict.next (path : List Char) (v : Option Verdict) (p : IgnorePattern) : Option Verdict :=
  match p.match? path with
  | none => v
  | some .path => some ⟨p.ignores, .path⟩
  | some .directory =>
    match v with
    | some ⟨_, .path⟩ => if p.ignores then some ⟨true, .directory⟩ else v
    | _ => some ⟨p.ignores, .directory⟩

def ignoresPath (patterns : List IgnorePattern) (path : String) : Bool :=
  ((patterns.foldl (Verdict.next path.toList) none).map (·.ignored)).getD false

end EdgeAudit.Ignore

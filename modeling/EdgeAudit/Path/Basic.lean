import EdgeAudit.Text.Split

namespace EdgeAudit.Path

def parts (path : String) : List String :=
  ((Text.splitOn '/' path.toList).filter fun p => !p.isEmpty).map String.ofList

def isAbsolute (path : String) : Bool :=
  path.toList.head? == some '/'

def ofParts (parts : List String) : String :=
  "/" ++ Text.joinWith "/" parts

def root (path : String) : String :=
  match path.toList with
  | '/' :: '/' :: '/' :: _ => "/"
  | '/' :: '/' :: _ => "//"
  | '/' :: _ => "/"
  | _ => ""

def pushPart (absolute : Bool) (before : List String) (part : String) : List String :=
  if part = "" ∨ part = "." then before
  else if part = ".." then
    match before with
    | [] => if absolute then [] else [".."]
    | last :: rest => if last = ".." then ".." :: before else rest
  else part :: before

def resolveDots (absolute : Bool) (parts : List String) : List String :=
  (parts.foldl (pushPart absolute) []).reverse

def normalize (path : String) : String :=
  let text := root path ++ Text.joinWith "/" (resolveDots (isAbsolute path) (parts path))
  if text = "" then "." else text

def join (dir path : String) : String :=
  if isAbsolute path then path
  else if dir = "" ∨ dir.toList.getLast? = some '/' then dir ++ path
  else dir ++ "/" ++ path

def absolute (cwd path : String) : String :=
  normalize (join cwd path)

/-- A path without doubled slashes and single dots; two dots stay. -/
def tidy (path : String) : String :=
  let text := root path ++ Text.joinWith "/" ((parts path).filter (· != "."))
  if text = "" then "." else text

def dropCommon : List String → List String → List String × List String
  | a :: as, b :: bs => if a = b then dropCommon as bs else (a :: as, b :: bs)
  | as, bs => (as, bs)

def stepsBetween (start path : List String) : List String :=
  let (up, down) := dropCommon start path
  up.map (fun _ => "..") ++ down

def relativeTo (path cwd : String) : String :=
  let steps := stepsBetween (parts (normalize cwd)) (parts (absolute cwd path))
  if steps.isEmpty then "." else Text.joinWith "/" steps

def display (path cwd : String) : String :=
  if path = "" then path else relativeTo path cwd

def name (path : String) : String :=
  ((parts path).filter (· != ".")).getLast?.getD ""

def after? : (start path : List String) → Option (List String)
  | [], path => some path
  | _ :: _, [] => none
  | a :: as, b :: bs => if a = b then after? as bs else none

end EdgeAudit.Path

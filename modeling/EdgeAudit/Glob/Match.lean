import EdgeAudit.Glob.Basic
import EdgeAudit.Glob.Brace

namespace EdgeAudit.Glob

def matchesAny (patterns : List String) (path : String) : Except GlobError Bool := do
  let patterns ← expandBraces patterns
  return patterns.any fun p => fits .plain p path.toList

def special : List Char :=
  ['-', '!', '~', '*', '?', '(', ')', '[', ']', '|', '\x7b', '\x7d', '\\']

def escape (path : String) : String :=
  String.ofList <| path.toList.flatMap fun c => if special.contains c then ['\\', c] else [c]

end EdgeAudit.Glob

import EdgeAudit.Files.Lookup
import EdgeAudit.Text.Utf8

namespace EdgeAudit

open Text

inductive ReadFault
  | lookup (fault : LookupFault) (path : String)
  | decoding (fault : Utf8Fault)
  deriving DecidableEq, Repr

def ReadFault.message : ReadFault → String
  | .lookup fault path => fault.message path
  | .decoding fault => fault.message

namespace Files

def readText (f : Files) (path : String) : Except ReadFault (List Char) := do
  let bytes ← (f.readBytes path).mapError (.lookup · path)
  let text ← (decodeUtf8 bytes.toList).mapError .decoding
  return unifyLineEnds text

def readLenient (f : Files) (path : String) : Except LookupFault (List Char) := do
  let bytes ← f.readBytes path
  return unifyLineEnds (decodeUtf8Leniently bytes.toList)

end Files

end EdgeAudit

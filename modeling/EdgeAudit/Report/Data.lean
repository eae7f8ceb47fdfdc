import EdgeAudit.Report.Result
import EdgeAudit.Text.Json

namespace EdgeAudit

open Number

def optionalMember (key : String) (value : Option Json) : List (String × Json) :=
  (value.map fun v => (key, v)).toList

def Location.toJson (l : Location) : Json :=
  .obj ([("file", .str l.file), ("line", .int l.line), ("column", .int l.column)] ++
    optionalMember "end_line" (l.endLine.map .int) ++
    optionalMember "end_column" (l.endColumn.map .int))

def Suggestion.toJson (s : Suggestion) : Json :=
  .obj (("message", .str s.message) :: optionalMember "replacement" (s.replacement.map .str) ++
    optionalMember "package" (s.package.map .str) ++
    optionalMember "import_statement" (s.importStatement.map .str) ++
    optionalMember "docs_url" (s.docsUrl.map .str))

def Finding.toJson (f : Finding) : Json :=
  .obj ([("rule_id", .str f.ruleId), ("severity", .str f.severity.name),
    ("message", .str f.message), ("location", f.location.toJson)] ++
    optionalMember "code_frame" (f.codeFrame.map .str) ++
    (if f.suggestions.isEmpty then [] else [("suggestions", .arr (f.suggestions.map (·.toJson)))]))

def FileError.toJson (e : FileError) : Json :=
  .obj [("file", .str e.file), ("message", .str e.message)]

def durationJson : Quantity → Json
  | .whole n => .int n
  | .real x => .real (x.roundTo 2)

namespace ScanResult

def summaryJson (r : ScanResult) : Json :=
  .obj (r.counts.map fun (s, n) => (s.name, .int n))

def toJson (r : ScanResult) : Json :=
  .obj ([("summary", r.summaryJson), ("findings", .arr (r.findings.map (·.toJson))),
    ("file_count", .int r.fileCount), ("duration", durationJson r.duration)] ++
    optionalMember "cached_count" (r.cachedCount.map .int) ++
    (if r.errors.isEmpty then [] else [("errors", .arr (r.errors.map (·.toJson)))]))

end ScanResult

end EdgeAudit

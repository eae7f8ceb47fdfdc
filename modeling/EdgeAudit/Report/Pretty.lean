import EdgeAudit.Path.Basic
import EdgeAudit.Report.Result
import EdgeAudit.Text.Blank

namespace EdgeAudit

open Number Text

/-- A duration to the nearest whole number, a half to the even one. A whole duration is rounded as the
double that it is taken for. -/
def durationText : Quantity → Except ReportFault String
  | .whole n =>
    match Binary64.ofInt n with
    | .infinite _ => .error .tooLarge
    | x => .ok x.wholeText
  | .real x => .ok x.wholeText

def signLine (width : Nat) (sign : Char) : String :=
  String.ofList (List.replicate width sign)

def countRow (title count : String) : String :=
  String.ofList (padRight 10 title.toList) ++ " | " ++ String.ofList (padLeft 5 count.toList)

namespace ScanResult

def summaryLines (r : ScanResult) : Except ReportFault (List String) := do
  let header := countRow "Severity" "Count"
  let counts ← r.counts.mapM fun (s, n) => return countRow s.title (← shownWhole n)
  let files ← shownWhole r.fileCount
  let cached ← r.cachedCount.toList.mapM fun n => return "Cached    : " ++ (← shownWhole n)
  let total ← shownWhole r.total
  let duration ← durationText r.duration
  return ["Scan Summary", signLine 40 '=', header, signLine header.length '-'] ++ counts ++
    [signLine header.length '-', "Files     : " ++ files] ++ cached ++
    ["Findings  : " ++ total, "Duration  : " ++ duration ++ "ms"]

end ScanResult

def Suggestion.lines (s : Suggestion) : List String :=
  ("  -> " ++ s.message) ::
    match s.docsUrl with
    | some url => if url = "" then [] else ["     " ++ url]
    | none => []

def Finding.lines (f : Finding) (cwd : String) : Except ReportFault (List String) := do
  let line ← shownWhole f.location.line
  let column ← shownWhole f.location.column
  let place := Path.display f.location.file cwd ++ ":" ++ line ++ ":" ++ column
  return ["[" ++ f.severity.title ++ "] " ++ f.ruleId ++ " " ++ place, "  " ++ f.message] ++
    (match f.codeFrame with
      | some code => (splitOn '\n' code.toList).map fun row => "    " ++ String.ofList row
      | none => []) ++
    f.suggestions.flatMap (·.lines) ++ [""]

namespace ScanResult

def findingLines (r : ScanResult) (cwd : String) : Except ReportFault (List String) := do
  if r.findings.isEmpty then return []
  let blocks ← r.topFindings.mapM (·.lines cwd)
  return ["", "Findings", signLine 40 '-'] ++ blocks.flatten

def errorLines (r : ScanResult) (cwd : String) : List String :=
  if r.errors.isEmpty then []
  else ["Errors", signLine 40 '-'] ++
    r.errors.map fun e => Path.display e.file cwd ++ ": " ++ e.message

def pretty (r : ScanResult) (cwd : String) : Except ReportFault String := do
  let lines := (← r.summaryLines) ++ (← r.findingLines cwd) ++ r.errorLines cwd
  return String.ofList (trimEndBy isBlank (joinWith "\n" lines).toList) ++ "\n"

end ScanResult

end EdgeAudit

import EdgeAudit.Report.Pretty

namespace EdgeAudit

open Text

def markdownCell (text : String) : String :=
  String.ofList <| text.toList.flatMap fun c =>
    if c = '|' then ['\\', '|'] else if c = '\n' then [' '] else [c]

def Finding.markdownRow (f : Finding) (cwd : String) : Except ReportFault String := do
  let line ← shownWhole f.location.line
  return "| " ++ f.severity.name ++ " | \x60" ++ f.ruleId ++ "\x60 | \x60" ++
    Path.display f.location.file cwd ++ ":" ++ line ++ "\x60 | " ++ markdownCell f.message ++ " |"

namespace ScanResult

def markdownHead (r : ScanResult) : Except ReportFault (List String) := do
  let files ← shownWhole r.fileCount
  let duration ← durationText r.duration
  let errors ← shownWhole (r.count .error)
  let warnings ← shownWhole (r.count .warning)
  let infos ← shownWhole (r.count .info)
  return ["# Edge Compatibility Report", "",
    "Scanned **" ++ files ++ "** files in " ++ duration ++ "ms: " ++ errors ++ " errors, " ++
      warnings ++ " warnings, " ++ infos ++ " info.", ""]

def markdownTable (r : ScanResult) (cwd : String) : Except ReportFault (List String) := do
  if r.findings.isEmpty then return ["No issues found."]
  let rows ← r.topFindings.mapM (·.markdownRow cwd)
  return ["| Severity | Rule | Location | Message |", "| --- | --- | --- | --- |"] ++ rows

def markdown (r : ScanResult) (cwd : String) : Except ReportFault String := do
  let lines := (← r.markdownHead) ++ (← r.markdownTable cwd)
  return joinWith "\n" lines ++ "\n"

end ScanResult

end EdgeAudit

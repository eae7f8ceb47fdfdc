import EdgeAudit.Report.Data
import EdgeAudit.Report.Markdown
import EdgeAudit.Text.Quoted

namespace EdgeAudit

inductive ReportFormat
  | pretty
  | json
  | markdown
  deriving DecidableEq, Repr

namespace ReportFormat

def name : ReportFormat → String
  | .pretty => "pretty"
  | .json => "json"
  | .markdown => "md"

def all : List ReportFormat :=
  [.pretty, .json, .markdown]

inductive Error
  | unknown (name : String)
  deriving DecidableEq, Repr

def Error.message : Error → String
  | .unknown name => "Unknown report format " ++ Text.quoted name

def ofName (name : String) : Except Error ReportFormat :=
  match all.find? fun f => f.name == name with
  | some f => .ok f
  | none => .error (.unknown name)

end ReportFormat

def ScanResult.render (r : ScanResult) (format : ReportFormat) (cwd : String) : Except ReportFault String :=
  match format with
  | .pretty => r.pretty cwd
  | .json =>
    match r.toJson.pretty? with
    | some text => .ok (text ++ "\n")
    | none => .error .tooLong
  | .markdown => r.markdown cwd

end EdgeAudit

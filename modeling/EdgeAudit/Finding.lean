import EdgeAudit.Severity

namespace EdgeAudit

/-- A stretch of a file: lines count from one, columns from zero. -/
structure Location where
  file : String
  line : Int
  column : Int
  endLine : Option Int
  endColumn : Option Int
  deriving DecidableEq, Repr

structure Suggestion where
  message : String
  replacement : Option String := none
  package : Option String := none
  importStatement : Option String := none
  docsUrl : Option String := none
  deriving DecidableEq, Repr

structure Finding where
  ruleId : String
  severity : Severity
  message : String
  location : Location
  codeFrame : Option String
  suggestions : List Suggestion
  deriving DecidableEq, Repr

end EdgeAudit

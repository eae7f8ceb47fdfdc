import EdgeAudit.Source.Basic
import EdgeAudit.Source.Frame

namespace EdgeAudit

inductive RuleFailure
  | undefined
  | refused (reason : String)
  | unwritable
  | raised (kind reason : String)
  /-- The rule asks for the end of the program, or fails in a way that has no text: such a failure gets
  out of whatever runs the rule. A process of its own ends with the exit code. -/
  | exits (exitCode : Int)
  deriving DecidableEq, Repr

namespace RuleFailure

def message : RuleFailure → String
  | .undefined => ""
  | .refused reason => reason
  | .unwritable => Number.tooLongText
  | .raised _ reason => reason
  | .exits _ => ""

def kind : RuleFailure → String
  | .undefined => "NotImplementedError"
  | .raised kind _ => kind
  | .exits _ => "SystemExit"
  | _ => "ValueError"

def exitCode? : RuleFailure → Option Int
  | .exits code => some code
  | _ => none

def text (f : RuleFailure) : String :=
  f.kind ++ ": " ++ f.message

end RuleFailure

inductive RuleSort
  | forbiddenModule
  | cautionModule
  | buffer
  | dynamicCode
  | wasmSync
  | longTimer
  | dependency
  | custom
  deriving DecidableEq, Repr

structure Rule where
  id : String
  name : String
  description : String
  category : String
  severity : Severity
  enabled : Bool
  sort : RuleSort
  detect : Source → Except RuleFailure (List Finding)

def frameContext : Int := 2

def Source.finding (source : Source) (start stop : Nat) (ruleId : String) (severity : Severity)
    (message : String) (suggestions : List Suggestion) : Finding :=
  let location := locate source.path source.text start stop
  ⟨ruleId, severity, message, location, codeFrame? source.text location frameContext,
    suggestions⟩

def Occurrence.finding (o : Occurrence) (source : Source) (ruleId : String) (severity : Severity)
    (message : String) (suggestions : List Suggestion) : Finding :=
  source.finding o.start o.stop ruleId severity message suggestions

def detectAll (rules : List Rule) (source : Source) : Except RuleFailure (List Finding) := do
  let found ← rules.mapM fun r => r.detect source
  return found.flatten

end EdgeAudit

import EdgeAudit.Number.Shortest
import EdgeAudit.Rule.Basic

namespace EdgeAudit

open Number

structure Task where
  path : String
  text : List Char
  target : Target
  strict : Bool
  rules : List Rule

def Task.run (t : Task) : Except RuleFailure (List Finding) :=
  detectAll t.rules (Source.read t.path t.text t.target t.strict)

inductive ExecutionFailure
  | ofRule (failure : RuleFailure)
  | notStarted (path reason : String)
  | timeout (path : String) (limit : Binary64)
  | stopped (exitCode : Option Int)
  deriving DecidableEq, Repr

def ExecutionFailure.message : ExecutionFailure → String
  | .ofRule failure => failure.text
  | .notStarted path reason => "Failed to start worker for " ++ path ++ ": " ++ reason
  | .timeout path limit => "Worker timeout for " ++ path ++ " after " ++ limit.brief ++ "s"
  | .stopped none => "Worker stopped with exit code None"
  | .stopped (some code) => "Worker stopped with exit code " ++ toString code

abbrev Outcome := Except ExecutionFailure (List Finding)

/-- Why running a task gives no outcome at all. -/
inductive Escape
  | ofRule (failure : RuleFailure)
  | limit (seconds : Binary64)
  | garbled (path : String)
  | endless (path : String)
  deriving DecidableEq, Repr

/-- What a task gives where it runs: a failure of a rule is an outcome unless it gets out. -/
def Task.outcome (t : Task) : Except RuleFailure Outcome :=
  match t.run with
  | .ok found => .ok (.ok found)
  | .error failure =>
    if failure.exitCode?.isSome then .error failure else .ok (.error (.ofRule failure))

end EdgeAudit

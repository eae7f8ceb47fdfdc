import EdgeAudit.Text.Quoted

namespace EdgeAudit

inductive Severity
  | error
  | warning
  | info
  deriving DecidableEq, Repr

namespace Severity

def name : Severity → String
  | .error => "error"
  | .warning => "warning"
  | .info => "info"

def title : Severity → String
  | .error => "ERROR"
  | .warning => "WARNING"
  | .info => "INFO"

def rank : Severity → Nat
  | .error => 2
  | .warning => 1
  | .info => 0

def all : List Severity :=
  [.error, .warning, .info]

def ofSetting? (word : String) : Option Severity :=
  if word = "warn" then some .warning
  else all.find? fun s => s.name == word

inductive Error
  | unknown (word : String)
  deriving DecidableEq, Repr

def Error.message : Error → String
  | .unknown word => Text.quoted word ++ " is not a valid Severity"

def ofSetting (word : String) : Except Error Severity :=
  match ofSetting? word with
  | some s => .ok s
  | none => .error (.unknown word)

end Severity

end EdgeAudit

import EdgeAudit.Config.Value
import EdgeAudit.Severity
import EdgeAudit.Target

namespace EdgeAudit

inductive RuleLevel
  | off
  | warn
  | error
  deriving DecidableEq, Repr

namespace RuleLevel

def name : RuleLevel → String
  | .off => "off"
  | .warn => "warn"
  | .error => "error"

def all : List RuleLevel :=
  [.off, .warn, .error]

def ofName? (name : String) : Option RuleLevel :=
  all.find? fun l => l.name == name

end RuleLevel

structure RuleSetting where
  level : RuleLevel
  ignore : List String
  deriving DecidableEq, Repr

structure Config where
  target : Target := .auto
  strict : Bool := false
  included : Option (List String) := none
  excluded : Option (List String) := none
  rules : List (String × RuleSetting) := []
  deriving DecidableEq, Repr

inductive ConfigError
  | notMapping
  | badTarget (value : Value)
  | badStrict
  | badGlobs (key : String)
  | badRules
  | badSetting (ruleId : String)
  | badLevel (ruleId : String) (value : Value)
  | badIgnore (ruleId : String)
  | notFound (path : String)
  | unreadable (name : String)

namespace ConfigError

def message : ConfigError → String
  | .notMapping => "Configuration must be a mapping"
  | .badTarget value => "Invalid edgeTarget " ++ value.written ++ "; expected one of " ++
      String.intercalate ", " (Target.all.map (·.name))
  | .badStrict => "'strict' must be a boolean"
  | .badGlobs key => "'" ++ key ++ "' must be a list of glob patterns"
  | .badRules => "'rules' must be a mapping of rule id to setting"
  | .badSetting id => "Rule setting for " ++ Text.quoted id ++ " must be a string or a mapping"
  | .badLevel id value => "Rule setting for " ++ Text.quoted id ++ " has invalid severity " ++
      value.written ++ "; expected one of " ++ String.intercalate ", " (RuleLevel.all.map (·.name))
  | .badIgnore id => "Rule setting for " ++ Text.quoted id ++ " has a non-list 'ignore'"
  | .notFound path => "Config file not found: " ++ path
  | .unreadable name => "Failed to load config from " ++ name

end ConfigError

inductive DocumentError
  | config (error : ConfigError)
  | unwritten (fault : Value.WriteFault)

namespace DocumentError

def message : DocumentError → String
  | .config error => error.message
  | .unwritten .tooLong => Number.tooLongText
  | .unwritten .tooDeep => ""

end DocumentError

def refuse {α : Type} (room : Nat) (value : Value) (error : ConfigError) : Except DocumentError α :=
  match value.writeFault? room with
  | some fault => .error (.unwritten fault)
  | none => .error (.config error)

namespace RuleSetting

def levelOf (room : Nat) (ruleId : String) (value : Value) : Except DocumentError RuleLevel :=
  match value with
  | .text s =>
    match RuleLevel.ofName? s with
    | some level => .ok level
    | none => refuse room value (.badLevel ruleId value)
  | _ => refuse room value (.badLevel ruleId value)

def ignoreOf (ruleId : String) (value : Value) : Except DocumentError (List String) :=
  if !value.isTruthy then .ok []
  else match value.texts? with
    | some patterns => .ok patterns
    | none => .error (.config (.badIgnore ruleId))

def ofValue (room : Nat) (ruleId : String) (value : Value) : Except DocumentError RuleSetting :=
  match value with
  | .text _ => do
    let level ← levelOf room ruleId value
    return ⟨level, []⟩
  | .mapping _ => do
    let level ← levelOf room ruleId ((value.get? "severity").getD .null)
    let ignore ← ignoreOf ruleId ((value.get? "ignore").getD .null)
    return ⟨level, ignore⟩
  | _ => .error (.config (.badSetting ruleId))

def toValue (s : RuleSetting) : Value :=
  .mapping [(.text "severity", .text s.level.name),
    (.text "ignore", .list (s.ignore.map .text))]

end RuleSetting

namespace Config

def setting? (c : Config) (ruleId : String) : Option RuleSetting :=
  assocGet? (· == ·) ruleId c.rules

def isDisabled (c : Config) (ruleId : String) : Bool :=
  (c.setting? ruleId).any fun s => s.level == .off

def targetOf (room : Nat) (data : Value) : Except DocumentError Target :=
  -- a key that is there counts even if its value is null
  match (data.get? "edgeTarget").orElse fun _ => data.get? "edge_target" with
  | none => .ok .auto
  | some (.text name) =>
    match Target.ofName? name with
    | some t => .ok t
    | none => refuse room (.text name) (.badTarget (.text name))
  | some value => refuse room value (.badTarget value)

def strictOf (data : Value) : Except DocumentError Bool :=
  match data.get? "strict" with
  | none => .ok false
  | some (.bool b) => .ok b
  | some _ => .error (.config .badStrict)

def globsOf (data : Value) (key : String) : Except DocumentError (Option (List String)) :=
  match data.get? key with
  | none => .ok none
  | some .null => .ok none
  | some value =>
    match value.texts? with
    | some patterns => .ok (some patterns)
    | none => .error (.config (.badGlobs key))

def ruleIdOf (room : Nat) (key : Value) : Except DocumentError String :=
  match key.writeFault? room with
  | some fault => .error (.unwritten fault)
  | none => .ok key.plain

def addRule (room : Nat) (rules : List (String × RuleSetting)) (entry : Value × Value) :
    Except DocumentError (List (String × RuleSetting)) := do
  let id ← ruleIdOf room entry.1
  let setting ← RuleSetting.ofValue room id entry.2
  return assocSet (· == ·) id setting rules

def rulesOf (room : Nat) (data : Value) : Except DocumentError (List (String × RuleSetting)) :=
  let value := (data.get? "rules").getD .null
  if !value.isTruthy then .ok []
  else match value with
    | .mapping entries => entries.foldlM (addRule room) []
    | _ => .error (.config .badRules)

/-- The configuration of a document; a document that counts as nothing has the default one. There is
room to write so many values inside each other. -/
def ofValue (room : Nat) (data : Value) : Except DocumentError Config :=
  if !data.isTruthy then .ok {}
  else match data with
    | .mapping _ => do
      let target ← targetOf room data
      let strict ← strictOf data
      let included ← globsOf data "include"
      let excluded ← globsOf data "exclude"
      let rules ← rulesOf room data
      return ⟨target, strict, included, excluded, rules⟩
    | _ => .error (.config .notMapping)

def globsValue : Option (List String) → Value
  | none => .null
  | some patterns => .list (patterns.map .text)

def toValue (c : Config) : Value :=
  .mapping [(.text "edgeTarget", .text c.target.name), (.text "strict", .bool c.strict),
    (.text "include", globsValue c.included), (.text "exclude", globsValue c.excluded),
    (.text "rules", .mapping (c.rules.map fun (id, s) => (.text id, s.toValue)))]

end Config

end EdgeAudit

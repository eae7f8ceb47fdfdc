import EdgeAudit.Rule.Dependency
import EdgeAudit.Rule.Module
import EdgeAudit.Rule.Pattern
import EdgeAudit.Rule.Registry

namespace EdgeAudit

open Number

inductive BuiltIn
  | forbidden (module : ModuleRule)
  | caution (module : ModuleRule)
  | buffer (module : ModuleRule)
  | dynamicCode
  | wasmSync
  | longTimer (threshold : Quantity)
  | dependency (table : List Replacement)

namespace BuiltIn

def rule : BuiltIn → Rule
  | .forbidden m => m.toRule ("node-core/forbidden-module:" ++ m.module) .forbiddenModule m.references
  | .caution m => m.toRule ("node-core/caution:" ++ m.module) .cautionModule m.references
  | .buffer m => m.toRule ("node-core/caution:" ++ m.module) .buffer m.referencesAndBuffers
  | .dynamicCode => evalRule
  | .wasmSync => wasmRule
  | .longTimer threshold => timerRule threshold
  | .dependency table => dependencyRule table

def module? : BuiltIn → Option ModuleRule
  | .forbidden m => some m
  | .caution m => some m
  | .buffer m => some m
  | _ => none

def fixedMessage? : BuiltIn → Option String
  | .dynamicCode => some evalMessage
  | .wasmSync => some wasmMessage
  | _ => none

def threshold? : BuiltIn → Option Quantity
  | .longTimer threshold => some threshold
  | _ => none

def suggestions? : BuiltIn → Option (List Suggestion)
  | .dynamicCode => some evalSuggestions
  | .wasmSync => some wasmSuggestions
  | .longTimer _ => some timerSuggestions
  | .dependency _ => none
  | .forbidden m => some m.suggestions
  | .caution m => some m.suggestions
  | .buffer m => some m.suggestions

end BuiltIn

def catalog : List BuiltIn :=
  forbiddenModules.map .forbidden ++
    [.caution cryptoModule, .buffer bufferModule, .caution streamModule, .dynamicCode, .wasmSync,
     .longTimer (.whole defaultThreshold), .dependency replacements]

def defaultRules : List Rule :=
  catalog.map (·.rule)

def defaultRegistry : Registry :=
  ⟨defaultRules⟩

end EdgeAudit

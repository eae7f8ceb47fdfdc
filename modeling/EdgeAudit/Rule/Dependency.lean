import EdgeAudit.Rule.Basic
import EdgeAudit.Rule.Replacement
import EdgeAudit.Specifier

namespace EdgeAudit

def Replacement.suggestions (r : Replacement) : List Suggestion :=
  let replace : Suggestion :=
    { message := "Replace with: " ++ r.target
      replacement := r.target
      package := r.target
      importStatement := r.installCommand
      docsUrl := r.docsUrl }
  match r.migrationNotes with
  | some notes =>
    if notes = "" then [replace] else [replace, { message := "Migration: " ++ notes }]
  | none => [replace]

def dependencyId : String := "deps/not-edge-safe"

def flaggedPackage? (table : List Replacement) (o : Occurrence) : Option (String × Replacement) := do
  let package ← basePackage? o.value
  let r ← replacement? table package
  some (package, r)

def dependencyFindings (table : List Replacement) (source : Source) : List Finding :=
  -- a package that is loaded on demand is not reported
  (source.moduleReferences [.staticImport, .require]).filterMap fun o =>
    (flaggedPackage? table o).map fun (package, r) =>
      o.finding source dependencyId .error
        ("Package \"" ++ package ++ "\" is not Edge-safe. " ++ r.reason) r.suggestions

def dependencyRule (table : List Replacement) : Rule where
  id := dependencyId
  name := "Non-Edge-safe dependency"
  description := "Dependency that is known to not work in Edge runtimes."
  category := "dependency"
  severity := .error
  enabled := true
  sort := .dependency
  detect source := .ok (dependencyFindings table source)

end EdgeAudit

import EdgeAudit.Config.Basic
import EdgeAudit.Files.Source
import EdgeAudit.Yaml.Load

namespace EdgeAudit

open Text Yaml

def configNames : List String :=
  ["edgecompat.config.yaml", "edgecompat.config.yml", "edgecompat.config.json",
   ".edgecompatrc.json", ".edgecompatrc"]

inductive LoadError
  | config (error : ConfigError)
  | lookup (fault : LookupFault)
  | decoding (fault : Utf8Fault)
  | value (error : YamlError)
  | unwritten (fault : Value.WriteFault)

def LoadError.ofDocument : DocumentError → LoadError
  | .config error => .config error
  | .unwritten fault => .unwritten fault

/-- How many collections of a document can be read inside each other, and how many values can be written
below a first one, before the program is out of stack. The defaults are estimates, from the calls that each
level takes. -/
structure Stack where
  nodes : Nat := 485
  values : Nat := 984

namespace Files

def findConfig (f : Files) (cwd : String) : Except LookupFault (Option String) :=
  (configNames.map (Path.join cwd)).findM? f.isFile

def loadConfigFile (f : Files) (stack : Stack) (cwd path : String) : Except LoadError Config := do
  let place := Path.tidy (Path.join cwd path)
  if !(← (f.isFile place).mapError .lookup) then throw (.config (.notFound (Path.tidy path)))
  let name := Path.name path
  match f.readText place with
  | .error (.lookup _ _) => throw (.config (.unreadable name))
  | .error (.decoding fault) => throw (.decoding fault)
  | .ok text =>
    match Yaml.load stack.nodes text with
    | .error .malformed => throw (.config (.unreadable name))
    | .error .badNode => throw (.config (.unreadable name))
    | .error error => throw (.value error)
    | .ok data => (Config.ofValue stack.values data).mapError .ofDocument

/-- The configuration in the given file or, without one, in the first configuration file of a
directory; without any it is the default one. -/
def loadConfig (f : Files) (stack : Stack) (cwd : String) (path : Option String) : Except LoadError Config := do
  match path with
  | some path => f.loadConfigFile stack cwd path
  | none =>
    match ← (f.findConfig cwd).mapError .lookup with
    | some path => f.loadConfigFile stack cwd path
    | none => return {}

end Files

end EdgeAudit

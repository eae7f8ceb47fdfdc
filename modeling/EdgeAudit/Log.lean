namespace EdgeAudit

inductive LogLevel
  | debug
  | info
  | warning
  deriving DecidableEq, Repr

inductive LogSource
  | scan
  | discovery
  | changes
  | script
  deriving DecidableEq, Repr

structure LogLine where
  level : LogLevel
  source : LogSource
  text : String
  deriving DecidableEq, Repr

namespace LogLevel

def name : LogLevel → String
  | .debug => "DEBUG"
  | .info => "INFO"
  | .warning => "WARNING"

end LogLevel

namespace LogSource

def name : LogSource → String
  | .scan => "edge_compat.scanner"
  | .discovery => "edge_compat.utils.discovery"
  | .changes => "edge_compat.utils.git"
  | .script => "edge_compat.syntax"

end LogSource

namespace LogLine

def shown (l : LogLine) : String :=
  l.level.name ++ " " ++ l.source.name ++ ": " ++ l.text

end LogLine

structure Halted (ε : Type) where
  error : ε
  notes : List LogLine
  deriving DecidableEq, Repr

end EdgeAudit

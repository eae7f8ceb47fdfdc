import EdgeAudit.Text.Quoted
import EdgeAudit.Text.Split

namespace EdgeAudit.CommandLine

open Text

inductive UsageFault
  | ambiguous (text : String) (options : List String)
  | noValue (names : List String)
  | unwantedValue (names : List String) (value : String)
  | badChoice (names : List String) (value : String) (choices : List String)
  | badNumber (names : List String) (value : String)
  | unrecognized (arguments : List String)
  | required (names : List String)
  deriving DecidableEq, Repr

def UsageFault.message : UsageFault → String
  | .ambiguous text options =>
    "ambiguous option: " ++ text ++ " could match " ++ joinWith ", " options
  | .noValue names => about names ++ "expected one argument"
  | .unwantedValue names value => about names ++ "ignored explicit argument " ++ quoted value
  | .badChoice names value choices => about names ++ "invalid choice: " ++ quoted value ++
      " (choose from " ++ joinWith ", " (choices.map quoted) ++ ")"
  | .badNumber names value => about names ++ "invalid int value: " ++ quoted value
  | .unrecognized arguments => "unrecognized arguments: " ++ joinWith " " arguments
  | .required names => "the following arguments are required: " ++ joinWith ", " names
where
  about (names : List String) : String := "argument " ++ joinWith "/" names ++ ": "

inductive Stop
  | help
  | version
  | fault (fault : UsageFault)
  deriving DecidableEq, Repr

structure Stopped where
  program : String
  stop : Stop
  deriving DecidableEq, Repr

namespace Stopped

def exitCode (s : Stopped) : Nat :=
  match s.stop with
  | .fault _ => 2
  | _ => 0

def version : String := "0.1.0-dev"

def output (s : Stopped) : String :=
  match s.stop with
  | .version => s.program ++ " " ++ version ++ "\n"
  | _ => ""

def complaint (s : Stopped) : List String :=
  match s.stop with
  | .fault fault => [s.program ++ ": error: " ++ fault.message]
  | _ => []

end Stopped

end EdgeAudit.CommandLine

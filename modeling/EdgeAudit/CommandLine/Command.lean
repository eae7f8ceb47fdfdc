import EdgeAudit.CommandLine.Option
import EdgeAudit.Number.Literal
import EdgeAudit.Report.Format
import EdgeAudit.Target

namespace EdgeAudit.CommandLine

structure ScanArguments where
  paths : List String := []
  format : ReportFormat := .pretty
  outputPath : Option String := none
  strict : Option Bool := none
  target : Option Target := none
  configPath : Option String := none
  changed : Bool := false
  parallel : Bool := false
  maxWorkers : Option Int := none
  isolated : Bool := false
  cache : Bool := true
  verbose : Bool := false
  deriving DecidableEq, Repr

inductive Command
  | scan (arguments : ScanArguments)
  | init (force : Bool)
  deriving DecidableEq, Repr

def decimal? (text : String) : Option Int := do
  let (negative, cs) := Number.splitSign (Number.normalizeDigits text.toList)
  let groups := Text.splitOn '_' cs
  if groups.any List.isEmpty then none
  else if Number.maxWholeDigits < groups.flatten.length then none
  else
    let n ← Number.digitsValue? 10 Text.hexValue? groups.flatten
    some (if negative then -(n : Int) else (n : Int))

variable {σ : Type}

def flag (names : List String) (set : σ → σ) : OptionSpec σ :=
  ⟨names, false, fun _ settings => .ok (set settings)⟩

def valued (names : List String) (set : String → σ → σ) : OptionSpec σ :=
  ⟨names, true, fun value settings => .ok (set value settings)⟩

def chosen {α : Type} (names : List String) (choices : List (String × α)) (set : α → σ → σ) :
    OptionSpec σ :=
  ⟨names, true, fun value settings =>
    match choices.find? fun c => c.1 == value with
    | some (_, choice) => .ok (set choice settings)
    | none => .error (.fault (.badChoice names value (choices.map (·.1))))⟩

def numeric (names : List String) (set : Int → σ → σ) : OptionSpec σ :=
  ⟨names, true, fun value settings =>
    match decimal? value with
    | some n => .ok (set n settings)
    | none => .error (.fault (.badNumber names value))⟩

def helpOption : OptionSpec σ :=
  ⟨["-h", "--help"], false, fun _ _ => .error .help⟩

def scanSpec : CommandSpec ScanArguments where
  options :=
    [helpOption,
     chosen ["--format", "-f"] (ReportFormat.all.map fun f => (f.name, f))
       fun format a => { a with format },
     valued ["--out", "--output", "-o"] fun path a => { a with outputPath := some path },
     flag ["--strict"] fun a => { a with strict := some true },
     chosen ["--edge-target"] (Target.all.map fun t => (t.name, t))
       fun target a => { a with target := some target },
     valued ["--config", "-c"] fun path a => { a with configPath := some path },
     flag ["--changed"] fun a => { a with changed := true },
     flag ["--parallel"] fun a => { a with parallel := true },
     numeric ["--max-workers"] fun n a => { a with maxWorkers := some n },
     flag ["--isolated"] fun a => { a with isolated := true },
     flag ["--no-cache"] fun a => { a with cache := false },
     flag ["--verbose", "-v"] fun a => { a with verbose := true }]
  operands := .several fun paths a => .ok { a with paths }

def initSpec : CommandSpec Bool where
  options := [helpOption, flag ["--force"] fun _ => true]
  operands := .none

def programName : String := "edge-compat"

def commandNames : List String := ["scan", "init"]

def programSpec : CommandSpec (List String) where
  options := [helpOption, ⟨["--version"], false, fun _ _ => .error .version⟩]
  operands := .rest fun arguments _ =>
    match arguments with
    | name :: _ =>
      if commandNames.contains name then .ok arguments
      else .error (.fault (.badChoice ["command"] name commandNames))
    | [] => .ok []

def readCommand (name : String) (arguments : List String) :
    Except Stopped (Command × List String) :=
  let program := programName ++ " " ++ name
  if name = "init" then
    ((readArguments initSpec false arguments).map fun (force, extras) =>
      (Command.init force, extras)).mapError (⟨program, ·⟩)
  else
    ((readArguments scanSpec {} arguments).map fun (a, extras) =>
      (Command.scan a, extras)).mapError (⟨program, ·⟩)

def readProgram (arguments : List String) : Except Stopped Command := do
  let (rest, extras) ← (readArguments programSpec [] arguments).mapError (⟨programName, ·⟩)
  match rest with
  | [] => throw ⟨programName, .fault (.required ["command"])⟩
  | name :: rest =>
    let (command, more) ← readCommand name rest
    let extras := extras ++ more
    if extras.isEmpty then return command
    else throw ⟨programName, .fault (.unrecognized extras)⟩

end EdgeAudit.CommandLine

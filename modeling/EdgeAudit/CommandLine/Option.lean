import EdgeAudit.CommandLine.Usage

namespace EdgeAudit.CommandLine

open Text

structure OptionSpec (σ : Type) where
  names : List String
  takesValue : Bool
  apply : String → σ → Except Stop σ

inductive Operands (σ : Type)
  | none
  | several (apply : List String → σ → Except Stop σ)
  | rest (apply : List String → σ → Except Stop σ)

structure CommandSpec (σ : Type) where
  options : List (OptionSpec σ)
  operands : Operands σ

structure Hit (σ : Type) where
  spec : OptionSpec σ
  name : String
  value : Option String

inductive Mark (σ : Type)
  | operand
  | divider
  | option (hit : Hit σ)
  | unknown

def Mark.isOption {σ : Type} : Mark σ → Bool
  | .option _ => true
  | .unknown => true
  | _ => false

variable {σ : Type}

def namedOptions (options : List (OptionSpec σ)) : List (String × OptionSpec σ) :=
  options.flatMap fun o => o.names.map fun name => (name, o)

def findOption? (options : List (OptionSpec σ)) (name : String) : Option (OptionSpec σ) :=
  ((namedOptions options).find? fun p => p.1 == name).map (·.2)

def splitValue (cs : List Char) : List Char × Option String :=
  match cs.dropWhile (· != '=') with
  | _ :: value => (cs.takeWhile (· != '='), some (String.ofList value))
  | [] => (cs, none)

/-- The options that a text may be short for. A long name may be cut short; after a short name the
value may follow at once. -/
def possibleHits (options : List (OptionSpec σ)) (cs : List Char) : List (Hit σ) :=
  let named := namedOptions options
  if ['-', '-'].isPrefixOf cs then
    let (start, value) := splitValue cs
    named.filterMap fun (name, o) =>
      if start.isPrefixOf name.toList then some ⟨o, name, value⟩ else none
  else
    named.filterMap fun (name, o) =>
      if name.toList == cs.take 2 then some ⟨o, name, some (String.ofList (cs.drop 2))⟩
      else if cs.isPrefixOf name.toList then some ⟨o, name, none⟩
      else none

def isNegativeNumber : List Char → Bool
  | '-' :: cs =>
    match cs.dropWhile Char.isDigit with
    | [] => !cs.isEmpty
    | '.' :: part => !part.isEmpty && part.all Char.isDigit
    | _ => false
  | _ => false

def markOf (options : List (OptionSpec σ)) (argument : String) : Except UsageFault (Mark σ) :=
  let cs := argument.toList
  if cs.head? != some '-' then .ok .operand
  else match findOption? options argument with
  | some o => .ok (.option ⟨o, argument, none⟩)
  | none =>
    if cs.length = 1 then .ok .operand
    else
      let (start, value) := splitValue cs
      let exact := if value.isSome then findOption? options (String.ofList start) else none
      match exact with
      | some o => .ok (.option ⟨o, String.ofList start, value⟩)
      | none =>
        match possibleHits options cs with
        | [hit] => .ok (.option hit)
        | [] =>
          if isNegativeNumber cs || cs.contains ' ' then .ok .operand else .ok .unknown
        | hits => .error (.ambiguous argument (hits.map (·.name)))

def marks (options : List (OptionSpec σ)) :
    List String → Except UsageFault (List (String × Mark σ))
  | [] => .ok []
  | argument :: rest => do
    if argument = "--" then
      return (argument, .divider) :: rest.map fun a => (a, .operand)
    else
      let mark ← markOf options argument
      return (argument, mark) :: (← marks options rest)

def unbundle (options : List (OptionSpec σ)) (hit : OptionSpec σ) (short : Bool) :
    List Char → Except UsageFault (List (OptionSpec σ) × OptionSpec σ × Option String)
  | [] => if hit.takesValue then .ok ([], hit, some "") else .error (.unwantedValue hit.names "")
  | c :: cs =>
    if hit.takesValue then .ok ([], hit, some (String.ofList (c :: cs)))
    else if !short then .error (.unwantedValue hit.names (String.ofList (c :: cs)))
    else match findOption? options (String.ofList ['-', c]) with
      | none => .error (.unwantedValue hit.names (String.ofList (c :: cs)))
      | some next =>
        if cs.isEmpty then .ok ([hit], next, none)
        else do
          let (flags, last, value) ← unbundle options next short cs
          return (hit :: flags, last, value)

def applyHit (options : List (OptionSpec σ)) (settings : σ) (hit : Hit σ)
    (rest : List (String × Mark σ)) : Except Stop (σ × List (String × Mark σ)) := do
  let short := hit.name.toList.drop 1 |>.head? |>.all (· != '-')
  let (flags, last, value) ← match hit.value with
    | none => pure ([], hit.spec, none)
    | some value => (unbundle options hit.spec short value.toList).mapError .fault
  let (value, rest) ← match value with
    | some value => pure (value, rest)
    | none =>
      if last.takesValue then
        match rest with
        | (value, .operand) :: rest => pure (value, rest)
        | _ => throw (.fault (.noValue last.names))
      else pure ("", rest)
  let settings ← flags.foldlM (fun settings o => o.apply "" settings) settings
  return (← last.apply value settings, rest)

structure Reading (σ : Type) where
  settings : σ
  extras : List String := []
  wanting : Bool := true

def takeOperands (operands : Operands σ) (r : Reading σ) (tokens : List (String × Mark σ)) :
    Except Stop (Reading σ × List (String × Mark σ)) := do
  if !r.wanting then return (r, tokens)
  match operands with
  | .none => return (r, tokens)
  | .several apply =>
    let taken := (tokens.takeWhile fun t => !t.2.isOption).map (·.1)
    let settings ← apply (taken.erase "--") r.settings
    return ({ r with settings, wanting := false }, tokens.drop taken.length)
  | .rest apply =>
    let first := (tokens.dropWhile fun t => t.2 matches .divider).head?
    match first with
    | some (_, .operand) =>
      let settings ← apply (tokens.map (·.1)) r.settings
      return ({ r with settings, wanting := false }, [])
    | _ => return (r, tokens)

def readTokens (spec : CommandSpec σ) :
    (fuel : Nat) → Reading σ → List (String × Mark σ) → Except Stop (Reading σ)
  | 0, r, _ => .ok r
  | n + 1, r, tokens => do
    if !(tokens.any fun t => t.2.isOption) then
      let (r, rest) ← takeOperands spec.operands r tokens
      return { r with extras := r.extras ++ rest.map (·.1) }
    match tokens with
    | [] => return r
    | (argument, mark) :: rest =>
      match mark with
      | .unknown => readTokens spec n { r with extras := r.extras ++ [argument] } rest
      | .option hit =>
        let (settings, rest) ← applyHit spec.options r.settings hit rest
        readTokens spec n { r with settings } rest
      | _ =>
        let (r, left) ← takeOperands spec.operands r tokens
        if left.length < tokens.length then readTokens spec n r left
        else
          let skipped := (tokens.takeWhile fun t => !t.2.isOption).map (·.1)
          readTokens spec n { r with extras := r.extras ++ skipped } (tokens.drop skipped.length)

def readArguments (spec : CommandSpec σ) (settings : σ) (arguments : List String) :
    Except Stop (σ × List String) := do
  let tokens ← (marks spec.options arguments).mapError .fault
  let r ← readTokens spec (tokens.length + 1) { settings } tokens
  return (r.settings, r.extras)

end EdgeAudit.CommandLine

import EdgeAudit.Rule.Basic

namespace EdgeAudit

open Number

def evalId : String := "edge/pattern:eval"

def evalMessage : String :=
  "Dynamic code execution with eval() or new Function() is not allowed in many Edge runtimes."

def evalSuggestions : List Suggestion :=
  [{ message := "Refactor to use static code and imports" },
   { message := "Consider alternative patterns like configuration objects or strategy pattern" }]

def evalRule : Rule where
  id := evalId
  name := "Eval usage detected"
  description := "Usage of eval() or new Function() is discouraged in Edge runtimes " ++
    "for security and performance."
  category := "edge-pattern"
  severity := .error
  enabled := true
  sort := .dynamicCode
  detect source := .ok <| source.evalCalls.map fun o =>
    o.finding source evalId .error evalMessage evalSuggestions

def wasmId : String := "edge/pattern:wasm-sync"

def wasmMessage : String :=
  "Synchronous WASM instantiation detected. Use async methods for Edge compatibility."

def wasmSuggestions : List Suggestion :=
  [{ message := "Use WebAssembly.instantiate() or WebAssembly.compile() (async)"
     importStatement := "const module = await WebAssembly.instantiate(wasmBytes);"
     docsUrl := "https://developer.mozilla.org/en-US/docs/Web/JavaScript/Reference/" ++
      "Global_Objects/WebAssembly/instantiate" }]

def wasmRule : Rule where
  id := wasmId
  name := "Synchronous WASM instantiation"
  description := "Synchronous WASM instantiation may not work in Edge runtimes."
  category := "edge-pattern"
  severity := .warning
  enabled := true
  sort := .wasmSync
  detect source := .ok <| source.wasmInstantiations.map fun o =>
    o.finding source wasmId .warning wasmMessage wasmSuggestions

def timerId : String := "edge/pattern:long-timers"

def defaultThreshold : Int := 30000

def timerSuggestions : List Suggestion :=
  [{ message := "Use task queues or scheduled functions for delayed execution" },
   { message := "Vercel: Use Vercel Cron Jobs"
     docsUrl := "https://vercel.com/docs/cron-jobs" },
   { message := "Cloudflare: Use Durable Objects or scheduled Workers"
     docsUrl := "https://developers.cloudflare.com/workers/configuration/cron-triggers/" }]

def withinThreshold (threshold delay : Quantity) : Bool :=
  match delay.compare? threshold with
  | some .lt => true
  | some .eq => true
  | _ => false

/-- The finding at a timer; none when its delay is within the threshold. -/
def timerFinding (threshold : Quantity) (source : Source) (o : Occurrence) :
    Except RuleFailure (Option Finding) :=
  match o.delay with
  | none => .ok none
  | some delay =>
    if withinThreshold threshold delay then .ok none
    else match delay.text? with
      | none => .error .unwritable
      | some text => .ok <| some <| o.finding source timerId .warning
          (o.value ++ " with delay of " ++ text ++ "ms detected. " ++
            "Edge functions typically have execution time limits.") timerSuggestions

def timerRule (threshold : Quantity) : Rule where
  id := timerId
  name := "Long-running timers"
  description := "Long setTimeout/setInterval delays may not work reliably in Edge runtimes."
  category := "edge-pattern"
  severity := .warning
  enabled := true
  sort := .longTimer
  detect source := do
    let found ← source.timerCalls.mapM (timerFinding threshold source)
    return found.filterMap id

end EdgeAudit

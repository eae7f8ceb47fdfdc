import EdgeAudit.Rule.Basic
import EdgeAudit.Specifier

namespace EdgeAudit

structure ModuleRule where
  module : String
  name : String
  description : String
  message : String
  severity : Severity
  suggestions : List Suggestion

namespace ModuleRule

def references (m : ModuleRule) (source : Source) : List Occurrence :=
  (source.moduleReferences Link.all).filter fun o => refersTo o.value m.module

def referencesAndBuffers (m : ModuleRule) (source : Source) : List Occurrence :=
  (m.references source ++ source.bufferCalls).mergeSort fun a b => a.start ≤ b.start

def toRule (m : ModuleRule) (id : String) (sort : RuleSort)
    (occurrences : Source → List Occurrence) : Rule where
  id := id
  name := m.name
  description := m.description
  category := "node-core"
  severity := m.severity
  enabled := true
  sort := sort
  detect source := .ok <| (occurrences source).map fun o =>
    o.finding source id m.severity m.message m.suggestions

end ModuleRule

def forbiddenModule (module description : String) (suggestions : List Suggestion) : ModuleRule where
  module := module
  name := "Forbidden " ++ module ++ " module"
  description := description
  message := "Usage of Node.js \"" ++ module ++ "\" module detected. " ++ description
  severity := .error
  suggestions := suggestions

def forbiddenModules : List ModuleRule :=
  [
    forbiddenModule "fs" "File system access is not available in Edge runtimes."
      [{ message := "Remove file system operations or move them to server-side API routes"
         docsUrl := "https://vercel.com/docs/concepts/functions/edge-functions/limitations" },
       { message := "For Next.js, use getStaticProps or getServerSideProps for build-time " ++
                       "or server-side file access"
         docsUrl := "https://nextjs.org/docs/basic-features/data-fetching" },
       { message := "For Cloudflare Workers, use Workers KV, R2, or Durable Objects for storage"
         docsUrl := "https://developers.cloudflare.com/workers/learning/how-kv-works/" }],
    forbiddenModule "net" "Network sockets are not available in Edge runtimes."
      [{ message := "Use fetch() or WebSocket for network communication" },
       { message := "For Cloudflare Workers, use TCP sockets from the runtime API"
         docsUrl := "https://developers.cloudflare.com/workers/runtime-apis/tcp-sockets/" }],
    forbiddenModule "tls" "TLS sockets are not available in Edge runtimes."
      [{ message := "Use fetch() with HTTPS URLs instead" }],
    forbiddenModule "child_process" "Child processes are not supported in Edge runtimes."
      [{ message := "Move process execution to server-side API routes or background jobs" }],
    forbiddenModule "cluster" "Cluster module is not available in Edge runtimes."
      [{ message := "Edge runtimes handle scaling automatically" }],
    forbiddenModule "worker_threads" "Worker threads are not available in Edge runtimes."
      [{ message := "Use Web Workers API or Cloudflare Durable Objects for parallel execution"
         docsUrl := "https://developer.mozilla.org/en-US/docs/Web/API/Web_Workers_API" }],
    forbiddenModule "dns" "DNS module is not available in Edge runtimes."
      [{ message := "Use fetch() or external DNS-over-HTTPS services" }],
    forbiddenModule "module" "Module system internals are not available in Edge runtimes."
      [{ message := "Use standard ESM imports instead of dynamic module manipulation" }],
    forbiddenModule "vm" "VM module is not available in Edge runtimes."
      [{ message := "Avoid dynamic code execution; use static imports and eval alternatives" }],
    forbiddenModule "perf_hooks" "Performance hooks are not available in Edge runtimes."
      [{ message := "Use Performance API (performance.now(), PerformanceMark) instead"
         docsUrl := "https://developer.mozilla.org/en-US/docs/Web/API/Performance" }],
    forbiddenModule "readline" "Readline module is not available in Edge runtimes."
      [{ message := "Edge functions do not support interactive I/O" }],
    forbiddenModule "repl" "REPL is not available in Edge runtimes."
      [{ message := "Edge functions do not support interactive execution" }],
    forbiddenModule "zlib" "Zlib module is not available in most Edge runtimes."
      [{ message := "Use CompressionStream and DecompressionStream (Web Streams API)"
         importStatement := "const compressed = await new Response(stream.pipeThrough(new " ++
                            "CompressionStream('gzip'))).blob();"
         docsUrl := "https://developer.mozilla.org/en-US/docs/Web/API/CompressionStream" }]]

def cryptoModule : ModuleRule where
  module := "crypto"
  name := "Node.js crypto module usage"
  description := "Node.js crypto module detected. Prefer Web Crypto API for Edge compatibility."
  message := "Node.js crypto module usage detected. Consider using Web Crypto API for " ++
               "better Edge compatibility."
  severity := .warning
  suggestions :=
    [{ message := "Use Web Crypto API (crypto.subtle) instead"
       importStatement := "const hash = await crypto.subtle.digest(\"SHA-256\", data);"
       docsUrl := "https://developer.mozilla.org/en-US/docs/Web/API/Web_Crypto_API" },
     { message := "For JWT operations, use the \"jose\" library"
       package := "jose"
       importStatement := "import * as jose from \"jose\";"
       docsUrl := "https://github.com/panva/jose" }]

def bufferModule : ModuleRule where
  module := "buffer"
  name := "Node.js Buffer usage"
  description := "Node.js Buffer detected. Prefer Uint8Array and Web APIs for Edge compatibility."
  message := "Node.js Buffer usage detected. Prefer Uint8Array and Web APIs for Edge " ++
               "compatibility."
  severity := .warning
  suggestions :=
    [{ message := "Use Uint8Array instead of Buffer"
       importStatement := "const bytes = new Uint8Array([1, 2, 3]);" },
     { message := "Use TextEncoder/TextDecoder for string conversion"
       importStatement := "const encoder = new TextEncoder(); const bytes = " ++
                          "encoder.encode(\"hello\");"
       docsUrl := "https://developer.mozilla.org/en-US/docs/Web/API/TextEncoder" }]

def streamModule : ModuleRule where
  module := "stream"
  name := "Node.js streams usage"
  description := "Node.js streams detected. Prefer Web Streams API for Edge compatibility."
  message := "Node.js streams module usage detected. Consider using Web Streams API for " ++
               "Edge compatibility."
  severity := .warning
  suggestions :=
    [{ message := "Use ReadableStream, WritableStream, and TransformStream"
       docsUrl := "https://developer.mozilla.org/en-US/docs/Web/API/Streams_API" },
     { message := "For Node.js stream compatibility in Edge, consider stream adapters" }]

end EdgeAudit

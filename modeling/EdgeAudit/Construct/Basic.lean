import EdgeAudit.Number.Literal

namespace EdgeAudit

open Number

inductive Link
  | staticImport
  | require
  | dynamicImport
  deriving DecidableEq, Repr

namespace Link

def name : Link → String
  | .staticImport => "import"
  | .require => "require"
  | .dynamicImport => "dynamic-import"

def all : List Link :=
  [.staticImport, .require, .dynamicImport]

end Link

inductive Construct
  | reference (link : Link)
  | evalCall
  | newFunction
  | wasmSync
  | timer
  | bufferCall
  deriving DecidableEq, Repr

namespace Construct

def name : Construct → String
  | .reference link => link.name
  | .evalCall => "eval"
  | .newFunction => "new-function"
  | .wasmSync => "wasm-sync"
  | .timer => "timer"
  | .bufferCall => "buffer-call"

end Construct

/-- A construct found at the characters from `start` up to `stop`, with what it names. -/
structure Occurrence where
  start : Nat
  stop : Nat
  construct : Construct
  value : String
  delay : Option Quantity
  deriving DecidableEq, Repr

def timerNames : List String := ["setTimeout", "setInterval"]

def wasmConstructors : List String := ["Instance", "Module"]

def bufferMethods : List String := ["from", "alloc", "allocUnsafe", "concat"]

end EdgeAudit

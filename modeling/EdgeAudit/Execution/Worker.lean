import EdgeAudit.Execution.Task

namespace EdgeAudit

open Number

/-- How a worker process behaves. By default it answers and ends well. -/
structure Worker where
  pipeError : Option String := none
  startError : Option String := none
  crashes : Bool := false
  hangs : Bool := false
  /-- The process ends in the middle of its answer, or the answer cannot be read. -/
  garbles : Bool := false
  exitCode : Option Int := some 0
  /-- The process goes on until it is stopped. -/
  lingers : Bool := false
  /-- There is no process but a script that plays one: it can be waited for with any limit, and waiting
  for its end returns at once. -/
  scripted : Bool := false
  deriving DecidableEq, Repr

inductive WorkerEvent
  | start
  | closeSender
  | poll (limit : Binary64)
  | receive
  | terminate
  | kill
  | join (limit : Option Binary64)
  | closeReceiver
  deriving DecidableEq, Repr

namespace Worker

def opening (w : Worker) (limit : Binary64) : List WorkerEvent :=
  [.start] ++ (if w.crashes then [] else [.closeSender]) ++ [.closeSender, .poll limit]

def closing (w : Worker) : List WorkerEvent :=
  .closeReceiver :: if w.lingers then [.kill, .join none] else []

def exitsWell (w : Worker) : Bool :=
  w.exitCode == some 0 || w.exitCode == none

def maxWait : Int := 2147483647

def canWait (w : Worker) (limit : Binary64) : Bool :=
  w.scripted || match (limit.scale 1000).compareInt? maxWait with
    | some .gt => false
    | some _ => true
    | none => false

inductive Answer
  | nothing (exitCode : Option Int)
  | garbled
  | given (outcome : Outcome)

def answer (w : Worker) (task : Task) : Answer :=
  if w.crashes then .nothing w.exitCode
  else match task.outcome with
    | .error failure => .nothing failure.exitCode?
    | .ok outcome => if w.garbles then .garbled else .given outcome

/-- What a task in a worker gives, with what happens between the program and the worker. -/
def run (w : Worker) (task : Task) (limit : Binary64) : Except Escape Outcome × List WorkerEvent :=
  match w.pipeError with
  | some reason => (.ok (.error (.notStarted task.path reason)), [])
  | none =>
    match w.startError with
    | some reason =>
      (.ok (.error (.notStarted task.path reason)), [.start, .closeReceiver, .closeSender])
    | none =>
      if !w.canWait limit then
        (.error (.limit limit), w.opening limit ++ [.closeReceiver, .kill, .join none])
      else if w.hangs then
        (.ok (.error (.timeout task.path limit)),
          w.opening limit ++ [.terminate, .join none, .closeReceiver])
      else match w.answer task with
        | .nothing exitCode =>
          if w.lingers && !w.scripted then
            (.error (.endless task.path), w.opening limit ++ [.receive, .join none])
          else
            (.ok (.error (.stopped exitCode)), w.opening limit ++ [.receive, .join none] ++ w.closing)
        | .garbled => (.error (.garbled task.path), w.opening limit ++ [.receive] ++ w.closing)
        | .given outcome =>
          (.ok (if w.exitsWell then outcome else .error (.stopped w.exitCode)),
            w.opening limit ++ [.receive, .join (some limit)] ++ w.closing)

end Worker

inductive Executor
  | here
  | isolated (worker : String → Worker) (limit : Binary64)

namespace Executor

def defaultLimit : Binary64 :=
  .ofInt 30

def execute (e : Executor) (task : Task) (limit : Option Binary64) :
    Except Escape Outcome × List WorkerEvent :=
  match e with
  | .here => (task.outcome.mapError .ofRule, [])
  | .isolated worker limit' => (worker task.path).run task (limit.getD limit')

end Executor

end EdgeAudit

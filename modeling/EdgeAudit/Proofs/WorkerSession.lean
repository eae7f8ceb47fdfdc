import EdgeAudit.Execution.Worker
import EdgeAudit.Proofs.Failure
import EdgeAudit.Rule.Custom

/-!
A task in a worker of its own: its outcome against the outcome of the same task here, and what is left
of the pipe and of the process once the outcome is known. The second is read off the events between the
program and its worker, which are replayed on the two ends of the pipe and on the process.
-/

namespace EdgeAudit

open Number

namespace Worker

variable {w : Worker} {task : Task} {limit : Binary64}

/-- The worker starts, answers in time and ends with a good exit code. -/
structure Healthy (w : Worker) (task : Task) (limit : Binary64) : Prop where
  piped : w.pipeError = none
  started : w.startError = none
  waited : w.canWait limit = true
  inTime : w.hangs = false
  alive : w.crashes = false
  finished : task.outcome.isOk = true
  whole : w.garbles = false
  exits : w.exitCode = some 0 ∨ w.exitCode = none

/-- The program comes back from a worker with an outcome: the worker does not start, or it can be waited for
and does not answer in time, or answers as a whole, or gives no answer and ends by itself. -/
def Returns (w : Worker) (task : Task) (limit : Binary64) : Prop :=
  w.pipeError ≠ none ∨ w.startError ≠ none ∨ w.canWait limit = true ∧
    (w.hangs = true ∨ (w.crashes = false ∧ task.outcome.isOk = true) ∧ w.garbles = false ∨
      (w.crashes = true ∨ task.outcome.isOk = false) ∧ (w.lingers = false ∨ w.scripted = true))

def ended (w : Worker) (path : String) (exitCode : Option Int) : Except Escape Outcome :=
  if w.lingers && !w.scripted then .error (.endless path) else .ok (.error (.stopped exitCode))

def deliver (w : Worker) (path : String) (limit : Binary64) (made : Except RuleFailure Outcome) :
    Except Escape Outcome :=
  match w.pipeError.or w.startError with
  | some reason => .ok (.error (.notStarted path reason))
  | none =>
    if !w.canWait limit then .error (.limit limit)
    else if w.hangs then .ok (.error (.timeout path limit))
    else if w.crashes then w.ended path w.exitCode
    else match made with
      | .error failure => w.ended path failure.exitCode?
      | .ok outcome =>
        if w.garbles then .error (.garbled path)
        else .ok (if w.exitsWell then outcome else .error (.stopped w.exitCode))

theorem run_outcome (w : Worker) (task : Task) (limit : Binary64) :
    (w.run task limit).1 = w.deliver task.path limit task.outcome := by
  unfold run deliver answer ended
  cases w.pipeError with
  | some reason => rfl
  | none =>
    cases w.startError with
    | some reason => rfl
    | none =>
      cases w.canWait limit with
      | false => rfl
      | true =>
        cases w.hangs with
        | true => rfl
        | false =>
          cases w.crashes with
          | true => cases w.lingers && !w.scripted <;> rfl
          | false =>
            cases task.outcome with
            | error failure => cases w.lingers && !w.scripted <;> rfl
            | ok outcome => cases w.garbles <;> rfl

theorem deliver_outcome (w : Worker) (path : String) (limit : Binary64) :
    (∀ outcome, w.deliver path limit (.ok outcome) = .ok outcome) ∨
    (∃ failure, (∀ outcome, w.deliver path limit (.ok outcome) = .ok (.error failure)) ∧
      ∀ ruleFailure, failure ≠ .ofRule ruleFailure) ∨
    ∃ cause, ∀ outcome, w.deliver path limit (.ok outcome) = .error cause := by
  unfold deliver ended
  cases w.pipeError.or w.startError with
  | some reason => exact .inr (.inl ⟨_, fun _ => rfl, by simp⟩)
  | none =>
    cases w.canWait limit with
    | false => exact .inr (.inr ⟨_, fun _ => rfl⟩)
    | true =>
      cases w.hangs with
      | true => exact .inr (.inl ⟨_, fun _ => rfl, by simp⟩)
      | false =>
        cases w.crashes with
        | true =>
          cases w.lingers && !w.scripted with
          | true => exact .inr (.inr ⟨_, fun _ => rfl⟩)
          | false => exact .inr (.inl ⟨_, fun _ => rfl, by simp⟩)
        | false =>
          cases w.garbles with
          | true => exact .inr (.inr ⟨_, fun _ => rfl⟩)
          | false =>
            cases w.exitsWell with
            | true => exact .inl fun _ => rfl
            | false => exact .inr (.inl ⟨_, fun _ => rfl, by simp⟩)

theorem deliver_exit (w : Worker) (path : String) (limit : Binary64) (failure : RuleFailure) :
    (∃ stop, w.deliver path limit (.error failure) = .ok (.error stop) ∧
      ∀ ruleFailure, stop ≠ .ofRule ruleFailure) ∨
    ∃ cause, w.deliver path limit (.error failure) = .error cause := by
  unfold deliver ended
  cases w.pipeError.or w.startError with
  | some reason => exact .inl ⟨_, rfl, by simp⟩
  | none =>
    cases w.canWait limit with
    | false => exact .inr ⟨_, rfl⟩
    | true =>
      cases w.hangs with
      | true => exact .inl ⟨_, rfl, by simp⟩
      | false =>
        cases w.lingers && !w.scripted with
        | true => cases w.crashes <;> exact .inr ⟨_, rfl⟩
        | false => cases w.crashes <;> exact .inl ⟨_, rfl, by simp⟩

theorem deliver_healthy (h : w.Healthy task limit) :
    w.deliver task.path limit task.outcome = task.outcome.mapError .ofRule := by
  have hexit : w.exitsWell = true := by
    obtain hexit | hexit := h.exits <;> simp [exitsWell, hexit]
  have hmade := h.finished
  cases ho : task.outcome with
  | error failure =>
    rw [ho] at hmade
    cases hmade
  | ok outcome =>
    simp [deliver, h.piped, h.started, h.waited, h.inTime, h.alive, h.whole, hexit]

theorem deliver_returns : (∃ outcome, w.deliver task.path limit task.outcome = .ok outcome) ↔
    w.Returns task limit := by
  unfold deliver ended Returns
  cases w.pipeError with
  | some reason => simp
  | none =>
    cases w.startError with
    | some reason => simp
    | none =>
      cases w.canWait limit with
      | false => simp
      | true =>
        cases w.hangs with
        | true => simp
        | false =>
          cases w.crashes with
          | true => cases w.lingers <;> cases w.scripted <;> simp
          | false =>
            cases task.outcome with
            | error failure => cases w.lingers <;> cases w.scripted <;> simp [Except.isOk, Except.toBool]
            | ok outcome => cases w.garbles <;> simp [Except.isOk, Except.toBool]

theorem garbles_of_answer (h : w.answer task = .garbled) : w.garbles = true := by
  unfold answer at h
  cases hgarble : w.garbles with
  | true => rfl
  | false =>
    cases hcrash : w.crashes <;> cases ho : task.outcome <;> simp [hgarble, hcrash, ho] at h

def staysAlive (w : Worker) : Bool :=
  w.hangs || w.lingers

end Worker

namespace Executor

def deliver : Executor → String → Option Binary64 → Except RuleFailure Outcome → Except Escape Outcome
  | .here, _, _, made => made.mapError .ofRule
  | .isolated worker limit', path, limit, made => (worker path).deliver path (limit.getD limit') made

def Returns : Executor → Task → Option Binary64 → Prop
  | .here, task, _ => task.outcome.isOk = true
  | .isolated worker limit', task, limit => (worker task.path).Returns task (limit.getD limit')

theorem execute_outcome (e : Executor) (task : Task) (limit : Option Binary64) :
    (e.execute task limit).1 = e.deliver task.path limit task.outcome := by
  cases e with
  | here => rfl
  | isolated worker limit' => exact (worker task.path).run_outcome task _

theorem deliver_failure (e : Executor) (path : String) (limit : Option Binary64) (found found' : List Finding)
    {failure : ExecutionFailure} : e.deliver path limit (.ok (.ok found)) = .ok (.error failure) ↔
      e.deliver path limit (.ok (.ok found')) = .ok (.error failure) := by
  cases e with
  | here => simp [deliver]
  | isolated worker limit' =>
    simp only [deliver]
    obtain hthrough | ⟨stop, hstop, -⟩ | ⟨cause, hcause⟩ := (worker path).deliver_outcome path (limit.getD limit')
    · simp [hthrough]
    · rw [hstop, hstop]
    · rw [hcause, hcause]

theorem execute_returns {e : Executor} {task : Task} {limit : Option Binary64} :
    (∃ outcome, (e.execute task limit).1 = .ok outcome) ↔ e.Returns task limit := by
  rw [execute_outcome]
  cases e with
  | isolated worker limit' => exact Worker.deliver_returns
  | here =>
    simp only [deliver, Returns, mapError_eq_ok]
    cases task.outcome <;> simp [Except.isOk, Except.toBool]

end Executor

inductive ProcessState
  | idle
  | running
  | ended
  deriving DecidableEq, Repr

/-- The pipe to a worker and its process. The sending end may be open twice: the worker has a copy of
its own. -/
structure Session where
  receiver : Bool
  senders : Nat
  process : ProcessState
  deriving DecidableEq, Repr

namespace Session

variable {w : Worker} {s t u : Session} {events later : List WorkerEvent}

def opened (w : Worker) : Session :=
  if w.pipeError.isSome then ⟨false, 0, .idle⟩ else ⟨true, 1, .idle⟩

structure Released (s : Session) : Prop where
  receiver : s.receiver = false
  senders : s.senders = 0
  process : s.process ≠ .running

/-- What an event does; none where it does not come to an end: an end that is not open can neither be used
nor closed, a process starts once, only a process that was started can be waited for or stopped, and who
waits without a limit for a process that goes on waits forever. A process has ended where its answer breaks
off, unless it goes on. -/
def perform (w : Worker) (s : Session) : WorkerEvent → Option Session
  | .start =>
    if s.process ≠ .idle then none
    else if w.startError.isSome then some s
    else some { s with process := .running, senders := s.senders + if w.crashes then 0 else 1 }
  | .closeSender => if s.senders = 0 then none else some { s with senders := s.senders - 1 }
  | .poll _ => if s.receiver ∧ s.process ≠ .idle then some s else none
  | .receive =>
    if s.receiver ∧ !w.hangs then some (if w.garbles ∧ !w.lingers then { s with process := .ended } else s)
    else none
  | .terminate | .kill => if s.process = .idle then none else some { s with process := .ended }
  | .join limit =>
    if s.process = .idle then none
    else if s.process = .running ∧ w.staysAlive then if limit.isSome ∨ w.scripted then some s else none
    else some { s with process := .ended }
  | .closeReceiver => if s.receiver then some { s with receiver := false } else none

def replay (w : Worker) (s : Session) (events : List WorkerEvent) : Option Session :=
  events.foldlM (perform w) s

theorem replay_append (hs : replay w s events = some t) (ht : replay w t later = some u) :
    replay w s (events ++ later) = some u := by
  unfold replay at *
  rw [List.foldlM_append, hs]
  exact ht

theorem replay_opening (hpipe : w.pipeError = none) (hstart : w.startError = none)
    (limit : Binary64) : replay w (opened w) (w.opening limit) = some ⟨true, 0, .running⟩ := by
  cases hcrash : w.crashes <;>
    simp [replay, opened, Worker.opening, perform, hpipe, hstart, hcrash]

theorem replay_append_none (hs : replay w s events = some t) (ht : replay w t later = none) :
    replay w s (events ++ later) = none := by
  unfold replay at *
  rw [List.foldlM_append, hs]
  exact ht

theorem replay_unwaited (w : Worker) :
    replay w ⟨true, 0, .running⟩ [.closeReceiver, .kill, .join none] = some ⟨false, 0, .ended⟩ := by
  simp [replay, perform]

theorem replay_timeout (w : Worker) :
    replay w ⟨true, 0, .running⟩ [.terminate, .join none, .closeReceiver] = some ⟨false, 0, .ended⟩ := by
  simp [replay, perform]

theorem replay_closing (hhang : w.hangs = false) {limit : Option Binary64}
    (hjoin : limit.isSome = true ∨ w.lingers = false ∨ w.scripted = true) :
    replay w ⟨true, 0, .running⟩ ([.receive, .join limit] ++ w.closing) = some ⟨false, 0, .ended⟩ := by
  cases hgarble : w.garbles <;> cases hlinger : w.lingers <;>
    simp_all [replay, Worker.closing, perform, Worker.staysAlive]

theorem replay_garbled (hhang : w.hangs = false) (hgarble : w.garbles = true) :
    replay w ⟨true, 0, .running⟩ ([.receive] ++ w.closing) = some ⟨false, 0, .ended⟩ := by
  cases hlinger : w.lingers <;> simp [replay, Worker.closing, perform, hhang, hgarble, hlinger]

theorem replay_endless (hhang : w.hangs = false) (hlinger : w.lingers = true) (hreal : w.scripted = false) :
    replay w ⟨true, 0, .running⟩ [.receive, .join none] = none := by
  simp [replay, perform, Worker.staysAlive, hhang, hlinger, hreal]

def endsReleased (w : Worker) (events : List WorkerEvent) : Prop :=
  ∃ s, replay w (opened w) events = some s ∧ s.Released

theorem endsReleased_opening (hpipe : w.pipeError = none) (hstart : w.startError = none) (limit : Binary64)
    (h : replay w ⟨true, 0, .running⟩ events = some ⟨false, 0, .ended⟩) :
    endsReleased w (w.opening limit ++ events) :=
  ⟨⟨false, 0, .ended⟩, replay_append (replay_opening hpipe hstart limit) h, rfl, rfl, by decide⟩

theorem replay_run (w : Worker) (task : Task) (limit : Binary64) : endsReleased w (w.run task limit).2 ∨
    (w.run task limit).1 = .error (.endless task.path) ∧
      replay w (opened w) (w.run task limit).2 = none := by
  unfold Worker.run
  cases hpipe : w.pipeError with
  | some reason => exact .inl ⟨⟨false, 0, .idle⟩, by simp [replay, opened, hpipe], rfl, rfl, by decide⟩
  | none =>
    cases hstart : w.startError with
    | some reason =>
      refine .inl ⟨⟨false, 0, .idle⟩, ?_, rfl, rfl, by decide⟩
      simp [replay, opened, perform, hpipe, hstart]
    | none =>
      have hopen : ∀ {events}, replay w ⟨true, 0, .running⟩ events = some ⟨false, 0, .ended⟩ →
          endsReleased w (w.opening limit ++ events) := endsReleased_opening hpipe hstart limit
      cases w.canWait limit with
      | false => exact .inl (hopen (replay_unwaited w))
      | true =>
        cases hhang : w.hangs with
        | true => exact .inl (hopen (replay_timeout w))
        | false =>
          cases hanswer : w.answer task with
          | nothing exitCode =>
            by_cases hlinger : (w.lingers && !w.scripted) = true
            · simp only [Bool.not_true, Bool.false_eq_true, if_false, if_pos hlinger, true_and]
              rw [Bool.and_eq_true, Bool.not_eq_true'] at hlinger
              exact .inr (replay_append_none (replay_opening hpipe hstart limit)
                (replay_endless hhang hlinger.1 hlinger.2))
            · simp only [Bool.not_true, Bool.false_eq_true, if_false, if_neg hlinger, List.append_assoc]
              rw [Bool.not_eq_true, Bool.and_eq_false_iff, Bool.not_eq_false'] at hlinger
              exact .inl (hopen (replay_closing hhang (.inr hlinger)))
          | garbled =>
            simp only [Bool.not_true, Bool.false_eq_true, if_false, List.append_assoc]
            exact .inl (hopen (replay_garbled hhang (Worker.garbles_of_answer hanswer)))
          | given outcome =>
            simp only [Bool.not_true, Bool.false_eq_true, if_false, List.append_assoc]
            exact .inl (hopen (replay_closing hhang (.inl rfl)))

end Session

def refusingTask : Task :=
  ⟨"a.js", ['b'], .auto, false, [CustomRule.toRule { id := "b", refusal := some "no" }]⟩

end EdgeAudit

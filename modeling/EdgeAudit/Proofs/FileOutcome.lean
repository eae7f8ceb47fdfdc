import EdgeAudit.Proofs.Failure
import EdgeAudit.Scan.Run

namespace EdgeAudit

def Files.textOf (bytes : ByteArray) : Except ReadFault (List Char) := do
  let text ← (Text.decodeUtf8 bytes.toList).mapError .decoding
  return Text.unifyLineEnds text

theorem Files.readText_of_readBytes {f : Files} {place : String} {bytes : ByteArray}
    (h : f.readBytes place = .ok bytes) : f.readText place = textOf bytes := by
  simp [readText, h, textOf, bind, Except.bind]

/-- What a scan sees of a file: why it is not read, why it has no text, or its text. -/
inductive Sight
  | rejected (fault : PathFault)
  | unreadable (fault : ReadFault)
  | readable (text : List Char)

def Files.sight (f : Files) (cwd : String) (most : Int) (path : String) : Sight :=
  match f.validatePath path cwd with
  | .error fault => .rejected fault
  | .ok place =>
    match f.validateFile place most with
    | .error fault => .rejected fault
    | .ok _ =>
      match f.readText place with
      | .error fault => .unreadable fault
      | .ok text => .readable text

def Sight.executed? (executor : Executor) (config : Config) (rules : List Rule) (path : String) :
    Sight → Option (Except Escape Outcome)
  | .readable text =>
    some (executor.execute ⟨path, text, config.target, config.strict, rules⟩ none).1
  | _ => none

def Sight.outcome? (executor : Executor) (config : Config) (rules : List Rule) (path : String)
    (seen : Sight) : Option Outcome :=
  (seen.executed? executor config rules path).bind (·.toOption)

/-- What a file gives when no other file is looked at. -/
def Sight.scanned (executor : Executor) (config : Config) (rules : List Rule) (cwd path : String)
    (seen : Sight) : Except EvaluationError FileScan :=
  match seen.executed? executor config rules path with
  | none => .ok { path }
  | some (.error cause) => .error (.escape cause)
  | some (.ok (.error failure)) => .ok { path, error := some failure }
  | some (.ok (.ok found)) => do
    return { path, findings := ← config.applySettings (Path.relativeTo path cwd) found }

namespace Scanner

variable {s : Scanner} {f : Files} {path : String} {file : Pending} {text : List Char}

def alone (s : Scanner) (f : Files) (path : String) : Except EvaluationError FileScan :=
  (f.sight s.cwd s.maxSize path).scanned s.executor s.config s.rules s.cwd path

theorem vet_eq_ok (h : s.vet f path = .ok file) :
    ∃ place stats, f.validatePath path s.cwd = .ok place ∧
      f.validateFile place s.maxSize = .ok stats ∧ file = ⟨path, place, stats.mtime⟩ := by
  unfold vet at h
  cases hp : f.validatePath path s.cwd with
  | error fault => simp [hp, bind, Except.bind] at h
  | ok place =>
    cases hs : f.validateFile place s.maxSize with
    | error fault => simp [hp, hs, bind, Except.bind] at h
    | ok stats =>
      simp only [hp, hs, bind, Except.bind, pure, Except.pure, Except.ok.injEq] at h
      exact ⟨place, stats, rfl, hs, h.symm⟩

theorem inspect_cases (s : Scanner) (f : Files) (st : ScanState) (path : String) :
    (∃ fault text, s.vet f path = .error fault ∧
      s.inspect f st path = (.finished { path }, st.note .warning .scan text)) ∨
    (∃ file findings text, s.vet f path = .ok file ∧
      (st.lookup path file.mtime).1 = some findings ∧
      s.inspect f st path = (.finished { path, findings, fromCache := true },
        (st.lookup path file.mtime).2.note .debug .scan text)) ∨
    (∃ file, s.vet f path = .ok file ∧ (st.lookup path file.mtime).1 = none ∧
      s.inspect f st path = (.pending file, (st.lookup path file.mtime).2)) := by
  unfold inspect
  cases hv : s.vet f path with
  | error fault => exact .inl ⟨fault, _, rfl, rfl⟩
  | ok file =>
    cases hl : st.lookup path file.mtime with
    | mk found st' =>
      cases found with
      | some findings => exact .inr (.inl ⟨file, findings, _, rfl, by simp [hl], by simp [hl]; rfl⟩)
      | none => exact .inr (.inr ⟨file, rfl, by simp [hl], by simp [hl]⟩)

theorem inspect_miss {st : ScanState} (hv : s.vet f path = .ok file)
    (hmiss : (st.lookup path file.mtime).1 = none) :
    s.inspect f st path = (.pending file, (st.lookup path file.mtime).2) := by
  rcases inspect_cases s f st path with ⟨fault, note, hv', hi⟩ | ⟨file', findings, note, hv', hl, hi⟩ |
    ⟨file', hv', hl, hi⟩
  · cases hv.symm.trans hv'
  · cases hv.symm.trans hv'
    rw [hmiss] at hl
    cases hl
  · cases hv.symm.trans hv'
    exact hi

theorem inspect_hit {st : ScanState} {findings : List Finding} (hv : s.vet f path = .ok file)
    (hit : (st.lookup path file.mtime).1 = some findings) :
    ∃ st', s.inspect f st path = (.finished { path, findings, fromCache := true }, st') := by
  rcases inspect_cases s f st path with ⟨fault, note, hv', hi⟩ | ⟨file', findings', note, hv', hl, hi⟩ |
    ⟨file', hv', hl, hi⟩
  · cases hv.symm.trans hv'
  · cases hv.symm.trans hv'
    cases hit.symm.trans hl
    exact ⟨_, hi⟩
  · cases hv.symm.trans hv'
    rw [hit] at hl
    cases hl

theorem vet_path (h : s.vet f path = .ok file) : file.path = path := by
  obtain ⟨place, stats, -, -, rfl⟩ := vet_eq_ok h
  rfl

theorem sight_rejected {fault : PathFault} (h : s.vet f path = .error fault) :
    f.sight s.cwd s.maxSize path = .rejected fault := by
  unfold vet at h
  cases hp : f.validatePath path s.cwd with
  | error fault' =>
    simp only [hp, bind, Except.bind, Except.error.injEq] at h
    simp [Files.sight, hp, h]
  | ok place =>
    cases hs : f.validateFile place s.maxSize with
    | error fault' =>
      simp only [hp, hs, bind, Except.bind, Except.error.injEq] at h
      simp [Files.sight, hp, hs, h]
    | ok stats => simp [hp, hs, bind, Except.bind, pure, Except.pure] at h

theorem sight_unreadable {fault : ReadFault} (h : s.vet f path = .ok file)
    (hr : f.readText file.place = .error fault) :
    f.sight s.cwd s.maxSize path = .unreadable fault := by
  obtain ⟨place, stats, hp, hs, rfl⟩ := vet_eq_ok h
  simp only at hr
  simp [Files.sight, hp, hs, hr]

theorem sight_readable (h : s.vet f path = .ok file) (hr : f.readText file.place = .ok text) :
    f.sight s.cwd s.maxSize path = .readable text := by
  obtain ⟨place, stats, hp, hs, rfl⟩ := vet_eq_ok h
  simp only at hr
  simp [Files.sight, hp, hs, hr]

theorem alone_rejected {fault : PathFault} (h : s.vet f path = .error fault) :
    s.alone f path = .ok { path } := by
  simp [alone, sight_rejected h, Sight.scanned, Sight.executed?]

theorem alone_unreadable {fault : ReadFault} (h : s.vet f path = .ok file)
    (hr : f.readText file.place = .error fault) : s.alone f path = .ok { path } := by
  simp [alone, sight_unreadable h hr, Sight.scanned, Sight.executed?]

theorem evaluate_eq_ok {st st' : ScanState} {scan : FileScan}
    (h : s.evaluate st file text = .ok (scan, st')) :
    (Sight.readable text).scanned s.executor s.config s.rules s.cwd file.path = .ok scan ∧
      scan.fromCache = false ∧
      (st'.cache = st.cache ∨
        scan = { path := file.path, findings := scan.findings } ∧
          st'.cache = st.cache.map fun c => c.set file.path scan.findings file.mtime) := by
  simp only [evaluate, task] at h
  cases ho : (s.executor.execute ⟨file.path, text, s.config.target, s.config.strict, s.rules⟩ none).1 with
  | error cause =>
    rw [ho] at h
    cases h
  | ok outcome =>
    cases outcome with
    | error failure =>
      simp only [ho, pure, Except.pure, Except.ok.injEq, Prod.mk.injEq] at h
      obtain ⟨rfl, rfl⟩ := h
      refine ⟨?_, rfl, .inl rfl⟩
      simp [Sight.scanned, Sight.executed?, ho]
    | ok found =>
      cases hf : s.config.applySettings (s.relative file.path) found with
      | error e => simp [ho, hf, bind, Except.bind] at h
      | ok findings =>
        simp only [ho, hf, mapError_ok, bind, Except.bind, pure, Except.pure, Except.ok.injEq,
          Prod.mk.injEq] at h
        obtain ⟨rfl, rfl⟩ := h
        refine ⟨?_, rfl, .inr ⟨rfl, rfl⟩⟩
        have hf' : s.config.applySettings (Path.relativeTo file.path s.cwd) found = .ok findings := hf
        simp [Sight.scanned, Sight.executed?, ho, hf', bind, Except.bind, pure, Except.pure]

end Scanner

end EdgeAudit

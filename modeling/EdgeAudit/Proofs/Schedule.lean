import EdgeAudit.Proofs.Discovery
import EdgeAudit.Proofs.ScanOrder
import Mathlib.Data.List.Nodup
import Mathlib.Data.List.Perm.Basic

/-!
When a scan starts its files, finishes them and reports on them. A run of the batches writes a log, and
`ScanLog.Orderly` says which event may follow a log. Each turn of a file keeps the log orderly, so what
follows from that holds at each moment of each run.
-/

namespace EdgeAudit

open Relation

inductive ScanEvent
  | started (path : String)
  | finished (path : String) (report : ProgressReport)

namespace ScanEvent

def start? : ScanEvent → Option String
  | started path => some path
  | finished _ _ => none

def end? : ScanEvent → Option String
  | started _ => none
  | finished path _ => some path

def report? : ScanEvent → Option ProgressReport
  | started _ => none
  | finished _ report => some report

end ScanEvent

namespace ScanLog

def starts (log : List ScanEvent) : List String := log.filterMap ScanEvent.start?

def ends (log : List ScanEvent) : List String := log.filterMap ScanEvent.end?

def reports (log : List ScanEvent) : List ProgressReport := log.filterMap ScanEvent.report?

def underway (log : List ScanEvent) : List String := (starts log).filter (· ∉ ends log)

section

variable (log : List ScanEvent) (path : String) (report : ProgressReport)

@[simp] theorem starts_started : starts (log ++ [.started path]) = starts log ++ [path] := by
  simp [starts, ScanEvent.start?]

@[simp] theorem starts_finished : starts (log ++ [.finished path report]) = starts log := by
  simp [starts, ScanEvent.start?]

@[simp] theorem ends_started : ends (log ++ [.started path]) = ends log := by
  simp [ends, ScanEvent.end?]

@[simp] theorem ends_finished : ends (log ++ [.finished path report]) = ends log ++ [path] := by
  simp [ends, ScanEvent.end?]

@[simp] theorem reports_started : reports (log ++ [.started path]) = reports log := by
  simp [reports, ScanEvent.report?]

@[simp] theorem reports_finished : reports (log ++ [.finished path report]) = reports log ++ [report] := by
  simp [reports, ScanEvent.report?]

end

/-- The next file is started once all files of earlier batches are finished; a file that is under way is
finished and reported with its number. -/
inductive Orderly (relative : String → String) (files : List String) (width : Nat) :
    List ScanEvent → Prop
  | nil : Orderly relative files width []
  | start {log : List ScanEvent} {path : String} (h : Orderly relative files width log)
      (next : files[(starts log).length]? = some path)
      (settled : ∀ j earlier, files[j]? = some earlier → j / width < (starts log).length / width →
        earlier ∈ ends log) :
      Orderly relative files width (log ++ [.started path])
  | finish {log : List ScanEvent} {path : String} (h : Orderly relative files width log)
      (begun : path ∈ starts log) (unended : path ∉ ends log) :
      Orderly relative files width
        (log ++ [.finished path ⟨(ends log).length + 1, files.length, relative path⟩])

namespace Orderly

variable {relative : String → String} {files : List String} {width : Nat} {log : List ScanEvent}

theorem initial (h : Orderly relative files width log) {first : List ScanEvent} (hf : first <+: log) :
    Orderly relative files width first := by
  induction h with
  | nil =>
    rw [List.prefix_nil.mp hf]
    exact .nil
  | start h next settled ih =>
    rcases List.prefix_concat_iff.mp hf with rfl | hf
    · exact .start h next settled
    · exact ih hf
  | finish h begun unended ih =>
    rcases List.prefix_concat_iff.mp hf with rfl | hf
    · exact .finish h begun unended
    · exact ih hf

theorem starts_initial (h : Orderly relative files width log) : starts log <+: files := by
  induction h with
  | nil => exact List.nil_prefix
  | @start log path h next settled ih =>
    obtain ⟨rest, hrest⟩ := ih
    rw [← hrest, List.getElem?_append_right le_rfl, Nat.sub_self] at next
    cases rest with
    | nil => simp at next
    | cons other rest =>
      obtain rfl : other = path := by simpa using next
      exact ⟨rest, by simp [hrest]⟩
  | finish h begun unended ih => simpa using ih

theorem mem_starts (h : Orderly relative files width log) : ∀ path ∈ ends log, path ∈ starts log := by
  induction h with
  | nil => simp [ends]
  | start h next settled ih =>
    intro path hp
    simp only [ends_started] at hp
    simp [ih path hp]
  | finish h begun unended ih =>
    intro path hp
    simp only [ends_finished, List.mem_append, List.mem_singleton] at hp
    rcases hp with hp | rfl
    · simpa using ih path hp
    · simpa using begun

theorem nodup_ends (h : Orderly relative files width log) : (ends log).Nodup := by
  induction h with
  | nil => exact List.nodup_nil
  | start h next settled ih => simpa using ih
  | finish h begun unended ih =>
    rw [ends_finished, ← List.concat_eq_append]
    exact ih.concat unended

theorem reports_eq (h : Orderly relative files width log) :
    reports log = (ends log).zipIdx.map fun (path, i) => ⟨i + 1, files.length, relative path⟩ := by
  induction h with
  | nil => rfl
  | start h next settled ih => simpa using ih
  | finish h begun unended ih => simp [ih, List.zipIdx_append]

theorem map_current (h : Orderly relative files width log) :
    (reports log).map (·.current) = (List.range (ends log).length).map (· + 1) := by
  calc (reports log).map (·.current)
      = ((ends log).zipIdx.map Prod.snd).map (· + 1) := by
        rw [h.reports_eq, List.map_map, List.map_map]
        rfl
    _ = (List.range (ends log).length).map (· + 1) := by
        rw [List.zipIdx_map_snd, List.range_eq_range']

theorem map_message (h : Orderly relative files width log) :
    (reports log).map (·.message) = (ends log).map relative := by
  calc (reports log).map (·.message)
      = ((ends log).zipIdx.map Prod.fst).map relative := by
        rw [h.reports_eq, List.map_map, List.map_map]
        rfl
    _ = (ends log).map relative := by rw [List.zipIdx_map_fst]

theorem settled {path : String} (h : Orderly relative files width (log ++ [.started path])) :
    files[(starts log).length]? = some path ∧
      ∀ j earlier, files[j]? = some earlier → j / width < (starts log).length / width →
        earlier ∈ ends log := by
  generalize hlog : log ++ [ScanEvent.started path] = whole at h
  cases h with
  | nil => simp at hlog
  | start h next settled =>
    obtain ⟨rfl, hlast⟩ := List.append_inj' hlog rfl
    cases hlast
    exact ⟨next, settled⟩
  | finish h begun unended =>
    obtain ⟨-, hlast⟩ := List.append_inj' hlog rfl
    cases hlast

theorem settled_last (h : Orderly relative files width log) {j : Nat} {earlier : String}
    (hj : files[j]? = some earlier) (hlast : j / width < ((starts log).length - 1) / width) :
    earlier ∈ ends log := by
  induction h with
  | nil => simp [starts] at hlast
  | start h next settled ih =>
    rw [ends_started]
    apply settled j earlier hj
    simpa using hlast
  | finish h begun unended ih =>
    rw [starts_finished] at hlast
    simp [ih hlast]

theorem length_underway (h : Orderly relative files width log) (hw : 0 < width) :
    (underway log).length ≤ width := by
  obtain ⟨k, hk⟩ : ∃ k, k = ((starts log).length - 1) / width * width := ⟨_, rfl⟩
  have hsize : (starts log).length - k ≤ width := by
    have := Nat.div_add_mod' ((starts log).length - 1) width
    have := Nat.mod_lt ((starts log).length - 1) hw
    omega
  have hearlier : ∀ path ∈ (starts log).take k, path ∈ ends log := by
    obtain ⟨rest, hrest⟩ := h.starts_initial
    intro path hp
    obtain ⟨j, hj, rfl⟩ := List.mem_take_iff_getElem.mp hp
    have hfile : files[j]? = some ((starts log).get ⟨j, by omega⟩) := by
      rw [← hrest, List.getElem?_append_left (by omega)]
      simp
    apply h.settled_last hfile
    rw [Nat.div_lt_iff_lt_mul hw]
    omega
  have hnone : ((starts log).take k).filter (· ∉ ends log) = [] := by
    rw [List.filter_eq_nil_iff]
    intro path hp
    simpa using hearlier path hp
  calc (underway log).length
      = (((starts log).drop k).filter (· ∉ ends log)).length := by
        unfold underway
        nth_rewrite 1 [← List.take_append_drop k (starts log)]
        rw [List.filter_append, hnone, List.nil_append]
    _ ≤ ((starts log).drop k).length := List.length_filter_le _ _
    _ ≤ width := by
        rw [List.length_drop]
        exact hsize

end Orderly

end ScanLog

inductive Phase
  | waiting
  | underway
  | done
deriving DecidableEq

def Stage.phase : Stage → Phase
  | .waiting => .waiting
  | .reading _ => .underway
  | .judging _ _ => .underway
  | .done _ => .done

theorem Stage.phase_eq_waiting {stage : Stage} : stage.phase = .waiting ↔ stage = .waiting := by
  cases stage <;> simp [phase]

namespace ScanLog

structure Settled (relative : String → String) (files : List String) (width : Nat)
    (past rest : List String) (log : List ScanEvent) : Prop where
  orderly : Orderly relative files width log
  paths : past ++ rest = files
  begun : starts log = past
  ended : ∀ path ∈ past, path ∈ ends log
  aligned : rest ≠ [] → width ∣ past.length

/-- Within a batch: what the log says of the files of the batch is how far they have come. -/
structure Recorded (relative : String → String) (files : List String) (width : Nat)
    (past : List String) (board : List (String × Phase)) (rest : List String) (log : List ScanEvent) :
    Prop where
  orderly : Orderly relative files width log
  paths : past ++ (board.map (·.1) ++ rest) = files
  begun : starts log = past ++ (board.filter (·.2 ≠ .waiting)).map (·.1)
  idle : board.Pairwise fun x y => x.2 = .waiting → y.2 = .waiting
  settled : ∀ path ∈ past, path ∈ ends log
  ended : ∀ x ∈ board, x.1 ∈ ends log ↔ x.2 = .done
  aligned : width ∣ past.length
  fits : board.length ≤ width

variable {relative : String → String} {files past rest : List String} {width : Nat}
  {log : List ScanEvent} {path : String}

theorem Settled.opened {batch : List String} (h : Settled relative files width past (batch ++ rest) log)
    (hfiles : files.Nodup) (hne : batch ≠ []) (hfits : batch.length ≤ width) :
    Recorded relative files width past (batch.map fun path => (path, .waiting)) rest log where
  orderly := h.orderly
  paths := by simpa [Function.comp_def] using h.paths
  begun := by simp [h.begun, List.filter_map, Function.comp_def]
  idle := by
    rw [List.pairwise_map]
    exact List.pairwise_of_forall fun _ _ _ => rfl
  settled := h.ended
  ended := by
    intro x hx
    obtain ⟨path, hp, rfl⟩ := List.mem_map.mp hx
    have hunended : path ∉ ends log := by
      intro hend
      have hpast : path ∈ past := by
        rw [← h.begun]
        exact h.orderly.mem_starts path hend
      rw [← h.paths] at hfiles
      exact List.disjoint_of_nodup_append hfiles hpast (List.mem_append_left rest hp)
    simp [hunended]
  aligned := h.aligned (by simp [hne])
  fits := by simpa using hfits

theorem Settled.ends_perm (h : Settled relative files width files [] log) (hfiles : files.Nodup) :
    (ends log).Perm files := by
  rw [List.perm_ext_iff_of_nodup h.orderly.nodup_ends hfiles]
  intro path
  constructor
  · intro hp
    rw [← h.begun]
    exact h.orderly.mem_starts path hp
  · exact h.ended path

namespace Recorded

variable {board before after : List (String × Phase)}

theorem closed (h : Recorded relative files width past board rest log)
    (hdone : ∀ x ∈ board, x.2 = .done) (hfull : rest ≠ [] → board.length = width) :
    Settled relative files width (past ++ board.map (·.1)) rest log where
  orderly := h.orderly
  paths := by simpa using h.paths
  begun := by
    rw [h.begun, List.filter_eq_self.mpr]
    intro x hx
    simp [hdone x hx]
  ended := by
    intro path hp
    rcases List.mem_append.mp hp with hp | hp
    · exact h.settled path hp
    · obtain ⟨x, hx, rfl⟩ := List.mem_map.mp hp
      exact (h.ended x hx).mpr (hdone x hx)
  aligned := by
    intro hrest
    rw [List.length_append, List.length_map, hfull hrest]
    exact Nat.dvd_add h.aligned (Nat.dvd_refl width)

theorem filter_begun
    (h : Recorded relative files width past (before ++ (path, .waiting) :: after) rest log)
    (hbefore : ∀ x ∈ before, x.2 ≠ .waiting) :
    before.filter (·.2 ≠ .waiting) = before ∧ after.filter (·.2 ≠ .waiting) = [] := by
  have hidle := (List.pairwise_append.mp h.idle).2.1
  have hafter : ∀ x ∈ after, x.2 = .waiting := by
    intro x hx
    exact (List.pairwise_cons.mp hidle).1 x hx rfl
  rw [List.filter_eq_self, List.filter_eq_nil_iff]
  exact ⟨by simpa using hbefore, by simpa using hafter⟩

theorem starts_before
    (h : Recorded relative files width past (before ++ (path, .waiting) :: after) rest log)
    (hbefore : ∀ x ∈ before, x.2 ≠ .waiting) : starts log = past ++ before.map (·.1) := by
  obtain ⟨hkept, hdropped⟩ := h.filter_begun hbefore
  rw [h.begun, List.filter_append, List.filter_cons_of_neg (by simp), hkept, hdropped, List.append_nil]

theorem idle_moved {phase phase' : Phase}
    (h : (before ++ (path, phase) :: after).Pairwise fun x y => x.2 = .waiting → y.2 = .waiting)
    (hbefore : ∀ x ∈ before, x.2 ≠ .waiting) (hphase : phase' ≠ .waiting) :
    (before ++ (path, phase') :: after).Pairwise fun x y => x.2 = .waiting → y.2 = .waiting := by
  simp only [List.pairwise_append, List.pairwise_cons] at h ⊢
  obtain ⟨hfirst, ⟨-, hlast⟩, -⟩ := h
  refine ⟨hfirst, ⟨fun _ _ hw => absurd hw hphase, hlast⟩, ?_⟩
  intro x hx y _ hw
  exact absurd hw (hbefore x hx)

theorem start (h : Recorded relative files width past (before ++ (path, .waiting) :: after) rest log)
    (hbefore : ∀ x ∈ before, x.2 ≠ .waiting) :
    Recorded relative files width past (before ++ (path, .underway) :: after) rest
      (log ++ [.started path]) where
  orderly := by
    have hfits := h.fits
    simp only [List.length_append, List.length_cons] at hfits
    refine .start h.orderly ?_ ?_
    · rw [h.starts_before hbefore, ← h.paths]
      simp
    · intro j earlier hj hlt
      obtain ⟨k, hk⟩ := h.aligned
      have hbatch : (starts log).length / width = k := by
        rw [h.starts_before hbefore, List.length_append, List.length_map, hk,
          Nat.mul_add_div (by omega), Nat.div_eq_of_lt (by omega), Nat.add_zero]
      rw [hbatch, Nat.div_lt_iff_lt_mul (by omega), Nat.mul_comm, ← hk] at hlt
      rw [← h.paths, List.getElem?_append_left hlt] at hj
      exact h.settled earlier (List.mem_of_getElem? hj)
  paths := by simpa using h.paths
  begun := by
    obtain ⟨hkept, hdropped⟩ := h.filter_begun hbefore
    rw [starts_started, h.starts_before hbefore, List.filter_append, List.filter_cons_of_pos (by simp),
      hkept, hdropped]
    simp
  idle := idle_moved h.idle hbefore (by simp)
  settled := by simpa using h.settled
  ended := by
    intro x hx
    rw [ends_started]
    rcases List.mem_append.mp hx with hx | hx
    · exact h.ended x (by simp [hx])
    · rcases List.mem_cons.mp hx with rfl | hx
      · simpa using h.ended (path, .waiting) (by simp)
      · exact h.ended x (by simp [hx])
  aligned := h.aligned
  fits := by simpa using h.fits

theorem finish (h : Recorded relative files width past (before ++ (path, .underway) :: after) rest log)
    (hfiles : files.Nodup) :
    Recorded relative files width past (before ++ (path, .done) :: after) rest
      (log ++ [.finished path ⟨(ends log).length + 1, files.length, relative path⟩]) where
  orderly := by
    refine .finish h.orderly ?_ ?_
    · simp [h.begun]
    · simp [h.ended (path, .underway) (by simp)]
  paths := by simpa using h.paths
  begun := by simpa using h.begun
  idle := by
    refine idle_moved h.idle ?_ (by simp)
    intro x hx hw
    have hidle := (List.pairwise_append.mp h.idle).2.2 x hx (path, .underway) (by simp) hw
    cases hidle
  settled := by
    intro earlier hearlier
    simp [h.settled earlier hearlier]
  ended := by
    have hother : ∀ x ∈ before ++ after, x.1 ≠ path := by
      intro x hx hpath
      rw [← h.paths] at hfiles
      have hboard := hfiles.of_append_right.of_append_left
      rw [List.map_append, List.map_cons, List.nodup_middle, ← List.map_append] at hboard
      exact (List.nodup_cons.mp hboard).1 (List.mem_map.mpr ⟨x, hx, hpath⟩)
    intro x hx
    rw [ends_finished]
    rcases List.mem_append.mp hx with hx | hx
    · simpa [hother x (by simp [hx])] using h.ended x (by simp [hx])
    · rcases List.mem_cons.mp hx with rfl | hx
      · simp
      · simpa [hother x (by simp [hx])] using h.ended x (by simp [hx])
  aligned := h.aligned
  fits := by simpa using h.fits

end Recorded

end ScanLog

open ScanLog

def Scanner.events (s : Scanner) (total : Nat) (p : Progress) (path : String) (stage stage' : Stage) :
    List ScanEvent :=
  (match stage with
    | .waiting => [.started path]
    | _ => []) ++
  match stage' with
  | .done _ => [.finished path ⟨p.completed.length + 1, total, s.relative path⟩]
  | _ => []

namespace Batch

inductive Turn (s : Scanner) (f : Files) (total : Nat) :
    Batch × List ScanEvent → Batch × List ScanEvent → Prop
  | turn {p : Progress} {st : ScanState} {before after : List (String × Stage)} {path : String}
      {stage stage' : Stage} {log : List ScanEvent}
      (inOrder : stage = .waiting → ∀ x ∈ before, x.2 ≠ .waiting)
      (h : FileStep s f path stage p.toScanState stage' st) :
      Turn s f total (⟨p, before ++ (path, stage) :: after⟩, log)
        (⟨p.moved path st stage', before ++ (path, stage') :: after⟩,
          log ++ s.events total p path stage stage')

variable {s : Scanner} {f : Files} {total width : Nat} {files past rest : List String}

theorem step_of_turn {x y : Batch × List ScanEvent} (h : Turn s f total x y) : Step s f x.1 y.1 := by
  cases h with
  | turn inOrder h => exact .turn inOrder h

theorem turns_of_steps {b b' : Batch} (h : ReflTransGen (Step s f) b b') (log : List ScanEvent) :
    ∃ log', ReflTransGen (Turn s f total) (b, log) (b', log') := by
  induction h with
  | refl => exact ⟨log, .refl⟩
  | tail _ step ih =>
    obtain ⟨log', hlog'⟩ := ih
    cases step with
    | turn inOrder h => exact ⟨_, hlog'.tail (.turn inOrder h)⟩

def board (b : Batch) : List (String × Phase) :=
  b.stages.map fun x => (x.1, x.2.phase)

def Records (s : Scanner) (files : List String) (width : Nat) (past rest : List String)
    (x : Batch × List ScanEvent) : Prop :=
  x.1.progress.completed = ends x.2 ∧ Recorded s.relative files width past x.1.board rest x.2

theorem turn_records (hfiles : files.Nodup) {x y : Batch × List ScanEvent}
    (h : Turn s f files.length x y) (hx : Records s files width past rest x) :
    Records s files width past rest y := by
  cases h with
  | @turn p st before after path stage stage' log inOrder h =>
    obtain ⟨hcompleted, hx⟩ := hx
    have hbefore : stage = .waiting →
        ∀ x ∈ before.map fun x => (x.1, x.2.phase), x.2 ≠ .waiting := by
      intro hstage x hx
      obtain ⟨y, hy, rfl⟩ := List.mem_map.mp hx
      rw [Ne, Stage.phase_eq_waiting]
      exact inOrder hstage y hy
    simp only [board, List.map_append, List.map_cons] at hx hcompleted
    cases h with
    | finish h =>
      have hfinished := (hx.start (hbefore rfl)).finish hfiles
      constructor
      · change p.completed ++ [path] = ends (log ++ ([.started path] ++ [.finished path _]))
        rw [← List.append_assoc, ends_finished, ends_started, hcompleted]
      · simpa [board, Scanner.events, Stage.phase, hcompleted] using hfinished
    | suspend h =>
      have hstarted := hx.start (hbefore rfl)
      constructor
      · simpa [Scanner.events, Progress.moved] using hcompleted
      · simpa [board, Scanner.events, Stage.phase] using hstarted
    | read hr =>
      constructor
      · simpa [Scanner.events, Progress.moved] using hcompleted
      · simpa [board, Scanner.events, Stage.phase] using hx
    | fail | judge =>
      have hfinished := hx.finish hfiles
      constructor
      · simp [Scanner.events, Progress.moved, Progress.complete, hcompleted]
      · simpa [board, Scanner.events, Stage.phase, hcompleted] using hfinished

theorem turns_record (hfiles : files.Nodup) {x y : Batch × List ScanEvent}
    (h : ReflTransGen (Turn s f files.length) x y) (hx : Records s files width past rest x) :
    Records s files width past rest y := by
  induction h with
  | refl => exact hx
  | tail _ step ih => exact turn_records hfiles step ih

end Batch

inductive LoggedRun (s : Scanner) (f : Files) (total : Nat) : Progress → List ScanEvent →
    List (List String) → List FileScan → Progress → List ScanEvent → Prop
  | nil (p : Progress) (log : List ScanEvent) : LoggedRun s f total p log [] [] p log
  | cons {p p' : Progress} {log log' log'' : List ScanEvent} {b : Batch} {batch : List String}
      {batches : List (List String)} {scans more : List FileScan}
      (h : ReflTransGen (Batch.Turn s f total) (Batch.start p batch, log) (b, log'))
      (hdone : b.stages.map (·.2) = scans.map .done)
      (later : LoggedRun s f total b.progress log' batches more p' log'') :
      LoggedRun s f total p log (batch :: batches) (scans ++ more) p' log''

theorem inBatches_of_ne_nil {α : Type} (n : Nat) {xs : List α} (h : xs ≠ []) :
    inBatches n xs = xs.take (n + 1) :: inBatches n (xs.drop (n + 1)) := by
  cases xs with
  | nil => exact absurd rfl h
  | cons x xs => simp [inBatches]

namespace LoggedRun

variable {s : Scanner} {f : Files} {total width : Nat} {files : List String} {p p' : Progress}
  {log log' : List ScanEvent} {batches : List (List String)} {scans : List FileScan}

theorem batchesRun (h : LoggedRun s f total p log batches scans p' log') :
    BatchesRun s f p batches scans p' := by
  induction h with
  | nil p log => exact .nil p
  | cons h hdone _ ih =>
    exact .cons ⟨_, h.lift Prod.fst fun _ _ => Batch.step_of_turn, hdone, rfl⟩ ih

theorem of_batchesRun (h : BatchesRun s f p batches scans p') (log : List ScanEvent) :
    ∃ log', LoggedRun s f total p log batches scans p' log' := by
  induction h generalizing log with
  | nil p => exact ⟨log, .nil p log⟩
  | cons h _ ih =>
    obtain ⟨b, hsteps, hdone, rfl⟩ := h
    obtain ⟨log', hturns⟩ := Batch.turns_of_steps hsteps log
    obtain ⟨log'', hlater⟩ := ih log'
    exact ⟨log'', .cons hturns hdone hlater⟩

theorem settled (hfiles : files.Nodup) (hw : 0 < width)
    (h : LoggedRun s f files.length p log batches scans p' log') {past rest : List String}
    (hbatches : batches = inBatches (width - 1) rest) (hp : p.completed = ends log)
    (hsettled : Settled s.relative files width past rest log) :
    Settled s.relative files width files [] log' ∧ p'.completed = ends log' := by
  -- `past` has the files of the batches before, all settled; the next batch takes `width` of `rest`
  induction h generalizing past rest with
  | nil p log =>
    have hrest : rest = [] := by
      by_contra hrest
      rw [inBatches_of_ne_nil _ hrest] at hbatches
      cases hbatches
    subst hrest
    have hpast := hsettled.paths
    rw [List.append_nil] at hpast
    subst hpast
    exact ⟨hsettled, hp⟩
  | @cons p p' log log' log'' b batch batches scans more h hdone _ ih =>
    have hrest : rest ≠ [] := by
      rintro rfl
      simp [inBatches] at hbatches
    rw [inBatches_of_ne_nil _ hrest, Nat.sub_add_cancel hw] at hbatches
    obtain ⟨rfl, rfl⟩ := List.cons.inj hbatches
    rw [← List.take_append_drop width rest] at hsettled
    have hopened := hsettled.opened hfiles (by simpa [hrest] using hw.ne') (List.length_take_le _ _)
    have hstart : Batch.Records s files width past (rest.drop width) (Batch.start p (rest.take width), log) := by
      refine ⟨hp, ?_⟩
      simpa [Batch.board, Batch.start, Function.comp_def, Stage.phase] using hopened
    obtain ⟨hcompleted, hrecorded⟩ := Batch.turns_record hfiles h hstart
    have hsize : b.board.length = (rest.take width).length := by
      have hpaths := congrArg List.length (Batch.run_paths (h.lift Prod.fst fun _ _ => Batch.step_of_turn))
      simpa [Batch.board, Batch.start] using hpaths
    refine ih rfl hcompleted (hrecorded.closed ?_ ?_)
    · intro x hx
      obtain ⟨y, hy, rfl⟩ := List.mem_map.mp hx
      have hstage : y.2 ∈ scans.map Stage.done := hdone ▸ List.mem_map.mpr ⟨y, hy, rfl⟩
      obtain ⟨scan, -, hscan⟩ := List.mem_map.mp hstage
      rw [← hscan]
      rfl
    · intro hmore
      have hlong : width < rest.length := by simpa using hmore
      rw [hsize, List.length_take]
      omega

end LoggedRun

namespace Scanner

def width (s : Scanner) (fileCount : Nat) : Nat :=
  if s.parallel then s.batchSize fileCount else 1

theorem width_pos (s : Scanner) (fileCount : Nat) : 0 < s.width fileCount := by
  unfold width batchSize
  split <;> omega

theorem cast_batchSize (s : Scanner) (fileCount : Nat) :
    (s.batchSize fileCount : Int) = 2 * max 1 (s.maxWorkers.getD (min 4 fileCount)) := by
  have hdefault : ((min 4 fileCount : Nat) : Int) = min 4 (fileCount : Int) := by omega
  unfold batchSize defaultWorkers
  rw [hdefault]
  generalize s.maxWorkers.getD (min 4 (fileCount : Int)) = workers
  omega

theorem batches_eq (s : Scanner) (files : List String) :
    s.batches files = inBatches (s.width files.length - 1) files := by
  unfold batches width
  split
  · rfl
  · induction files with
    | nil => simp [inBatches]
    | cons path files ih => simpa [inBatches] using ih

def Logs (s : Scanner) (f : Files) (changes : ChangeSet) (elapsed : Number.Binary64)
    (cache : Option FindingCache) (out : ScanOutcome) (log : List ScanEvent) : Prop :=
  s.outOfStack = false ∧ ∃ found notes scans p, s.discover f = .ok (found, notes) ∧
    LoggedRun s f (s.selected changes found).1.length
      { cache, notes := s.openingNotes changes found notes } []
      (s.batches (s.selected changes found).1) scans p log ∧
    out = ⟨resultOf scans cache.isSome (.real (elapsed.scale 1000)), p.completed, p.notes, p.cache⟩

variable {s : Scanner} {f : Files} {changes : ChangeSet} {elapsed : Number.Binary64}
  {cache : Option FindingCache} {out : ScanOutcome} {log : List ScanEvent}

theorem scans_iff_logs :
    s.Scans f changes elapsed cache out ↔ ∃ log, s.Logs f changes elapsed cache out log := by
  constructor
  · rintro ⟨hstack, found, notes, scans, p, hd, hrun, rfl⟩
    obtain ⟨log, hlog⟩ := LoggedRun.of_batchesRun hrun []
    exact ⟨log, hstack, found, notes, scans, p, hd, hlog, rfl⟩
  · rintro ⟨log, hstack, found, notes, scans, p, hd, hrun, rfl⟩
    exact ⟨hstack, found, notes, scans, p, hd, hrun.batchesRun, rfl⟩

theorem nodup_selected {found : List String} {notes : List LogLine}
    (hd : s.discover f = .ok (found, notes)) : (s.selected changes found).1.Nodup := by
  have hfound : found.Nodup := (discover_sorted hd).imp fun hlt heq => absurd (heq ▸ hlt) (String.lt_irrefl _)
  unfold selected
  split
  · exact hfound.filter _
  · exact hfound

theorem logs_settled (h : s.Logs f changes elapsed cache out log) :
    ∃ found notes, s.discover f = .ok (found, notes) ∧
      Settled s.relative (s.selected changes found).1 (s.width (s.selected changes found).1.length)
        (s.selected changes found).1 [] log ∧ s.reports out = ScanLog.reports log := by
  obtain ⟨-, found, notes, scans, p, hd, hrun, rfl⟩ := h
  have hcount : (s.selected changes found).1.length = scans.length := by
    obtain ⟨hall, -⟩ := hrun.batchesRun.holds (Q := fun _ _ => True) (C := fun _ => True)
      (fun _ => trivial) (fun _ _ _ _ _ _ _ _ => ⟨trivial, trivial⟩) trivial
    rw [flatten_batches] at hall
    exact hall.length_eq
  have hfirst : Settled s.relative (s.selected changes found).1
      (s.width (s.selected changes found).1.length) [] (s.selected changes found).1 [] :=
    ⟨.nil, rfl, rfl, by simp, by simp⟩
  obtain ⟨hsettled, hcompleted⟩ := hrun.settled (nodup_selected hd) (s.width_pos _) (s.batches_eq _)
    rfl hfirst
  refine ⟨found, notes, hd, hsettled, ?_⟩
  rw [hsettled.orderly.reports_eq, ← hcompleted]
  simp [Scanner.reports, resultOf, hcount]

/-- At each moment of each returning scan: files are started in the order of discovery, at most a batch of
them is under way, and a batch waits for those before it. The reports count the files. -/
theorem scan_schedule (s : Scanner) (f : Files) (changes : ChangeSet) (elapsed : Number.Binary64)
    (cache : Option FindingCache) (out : ScanOutcome) :
    (s.Scans f changes elapsed cache out ↔ ∃ log, s.Logs f changes elapsed cache out log) ∧
    ∀ log, s.Logs f changes elapsed cache out log →
      ∃ found notes, s.discover f = .ok (found, notes) ∧
        let files := (s.selected changes found).1
        let n := files.length
        let w := s.width n
        (s.parallel = true → (w : Int) = 2 * max 1 (s.maxWorkers.getD (min 4 n))) ∧
        files.Nodup ∧ starts log = files ∧ (ends log).Perm files ∧
        (∀ now, now <+: log → (underway now).length ≤ w) ∧
        (∀ now path, now ++ [.started path] <+: log → ∀ i j earlier, files[i]? = some path →
          files[j]? = some earlier → j / w < i / w → earlier ∈ ends now) ∧
        s.reports out = ScanLog.reports log ∧
        (s.reports out).map (·.current) = (List.range n).map (· + 1) ∧
        (∀ r ∈ s.reports out, r.total = n) ∧
        ((s.reports out).map (·.message)).Perm (files.map s.relative) := by
  refine ⟨scans_iff_logs, ?_⟩
  intro log hlog
  obtain ⟨found, notes, hd, hsettled, hreports⟩ := logs_settled hlog
  refine ⟨found, notes, hd, ?_⟩
  intro files n w
  have hfiles : files.Nodup := nodup_selected hd
  have hends : (ends log).Perm files := hsettled.ends_perm hfiles
  refine ⟨?_, hfiles, hsettled.begun, hends, ?_, ?_, hreports, ?_, ?_, ?_⟩
  · intro hparallel
    simp only [w, width, hparallel, if_true]
    exact s.cast_batchSize n
  · intro now hnow
    exact (hsettled.orderly.initial hnow).length_underway (s.width_pos n)
  · intro now path hnow i j earlier hi hj hlt
    obtain ⟨hnext, hearlier⟩ := (hsettled.orderly.initial hnow).settled
    have hplace : i = (starts now).length := by
      obtain ⟨hlt, -⟩ := List.getElem?_eq_some_iff.mp hi
      exact (List.getElem?_inj hlt hfiles).mp (hi.trans hnext.symm)
    rw [hplace] at hlt
    exact hearlier j earlier hj hlt
  · rw [hreports, hsettled.orderly.map_current, hends.length_eq]
  · intro r hr
    rw [hreports, hsettled.orderly.reports_eq] at hr
    obtain ⟨x, -, rfl⟩ := List.mem_map.mp hr
    rfl
  · rw [hreports, hsettled.orderly.map_message]
    exact hends.map s.relative

theorem scan_schedule_pair : ∃ out log,
    { sampleScanner with parallel := true, maxWorkers := some (-3) }.scan (sampleFiles ⟨#[98]⟩ 1) ⟨[], []⟩
      (.ofInt 0) none = .ok out ∧
    starts log = ["/p/a.js", "/p/b.js"] ∧ (∀ now, now <+: log → (underway now).length ≤ 2) ∧
    ScanLog.reports log = sampleScanner.reports out ∧
    (ScanLog.reports log).map (·.current) = [1, 2] := by
  obtain ⟨out, hout⟩ := scan_returns (s := { sampleScanner with parallel := true, maxWorkers := some (-3) })
    (f := sampleFiles ⟨#[98]⟩ 1) rfl (sample_discover _ _)
    (fun path _ => returns_of_rules_nil rfl rfl sample_stays path) (.ofInt 0) none
  obtain ⟨hiff, hlogs⟩ := scan_schedule { sampleScanner with parallel := true, maxWorkers := some (-3) }
    (sampleFiles ⟨#[98]⟩ 1) ⟨[], []⟩ (.ofInt 0) none out
  obtain ⟨log, hlog⟩ := hiff.mp (scan_scans hout)
  obtain ⟨found, notes, hd, -, -, hstarts, -, hunderway, -, hreports, hcurrent, -⟩ := hlogs log hlog
  have hfound : (found, notes) = (["/p/a.js", "/p/b.js"], []) :=
    Except.ok.inj (hd.symm.trans (sample_discover _ _))
  cases hfound
  refine ⟨out, log, hout, hstarts, hunderway, hreports.symm, ?_⟩
  rw [← hreports, hcurrent]
  rfl

end Scanner

end EdgeAudit

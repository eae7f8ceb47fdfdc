import EdgeAudit.Number.Literal
import EdgeAudit.Source.Position

namespace EdgeAudit

open Number

structure FileError where
  file : String
  message : String
  deriving DecidableEq, Repr

structure ScanResult where
  findings : List Finding := []
  fileCount : Int := 0
  duration : Quantity := .real (Binary64.zero false)
  cachedCount : Option Int := none
  errors : List FileError := []

def Finding.listedBefore (a b : Finding) : Bool :=
  if a.severity.rank != b.severity.rank then b.severity.rank < a.severity.rank
  else if a.location.file != b.location.file then a.location.file < b.location.file
  else a.location.line ≤ b.location.line

/-- Why a result has no report: a whole number is too long to be written, or a whole duration is beyond
every double. -/
inductive ReportFault
  | tooLong
  | tooLarge
  deriving DecidableEq, Repr

def shownWhole (n : Int) : Except ReportFault String :=
  match wholeText? n with
  | some text => .ok text
  | none => .error .tooLong

namespace ScanResult

def count (r : ScanResult) (severity : Severity) : Nat :=
  r.findings.countP fun f => f.severity == severity

def counts (r : ScanResult) : List (Severity × Nat) :=
  Severity.all.map fun s => (s, r.count s)

def total (r : ScanResult) : Nat :=
  (r.counts.map (·.2)).foldr (· + ·) 0

def hasSeverity (r : ScanResult) (severity : Severity) : Bool :=
  r.findings.any fun f => f.severity == severity

def exitCode (r : ScanResult) (strict : Bool) : Nat :=
  if r.hasSeverity .error then 2
  else if strict && r.hasSeverity .warning then 2
  else if r.findings.isEmpty then 0
  else 1

def topFindings (r : ScanResult) : List Finding :=
  r.findings.mergeSort Finding.listedBefore

/-- The first findings of a report; a limit below zero counts from the end. -/
def topSlice (r : ScanResult) (limit : Option Int) : List Finding :=
  match limit with
  | none => r.topFindings
  | some n => r.topFindings.take (sliceEnd r.findings.length n)

end ScanResult

end EdgeAudit

namespace EdgeAudit

def zeroPadded (width n : Nat) : String :=
  let digits := toString n
  String.ofList (List.replicate (width - digits.length) '0') ++ digits

structure Date where
  year : Nat
  month : Nat
  day : Nat
  deriving DecidableEq, Repr

namespace Date

def isLeap (year : Nat) : Bool :=
  year % 4 == 0 && (year % 100 != 0 || year % 400 == 0)

def daysInMonth (year month : Nat) : Nat :=
  if month = 2 then (if isLeap year then 29 else 28)
  else if month = 4 ∨ month = 6 ∨ month = 9 ∨ month = 11 then 30
  else 31

def fault? (d : Date) : Option String :=
  if d.year = 0 then some "year 0 is out of range"
  else if d.month = 0 ∨ 12 < d.month then some "month must be in 1..12"
  else if d.day = 0 ∨ daysInMonth d.year d.month < d.day then some "day is out of range for month"
  else none

def plain (d : Date) : String :=
  zeroPadded 4 d.year ++ "-" ++ zeroPadded 2 d.month ++ "-" ++ zeroPadded 2 d.day

def fields (d : Date) : String :=
  toString d.year ++ ", " ++ toString d.month ++ ", " ++ toString d.day

end Date

structure Moment where
  date : Date
  hour : Nat
  minute : Nat
  second : Nat
  micro : Nat
  zone : Option Int
  deriving DecidableEq, Repr

namespace Moment

def fault? (t : Moment) : Option String :=
  match t.date.fault? with
  | some reason => some reason
  | none =>
    if 23 < t.hour then some "hour must be in 0..23"
    else if 59 < t.minute then some "minute must be in 0..59"
    else if 59 < t.second then some "second must be in 0..59"
    else none

def lengthWritten (seconds : Int) : String :=
  let days := seconds / 86400
  let rest := seconds % 86400
  let parts := (if days = 0 then [] else ["days=" ++ toString days]) ++
    (if rest = 0 then [] else ["seconds=" ++ toString rest])
  "datetime.timedelta(" ++ (if parts.isEmpty then "0" else String.intercalate ", " parts) ++ ")"

def zoneWritten (seconds : Int) : String :=
  if seconds = 0 then "datetime.timezone.utc"
  else "datetime.timezone(" ++ lengthWritten seconds ++ ")"

def zoneFault? (seconds : Int) : Option String :=
  if -86400 < seconds ∧ seconds < 86400 then none
  else some ("offset must be a timedelta strictly between -timedelta(hours=24) and " ++
    "timedelta(hours=24), not " ++ lengthWritten seconds ++ ".")

def written (t : Moment) : String :=
  let small := if t.micro ≠ 0 then ", " ++ toString t.second ++ ", " ++ toString t.micro
    else if t.second ≠ 0 then ", " ++ toString t.second
    else ""
  let zone := match t.zone with
    | none => ""
    | some z => ", tzinfo=" ++ zoneWritten z
  "datetime.datetime(" ++ t.date.fields ++ ", " ++ toString t.hour ++ ", " ++ toString t.minute ++
    small ++ zone ++ ")"

def plain (t : Moment) : String :=
  let zone := match t.zone with
    | none => ""
    | some z =>
      let minutes := z.natAbs / 60
      (if z < 0 then "-" else "+") ++ zeroPadded 2 (minutes / 60) ++ ":" ++
        zeroPadded 2 (minutes % 60)
  t.date.plain ++ " " ++ zeroPadded 2 t.hour ++ ":" ++ zeroPadded 2 t.minute ++ ":" ++
    zeroPadded 2 t.second ++ (if t.micro = 0 then "" else "." ++ zeroPadded 6 t.micro) ++ zone

end Moment

end EdgeAudit

import UnusedImports.Duration

namespace UnusedImports

structure Instant where
  nanoseconds : Int
  deriving DecidableEq, Repr

namespace Instant

def after (t : Instant) (d : Duration) : Instant := ⟨t.nanoseconds + d.nanoseconds⟩

/-- The span from an earlier time, as far as it fits. -/
def since (t start : Instant) : Duration :=
  ⟨Integer.clamp (t.nanoseconds - start.nanoseconds)⟩

/-- The year, month and day of a day counted from the start of 1970. Years start in March here, so
that the leap day is the last of its year, and are counted in periods of 400. -/
def civil (day : Int) : Int × Nat × Nat :=
  let z := day + 719468
  let era := z.fdiv 146097
  let dayOfEra := (z - era * 146097).toNat
  let yearOfEra := (dayOfEra - dayOfEra / 1460 + dayOfEra / 36524 - dayOfEra / 146096) / 365
  let dayOfYear := dayOfEra - (365 * yearOfEra + yearOfEra / 4 - yearOfEra / 100)
  let shifted := (5 * dayOfYear + 2) / 153
  let month := if shifted < 10 then shifted + 3 else shifted - 9
  let year := yearOfEra + era * 400
  (if month ≤ 2 then year + 1 else year, month, dayOfYear - (153 * shifted + 2) / 5 + 1)

/-- A number with at least the given number of digits. -/
def padded (width : Nat) (n : Nat) : Bytes :=
  let digits := Bytes.ofNat n
  List.replicate (width - digits.length) 0x30 ++ digits

/-- Date and time in the standard zone, with the fraction of the second as long as it needs. -/
def render (t : Instant) : Bytes :=
  let day := t.nanoseconds.fdiv 86400000000000
  let rest := (t.nanoseconds - day * 86400000000000).toNat
  let seconds := rest / 1000000000
  let (year, month, dayOfMonth) := civil day
  (if year < 0 then utf8 "-" else []) ++ padded 4 year.natAbs ++ utf8 "-" ++ padded 2 month ++
    utf8 "-" ++ padded 2 dayOfMonth ++ utf8 "T" ++ padded 2 (seconds / 3600) ++ utf8 ":" ++
    padded 2 (seconds / 60 % 60) ++ utf8 ":" ++ padded 2 (seconds % 60) ++
    Duration.fraction (rest % 1000000000) 9 ++ utf8 "Z"

end Instant

end UnusedImports

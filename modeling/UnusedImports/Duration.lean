import UnusedImports.Number.Wrap
import UnusedImports.Text.Bytes

/-! Durations are written in the largest units that fit. -/

namespace UnusedImports

structure Duration where
  nanoseconds : Int
  deriving DecidableEq, Repr

namespace Duration

def ofMilliseconds (n : Int) : Duration := ⟨Integer.wrap (n * 1000000)⟩

def ofMicroseconds (n : Int) : Duration := ⟨Integer.wrap (n * 1000)⟩

/-- The digits of a fraction with a given number of places, without zeros at its end and after a
point if any are left. -/
def fraction (n places : Nat) : Bytes :=
  let digits := Bytes.ofNat n
  let padded := List.replicate (places - digits.length) 0x30 ++ digits
  let short := (padded.reverse.dropWhile (· == 0x30)).reverse
  if short.isEmpty then [] else utf8 "." ++ short

/-- A duration without its sign. -/
def renderAbs (n : Nat) : Bytes :=
  if n = 0 then utf8 "0s"
  else if n < 1000 then Bytes.ofNat n ++ utf8 "ns"
  else if n < 1000000 then Bytes.ofNat (n / 1000) ++ fraction (n % 1000) 3 ++ utf8 "µs"
  else if n < 1000000000 then
    Bytes.ofNat (n / 1000000) ++ fraction (n % 1000000) 6 ++ utf8 "ms"
  else
    let seconds := n / 1000000000
    let last := Bytes.ofNat (seconds % 60) ++ fraction (n % 1000000000) 9 ++ utf8 "s"
    if seconds < 60 then last
    else if seconds < 3600 then Bytes.ofNat (seconds / 60) ++ utf8 "m" ++ last
    else
      Bytes.ofNat (seconds / 3600) ++ utf8 "h" ++ Bytes.ofNat (seconds / 60 % 60) ++ utf8 "m" ++ last

def render (d : Duration) : Bytes :=
  if d.nanoseconds < 0 then utf8 "-" ++ renderAbs d.nanoseconds.natAbs
  else renderAbs d.nanoseconds.natAbs

/-- A duration rounded to whole milliseconds, a half away from zero, as far as that fits. -/
def roundToMilliseconds (d : Duration) : Duration :=
  let n := (d.nanoseconds.natAbs + 500000) / 1000000 * 1000000
  ⟨Integer.clamp (if d.nanoseconds < 0 then -n else n)⟩

end Duration

end UnusedImports

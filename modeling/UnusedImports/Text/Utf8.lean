import UnusedImports.Text.Bytes
import UnusedImports.Text.CodePoint

/-! Reading never fails: a byte that starts no well-formed sequence reads as the replacement code
point and takes one byte. -/

namespace UnusedImports.Utf8

def isTail (b : UInt8) : Bool := 0x80 ≤ b && b ≤ 0xbf

def tail (b : UInt8) : Nat := b.toNat % 64

/-- The code point of a well-formed sequence of two, three or four bytes at the front of a text,
with its number of bytes. Overlong forms, surrogates and values above U+10FFFF are not well
formed. -/
def sequence? : Bytes → Option (Nat × Nat)
  | a :: b :: rest =>
    if 0xc2 ≤ a && a ≤ 0xdf then
      if isTail b then some ((a.toNat % 32) * 64 + tail b, 2) else none
    else if 0xe0 ≤ a && a ≤ 0xef then
      match rest with
      | c :: _ =>
        if isTail b && isTail c && (a != 0xe0 || 0xa0 ≤ b) && (a != 0xed || b ≤ 0x9f) then
          some ((a.toNat % 16) * 4096 + tail b * 64 + tail c, 3)
        else none
      | [] => none
    else if 0xf0 ≤ a && a ≤ 0xf4 then
      match rest with
      | c :: d :: _ =>
        if isTail b && isTail c && isTail d && (a != 0xf0 || 0x90 ≤ b) && (a != 0xf4 || b ≤ 0x8f)
        then some ((a.toNat % 8) * 262144 + tail b * 4096 + tail c * 64 + tail d, 4)
        else none
      | _ => none
    else none
  | _ => none

/-- The first code point of a text and the number of bytes it takes. The empty text gives the
replacement code point and no bytes. -/
def decode : Bytes → Nat × Nat
  | [] => (CodePoint.replacement, 0)
  | b :: rest =>
    if b < 0x80 then (b.toNat, 1)
    else (sequence? (b :: rest)).getD (CodePoint.replacement, 1)

/-- The bytes of a code point. Surrogates and values above U+10FFFF are written as the replacement
code point. -/
def encode (c : Nat) : Bytes :=
  let byte (n : Nat) : UInt8 := UInt8.ofNat n
  if c < 0x80 then [byte c]
  else if c < 0x800 then [byte (0xc0 + c / 64), byte (0x80 + c % 64)]
  else if (0xd800 ≤ c && c ≤ 0xdfff) || 0x10ffff < c then [0xef, 0xbf, 0xbd]
  else if c < 0x10000 then
    [byte (0xe0 + c / 4096), byte (0x80 + c / 64 % 64), byte (0x80 + c % 64)]
  else
    [byte (0xf0 + c / 262144), byte (0x80 + c / 4096 % 64), byte (0x80 + c / 64 % 64),
     byte (0x80 + c % 64)]

/-- A well-formed sequence has at least two bytes and lies inside the text. -/
theorem sequence?_bounds {s : Bytes} {r : Nat × Nat} (h : sequence? s = some r) :
    2 ≤ r.2 ∧ r.2 ≤ s.length := by
  unfold sequence? at h
  repeat' split at h
  all_goals
    first
      | contradiction
      | (injection h with h; subst h; simp)

/-- A code point of a non-empty text takes at least one byte. -/
theorem decode_size_pos (b : UInt8) (s : Bytes) : 0 < (decode (b :: s)).2 := by
  rw [decode]
  by_cases hb : b < 0x80
  · simp [hb]
  · cases h : sequence? (b :: s) with
    | none => simp [hb]
    | some r => simpa [hb] using Nat.lt_of_lt_of_le Nat.two_pos (sequence?_bounds h).1

/-- A code point takes no more bytes than there are. -/
theorem decode_size_le (s : Bytes) : (decode s).2 ≤ s.length := by
  cases s with
  | nil => exact Nat.le_refl 0
  | cons b s =>
    rw [decode]
    by_cases hb : b < 0x80
    · simp [hb]
    · cases h : sequence? (b :: s) with
      | none => simp [hb]
      | some r => simpa [hb] using (sequence?_bounds h).2

/-- The code points of a text in order, each with the bytes it was read from. -/
def units (s : Bytes) : List (Nat × Bytes) :=
  go s []
where
  /-- Reads on with the units already read in reverse. -/
  go : Bytes → List (Nat × Bytes) → List (Nat × Bytes)
    | [], acc => acc.reverse
    | b :: s, acc =>
      let d := decode (b :: s)
      go ((b :: s).drop d.2) ((d.1, (b :: s).take d.2) :: acc)
  termination_by s => s.length
  decreasing_by
    have h := decode_size_pos b s
    simp only [List.length_drop, List.length_cons]
    omega

/-- The code points of a text in order. -/
def codePoints (s : Bytes) : List Nat := (units s).map (·.1)

def ofCodePoints (cs : List Nat) : Bytes := cs.flatMap encode

/-- A text in which each byte that encodes nothing is replaced by the replacement code point. -/
def repair (s : Bytes) : Bytes := ofCodePoints (codePoints s)

def isValid (s : Bytes) : Bool :=
  (units s).all fun u => u.1 != CodePoint.replacement || u.2.length == 3

end UnusedImports.Utf8

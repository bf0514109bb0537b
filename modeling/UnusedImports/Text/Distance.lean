import UnusedImports.Text.Bytes

namespace UnusedImports.Bytes

/-- The distances of a word, prolonged by a byte, to the beginnings of another word, from the
distances of the word itself. The first argument is the new distance to the beginning just before,
the second the old one. -/
def nextDistances (b : UInt8) (left diagonal : Nat) : Bytes → List Nat → List Nat
  | c :: cs, above :: row =>
    let d := if b == c then diagonal else min (min above left) diagonal + 1
    d :: nextDistances b d above cs row
  | _, _ => []

/-- The distances of a word to all the beginnings of another word, the empty one first, from those
of a shorter beginning of the word. -/
def distances (t : Bytes) : Bytes → List Nat → List Nat
  | [], row => row
  | b :: s, row =>
    match row with
    | [] => []
    | first :: rest => distances t s ((first + 1) :: nextDistances b (first + 1) first t rest)

/-- The least number of bytes to add, remove or replace to get from one word to the other. -/
def distance (s t : Bytes) : Nat := ((distances t s (List.range (t.length + 1))).getLast?).getD 0

end UnusedImports.Bytes

import UnusedImports.Number.Integer
import UnusedImports.Tool.Process

/-! The programs that scripts take for granted. -/

namespace UnusedImports.Tool

namespace Step

/-- A step that only ends with a status. -/
def ofStatus (status : Nat) : Step := ⟨[], [], ⟨0⟩, status⟩

def print (s : Bytes) : Step := ⟨s, [], ⟨0⟩, 0⟩

def complain (s : Bytes) (status : Nat) : Step := ⟨[], s, ⟨0⟩, status⟩

end Step

def escapedByte? (b : UInt8) : Option UInt8 :=
  if b == 0x6e then some 0x0a
  else if b == 0x74 then some 0x09
  else if b == 0x72 then some 0x0d
  else if b == 0x61 then some 0x07
  else if b == 0x62 then some 0x08
  else if b == 0x66 then some 0x0c
  else if b == 0x76 then some 0x0b
  else if b == 0x5c then some 0x5c
  else none

def unescape : Bytes → Bytes
  | [] => []
  | [b] => [b]
  | b :: c :: rest =>
    if b == 0x5c then
      match escapedByte? c with
      | some e => e :: unescape rest
      | none => b :: c :: unescape rest
    else b :: unescape (c :: rest)

/-- Writes arguments with blanks between them. Escapes can be enabled, and a first argument `-n`
leaves the line open. -/
def echo (escapes : Bool) (arguments : List Bytes) : Step :=
  let text (as : List Bytes) : Bytes :=
    let s := Bytes.join (utf8 " ") as
    if escapes then unescape s else s
  match arguments with
  | a :: as => if a == utf8 "-n" then .print (text as) else .print (text (a :: as) ++ utf8 "\n")
  | [] => .print (utf8 "\n")

/-- One pass over a format: what it writes and the arguments that it leaves. -/
def formatOnce : Bytes → List Bytes → Bytes × List Bytes
  | [], as => ([], as)
  | [b], as => ([b], as)
  | b :: c :: rest, as =>
    if b == 0x5c then
      let (s, left) := formatOnce rest as
      ((match escapedByte? c with
        | some e => [e]
        | none => [b, c]) ++ s, left)
    else if b == 0x25 then
      if c == 0x25 then
        let (s, left) := formatOnce rest as
        (0x25 :: s, left)
      else
        let a := as.head?.getD []
        let (s, left) := formatOnce rest as.tail
        let shown :=
          if c == 0x64 then Bytes.ofInt (((Integer.read a).toOption).getD 0)
          else if c == 0x62 then unescape a
          else if c == 0x63 then a.take 1
          else a
        (shown ++ s, left)
    else
      let (s, left) := formatOnce (c :: rest) as
      (b :: s, left)

/-- Passes over a format until no arguments are left, at most as often as there are arguments. -/
def formatAll (format : Bytes) : Nat → List Bytes → Bytes
  | 0, as => (formatOnce format as).1
  | n + 1, as =>
    match formatOnce format as with
    | (s, []) => s
    | (s, left) => if left.length < as.length then s ++ formatAll format n left else s

def printf (arguments : List Bytes) : Step :=
  match arguments with
  | format :: as => .print (formatAll format as.length as)
  | [] => .complain (utf8 "printf: usage: printf format [arg ...]\n") 2

/-- The time that is written as a number of seconds, perhaps with a fraction, or of a larger unit. -/
def waitingTime? (s : Bytes) : Option Duration :=
  let whole := s.takeWhile Bytes.isDigit
  let rest := s.drop whole.length
  let (places, rest) := match rest with
    | 0x2e :: more => (more.takeWhile Bytes.isDigit, more.dropWhile Bytes.isDigit)
    | _ => ([], rest)
  let unit? := if rest == [] || rest == utf8 "s" then some 1
    else if rest == utf8 "m" then some 60
    else if rest == utf8 "h" then some 3600
    else if rest == utf8 "d" then some 86400
    else none
  if whole.isEmpty && places.isEmpty then none
  else unit?.map fun unit =>
    ⟨(Bytes.digitsValue (whole ++ places) * 1000000000 * unit / Nat.pow 10 places.length : Nat)⟩

/-- Waits as long as the arguments say together. -/
def sleep (arguments : List Bytes) : Step :=
  match arguments.mapM waitingTime? with
  | some [] => .complain (utf8 "sleep: missing operand\n") 1
  | some ds => ⟨[], [], ⟨ds.foldl (fun n d => n + d.nanoseconds) 0⟩, 0⟩
  | none => .complain (utf8 "sleep: invalid time interval\n") 1

def standardPrograms : List (String × (List Bytes → Step)) :=
  [("true", fun _ => .ofStatus 0), ("false", fun _ => .ofStatus 1), ("echo", echo false),
    ("printf", printf), ("sleep", sleep), ("cat", fun _ => .ofStatus 0)]

end UnusedImports.Tool

import UnusedImports.Source.Identifier
import UnusedImports.Text.Utf8

/-! How far each kind of lexeme reaches from the front of a text. The last argument of each function
is the number of bytes already counted. -/

namespace UnusedImports.Lexeme

/-- The bytes up to the next line break. -/
def lineLength : Bytes → Nat → Nat
  | [], n => n
  | b :: s, n => if b == Bytes.newline then n else lineLength s (n + 1)

/-- The bytes of a block comment after its opening, its closing included if there is one. -/
def blockLength : Bytes → Nat → Nat
  | [], n => n
  | [_], n => n + 1
  | a :: b :: s, n =>
    if a == '*'.toUInt8 && b == Bytes.slash then n + 2 else blockLength (b :: s) (n + 1)

def isBlank (c : Nat) : Bool := CodePoint.isBlank c || c == CodePoint.byteOrderMark

def triviaLength : Bytes → Nat → Nat
  | [], n => n
  | b :: s, n =>
    if b == Bytes.slash && s.head? == some Bytes.slash then
      let k := lineLength s 0
      triviaLength (s.drop k) (n + 1 + k)
    else if b == Bytes.slash && s.head? == some '*'.toUInt8 then
      let k := blockLength s.tail 1
      triviaLength (s.drop k) (n + 1 + k)
    else
      let d := Utf8.decode (b :: s)
      if isBlank d.1 then triviaLength (s.drop (d.2 - 1)) (n + d.2) else n
termination_by s => s.length
decreasing_by all_goals simp only [List.length_drop, List.length_cons]; omega

/-- The bytes of the code points in front of a text that continue an identifier. -/
def wordLength : Bytes → Nat → Nat
  | [], n => n
  | b :: s, n =>
    let d := Utf8.decode (b :: s)
    if Identifier.isContinue d.1 then wordLength (s.drop (d.2 - 1)) (n + d.2) else n
termination_by s => s.length
decreasing_by simp only [List.length_drop, List.length_cons]; omega

/-- The bytes of a name inside a tag: words joined by hyphens. -/
def nameLength (s : Bytes) (n : Nat) : Nat :=
  let k := wordLength s 0
  match _h : s.drop k with
  | b :: t => if b == '-'.toUInt8 then nameLength t (n + k + 1) else n + k
  | [] => n + k
termination_by s.length
decreasing_by
  have := congrArg List.length _h
  simp only [List.length_drop, List.length_cons] at this
  omega

def isNumberByte (b : UInt8) : Bool := Identifier.isContinue b.toNat && b < 0x80 || b == '.'.toUInt8

/-- The bytes of a numeric literal after its first one. -/
def numberLength (s : Bytes) : Nat := (s.takeWhile isNumberByte).length

/-- The bytes of a quoted literal after its opening quote. The closing quote belongs to it; a line
break, which ends a literal that is not closed, does not. -/
def stringLength (quote : UInt8) : Bytes → Nat → Nat
  | [], n => n
  | [b], n => if b == Bytes.newline then n else n + 1
  | b :: c :: s, n =>
    if b == Bytes.backslash then stringLength quote s (n + 2)
    else if b == quote then n + 1
    else if b == Bytes.newline then n
    else stringLength quote (c :: s) (n + 1)

/-- How a piece of a template literal ends. -/
inductive TemplateEnd where
  | closed
  | substitution
  | unterminated
  deriving DecidableEq

/-- The bytes of a piece of a template literal, and how it ends. -/
def templateLength : Bytes → Nat → Nat × TemplateEnd
  | [], n => (n, .unterminated)
  | [b], n => (n + 1, if b == Bytes.backtick then .closed else .unterminated)
  | b :: c :: s, n =>
    if b == Bytes.backslash then templateLength s (n + 2)
    else if b == Bytes.backtick then (n + 1, .closed)
    else if b == '$'.toUInt8 && c == Bytes.openBrace then (n, .substitution)
    else templateLength (c :: s) (n + 1)

/-- The bytes of a regular expression after its opening slash, up to and with its closing one: the
first slash that is neither escaped nor between square brackets. There is none if the line ends
first. -/
def regexLength? : Bytes → Bool → Nat → Option Nat
  | [], _, _ => none
  | [b], bracketed, n => if b == Bytes.slash && !bracketed then some (n + 1) else none
  | b :: c :: s, bracketed, n =>
    if b == Bytes.newline then none
    else if b == Bytes.backslash then regexLength? s bracketed (n + 2)
    else if b == '['.toUInt8 then regexLength? (c :: s) true (n + 1)
    else if b == ']'.toUInt8 then regexLength? (c :: s) false (n + 1)
    else if b == Bytes.slash && !bracketed then some (n + 1)
    else regexLength? (c :: s) bracketed (n + 1)

/-- The bytes of the punctuator in front of a non-empty text. Three punctuators have several
bytes; `?.` before a digit is not one of them. -/
def punctuatorLength (s : Bytes) : Nat :=
  if (utf8 "...").isPrefixOf s then 3
  else if (utf8 "?.").isPrefixOf s && !(s.drop 2).head?.any Bytes.isDigit then 2
  else if (utf8 "=>").isPrefixOf s then 2
  else 1

/-- The bytes of an attribute string after its opening quote: all up to and with the next quote. -/
def attributeLength (quote : UInt8) : Bytes → Nat → Nat
  | [], n => n
  | b :: s, n => if b == quote then n + 1 else attributeLength quote s (n + 1)

/-- Tests whether the bytes after a `<` in markup text make it the opening of a tag. -/
def opensTag (s : Bytes) : Bool :=
  s.head?.any fun b =>
    b == Bytes.slash || b == '>'.toUInt8 || 0x80 ≤ b || Identifier.isStart b.toNat

/-- The bytes of markup text before the next tag or expression container. -/
def markupLength : Bytes → Nat → Nat
  | [], n => n
  | b :: s, n =>
    if b == Bytes.openBrace || (b == '<'.toUInt8 && opensTag s) then n else markupLength s (n + 1)

/-! ### Counts never shrink -/

theorem le_wordLength (s : Bytes) (n : Nat) : n ≤ wordLength s n := by
  fun_induction wordLength s n with
  | case1 => exact Nat.le_refl _
  | case2 => omega
  | case3 => exact Nat.le_refl _

theorem le_nameLength (s : Bytes) (n : Nat) : n ≤ nameLength s n := by
  fun_induction nameLength s n with
  | case1 s n k b t h hb ih => omega
  | case2 => omega
  | case3 => omega

theorem le_stringLength (q : UInt8) (s : Bytes) (n : Nat) : n ≤ stringLength q s n := by
  fun_induction stringLength q s n <;> omega

theorem le_templateLength (s : Bytes) (n : Nat) : n ≤ (templateLength s n).1 := by
  fun_induction templateLength s n <;> omega

theorem le_attributeLength (q : UInt8) (s : Bytes) (n : Nat) : n ≤ attributeLength q s n := by
  fun_induction attributeLength q s n <;> omega

theorem le_of_regexLength? {s : Bytes} {bracketed : Bool} {n m : Nat}
    (h : regexLength? s bracketed n = some m) : n ≤ m := by
  fun_induction regexLength? s bracketed n <;> grind

theorem punctuatorLength_pos (s : Bytes) : 0 < punctuatorLength s := by
  unfold punctuatorLength
  repeat' split
  all_goals omega

end UnusedImports.Lexeme

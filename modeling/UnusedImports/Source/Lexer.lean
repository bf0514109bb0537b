import UnusedImports.Source.Lexeme
import UnusedImports.Source.Token

/-! The lexer walks over code, the insides of markup tags and the text between tags, with a stack of
what is open. What fits nowhere becomes punctuation. -/

namespace UnusedImports

/-- Where markup is accepted. -/
inductive Dialect where
  /-- Markup may start wherever an operand may. -/
  | markup
  /-- Markup must also close itself or have a closing tag, because `<T>x` is a type assertion. -/
  | assertions
  deriving DecidableEq, Repr

/-- Something open that changes how bytes are read. -/
inductive Frame where
  | template (depth : Nat)
  | expression (depth : Nat)
  /-- The inside of a tag: whether it closes an element, whether its name has been read, and how
  many attribute names have been. -/
  | tag (closing named : Bool) (attributes : Nat)
  | children
  deriving DecidableEq, Repr

/-- A lexer between two tokens. -/
structure Lexer where
  rest : Bytes
  position : Position
  depth : Nat
  frames : List Frame
  /-- The tokens read, latest first. -/
  tokens : List Token

namespace Lexer

def ofSource (s : Bytes) : Lexer := ⟨s, .start, 0, [], []⟩

/-- Moves over bytes that belong to no token. -/
def skip (n : Nat) (lx : Lexer) : Lexer :=
  { lx with rest := lx.rest.drop n, position := lx.position.advance (lx.rest.take n) }

def emit (kind : TokenKind) (n : Nat) (lx : Lexer) : Lexer :=
  { lx.skip n with tokens := ⟨lx.position, kind, lx.rest.take n⟩ :: lx.tokens }

def push (f : Frame) (lx : Lexer) : Lexer := { lx with frames := f :: lx.frames }

def pop (lx : Lexer) : Lexer := { lx with frames := lx.frames.tail }

/-- Words after which an operand follows. -/
def operandWords : List String :=
  ["return", "typeof", "instanceof", "in", "of", "new", "delete", "void", "throw", "case", "do",
   "else", "yield", "await"]

/-- Punctuators after which no operand follows. -/
def closingMarks : List String := [")", "]", "\x7d", "<", "</"]

/-- Tests whether an operand may follow a token. -/
def startsOperand (t : Token) : Bool :=
  match t.kind with
  | .punctuation => !closingMarks.any t.isPunctuator
  | .identifier => operandWords.any t.isWord
  | _ => false

/-- Tests whether an operand may come next, which tells a regular expression from a division and
markup from a comparison. -/
def operandAllowed (lx : Lexer) : Bool := lx.tokens.head?.all startsOperand

/-- Tests whether a byte may stand in the name of a tag, for the search of its closing tag. -/
def isTagByte (b : UInt8) : Bool :=
  0x80 ≤ b || Identifier.isContinue b.toNat || b == '-'.toUInt8 || b == '.'.toUInt8 ||
    b == ':'.toUInt8

/-- Tests whether the element whose `<` stands before a text closes itself at its first `>`, or has
its closing tag further on. -/
def closedLater (s : Bytes) : Bool :=
  let name := s.takeWhile isTagByte
  let after := s.dropWhile isTagByte
  let head := after.takeWhile (· != '>'.toUInt8)
  (head.length < after.length && head.getLast? == some Bytes.slash) ||
    Bytes.contains (utf8 "</" ++ name ++ utf8 ">") after

/-- Tests whether the `<` before a text opens a markup element: an operand may come next, a name or
the end of a tag without name follows, and the dialect accepts it. -/
def opensMarkup (dialect : Dialect) (lx : Lexer) (s : Bytes) : Bool :=
  lx.operandAllowed &&
    (s.head? == some '>'.toUInt8 || (!s.isEmpty && Identifier.isStart (Utf8.decode s).1)) &&
    (dialect == .markup || closedLater s)

/-- Reads a piece of a template literal after the given number of delimiter bytes, and the opening
of the substitution that ends it. -/
def scanTemplate (delimiter : Nat) (lx : Lexer) : Lexer :=
  match Lexeme.templateLength (lx.rest.drop delimiter) delimiter with
  | (n, .substitution) =>
    ((lx.emit .template n).emit .punctuation 2).push (.template lx.depth)
  | (n, _) => lx.emit .template n

/-- Reads a right brace in code. It ends the innermost substitution or expression container if
that was opened at the present depth, else a block. -/
def scanCloseBrace (lx : Lexer) : Lexer :=
  let ordinary := { lx.emit .punctuation 1 with depth := lx.depth - 1 }
  match lx.frames with
  | .template d :: _ =>
    if d == lx.depth then (lx.emit .punctuation 1).pop.scanTemplate 0 else ordinary
  | .expression d :: _ => if d == lx.depth then (lx.emit .punctuation 1).pop else ordinary
  | _ => ordinary

/-- Reads the `<` or `</` of a tag. -/
def scanOpenTag (lx : Lexer) : Lexer :=
  let closing := lx.rest.tail.head? == some Bytes.slash
  (lx.emit .punctuation (if closing then 2 else 1)).push (.tag closing false 0)

/-- The class and the length of a token of code that opens and closes nothing, by its first byte.
A slash starts a regular expression only where an operand may stand. -/
def plainLexeme (operand : Bool) (b : UInt8) (s : Bytes) : TokenKind × Nat :=
  let d := Utf8.decode (b :: s)
  if Identifier.isStart d.1 then (.identifier, Lexeme.wordLength ((b :: s).drop d.2) d.2)
  else if 0x80 ≤ b then (.punctuation, d.2)
  else if Bytes.isDigit b || (b == '.'.toUInt8 && s.head?.any Bytes.isDigit) then
    (.number, Lexeme.numberLength s + 1)
  else if b == Bytes.doubleQuote || b == Bytes.singleQuote then
    (.string, Lexeme.stringLength b s 1)
  else if b == '#'.toUInt8 && s.head?.any (fun c => c < 0x80 && Identifier.isStart c.toNat) then
    (.privateName, Lexeme.wordLength s 1)
  else if b == Bytes.slash && operand then
    match Lexeme.regexLength? s false 1 with
    | some n => (.regex, Lexeme.wordLength ((b :: s).drop n) n)
    | none => (.punctuation, 1)
  else (.punctuation, Lexeme.punctuatorLength (b :: s))

def scanCode (dialect : Dialect) (lx : Lexer) : Lexer :=
  match lx.rest with
  | [] => lx
  | b :: s =>
    if b == Bytes.backtick then lx.scanTemplate 1
    else if b == Bytes.openBrace then { lx.emit .punctuation 1 with depth := lx.depth + 1 }
    else if b == Bytes.closeBrace then lx.scanCloseBrace
    else if b == '<'.toUInt8 && lx.opensMarkup dialect s then lx.scanOpenTag
    else
      let lexeme := plainLexeme lx.operandAllowed b s
      lx.emit lexeme.1 lexeme.2

/-- Reads one token inside a tag. Anything that cannot stand in a tag shows that the `<` was none
after all: the tag is given up and its frame closed without reading. -/
def scanTag (closing named : Bool) (attributes : Nat) (lx : Lexer) : Lexer :=
  match lx.rest with
  | [] => lx
  | b :: s =>
    if b == '>'.toUInt8 then
      let lx := (lx.emit .punctuation 1).pop
      if !closing then lx.push .children
      else if lx.frames.head? == some .children then lx.pop
      else lx
    else if b == Bytes.slash && s.head? == some '>'.toUInt8 && !closing then
      (lx.emit .punctuation 2).pop
    else if b == Bytes.openBrace && named then
      (lx.emit .punctuation 1).push (.expression lx.depth)
    else if (b == Bytes.doubleQuote || b == Bytes.singleQuote) && named then
      lx.emit .string (Lexeme.attributeLength b s 1)
    else if b == '='.toUInt8 || b == '.'.toUInt8 || b == ':'.toUInt8 then lx.emit .punctuation 1
    else if Identifier.isStart (Utf8.decode (b :: s)).1 then
      let d := (Utf8.decode (b :: s)).2
      let n := Lexeme.nameLength ((b :: s).drop d) d
      let lx := lx.emit .identifier n
      if !named then lx.pop.push (.tag closing true attributes)
      else if attributes == 0 && (b :: s).take n == utf8 "extends" then lx.pop
      else lx.pop.push (.tag closing named (attributes + 1))
    else lx.pop

/-- Reads the text in front of the next tag or expression container, and the opening of that. -/
def scanChildren (lx : Lexer) : Lexer :=
  let n := Lexeme.markupLength lx.rest 0
  let lx := if n == 0 then lx else lx.emit .markupText n
  match lx.rest with
  | [] => lx
  | b :: _ =>
    if b == Bytes.openBrace then (lx.emit .punctuation 1).push (.expression lx.depth)
    else lx.scanOpenTag

/-- Moves over blanks and comments, which there are everywhere but between tags. -/
def settle (lx : Lexer) : Lexer :=
  match lx.frames with
  | .children :: _ => lx
  | _ => lx.skip (Lexeme.triviaLength lx.rest 0)

/-- Reads on in the mode that the innermost frame selects. -/
def scan (dialect : Dialect) (lx : Lexer) : Lexer :=
  match lx.frames with
  | .children :: _ => lx.scanChildren
  | .tag closing named attributes :: _ => lx.scanTag closing named attributes
  | _ => lx.scanCode dialect

/-! ### Progress -/

@[simp] theorem skip_rest (n : Nat) (lx : Lexer) : (lx.skip n).rest = lx.rest.drop n := rfl

@[simp] theorem skip_frames (n : Nat) (lx : Lexer) : (lx.skip n).frames = lx.frames := rfl

@[simp] theorem emit_rest (k : TokenKind) (n : Nat) (lx : Lexer) :
    (lx.emit k n).rest = lx.rest.drop n := rfl

@[simp] theorem emit_frames (k : TokenKind) (n : Nat) (lx : Lexer) :
    (lx.emit k n).frames = lx.frames := rfl

@[simp] theorem push_rest (f : Frame) (lx : Lexer) : (lx.push f).rest = lx.rest := rfl

@[simp] theorem push_frames (f : Frame) (lx : Lexer) : (lx.push f).frames = f :: lx.frames := rfl

@[simp] theorem pop_rest (lx : Lexer) : lx.pop.rest = lx.rest := rfl

@[simp] theorem pop_frames (lx : Lexer) : lx.pop.frames = lx.frames.tail := rfl

/-- Tests that a step from one lexer to another consumes a byte, or leaves the text alone and
closes one frame. -/
def Progress (lx next : Lexer) : Prop :=
  next.rest.length < lx.rest.length ∨
    (next.rest = lx.rest ∧ next.frames.length < lx.frames.length)

theorem scanTemplate_rest_le (k : Nat) (lx : Lexer) :
    (lx.scanTemplate k).rest.length ≤ lx.rest.length - k := by
  have h := Lexeme.le_templateLength (lx.rest.drop k) k
  unfold scanTemplate
  split <;> simp_all <;> omega

theorem scanOpenTag_progress {lx : Lexer} (h : lx.rest ≠ []) :
    lx.scanOpenTag.rest.length < lx.rest.length := by
  have := List.length_pos_iff.mpr h
  unfold scanOpenTag
  simp only [push_rest, emit_rest, List.length_drop]
  split <;> omega

theorem scanCloseBrace_progress {lx : Lexer} (h : lx.rest ≠ []) :
    lx.scanCloseBrace.rest.length < lx.rest.length := by
  have hl := List.length_pos_iff.mpr h
  have ht := scanTemplate_rest_le 0 (lx.emit .punctuation 1).pop
  simp only [pop_rest, emit_rest, List.length_drop] at ht
  unfold scanCloseBrace
  repeat' split
  all_goals
    simp only [pop_rest, emit_rest, List.length_drop]
    omega

/-- A token that opens and closes nothing has at least one byte. -/
theorem plainLexeme_pos (operand : Bool) (b : UInt8) (s : Bytes) :
    0 < (plainLexeme operand b s).2 := by
  have hd := Utf8.decode_size_pos b s
  have hw := Lexeme.le_wordLength ((b :: s).drop (Utf8.decode (b :: s)).2) (Utf8.decode (b :: s)).2
  have hq := Lexeme.le_stringLength b s 1
  have hp := Lexeme.le_wordLength s 1
  have hm := Lexeme.punctuatorLength_pos (b :: s)
  unfold plainLexeme
  dsimp only
  repeat' split
  all_goals try omega
  next n hr =>
    have := Lexeme.le_of_regexLength? hr
    have := Lexeme.le_wordLength ((b :: s).drop n) n
    omega

theorem emit_rest_lt {lx : Lexer} {n : Nat} (k : TokenKind) (h : lx.rest ≠ []) (hn : 0 < n) :
    (lx.emit k n).rest.length < lx.rest.length := by
  have := List.length_pos_iff.mpr h
  simp only [emit_rest, List.length_drop]
  omega

theorem scanCode_progress (dialect : Dialect) {lx : Lexer} (h : lx.rest ≠ []) :
    (lx.scanCode dialect).rest.length < lx.rest.length := by
  unfold scanCode
  split
  · contradiction
  · next b s hs =>
    repeat' split
    · have := scanTemplate_rest_le 1 lx
      have := List.length_pos_iff.mpr h
      omega
    · exact emit_rest_lt .punctuation h Nat.one_pos
    · exact scanCloseBrace_progress h
    · exact scanOpenTag_progress h
    · exact emit_rest_lt _ h (plainLexeme_pos _ b s)

/-- Inside a tag a step reads a byte, or it gives up the tag and does nothing else. -/
theorem scanTag_lt_or_eq_pop {lx : Lexer} (closing named : Bool) (attributes : Nat)
    (h : lx.rest ≠ []) :
    (lx.scanTag closing named attributes).rest.length < lx.rest.length ∨
      lx.scanTag closing named attributes = lx.pop := by
  unfold scanTag
  split
  · contradiction
  · next b s hs =>
    have ha : 0 < Lexeme.attributeLength b s 1 := Lexeme.le_attributeLength b s 1
    have hn : 0 < Lexeme.nameLength ((b :: s).drop (Utf8.decode (b :: s)).2)
        (Utf8.decode (b :: s)).2 :=
      Nat.lt_of_lt_of_le (Utf8.decode_size_pos b s) (Lexeme.le_nameLength _ _)
    dsimp only
    repeat' split
    all_goals
      first
        | exact .inr rfl
        | (left
           try simp only [push_rest, pop_rest]
           apply emit_rest_lt _ h
           omega)

theorem scanTag_progress {lx : Lexer} {closing named : Bool} {attributes : Nat} {fs : List Frame}
    (h : lx.rest ≠ []) (hf : lx.frames = .tag closing named attributes :: fs) :
    lx.Progress (lx.scanTag closing named attributes) := by
  rcases scanTag_lt_or_eq_pop closing named attributes h with hlt | hpop
  · exact .inl hlt
  · exact .inr ⟨by rw [hpop, pop_rest], by rw [hpop, pop_frames, hf]; exact Nat.lt_succ_self _⟩

theorem scanChildren_progress {lx : Lexer} (h : lx.rest ≠ []) :
    lx.scanChildren.rest.length < lx.rest.length := by
  have key : ∀ m : Lexer, ∀ b s, m.rest = b :: s →
      (if b == Bytes.openBrace then (m.emit .punctuation 1).push (.expression m.depth)
        else m.scanOpenTag).rest.length < m.rest.length := by
    intro m b s hm
    have hne : m.rest ≠ [] := by rw [hm]; exact List.cons_ne_nil b s
    split
    · exact emit_rest_lt .punctuation hne Nat.one_pos
    · exact scanOpenTag_progress hne
  unfold scanChildren
  generalize Lexeme.markupLength lx.rest 0 = n
  dsimp only
  by_cases hn : n = 0
  · rw [if_pos (by simpa using hn)]
    split
    · contradiction
    · next b s hs => exact key lx b s hs
  · rw [if_neg (by simpa using hn)]
    have hlt := emit_rest_lt .markupText h (Nat.pos_of_ne_zero hn)
    split
    · exact hlt
    · next b s hs => exact Nat.lt_trans (key _ b s hs) hlt

/-- Reading on at a byte consumes it, or closes one frame. -/
theorem scan_progress (dialect : Dialect) {lx : Lexer} (h : lx.rest ≠ []) :
    lx.Progress (lx.scan dialect) := by
  unfold scan
  split
  · exact .inl (scanChildren_progress h)
  · next hf => exact scanTag_progress h hf
  · exact .inl (scanCode_progress dialect h)

theorem settle_rest_le (lx : Lexer) : lx.settle.rest.length ≤ lx.rest.length := by
  unfold settle
  split
  · exact Nat.le_refl _
  · simp

@[simp] theorem settle_frames (lx : Lexer) : lx.settle.frames = lx.frames := by
  unfold settle
  split <;> simp

def run (dialect : Dialect) (lx : Lexer) : Lexer :=
  if lx.settle.rest = [] then lx.settle else run dialect (lx.settle.scan dialect)
termination_by (lx.rest.length, lx.frames.length)
decreasing_by
  next h =>
  have hp := scan_progress dialect h
  have hl := settle_rest_le lx
  rcases hp with hp | ⟨hr, hf⟩
  · exact Prod.Lex.left _ _ (by omega)
  · rw [settle_frames] at hf
    rw [hr]
    rcases Nat.lt_or_eq_of_le hl with hlt | heq
    · exact Prod.Lex.left _ _ hlt
    · rw [heq]
      exact Prod.Lex.right _ hf

/-- Moves over the interpreter line that a script may start with. -/
def skipHashbang (lx : Lexer) : Lexer :=
  if (utf8 "#!").isPrefixOf lx.rest then lx.skip (Lexeme.lineLength lx.rest 0) else lx

end Lexer

/-- The tokens of a source text in order. -/
def tokenize (dialect : Dialect) (source : Bytes) : List Token :=
  ((Lexer.ofSource source).skipHashbang.run dialect).tokens.reverse

end UnusedImports

import UnusedImports.Source.Token

/-! Each reader takes the tokens in front of it and returns what it read, if it could, with the
tokens it left. A malformed declaration names nothing, but covers the tokens that were read. -/

namespace UnusedImports

/-- How an import introduces a name. -/
inductive BindingKind where
  | defaultExport
  | named
  | wholeModule
  | assigned
  deriving DecidableEq, Repr

/-- A local name that an import introduces, with the line of the keyword and its own place. -/
structure Binding where
  name : Bytes
  /-- The name in the module: `default` and `*` for the default export and the whole module. -/
  imported : Bytes
  kind : BindingKind
  typeOnly : Bool
  line : Nat
  nameLine : Nat
  nameColumn : Nat
  deriving DecidableEq, Repr

/-- A stretch of a token list, by the index of its first token and of the first one after it. -/
structure Span where
  start : Nat
  stop : Nat
  deriving DecidableEq, Repr

/-- An import declaration and the tokens it covers. -/
structure Declaration extends Span where
  line : Nat
  source : Bytes
  typeOnly : Bool
  bindings : List Binding
  deriving DecidableEq, Repr

namespace Import

/-- The binding whose local name is a token. -/
def binding (line : Nat) (kind : BindingKind) (imported : Bytes) (typeOnly : Bool) (t : Token) :
    Binding :=
  ⟨t.text, imported, kind, typeOnly, line, t.line, t.column⟩

/-- Tests whether the word `type` in front is a modifier of the declaration and not its default
name. -/
def isTypeModifier : List Token → Bool
  | t :: next :: ts =>
    t.isWord "type" &&
      (next.isPunctuator "\x7b" || next.isPunctuator "*" ||
        (next.kind == .identifier && !next.isWord "from") ||
        (next.isWord "from" && ts.head?.any (·.isWord "from")))
  | _ => false

/-- Tests whether the word `type` in front is a modifier of a name in braces and not that name. -/
def isInlineType : List Token → Bool
  | t :: next :: _ =>
    t.isWord "type" && (next.kind == .identifier || next.kind == .string) &&
      next.text != utf8 "as"
  | _ => false

/-- Reads one name in braces: an identifier or a string, which `as` may rename and, for a string,
must. -/
def readName (line : Nat) (ts : List Token) : Option Binding × List Token :=
  let typeOnly := isInlineType ts
  match (if typeOnly then ts.tail else ts) with
  | [] => (none, [])
  | imported :: ts =>
    if imported.kind == .identifier || imported.kind == .string then
      if ts.head?.any (·.isWord "as") then
        match ts.tail with
        | [] => (none, [])
        | name :: rest =>
          if name.kind == .identifier then
            (some (binding line .named imported.contents typeOnly name), rest)
          else (none, name :: rest)
      else if imported.kind == .string then (none, ts)
      else (some (binding line .named imported.contents typeOnly imported), ts)
    else (none, imported :: ts)

theorem readName_length_le (line : Nat) (ts : List Token) :
    (readName line ts).2.length ≤ ts.length := by
  have tail_le : ∀ l : List Token, l.tail.length ≤ l.length := by simp
  have h0 : (if isInlineType ts then ts.tail else ts).length ≤ ts.length := by
    split
    · exact tail_le ts
    · exact Nat.le_refl _
  unfold readName
  dsimp only
  split
  · exact Nat.zero_le _
  · next imported rest h =>
    rw [h] at h0
    have h1 := tail_le rest
    repeat' split
    all_goals simp_all
    all_goals omega

/-- Reads the names after an opening brace up to the closing one, given those already read in
reverse. -/
def readNames (line : Nat) (ts : List Token) (read : List Binding) :
    Option (List Binding) × List Token :=
  match ts with
  | [] => (none, [])
  | t :: rest =>
    if t.isPunctuator "\x7d" then (some read.reverse, rest)
    else match _h : readName line (t :: rest) with
      | (none, after) => (none, after)
      | (some _, []) => (none, [])
      | (some b, next :: after) =>
        if next.isPunctuator "," then readNames line after (b :: read)
        else if next.isPunctuator "\x7d" then (some (b :: read).reverse, after)
        else (none, next :: after)
termination_by ts.length
decreasing_by
  have h := readName_length_le line (t :: rest)
  rw [_h] at h
  simp only [List.length_cons] at h ⊢
  omega

theorem readNames_length_le (line : Nat) (ts : List Token) (read : List Binding) :
    (readNames line ts read).2.length ≤ ts.length := by
  fun_induction readNames line ts read with
  | case1 => exact Nat.le_refl _
  | case2 => simp
  | case3 read t rest ht after h =>
    have := readName_length_le line (t :: rest)
    rwa [h] at this
  | case4 => exact Nat.zero_le _
  | case5 read t rest ht b next after h hn ih =>
    have := readName_length_le line (t :: rest)
    rw [h] at this
    simp only [List.length_cons] at this ⊢
    omega
  | case6 read t rest ht b next after h hn hc =>
    have := readName_length_le line (t :: rest)
    rw [h] at this
    simp only [List.length_cons] at this ⊢
    omega
  | case7 read t rest ht b next after h hn hc =>
    have := readName_length_le line (t :: rest)
    rwa [h] at this

/-- Reads the part of a clause that names exports in braces or the whole module, after the
bindings already read. -/
def readExports (line : Nat) (read : List Binding) (ts : List Token) :
    Option (List Binding) × List Token :=
  match ts with
  | [] => (none, [])
  | t :: rest =>
    if t.isPunctuator "\x7b" then readNames line rest read.reverse
    else if t.isPunctuator "*" then
      if rest.head?.any (·.isWord "as") then
        match rest.tail with
        | [] => (none, [])
        | name :: after =>
          if name.kind == .identifier then
            (some (read ++ [binding line .wholeModule (utf8 "*") false name]), after)
          else (none, name :: after)
      else (none, rest)
    else (none, t :: rest)

/-- Reads what stands between the keyword and `from`: a default name, exports in braces, the whole
module, or the default name with one of the others. A name before `=` is the whole clause of an
assignment. -/
def readClause (line : Nat) (ts : List Token) : Option (List Binding) × List Token :=
  match ts with
  | [] => (none, [])
  | t :: rest =>
    if t.kind == .identifier then
      let byDefault := binding line .defaultExport (utf8 "default") false t
      match rest with
      | [] => (some [byDefault], [])
      | next :: after =>
        if next.isPunctuator "=" then (some [binding line .assigned t.text false t], after)
        else if next.isPunctuator "," then readExports line [byDefault] after
        else (some [byDefault], next :: after)
    else readExports line [] (t :: rest)

def readDotted : List Token → Bytes → Bytes × List Token
  | [], path => (path, [])
  | [t], path => if t.kind == .identifier then (path ++ t.text, []) else (path, [t])
  | t :: dot :: rest, path =>
    if t.kind == .identifier then
      if dot.isPunctuator "." then readDotted rest (path ++ t.text ++ utf8 ".")
      else (path ++ t.text, dot :: rest)
    else (path, t :: dot :: rest)

/-- Reads the target of an assignment: a call of `require` or a dotted path. -/
def readTarget (ts : List Token) : Bytes × List Token :=
  match ts with
  | t :: bracket :: rest =>
    if t.isWord "require" && bracket.isPunctuator "(" then
      let quoted := rest.head?.any (·.kind == .string)
      let source := if quoted then (rest.head?.map Token.contents).getD [] else []
      let rest := if quoted then rest.tail else rest
      (source, if rest.head?.any (·.isPunctuator ")") then rest.tail else rest)
    else readDotted ts []
  | _ => readDotted ts []

/-- The tokens after the first closing brace. -/
def dropBraced : List Token → List Token
  | [] => []
  | t :: rest => if t.isPunctuator "\x7d" then rest else dropBraced rest

/-- The tokens after import attributes and a semicolon, each of which may be missing. -/
def dropEnding (ts : List Token) : List Token :=
  let ts := match ts with
    | t :: brace :: rest =>
      if (t.isWord "with" || t.isWord "assert") && brace.isPunctuator "\x7b" then dropBraced rest
      else ts
    | _ => ts
  if ts.head?.any (·.isPunctuator ";") then ts.tail else ts

/-- What a declaration says: its module, whether it is a type import, and its bindings. -/
structure Contents where
  source : Bytes
  typeOnly : Bool
  bindings : List Binding

def markTypeOnly (typeOnly : Bool) (bs : List Binding) : List Binding :=
  if typeOnly then bs.map fun b => { b with typeOnly := true } else bs

/-- Reads a declaration after its keyword, which stands on the given line. -/
def readContents (line : Nat) (ts : List Token) : Contents × List Token :=
  if ts.head?.any (·.kind == .string) then
    (⟨(ts.head?.map Token.contents).getD [], false, []⟩, dropEnding ts.tail)
  else
    let typeOnly := isTypeModifier ts
    let nothing : Contents := ⟨[], typeOnly, []⟩
    match readClause line (if typeOnly then ts.tail else ts) with
    | (none, rest) => (nothing, rest)
    | (some bs, rest) =>
      if bs.any (·.kind == .assigned) then
        let target := readTarget rest
        (⟨target.1, typeOnly, markTypeOnly typeOnly bs⟩, dropEnding target.2)
      else match rest with
        | [] => (nothing, [])
        | t :: after =>
          if t.isWord "from" then
            match after with
            | [] => (nothing, [])
            | s :: after =>
              if s.kind == .string then
                (⟨s.contents, typeOnly, markTypeOnly typeOnly bs⟩, dropEnding after)
              else (nothing, s :: after)
          else (nothing, t :: after)

/-- Tests whether a token is a keyword at the head of a statement and not the name of a
property. -/
def isStatementWord (word : String) (before : Option Token) (t : Token) : Bool :=
  t.isWord word && !before.any fun p => p.isPunctuator "." || p.isPunctuator "?."

/-- Tests whether a token is the keyword of a declaration, given its neighbours. -/
def isImport (before : Option Token) (t : Token) (after : Option Token) : Bool :=
  isStatementWord "import" before t &&
    !after.any fun n => n.isPunctuator "(" || n.isPunctuator "."

/-! ### Readers leave no more than they were given -/

theorem readExports_length_le (line : Nat) (read : List Binding) (ts : List Token) :
    (readExports line read ts).2.length ≤ ts.length := by
  unfold readExports
  split
  · exact Nat.le_refl _
  · next t rest =>
    have hn := readNames_length_le line rest read.reverse
    split
    · exact Nat.le_succ_of_le hn
    · split
      · split
        · split
          · exact Nat.zero_le _
          · next name after h =>
            have hl := congrArg List.length h
            simp only [List.length_tail, List.length_cons] at hl ⊢
            split <;> simp only [List.length_cons] <;> omega
        · simp
      · exact Nat.le_refl _

theorem readClause_length_le (line : Nat) (ts : List Token) :
    (readClause line ts).2.length ≤ ts.length := by
  unfold readClause
  split
  · exact Nat.le_refl _
  · next t rest =>
    split
    · split
      · exact Nat.zero_le _
      · next next after =>
        have he := readExports_length_le line
          [binding line .defaultExport (utf8 "default") false t] after
        repeat' split
        all_goals simp only [List.length_cons] at he ⊢
        all_goals omega
    · exact readExports_length_le line [] (t :: rest)

theorem readDotted_length_le (ts : List Token) (path : Bytes) :
    (readDotted ts path).2.length ≤ ts.length := by
  fun_induction readDotted ts path <;> simp_all
  all_goals omega

theorem readTarget_length_le (ts : List Token) : (readTarget ts).2.length ≤ ts.length := by
  have hd := readDotted_length_le ts []
  unfold readTarget
  split
  · next t bracket rest =>
    split
    · dsimp only
      repeat' split
      all_goals simp only [List.length_tail, List.length_cons]
      all_goals omega
    · exact hd
  · exact hd

theorem dropBraced_length_le (ts : List Token) : (dropBraced ts).length ≤ ts.length := by
  fun_induction dropBraced ts <;> simp_all
  all_goals omega

theorem dropEnding_length_le (ts : List Token) : (dropEnding ts).length ≤ ts.length := by
  have semicolon : ∀ us : List Token,
      (if us.head?.any (·.isPunctuator ";") then us.tail else us).length ≤ us.length := by
    intro us
    split <;> simp
  unfold dropEnding
  refine Nat.le_trans (semicolon _) ?_
  split
  · next t brace rest =>
    have := dropBraced_length_le rest
    split
    · simp only [List.length_cons]; omega
    · exact Nat.le_refl _
  · exact Nat.le_refl _

theorem readContents_length_le (line : Nat) (ts : List Token) :
    (readContents line ts).2.length ≤ ts.length := by
  have tail_le : ∀ l : List Token, l.tail.length ≤ l.length := by simp
  unfold readContents
  split
  · exact Nat.le_trans (dropEnding_length_le _) (tail_le ts)
  · dsimp only
    have hc := readClause_length_le line (if isTypeModifier ts then ts.tail else ts)
    have ht : (if isTypeModifier ts then ts.tail else ts).length ≤ ts.length := by
      split
      · exact tail_le ts
      · exact Nat.le_refl _
    have hle := Nat.le_trans hc ht
    split
    · next rest h => rwa [h] at hle
    · next bs rest h =>
      rw [h] at hle
      split
      · exact Nat.le_trans (dropEnding_length_le _) (Nat.le_trans (readTarget_length_le _) hle)
      · split
        · exact Nat.zero_le _
        · next t after =>
          split
          · split
            · exact Nat.zero_le _
            · next s after =>
              have := dropEnding_length_le after
              simp only [List.length_cons] at hle
              split <;> simp only [List.length_cons] <;> omega
          · exact hle

/-- Reads the declarations of a token list, given the token before it, the length of the whole list
that it ends, and the declarations already read in reverse. -/
def readAll (total : Nat) (before : Option Token) (ts : List Token) (read : List Declaration) :
    List Declaration :=
  match ts with
  | [] => read.reverse
  | t :: rest =>
    if isImport before t rest.head? then
      let contents := readContents t.line rest
      let left := contents.2.length
      let start := total - (rest.length + 1)
      let stop := total - left
      let declaration : Declaration :=
        ⟨⟨start, stop⟩, t.line, contents.1.source, contents.1.typeOnly, contents.1.bindings⟩
      readAll total ((t :: rest).take (stop - start)).getLast? contents.2 (declaration :: read)
    else readAll total (some t) rest read
termination_by ts.length
decreasing_by
  · have := readContents_length_le t.line rest
    simp only [List.length_cons]
    omega
  · simp

end Import

/-- The import declarations of a token list in order. -/
def importsOf (tokens : List Token) : List Declaration :=
  Import.readAll tokens.length none tokens []

namespace Declaration

/-- Tests whether the declaration ends on the line of its keyword. Fails if its last token is not
in the list. -/
def isSingleLineAt? (tokens : List Token) (d : Declaration) : Option Bool :=
  if d.start < d.stop then (tokens[d.stop - 1]?).map (·.line == d.line) else some false

def isSingleLine (tokens : List Token) (d : Declaration) : Bool :=
  (d.isSingleLineAt? tokens).getD false

end Declaration

end UnusedImports

import UnusedImports.Proofs.Lexer.Rules
import UnusedImports.Proofs.Markup.Expression

/-! One lemma for each delimiter, name and text of a nested expression. Places play no part in this,
so the lemmas speak of states that have none. -/

namespace UnusedImports

open Markup

def Token.word (t : Token) : Word := (t.kind, t.text)

namespace Lexer

/-- A lexer without the places: what has not been read, the open braces and frames, and what has
been read. -/
structure State where
  rest : Bytes
  depth : Nat
  frames : List Frame
  words : List Word

def state (lx : Lexer) : State := ⟨lx.rest, lx.depth, lx.frames, lx.tokens.reverse.map Token.word⟩

/-- The lexer runs on like one in the given state. -/
def Leads (lx : Lexer) (a : State) : Prop :=
  ∃ next : Lexer, next.state = a ∧ lx.run .markup = next.run .markup

/-- Every lexer in the first state runs on like one in the second. -/
def Reads (a b : State) : Prop := ∀ lx : Lexer, lx.state = a → lx.Leads b

theorem Leads.trans {lx : Lexer} {a b : State} (h : lx.Leads a) (hab : Reads a b) :
    lx.Leads b := by
  obtain ⟨next, hnext, hrun⟩ := h
  obtain ⟨last, hlast, hrun'⟩ := hab next hnext
  exact ⟨last, hlast, hrun.trans hrun'⟩

theorem Reads.refl (a : State) : Reads a a := fun lx h => ⟨lx, h, rfl⟩

theorem Reads.trans {a b c : State} (hab : Reads a b) (hbc : Reads b c) : Reads a c :=
  fun lx h => (hab lx h).trans hbc

/-- A lexer that comes to the end of the text with nothing open ends its run there. -/
theorem Leads.run_state {lx : Lexer} {d : Nat} {ws : List Word} (h : lx.Leads ⟨[], d, [], ws⟩) :
    (lx.run .markup).state = ⟨[], d, [], ws⟩ := by
  obtain ⟨⟨s, p, d, fs, ts⟩, hnext, hrun⟩ := h
  obtain ⟨rfl, rfl, rfl, rfl⟩ := State.mk.inj hnext
  have hsettle : settle ⟨[], p, d, [], ts⟩ = ⟨[], p, d, [], ts⟩ := by
    simp [settle, Lexeme.triviaLength, skip, Position.advance]
  rw [hrun, run_of_rest_eq_nil (by rw [hsettle]), hsettle]
  rfl

/-! ### Where a token starts -/

/-- Neither a blank nor a comment comes first. -/
def StartsToken (s : Bytes) : Prop := s ≠ [] ∧ ∀ n, Lexeme.triviaLength s n = n

theorem startsToken_of_not_slash {b : UInt8} {s : Bytes} (hslash : b ≠ Bytes.slash)
    (hblank : Lexeme.isBlank (Utf8.decode (b :: s)).1 = false) : StartsToken (b :: s) := by
  refine ⟨List.cons_ne_nil b s, fun n => ?_⟩
  rw [Lexeme.triviaLength]
  simp [hslash, hblank]

theorem startsToken_name {n : Bytes} (h : IsName n) (s : Bytes) : StartsToken (n ++ s) := by
  have hblank := Identifier.not_isBlank_of_isStart (h.isStart_decode s)
  obtain ⟨b, t, rfl, hb⟩ := h.head
  refine startsToken_of_not_slash ?_ hblank
  rintro rfl
  exact absurd hb (by decide)

theorem startsToken_selfClosing (s : Bytes) : StartsToken (utf8 "/>" ++ s) := by
  refine ⟨List.cons_ne_nil _ _, fun n => ?_⟩
  change Lexeme.triviaLength (Bytes.slash :: '>'.toUInt8 :: s) n = n
  rw [Lexeme.triviaLength]
  rfl

theorem triviaLength_spaces (m : Nat) {s : Bytes} (hs : StartsToken s) (n : Nat) :
    Lexeme.triviaLength (List.replicate m ' '.toUInt8 ++ s) n = n + m := by
  induction m generalizing n with
  | zero => simpa using hs.2 n
  | succ m ih =>
      rw [List.replicate_succ, List.cons_append, Lexeme.triviaLength]
      change Lexeme.triviaLength (List.replicate m ' '.toUInt8 ++ s) (n + 1) = n + (m + 1)
      rw [ih]
      omega

/-! ### One step -/

theorem run_congr {dialect : Dialect} {lx next : Lexer} (h : lx.settle = next.settle) :
    lx.run dialect = next.run dialect := by
  rw [run, h, ← run]

theorem settle_of_startsToken (lx : Lexer) (h : StartsToken lx.rest) : lx.settle = lx := by
  unfold settle
  split
  · rfl
  · rw [h.2]
    rfl

variable {s k : Bytes} {d : Nat} {fs : List Frame} {ws : List Word}

/-- There is something to read, and nothing is moved over in front of it. -/
def Settled (s : Bytes) (fs : List Frame) : Prop :=
  s ≠ [] ∧ ∀ p d ts, settle ⟨s, p, d, fs, ts⟩ = ⟨s, p, d, fs, ts⟩

theorem StartsToken.settled (h : StartsToken s) : Settled s fs :=
  ⟨h.1, fun _ _ _ => settle_of_startsToken _ h⟩

theorem settled_mark {b : UInt8} (hslash : b ≠ Bytes.slash)
    (hblank : Lexeme.isBlank (Utf8.decode (b :: s)).1 = false) : Settled (b :: s) fs :=
  (startsToken_of_not_slash hslash hblank).settled

/-- The frame of the children shields their text from being moved over. -/
theorem settled_children (hs : s ≠ []) : Settled s (.children :: fs) := ⟨hs, fun _ _ _ => rfl⟩

theorem Settled.run_eq (h : Settled s fs) (p : Position) (d : Nat) (ts : List Token) :
    run .markup ⟨s, p, d, fs, ts⟩ = run .markup (scan .markup ⟨s, p, d, fs, ts⟩) := by
  rw [run_of_rest_ne_nil (by rw [h.2]; exact h.1), h.2]

/-- A lexer leads to where reading on leads. -/
theorem Reads.of_scan {a : State} (hs : Settled s fs)
    (h : ∀ p ts, ts.reverse.map Token.word = ws → (scan .markup ⟨s, p, d, fs, ts⟩).Leads a) :
    Reads ⟨s, d, fs, ws⟩ a := by
  rintro ⟨s', p, d', fs', ts⟩ hstate
  obtain ⟨rfl, rfl, rfl, hwords⟩ := State.mk.inj hstate
  obtain ⟨next, hnext, hrun⟩ := h p ts hwords
  exact ⟨next, hnext, (hs.run_eq p d' ts).trans hrun⟩

/-- A step that reads one token. -/
theorem Reads.of_token {e : Nat} {gs : List Frame} {kind : TokenKind} {text : Bytes}
    (hs : Settled s fs)
    (h : ∀ p ts, ts.reverse.map Token.word = ws →
      ∃ q, scan .markup ⟨s, p, d, fs, ts⟩ = ⟨k, q, e, gs, ⟨p, kind, text⟩ :: ts⟩) :
    Reads ⟨s, d, fs, ws⟩ ⟨k, e, gs, ws ++ [(kind, text)]⟩ := by
  refine .of_scan hs fun p ts hwords => ?_
  obtain ⟨q, hscan⟩ := h p ts hwords
  refine ⟨_, ?_, rfl⟩
  simp [hscan, state, Token.word, ← hwords]

/-- The lexer reads code, and the innermost frame was opened at most at the given depth. -/
def CodeAt (d : Nat) : List Frame → Prop
  | [] => True
  | .template e :: _ => e ≤ d
  | .expression e :: _ => e ≤ d
  | _ => False

theorem codeAt_substitution (d : Nat) (fs : List Frame) : CodeAt d (.template d :: fs) :=
  Nat.le_refl d

theorem codeAt_container (d : Nat) (fs : List Frame) : CodeAt d (.expression d :: fs) :=
  Nat.le_refl d

theorem CodeAt.succ (h : CodeAt d fs) : CodeAt (d + 1) fs := by
  rcases fs with _ | ⟨_ | _ | _ | _, fs⟩
  · trivial
  · exact Nat.le_succ_of_le h
  · exact Nat.le_succ_of_le h
  · exact h
  · exact h

/-- Of the depths above that of the innermost frame none is its own. -/
theorem CodeAt.head?_ne (h : CodeAt d fs) :
    fs.head? ≠ some (.template (d + 1)) ∧ fs.head? ≠ some (.expression (d + 1)) := by
  rcases fs with _ | ⟨_ | _ | _ | _, fs⟩
  · exact ⟨nofun, nofun⟩
  · exact ⟨by rintro ⟨⟩; exact absurd h (Nat.not_succ_le_self d), nofun⟩
  · exact ⟨nofun, by rintro ⟨⟩; exact absurd h (Nat.not_succ_le_self d)⟩
  · exact h.elim
  · exact h.elim

theorem CodeAt.scan_eq (h : CodeAt d fs) (s : Bytes) (p : Position) (e : Nat) (ts : List Token) :
    scan .markup ⟨s, p, e, fs, ts⟩ = scanCode .markup ⟨s, p, e, fs, ts⟩ := by
  rcases fs with _ | ⟨_ | _ | _ | _, fs⟩
  · rfl
  · rfl
  · rfl
  · exact h.elim
  · exact h.elim

/-- Spaces are moved over everywhere but between tags. -/
theorem reads_spaces {m : Nat} (hk : StartsToken k) (hfs : fs.head? ≠ some .children) :
    Reads ⟨List.replicate m ' '.toUInt8 ++ k, d, fs, ws⟩ ⟨k, d, fs, ws⟩ := by
  rintro ⟨s, p, d, fs, ts⟩ hstate
  obtain ⟨rfl, rfl, rfl, rfl⟩ := State.mk.inj hstate
  refine ⟨⟨k, p.advance (List.replicate m ' '.toUInt8), d, fs, ts⟩, rfl, run_congr ?_⟩
  rw [settle_of_startsToken ⟨k, _, _, _, _⟩ hk]
  unfold settle
  split
  · next hframes => exact absurd (congrArg List.head? hframes) hfs
  · simp [triviaLength_spaces m hk, skip]

/-! ### Code -/

/-- An operand may follow what has been read. -/
def OperandNext (ws : List Word) : Prop :=
  ws.getLast?.all (fun w => startsOperand ⟨.start, w.1, w.2⟩) = true

theorem operandNext_append_mark {m : String}
    (h : startsOperand ⟨.start, .punctuation, utf8 m⟩ = true) (ws : List Word) :
    OperandNext (ws ++ [mark m]) := by
  simpa [OperandNext, mark] using h

theorem operandAllowed_of_next {lx : Lexer} (h : OperandNext (lx.tokens.reverse.map Token.word)) :
    lx.operandAllowed = true := by
  unfold operandAllowed
  cases hts : lx.tokens with
  | nil => rfl
  | cons t ts =>
      have hlast : startsOperand ⟨.start, t.kind, t.text⟩ = true := by
        simpa [OperandNext, hts, Token.word] using h
      exact hlast

theorem reads_openBrace (hcode : CodeAt d fs) :
    Reads ⟨utf8 "\x7b" ++ k, d, fs, ws⟩ ⟨k, d + 1, fs, ws ++ [mark "\x7b"]⟩ :=
  .of_token (settled_mark (by decide) rfl) fun p ts _ => ⟨_, hcode.scan_eq _ p d ts⟩

theorem reads_mark {m : String} (hm : m ∈ ["(", ")", ",", ";", "..."]) (hcode : CodeAt d fs) :
    Reads ⟨utf8 m ++ k, d, fs, ws⟩ ⟨k, d, fs, ws ++ [mark m]⟩ := by
  simp only [List.mem_cons, List.not_mem_nil, or_false] at hm
  rcases hm with rfl | rfl | rfl | rfl | rfl
  all_goals
    exact .of_token (settled_mark (by decide) rfl) fun p ts _ => ⟨_, hcode.scan_eq _ p d ts⟩

theorem scanCode_closeBrace (p : Position) (ts : List Token) :
    scanCode .markup ⟨utf8 "\x7d" ++ k, p, d, fs, ts⟩ =
      scanCloseBrace ⟨utf8 "\x7d" ++ k, p, d, fs, ts⟩ := rfl

/-- A brace that was opened in the innermost frame ends a block. -/
theorem reads_closeBrace (hcode : CodeAt d fs) :
    Reads ⟨utf8 "\x7d" ++ k, d + 1, fs, ws⟩ ⟨k, d, fs, ws ++ [mark "\x7d"]⟩ := by
  refine .of_token (settled_mark (by decide) rfl) fun p ts _ => ?_
  have hblock : BraceRule ⟨utf8 "\x7d" ++ k, p, d + 1, fs, ts⟩ _ :=
    .block hcode.head?_ne.1 hcode.head?_ne.2
  rw [hcode.scan_eq, scanCode_closeBrace, hblock.eq]
  exact ⟨_, rfl⟩

/-- A brace at the depth of an expression container ends that. -/
theorem reads_closeContainer :
    Reads ⟨utf8 "\x7d" ++ k, d, .expression d :: fs, ws⟩ ⟨k, d, fs, ws ++ [mark "\x7d"]⟩ := by
  refine .of_token (settled_mark (by decide) rfl) fun p ts _ => ?_
  rw [(codeAt_container d fs).scan_eq, scanCode_closeBrace, (BraceRule.container rfl).eq]
  exact ⟨_, rfl⟩

/-- A name is read to its end. -/
theorem scanCode_name {dialect : Dialect} {lx : Lexer} {n : Bytes} (hn : IsName n)
    (hs : Identifier.isContinue (Utf8.decode s).1 = false) (hrest : lx.rest = n ++ s) :
    lx.scanCode dialect = lx.emit .identifier n.length := by
  obtain ⟨b, t, rfl, _⟩ := hn.head
  have hstart := hn.isStart_decode s
  have hlength := hn.wordLength_append hs
  rw [List.cons_append] at hstart hlength hrest
  have hplain : CodeRule dialect lx _ := .plain hrest (hn.head_ne (by decide) (by decide))
    (hn.head_ne (by decide) (by decide)) (hn.head_ne (by decide) (by decide))
    fun hless => absurd hless (hn.head_ne (by decide) (by decide))
  rw [hplain.eq]
  simp only [plainLexeme, hstart, hlength, if_true]

theorem reads_name {n : Bytes} (hcode : CodeAt d fs) (hn : IsName n) (hk : EndsName k) :
    Reads ⟨n ++ k, d, fs, ws⟩ ⟨k, d, fs, ws ++ [(.identifier, n)]⟩ := by
  refine .of_token (startsToken_name hn k).settled fun p ts _ => ⟨p.advance n, ?_⟩
  rw [hcode.scan_eq, scanCode_name hn hk.1 rfl]
  simp [emit, skip]

/-! ### Templates -/

/-- A piece of a template literal is read over, whatever comes after it. -/
theorem templateLength_piece {text s : Bytes} (htext : IsPiece text) (hs : s ≠ [])
    (hbrace : s.head? ≠ some Bytes.openBrace) (n : Nat) :
    Lexeme.templateLength (text ++ s) n = Lexeme.templateLength s (n + text.length) := by
  induction text generalizing n with
  | nil => rfl
  | cons b text ih =>
      obtain ⟨htick, hslash, hopen⟩ := htext
      have hpiece : IsPiece text := by
        refine ⟨fun h => htick (.tail b h), fun h => hslash (.tail b h), fun h => hopen ?_⟩
        exact h.trans (List.suffix_cons b text).isInfix
      have hb : b ≠ Bytes.backtick := fun h => htick (by simp [h])
      have hb' : b ≠ Bytes.backslash := fun h => hslash (by simp [h])
      cases hrest : text ++ s with
      | nil => exact absurd (List.append_eq_nil_iff.mp hrest).2 hs
      | cons c t =>
          have hdollar : ¬ (b = '$'.toUInt8 ∧ c = Bytes.openBrace) := by
            rintro ⟨rfl, rfl⟩
            cases text with
            | nil => exact hbrace (by simp_all)
            | cons a text =>
                obtain ⟨rfl, _⟩ := List.cons.inj hrest
                exact hopen ⟨[], text, rfl⟩
          have hstep := ih hpiece (n + 1)
          rw [hrest] at hstep
          rw [List.cons_append, hrest, Lexeme.templateLength]
          simp only [beq_iff_eq, hb, hb', Bool.and_eq_true, hdollar, if_false, hstep,
            List.length_cons]
          rw [Nat.add_assoc n 1, Nat.add_comm 1]

theorem templateLength_last {text : Bytes} (htext : IsPiece text) (k : Bytes) (n : Nat) :
    Lexeme.templateLength (text ++ (utf8 "`" ++ k)) n = (n + text.length + 1, .closed) := by
  rw [templateLength_piece (s := utf8 "`" ++ k) htext (List.cons_ne_nil _ _) nofun]
  cases k <;> rfl

theorem templateLength_substitution {text : Bytes} (htext : IsPiece text) (k : Bytes) (n : Nat) :
    Lexeme.templateLength (text ++ (utf8 "$\x7b" ++ k)) n = (n + text.length, .substitution) := by
  rw [templateLength_piece (s := utf8 "$\x7b" ++ k) htext (List.cons_ne_nil _ _) nofun]
  rfl

/-- The last piece of a template literal. -/
theorem leads_lastPiece {front text : Bytes} (htext : IsPiece text) {lx : Lexer}
    (h : lx.state = ⟨front ++ (text ++ (utf8 "`" ++ k)), d, fs, ws⟩) :
    (lx.scanTemplate front.length).Leads
      ⟨k, d, fs, ws ++ [(.template, front ++ text ++ utf8 "`")]⟩ := by
  obtain ⟨s, p, d', fs', ts⟩ := lx
  obtain ⟨rfl, rfl, rfl, rfl⟩ := State.mk.inj h
  simp only [scanTemplate, List.drop_left, templateLength_last htext]
  have hsize : front.length + text.length + 1 = (front ++ text ++ utf8 "`").length := by
    simp; rfl
  have hsplit : front ++ (text ++ (utf8 "`" ++ k)) = front ++ text ++ utf8 "`" ++ k := by simp
  rw [hsize, hsplit]
  generalize front ++ text ++ utf8 "`" = piece
  refine ⟨_, ?_, rfl⟩
  simp [state, emit, skip, Token.word]

/-- A piece of a template literal before a substitution. -/
theorem leads_piece {front text : Bytes} (htext : IsPiece text) {lx : Lexer}
    (h : lx.state = ⟨front ++ (text ++ (utf8 "$\x7b" ++ k)), d, fs, ws⟩) :
    (lx.scanTemplate front.length).Leads
      ⟨k, d, .template d :: fs, ws ++ [(.template, front ++ text)] ++ [mark "$\x7b"]⟩ := by
  obtain ⟨s, p, d', fs', ts⟩ := lx
  obtain ⟨rfl, rfl, rfl, rfl⟩ := State.mk.inj h
  simp only [scanTemplate, List.drop_left, templateLength_substitution htext]
  rw [← List.length_append, ← List.append_assoc front]
  generalize front ++ text = piece
  have hdrop : (utf8 "$\x7b" ++ k).drop 2 = k := rfl
  have htake : (utf8 "$\x7b" ++ k).take 2 = utf8 "$\x7b" := rfl
  refine ⟨_, ?_, rfl⟩
  simp [state, push, emit, skip, Token.word, mark, hdrop, htake]

/-- A brace at the depth of a substitution ends that, and the next piece follows. -/
theorem reads_closeSubstitution {a : State}
    (h : ∀ lx : Lexer, lx.state = ⟨k, d, fs, ws ++ [mark "\x7d"]⟩ → (lx.scanTemplate 0).Leads a) :
    Reads ⟨utf8 "\x7d" ++ k, d, .template d :: fs, ws⟩ a := by
  refine .of_scan (settled_mark (by decide) rfl) ?_
  rintro p ts rfl
  rw [(codeAt_substitution d fs).scan_eq, scanCode_closeBrace, (BraceRule.substitution rfl).eq]
  have hdrop : (utf8 "\x7d" ++ k).drop 1 = k := rfl
  have htake : (utf8 "\x7d" ++ k).take 1 = utf8 "\x7d" := rfl
  refine h _ ?_
  simp [state, emit, skip, pop, Token.word, mark, hdrop, htake]

theorem reads_backtick {a : State} (hcode : CodeAt d fs)
    (h : ∀ lx : Lexer, lx.state = ⟨utf8 "`" ++ k, d, fs, ws⟩ → (lx.scanTemplate 1).Leads a) :
    Reads ⟨utf8 "`" ++ k, d, fs, ws⟩ a := by
  refine .of_scan (settled_mark (by decide) rfl) ?_
  rintro p ts rfl
  rw [hcode.scan_eq]
  exact h _ rfl

/-! ### Tags -/

/-- The name of a tag or the end of a tag without one. -/
def TagFollows (s : Bytes) : Prop :=
  s.head? = some '>'.toUInt8 ∨ ∃ n t, IsName n ∧ s = n ++ t

theorem TagFollows.not_slash (h : TagFollows k) : (k.head? == some Bytes.slash) = false := by
  rcases h with h | ⟨n, t, hn, rfl⟩
  · rw [h]
    rfl
  · obtain ⟨b, n, rfl, _⟩ := hn.head
    simpa using hn.head_ne (by decide) (by decide)

theorem TagFollows.opensTag (h : TagFollows k) : Lexeme.opensTag k = true := by
  rcases h with h | ⟨n, t, hn, rfl⟩
  · rw [Lexeme.opensTag, h]
    rfl
  · obtain ⟨b, n, rfl, hb⟩ := hn.head
    rcases hb with hb | hb
    · simp [Lexeme.opensTag, hb]
    · simp [Lexeme.opensTag, hb]

theorem scanOpenTag_eq (h : TagFollows k) (p : Position) (ts : List Token) :
    ∃ q, scanOpenTag ⟨utf8 "<" ++ k, p, d, fs, ts⟩ =
      ⟨k, q, d, .tag false false 0 :: fs, ⟨p, .punctuation, utf8 "<"⟩ :: ts⟩ := by
  have hclosing : (((utf8 "<" ++ k).tail.head?) == some Bytes.slash) = false := h.not_slash
  simp only [scanOpenTag, hclosing]
  exact ⟨_, rfl⟩

/-- Where an operand may stand, `<` opens a tag. -/
theorem reads_openElement (hcode : CodeAt d fs) (hws : OperandNext ws) (hk : TagFollows k) :
    Reads ⟨utf8 "<" ++ k, d, fs, ws⟩ ⟨k, d, .tag false false 0 :: fs, ws ++ [mark "<"]⟩ := by
  refine .of_token (settled_mark (by decide) rfl) ?_
  rintro p ts rfl
  have hopens : opensMarkup .markup ⟨utf8 "<" ++ k, p, d, fs, ts⟩ k = true := by
    rw [opensMarkup, operandAllowed_of_next hws]
    rcases hk with h | ⟨n, t, hn, rfl⟩
    · simp [h]
    · have hstart := hn.isStart_decode t
      obtain ⟨b, n, rfl, _⟩ := hn.head
      rw [List.cons_append] at hstart ⊢
      simp [hstart]
  rw [hcode.scan_eq]
  have hstep : scanCode .markup ⟨utf8 "<" ++ k, p, d, fs, ts⟩ =
      scanOpenTag ⟨utf8 "<" ++ k, p, d, fs, ts⟩ := if_pos hopens
  rw [hstep]
  exact scanOpenTag_eq hk p ts

theorem scanTag_name {n : Bytes} (hn : IsName n) (hk : EndsName k) (closing named : Bool)
    (attributes : Nat) (p : Position) (ts : List Token) :
    scanTag closing named attributes ⟨n ++ k, p, d, fs, ts⟩ =
      let lx := (⟨k, p.advance n, d, fs, ⟨p, .identifier, n⟩ :: ts⟩ : Lexer)
      if !named then lx.pop.push (.tag closing true attributes)
      else if attributes == 0 && n == utf8 "extends" then lx.pop
      else lx.pop.push (.tag closing named (attributes + 1)) := by
  obtain ⟨b, t, rfl, _⟩ := hn.head
  have hname : StartsName (b :: (t ++ k)) (b :: t).length :=
    ⟨hn.isStart_decode k, hn.nameLength_append hk⟩
  have hrest : (⟨b :: t ++ k, p, d, fs, ts⟩ : Lexer).rest = b :: (t ++ k) := rfl
  rw [scanTag_of_startsName hrest hname]
  simp only [← List.cons_append, emit, skip, List.take_left, List.drop_left]

/-- The name of a tag. -/
theorem reads_tagName {n : Bytes} {closing : Bool} {attributes : Nat} (hn : IsName n)
    (hk : EndsName k) :
    Reads ⟨n ++ k, d, .tag closing false attributes :: fs, ws⟩
      ⟨k, d, .tag closing true attributes :: fs, ws ++ [(.identifier, n)]⟩ := by
  refine .of_token (startsToken_name hn k).settled fun p ts _ => ⟨p.advance n, ?_⟩
  exact scanTag_name hn hk closing false attributes p ts

/-- The name of an attribute. The first may not be `extends`. -/
theorem reads_attributeName {n : Bytes} {closing : Bool} {attributes : Nat} (hn : IsName n)
    (hk : EndsName k) (hfirst : attributes = 0 → n ≠ utf8 "extends") :
    Reads ⟨n ++ k, d, .tag closing true attributes :: fs, ws⟩
      ⟨k, d, .tag closing true (attributes + 1) :: fs, ws ++ [(.identifier, n)]⟩ := by
  have hparameter : (attributes == 0 && n == utf8 "extends") = false := by simpa using hfirst
  refine .of_token (startsToken_name hn k).settled fun p ts _ => ⟨p.advance n, ?_⟩
  refine (scanTag_name hn hk closing true attributes p ts).trans ?_
  rw [hparameter]
  rfl

theorem reads_equals {attributes : Nat} :
    Reads ⟨utf8 "=" ++ k, d, .tag false true attributes :: fs, ws⟩
      ⟨k, d, .tag false true attributes :: fs, ws ++ [mark "="]⟩ :=
  .of_token (settled_mark (by decide) rfl) fun _ _ _ => ⟨_, rfl⟩

theorem reads_openContainer {attributes : Nat} :
    Reads ⟨utf8 "\x7b" ++ k, d, .tag false true attributes :: fs, ws⟩
      ⟨k, d, .expression d :: .tag false true attributes :: fs, ws ++ [mark "\x7b"]⟩ :=
  .of_token (settled_mark (by decide) rfl) fun _ _ _ => ⟨_, rfl⟩

theorem attributeLength_quoted {text : Bytes} (htext : Bytes.doubleQuote ∉ text) (k : Bytes)
    (n : Nat) :
    Lexeme.attributeLength Bytes.doubleQuote (text ++ (utf8 "\"" ++ k)) n =
      n + text.length + 1 := by
  induction text generalizing n with
  | nil => rfl
  | cons b text ih =>
      have hb : b ≠ Bytes.doubleQuote := fun h => htext (by simp [h])
      rw [List.cons_append, Lexeme.attributeLength]
      simp only [beq_iff_eq, hb, if_false, ih (fun h => htext (.tail b h)), List.length_cons]
      omega

theorem reads_quoted {text : Bytes} {attributes : Nat} (htext : Bytes.doubleQuote ∉ text) :
    Reads ⟨utf8 "\"" ++ (text ++ (utf8 "\"" ++ k)), d, .tag false true attributes :: fs, ws⟩
      ⟨k, d, .tag false true attributes :: fs,
        ws ++ [(.string, utf8 "\"" ++ text ++ utf8 "\"")]⟩ := by
  have hlength : Lexeme.attributeLength Bytes.doubleQuote (text ++ (utf8 "\"" ++ k)) 1 =
      (utf8 "\"" ++ text ++ utf8 "\"").length := by
    rw [attributeLength_quoted htext, List.length_append, List.length_append]
    rfl
  have hsplit : utf8 "\"" ++ (text ++ (utf8 "\"" ++ k)) =
      utf8 "\"" ++ text ++ utf8 "\"" ++ k := by simp
  refine .of_token (settled_mark (by decide) rfl) fun p ts _ =>
    ⟨p.advance (utf8 "\"" ++ text ++ utf8 "\""), ?_⟩
  change emit .string (Lexeme.attributeLength Bytes.doubleQuote (text ++ (utf8 "\"" ++ k)) 1) _ = _
  rw [hlength, hsplit]
  simp only [emit, skip, List.take_left, List.drop_left]

theorem reads_selfClosing {named : Bool} {attributes : Nat} :
    Reads ⟨utf8 "/>" ++ k, d, .tag false named attributes :: fs, ws⟩
      ⟨k, d, fs, ws ++ [mark "/>"]⟩ :=
  .of_token (startsToken_selfClosing k).settled fun _ _ _ => ⟨_, rfl⟩

/-- Children follow an opening tag. -/
theorem reads_openChildren {named : Bool} {attributes : Nat} :
    Reads ⟨utf8 ">" ++ k, d, .tag false named attributes :: fs, ws⟩
      ⟨k, d, .children :: fs, ws ++ [mark ">"]⟩ :=
  .of_token (settled_mark (by decide) rfl) fun _ _ _ => ⟨_, rfl⟩

/-- The end of a closing tag closes the children before it too. -/
theorem reads_closeChildren {named : Bool} {attributes : Nat} :
    Reads ⟨utf8 ">" ++ k, d, .tag true named attributes :: .children :: fs, ws⟩
      ⟨k, d, fs, ws ++ [mark ">"]⟩ :=
  .of_token (settled_mark (by decide) rfl) fun _ _ _ => ⟨_, rfl⟩

/-! ### Children -/

/-- Text between tags ends here. -/
def EndsText (s : Bytes) : Prop := s ≠ [] ∧ ∀ n, Lexeme.markupLength s n = n

theorem endsText_openBrace (s : Bytes) : EndsText (utf8 "\x7b" ++ s) :=
  ⟨List.cons_ne_nil _ _, fun _ => rfl⟩

theorem endsText_closingTag (s : Bytes) : EndsText (utf8 "</" ++ s) :=
  ⟨List.cons_ne_nil _ _, fun _ => rfl⟩

theorem endsText_element (h : TagFollows k) : EndsText (utf8 "<" ++ k) := by
  refine ⟨List.cons_ne_nil _ _, fun n => ?_⟩
  change Lexeme.markupLength ('<'.toUInt8 :: k) n = n
  simp [Lexeme.markupLength, h.opensTag]

theorem markupLength_text {text : Bytes} (hopen : '<'.toUInt8 ∉ text)
    (hbrace : Bytes.openBrace ∉ text) (hk : EndsText k) (n : Nat) :
    Lexeme.markupLength (text ++ k) n = n + text.length := by
  induction text generalizing n with
  | nil => exact hk.2 n
  | cons b text ih =>
      have hb : b ≠ Bytes.openBrace := fun h => hbrace (by simp [h])
      have hb' : b ≠ '<'.toUInt8 := fun h => hopen (by simp [h])
      rw [List.cons_append, Lexeme.markupLength]
      simp only [beq_iff_eq, Bool.or_eq_true, Bool.and_eq_true, hb, hb', false_and, or_self,
        if_false, ih (fun h => hopen (.tail b h)) (fun h => hbrace (.tail b h)), List.length_cons]
      omega

theorem scanChildren_text {text : Bytes} (htext : IsText text) (hk : EndsText k) (p : Position)
    (ts : List Token) :
    scanChildren ⟨text ++ k, p, d, fs, ts⟩ =
      scanChildren ⟨k, p.advance text, d, fs, ⟨p, .markupText, text⟩ :: ts⟩ := by
  obtain ⟨hne, hopen, hbrace⟩ := htext
  have hlength := markupLength_text hopen hbrace hk 0
  have hpos : text.length ≠ 0 := mt List.length_eq_zero_iff.mp hne
  rw [Nat.zero_add] at hlength
  simp [scanChildren, hlength, hk.2 0, hpos, emit, skip]

/-- Text is one token up to the next opening. -/
theorem reads_text {text : Bytes} (htext : IsText text) (hk : EndsText k) :
    Reads ⟨text ++ k, d, .children :: fs, ws⟩
      ⟨k, d, .children :: fs, ws ++ [(.markupText, text)]⟩ := by
  rintro ⟨s, p, d, frames, ts⟩ hstate
  obtain ⟨rfl, rfl, rfl, rfl⟩ := State.mk.inj hstate
  have hne : text ++ k ≠ [] := fun h => hk.1 (List.append_eq_nil_iff.mp h).2
  refine ⟨⟨k, p.advance text, d, .children :: fs, ⟨p, .markupText, text⟩ :: ts⟩, ?_, ?_⟩
  · simp [state, Token.word]
  · -- Text and the opening after it are one step, which is also the step from the opening on.
    rw [(settled_children hne).run_eq, (settled_children hk.1).run_eq]
    exact congrArg (run .markup) (scanChildren_text htext hk p ts)

/-- What opens right away between tags. -/
theorem reads_childContainer :
    Reads ⟨utf8 "\x7b" ++ k, d, .children :: fs, ws⟩
      ⟨k, d, .expression d :: .children :: fs, ws ++ [mark "\x7b"]⟩ :=
  .of_token (settled_children (List.cons_ne_nil _ _)) fun _ _ _ => ⟨_, rfl⟩

theorem reads_childElement (hk : TagFollows k) :
    Reads ⟨utf8 "<" ++ k, d, .children :: fs, ws⟩
      ⟨k, d, .tag false false 0 :: .children :: fs, ws ++ [mark "<"]⟩ := by
  refine .of_token (settled_children (List.cons_ne_nil _ _)) fun p ts _ => ?_
  have hlength : Lexeme.markupLength (utf8 "<" ++ k) 0 = 0 := (endsText_element hk).2 0
  have hstep : scan .markup ⟨utf8 "<" ++ k, p, d, .children :: fs, ts⟩ =
      scanOpenTag ⟨utf8 "<" ++ k, p, d, .children :: fs, ts⟩ := by
    simp only [scan, scanChildren, hlength]
    rfl
  rw [hstep]
  exact scanOpenTag_eq hk p ts

theorem reads_closingTag :
    Reads ⟨utf8 "</" ++ k, d, .children :: fs, ws⟩
      ⟨k, d, .tag true false 0 :: .children :: fs, ws ++ [mark "</"]⟩ :=
  .of_token (settled_children (List.cons_ne_nil _ _)) fun _ _ _ => ⟨_, rfl⟩

end Lexer

end UnusedImports

import UnusedImports.Proofs.Lexer.Abreast
import UnusedImports.Proofs.Lexer.Coverage

/-! Blanks and comments can be exchanged for others with the same line breaks, unless the lexer
looked at them before it came there. -/

namespace UnusedImports

/-! ### Trivia is moved over -/

namespace Lexeme

theorem lineLength_of_endsLine {text rest : Bytes} (htext : Bytes.newline ∉ text)
    (hrest : EndsLine rest) (n : Nat) : lineLength (text ++ rest) n = n + text.length := by
  induction text generalizing n with
  | nil =>
      rcases hrest with rfl | hrest
      · rfl
      · obtain ⟨s, rfl⟩ := List.head?_eq_some_iff.mp hrest
        rfl
  | cons p text ih =>
      rw [List.mem_cons, not_or] at htext
      simp only [List.cons_append, lineLength, beq_iff_eq, Ne.symm htext.1, if_false,
        List.length_cons, ih htext.2]
      omega

theorem blockLength_closed {text : Bytes} (h : ¬ utf8 "*/" <:+: text ++ utf8 "*") (rest : Bytes)
    (n : Nat) : blockLength (text ++ (utf8 "*/" ++ rest)) n = n + text.length + 2 := by
  induction text generalizing n with
  | nil => rfl
  | cons p text ih =>
      have htail : ¬ utf8 "*/" <:+: text ++ utf8 "*" := fun hin =>
        h (hin.trans (List.suffix_cons p _).isInfix)
      have hopen : ¬ (p == '*'.toUInt8 &&
          (text ++ (utf8 "*/" ++ rest)).head? == some Bytes.slash) = true := by
        intro hclose
        simp only [Bool.and_eq_true, beq_iff_eq] at hclose
        cases text with
        | nil => exact absurd (Option.some.inj hclose.2) (by decide)
        | cons q text =>
            obtain ⟨rfl, hq⟩ := hclose
            obtain rfl : q = Bytes.slash := Option.some.inj hq
            exact h ⟨[], text ++ utf8 "*", rfl⟩
      rw [List.cons_append, blockLength_cons p (by simp [closing_eq]), if_neg hopen, ih htail,
        List.length_cons]
      omega

theorem blockLength_unclosed {text : Bytes} (h : ¬ utf8 "*/" <:+: text) (n : Nat) :
    blockLength text n = n + text.length := by
  obtain ⟨k, hk, hle, ⟨front, hfront, -⟩ | ⟨rfl, -⟩⟩ := blockLength_spec text n
  · exact absurd ⟨front, text.drop k, by rw [← hfront, List.take_append_drop]⟩ h
  · exact hk

/-- A blank code point is no slash, so it opens no comment. -/
theorem triviaLength_blank {c : Nat} (hc : isBlank c = true) (s : Bytes) (n : Nat) :
    triviaLength (Utf8.encode c ++ s) n = triviaLength s (n + (Utf8.encode c).length) := by
  have hdecode := Utf8.decode_encode_append (isScalar_of_isBlank hc) s
  obtain ⟨b, t, ht⟩ := List.exists_cons_of_ne_nil (Utf8.encode_ne_nil c)
  rw [ht, List.cons_append] at hdecode ⊢
  have hslash : b ≠ Bytes.slash := by
    rintro rfl
    rw [Utf8.decode_ascii (by decide)] at hdecode
    obtain ⟨rfl, -⟩ := Prod.mk.inj hdecode
    exact absurd hc (by decide)
  rw [triviaLength_cons hslash, hdecode, if_pos hc]
  simp

/-- All the trivia before a text is moved over. -/
theorem triviaLength_append {a x : Bytes} (h : Trivia a x) (n : Nat) :
    triviaLength (a ++ x) n = n + a.length + triviaLength x 0 := by
  induction h generalizing n with
  | nil rest => exact triviaLength_add rest n 0
  | blank hc _ ih =>
      rw [List.append_assoc, triviaLength_blank hc, ih, List.length_append]
      omega
  | @lineComment text gap rest htext hend _ ih =>
      have hbreak : Bytes.newline ∉ Bytes.slash :: text := by
        rw [List.mem_cons, not_or]
        exact ⟨by decide, htext⟩
      have hlength := lineLength_of_endsLine hbreak hend 0
      have hsplit : utf8 "//" ++ text ++ gap ++ rest =
          Bytes.slash :: Bytes.slash :: (text ++ (gap ++ rest)) := by
        simp only [List.append_assoc]
        rfl
      have htwo : (utf8 "//" ++ text ++ gap).length = text.length + 2 + gap.length := by
        simp only [List.length_append, Nat.add_comm text.length 2]
        rfl
      rw [List.cons_append, Nat.zero_add] at hlength
      rw [hsplit, triviaLength_line, hlength, ← List.cons_append, List.drop_left, ih, htwo,
        List.length_cons]
      omega
  | @blockComment text gap rest htext _ ih =>
      have hlength := blockLength_closed htext (gap ++ rest) 1
      have hsplit : utf8 "/*" ++ text ++ utf8 "*/" ++ gap ++ rest =
          Bytes.slash :: '*'.toUInt8 :: (text ++ (utf8 "*/" ++ (gap ++ rest))) := by
        simp only [List.append_assoc]
        rfl
      have hfour : (utf8 "/*" ++ text ++ utf8 "*/" ++ gap).length =
          text.length + 4 + gap.length := by
        simp only [List.length_append, closing_eq, List.length_cons, List.length_nil]
        have hopen : (utf8 "/*").length = 2 := rfl
        omega
      have hdrop : ('*'.toUInt8 :: (text ++ (utf8 "*/" ++ (gap ++ rest)))).drop
          (1 + text.length + 2) = gap ++ rest := by
        rw [← List.append_assoc, ← List.cons_append]
        exact List.drop_left' (by simp [closing_eq]; omega)
      rw [hsplit, triviaLength_block, hlength, hdrop, ih, hfour]
      omega
  | @openComment text htext =>
      have hlength := blockLength_unclosed htext 1
      have hsplit : utf8 "/*" ++ text ++ [] = Bytes.slash :: '*'.toUInt8 :: text := by
        rw [List.append_nil]
        rfl
      have htwo : (utf8 "/*" ++ text).length = text.length + 2 := by
        rw [List.length_append, Nat.add_comm]
        rfl
      have hdrop : ('*'.toUInt8 :: text).drop (1 + text.length) = [] :=
        List.drop_eq_nil_of_le (Nat.le_of_eq (Nat.add_comm text.length 1))
      rw [hsplit, triviaLength_block, hlength, hdrop, triviaLength, triviaLength, htwo]
      omega

theorem triviaLength_settled (s : Bytes) : triviaLength (s.drop (triviaLength s 0)) 0 = 0 := by
  obtain ⟨k, hk, hle, htrivia⟩ := triviaLength_spec s 0
  have hall := triviaLength_append htrivia 0
  rw [List.take_append_drop, List.length_take, Nat.min_eq_left hle] at hall
  rw [hk, Nat.zero_add]
  omega

end Lexeme

/-- What follows trivia matters only where a comment ends with its line or with the text. -/
theorem Trivia.exchange {a x : Bytes} (h : Trivia a x) (hx : ¬ EndsLine x) (y : Bytes) :
    Trivia a y := by
  induction h with
  | nil => exact .nil y
  | blank hc _ ih => exact .blank hc (ih hx)
  | @lineComment text gap rest htext hend _ ih =>
      refine .lineComment htext ?_ (ih hx)
      cases gap with
      | nil => exact absurd hend hx
      | cons p gap => exact hend.imp (fun hnil => absurd hnil (by simp)) id
  | blockComment htext _ ih => exact .blockComment htext (ih hx)
  | openComment => exact absurd (.inl rfl) hx

/-! ### Settling -/

namespace Lexer

theorem le_offset_settle {lx : Lexer} {n : Nat} (hchildren : lx.frames.head? ≠ some .children)
    (hle : n ≤ Lexeme.triviaLength lx.rest 0) (hrest : n ≤ lx.rest.length) :
    lx.position.offset + n ≤ lx.settle.position.offset := by
  rw [settle_of_not_children hchildren]
  have hoffset := Position.offset_advance lx.position
    (lx.rest.take (Lexeme.triviaLength lx.rest 0))
  rw [List.length_take] at hoffset
  have hskip : (lx.skip (Lexeme.triviaLength lx.rest 0)).position.offset = _ := hoffset
  omega

theorem skipHashbang_script {s : Bytes} (h : utf8 "#!" <+: s) :
    (ofSource s).skipHashbang = (ofSource s).skip (Lexeme.lineLength s 0) := by
  unfold skipHashbang
  rw [if_pos]
  · rfl
  · exact List.isPrefixOf_iff_prefix.mpr h

theorem skipHashbang_plain {s : Bytes} (h : ¬ utf8 "#!" <+: s) :
    (ofSource s).skipHashbang = ofSource s := by
  unfold skipHashbang
  rw [if_neg]
  exact fun hscript => h (List.isPrefixOf_iff_prefix.mp hscript)

/-- Trivia that ends in the front is the same for both lexers. -/
theorem Abreast.settle {b c : UInt8} {x y : Bytes} {lx twin : Lexer}
    (h : Abreast (b :: x) (c :: y) lx twin) (hb : Bytes.IsParting b) (hbreak : b ≠ Bytes.newline)
    (hc : Bytes.IsParting c)
    (hlast : ∀ a, lx.rest = a ++ b :: x → [Bytes.slash] <:+ a → c = 0x20)
    (hlt : (b :: x).length + Lexeme.triviaLength lx.rest 0 < lx.rest.length) :
    Abreast (b :: x) (c :: y) lx.settle twin.settle := by
  by_cases hchildren : lx.frames.head? = some .children
  · rw [settle_of_children hchildren, settle_of_children (h.frames_eq ▸ hchildren)]
    exact h
  · obtain ⟨a, ha, hrest⟩ := id h
    have htrivia : Lexeme.triviaLength twin.rest 0 = Lexeme.triviaLength lx.rest 0 := by
      rw [ha, List.length_append] at hlt
      rw [ha, hrest]
      exact Lexeme.triviaLength_front hb hbreak hc a (hlast a ha) 0 (by omega)
    rw [settle_of_not_children hchildren, settle_of_not_children (h.frames_eq ▸ hchildren), htrivia]
    exact h.skip (by omega)

end Lexer

/-- The place behind a text depends on its line breaks only. -/
theorem Position.advance_congr {s t : Bytes}
    (h : s.map (· == Bytes.newline) = t.map (· == Bytes.newline)) (p : Position) :
    p.advance s = p.advance t := by
  induction s generalizing t p with
  | nil =>
      obtain rfl := List.map_eq_nil_iff.mp h.symm
      rfl
  | cons b s ih =>
      cases t with
      | nil => simp at h
      | cons c t =>
          obtain ⟨hhead, htail⟩ := List.cons.inj h
          have hnext : p.next b = p.next c := by
            unfold next
            rw [show (b == Bytes.newline) = (c == Bytes.newline) from hhead]
          calc p.advance (b :: s) = (p.next b).advance t := ih htail (p.next b)
            _ = p.advance (c :: t) := by rw [hnext]; rfl

namespace Lexer

/-- Settling moves over trivia that is known, and over what trivia comes behind it. -/
theorem settle_of_trivia {gap back : Bytes} {lx : Lexer} (hrest : lx.rest = gap ++ back)
    (hchildren : lx.frames.head? ≠ some .children) (hgap : Trivia gap back) :
    lx.settle = { lx with
      rest := back.drop (Lexeme.triviaLength back 0)
      position := (lx.position.advance gap).advance (back.take (Lexeme.triviaLength back 0)) } := by
  rw [settle_of_not_children hchildren, skip, hrest, Lexeme.triviaLength_append hgap, Nat.zero_add,
    List.drop_length_add_append, List.take_length_add_append, advance_append]

/-- Trivia that reaches into what follows the front leads both lexers to the same place. -/
theorem settle_eq_of_trivia {a part part' back : Bytes} {lx twin : Lexer}
    (ha : lx.rest = a ++ (part ++ back)) (hrest : twin = { lx with rest := a ++ (part' ++ back) })
    (hchildren : lx.frames.head? ≠ some .children) (hfront : Trivia a (part ++ back))
    (hfront' : Trivia a (part' ++ back)) (hpart : Trivia part back) (hpart' : Trivia part' back)
    (hbreaks : part'.map (· == Bytes.newline) = part.map (· == Bytes.newline)) :
    twin.settle = lx.settle := by
  subst hrest
  have hplace : ∀ p : Position, p.advance (a ++ part') = p.advance (a ++ part) :=
    Position.advance_congr (by rw [List.map_append, List.map_append, hbreaks])
  have hlx := settle_of_trivia (by rw [ha, List.append_assoc]) hchildren (hfront.append hpart)
  have htwin : ({ lx with rest := a ++ (part' ++ back) } : Lexer).settle = _ :=
    settle_of_trivia (by rw [List.append_assoc]) hchildren (hfront'.append hpart')
  rw [hlx, htwin]
  simp only [hplace]

/-- Behind trivia there is no more of it. -/
theorem settle_settle (lx : Lexer) : lx.settle.settle = lx.settle := by
  by_cases hchildren : lx.frames.head? = some .children
  · rw [settle_of_children hchildren, settle_of_children hchildren]
  · generalize hk : Lexeme.triviaLength lx.rest 0 = k
    have hbehind : (lx.skip k).frames.head? ≠ some .children := hchildren
    rw [settle_of_not_children hchildren, hk, settle_of_not_children hbehind, skip_rest, ← hk,
      Lexeme.triviaLength_settled]
    rfl

end Lexer

/-! ### The stretch that is exchanged -/

/-- A stretch of a text that lies in the gap between two tokens that starts at an offset: none of
its bytes belongs to a token, and what comes before it in the gap is blanks and comments that end
where the stretch starts. -/
structure LiesInGap (dialect : Dialect) (front part back : Bytes) (start : Nat) : Prop where
  le : start ≤ front.length
  left : start = 0 ∨ ∃ t ∈ tokenize dialect (front ++ (part ++ back)), t.Covers (start - 1)
  uncovered : ∀ k, start ≤ k → k < front.length + part.length →
    ∀ t ∈ tokenize dialect (front ++ (part ++ back)), ¬ t.Covers k
  fills : FillsGap start (front.drop start) (part ++ back)

namespace LiesInGap

variable {dialect : Dialect} {front part back : Bytes} {start : Nat} {lx : Lexer}

open Lexer

/-- Every token ends before the gap or starts behind the stretch. -/
theorem of_apart (hle : start ≤ front.length)
    (hleft : start = 0 ∨ ∃ t ∈ tokenize dialect (front ++ (part ++ back)), t.Covers (start - 1))
    (happart : ∀ t ∈ tokenize dialect (front ++ (part ++ back)),
      t.offset + t.text.length ≤ start ∨ front.length + part.length ≤ t.offset)
    (hfills : FillsGap start (front.drop start) (part ++ back)) :
    LiesInGap dialect front part back start := by
  refine ⟨hle, hleft, fun k hk hlt t ht hcovers => ?_, hfills⟩
  obtain ⟨hfrom, hto⟩ := hcovers
  rcases happart t ht with hbefore | hafter <;> omega

/-- What the lexer has not read of the source, behind a part of the front. -/
theorem front_eq {x : Bytes} {a read : Bytes} (h : front ++ x = read ++ (a ++ x)) :
    front = read ++ a := by
  rwa [← List.append_assoc, List.append_cancel_right_eq] at h

/-- No token of the source reads on into the stretch. -/
theorem reach_scan (h : LiesInGap dialect front part back start) (hpart : part ≠ [])
    (hreads : lx.ReadsFrom (front ++ (part ++ back)))
    (hfinal : ((lx.scan dialect).run dialect).tokens =
      (tokenize dialect (front ++ (part ++ back))).reverse)
    (hne : lx.rest ≠ []) (hlength : (part ++ back).length ≤ lx.rest.length) :
    (part ++ back).length ≤ (lx.scan dialect).rest.length := by
  by_contra hshort
  have hbefore := hreads.offset_add
  have hafter := (hreads.scan hne dialect).offset_add
  rw [List.length_append] at hbefore hafter
  obtain ⟨t, ht, hcovers⟩ := (emits_scan dialect lx).covers (k := front.length)
    (by omega) (by omega)
  have hmem := (tokens_suffix_run dialect (lx.scan dialect)).subset ht
  rw [hfinal, List.mem_reverse] at hmem
  have := List.length_pos_iff.mpr hpart
  exact h.uncovered front.length h.le (by omega) t hmem hcovers

/-- Where the lexer settles in the stretch or behind it, the gap has started already. -/
theorem start_le (h : LiesInGap dialect front part back start)
    (hreads : lx.ReadsFrom (front ++ (part ++ back)))
    (hfinal : (lx.run dialect).tokens = (tokenize dialect (front ++ (part ++ back))).reverse)
    (hsettle : front.length ≤ lx.settle.position.offset) : start ≤ lx.position.offset := by
  by_contra hlt
  rcases h.left with rfl | ⟨t, ht, hcovers⟩
  · omega
  · rw [← List.mem_reverse, ← hfinal] at ht
    have hle := h.le
    rcases le_offset_of_mem_run ht with ht | hoffset
    · obtain ⟨read, -, hposition, hwritten⟩ := hreads
      have := hwritten.lt_of_covers ht hcovers
      rw [hposition, Position.advance_start] at hlt
      dsimp only at hlt
      omega
    · have := hcovers.1
      omega

/-- A lexer that has read a token stands where a gap may start; one that has given up a tag without
reading on stands where there is no trivia. -/
theorem fills_scan (h : LiesInGap dialect front part back start)
    (hreads : lx.ReadsFrom (front ++ (part ++ back))) (hne : lx.rest ≠ [])
    (hsettled : lx.frames.head? ≠ some .children → Lexeme.triviaLength lx.rest 0 = 0)
    (hfinal : ((lx.scan dialect).run dialect).tokens =
      (tokenize dialect (front ++ (part ++ back))).reverse)
    (hchildren : (lx.scan dialect).frames.head? ≠ some .children) (a : Bytes)
    (ha : (lx.scan dialect).rest = a ++ (part ++ back))
    (hle : a.length ≤ Lexeme.triviaLength (lx.scan dialect).rest 0) : Trivia a (part ++ back) := by
  have hscan := hreads.scan hne dialect
  have hrest : (lx.scan dialect).rest.length = a.length + (part ++ back).length := by
    rw [ha, List.length_append]
  have hoffset := hscan.offset_add
  rw [List.length_append] at hoffset
  by_cases hread : (lx.scan dialect).rest.length < lx.rest.length
  · have hbefore := hreads.offset_add
    rw [List.length_append] at hbefore
    obtain ⟨t, ht, hcovers⟩ := (emits_scan dialect lx).covers
      (k := (lx.scan dialect).position.offset - 1) (by omega) (by omega)
    have hmem := (tokens_suffix_run dialect (lx.scan dialect)).subset ht
    rw [hfinal, List.mem_reverse] at hmem
    have hsettle := le_offset_settle hchildren hle (by omega)
    have hstart := h.start_le hscan hfinal (by omega)
    have heq : start = (lx.scan dialect).position.offset := by
      by_contra hne
      exact h.uncovered _ (by omega) (by omega) t hmem hcovers
    obtain ⟨read, hsource, hposition, -⟩ := hscan
    rw [ha] at hsource
    have hlength : start = read.length := by rw [heq, hposition, Position.advance_start]
    have hdrop : front.drop start = a := by
      rw [front_eq hsource, hlength, List.drop_left]
    rcases h.fills with hfills | ⟨hzero, -⟩
    · rwa [hdrop] at hfills
    · omega
  · rcases scan_progress dialect hne with hlt | ⟨hsame, -⟩
    · exact absurd hlt hread
    · have hcode : lx.frames.head? ≠ some .children := by
        intro hhead
        rcases scan_cases dialect lx with ⟨-, hscan⟩ | ⟨_, _, _, htag, -⟩ | ⟨hnot, -⟩
        · exact hread (hscan ▸ scanChildren_progress hne)
        · exact absurd (hhead.symm.trans htag) nofun
        · exact hnot.not_children hhead
      rw [hsame, hsettled hcode] at hle
      obtain rfl := List.length_eq_zero_iff.mp (Nat.le_zero.mp hle)
      exact .nil _

/-- A gap that the lexer has not left when it first settles starts with the text. -/
theorem start_eq_zero (h : LiesInGap dialect front part back start)
    (hsettle : front.length ≤
      (ofSource (front ++ (part ++ back))).skipHashbang.settle.position.offset) : start = 0 := by
  rcases h.left with hzero | ⟨t, ht, hcovers⟩
  · exact hzero
  · rw [tokenize, List.mem_reverse] at ht
    rcases le_offset_of_mem_run ht with ht | hoffset
    · rw [skipHashbang_tokens] at ht
      cases ht
    · have := hcovers.1
      have := h.le
      omega

/-- The first gap of a script is its interpreter line and what trivia follows that. -/
theorem fills_hashbang (h : LiesInGap dialect front part back 0)
    (hscript : utf8 "#!" <+: front) :
    ∃ line tail, front = line ++ tail ∧ Hashbang line (tail ++ (part ++ back)) ∧
      Trivia tail (part ++ back) := by
  rcases h.fills with htrivia | ⟨-, hline⟩
  · obtain ⟨s, rfl⟩ := hscript
    have hlength := Lexeme.triviaLength_append htrivia 0
    rw [List.drop_zero, List.append_assoc] at hlength
    have hnone : Lexeme.triviaLength (utf8 "#!" ++ (s ++ (part ++ back))) 0 = 0 := by
      change Lexeme.triviaLength ('#'.toUInt8 :: '!'.toUInt8 :: _) 0 = 0
      rw [Lexeme.triviaLength_cons (by decide), Utf8.decode_ascii (by decide)]
      rfl
    have htwo : (utf8 "#!").length = 2 := rfl
    rw [List.length_append] at hlength
    omega
  · exact hline

end LiesInGap

/-- A slash that could have started a regular expression and was read as a mark. -/
def Tried (tokens : List Token) (t : Token) : Prop :=
  ∃ before after, tokens = before ++ t :: after ∧ t.isPunctuator "/" = true ∧
    before.getLast?.all Lexer.startsOperand = true

/-- Two stretches of blanks and comments, with line breaks at the same places, that the lexer
cannot tell apart before it comes to them: a slash that it tries as the start of a regular
expression is none with the second one either, and an element is closed later with both or with
neither. -/
structure Interchangeable (dialect : Dialect) (front part part' back : Bytes) : Prop where
  trivia : Trivia part back
  trivia' : Trivia part' back
  breaks : part'.map (· == Bytes.newline) = part.map (· == Bytes.newline)
  opening : ∃ b ∈ part.head?, Bytes.IsParting b ∧ b ≠ Bytes.newline
  opening' : ∃ c ∈ part'.head?, Bytes.IsParting c ∧ ([Bytes.slash] <:+ front → c = 0x20)
  regex : ∀ t, Tried (tokenize dialect (front ++ (part ++ back))) t → ∀ a,
    front.drop t.offset = Bytes.slash :: a →
    Lexeme.regexLength? (a ++ (part ++ back)) false 1 = none →
    Lexeme.regexLength? (a ++ (part' ++ back)) false 1 = none
  element : dialect = .assertions → ∀ a, '<'.toUInt8 :: a <:+ front →
    Lexer.closedLater (a ++ (part' ++ back)) = Lexer.closedLater (a ++ (part ++ back))

namespace Interchangeable

variable {dialect : Dialect} {front part part' back : Bytes} {start : Nat} {lx twin : Lexer}

open Lexer

theorem not_endsLine (h : Interchangeable dialect front part part' back) :
    ¬ EndsLine (part ++ back) := by
  obtain ⟨b, hb, -, hbreak⟩ := h.opening
  obtain ⟨s, rfl⟩ := List.head?_eq_some_iff.mp hb
  rintro (hnil | hhead)
  · simp at hnil
  · exact hbreak (Option.some.inj hhead)

/-- One lexer settles where the other does, or both settle in the front. -/
theorem settle_cases (h : Interchangeable dialect front part part' back)
    (habreast : Abreast (part ++ back) (part' ++ back) lx twin)
    (hreads : lx.ReadsFrom (front ++ (part ++ back)))
    (hfill : lx.frames.head? ≠ some .children → ∀ a, lx.rest = a ++ (part ++ back) →
      a.length ≤ Lexeme.triviaLength lx.rest 0 → Trivia a (part ++ back)) :
    twin.settle = lx.settle ∨
      (Abreast (part ++ back) (part' ++ back) lx.settle twin.settle ∧
        (lx.frames.head? ≠ some .children → (part ++ back).length < lx.settle.rest.length)) := by
  obtain ⟨a, ha, hrest⟩ := id habreast
  by_cases hchildren : lx.frames.head? = some .children
  · rw [settle_of_children hchildren, settle_of_children (habreast.frames_eq ▸ hchildren)]
    exact .inr ⟨habreast, fun hnot => absurd hchildren hnot⟩
  · have hlength : lx.rest.length = a.length + (part ++ back).length := by
      rw [ha, List.length_append]
    by_cases hlt : Lexeme.triviaLength lx.rest 0 < a.length
    · obtain ⟨b, hb, hparting, hbreak⟩ := h.opening
      obtain ⟨c, hc, hparting', hlast⟩ := h.opening'
      obtain ⟨s, rfl⟩ := List.head?_eq_some_iff.mp hb
      obtain ⟨s', rfl⟩ := List.head?_eq_some_iff.mp hc
      obtain ⟨read, hsource, -⟩ := hreads
      rw [ha] at hsource
      have hfront := LiesInGap.front_eq hsource
      refine .inr ⟨?_, fun _ => ?_⟩
      · refine Abreast.settle (x := s ++ back) habreast hparting hbreak hparting' ?_ ?_
        · intro a' ha' hslash
          obtain rfl : a = a' := List.append_cancel_right (ha.symm.trans ha')
          exact hlast (hfront ▸ hslash.trans (List.suffix_append read a))
        · rw [List.cons_append] at hlength
          omega
      · rw [settle_of_not_children hchildren, skip_rest, List.length_drop]
        omega
    · have hfront := hfill hchildren a ha (by omega)
      exact .inl (settle_eq_of_trivia ha hrest hchildren hfront
        (hfront.exchange h.not_endsLine _) h.trivia h.trivia' h.breaks)

theorem part_ne_nil (h : Interchangeable dialect front part part' back) : part ≠ [] := by
  obtain ⟨b, hb, -⟩ := h.opening
  rintro rfl
  cases hb

theorem part'_ne_nil (h : Interchangeable dialect front part part' back) : part' ≠ [] := by
  obtain ⟨c, hc, -⟩ := h.opening'
  rintro rfl
  cases hc

/-- A slash that a step reads as a mark where an operand may come next has been tried. -/
theorem tried_of_scan {source a : Bytes}
    (hrest : lx.rest = Bytes.slash :: a) (hoperand : lx.operandAllowed = true)
    (hscan : lx.scan dialect = lx.emit .punctuation 1)
    (hfinal : ((lx.scan dialect).run dialect).tokens = (tokenize dialect source).reverse) :
    Tried (tokenize dialect source) ⟨lx.position, .punctuation, [Bytes.slash]⟩ := by
  obtain ⟨after, hafter⟩ := tokens_suffix_run dialect (lx.scan dialect)
  rw [hfinal, hscan] at hafter
  have htoken : (lx.emit .punctuation 1).tokens =
      ⟨lx.position, .punctuation, [Bytes.slash]⟩ :: lx.tokens := by
    rw [emit, hrest]
    rfl
  rw [htoken] at hafter
  refine ⟨lx.tokens.reverse, after.reverse, ?_, rfl, ?_⟩
  · rw [← List.reverse_reverse (tokenize dialect source), ← hafter]
    simp
  · rw [List.getLast?_reverse]
    exact hoperand

theorem scan (h : Interchangeable dialect front part part' back)
    (habreast : Abreast (part ++ back) (part' ++ back) lx twin)
    (hreads : lx.ReadsFrom (front ++ (part ++ back)))
    (hfinal : ((lx.scan dialect).run dialect).tokens =
      (tokenize dialect (front ++ (part ++ back))).reverse)
    (hfront : lx.frames.head? ≠ some .children → (part ++ back).length < lx.rest.length)
    (hreach : (part ++ back).length ≤ (lx.scan dialect).rest.length) :
    Abreast (part ++ back) (part' ++ back) (lx.scan dialect) (twin.scan dialect) := by
  obtain ⟨b, hb, hparting, hbreak⟩ := h.opening
  obtain ⟨c, hc, hparting', -⟩ := h.opening'
  obtain ⟨s, rfl⟩ := List.head?_eq_some_iff.mp hb
  obtain ⟨s', rfl⟩ := List.head?_eq_some_iff.mp hc
  obtain ⟨read, hsource, hposition, -⟩ := id hreads
  have hoffset : lx.position.offset = read.length := by rw [hposition, Position.advance_start]
  refine Abreast.scan (x := s ++ back) (y := s' ++ back) habreast hparting hbreak hparting' dialect
    ?_ ?_ hfront hreach
  · intro a ha hoperand hscan
    have htried := tried_of_scan ha hoperand hscan hfinal
    refine h.regex _ htried a ?_
    rw [ha] at hsource
    have := LiesInGap.front_eq (a := Bytes.slash :: a) hsource
    rw [this]
    change (read ++ Bytes.slash :: a).drop lx.position.offset = _
    rw [hoffset, List.drop_left]
  · intro a ha hdialect
    rw [ha] at hsource
    refine h.element hdialect a ?_
    rw [LiesInGap.front_eq (a := '<'.toUInt8 :: a) hsource]
    exact List.suffix_append _ _

/-- The run that reads the one stretch and the run that reads the other stay abreast up to the
stretch, and are the same behind it. -/
theorem tokens_run (h : Interchangeable dialect front part part' back)
    (hgap : LiesInGap dialect front part back start)
    (habreast : Abreast (part ++ back) (part' ++ back) lx twin)
    (hreads : lx.ReadsFrom (front ++ (part ++ back)))
    (hfinal : (lx.run dialect).tokens = (tokenize dialect (front ++ (part ++ back))).reverse)
    (hfill : lx.frames.head? ≠ some .children → ∀ a, lx.rest = a ++ (part ++ back) →
      a.length ≤ Lexeme.triviaLength lx.rest 0 → Trivia a (part ++ back)) :
    (twin.run dialect).tokens = (lx.run dialect).tokens := by
  fun_induction run dialect lx generalizing twin with
  | case1 lx hnil =>
      rcases settle_cases h habreast hreads hfill with heq | ⟨⟨a, ha, -⟩, -⟩
      · rw [run_of_rest_eq_nil (by rw [heq, hnil]), heq]
      · rw [hnil] at ha
        exact absurd ha (by simp [h.part_ne_nil])
  | case2 lx hne ih =>
      rcases settle_cases h habreast hreads hfill with heq | ⟨hsettle, hfront⟩
      · rw [run, heq, if_neg hne]
      · obtain ⟨a, ha, hrest⟩ := id hsettle
        have hreads' := hreads.settle
        have hreach := hgap.reach_scan h.part_ne_nil hreads' hfinal hne
          (ha ▸ (List.suffix_append a _).length_le)
        have htwin : twin.settle.rest ≠ [] := by
          rw [hrest]
          simp [h.part'_ne_nil]
        rw [← settle_frames] at hfront
        rw [run_of_rest_ne_nil htwin]
        refine ih (h.scan hsettle hreads' hfinal hfront hreach) (hreads'.scan hne dialect) hfinal ?_
        refine hgap.fills_scan hreads' hne ?_ hfinal
        intro hchildren
        rw [settle_frames] at hchildren
        rw [settle_of_not_children hchildren, skip_rest]
        exact Lexeme.triviaLength_settled lx.rest

/-! ### The start of the text -/

theorem not_hashbang {b : UInt8} {x : Bytes} (h : ¬ utf8 "#!" <+: front) (hb : Bytes.IsParting b)
    (hx : b ∈ x.head?) : ¬ utf8 "#!" <+: front ++ (x ++ back) := by
  have hmark : b ∉ utf8 "#!" := by
    rcases hb with rfl | rfl | rfl | rfl <;> decide
  obtain ⟨s, rfl⟩ := List.head?_eq_some_iff.mp hx
  rwa [List.cons_append, ← List.isPrefixOf_iff_prefix, Bytes.isPrefixOf_append hmark,
    List.isPrefixOf_iff_prefix]

theorem newline_mem_of_hashbang (h : Interchangeable dialect front part part' back)
    (hgap : LiesInGap dialect front part back start) (hscript : utf8 "#!" <+: front) :
    Bytes.newline ∈ front := by
  obtain ⟨b, hb, -, hbreak⟩ := h.opening
  obtain ⟨s, rfl⟩ := List.head?_eq_some_iff.mp hb
  by_contra hnone
  have hstart : start = 0 := by
    have hlong : 0 + front.length < Lexeme.lineLength (front ++ (b :: s ++ back)) 0 :=
      Lexeme.lt_lineLength hbreak front 0 hnone (s ++ back)
    obtain ⟨k, hk, hle, -⟩ := Lexeme.lineLength_spec (front ++ (b :: s ++ back)) 0
    refine hgap.start_eq_zero (Nat.le_trans ?_ (offset_le_settle _))
    rw [skipHashbang_script (hscript.trans (List.prefix_append _ _)), hk, skip,
      Position.offset_advance, List.length_take]
    dsimp only [ofSource]
    omega
  subst hstart
  obtain ⟨line, tail, rfl, hline, -⟩ := hgap.fills_hashbang hscript
  rcases hline.2.2 with hnil | hhead
  · simp at hnil
  · cases tail with
    | nil => exact hbreak (Option.some.inj hhead)
    | cons q tail =>
        obtain rfl : q = Bytes.newline := Option.some.inj hhead
        simp at hnone

/-- Both runs start abreast. -/
theorem abreast_skipHashbang (h : Interchangeable dialect front part part' back)
    (hgap : LiesInGap dialect front part back start) :
    Abreast (part ++ back) (part' ++ back) (ofSource (front ++ (part ++ back))).skipHashbang
      (ofSource (front ++ (part' ++ back))).skipHashbang := by
  have hsource : Abreast (part ++ back) (part' ++ back) (ofSource (front ++ (part ++ back)))
      (ofSource (front ++ (part' ++ back))) := ⟨front, rfl, rfl⟩
  by_cases hscript : utf8 "#!" <+: front
  · have hbreak := h.newline_mem_of_hashbang hgap hscript
    have hline := fun z => Lexeme.lineLength_front front 0 hbreak z
    rw [skipHashbang_script (hscript.trans (List.prefix_append _ _)),
      skipHashbang_script (hscript.trans (List.prefix_append _ _)), (hline _).1, (hline _).1]
    refine hsource.skip ?_
    have := (hline []).2
    change _ ≤ (front ++ (part ++ back)).length
    simp only [List.length_append]
    omega
  · obtain ⟨b, hb, hparting, -⟩ := h.opening
    obtain ⟨c, hc, hparting', -⟩ := h.opening'
    rw [skipHashbang_plain (not_hashbang hscript hparting hb),
      skipHashbang_plain (not_hashbang hscript hparting' hc)]
    exact hsource

theorem fills_skipHashbang (h : Interchangeable dialect front part part' back)
    (hgap : LiesInGap dialect front part back start) (a : Bytes)
    (ha : (ofSource (front ++ (part ++ back))).skipHashbang.rest = a ++ (part ++ back))
    (hle : a.length ≤
      Lexeme.triviaLength (ofSource (front ++ (part ++ back))).skipHashbang.rest 0) :
    Trivia a (part ++ back) := by
  have hreads := readsFrom_skipHashbang (front ++ (part ++ back))
  have hframes :
      (ofSource (front ++ (part ++ back))).skipHashbang.frames.head? ≠ some .children := by
    simp
  have hlength := hreads.offset_add
  have hrest : (ofSource (front ++ (part ++ back))).skipHashbang.rest.length =
      a.length + (part ++ back).length := by rw [ha, List.length_append]
  rw [List.length_append] at hlength
  have hsettle := le_offset_settle hframes hle (by omega)
  obtain rfl := hgap.start_eq_zero (by omega)
  by_cases hscript : utf8 "#!" <+: front
  · obtain ⟨line, tail, hsplit, hline, htail⟩ := hgap.fills_hashbang hscript
    have hlong := Lexeme.lineLength_of_endsLine hline.2.1 hline.2.2 0
    rw [skipHashbang_script (hscript.trans (List.prefix_append _ _)), skip_rest] at ha
    rw [← List.append_assoc, ← hsplit, Nat.zero_add] at hlong
    have hdrop : (front ++ (part ++ back)).drop line.length = tail ++ (part ++ back) := by
      rw [hsplit, List.append_assoc, List.drop_left]
    have hsame : tail ++ (part ++ back) = a ++ (part ++ back) := by
      rw [← hdrop, ← ha, hlong]
      rfl
    rwa [List.append_cancel_right hsame] at htail
  · obtain ⟨b, hb, hparting, -⟩ := h.opening
    rw [skipHashbang_plain (not_hashbang hscript hparting hb)] at ha
    obtain rfl : front = a := List.append_cancel_right ha
    rcases hgap.fills with hfills | ⟨-, line, tail, hsplit, hline, -⟩
    · exact hfills
    · exact absurd (hline.1.trans ⟨tail, hsplit.symm⟩) hscript

end Interchangeable

/-- A stretch between two tokens may be exchanged for another one that the lexer cannot tell from it
beforehand. -/
theorem tokenize_interchange {dialect : Dialect} {front part part' back : Bytes} {start : Nat}
    (h : Interchangeable dialect front part part' back)
    (hgap : LiesInGap dialect front part back start) :
    tokenize dialect (front ++ (part' ++ back)) = tokenize dialect (front ++ (part ++ back)) := by
  have hrun := h.tokens_run hgap (h.abreast_skipHashbang hgap)
    (Lexer.readsFrom_skipHashbang _) (by rw [tokenize, List.reverse_reverse])
    (fun _ => h.fills_skipHashbang hgap)
  rw [tokenize, hrun, tokenize]

end UnusedImports

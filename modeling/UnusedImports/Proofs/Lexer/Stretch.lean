import UnusedImports.Proofs.Lexer.Boundary
import UnusedImports.Proofs.Lexer.Exchange
import UnusedImports.Proofs.Lexer.Place
import UnusedImports.Proofs.Lexer.Spelling

/-! Ordinary tokens that come one behind the other are read by themselves as they are in their text,
in both dialects. -/

namespace UnusedImports

open Markup

variable {dialect : Dialect} {source : Bytes} {t u last : Token} {before ts after : List Token}
  {w : Word} {start stop i : Nat}

/-! ### Ends of words -/

theorem Lexer.StartsToken.not_endsLine {s : Bytes} (h : StartsToken s) : ¬ EndsLine s := by
  rintro (rfl | hbreak)
  · exact h.1 rfl
  · obtain ⟨s, rfl⟩ := List.head?_eq_some_iff.mp hbreak
    have hmoved : Lexeme.triviaLength (Bytes.newline :: s) 0 = Lexeme.triviaLength s 1 := by
      rw [Lexeme.triviaLength]
      rfl
    have hnone := h.2 0
    have hle := Lexeme.le_triviaLength s 1
    omega

theorem IsOrdinary.ne_nil (h : IsOrdinary w) : w.2 ≠ [] := by
  have hstart := (Lexer.startsToken_ordinary h []).1
  rwa [List.append_nil] at hstart

theorem endsWord_of_mem_tokenize (h : t ∈ tokenize dialect source) :
    EndsWord t.word (source.drop (t.offset + t.text.length)) := by
  intro hkind
  change t.kind = .identifier at hkind
  obtain ⟨_, hlexical⟩ := lexical_of_mem_tokenize h
  rw [hkind] at hlexical
  exact hlexical.isContinue_decode

/-- A word still ends where the text behind it is cut off. -/
theorem EndsWord.take {s : Bytes} (h : EndsWord w s) (n : Nat) : EndsWord w (s.take n) := by
  intro hkind
  by_contra hcontinue
  rw [Bool.not_eq_false] at hcontinue
  cases hcut : s.take n with
  | nil =>
      rw [hcut, endsName_nil.1] at hcontinue
      cases hcontinue
  | cons b r =>
      rw [hcut] at hcontinue
      obtain ⟨hfirst, -⟩ := Lexeme.eq_encode_append_of_isContinue hcontinue
      have hwhole : s = Utf8.encode (Utf8.decode (b :: r)).1 ++
          ((b :: r).drop (Utf8.decode (b :: r)).2 ++ s.drop n) := by
        rw [← List.append_assoc, ← hfirst, ← hcut, List.take_append_drop]
      have hends := h hkind
      rw [hwhole, Utf8.decode_encode_append (Identifier.isScalar_of_isContinue hcontinue),
        hcontinue] at hends
      cases hends

/-! ### Between two tokens -/

namespace Token.Placed

theorem length_gap (h : t.Placed source) (i : Nat) :
    ((source.take t.offset).drop i).length = t.offset - i := by
  have hinside := h.inside
  rw [List.length_drop, List.length_take]
  omega

end Token.Placed

theorem trivia_between (hsplit : tokenize dialect source = before ++ t :: u :: after)
    (ht : t.text ≠ []) (hu : u.text ≠ []) :
    Trivia ((source.take u.offset).drop (t.offset + t.text.length)) (source.drop u.offset) := by
  have hapart := tokenize_apart dialect source
  rw [hsplit, List.pairwise_append, List.pairwise_cons, List.pairwise_cons] at hapart
  obtain ⟨-, ⟨hbehind, hafter, -⟩, hbefore⟩ := hapart
  have htu := hbehind u List.mem_cons_self
  have htpos := List.length_pos_iff.mpr ht
  have hupos := List.length_pos_iff.mpr hu
  rcases Nat.eq_or_lt_of_le htu with heq | hlt
  · rw [← heq, List.drop_eq_nil_of_le (List.length_take_le _ _)]
    exact .nil _
  · have htmem : t ∈ tokenize dialect source := by simp [hsplit]
    have humem : u ∈ tokenize dialect source := by simp [hsplit]
    have hinside := (placed_of_mem_tokenize humem).inside
    have huncovered : ∀ k, t.offset + t.text.length ≤ k → k < u.offset →
        ∀ v ∈ tokenize dialect source, ¬ v.Covers k := by
      rintro k hk hku v hv ⟨hfrom, hto⟩
      rw [hsplit, List.mem_append, List.mem_cons, List.mem_cons] at hv
      rcases hv with hv | rfl | rfl | hv
      · have := hbefore v hv t List.mem_cons_self
        omega
      · omega
      · omega
      · have := hafter v hv
        omega
    have hgap : IsGap source (tokenize dialect source) (t.offset + t.text.length) u.offset :=
      ⟨hlt, by omega, huncovered, .inr ⟨t, htmem, by omega, by omega⟩,
        .inr ⟨u, humem, by omega, by omega⟩⟩
    rcases (tokenize_lossless dialect source).gaps _ _ hgap with htrivia | ⟨hzero, -⟩
    · exact htrivia
    · omega

/-- Where nothing is open, a lexer moves over trivia and reads the ordinary word behind it. -/
theorem Lexer.exists_step {lx : Lexer} {gap s : Bytes} (hreads : lx.ReadsFrom source)
    (hframes : lx.frames = []) (hw : IsOrdinary w) (hs : EndsWord w s)
    (hgap : Trivia gap (w.2 ++ s)) (hrest : lx.rest = gap ++ (w.2 ++ s)) (dialect : Dialect) :
    ∃ (next : Lexer) (p : Position), lx.run dialect = next.run dialect ∧ next.ReadsFrom source ∧
      next.frames = [] ∧ p.offset = lx.position.offset + gap.length ∧
      next.position.offset = p.offset + w.2.length ∧ next.tokens = ⟨p, w.1, w.2⟩ :: lx.tokens := by
  have hstart := startsToken_ordinary hw s
  have hsettle : lx.settle = lx.skip gap.length := by
    rw [settle_of_frames_nil hframes, hrest, Lexeme.triviaLength_append hgap, hstart.2]
    simp
  have hsettled : lx.settle.rest = w.2 ++ s := by
    rw [hsettle, skip_rest, hrest, List.drop_left]
  have hne : lx.settle.rest ≠ [] := by
    rw [hsettled]
    exact hstart.1
  have hopen : lx.settle.frames = [] := by rw [settle_frames, hframes]
  have hscan : lx.settle.scan dialect = { lx.settle.emit w.1 w.2.length with
      depth := braceDepth lx.settle.depth w } := by
    unfold Lexer.scan
    rw [hopen]
    exact scanCode_ordinary hw hs hopen hsettled
  refine ⟨lx.settle.scan dialect, lx.settle.position, run_of_rest_ne_nil hne,
    hreads.settle.scan hne dialect, ?_, ?_, ?_, ?_⟩
  · rw [hscan]
    exact hopen
  · rw [hsettle, skip, Position.offset_advance, hrest, List.take_left]
  · rw [hscan]
    change (lx.settle.position.advance (lx.settle.rest.take w.2.length)).offset = _
    rw [Position.offset_advance, hsettled, List.take_left]
  · rw [hscan]
    change ⟨_, _, lx.settle.rest.take w.2.length⟩ :: lx.settle.tokens = _
    rw [hsettled, List.take_left, settle_tokens]

/-! ### Rows -/

/-- Ordinary tokens of a source that fill it from one offset to another, but for trivia in front of
each of them. -/
inductive Row (source : Bytes) (stop : Nat) : Nat → List Token → Prop where
  | nil : Row source stop stop []
  | cons {i : Nat} {t : Token} {ts : List Token} : IsOrdinary t.word → t.Placed source → i ≤ t.offset →
      Trivia ((source.take t.offset).drop i) (source.drop t.offset) →
      EndsWord t.word (source.drop (t.offset + t.text.length)) →
      Row source stop (t.offset + t.text.length) ts → Row source stop i (t :: ts)

namespace Row

theorem le (h : Row source stop i ts) : i ≤ stop := by
  induction h with
  | nil => exact Nat.le_refl stop
  | cons _ _ hi _ _ _ ih => omega

/-- The tokens behind one of the tokens of a text. -/
theorem of_tokenize (hsplit : tokenize dialect source = before ++ t :: (ts ++ after))
    (hordinary : ∀ u ∈ t :: ts, IsOrdinary u.word) (hlast : (t :: ts).getLast? = some last) :
    Row source (last.offset + last.text.length) (t.offset + t.text.length) ts := by
  induction ts generalizing before t with
  | nil =>
      obtain rfl : t = last := by simpa using hlast
      exact .nil
  | cons u ts ih =>
      obtain ⟨ht, htail⟩ := List.forall_mem_cons.mp hordinary
      have hu := (List.forall_mem_cons.mp htail).1
      have hmem : u ∈ tokenize dialect source := by simp [hsplit]
      have hapart := tokenize_apart dialect source
      rw [hsplit, List.pairwise_append, List.pairwise_cons] at hapart
      have hle := hapart.2.1.1 u (by simp)
      have hmore : tokenize dialect source = (before ++ [t]) ++ u :: (ts ++ after) := by
        simpa using hsplit
      exact .cons hu (placed_of_mem_tokenize hmem) hle (trivia_between hsplit ht.ne_nil hu.ne_nil)
        (endsWord_of_mem_tokenize hmem) (ih hmore htail (by simpa using hlast))

/-- The text of a row: trivia, a word and the text of the rest. -/
theorem text_eq (ht : t.Placed source) (hi : i ≤ t.offset) (hle : t.offset + t.text.length ≤ stop) :
    (source.drop i).take (stop - i) = (source.take t.offset).drop i ++ (t.text ++
      (source.drop (t.offset + t.text.length)).take (stop - (t.offset + t.text.length))) := by
  have hinside := ht.inside
  have hfront : source.drop i = (source.take t.offset).drop i ++ source.drop t.offset := by
    have hsplit := List.take_append_drop t.offset source
    rw [← List.drop_append_of_le_length (by rw [List.length_take]; omega), hsplit]
  have hlength := ht.length_gap i
  have hsum : stop - i = ((source.take t.offset).drop i).length +
      (t.text.length + (stop - (t.offset + t.text.length))) := by omega
  rw [hfront, hsum, List.take_length_add_append, ht.drop_eq, List.take_length_add_append]

/-- A lexer in front of a row, with nothing open, reads the tokens of the row at their places. -/
theorem tokens_run {lx : Lexer} {stretch : Bytes} (h : Row source stop i ts)
    (hstretch : (source.drop start).take (stop - start) = stretch) (hreads : lx.ReadsFrom stretch)
    (hframes : lx.frames = []) (hplace : start + lx.position.offset = i) (other : Dialect) :
    (lx.run other).tokens.reverse.map (fun t => (start + t.offset, t.word)) =
      lx.tokens.reverse.map (fun t => (start + t.offset, t.word)) ++
        ts.map fun t => (t.offset, t.word) := by
  have hall : ∀ {m : Lexer} {k : Nat}, m.ReadsFrom stretch → start + m.position.offset = k →
      m.rest = (source.drop k).take (stop - k) := by
    rintro m k hm rfl
    rw [hm.rest_eq, ← hstretch, List.drop_take, List.drop_drop]
    congr 1
    omega
  induction h generalizing lx with
  | nil =>
      have hend : lx.settle.rest = [] := by
        rw [Lexer.settle_of_frames_nil hframes, Lexer.skip_rest, hall hreads hplace, Nat.sub_self,
          List.take_zero, List.drop_nil]
      rw [Lexer.run_of_rest_eq_nil hend, Lexer.settle_tokens, List.map_nil, List.append_nil]
  | @cons i t ts hordinary hplaced hi htrivia hends hrow ih =>
      have hrest := (hall hreads hplace).trans (text_eq hplaced hi hrow.le)
      have hline : ¬ EndsLine (source.drop t.offset) := by
        rw [hplaced.drop_eq]
        exact (Lexer.startsToken_ordinary hordinary _).not_endsLine
      obtain ⟨next, p, hrun, hnext, hopen, hp, hend, htokens⟩ :=
        Lexer.exists_step hreads hframes hordinary (hends.take _) (htrivia.exchange hline _) hrest
          other
      have hlength := hplaced.length_gap i
      have hoffset : start + p.offset = t.offset := by omega
      have hword : (⟨p, t.word.1, t.word.2⟩ : Token).word = t.word := rfl
      have hplace' : start + next.position.offset = t.offset + t.text.length := by
        rw [hend, ← hoffset, Nat.add_assoc]
        rfl
      rw [hrun, ih hnext hopen hplace', htokens, List.reverse_cons, List.map_append,
        List.append_assoc]
      simp [hoffset, hword]

end Row

/-! ### Stretches -/

theorem IsOrdinary.not_hashbang (h : IsOrdinary w) (s : Bytes) : ¬ utf8 "#!" <+: w.2 ++ s := by
  have hhead : ∀ b r, w.2 = b :: r → b ≠ '#'.toUInt8 := by
    rintro b r hw rfl
    cases h with
    | name hn =>
        subst hw
        exact hn.head_ne (c := '#'.toUInt8) (by decide) (by decide) rfl
    | quoted hquote =>
        obtain ⟨rfl, -⟩ := List.cons.inj hw
        rcases hquote with hquote | hquote
        all_goals exact absurd hquote (by decide)
    | mark hb =>
        obtain ⟨rfl, -⟩ := List.cons.inj hw
        exact absurd hb (by decide)
  obtain ⟨b, r, hw⟩ := List.exists_cons_of_ne_nil h.ne_nil
  rw [hw]
  rintro ⟨more, hmore⟩
  exact hhead b r hw (List.cons.inj hmore).1.symm

/-- Ordinary tokens one behind the other are read by themselves as they are in their text. -/
theorem tokenize_stretch (hsplit : tokenize dialect source = before ++ t :: (ts ++ after))
    (hordinary : ∀ u ∈ t :: ts, IsOrdinary u.word) (hlast : (t :: ts).getLast? = some last)
    (other : Dialect) :
    (tokenize other
      ((source.drop t.offset).take (last.offset + last.text.length - t.offset))).map
        (fun u => (t.offset + u.offset, u.word)) = (t :: ts).map fun u => (u.offset, u.word) := by
  have hmem : t ∈ tokenize dialect source := by simp [hsplit]
  have hplaced := placed_of_mem_tokenize hmem
  have ht := hordinary t List.mem_cons_self
  have hbehind := Row.of_tokenize hsplit hordinary hlast
  have hgap : Trivia ((source.take t.offset).drop t.offset) (source.drop t.offset) := by
    rw [List.drop_eq_nil_of_le (List.length_take_le _ _)]
    exact .nil _
  have hrow : Row source (last.offset + last.text.length) t.offset (t :: ts) :=
    .cons ht hplaced (Nat.le_refl _) hgap (endsWord_of_mem_tokenize hmem) hbehind
  have htext := Row.text_eq hplaced (Nat.le_refl _) hbehind.le
  generalize hstretch :
    (source.drop t.offset).take (last.offset + last.text.length - t.offset) = stretch at htext ⊢
  rw [List.drop_eq_nil_of_le (List.length_take_le _ _), List.nil_append] at htext
  have hscript : (Lexer.ofSource stretch).skipHashbang = Lexer.ofSource stretch :=
    Lexer.skipHashbang_plain (htext ▸ ht.not_hashbang _)
  have hreads := Lexer.readsFrom_skipHashbang stretch
  rw [hscript] at hreads
  have hrun := hrow.tokens_run hstretch hreads rfl rfl other
  rw [tokenize, hscript, hrun]
  rfl

end UnusedImports

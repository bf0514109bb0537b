import UnusedImports.Proofs.Lexer.Trivia
import UnusedImports.Source.Lexer

/-! The lexer reads a name to its end, whatever follows, as long as that neither continues it nor is
a hyphen. -/

namespace UnusedImports

namespace CodePoint

/-- Two tables have no code point in common. -/
def disjoint (some other : List (Nat × Nat)) : Bool :=
  some.all fun r => other.all fun s => r.2 < s.1 || s.2 < r.1

theorem not_within_of_disjoint {some other : List (Nat × Nat)} (h : disjoint some other = true)
    {c : Nat} (hc : within some c = true) : within other c = false := by
  simp only [disjoint, List.all_eq_true, Bool.or_eq_true, decide_eq_true_eq] at h
  simp only [within, List.any_eq_true, Bool.and_eq_true, decide_eq_true_eq] at hc
  obtain ⟨r, hr, hlo, hhi⟩ := hc
  simp only [within, List.any_eq_false, Bool.and_eq_true, decide_eq_true_eq, not_and]
  intro s hs hslo
  have := h r hr s hs
  omega

/-- All code points of a table are scalars. -/
def encodable (ranges : List (Nat × Nat)) : Bool :=
  ranges.all fun r => r.2 < 0xd800 || (0xdfff < r.1 && r.2 ≤ 0x10ffff)

theorem isScalar_of_within {ranges : List (Nat × Nat)} (h : encodable ranges = true) {c : Nat}
    (hc : within ranges c = true) : Utf8.IsScalar c := by
  simp only [encodable, List.all_eq_true, Bool.or_eq_true, Bool.and_eq_true,
    decide_eq_true_eq] at h
  simp only [within, List.any_eq_true, Bool.and_eq_true, decide_eq_true_eq] at hc
  obtain ⟨r, hr, hlo, hhi⟩ := hc
  have := h r hr
  simp only [Utf8.IsScalar]
  omega

set_option maxRecDepth 8000 in
theorem disjoint_blanks :
    ∀ table ∈ [letters, decimalDigits, marks], disjoint table blanks = true := by
  decide +kernel

set_option maxRecDepth 8000 in
theorem encodable_tables : ∀ table ∈ [letters, decimalDigits, marks], encodable table = true := by
  decide +kernel

end CodePoint

namespace Identifier

theorem isContinue_of_isStart {c : Nat} (h : isStart c = true) : isContinue c = true := by
  unfold isStart at h
  unfold isContinue isStart
  split
  · next hc => simp_all
  · next hc => simp_all

theorem isScalar_of_isContinue {c : Nat} (h : isContinue c = true) : Utf8.IsScalar c := by
  unfold isContinue at h
  split at h
  · exact .inl (by omega)
  · simp only [Bool.or_eq_true] at h
    rcases h with (h | h) | h
    · exact CodePoint.isScalar_of_within (CodePoint.encodable_tables _ (by simp)) h
    · exact CodePoint.isScalar_of_within (CodePoint.encodable_tables _ (by simp)) h
    · exact CodePoint.isScalar_of_within (CodePoint.encodable_tables _ (by simp)) h

set_option maxRecDepth 8000 in
theorem not_isContinue_byteOrderMark : isContinue CodePoint.byteOrderMark = false := by
  decide +kernel

/-- No code point that continues an identifier separates tokens. -/
theorem not_isBlank_of_isContinue {c : Nat} (h : isContinue c = true) :
    Lexeme.isBlank c = false := by
  have hmark : c ≠ CodePoint.byteOrderMark := by
    rintro rfl
    rw [not_isContinue_byteOrderMark] at h
    cases h
  have hblank : CodePoint.isBlank c = false := by
    unfold isContinue at h
    split at h
    · next hc =>
      simp [isStart, hc, CodePoint.isBlank, CodePoint.within, CodePoint.blanks] at h ⊢
      omega
    · simp only [Bool.or_eq_true] at h
      rcases h with (h | h) | h
      · exact CodePoint.not_within_of_disjoint (CodePoint.disjoint_blanks _ (by simp)) h
      · exact CodePoint.not_within_of_disjoint (CodePoint.disjoint_blanks _ (by simp)) h
      · exact CodePoint.not_within_of_disjoint (CodePoint.disjoint_blanks _ (by simp)) h
  simp [Lexeme.isBlank, hblank, hmark]

theorem not_isBlank_of_isStart {c : Nat} (h : isStart c = true) : Lexeme.isBlank c = false :=
  not_isBlank_of_isContinue (isContinue_of_isStart h)

end Identifier

/-! ### Reading a name -/

/-- A name: a code point that starts an identifier, then code points that continue it. -/
def IsName (s : Bytes) : Prop :=
  ∃ (c : Nat) (cs : List Nat), s = Utf8.encode c ++ Utf8.ofCodePoints cs ∧
    Identifier.isStart c = true ∧ ∀ x ∈ cs, Identifier.isContinue x = true

/-- A text that ends a name before it. -/
def EndsName (rest : Bytes) : Prop :=
  Identifier.isContinue (Utf8.decode rest).1 = false ∧ rest.head? ≠ some '-'.toUInt8

set_option maxRecDepth 8000 in
theorem endsName_nil : EndsName [] := ⟨by decide +kernel, by simp⟩

theorem endsName_cons {b : UInt8} (hascii : b < 0x80) (hb : Identifier.isContinue b.toNat = false)
    (hdash : b ≠ '-'.toUInt8) (s : Bytes) : EndsName (b :: s) := by
  refine ⟨?_, by simpa using hdash⟩
  rwa [Utf8.decode, if_pos hascii]

namespace Lexeme

theorem wordLength_of_ends {rest : Bytes}
    (h : Identifier.isContinue (Utf8.decode rest).1 = false) (n : Nat) :
    wordLength rest n = n := by
  cases rest with
  | nil => rw [wordLength]
  | cons b s => rw [wordLength, if_neg (by simp [h])]

theorem wordLength_encode {c : Nat} (hc : Identifier.isContinue c = true) (s : Bytes) (n : Nat) :
    wordLength (Utf8.encode c ++ s) n = wordLength s (n + (Utf8.encode c).length) := by
  have hdecode := Utf8.decode_encode_append (Identifier.isScalar_of_isContinue hc) s
  obtain ⟨b, t, hencode⟩ := List.exists_cons_of_ne_nil (Utf8.encode_ne_nil c)
  rw [hencode] at hdecode ⊢
  rw [List.cons_append] at hdecode ⊢
  rw [wordLength, hdecode]
  simp only [hc, if_true, List.length_cons, Nat.add_sub_cancel, List.drop_left]

/-- Code points that continue an identifier are read up to the end of the name. -/
theorem wordLength_ofCodePoints {cs : List Nat} (hcs : ∀ x ∈ cs, Identifier.isContinue x = true)
    {rest : Bytes} (hrest : Identifier.isContinue (Utf8.decode rest).1 = false) (n : Nat) :
    wordLength (Utf8.ofCodePoints cs ++ rest) n = n + (Utf8.ofCodePoints cs).length := by
  induction cs generalizing n with
  | nil => exact wordLength_of_ends hrest n
  | cons c cs ih =>
      have hsplit : Utf8.ofCodePoints (c :: cs) = Utf8.encode c ++ Utf8.ofCodePoints cs := by
        simp [Utf8.ofCodePoints]
      rw [hsplit, List.append_assoc, wordLength_encode (hcs c List.mem_cons_self),
        ih fun x hx => hcs x (List.mem_cons_of_mem c hx)]
      simp only [List.length_append]
      omega

theorem nameLength_ofCodePoints {cs : List Nat} (hcs : ∀ x ∈ cs, Identifier.isContinue x = true)
    {rest : Bytes} (hrest : EndsName rest) (n : Nat) :
    nameLength (Utf8.ofCodePoints cs ++ rest) n = n + (Utf8.ofCodePoints cs).length := by
  have hword := wordLength_ofCodePoints hcs hrest.1 0
  rw [Nat.zero_add] at hword
  rw [nameLength, hword]
  split
  · next b t h =>
    rw [List.drop_left] at h
    have hb : b ≠ '-'.toUInt8 := by
      rintro rfl
      exact hrest.2 (by simp [h])
    simp [hb]
  · rfl

end Lexeme

namespace IsName

variable {s rest : Bytes}

/-- The first byte of a name is not ASCII or starts an identifier itself. -/
theorem head (h : IsName s) :
    ∃ b t, s = b :: t ∧ (0x80 ≤ b ∨ Identifier.isStart b.toNat = true) := by
  obtain ⟨c, cs, rfl, hc, _⟩ := h
  have hscalar := Identifier.isScalar_of_isContinue (Identifier.isContinue_of_isStart hc)
  by_cases hascii : c < 0x80
  · refine ⟨UInt8.ofNat c, Utf8.ofCodePoints cs, by simp [Utf8.encode, hascii], .inr ?_⟩
    rwa [UInt8.toNat_ofNat_of_lt' (Nat.lt_trans hascii (by decide))]
  · obtain ⟨b, t, hb, hlead⟩ := Utf8.lead_of_sequence (Utf8.sequence_encode hscalar (by omega))
    exact ⟨b, t ++ Utf8.ofCodePoints cs, by simp [hb], .inl (by simpa using hlead)⟩

theorem head_ne {b c : UInt8} {t : Bytes} (h : IsName (b :: t)) (hascii : c < 0x80)
    (hc : Identifier.isStart c.toNat = false) : b ≠ c := by
  obtain ⟨b', t', heq, hb⟩ := h.head
  obtain ⟨rfl, rfl⟩ := List.cons.inj heq
  rintro rfl
  rcases hb with hb | hb
  · exact absurd hascii (UInt8.not_lt.mpr hb)
  · simp [hc] at hb

theorem isStart_decode (h : IsName s) (rest : Bytes) :
    Identifier.isStart (Utf8.decode (s ++ rest)).1 = true := by
  obtain ⟨c, cs, rfl, hc, _⟩ := h
  have hscalar := Identifier.isScalar_of_isContinue (Identifier.isContinue_of_isStart hc)
  rwa [List.append_assoc, Utf8.decode_encode_append hscalar]

/-- A name is read to its end in code. -/
theorem wordLength_append (h : IsName s)
    (hrest : Identifier.isContinue (Utf8.decode rest).1 = false) :
    Lexeme.wordLength ((s ++ rest).drop (Utf8.decode (s ++ rest)).2)
      (Utf8.decode (s ++ rest)).2 = s.length := by
  obtain ⟨c, cs, rfl, hc, hcs⟩ := h
  have hscalar := Identifier.isScalar_of_isContinue (Identifier.isContinue_of_isStart hc)
  rw [List.append_assoc, Utf8.decode_encode_append hscalar, List.drop_left,
    Lexeme.wordLength_ofCodePoints hcs hrest, List.length_append]

/-- A name is read to its end in a tag. -/
theorem nameLength_append (h : IsName s) (hrest : EndsName rest) :
    Lexeme.nameLength ((s ++ rest).drop (Utf8.decode (s ++ rest)).2)
      (Utf8.decode (s ++ rest)).2 = s.length := by
  obtain ⟨c, cs, rfl, hc, hcs⟩ := h
  have hscalar := Identifier.isScalar_of_isContinue (Identifier.isContinue_of_isStart hc)
  rw [List.append_assoc, Utf8.decode_encode_append hscalar, List.drop_left,
    Lexeme.nameLength_ofCodePoints hcs hrest, List.length_append]

end IsName

end UnusedImports

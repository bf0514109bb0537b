import UnusedImports.Proofs.Text.Utf8
import UnusedImports.Source.Lexeme

/-! What may stand between two tokens, as a grammar that does not mention the lexer. -/

namespace UnusedImports

/-- The line ends here: with a line break or with the text. -/
def EndsLine (rest : Bytes) : Prop := rest = [] ∨ rest.head? = some Bytes.newline

/-- White space, block comments and line comments in any order, given the text after them. A block
comment ends with the first closing, or is not closed and ends with the text; a line comment ends
before its line break. -/
inductive Trivia : Bytes → Bytes → Prop where
  | nil (rest) : Trivia [] rest
  | blank {c gap rest} : Lexeme.isBlank c = true → Trivia gap rest →
      Trivia (Utf8.encode c ++ gap) rest
  | lineComment {text gap rest} : Bytes.newline ∉ text → EndsLine (gap ++ rest) →
      Trivia gap rest → Trivia (utf8 "//" ++ text ++ gap) rest
  | blockComment {text gap rest} : ¬ utf8 "*/" <:+: text ++ utf8 "*" → Trivia gap rest →
      Trivia (utf8 "/*" ++ text ++ utf8 "*/" ++ gap) rest
  | openComment {text} : ¬ utf8 "*/" <:+: text → Trivia (utf8 "/*" ++ text) []

theorem Trivia.append {first second rest : Bytes} (h : Trivia first (second ++ rest))
    (hsecond : Trivia second rest) : Trivia (first ++ second) rest := by
  generalize hnext : second ++ rest = next at h
  induction h with
  | nil => exact hsecond
  | blank hc _ ih =>
      rw [List.append_assoc]
      exact .blank hc (ih hnext)
  | lineComment htext hend _ ih =>
      subst hnext
      rw [List.append_assoc]
      exact .lineComment htext (by simpa using hend) (ih rfl)
  | blockComment htext _ ih =>
      rw [List.append_assoc]
      exact .blockComment htext (ih hnext)
  | openComment htext =>
      obtain ⟨rfl, rfl⟩ := List.append_eq_nil_iff.mp hnext
      simpa using Trivia.openComment htext

/-- Trivia at the front of a text and trivia after it are trivia together. -/
theorem Trivia.take_add {s : Bytes} {i m : Nat} (hfirst : Trivia (s.take i) (s.drop i))
    (hsecond : Trivia ((s.drop i).take m) ((s.drop i).drop m)) :
    Trivia (s.take (i + m)) (s.drop (i + m)) := by
  rw [List.take_add, ← List.drop_drop]
  apply Trivia.append _ hsecond
  rwa [List.take_append_drop]

namespace Lexeme

/-- A line reaches up to its line break. -/
theorem lineLength_spec (s : Bytes) (n : Nat) :
    ∃ k, lineLength s n = n + k ∧ k ≤ s.length ∧ Bytes.newline ∉ s.take k ∧
      EndsLine (s.drop k) := by
  fun_induction lineLength s n with
  | case1 n => exact ⟨0, rfl, by simp, by simp, .inl rfl⟩
  | case2 b s n hb => exact ⟨0, rfl, by simp, by simp, .inr (by simpa using hb)⟩
  | case3 b s n hb ih =>
      obtain ⟨k, hk, hle, hline, hend⟩ := ih
      refine ⟨k + 1, by omega, by simpa using hle, ?_, by simpa using hend⟩
      simp only [List.take_succ_cons, List.mem_cons, not_or]
      exact ⟨fun h => hb (by simp [← h]), hline⟩

theorem closing_eq : utf8 "*/" = ['*'.toUInt8, Bytes.slash] := rfl

/-- A block comment reaches up to and with its first closing, or else to the end. -/
theorem blockLength_spec (s : Bytes) (n : Nat) :
    ∃ k, blockLength s n = n + k ∧ k ≤ s.length ∧
      ((∃ text, s.take k = text ++ utf8 "*/" ∧ ¬ utf8 "*/" <:+: text ++ utf8 "*") ∨
        (k = s.length ∧ ¬ utf8 "*/" <:+: s)) := by
  fun_induction blockLength s n with
  | case1 n => exact ⟨0, rfl, by simp, .inr ⟨rfl, by decide⟩⟩
  | case2 b n =>
      refine ⟨1, rfl, by simp, .inr ⟨rfl, fun h => ?_⟩⟩
      exact absurd h.length_le (by simp [closing_eq])
  | case3 a b s n h =>
      simp only [Bool.and_eq_true, beq_iff_eq] at h
      obtain ⟨rfl, rfl⟩ := h
      exact ⟨2, rfl, by simp, .inl ⟨[], rfl, by decide⟩⟩
  | case4 a b s n h ih =>
      simp only [Bool.and_eq_true, beq_iff_eq] at h
      -- The closing does not start at `a`, whatever begins with `b` follows it.
      have hfirst : ∀ l : Bytes, l.head? = some b → utf8 "*/" <:+: a :: l → utf8 "*/" <:+: l := by
        intro l hl hin
        rcases List.infix_cons_iff.mp hin with hpre | hin
        · rw [closing_eq, List.cons_prefix_cons] at hpre
          obtain ⟨ha, tail, hpre⟩ := hpre
          rw [← hpre] at hl
          exact absurd ⟨ha.symm, by simpa using hl.symm⟩ h
        · exact hin
      obtain ⟨k, hk, hle, hspec⟩ := ih
      refine ⟨k + 1, by omega, by simpa using hle, ?_⟩
      rcases hspec with ⟨text, htake, htext⟩ | ⟨hall, hnone⟩
      · refine .inl ⟨a :: text, by simp [htake], fun hin => htext (hfirst _ ?_ hin)⟩
        have hhead := congrArg List.head? htake
        cases k with
        | zero => simp [closing_eq] at htake
        | succ k => cases text <;> exact hhead.symm
      · exact .inr ⟨by simp [hall], fun hin => hnone (hfirst _ rfl hin)⟩

/-- A line comment, from its first slash on. -/
theorem trivia_lineComment (s : Bytes) :
    Trivia ((Bytes.slash :: Bytes.slash :: s).take (1 + lineLength (Bytes.slash :: s) 0))
      ((Bytes.slash :: Bytes.slash :: s).drop (1 + lineLength (Bytes.slash :: s) 0)) := by
  obtain ⟨k, hk, hle, hline, hend⟩ := lineLength_spec (Bytes.slash :: s) 0
  rw [hk, Nat.zero_add, Nat.add_comm]
  cases k with
  | zero =>
      rcases hend with hend | hend
      · contradiction
      · exact absurd (Option.some.inj hend) (by decide)
  | succ k =>
      simp only [List.take_succ_cons, List.drop_succ_cons, List.mem_cons, not_or] at *
      have hcomment := Trivia.lineComment hline.2 (by simpa using hend) (.nil _)
      rw [List.append_nil] at hcomment
      exact hcomment

/-- A block comment, from its slash on. -/
theorem trivia_blockComment (s : Bytes) :
    Trivia ((Bytes.slash :: '*'.toUInt8 :: s).take (1 + blockLength s 1))
      ((Bytes.slash :: '*'.toUInt8 :: s).drop (1 + blockLength s 1)) := by
  obtain ⟨k, hk, hle, hspec⟩ := blockLength_spec s 1
  have htwo : 1 + (1 + k) = k + 1 + 1 := by omega
  rw [hk, htwo]
  simp only [List.take_succ_cons, List.drop_succ_cons]
  rcases hspec with ⟨text, htake, htext⟩ | ⟨hall, hnone⟩
  · have hcomment := Trivia.blockComment htext (.nil (s.drop k))
    rw [List.append_nil, List.append_assoc, ← htake] at hcomment
    exact hcomment
  · rw [hall, List.take_length, List.drop_length]
    exact .openComment hnone

/-- A blank code point. -/
theorem trivia_blank {b : UInt8} {s : Bytes} (h : isBlank (Utf8.decode (b :: s)).1 = true) :
    Trivia ((b :: s).take (Utf8.decode (b :: s)).2) ((b :: s).drop (Utf8.decode (b :: s)).2) := by
  have hread : (Utf8.decode (b :: s)).1 ≠ CodePoint.replacement := by
    intro heq
    rw [heq] at h
    exact absurd h (by decide)
  rw [Utf8.take_decode (List.cons_ne_nil b s) hread]
  simpa using Trivia.blank h (.nil _)

/-- What is moved over between two tokens is trivia. -/
theorem triviaLength_spec (s : Bytes) (n : Nat) :
    ∃ k, triviaLength s n = n + k ∧ k ≤ s.length ∧ Trivia (s.take k) (s.drop k) := by
  fun_induction triviaLength s n with
  | case1 n => exact ⟨0, rfl, by simp, .nil _⟩
  | case2 b s n h k ih =>
      obtain ⟨m, hm, hle, htrivia⟩ := ih
      obtain ⟨j, hj, hjle, _⟩ := lineLength_spec s 0
      simp only [Bool.and_eq_true, beq_iff_eq] at h
      obtain ⟨rfl, hhead⟩ := h
      obtain ⟨s, rfl⟩ := List.head?_eq_some_iff.mp hhead
      refine ⟨1 + k + m, by omega, ?_, ?_⟩
      · simp only [List.length_drop, List.length_cons] at hle hjle ⊢
        omega
      · exact (trivia_lineComment s).take_add (by simpa [Nat.add_comm 1] using htrivia)
  | case3 b s n h hb k ih =>
      obtain ⟨m, hm, hle, htrivia⟩ := ih
      obtain ⟨j, hj, hjle, _⟩ := blockLength_spec s.tail 1
      simp only [Bool.and_eq_true, beq_iff_eq] at hb
      obtain ⟨rfl, hhead⟩ := hb
      obtain ⟨s, rfl⟩ := List.head?_eq_some_iff.mp hhead
      have hk : k = blockLength s 1 := rfl
      refine ⟨1 + k + m, by omega, ?_, ?_⟩
      · simp only [List.length_drop, List.length_cons, List.tail_cons] at hle hj hjle ⊢
        omega
      · rw [hk] at htrivia ⊢
        exact (trivia_blockComment s).take_add (by simpa [Nat.add_comm 1] using htrivia)
  | case4 b s n h hb d hd ih =>
      obtain ⟨m, hm, hle, htrivia⟩ := ih
      have hpos : 0 < d.2 := Utf8.decode_size_pos b s
      have hsize : d.2 ≤ (b :: s).length := Utf8.decode_size_le (b :: s)
      have hdrop : (b :: s).drop d.2 = s.drop (d.2 - 1) := List.drop_cons hpos
      refine ⟨d.2 + m, by omega, ?_, ?_⟩
      · simp only [List.length_drop, List.length_cons] at hle hsize ⊢
        omega
      · rw [← hdrop] at htrivia
        exact (trivia_blank hd).take_add htrivia
  | case5 b s n h hb d hd => exact ⟨0, rfl, by simp, .nil _⟩

theorem triviaLength_add (s : Bytes) (n m : Nat) :
    triviaLength s (n + m) = n + triviaLength s m := by
  have count : ∀ {t i j}, triviaLength t (n + j) = n + triviaLength t j → i = n + j →
      triviaLength t i = n + triviaLength t j := by
    rintro t i j h rfl
    exact h
  fun_induction triviaLength s m with
  | case1 m => rw [triviaLength]
  | case2 b s m h k ih =>
      rw [triviaLength, if_pos h]
      exact count ih (by omega)
  | case3 b s m h hb k ih =>
      rw [triviaLength, if_neg h, if_pos hb]
      exact count ih (by omega)
  | case4 b s m h hb d hd ih =>
      rw [triviaLength, if_neg h, if_neg hb, if_pos hd]
      exact count ih (Nat.add_assoc n m d.2)
  | case5 b s m h hb d hd => rw [triviaLength, if_neg h, if_neg hb, if_neg hd]

end Lexeme

end UnusedImports

import UnusedImports.Proofs.Lexer.Class
import UnusedImports.Proofs.Text.Search

/-! A lexeme is measured on the whole text that is left, but it looks no further than it must. -/

namespace UnusedImports

/-! ### Parting bytes -/

/-- A byte that stands in no word, in no number and in no mark of several bytes. -/
def Bytes.IsParting (b : UInt8) : Prop :=
  b = 0x20 ∨ b = slash ∨ b = newline ∨ b = carriageReturn

namespace Bytes.IsParting

variable {b : UInt8}

theorem ascii (h : IsParting b) : b < 0x80 := by
  rcases h with rfl | rfl | rfl | rfl <;> decide

theorem not_isContinue (h : IsParting b) : Identifier.isContinue b.toNat = false := by
  rcases h with rfl | rfl | rfl | rfl <;> decide

theorem not_isStart (h : IsParting b) : Identifier.isStart b.toNat = false := by
  rcases h with rfl | rfl | rfl | rfl <;> decide

theorem not_isNumberByte (h : IsParting b) : Lexeme.isNumberByte b = false := by
  rcases h with rfl | rfl | rfl | rfl <;> decide

theorem not_isDigit (h : IsParting b) : Bytes.isDigit b = false := by
  rcases h with rfl | rfl | rfl | rfl <;> decide

theorem ne_dash (h : IsParting b) : b ≠ '-'.toUInt8 := by
  rcases h with rfl | rfl | rfl | rfl <;> decide

theorem notMem_marks (h : IsParting b) : b ∉ utf8 "..." ∧ b ∉ utf8 "?." ∧ b ∉ utf8 "=>" := by
  rcases h with rfl | rfl | rfl | rfl <;> decide

end Bytes.IsParting

/-! ### Lexemes end in their text -/

namespace Lexeme

theorem wordLength_le (s : Bytes) (n : Nat) : wordLength s n ≤ n + s.length := by
  obtain ⟨cs, rest, -, hs, -, hlength⟩ := wordLength_spec s n
  rw [hlength, hs, List.length_append]
  omega

theorem nameLength_le (s : Bytes) (n : Nat) : nameLength s n ≤ n + s.length := by
  obtain ⟨cs, groups, rest, -, -, hs, -, hlength⟩ := nameLength_spec s n
  rw [hlength, hs]
  simp only [List.length_append]
  omega

theorem numberLength_le (s : Bytes) : numberLength s ≤ s.length :=
  (List.takeWhile_sublist isNumberByte).length_le

theorem stringLength_le (quote : UInt8) (s : Bytes) (n : Nat) :
    stringLength quote s n ≤ n + s.length := by
  obtain ⟨text, ending, rest, hs, -, -, hlength⟩ := stringLength_spec quote s n
  rw [hlength, hs]
  exact Nat.add_le_add_left (List.prefix_append _ rest).length_le n

theorem attributeLength_le (quote : UInt8) (s : Bytes) (n : Nat) :
    attributeLength quote s n ≤ n + s.length := by
  obtain ⟨text, ending, rest, hs, -, -, hlength⟩ := attributeLength_spec quote s n
  rw [hlength, hs]
  exact Nat.add_le_add_left (List.prefix_append _ rest).length_le n

theorem regexLength?_le {s : Bytes} {bracketed : Bool} {n m : Nat}
    (h : regexLength? s bracketed n = some m) : m ≤ n + s.length := by
  obtain ⟨text, rest, hs, -, hm⟩ := regexLength?_spec h
  rw [hm, hs, List.length_append, List.length_cons]
  omega

theorem markupLength_le (s : Bytes) (n : Nat) : markupLength s n ≤ n + s.length := by
  obtain ⟨text, rest, hs, -, -, hlength⟩ := markupLength_spec s n
  rw [hlength, hs, List.length_append]
  omega

theorem triviaLength_le (s : Bytes) (n : Nat) : triviaLength s n ≤ n + s.length := by
  obtain ⟨k, hk, hle, -⟩ := triviaLength_spec s n
  omega

/-- A piece of a template ends in its text, and so does the opening of the substitution that ends
it. -/
theorem templateLength_le (s : Bytes) (n : Nat) :
    (templateLength s n).1 + (if (templateLength s n).2 = .substitution then 2 else 0) ≤
      n + s.length := by
  obtain ⟨text, ending, rest, hs, -, -, hlength, hopens, -⟩ := templateLength_spec s n
  have hwhole := congrArg List.length hs
  rw [List.length_append] at hwhole
  split
  · next hend =>
    obtain ⟨more, rfl⟩ := hopens hend
    have hmark : (utf8 "$\x7b" ++ more).length = 2 + more.length := List.length_append
    omega
  · omega

theorem punctuatorLength_le (p : UInt8) (a : Bytes) :
    punctuatorLength (p :: a) ≤ a.length + 1 := by
  have hle : ∀ mark : String, (utf8 mark).isPrefixOf (p :: a) = true →
      (utf8 mark).length ≤ a.length + 1 := fun mark h =>
    (List.isPrefixOf_iff_prefix.mp h).length_le
  unfold punctuatorLength
  split
  · next h => exact hle _ h
  · split
    · next h => exact hle _ (Bool.and_eq_true_iff.mp h).1
    · split
      · next h => exact hle _ h
      · exact Nat.le_add_left 1 _

end Lexeme

/-! ### Lexemes that a parting byte ends -/

namespace Lexeme

variable {b : UInt8}

/-- What is left of a front behind its first code point, when more follows it. -/
theorem drop_decode (p : UInt8) (a x : Bytes) :
    (a ++ x).drop ((Utf8.decode (p :: a)).2 - 1) = a.drop ((Utf8.decode (p :: a)).2 - 1) ++ x := by
  have hle := Utf8.decode_size_le (p :: a)
  rw [List.length_cons] at hle
  exact List.drop_append_of_le_length (by omega)

theorem wordLength_append (hb : Bytes.IsParting b) (a x : Bytes) (n : Nat) :
    wordLength (a ++ b :: x) n = wordLength a n := by
  fun_induction wordLength a n with
  | case1 n =>
      apply wordLength_of_ends
      rw [List.nil_append, Utf8.decode_ascii hb.ascii]
      exact hb.not_isContinue
  | case2 p a n d hd ih =>
      have hdecode := Utf8.decode_append_ascii (List.cons_ne_nil p a) hb.ascii x
      rw [List.cons_append] at hdecode ⊢
      rw [wordLength, hdecode, if_pos hd, drop_decode]
      exact ih
  | case3 p a n d hd =>
      have hdecode := Utf8.decode_append_ascii (List.cons_ne_nil p a) hb.ascii x
      rw [List.cons_append] at hdecode ⊢
      rw [wordLength, hdecode, if_neg hd]

theorem nameLength_eq (s : Bytes) (n : Nat) :
    nameLength s n = match s.drop (wordLength s 0) with
      | p :: t => if p == '-'.toUInt8 then nameLength t (n + wordLength s 0 + 1)
          else n + wordLength s 0
      | [] => n + wordLength s 0 := by
  rw [nameLength]
  split
  · next h => rw [h]
  · next h => rw [h]

theorem nameLength_append (hb : Bytes.IsParting b) (a x : Bytes) (n : Nat) :
    nameLength (a ++ b :: x) n = nameLength a n := by
  have hrest : (a ++ b :: x).drop (wordLength (a ++ b :: x) 0) =
      a.drop (wordLength a 0) ++ b :: x := by
    have hle := wordLength_le a 0
    rw [wordLength_append hb]
    exact List.drop_append_of_le_length (by omega)
  fun_induction nameLength a n with
  | case1 a n k p t h hp ih =>
      rw [nameLength_eq, hrest, wordLength_append hb, h, List.cons_append]
      have hnext : (t ++ b :: x).drop (wordLength (t ++ b :: x) 0) =
          t.drop (wordLength t 0) ++ b :: x := by
        have hle := wordLength_le t 0
        rw [wordLength_append hb]
        exact List.drop_append_of_le_length (by omega)
      simp only [hp, if_true]
      exact ih hnext
  | case2 a n k p t h hp =>
      rw [nameLength_eq, hrest, wordLength_append hb, h, List.cons_append]
      simp only [hp]
      rfl
  | case3 a n k h =>
      rw [nameLength_eq, hrest, wordLength_append hb, h, List.nil_append]
      simp only [beq_eq_false_iff_ne.mpr hb.ne_dash]
      rfl

theorem numberLength_append (hb : Bytes.IsParting b) (a x : Bytes) :
    numberLength (a ++ b :: x) = numberLength a := by
  unfold numberLength
  rw [List.takeWhile_append]
  split
  · next hall => simp [hb.not_isNumberByte, ← hall]
  · rfl

theorem punctuatorLength_append (hb : Bytes.IsParting b) (a x : Bytes) :
    punctuatorLength (a ++ b :: x) = punctuatorLength a := by
  obtain ⟨hdots, hquestion, harrow⟩ := hb.notMem_marks
  have hdigit : (utf8 "?.").isPrefixOf a = true →
      ((a ++ b :: x).drop 2).head?.any Bytes.isDigit = (a.drop 2).head?.any Bytes.isDigit := by
    intro hstart
    obtain ⟨rest, rfl⟩ := List.isPrefixOf_iff_prefix.mp hstart
    cases rest with
    | nil => exact hb.not_isDigit
    | cons c rest => rfl
  unfold punctuatorLength
  rw [Bytes.isPrefixOf_append hdots, Bytes.isPrefixOf_append hquestion,
    Bytes.isPrefixOf_append harrow]
  by_cases hstart : (utf8 "?.").isPrefixOf a = true
  · rw [hdigit hstart]
  · simp [hstart]

/-! ### Lexemes with an end of their own

Each of these lemmas says that a lexeme which ends in a front does so whatever follows the front.
What followed it in the first place must not have ended the lexeme, so it is no line break. -/

section

variable {quote : UInt8} {x : Bytes}

theorem stringLength_cons (p : UInt8) {s : Bytes} (hs : s ≠ []) (n : Nat) :
    stringLength quote (p :: s) n =
      if p == Bytes.backslash then stringLength quote s.tail (n + 2)
      else if p == quote then n + 1
      else if p == Bytes.newline then n
      else stringLength quote s (n + 1) := by
  obtain ⟨c, s, rfl⟩ := List.exists_cons_of_ne_nil hs
  rw [stringLength, List.tail_cons]

theorem lt_stringLength (hb : Bytes.IsParting b) (hbreak : b ≠ Bytes.newline)
    (hquote : Bytes.IsQuote quote) (x : Bytes) (n : Nat) : n < stringLength quote (b :: x) n := by
  have hslash : b ≠ Bytes.backslash := by
    rcases hb with rfl | rfl | rfl | rfl <;> decide
  have hother : b ≠ quote := by
    rcases hquote with rfl | rfl <;> rcases hb with rfl | rfl | rfl | rfl <;> decide
  cases x with
  | nil => simp [stringLength, hbreak]
  | cons c x =>
      simp only [stringLength, beq_iff_eq, hslash, hother, hbreak, if_false]
      exact le_stringLength quote (c :: x) (n + 1)

theorem stringLength_front (hb : Bytes.IsParting b) (hbreak : b ≠ Bytes.newline)
    (hquote : Bytes.IsQuote quote) (a : Bytes) (n : Nat)
    (h : stringLength quote (a ++ b :: x) n ≤ n + a.length) (c : UInt8) (y : Bytes) :
    stringLength quote (a ++ c :: y) n = stringLength quote (a ++ b :: x) n := by
  match a with
  | [] => exact absurd h (Nat.not_le.mpr (lt_stringLength hb hbreak hquote x n))
  | p :: a =>
      rw [List.cons_append, stringLength_cons p (by simp)] at h
      rw [List.cons_append, List.cons_append, stringLength_cons p (by simp),
        stringLength_cons p (by simp)]
      split
      · next hp =>
        rw [if_pos hp] at h
        cases a with
        | nil =>
            have := le_stringLength quote x (n + 2)
            simp only [List.nil_append, List.tail_cons, List.length_singleton] at h
            omega
        | cons q a =>
            simp only [List.cons_append, List.tail_cons, List.length_cons] at h ⊢
            exact stringLength_front hb hbreak hquote a (n + 2) (by omega) c y
      · next hp =>
        rw [if_neg hp] at h
        split
        · rfl
        · next hq =>
          rw [if_neg hq] at h
          split
          · rfl
          · next hn =>
            rw [if_neg hn, List.length_cons] at h
            exact stringLength_front hb hbreak hquote a (n + 1) (by omega) c y
termination_by a.length

theorem templateLength_cons (p : UInt8) {s : Bytes} (hs : s ≠ []) (n : Nat) :
    templateLength (p :: s) n =
      if p == Bytes.backslash then templateLength s.tail (n + 2)
      else if p == Bytes.backtick then (n + 1, .closed)
      else if p == '$'.toUInt8 && s.head? == some Bytes.openBrace then (n, .substitution)
      else templateLength s (n + 1) := by
  obtain ⟨c, s, rfl⟩ := List.exists_cons_of_ne_nil hs
  rw [templateLength, List.tail_cons]
  simp

theorem templateLength_parting (hb : Bytes.IsParting b) (s : Bytes) (n : Nat) :
    templateLength (b :: s) n = templateLength s (n + 1) := by
  have hmark : (b == Bytes.backslash) = false ∧ (b == Bytes.backtick) = false ∧
      (b == '$'.toUInt8) = false := by
    rcases hb with rfl | rfl | rfl | rfl <;> decide
  cases s with
  | nil => simp [templateLength, hmark]
  | cons c s => simp [templateLength, hmark]

theorem lt_templateLength (hb : Bytes.IsParting b) (x : Bytes) (n : Nat) :
    n < (templateLength (b :: x) n).1 := by
  rw [templateLength_parting hb]
  exact le_templateLength x (n + 1)

theorem templateLength_front (hb : Bytes.IsParting b) {c : UInt8} (hc : Bytes.IsParting c)
    (a : Bytes) (n : Nat) (h : (templateLength (a ++ b :: x) n).1 ≤ n + a.length) (y : Bytes) :
    templateLength (a ++ c :: y) n = templateLength (a ++ b :: x) n := by
  match a with
  | [] => exact absurd h (Nat.not_le.mpr (lt_templateLength hb x n))
  | p :: a =>
      have hbrace : ((a ++ c :: y).head? == some Bytes.openBrace) =
          ((a ++ b :: x).head? == some Bytes.openBrace) := by
        cases a with
        | nil =>
            rcases hb with rfl | rfl | rfl | rfl <;> rcases hc with rfl | rfl | rfl | rfl <;> rfl
        | cons q a => rfl
      rw [List.cons_append, templateLength_cons p (by simp)] at h
      rw [List.cons_append, List.cons_append, templateLength_cons p (by simp),
        templateLength_cons p (by simp), hbrace]
      split
      · next hp =>
        rw [if_pos hp] at h
        cases a with
        | nil =>
            have := le_templateLength x (n + 2)
            simp only [List.nil_append, List.tail_cons, List.length_singleton] at h
            omega
        | cons q a =>
            simp only [List.cons_append, List.tail_cons, List.length_cons] at h ⊢
            exact templateLength_front hb hc a (n + 2) (by omega) y
      · next hp =>
        rw [if_neg hp] at h
        split
        · rfl
        · next hq =>
          rw [if_neg hq] at h
          split
          · rfl
          · next hn =>
            rw [if_neg hn, List.length_cons] at h
            exact templateLength_front hb hc a (n + 1) (by omega) y
termination_by a.length

theorem attributeLength_front (hb : Bytes.IsParting b) (hquote : Bytes.IsQuote quote) (a : Bytes)
    (n : Nat) (h : attributeLength quote (a ++ b :: x) n ≤ n + a.length) (y : Bytes) :
    attributeLength quote (a ++ y) n = attributeLength quote (a ++ b :: x) n := by
  induction a generalizing n with
  | nil =>
      have hother : b ≠ quote := by
        rcases hquote with rfl | rfl <;> rcases hb with rfl | rfl | rfl | rfl <;> decide
      have hle := le_attributeLength quote x (n + 1)
      simp only [List.nil_append, attributeLength, beq_iff_eq, hother, if_false,
        List.length_nil] at h
      omega
  | cons p a ih =>
      simp only [List.cons_append, attributeLength, List.length_cons] at h ⊢
      split
      · rfl
      · next hp =>
        rw [if_neg hp] at h
        exact ih (n + 1) (by omega)

theorem le_markupLength (s : Bytes) (n : Nat) : n ≤ markupLength s n := by
  fun_induction markupLength s n <;> omega

theorem markupLength_cons (p : UInt8) (s : Bytes) (n : Nat) :
    markupLength (p :: s) n =
      if p == Bytes.openBrace || (p == '<'.toUInt8 && opensTag s) then n
      else markupLength s (n + 1) := rfl

theorem opens_of_markupLength {s t : Bytes} {q : UInt8} {n : Nat}
    (h : s.drop (markupLength s n - n) = q :: t) :
    q = Bytes.openBrace ∨ (q = '<'.toUInt8 ∧ opensTag t = true) := by
  fun_induction markupLength s n with
  | case1 => simp at h
  | case2 p s n hp =>
      rw [Nat.sub_self, List.drop_zero] at h
      obtain ⟨rfl, rfl⟩ := List.cons.inj h
      simpa using hp
  | case3 p s n hp ih =>
      have hle := le_markupLength s (n + 1)
      rw [show markupLength s (n + 1) - n = markupLength s (n + 1) - (n + 1) + 1 by omega,
        List.drop_succ_cons] at h
      exact ih h

theorem markupLength_parting (hb : Bytes.IsParting b) (s : Bytes) (n : Nat) :
    markupLength (b :: s) n = markupLength s (n + 1) := by
  have hmark : (b == Bytes.openBrace) = false ∧ (b == '<'.toUInt8) = false := by
    rcases hb with rfl | rfl | rfl | rfl <;> decide
  rw [markupLength_cons, hmark.1, hmark.2]
  rfl

theorem lt_markupLength (hb : Bytes.IsParting b) (x : Bytes) (n : Nat) :
    n < markupLength (b :: x) n := by
  rw [markupLength_parting hb]
  exact le_markupLength x (n + 1)

/-- Whether a `<` at the end of the front opens a tag is for the next byte to say, so the text
must not end there. -/
theorem markupLength_front (hb : Bytes.IsParting b) (a : Bytes) (n : Nat)
    (h : markupLength (a ++ b :: x) n ≤ n + a.length)
    (hlast : a.getLast? = some '<'.toUInt8 → markupLength (a ++ b :: x) n + 1 < n + a.length)
    (y : Bytes) : markupLength (a ++ y) n = markupLength (a ++ b :: x) n := by
  induction a generalizing n with
  | nil => exact absurd h (Nat.not_le.mpr (lt_markupLength hb x n))
  | cons p a ih =>
      cases a with
      | nil =>
          have hlt := lt_markupLength hb x (n + 1)
          have hp : p ≠ '<'.toUInt8 := by
            rintro rfl
            have hle := le_markupLength (['<'.toUInt8] ++ b :: x) n
            have := hlast rfl
            simp only [List.length_singleton] at this
            omega
          rw [List.singleton_append, markupLength_cons, beq_eq_false_iff_ne.mpr hp,
            Bool.false_and, Bool.or_false, List.length_singleton] at h
          rw [List.singleton_append, List.singleton_append, markupLength_cons, markupLength_cons,
            beq_eq_false_iff_ne.mpr hp, Bool.false_and, Bool.false_and, Bool.or_false]
          split
          · rfl
          · next hbrace =>
            rw [if_neg hbrace] at h
            omega
      | cons q a =>
          have hstep : ∀ z, markupLength ((p :: q :: a) ++ z) n =
              if p == Bytes.openBrace || (p == '<'.toUInt8 && opensTag (q :: a)) then n
              else markupLength ((q :: a) ++ z) (n + 1) := fun _ => rfl
          rw [hstep] at h hlast
          rw [hstep, hstep]
          split
          · rfl
          · next hopen =>
            rw [if_neg hopen, List.length_cons] at h hlast
            refine ih (n + 1) (by omega) fun hend => ?_
            have := hlast (by rwa [List.getLast?_cons_cons])
            omega

theorem lineLength_front (a : Bytes) (n : Nat) (h : Bytes.newline ∈ a) (y : Bytes) :
    lineLength (a ++ y) n = lineLength a n ∧ lineLength a n < n + a.length := by
  induction a generalizing n with
  | nil => simp at h
  | cons p a ih =>
      simp only [List.cons_append, lineLength, List.length_cons]
      split
      · exact ⟨rfl, by omega⟩
      · next hp =>
        have htail : Bytes.newline ∈ a := by
          rcases List.mem_cons.mp h with rfl | htail
          · exact absurd rfl hp
          · exact htail
        obtain ⟨heq, hlt⟩ := ih (n + 1) htail
        exact ⟨heq, by omega⟩

theorem lt_lineLength (hbreak : b ≠ Bytes.newline) (a : Bytes) (n : Nat) (h : Bytes.newline ∉ a)
    (x : Bytes) : n + a.length < lineLength (a ++ b :: x) n := by
  have hle : ∀ s n, n ≤ lineLength s n := by
    intro s n
    fun_induction lineLength s n <;> omega
  induction a generalizing n with
  | nil =>
      simp only [List.nil_append, lineLength, beq_iff_eq, hbreak, if_false, List.length_nil]
      exact hle x (n + 1)
  | cons p a ih =>
      rw [List.mem_cons, not_or] at h
      have := ih (n + 1) h.2
      simp only [List.cons_append, lineLength, beq_iff_eq, Ne.symm h.1, if_false, List.length_cons]
      omega

theorem le_blockLength (s : Bytes) (n : Nat) : n ≤ blockLength s n := by
  fun_induction blockLength s n <;> omega

theorem blockLength_cons (p : UInt8) {s : Bytes} (hs : s ≠ []) (n : Nat) :
    blockLength (p :: s) n =
      if p == '*'.toUInt8 && s.head? == some Bytes.slash then n + 2
      else blockLength s (n + 1) := by
  obtain ⟨c, s, rfl⟩ := List.exists_cons_of_ne_nil hs
  rw [blockLength]
  simp

theorem lt_blockLength {s : Bytes} (hs : s ≠ []) (n : Nat) : n < blockLength s n := by
  obtain ⟨p, s, rfl⟩ := List.exists_cons_of_ne_nil hs
  by_cases htail : s = []
  · subst htail
    exact Nat.lt_succ_self n
  · have := le_blockLength s (n + 1)
    rw [blockLength_cons p htail]
    split <;> omega

theorem blockLength_front (a : Bytes) (n : Nat) (h : blockLength (a ++ b :: x) n ≤ n + a.length)
    (c : UInt8) (y : Bytes) : blockLength (a ++ c :: y) n = blockLength (a ++ b :: x) n := by
  induction a generalizing n with
  | nil => exact absurd h (Nat.not_le.mpr (lt_blockLength (List.cons_ne_nil b x) n))
  | cons p a ih =>
      cases a with
      | nil =>
          have hlt := lt_blockLength (List.cons_ne_nil b x) (n + 1)
          rw [List.singleton_append, blockLength_cons p (by simp), List.length_singleton] at h
          split at h <;> omega
      | cons q a =>
          have hstep : ∀ z : Bytes, blockLength ((p :: q :: a) ++ z) n =
              if p == '*'.toUInt8 && q == Bytes.slash then n + 2
              else blockLength ((q :: a) ++ z) (n + 1) := fun _ => rfl
          rw [hstep, List.length_cons] at h
          rw [hstep, hstep]
          split
          · rfl
          · next hclose =>
            rw [if_neg hclose] at h
            exact ih (n + 1) (by omega)

theorem le_triviaLength (s : Bytes) (n : Nat) : n ≤ triviaLength s n := by
  obtain ⟨k, hk, -⟩ := triviaLength_spec s n
  omega

theorem triviaLength_line (s : Bytes) (n : Nat) :
    triviaLength (Bytes.slash :: Bytes.slash :: s) n =
      triviaLength ((Bytes.slash :: s).drop (lineLength (Bytes.slash :: s) 0))
        (n + 1 + lineLength (Bytes.slash :: s) 0) := by
  rw [triviaLength, if_pos (by rfl)]

theorem triviaLength_block (s : Bytes) (n : Nat) :
    triviaLength (Bytes.slash :: '*'.toUInt8 :: s) n =
      triviaLength (('*'.toUInt8 :: s).drop (blockLength s 1)) (n + 1 + blockLength s 1) := by
  rw [triviaLength, if_neg (by simp; decide), if_pos (by rfl), List.tail_cons]

theorem triviaLength_slash {s : Bytes} (hline : s.head? ≠ some Bytes.slash)
    (hblock : s.head? ≠ some '*'.toUInt8) (n : Nat) : triviaLength (Bytes.slash :: s) n = n := by
  have hblank : isBlank (Utf8.decode (Bytes.slash :: s)).1 = false := by
    rw [Utf8.decode_ascii (by decide)]
    rfl
  rw [triviaLength, if_neg (by simpa using hline), if_neg (by simpa using hblock),
    if_neg (by simp [hblank])]

theorem triviaLength_cons {p : UInt8} (hp : p ≠ Bytes.slash) (s : Bytes) (n : Nat) :
    triviaLength (p :: s) n =
      if isBlank (Utf8.decode (p :: s)).1 then
        triviaLength (s.drop ((Utf8.decode (p :: s)).2 - 1)) (n + (Utf8.decode (p :: s)).2)
      else n := by
  rw [triviaLength, if_neg (by simp [hp]), if_neg (by simp [hp])]

/-- A front decides how much trivia there is, whatever follows it, if the trivia ends in it. -/
def FrontDecides (b : UInt8) (x : Bytes) (c : UInt8) (y a : Bytes) : Prop :=
  ∀ n, triviaLength (a ++ b :: x) n < n + a.length →
    triviaLength (a ++ c :: y) n = triviaLength (a ++ b :: x) n

variable {c : UInt8} {y a : Bytes}

/-- What is left of a front behind its first lexeme. -/
theorem FrontDecides.behind {k n : Nat} (h : FrontDecides b x c y (a.drop k)) (hk : k ≤ a.length)
    (hlt : triviaLength ((a ++ b :: x).drop k) (n + k) < n + a.length) :
    triviaLength ((a ++ c :: y).drop k) (n + k) = triviaLength ((a ++ b :: x).drop k) (n + k) := by
  rw [List.drop_append_of_le_length hk] at hlt ⊢
  rw [List.drop_append_of_le_length hk]
  exact h (n + k) (by rw [List.length_drop]; omega)

theorem frontDecides_lineComment (hbreak : b ≠ Bytes.newline)
    (h : ∀ k, FrontDecides b x c y ((Bytes.slash :: a).drop k)) :
    FrontDecides b x c y (Bytes.slash :: Bytes.slash :: a) := by
  intro n hlt
  simp only [List.cons_append, List.length_cons, triviaLength_line] at hlt ⊢
  by_cases hend : Bytes.newline ∈ Bytes.slash :: a
  · have hlength := fun z => (lineLength_front (Bytes.slash :: a) 0 hend z).1
    have hle := (lineLength_front (Bytes.slash :: a) 0 hend []).2
    simp only [List.cons_append] at hlength
    rw [hlength] at hlt ⊢
    rw [hlength]
    exact (h _).behind (by omega) (hlt.trans_eq (by rw [List.length_cons]; omega))
  · have hlong := lt_lineLength hbreak (Bytes.slash :: a) 0 hend x
    have hle := le_triviaLength ((Bytes.slash :: (a ++ b :: x)).drop
      (lineLength (Bytes.slash :: (a ++ b :: x)) 0))
      (n + 1 + lineLength (Bytes.slash :: (a ++ b :: x)) 0)
    rw [List.cons_append, List.length_cons] at hlong
    omega

theorem frontDecides_blockComment (h : ∀ k, FrontDecides b x c y (('*'.toUInt8 :: a).drop k)) :
    FrontDecides b x c y (Bytes.slash :: '*'.toUInt8 :: a) := by
  intro n hlt
  simp only [List.cons_append, List.length_cons, triviaLength_block] at hlt ⊢
  by_cases hend : blockLength (a ++ b :: x) 1 ≤ 1 + a.length
  · rw [blockLength_front a 1 hend c y]
    exact (h _).behind (by rw [List.length_cons]; omega)
      (hlt.trans_eq (by rw [List.length_cons]; omega))
  · have hle := le_triviaLength (('*'.toUInt8 :: (a ++ b :: x)).drop
      (blockLength (a ++ b :: x) 1)) (n + 1 + blockLength (a ++ b :: x) 1)
    omega

/-- Whether a slash at the end of the front opens a comment is for the next byte to say. A space
opens none, and if the other byte did, the comment would end behind the front. -/
theorem frontDecides_slash (hb : Bytes.IsParting b) : FrontDecides b x 0x20 y [Bytes.slash] := by
  intro n hlt
  rw [List.singleton_append] at hlt
  rw [List.singleton_append, List.singleton_append]
  have hslash : b ≠ Bytes.slash := by
    rintro rfl
    have hle := le_triviaLength ((Bytes.slash :: x).drop (lineLength (Bytes.slash :: x) 0))
      (n + 1 + lineLength (Bytes.slash :: x) 0)
    rw [triviaLength_line, List.length_singleton] at hlt
    omega
  have hstar : b ≠ '*'.toUInt8 := by
    rcases hb with rfl | rfl | rfl | rfl <;> decide
  rw [triviaLength_slash (by rw [List.head?_cons]; decide) (by rw [List.head?_cons]; decide),
    triviaLength_slash (by simpa using hslash) (by simpa using hstar)]

theorem frontDecides_cons (hb : Bytes.IsParting b) (hc : Bytes.IsParting c) {p : UInt8}
    (hp : p ≠ Bytes.slash) (h : ∀ k, FrontDecides b x c y (a.drop k)) :
    FrontDecides b x c y (p :: a) := by
  intro n hlt
  have hdecode : ∀ {e : UInt8} {z : Bytes}, Bytes.IsParting e →
      Utf8.decode (p :: (a ++ e :: z)) = Utf8.decode (p :: a) := fun he =>
    Utf8.decode_append_ascii (List.cons_ne_nil p a) he.ascii _
  rw [List.cons_append, triviaLength_cons hp, hdecode hb] at hlt
  rw [List.cons_append, List.cons_append, triviaLength_cons hp, triviaLength_cons hp,
    hdecode hb, hdecode hc]
  split
  · next hblank =>
    have hpos := Utf8.decode_size_pos p a
    have hle := Utf8.decode_size_le (p :: a)
    rw [List.length_cons] at hle hlt
    have hsize : n + (Utf8.decode (p :: a)).2 = n + 1 + ((Utf8.decode (p :: a)).2 - 1) := by omega
    rw [if_pos hblank, hsize] at hlt
    rw [hsize]
    exact (h _).behind (by omega) (by omega)
  · rfl

/-- A front decides its trivia by its lexemes one after the other. -/
theorem triviaLength_front (hb : Bytes.IsParting b) (hbreak : b ≠ Bytes.newline)
    (hc : Bytes.IsParting c) (a : Bytes) (hlast : [Bytes.slash] <:+ a → c = 0x20) :
    FrontDecides b x c y a := by
  match a with
  | [] => exact fun n h => absurd h (Nat.not_lt.mpr (le_triviaLength _ n))
  | p :: a =>
      have next : ∀ k, FrontDecides b x c y (a.drop k) := fun k =>
        triviaLength_front hb hbreak hc (a.drop k) fun hend =>
          hlast (hend.trans ((List.drop_suffix k a).trans (List.suffix_cons p a)))
      by_cases hp : p = Bytes.slash
      · subst hp
        cases a with
        | nil =>
            obtain rfl := hlast (List.suffix_refl _)
            exact frontDecides_slash hb
        | cons q a =>
            by_cases hline : q = Bytes.slash
            · subst hline
              exact frontDecides_lineComment hbreak next
            · by_cases hblock : q = '*'.toUInt8
              · subst hblock
                exact frontDecides_blockComment next
              · intro n _
                have hmark : ∀ z, triviaLength (Bytes.slash :: q :: z) n = n := fun z =>
                  triviaLength_slash (by simpa using hline) (by simpa using hblock) n
                exact (hmark _).trans (hmark _).symm
      · exact frontDecides_cons hb hc hp next
termination_by a.length

end

/-! ### Regular expressions

Whether a slash starts a regular expression is tried on all of its line, so a front alone need not
decide it. What it leaves open is whether the next byte is escaped and whether it stands between
brackets. -/

/-- What a front leaves open of the search for the end of a regular expression. -/
inductive RegexFront where
  /-- Nothing: the search has come to its result. -/
  | ended (result : Option Nat)
  | inside (bracketed : Bool)
  /-- It goes on behind the next byte, which is escaped. -/
  | escaping (bracketed : Bool)
  deriving DecidableEq

/-- What a front leaves open, by the same steps as the search. -/
def regexFront : Bytes → Bool → Nat → RegexFront
  | [], bracketed, _ => .inside bracketed
  | b :: s, bracketed, n =>
    if b == Bytes.newline then .ended none
    else if b == Bytes.backslash then
      match s with
      | [] => .escaping bracketed
      | _ :: s => regexFront s bracketed (n + 2)
    else if b == '['.toUInt8 then regexFront s true (n + 1)
    else if b == ']'.toUInt8 then regexFront s false (n + 1)
    else if b == Bytes.slash && !bracketed then .ended (some (n + 1))
    else regexFront s bracketed (n + 1)

theorem regexLength?_cons (p : UInt8) {s : Bytes} (hs : s ≠ []) (bracketed : Bool) (n : Nat) :
    regexLength? (p :: s) bracketed n =
      if p == Bytes.newline then none
      else if p == Bytes.backslash then regexLength? s.tail bracketed (n + 2)
      else if p == '['.toUInt8 then regexLength? s true (n + 1)
      else if p == ']'.toUInt8 then regexLength? s false (n + 1)
      else if p == Bytes.slash && !bracketed then some (n + 1)
      else regexLength? s bracketed (n + 1) := by
  obtain ⟨c, s, rfl⟩ := List.exists_cons_of_ne_nil hs
  rw [regexLength?, List.tail_cons]

/-- The search goes on from what a front leaves open. -/
theorem regexLength?_append (a : Bytes) (bracketed : Bool) (n : Nat) (b : UInt8) (x : Bytes)
    {m : Nat} (hm : n + a.length = m) :
    regexLength? (a ++ b :: x) bracketed n =
      match regexFront a bracketed n with
      | .ended result => result
      | .inside bracketed => regexLength? (b :: x) bracketed m
      | .escaping bracketed => regexLength? x bracketed (m + 1) := by
  fun_induction regexFront a bracketed n with
  | case1 =>
      subst hm
      rfl
  | case2 p s br n hp => rw [List.cons_append, regexLength?_cons p (by simp), if_pos hp]
  | case3 p br n hp hq =>
      rw [List.cons_append, regexLength?_cons p (by simp), if_neg hp, if_pos hq]
      subst hm
      rfl
  | case4 p br n hp hq c s ih =>
      rw [List.cons_append, regexLength?_cons p (by simp), if_neg hp, if_pos hq]
      exact ih (by simp only [List.length_cons] at hm; omega)
  | case5 p s br n hp hq hopen ih =>
      rw [List.cons_append, regexLength?_cons p (by simp), if_neg hp, if_neg hq, if_pos hopen]
      exact ih (by simp only [List.length_cons] at hm; omega)
  | case6 p s br n hp hq hopen hclose ih =>
      rw [List.cons_append, regexLength?_cons p (by simp), if_neg hp, if_neg hq, if_neg hopen,
        if_pos hclose]
      exact ih (by simp only [List.length_cons] at hm; omega)
  | case7 p s br n hp hq hopen hclose hend =>
      rw [List.cons_append, regexLength?_cons p (by simp), if_neg hp, if_neg hq, if_neg hopen,
        if_neg hclose, if_pos hend]
  | case8 p s br n hp hq hopen hclose hend ih =>
      rw [List.cons_append, regexLength?_cons p (by simp), if_neg hp, if_neg hq, if_neg hopen,
        if_neg hclose, if_neg hend]
      exact ih (by simp only [List.length_cons] at hm; omega)

theorem regexLength?_of_endsLine {rest : Bytes} (h : EndsLine rest) (bracketed : Bool) (n : Nat) :
    regexLength? rest bracketed n = none := by
  rcases h with rfl | h
  · rfl
  · obtain ⟨s, rfl⟩ := List.head?_eq_some_iff.mp h
    cases s with
    | nil => rfl
    | cons c s => rfl

/-- The search gives up at a line break, brackets are opened by a bracket, and only a backslash
escapes. -/
theorem regexFront_spec (a : Bytes) (bracketed : Bool) (n : Nat) :
    (regexFront a bracketed n = .ended none → Bytes.newline ∈ a) ∧
      (regexFront a bracketed n = .inside true → bracketed = true ∨ '['.toUInt8 ∈ a) ∧
      (∀ open?, regexFront a bracketed n = .escaping open? →
        a.getLast? = some Bytes.backslash) := by
  have hlast : ∀ {p : UInt8} {s : Bytes}, s.getLast? = some Bytes.backslash →
      (p :: s).getLast? = some Bytes.backslash := by
    intro p s h
    cases s with
    | nil => cases h
    | cons c s => exact h
  fun_induction regexFront a bracketed n with
  | case1 br n => exact ⟨nofun, fun h => .inl (RegexFront.inside.inj h), nofun⟩
  | case2 p s br n hp => exact ⟨fun _ => by simp [beq_iff_eq.mp hp], nofun, nofun⟩
  | case3 p br n hp hq =>
      refine ⟨nofun, nofun, fun _ _ => ?_⟩
      rw [beq_iff_eq.mp hq]
      rfl
  | case4 p br n hp hq c s ih =>
      obtain ⟨hended, hinside, hescaping⟩ := ih
      exact ⟨fun h => by simp [hended h], fun h => (hinside h).imp_right (by simp_all),
        fun e h => hlast (hlast (hescaping e h))⟩
  | case5 p s br n hp hq hopen ih =>
      obtain ⟨hended, hinside, hescaping⟩ := ih
      exact ⟨fun h => by simp [hended h], fun _ => .inr (by simp [beq_iff_eq.mp hopen]),
        fun e h => hlast (hescaping e h)⟩
  | case6 p s br n hp hq hopen hclose ih =>
      obtain ⟨hended, hinside, hescaping⟩ := ih
      exact ⟨fun h => by simp [hended h],
        fun h => .inr (List.mem_cons_of_mem p ((hinside h).resolve_left nofun)),
        fun e h => hlast (hescaping e h)⟩
  | case7 => exact ⟨nofun, nofun, nofun⟩
  | case8 p s br n hp hq hopen hclose hend ih =>
      obtain ⟨hended, hinside, hescaping⟩ := ih
      exact ⟨fun h => by simp [hended h], fun h => (hinside h).imp_right (List.mem_cons_of_mem p),
        fun e h => hlast (hescaping e h)⟩

theorem le_of_regexFront_ended {a : Bytes} {bracketed : Bool} {n m : Nat}
    (h : regexFront a bracketed n = .ended (some m)) : m ≤ n + a.length := by
  fun_induction regexFront a bracketed n <;> grind

/-- A regular expression that ends in a front does so whatever follows the front. -/
theorem regexLength?_front {a : Bytes} {bracketed : Bool} {n m : Nat} {b c : UInt8} {x y : Bytes}
    (h : regexLength? (a ++ b :: x) bracketed n = some m) (hm : m ≤ n + a.length) :
    regexLength? (a ++ c :: y) bracketed n = some m := by
  rw [regexLength?_append a bracketed n b x rfl] at h
  rw [regexLength?_append a bracketed n c y rfl]
  cases hfront : regexFront a bracketed n with
  | ended result =>
      rw [hfront] at h
      exact h
  | inside bracketed =>
      rw [hfront] at h
      obtain ⟨text, rest, -, -, rfl⟩ := regexLength?_spec h
      omega
  | escaping bracketed =>
      rw [hfront] at h
      obtain ⟨text, rest, -, -, rfl⟩ := regexLength?_spec h
      omega

end Lexeme

/-! ### Names in tags -/

namespace Lexer

theorem StartsName.le {s : Bytes} {n : Nat} (h : StartsName s n) : n ≤ s.length := by
  have hle := Lexeme.nameLength_le (s.drop (Utf8.decode s).2) (Utf8.decode s).2
  rw [h.length, List.length_drop, Nat.add_sub_cancel' (Utf8.decode_size_le s)] at hle
  exact hle

/-- A name in a tag ends before a parting byte. -/
theorem startsName_append {b : UInt8} (hb : Bytes.IsParting b) {p : UInt8} {a x : Bytes}
    {n : Nat} :
    StartsName (p :: (a ++ b :: x)) n ↔ StartsName (p :: a) n := by
  have hdecode : Utf8.decode (p :: (a ++ b :: x)) = Utf8.decode (p :: a) :=
    Utf8.decode_append_ascii (List.cons_ne_nil p a) hb.ascii x
  have hdrop : (p :: (a ++ b :: x)).drop (Utf8.decode (p :: a)).2 =
      (p :: a).drop (Utf8.decode (p :: a)).2 ++ b :: x := by
    rw [← List.cons_append, List.drop_append_of_le_length (Utf8.decode_size_le (p :: a))]
  constructor
  · rintro ⟨hstart, hlength⟩
    rw [hdecode, hdrop, Lexeme.nameLength_append hb] at hlength
    exact ⟨hdecode ▸ hstart, hlength⟩
  · rintro ⟨hstart, hlength⟩
    refine ⟨hdecode ▸ hstart, ?_⟩
    rw [hdecode, hdrop, Lexeme.nameLength_append hb, hlength]

end Lexer
end UnusedImports

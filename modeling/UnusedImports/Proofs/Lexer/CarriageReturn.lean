import UnusedImports.Proofs.Lexer.Exchange
import UnusedImports.Proofs.Lexer.Element

/-! With a carriage return before each line break the scan of a lexeme stops at the same place, but
for quoted literals and regular expressions that a line break would end. -/

namespace UnusedImports

namespace Bytes

/-! ### Carriage returns before line breaks -/

/-- A text with a carriage return before each line break. -/
def crlf (s : Bytes) : Bytes :=
  s.flatMap fun b => if b == newline then [carriageReturn, newline] else [b]

@[simp] theorem crlf_nil : crlf [] = [] := rfl

@[simp] theorem crlf_newline (s : Bytes) :
    crlf (newline :: s) = carriageReturn :: newline :: crlf s := rfl

theorem crlf_cons {b : UInt8} (hb : b ≠ newline) (s : Bytes) : crlf (b :: s) = b :: crlf s := by
  simp [crlf, hb]

theorem crlf_append (s t : Bytes) : crlf (s ++ t) = crlf s ++ crlf t := List.flatMap_append

theorem crlf_of_notMem {s : Bytes} (h : newline ∉ s) : crlf s = s := by
  induction s with
  | nil => rfl
  | cons b s ih =>
      rw [List.mem_cons, not_or] at h
      rw [crlf_cons (Ne.symm h.1), ih h.2]

@[simp] theorem crlf_eq_nil {s : Bytes} : crlf s = [] ↔ s = [] := by
  cases s with
  | nil => simp
  | cons b s =>
      by_cases hb : b = newline
      · simp [hb]
      · simp [crlf_cons hb]

/-- Carriage returns change nothing in front of the first line break. -/
theorem crlf_cases (s : Bytes) :
    (newline ∉ s ∧ crlf s = s) ∨ ∃ a z, newline ∉ a ∧ s = a ++ newline :: z ∧
      crlf s = a ++ carriageReturn :: newline :: crlf z := by
  by_cases h : newline ∈ s
  · obtain ⟨a, z, rfl, ha⟩ := List.eq_append_cons_of_mem h
    exact .inr ⟨a, z, ha, rfl, by rw [crlf_append, crlf_of_notMem ha, crlf_newline]⟩
  · exact .inl ⟨h, crlf_of_notMem h⟩

theorem take_crlf (s : Bytes) (k : Nat) :
    (crlf s).take (crlf (s.take k)).length = crlf (s.take k) := by
  have h := crlf_append (s.take k) (s.drop k)
  rw [List.take_append_drop] at h
  rw [h, List.take_left]

theorem drop_crlf (s : Bytes) (k : Nat) :
    (crlf s).drop (crlf (s.take k)).length = crlf (s.drop k) := by
  have h := crlf_append (s.take k) (s.drop k)
  rw [List.take_append_drop] at h
  rw [h, List.drop_left]

/-- A front with no line break in it has the same length with carriage returns. -/
theorem take_crlf_of_notMem {s : Bytes} {k : Nat} (h : newline ∉ s.take k) :
    (crlf s).take k = s.take k ∧ (crlf s).drop k = crlf (s.drop k) := by
  have htake := take_crlf s k
  have hdrop := drop_crlf s k
  rw [crlf_of_notMem h, List.length_take] at htake hdrop
  rcases Nat.le_total k s.length with hle | hle
  · rw [Nat.min_eq_left hle] at htake hdrop
    exact ⟨htake, hdrop⟩
  · rw [List.take_of_length_le hle] at h
    rw [crlf_of_notMem h, List.drop_eq_nil_of_le hle]
    exact ⟨rfl, rfl⟩

/-- Neither byte of a line ending passes a test that the first byte of a text passes. -/
theorem head?_any_crlf {p : UInt8 → Bool} (hreturn : p carriageReturn = false)
    (hbreak : p newline = false) (s : Bytes) : (crlf s).head?.any p = s.head?.any p := by
  cases s with
  | nil => rfl
  | cons b s =>
      by_cases hb : b = newline
      · subst hb
        simp [hreturn, hbreak]
      · rw [crlf_cons hb]
        rfl

theorem head?_crlf {b : UInt8} (hreturn : b ≠ carriageReturn) (hbreak : b ≠ newline) (s : Bytes) :
    ((crlf s).head? == some b) = (s.head? == some b) := by
  have h := head?_any_crlf (p := (· == b)) (beq_eq_false_iff_ne.mpr (Ne.symm hreturn))
    (beq_eq_false_iff_ne.mpr (Ne.symm hbreak)) s
  have hany : ∀ o : Option UInt8, o.any (· == b) = (o == some b) := by
    rintro (_ | c) <;> rfl
  rwa [hany, hany] at h

theorem getLast?_crlf (s : Bytes) : (crlf s).getLast? = s.getLast? := by
  obtain rfl | ⟨a, b, rfl⟩ := List.eq_nil_or_concat s
  · rfl
  · rw [List.concat_eq_append, crlf_append, List.getLast?_append]
    by_cases hb : b = newline
    · subst hb
      simp
    · simp [crlf_cons hb]

/-- Where a text without line endings occurs, it lies in one line. -/
theorem infix_crlf {part : Bytes} (hpart : part ≠ []) (hreturn : carriageReturn ∉ part)
    (hbreak : newline ∉ part) (s : Bytes) : part <:+: crlf s ↔ part <:+: s := by
  have hempty : ¬ part <:+: [] := fun h => hpart (List.infix_nil.mp h)
  rcases crlf_cases s with ⟨-, heq⟩ | ⟨a, z, -, hs, heq⟩
  · rw [heq]
  · have hlt : z.length < s.length := by
      rw [hs, List.length_append, List.length_cons]
      omega
    have hline := infix_append_cons hbreak [] (crlf z)
    rw [List.nil_append, or_iff_right hempty] at hline
    rw [heq, hs, infix_append_cons hreturn, infix_append_cons hbreak, hline,
      infix_crlf hpart hreturn hbreak z]
termination_by s.length

end Bytes

open Bytes

/-! ### Lexemes that lie in one line -/

namespace Utf8

theorem decode_crlf {b : UInt8} (hb : b ≠ newline) (s : Bytes) :
    decode (b :: crlf s) = decode (b :: s) ∧ newline ∉ (b :: s).take (decode (b :: s)).2 := by
  rcases crlf_cases s with ⟨hs, heq⟩ | ⟨a, z, ha, hs, heq⟩
  · rw [heq]
    refine ⟨rfl, fun hmem => ?_⟩
    rcases List.mem_cons.mp (List.mem_of_mem_take hmem) with rfl | hmem
    · exact hb rfl
    · exact hs hmem
  · have hfront : ∀ {c : UInt8} {y : Bytes}, c < 0x80 →
        decode (b :: (a ++ c :: y)) = decode (b :: a) := fun hc =>
      decode_append_ascii (List.cons_ne_nil b a) hc _
    rw [heq, hs, hfront (by decide), hfront (by decide)]
    refine ⟨rfl, fun hmem => ?_⟩
    rw [← List.cons_append, List.take_append_of_le_length (decode_size_le (b :: a))] at hmem
    rcases List.mem_cons.mp (List.mem_of_mem_take hmem) with rfl | hmem
    · exact hb rfl
    · exact ha hmem

/-- Neither byte of a line ending starts an identifier. -/
theorem isStart_decode_crlf (s : Bytes) :
    Identifier.isStart (decode (crlf s)).1 = Identifier.isStart (decode s).1 := by
  cases s with
  | nil => rfl
  | cons b s =>
      by_cases hb : b = newline
      · subst hb
        rw [crlf_newline, decode_ascii (by decide), decode_ascii (by decide)]
        decide
      · rw [crlf_cons hb, (decode_crlf hb s).1]

end Utf8

namespace Lexeme

theorem isParting_return : IsParting carriageReturn := .inr (.inr (.inr rfl))

theorem isParting_newline : IsParting newline := .inr (.inr (.inl rfl))

/-- What is in a line is not changed by what follows the line. -/
theorem nameLength_crlf {b : UInt8} (hb : b ≠ newline) (s : Bytes) (d : Nat)
    (hd : d = (Utf8.decode (b :: s)).2) :
    nameLength ((b :: crlf s).drop d) d = nameLength ((b :: s).drop d) d ∧
      newline ∉ (b :: s).take (nameLength ((b :: s).drop d) d) := by
  have hcons : ∀ {t : Bytes}, newline ∉ t → newline ∉ b :: t := fun ht hmem =>
    (List.mem_cons.mp hmem).elim (fun h => hb h.symm) ht
  rcases crlf_cases s with ⟨hs, heq⟩ | ⟨a, z, ha, hs, heq⟩
  · rw [heq]
    exact ⟨rfl, fun hmem => hcons hs (List.mem_of_mem_take hmem)⟩
  · have hsize : d ≤ (b :: a).length := by
      rw [hd, hs, ← List.cons_append, Utf8.decode_append_ascii (List.cons_ne_nil b a) (by decide)]
      exact Utf8.decode_size_le (b :: a)
    have hdrop : ∀ y : Bytes, (b :: (a ++ y)).drop d = (b :: a).drop d ++ y := fun y => by
      rw [← List.cons_append, List.drop_append_of_le_length hsize]
    rw [heq, hs, hdrop, hdrop, nameLength_append isParting_return,
      nameLength_append isParting_newline]
    refine ⟨rfl, fun hmem => ?_⟩
    have hle := nameLength_le ((b :: a).drop d) d
    rw [List.length_drop] at hle
    rw [← List.cons_append, List.take_append_of_le_length (by omega)] at hmem
    exact hcons ha (List.mem_of_mem_take hmem)

theorem wordLength_crlf (s : Bytes) (n : Nat) :
    wordLength (crlf s) n = wordLength s n ∧ newline ∉ s.take (wordLength s n - n) := by
  rcases crlf_cases s with ⟨hs, heq⟩ | ⟨a, z, ha, hs, heq⟩
  · rw [heq]
    exact ⟨rfl, fun hmem => hs (List.mem_of_mem_take hmem)⟩
  · have hle := wordLength_le a n
    rw [heq, hs, wordLength_append isParting_return, wordLength_append isParting_newline,
      List.take_append_of_le_length (by omega)]
    exact ⟨rfl, fun hmem => ha (List.mem_of_mem_take hmem)⟩

/-! ### Literals -/

/-- A line break behind a backslash. -/
def Continues (text : Bytes) : Prop := [backslash, newline] <:+: text

/-- What is read of a quoted literal has so many bytes, and as many with carriage returns, apart
from one that it takes along at the end of its line; or a line break of it stands behind a
backslash. -/
def QuotedAlike (quote : UInt8) (s : Bytes) (m k : Nat) : Prop :=
  Continues (s.take k) ∨ newline ∉ s.take k ∧
    (stringLength quote (crlf s) m = m + k ∨
      ∃ z, s.drop k = newline :: z ∧ stringLength quote (crlf s) m = m + k + 1)

/-- Bytes of one line that are passed over. -/
theorem QuotedAlike.pass {quote : UInt8} {front s : Bytes} {m k : Nat}
    (h : QuotedAlike quote s (m + front.length) k) (hfront : newline ∉ front)
    (hstep : stringLength quote (crlf (front ++ s)) m =
      stringLength quote (crlf s) (m + front.length)) :
    QuotedAlike quote (front ++ s) m (front.length + k) := by
  unfold QuotedAlike
  rw [hstep, List.take_length_add_append, List.drop_length_add_append]
  rcases h with hin | ⟨hline, hend⟩
  · exact .inl (hin.trans (List.suffix_append front _).isInfix)
  · refine .inr ⟨fun hmem => (List.mem_append.mp hmem).elim hfront hline, ?_⟩
    rcases hend with heq | ⟨z, hz, heq⟩
    · exact .inl (by omega)
    · exact .inr ⟨z, hz, by omega⟩

/-- A line ending ends a literal. -/
theorem stringLength_return {quote : UInt8} (hquote : IsQuote quote) (z : Bytes) (m : Nat) :
    stringLength quote (carriageReturn :: newline :: z) m = m + 1 := by
  have hbreak : (newline == quote) = false := by
    rcases hquote with rfl | rfl <;> decide
  have hreturn : (carriageReturn == quote) = false := by
    rcases hquote with rfl | rfl <;> decide
  rw [stringLength_cons _ (List.cons_ne_nil _ _), if_neg (by decide), if_neg (by simp [hreturn]),
    if_neg (by decide)]
  cases z with
  | nil => rfl
  | cons c z =>
      rw [stringLength_cons _ (List.cons_ne_nil _ _), if_neg (by decide),
        if_neg (by simp [hbreak]), if_pos (by rfl)]

/-- A quoted literal that is not closed takes the carriage return at the end of its line along. -/
theorem stringLength_crlf {quote : UInt8} (hquote : IsQuote quote) (s : Bytes) (n m : Nat) :
    ∃ k, stringLength quote s n = n + k ∧ QuotedAlike quote s m k := by
  fun_induction stringLength quote s n generalizing m with
  | case1 n => exact ⟨0, rfl, .inr ⟨by simp, .inl rfl⟩⟩
  | case2 b n hb =>
      obtain rfl := beq_iff_eq.mp hb
      exact ⟨0, rfl, .inr ⟨by simp, .inr ⟨[], rfl, stringLength_return hquote [] m⟩⟩⟩
  | case3 b n hb =>
      have hb : b ≠ newline := by simpa using hb
      refine ⟨1, rfl, .inr ⟨by simpa using Ne.symm hb, .inl ?_⟩⟩
      rw [crlf_cons hb, crlf_nil, stringLength, if_neg (by simpa using hb)]
  | case4 b c s n hb ih =>
      obtain rfl := beq_iff_eq.mp hb
      obtain ⟨k, hk, halike⟩ := ih (m + 2)
      by_cases hc : c = newline
      · subst hc
        exact ⟨k + 2, by omega, .inl ⟨[], s.take k, rfl⟩⟩
      · have hfront : newline ∉ [backslash, c] := by
          simp only [List.mem_cons, List.not_mem_nil, or_false, not_or]
          exact ⟨by decide, Ne.symm hc⟩
        have hstep : stringLength quote (crlf ([backslash, c] ++ s)) m =
            stringLength quote (crlf s) (m + 2) := by
          rw [List.cons_append, List.singleton_append, crlf_cons (by decide), crlf_cons hc,
            stringLength_cons _ (List.cons_ne_nil _ _), if_pos (by rfl), List.tail_cons]
        exact ⟨2 + k, by omega, halike.pass hfront hstep⟩
  | case5 b c s n hb hq =>
      obtain rfl := beq_iff_eq.mp hq
      have hne : b ≠ newline := by
        rintro rfl
        rcases hquote with hquote | hquote <;> exact absurd hquote (by decide)
      refine ⟨1, rfl, .inr ⟨by simpa using Ne.symm hne, .inl ?_⟩⟩
      rw [crlf_cons hne, stringLength_cons _ (by simp), if_neg hb, if_pos hq]
  | case6 b c s n hb hq hn =>
      obtain rfl := beq_iff_eq.mp hn
      exact ⟨0, rfl, .inr ⟨by simp, .inr ⟨c :: s, rfl, stringLength_return hquote _ m⟩⟩⟩
  | case7 b c s n hb hq hn ih =>
      have hne : b ≠ newline := by simpa using hn
      obtain ⟨k, hk, halike⟩ := ih (m + 1)
      have hstep : stringLength quote (crlf ([b] ++ c :: s)) m =
          stringLength quote (crlf (c :: s)) (m + 1) := by
        rw [List.singleton_append, crlf_cons hne, stringLength_cons _ (by simp), if_neg hb,
          if_neg hq, if_neg hn]
      exact ⟨1 + k, by omega, halike.pass (by simpa using Ne.symm hne) hstep⟩

/-- The search for the end of a regular expression gives up at a line ending, even behind a
backslash. -/
theorem regexLength?_return (a : Bytes) (bracketed : Bool) (n : Nat) (y : Bytes) :
    regexLength? (a ++ carriageReturn :: newline :: y) bracketed n =
      match regexFront a bracketed n with
      | .ended result => result
      | _ => none := by
  have hnone : ∀ open? m, regexLength? (newline :: y) open? m = none := fun open? m =>
    regexLength?_of_endsLine (.inr rfl) open? m
  rw [regexLength?_append a bracketed n _ _ rfl]
  cases regexFront a bracketed n with
  | ended result => rfl
  | inside open? =>
      have hslash : (carriageReturn == slash && !open?) = false := rfl
      dsimp only
      rw [regexLength?_cons _ (List.cons_ne_nil _ _), hslash]
      exact hnone open? _
  | escaping open? => exact hnone open? _

/-- A regular expression stays the same unless it goes over a line break behind a backslash. -/
theorem regexLength?_crlf (s : Bytes) :
    (regexLength? (crlf s) false 1 = regexLength? s false 1 ∧
        ∀ k, regexLength? s false 1 = some (k + 1) → newline ∉ s.take k) ∨
      ∃ k, regexLength? s false 1 = some (k + 1) ∧ Continues (s.take k) := by
  rcases crlf_cases s with ⟨hs, heq⟩ | ⟨a, z, ha, hs, heq⟩
  · rw [heq]
    exact .inl ⟨rfl, fun k _ hmem => hs (List.mem_of_mem_take hmem)⟩
  · rw [heq, hs, regexLength?_return, regexLength?_append a false 1 _ _ rfl]
    cases hfront : regexFront a false 1 with
    | ended result =>
        refine .inl ⟨rfl, fun k hk hmem => ?_⟩
        obtain rfl : result = some (k + 1) := hk
        have hle := le_of_regexFront_ended hfront
        rw [List.take_append_of_le_length (by omega)] at hmem
        exact ha (List.mem_of_mem_take hmem)
    | inside open? =>
        dsimp only
        rw [regexLength?_of_endsLine (.inr rfl)]
        exact .inl ⟨rfl, nofun⟩
    | escaping open? =>
        dsimp only
        cases hrest : regexLength? z open? (1 + a.length + 1) with
        | none => exact .inl ⟨rfl, nofun⟩
        | some m =>
            obtain ⟨k, rfl⟩ := Nat.exists_eq_add_of_le' (le_of_regexLength? hrest)
            obtain ⟨-, -, hlast⟩ := regexFront_spec a false 1
            obtain ⟨b, rfl⟩ := List.getLast?_eq_some_iff.mp (hlast _ hfront)
            refine .inr ⟨_, congrArg some (Nat.add_assoc k _ 1).symm, b, z.take k, ?_⟩
            have hescape : b ++ [backslash] ++ newline :: z = b ++ [backslash, newline] ++ z := by
              simp
            have hlength : k + (1 + (b ++ [backslash]).length) =
                (b ++ [backslash, newline]).length + k := by
              simp only [List.length_append, List.length_cons, List.length_nil]
              omega
            rw [hlength, hescape, List.take_length_add_append]

/-! ### Lexemes of several lines -/

/-- A lexeme has the same end with carriage returns: it takes along those of the line breaks that it
had, and no other. -/
def EndsAlike (length : Bytes → Nat → Nat) (s : Bytes) : Prop :=
  ∀ n m, ∃ k ≤ s.length, length s n = n + k ∧
    length (crlf s) m = m + (crlf (s.take k)).length

namespace EndsAlike

variable {length : Bytes → Nat → Nat} {a z : Bytes}

/-- The lexeme goes over a front. -/
theorem append (h : EndsAlike length z) (hover : ∀ n, length (a ++ z) n = length z (n + a.length))
    (hreturns : ∀ n, length (crlf a ++ crlf z) n = length (crlf z) (n + (crlf a).length)) :
    EndsAlike length (a ++ z) := by
  intro n m
  obtain ⟨k, hle, hk, hspec⟩ := h (n + a.length) (m + (crlf a).length)
  refine ⟨a.length + k, by simpa using hle, by rw [hover, hk, Nat.add_assoc], ?_⟩
  rw [crlf_append, hreturns, hspec, List.take_length_add_append, crlf_append, List.length_append,
    Nat.add_assoc]

/-- The lexeme is a front. -/
theorem stop (hover : ∀ n, length (a ++ z) n = n + a.length)
    (hreturns : ∀ n, length (crlf a ++ crlf z) n = n + (crlf a).length) :
    EndsAlike length (a ++ z) := fun n m =>
  ⟨a.length, by simp, hover n, by rw [crlf_append, hreturns, List.take_left]⟩

/-- The lexeme goes over a byte, whether that is a line break or not. -/
theorem cons {b : UInt8} {s : Bytes} (h : EndsAlike length s)
    (hover : ∀ n, length (b :: s) n = length s (n + 1))
    (hother : b ≠ newline → ∀ n, length (b :: crlf s) n = length (crlf s) (n + 1))
    (hbreak : b = newline →
      ∀ n, length (carriageReturn :: newline :: crlf s) n = length (crlf s) (n + 2)) :
    EndsAlike length (b :: s) := by
  refine h.append (a := [b]) hover fun n => ?_
  by_cases hb : b = newline
  · subst hb
    exact hbreak rfl n
  · rw [crlf_cons hb]
    exact hother hb n

end EndsAlike

/-- A piece of a template has the same end with carriage returns, and ends in the same way. -/
def PieceAlike (s : Bytes) : Prop :=
  EndsAlike (fun s n => (templateLength s n).1) s ∧
    ∀ n m, (templateLength (crlf s) m).2 = (templateLength s n).2

namespace PieceAlike

variable {a z : Bytes}

theorem append (h : PieceAlike z)
    (hover : ∀ n, templateLength (a ++ z) n = templateLength z (n + a.length))
    (hreturns : ∀ n, templateLength (crlf a ++ crlf z) n =
      templateLength (crlf z) (n + (crlf a).length)) : PieceAlike (a ++ z) := by
  refine ⟨h.1.append (fun n => congrArg Prod.fst (hover n))
    (fun n => congrArg Prod.fst (hreturns n)), fun n m => ?_⟩
  rw [crlf_append, hreturns, hover]
  exact h.2 _ _

theorem stop {ending : TemplateEnd}
    (hover : ∀ n, templateLength (a ++ z) n = (n + a.length, ending))
    (hreturns : ∀ n, templateLength (crlf a ++ crlf z) n = (n + (crlf a).length, ending)) :
    PieceAlike (a ++ z) := by
  refine ⟨.stop (fun n => congrArg Prod.fst (hover n)) (fun n => congrArg Prod.fst (hreturns n)),
    fun n m => ?_⟩
  rw [crlf_append, hreturns, hover]

/-- A backslash and what stands behind it, be that a carriage return. -/
theorem escape (h : PieceAlike z) (c : UInt8) : PieceAlike (backslash :: c :: z) := by
  have hpair : ∀ c y n, templateLength (backslash :: c :: y) n = templateLength y (n + 2) :=
    fun _ _ _ => rfl
  refine h.append (a := [backslash, c]) (hpair c z) fun n => ?_
  rw [crlf_cons (by decide)]
  by_cases hc : c = newline
  · subst hc
    exact (hpair _ _ n).trans (templateLength_parting isParting_newline _ _)
  · rw [crlf_cons hc]
    exact hpair c _ n

/-- A byte that nothing starts with. -/
theorem cons (h : PieceAlike z) {b : UInt8} (hescape : b ≠ backslash) (hclose : b ≠ backtick)
    (hopen : ¬ (b = '$'.toUInt8 ∧ z.head? = some openBrace)) : PieceAlike (b :: z) := by
  have hover : ∀ y n, (y.head? == some openBrace) = (z.head? == some openBrace) →
      templateLength (b :: y) n = templateLength y (n + 1) := by
    intro y n hy
    cases y with
    | nil => simp [templateLength, hclose]
    | cons c y =>
        rw [templateLength_cons _ (List.cons_ne_nil c y), hy, if_neg (by simpa using hescape),
          if_neg (by simpa using hclose), if_neg (by simpa using hopen)]
  refine h.append (a := [b]) (fun n => hover z n rfl) fun n => ?_
  by_cases hb : b = newline
  · subst hb
    exact (templateLength_parting isParting_return _ _).trans
      (templateLength_parting isParting_newline _ _)
  · rw [crlf_cons hb]
    exact hover (crlf z) n (head?_crlf (by decide) (by decide) z)

end PieceAlike

theorem templateLength_crlf (s : Bytes) : PieceAlike s := by
  match s with
  | [] => exact .stop (a := []) (fun _ => rfl) (fun _ => rfl)
  | b :: s =>
      by_cases hescape : b = backslash
      · subst hescape
        match s with
        | [] => exact .stop (a := [backslash]) (z := []) (fun _ => rfl) (fun _ => rfl)
        | c :: s => exact (templateLength_crlf s).escape c
      · by_cases hclose : b = backtick
        · subst hclose
          have hone : ∀ y n, templateLength (backtick :: y) n = (n + 1, .closed) := fun y n => by
            cases y <;> rfl
          exact .stop (a := [backtick]) (hone s) (hone (crlf s))
        · by_cases hopen : b = '$'.toUInt8 ∧ s.head? = some openBrace
          · obtain ⟨rfl, hhead⟩ := hopen
            obtain ⟨s, rfl⟩ := List.head?_eq_some_iff.mp hhead
            exact .stop (a := []) (fun _ => rfl) (fun _ => rfl)
          · exact (templateLength_crlf s).cons hescape hclose hopen

theorem attributeLength_crlf {quote : UInt8} (hquote : IsQuote quote) (s : Bytes) :
    EndsAlike (attributeLength quote) s := by
  have hpass : ∀ {b}, (b == quote) = false → ∀ y n,
      attributeLength quote (b :: y) n = attributeLength quote y (n + 1) := fun hb y n => by
    rw [attributeLength, hb]
    rfl
  have hreturn : (carriageReturn == quote) = false := by
    rcases hquote with rfl | rfl <;> decide
  have hbreak : (newline == quote) = false := by
    rcases hquote with rfl | rfl <;> decide
  induction s with
  | nil => exact .stop (a := []) (fun _ => rfl) (fun _ => rfl)
  | cons b s ih =>
      cases hb : b == quote with
      | true =>
          obtain rfl := beq_iff_eq.mp hb
          have hone : ∀ y n, attributeLength b (b :: y) n = n + 1 := fun y n => by
            rw [attributeLength, if_pos hb]
          have hline : b ≠ newline := by
            rintro rfl
            cases hbreak
          have hsame : crlf [b] = [b] := crlf_cons hline []
          refine .stop (a := [b]) (hone s) fun n => ?_
          rw [hsame]
          exact hone (crlf s) n
      | false =>
          refine ih.cons (hpass hb s) (fun _ => hpass hb _) fun _ n => ?_
          rw [hpass hreturn, hpass hbreak]

theorem opensTag_crlf (s : Bytes) : opensTag (crlf s) = opensTag s :=
  head?_any_crlf (by decide) (by decide) s

theorem markupLength_crlf (s : Bytes) : EndsAlike markupLength s := by
  induction s with
  | nil => exact .stop (a := []) (fun _ => rfl) (fun _ => rfl)
  | cons b s ih =>
      by_cases hopen : (b == openBrace || (b == '<'.toUInt8 && opensTag s)) = true
      · have hline : b ≠ newline := by
          simp only [Bool.or_eq_true, beq_iff_eq, Bool.and_eq_true] at hopen
          rcases hopen with rfl | ⟨rfl, -⟩ <;> decide
        refine .stop (a := []) (fun n => ?_) (fun n => ?_)
        · rw [List.nil_append, markupLength_cons, if_pos hopen]
          rfl
        · rw [crlf_nil, List.nil_append, crlf_cons hline, markupLength_cons, opensTag_crlf,
            if_pos hopen]
          rfl
      · refine ih.cons (fun n => ?_) (fun _ n => ?_) (fun _ n => ?_)
        · rw [markupLength_cons, if_neg hopen]
        · rw [markupLength_cons, opensTag_crlf, if_neg hopen]
        · rw [markupLength_parting isParting_return, markupLength_parting isParting_newline]

/-! ### Blanks and comments -/

theorem blockLength_crlf (s : Bytes) : EndsAlike blockLength s := by
  have hpass : ∀ {c : UInt8}, c ≠ '*'.toUInt8 → ∀ y n,
      blockLength (c :: y) n = blockLength y (n + 1) := by
    intro c hc y n
    cases y with
    | nil => rfl
    | cons d y => simp [blockLength, hc]
  have hreturn : ∀ y n, blockLength (carriageReturn :: newline :: y) n = blockLength y (n + 2) :=
    fun y n => by rw [hpass (by decide), hpass (by decide)]
  induction s with
  | nil => exact .stop (a := []) (fun _ => rfl) (fun _ => rfl)
  | cons b s ih =>
      by_cases hclose : b = '*'.toUInt8 ∧ s.head? = some slash
      · obtain ⟨rfl, hhead⟩ := hclose
        obtain ⟨s, rfl⟩ := List.head?_eq_some_iff.mp hhead
        exact .stop (a := utf8 "*/") (z := s) (fun _ => rfl) (fun _ => rfl)
      · have hover : ∀ y n, (y.head? == some slash) = (s.head? == some slash) →
            blockLength (b :: y) n = blockLength y (n + 1) := by
          intro y n hy
          cases y with
          | nil => rfl
          | cons c y =>
              rw [blockLength_cons _ (List.cons_ne_nil c y), hy, if_neg]
              simpa using hclose
        exact ih.cons (fun n => hover s n rfl)
          (fun _ n => hover _ n (head?_crlf (by decide) (by decide) s)) fun _ => hreturn _

theorem triviaLength_blankAscii {b : UInt8} (hb : b < 0x80) (hblank : isBlank b.toNat = true)
    (s : Bytes) (n : Nat) : triviaLength (b :: s) n = triviaLength s (n + 1) := by
  have hslash : b ≠ slash := by
    rintro rfl
    exact absurd hblank (by decide)
  rw [triviaLength_cons hslash, Utf8.decode_ascii hb, if_pos hblank]
  rfl

theorem triviaLength_newline (s : Bytes) (n : Nat) :
    triviaLength (newline :: s) n = triviaLength s (n + 1) :=
  triviaLength_blankAscii (by decide) (by decide) s n

theorem triviaLength_return (s : Bytes) (n : Nat) :
    triviaLength (carriageReturn :: s) n = triviaLength s (n + 1) :=
  triviaLength_blankAscii (by decide) (by decide) s n

/-- A line comment and its line break. -/
theorem triviaLength_comment {text : Bytes} (h : newline ∉ text) (z : Bytes) (n : Nat) :
    triviaLength (slash :: slash :: (text ++ newline :: z)) n =
      triviaLength z (n + text.length + 3) := by
  have hline : newline ∉ slash :: text := by
    rw [List.mem_cons, not_or]
    exact ⟨by decide, h⟩
  have hlength : lineLength (slash :: (text ++ newline :: z)) 0 = text.length + 1 := by
    rw [← List.cons_append, lineLength_of_endsLine hline (.inr rfl), List.length_cons, Nat.zero_add]
  rw [triviaLength_line, hlength, List.drop_succ_cons, List.drop_left, triviaLength_newline]
  congr 1
  omega

/-- A line comment that ends with the text. -/
theorem triviaLength_lastComment {text : Bytes} (h : newline ∉ text) (n : Nat) :
    triviaLength (slash :: slash :: text) n = n + (slash :: slash :: text).length := by
  have hline : newline ∉ slash :: text := by
    rw [List.mem_cons, not_or]
    exact ⟨by decide, h⟩
  have hlength : lineLength (slash :: text) 0 = text.length + 1 := by
    rw [← List.append_nil (slash :: text), lineLength_of_endsLine hline (.inl rfl),
      List.length_cons, Nat.zero_add]
  rw [triviaLength_line, hlength, List.drop_succ_cons, List.drop_length, triviaLength]
  simp only [List.length_cons]
  omega

section

variable {s : Bytes}

theorem crlf_slash (s : Bytes) : crlf (slash :: s) = slash :: crlf s := crlf_cons (by decide) s

/-- A line comment takes along the carriage return of its line, and the line break is a blank. -/
theorem triviaLength_crlf_line
    (h : ∀ z : Bytes, z.length < s.length → EndsAlike triviaLength z) :
    EndsAlike triviaLength (slash :: slash :: s) := by
  rcases crlf_cases s with ⟨hs, heq⟩ | ⟨a, z, ha, rfl, heq⟩
  · have hlast := triviaLength_lastComment hs
    rw [← List.append_nil (slash :: slash :: s)] at hlast ⊢
    refine .stop (by simpa using hlast) fun n => ?_
    rw [crlf_slash, crlf_slash, heq]
    simpa using hlast n
  · have hsplit : slash :: slash :: (a ++ newline :: z) =
        (slash :: slash :: (a ++ [newline])) ++ z := by simp
    rw [hsplit]
    refine (h z (by simp; omega)).append (fun n => ?_) (fun n => ?_)
    · rw [← hsplit, triviaLength_comment ha, Nat.add_assoc]
      simp
    · have hreturn : newline ∉ a ++ [carriageReturn] := by
        rw [List.mem_append, not_or]
        exact ⟨ha, by decide⟩
      have hcomment := triviaLength_comment hreturn (crlf z) n
      rw [Nat.add_assoc] at hcomment
      rw [crlf_slash, crlf_slash, crlf_append, crlf_of_notMem ha]
      simpa using hcomment

theorem triviaLength_crlf_block
    (h : ∀ z : Bytes, z.length ≤ s.length → EndsAlike triviaLength z) :
    EndsAlike triviaLength (slash :: '*'.toUInt8 :: s) := by
  have hstar : ∀ y : Bytes, crlf ('*'.toUInt8 :: y) = '*'.toUInt8 :: crlf y :=
    crlf_cons (by decide)
  obtain ⟨k, hle, hk, hspec⟩ := blockLength_crlf s 1 1
  have hsplit : slash :: '*'.toUInt8 :: s = (slash :: '*'.toUInt8 :: s.take k) ++ s.drop k := by
    rw [List.cons_append, List.cons_append, List.take_append_drop]
  rw [hsplit]
  refine (h (s.drop k) (by simp)).append (fun n => ?_) (fun n => ?_)
  · rw [← hsplit, triviaLength_block, hk, Nat.add_comm 1 k, List.drop_succ_cons]
    congr 1
    simp only [List.length_cons, List.length_take]
    omega
  · rw [← crlf_append, ← hsplit, crlf_slash, hstar, triviaLength_block, hspec, Nat.add_comm 1,
      List.drop_succ_cons, drop_crlf, crlf_slash, hstar]
    congr 1
    simp only [List.length_cons]
    omega

theorem triviaLength_crlf_blank {b : UInt8} (hline : b ≠ newline) (hslash : b ≠ slash)
    (h : ∀ z : Bytes, z.length ≤ s.length → EndsAlike triviaLength z) :
    EndsAlike triviaLength (b :: s) := by
  obtain ⟨hdecode, hfront⟩ := Utf8.decode_crlf hline s
  have hpos := Utf8.decode_size_pos b s
  by_cases hblank : isBlank (Utf8.decode (b :: s)).1 = true
  · have hcount : ((b :: s).take (Utf8.decode (b :: s)).2).length = (Utf8.decode (b :: s)).2 := by
      rw [List.length_take, Nat.min_eq_left (Utf8.decode_size_le (b :: s))]
    have hrest : ((b :: s).drop (Utf8.decode (b :: s)).2).length ≤ s.length := by
      rw [List.length_drop, List.length_cons]
      omega
    rw [← List.take_append_drop (Utf8.decode (b :: s)).2 (b :: s)]
    refine (h _ hrest).append (fun n => ?_) (fun n => ?_)
    · rw [List.take_append_drop, hcount, triviaLength_cons hslash, if_pos hblank,
        List.drop_cons hpos]
    · rw [← crlf_append, List.take_append_drop, crlf_of_notMem hfront, hcount,
        ← (take_crlf_of_notMem hfront).2, crlf_cons hline, triviaLength_cons hslash, hdecode,
        if_pos hblank, List.drop_cons hpos]
  · refine .stop (a := []) (fun n => ?_) (fun n => ?_)
    · rw [List.nil_append, triviaLength_cons hslash, if_neg hblank]
      rfl
    · rw [crlf_nil, List.nil_append, crlf_cons hline, triviaLength_cons hslash, hdecode,
        if_neg hblank]
      rfl

end

theorem triviaLength_crlf (s : Bytes) : EndsAlike triviaLength s := by
  induction hn : s.length using Nat.strongRecOn generalizing s with
  | _ n ih =>
      have hrest : ∀ z : Bytes, z.length < s.length → EndsAlike triviaLength z := fun z hz =>
        ih z.length (hn ▸ hz) z rfl
      cases s with
      | nil =>
          have hnil : ∀ n, triviaLength [] n = n := fun n => by rw [triviaLength]
          exact .stop (a := []) hnil hnil
      | cons b s =>
          have htail : ∀ z : Bytes, z.length ≤ s.length → EndsAlike triviaLength z := fun z hz =>
            hrest z (Nat.lt_succ_of_le hz)
          by_cases hline : b = newline
          · subst hline
            refine (htail s (Nat.le_refl _)).cons (triviaLength_newline s) (absurd rfl)
              fun _ n => ?_
            rw [triviaLength_return, triviaLength_newline]
          · by_cases hslash : b = slash
            · subst hslash
              by_cases hdouble : s.head? = some slash
              · obtain ⟨s, rfl⟩ := List.head?_eq_some_iff.mp hdouble
                exact triviaLength_crlf_line fun z hz =>
                  htail z (Nat.le_succ_of_le (Nat.le_of_lt hz))
              · by_cases hblock : s.head? = some '*'.toUInt8
                · obtain ⟨s, rfl⟩ := List.head?_eq_some_iff.mp hblock
                  exact triviaLength_crlf_block fun z hz => htail z (Nat.le_succ_of_le hz)
                · have hnot : ∀ {c : UInt8}, c ≠ carriageReturn → c ≠ newline →
                      s.head? ≠ some c → (crlf s).head? ≠ some c := fun hreturn hbreak hc => by
                    rw [← beq_eq_false_iff_ne, head?_crlf hreturn hbreak]
                    exact beq_eq_false_iff_ne.mpr hc
                  refine .stop (a := []) (triviaLength_slash hdouble hblock) fun n => ?_
                  rw [crlf_nil, List.nil_append, crlf_slash]
                  exact triviaLength_slash (hnot (by decide) (by decide) hdouble)
                    (hnot (by decide) (by decide) hblock) n
            · exact triviaLength_crlf_blank hline hslash htail

end Lexeme

/-! ### The end of an element -/

namespace Lexer

theorem isTagByte_return : isTagByte carriageReturn = false := by decide

theorem takeWhile_crlf {p : UInt8 → Bool} (hreturn : p carriageReturn = false)
    (hbreak : p newline = false) (s : Bytes) : (crlf s).takeWhile p = s.takeWhile p := by
  rcases crlf_cases s with ⟨-, heq⟩ | ⟨a, z, -, hs, heq⟩
  · rw [heq]
  · rw [heq, hs, takeWhile_stop hreturn, takeWhile_stop hbreak]

theorem dropWhile_crlf {p : UInt8 → Bool} (hreturn : p carriageReturn = false)
    (hbreak : p newline = false) (s : Bytes) : (crlf s).dropWhile p = crlf (s.dropWhile p) := by
  rcases crlf_cases s with ⟨hs, heq⟩ | ⟨a, z, ha, hs, heq⟩
  · have hdrop : newline ∉ s.dropWhile p := fun hmem => hs ((List.dropWhile_suffix p).subset hmem)
    rw [heq, crlf_of_notMem hdrop]
  · have hdrop : newline ∉ a.dropWhile p := fun hmem => ha ((List.dropWhile_suffix p).subset hmem)
    rw [heq, hs, dropWhile_stop hreturn, dropWhile_stop hbreak, crlf_append, crlf_of_notMem hdrop,
      crlf_newline]

theorem closesItself_crlf (s : Bytes) : closesItself (crlf s) = closesItself s := by
  have hmark : ∀ y, crlf ('>'.toUInt8 :: y) = '>'.toUInt8 :: crlf y := crlf_cons (by decide)
  have hmem : ∀ {u : Bytes}, '>'.toUInt8 ∉ u → '>'.toUInt8 ∉ crlf u := by
    intro u hu hin
    obtain ⟨b, hb, hin⟩ := List.mem_flatMap.mp hin
    split at hin
    · exact absurd hin (by decide)
    · exact hu (List.mem_singleton.mp hin ▸ hb)
  by_cases h : '>'.toUInt8 ∈ s
  · obtain ⟨u, v, rfl, hu⟩ := List.eq_append_cons_of_mem h
    rw [crlf_append, hmark, closesItself_cons (hmem hu), closesItself_cons hu, getLast?_crlf]
  · rw [closesItself_of_notMem h, closesItself_of_notMem (hmem h)]

theorem closedLater_crlf (s : Bytes) : closedLater (crlf s) = closedLater s := by
  have hname : (s.takeWhile isTagByte).all isTagByte = true := List.all_takeWhile
  have hreturn := notMem_closingTag hname isTagByte_return (by decide)
  have hbreak := notMem_closingTag hname isTagByte_newline (by decide)
  have hne : closingTag (s.takeWhile isTagByte) ≠ [] := List.ne_nil_of_mem (mem_closingTag _)
  have hsearch : Bytes.contains (closingTag (s.takeWhile isTagByte))
        (crlf (s.dropWhile isTagByte)) =
      Bytes.contains (closingTag (s.takeWhile isTagByte)) (s.dropWhile isTagByte) := by
    rw [Bool.eq_iff_iff, Bytes.contains_iff, Bytes.contains_iff, infix_crlf hne hreturn hbreak]
  rw [closedLater_eq, closedLater_eq, takeWhile_crlf isTagByte_return isTagByte_newline,
    dropWhile_crlf isTagByte_return isTagByte_newline, closesItself_crlf, hsearch]

/-! ### Tokens of code -/

/-- A regular expression, or the slash that starts none. -/
theorem plainLexeme_slash_crlf (s : Bytes) :
    (newline ∉ (slash :: s).take (plainLexeme true slash s).2 ∧
        plainLexeme true slash (crlf s) = plainLexeme true slash s) ∨
      ((plainLexeme true slash s).1 = .regex ∧
        Lexeme.Continues ((slash :: s).take (plainLexeme true slash s).2)) := by
  -- The slash, what is behind it up to and with the closing slash, and the flags.
  have hsplit : ∀ k, ∃ flags, Lexeme.wordLength (s.drop k) (k + 1) = k + 1 + flags ∧
      (slash :: s).take (k + 1 + flags) = slash :: (s.take k ++ (s.drop k).take flags) := by
    intro k
    obtain ⟨flags, hflags⟩ := Nat.exists_eq_add_of_le (Lexeme.le_wordLength (s.drop k) (k + 1))
    exact ⟨flags, hflags, by rw [Nat.add_right_comm, List.take_succ_cons, List.take_add]⟩
  rw [plainLexeme_slash, plainLexeme_slash]
  rcases Lexeme.regexLength?_crlf s with ⟨heq, hline⟩ | ⟨k, hk, hescape⟩
  · rw [heq]
    cases hn : Lexeme.regexLength? s false 1 with
    | none => exact .inl ⟨by simp; decide, rfl⟩
    | some n =>
        obtain ⟨k, rfl⟩ := Nat.exists_eq_add_of_le' (Lexeme.le_of_regexLength? hn)
        obtain ⟨flags, hflags, htake⟩ := hsplit k
        obtain ⟨hword, hname⟩ := Lexeme.wordLength_crlf (s.drop k) (k + 1)
        have hfront := hline k hn
        dsimp only
        rw [List.drop_succ_cons, List.drop_succ_cons, (take_crlf_of_notMem hfront).2, hword]
        rw [hflags, Nat.add_sub_cancel_left] at hname
        rw [hflags, htake, List.mem_cons, List.mem_append, not_or, not_or]
        exact .inl ⟨⟨by decide, hfront, hname⟩, rfl⟩
  · obtain ⟨flags, hflags, htake⟩ := hsplit k
    rw [hk]
    dsimp only
    rw [List.drop_succ_cons, hflags, htake]
    refine .inr ⟨rfl, hescape.trans ?_⟩
    exact (List.prefix_append _ _).isInfix.trans (List.suffix_cons slash _).isInfix

/-- A token of code stays the same, unless it goes over a line break behind a backslash. Only a
quoted literal that is not closed takes a carriage return along. -/
theorem plainLexeme_crlf (operand : Bool) {b : UInt8} (hb : b ≠ newline) (s : Bytes) :
    (newline ∉ (b :: s).take (plainLexeme operand b s).2 ∧
        (plainLexeme operand b (crlf s) = plainLexeme operand b s ∨
          ∃ z, (plainLexeme operand b s).1 = .string ∧ IsQuote b ∧
            (b :: s).drop (plainLexeme operand b s).2 = newline :: z ∧
            plainLexeme operand b (crlf s) = (.string, (plainLexeme operand b s).2 + 1))) ∨
      (((plainLexeme operand b s).1 = .string ∨ (plainLexeme operand b s).1 = .regex) ∧
        Lexeme.Continues ((b :: s).take (plainLexeme operand b s).2)) := by
  have hcons : ∀ {t : Bytes}, newline ∉ t → newline ∉ b :: t := fun ht => by
    rw [List.mem_cons, not_or]
    exact ⟨Ne.symm hb, ht⟩
  by_cases hquote : IsQuote b
  · obtain ⟨k, hk, hspec⟩ := Lexeme.stringLength_crlf hquote s 1 1
    rw [plainLexeme_quote operand hquote, plainLexeme_quote operand hquote, hk, Nat.add_comm 1,
      List.take_succ_cons, List.drop_succ_cons]
    rcases hspec with hescape | ⟨hline, heq | ⟨z, hz, heq⟩⟩
    · exact .inr ⟨.inl rfl, hescape.trans (List.suffix_cons b _).isInfix⟩
    · exact .inl ⟨hcons hline, .inl (by rw [heq, Nat.add_comm 1])⟩
    · exact .inl ⟨hcons hline, .inr ⟨z, rfl, hquote, hz, by rw [heq, Nat.add_comm 1]⟩⟩
  · cases hslash : b == slash && operand with
    | true =>
        rw [Bool.and_eq_true, beq_iff_eq] at hslash
        obtain ⟨rfl, rfl⟩ := hslash
        exact (plainLexeme_slash_crlf s).imp (And.imp_right .inl) (And.imp_left .inr)
    | false =>
        rcases crlf_cases s with ⟨hs, heq⟩ | ⟨a, z, ha, hs, heq⟩
        · rw [heq]
          exact .inl ⟨fun hmem => hcons hs (List.mem_of_mem_take hmem), .inl rfl⟩
        · have hline := fun x =>
            plainLexeme_append (x := x) Lexeme.isParting_newline hquote hslash a
          have hreturn := fun x =>
            plainLexeme_append (x := x) Lexeme.isParting_return hquote hslash a
          rw [heq, hs, (hline z).1, (hreturn _).1, ← List.cons_append,
            List.take_append_of_le_length (hline z).2]
          exact .inl ⟨fun hmem => hcons ha (List.mem_of_mem_take hmem), .inl rfl⟩

end Lexer

end UnusedImports

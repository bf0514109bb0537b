import UnusedImports.Text.Utf8

/-! The well-formed sequences of several bytes are given as a relation, by the payload of each byte.
-/

namespace UnusedImports.Utf8

/-- The code points that have an encoding of their own: all up to U+10FFFF but the surrogates. -/
def IsScalar (c : Nat) : Prop := c < 0xd800 ∨ (0xdfff < c ∧ c ≤ 0x10ffff)

/-- The sequences of two, three and four bytes and the code points they stand for. The side
conditions leave out overlong forms, surrogates and values above U+10FFFF. -/
inductive Sequence : Bytes → Nat → Prop where
  | two {a b : UInt8} {w x : Nat} (ha : a.toNat = 0xc0 + w) (hb : b.toNat = 0x80 + x)
      (hw : 2 ≤ w ∧ w < 32) (hx : x < 64) : Sequence [a, b] (w * 64 + x)
  | three {a b c : UInt8} {w x y : Nat} (ha : a.toNat = 0xe0 + w) (hb : b.toNat = 0x80 + x)
      (hc : c.toNat = 0x80 + y) (hw : w < 16) (hx : x < 64) (hy : y < 64)
      (hlong : w = 0 → 32 ≤ x) (hscalar : w = 13 → x < 32) :
      Sequence [a, b, c] (w * 4096 + x * 64 + y)
  | four {a b c d : UInt8} {w x y z : Nat} (ha : a.toNat = 0xf0 + w) (hb : b.toNat = 0x80 + x)
      (hc : c.toNat = 0x80 + y) (hd : d.toNat = 0x80 + z) (hw : w ≤ 4) (hx : x < 64)
      (hy : y < 64) (hz : z < 64) (hlong : w = 0 → 16 ≤ x) (hlast : w = 4 → x < 16) :
      Sequence [a, b, c, d] (w * 262144 + x * 4096 + y * 64 + z)

/-! ### Reading -/

theorem isTail_iff (b : UInt8) : isTail b = true ↔ b.toNat = 0x80 + tail b := by
  simp only [isTail, Bool.and_eq_true, decide_eq_true_eq, UInt8.le_iff_toNat_le, tail]
  change 0x80 ≤ b.toNat ∧ b.toNat ≤ 0xbf ↔ _
  omega

theorem tail_lt (b : UInt8) : tail b < 64 := Nat.mod_lt _ (by decide)

theorem isTail_of_toNat {b : UInt8} {x : Nat} (hb : b.toNat = 0x80 + x) (hx : x < 64) :
    isTail b = true ∧ tail b = x := by
  have htail : tail b = x := by
    simp only [tail]
    omega
  exact ⟨(isTail_iff b).mpr (by omega), htail⟩

theorem between_iff (lo hi a : UInt8) :
    (decide (lo ≤ a) && decide (a ≤ hi)) = true ↔ lo.toNat ≤ a.toNat ∧ a.toNat ≤ hi.toNat := by
  simp [UInt8.le_iff_toNat_le]

/-- The second byte is no lower than a bound behind one lead, and no higher than another bound
behind another lead. -/
theorem second_iff (least greatest lo hi a b : UInt8) :
    (a != least || decide (lo ≤ b)) = true ∧ (a != greatest || decide (b ≤ hi)) = true ↔
      (a.toNat = least.toNat → lo.toNat ≤ b.toNat) ∧
        (a.toNat = greatest.toNat → b.toNat ≤ hi.toNat) := by
  simp only [Bool.or_eq_true, bne_iff_ne, decide_eq_true_eq, ne_eq, UInt8.le_iff_toNat_le,
    ← UInt8.toNat_inj, Decidable.imp_iff_not_or]

theorem three_iff (a b c : UInt8) :
    (isTail b && isTail c && (a != 0xe0 || 0xa0 ≤ b) && (a != 0xed || b ≤ 0x9f)) = true ↔
      (b.toNat = 0x80 + tail b ∧ c.toNat = 0x80 + tail c) ∧
        (a.toNat = 0xe0 → 0xa0 ≤ b.toNat) ∧ (a.toNat = 0xed → b.toNat ≤ 0x9f) := by
  rw [Bool.and_eq_true, Bool.and_eq_true, Bool.and_eq_true, and_assoc, isTail_iff, isTail_iff,
    second_iff]
  rfl

theorem four_iff (a b c d : UInt8) :
    (isTail b && isTail c && isTail d && (a != 0xf0 || 0x90 ≤ b) &&
        (a != 0xf4 || b ≤ 0x8f)) = true ↔
      ((b.toNat = 0x80 + tail b ∧ c.toNat = 0x80 + tail c) ∧ d.toNat = 0x80 + tail d) ∧
        (a.toNat = 0xf0 → 0x90 ≤ b.toNat) ∧ (a.toNat = 0xf4 → b.toNat ≤ 0x8f) := by
  rw [Bool.and_eq_true, Bool.and_eq_true, Bool.and_eq_true, Bool.and_eq_true, and_assoc, isTail_iff,
    isTail_iff, isTail_iff, second_iff]
  rfl

/-- What is read as a sequence is one. -/
theorem sequence_of_sequence? {s : Bytes} {c n : Nat} (h : sequence? s = some (c, n)) :
    Sequence (s.take n) c := by
  unfold sequence? at h
  split at h
  case h_2 => contradiction
  case h_1 a b rest =>
    simp only [between_iff, three_iff, four_iff, isTail_iff] at h
    split at h
    · next ha =>
      obtain ⟨hb, h⟩ := Option.ite_none_right_eq_some.mp h
      obtain ⟨rfl, rfl⟩ := Prod.mk.inj (Option.some.inj h)
      change 0xc2 ≤ a.toNat ∧ a.toNat ≤ 0xdf at ha
      exact .two (by omega) hb (by omega) (tail_lt b)
    · split at h
      · next ha =>
        change 0xe0 ≤ a.toNat ∧ a.toNat ≤ 0xef at ha
        cases rest with
        | nil => contradiction
        | cons c rest =>
            obtain ⟨⟨⟨hb, hc⟩, hlong, hscalar⟩, h⟩ := Option.ite_none_right_eq_some.mp h
            obtain ⟨rfl, rfl⟩ := Prod.mk.inj (Option.some.inj h)
            exact .three (by omega) hb hc (by omega) (tail_lt b) (tail_lt c) (by omega) (by omega)
      · obtain ⟨ha, h⟩ := Option.ite_none_right_eq_some.mp h
        change 0xf0 ≤ a.toNat ∧ a.toNat ≤ 0xf4 at ha
        match rest, h with
        | c :: d :: rest, h =>
            obtain ⟨⟨⟨⟨hb, hc⟩, hd⟩, hlong, hlast⟩, h⟩ := Option.ite_none_right_eq_some.mp h
            obtain ⟨rfl, rfl⟩ := Prod.mk.inj (Option.some.inj h)
            exact .four (by omega) hb hc hd (by omega) (tail_lt b) (tail_lt c) (tail_lt d)
              (by omega) (by omega)

/-- A sequence is read as the code point it stands for, whatever follows. -/
theorem sequence?_append {s : Bytes} {c : Nat} (h : Sequence s c) (rest : Bytes) :
    sequence? (s ++ rest) = some (c, s.length) := by
  cases h with
  | @two a b w x ha hb hw hx =>
      have hlead : (0xc2 ≤ a && a ≤ 0xdf) = true := (between_iff _ _ _).mpr (by simp; omega)
      have hb : isTail b = true ∧ tail b = x := isTail_of_toNat hb hx
      simp [sequence?, hlead, hb]
      omega
  | @three a b c w x y ha hb hc hw hx hy hlong hscalar =>
      have hpair : ¬ (0xc2 ≤ a && a ≤ 0xdf) = true := by
        rw [between_iff]
        simp
        omega
      have hlead : (0xe0 ≤ a && a ≤ 0xef) = true := (between_iff _ _ _).mpr (by simp; omega)
      obtain ⟨-, rfl⟩ := isTail_of_toNat hb hx
      obtain ⟨-, rfl⟩ := isTail_of_toNat hc hy
      have htails := (three_iff a b c).mpr ⟨⟨hb, hc⟩, by omega, by omega⟩
      simp only [sequence?, List.cons_append]
      rw [if_neg hpair, if_pos hlead, if_pos htails]
      simp
      omega
  | @four a b c d w x y z ha hb hc hd hw hx hy hz hlong hlast =>
      have hpair : ¬ (0xc2 ≤ a && a ≤ 0xdf) = true := by
        rw [between_iff]
        simp
        omega
      have htriple : ¬ (0xe0 ≤ a && a ≤ 0xef) = true := by
        rw [between_iff]
        simp
        omega
      have hlead : (0xf0 ≤ a && a ≤ 0xf4) = true := (between_iff _ _ _).mpr (by simp; omega)
      obtain ⟨-, rfl⟩ := isTail_of_toNat hb hx
      obtain ⟨-, rfl⟩ := isTail_of_toNat hc hy
      obtain ⟨-, rfl⟩ := isTail_of_toNat hd hz
      have htails := (four_iff a b c d).mpr ⟨⟨⟨hb, hc⟩, hd⟩, by omega, by omega⟩
      simp only [sequence?, List.cons_append]
      rw [if_neg hpair, if_neg htriple, if_pos hlead, if_pos htails]
      simp
      omega

/-! ### Writing -/

theorem ofNat_eq_of_toNat {n : Nat} {b : UInt8} (h : b.toNat = n) : UInt8.ofNat n = b := by
  rw [← h, UInt8.ofNat_toNat]

theorem not_replaced {c : Nat} (h : IsScalar c) :
    ¬ ((0xd800 ≤ c && c ≤ 0xdfff) || 0x10ffff < c) = true := by
  simp [IsScalar] at h ⊢
  omega

theorem isScalar_of_sequence {s : Bytes} {c : Nat} (h : Sequence s c) : IsScalar c := by
  cases h <;> simp only [IsScalar] <;> omega

/-- A sequence is the encoding of its code point. -/
theorem encode_of_sequence {s : Bytes} {c : Nat} (h : Sequence s c) : encode c = s := by
  have hscalar := not_replaced (isScalar_of_sequence h)
  simp only [encode]
  cases h with
  | two ha hb hw hx =>
      rw [if_neg (by omega), if_pos (by omega), ofNat_eq_of_toNat (ha.trans (by omega)),
        ofNat_eq_of_toNat (hb.trans (by omega))]
  | three ha hb hc hw hx hy hlong hlast =>
      rw [if_neg (by omega), if_neg (by omega), if_neg hscalar, if_pos (by omega),
        ofNat_eq_of_toNat (ha.trans (by omega)), ofNat_eq_of_toNat (hb.trans (by omega)),
        ofNat_eq_of_toNat (hc.trans (by omega))]
  | four ha hb hc hd hw hx hy hz hlong hlast =>
      rw [if_neg (by omega), if_neg (by omega), if_neg hscalar, if_neg (by omega),
        ofNat_eq_of_toNat (ha.trans (by omega)), ofNat_eq_of_toNat (hb.trans (by omega)),
        ofNat_eq_of_toNat (hc.trans (by omega)), ofNat_eq_of_toNat (hd.trans (by omega))]

/-- A scalar above ASCII is written as a sequence. -/
theorem sequence_encode {c : Nat} (hc : IsScalar c) (h : 0x80 ≤ c) : Sequence (encode c) c := by
  have hscalar := not_replaced hc
  simp only [IsScalar] at hc
  simp only [encode]
  rw [if_neg (by omega)]
  split
  · have heq : c = c / 64 * 64 + c % 64 := by omega
    conv => arg 2; rw [heq]
    exact .two (by simp; omega) (by simp; omega) (by omega) (by omega)
  · split
    · have heq : c = c / 4096 * 4096 + c / 64 % 64 * 64 + c % 64 := by omega
      conv => arg 2; rw [heq]
      exact .three (by simp; omega) (by simp; omega) (by simp; omega) (by omega) (by omega)
        (by omega) (by omega) (by omega)
    · have heq : c =
          c / 262144 * 262144 + c / 4096 % 64 * 4096 + c / 64 % 64 * 64 + c % 64 := by omega
      conv => arg 2; rw [heq]
      exact .four (by simp; omega) (by simp; omega) (by simp; omega) (by simp; omega) (by omega)
        (by omega) (by omega) (by omega) (by omega) (by omega)

/-! ### Both together -/

/-- The first byte of a sequence is not ASCII. -/
theorem lead_of_sequence {s : Bytes} {c : Nat} (h : Sequence s c) :
    ∃ a tail, s = a :: tail ∧ ¬ a < 0x80 := by
  cases h with
  | @two a b w x ha => exact ⟨a, [b], rfl, by simp [UInt8.lt_iff_toNat_lt]; omega⟩
  | @three a b c w x y ha => exact ⟨a, [b, c], rfl, by simp [UInt8.lt_iff_toNat_lt]; omega⟩
  | @four a b c d w x y z ha => exact ⟨a, [b, c, d], rfl, by simp [UInt8.lt_iff_toNat_lt]; omega⟩

/-- A code point that is read is written as the bytes it was read from, unless it stands for a byte
that encodes nothing. -/
theorem take_decode {s : Bytes} (hs : s ≠ []) (h : (decode s).1 ≠ CodePoint.replacement) :
    s.take (decode s).2 = encode (decode s).1 := by
  cases s with
  | nil => contradiction
  | cons b rest =>
      rw [decode] at h ⊢
      by_cases hb : b < 0x80
      · have hlt : b.toNat < 0x80 := UInt8.lt_iff_toNat_lt.mp hb
        simp [hb, encode, hlt]
      · rw [if_neg hb] at h ⊢
        cases hseq : sequence? (b :: rest) with
        | none => simp [hseq] at h
        | some r =>
            rw [Option.getD_some]
            exact (encode_of_sequence (sequence_of_sequence? hseq)).symm

theorem encode_ne_nil (c : Nat) : encode c ≠ [] := by
  simp only [encode]
  repeat' split
  all_goals exact List.cons_ne_nil _ _

/-- A written scalar is read back, whatever follows. -/
theorem decode_encode_append {c : Nat} (hc : IsScalar c) (rest : Bytes) :
    decode (encode c ++ rest) = (c, (encode c).length) := by
  by_cases h : c < 0x80
  · have hlt : UInt8.ofNat c < 0x80 := by
      simp [UInt8.lt_iff_toNat_lt]
      omega
    simp [encode, h, decode, hlt]
    omega
  · have hseq := sequence_encode hc (by omega)
    have hread := sequence?_append hseq rest
    obtain ⟨a, tail, hs, ha⟩ := lead_of_sequence hseq
    rw [hs] at hread ⊢
    rw [List.cons_append] at hread ⊢
    rw [decode, if_neg ha, hread, Option.getD_some]

/-! ### ASCII bytes -/

variable {a : Bytes} {b : UInt8}

theorem isTail_ascii (hb : b < 0x80) : isTail b = false := by
  simp only [isTail, Bool.and_eq_false_iff, decide_eq_false_iff_not, UInt8.not_le]
  exact .inl hb

theorem sequence?_append_ascii (ha : a ≠ []) (hb : b < 0x80) (x : Bytes) :
    sequence? (a ++ b :: x) = sequence? a := by
  match a, ha with
  | [p], _ =>
      rcases x with _ | ⟨c, _ | ⟨d, x⟩⟩
      all_goals simp [sequence?, isTail_ascii hb]
  | [p, q], _ =>
      cases x with
      | nil => simp [sequence?, isTail_ascii hb]
      | cons c x => simp [sequence?, isTail_ascii hb]
  | [p, q, r], _ => simp [sequence?, isTail_ascii hb]
  | p :: q :: r :: s :: a, _ => simp [sequence?]

/-- No code point goes on in an ASCII byte. -/
theorem decode_append_ascii (ha : a ≠ []) (hb : b < 0x80) (x : Bytes) :
    decode (a ++ b :: x) = decode a := by
  obtain ⟨p, a, rfl⟩ := List.exists_cons_of_ne_nil ha
  have hsequence := sequence?_append_ascii ha hb x
  rw [List.cons_append] at hsequence ⊢
  rw [decode, decode, hsequence]

theorem decode_ascii (hb : b < 0x80) (x : Bytes) : decode (b :: x) = (b.toNat, 1) := by
  rw [decode, if_pos hb]

end UnusedImports.Utf8

import UnusedImports.Proofs.Text.WellFormed

/-! A place of a text splits no code point if none has a part of its encoding on either side. -/

namespace UnusedImports.Utf8

variable {front rest : Bytes} {b : UInt8} {c d : Nat}

/-- An encoding is a byte that continues nothing and bytes that do. -/
theorem exists_lead (hc : IsScalar c) :
    ∃ a tails, encode c = a :: tails ∧ isTail a = false ∧ ∀ b ∈ tails, isTail b = true := by
  have hlead : ∀ {a : UInt8}, 0xc0 ≤ a.toNat → isTail a = false := by
    intro a ha
    rw [← Bool.not_eq_true, isTail_iff, tail]
    omega
  have htail : ∀ {b : UInt8} {x : Nat}, b.toNat = 0x80 + x → x < 64 → isTail b = true :=
    fun hb hx => (isTail_of_toNat hb hx).1
  by_cases h : c < 0x80
  · refine ⟨UInt8.ofNat c, [], by simp [encode, h], isTail_ascii ?_, by simp⟩
    rw [UInt8.lt_iff_toNat_lt, UInt8.toNat_ofNat_of_lt' (Nat.lt_trans h (by decide))]
    exact h
  · generalize encode c = s, sequence_encode hc (Nat.not_lt.mp h) = hseq
    cases hseq with
    | two ha hb _ hx => exact ⟨_, _, rfl, hlead (by omega), by simp [htail hb hx]⟩
    | three ha hb hb' _ hx hy =>
        exact ⟨_, _, rfl, hlead (by omega), by simp [htail hb hx, htail hb' hy]⟩
    | four ha hb hb' hb'' _ hx hy hz =>
        exact ⟨_, _, rfl, hlead (by omega), by simp [htail hb hx, htail hb' hy, htail hb'' hz]⟩

/-- Only an ASCII byte starts the encoding of an ASCII code point. -/
theorem le_of_head_encode (hhead : (encode c).head? = some b) (hb : 0x80 ≤ b) : 0x80 ≤ c := by
  refine Nat.not_lt.mp fun hlt => ?_
  have hencode : encode c = [UInt8.ofNat c] := by simp [encode, hlt]
  rw [hencode] at hhead
  obtain rfl : UInt8.ofNat c = b := Option.some.inj hhead
  rw [UInt8.le_iff_toNat_le, UInt8.toNat_ofNat_of_lt' (Nat.lt_trans hlt (by decide))] at hb
  exact Nat.not_lt.mpr hb hlt

theorem encode_append_inj {s t : Bytes} (hc : IsScalar c) (hd : IsScalar d)
    (h : encode c ++ s = encode d ++ t) : c = d := by
  have hdecode := decode_encode_append hc s
  rw [h, decode_encode_append hd] at hdecode
  exact (Prod.mk.inj hdecode).1.symm

/-- The last byte of a text that continues nothing is where its last encoding starts. -/
theorem eq_of_append_tails {s t x y : Bytes} {a b : UInt8} (h : s ++ a :: x = t ++ b :: y)
    (ha : isTail a = false) (hb : isTail b = false) (hx : ∀ z ∈ x, isTail z = true)
    (hy : ∀ z ∈ y, isTail z = true) : s = t ∧ a :: x = b :: y := by
  rcases List.append_eq_append_iff.mp h with ⟨mid, rfl, hmid⟩ | ⟨mid, rfl, hmid⟩
  · cases mid with
    | nil => exact ⟨by simp, hmid⟩
    | cons z mid =>
        obtain ⟨rfl, rfl⟩ := List.cons.inj hmid
        simp [hx b (by simp)] at hb
  · cases mid with
    | nil => exact ⟨by simp, hmid.symm⟩
    | cons z mid =>
        obtain ⟨rfl, rfl⟩ := List.cons.inj hmid
        simp [hy a (by simp)] at ha

/-! ### Places that split no code point -/

/-- No code point has a part of its encoding in front of a place and the other behind it. -/
def Unsplit (front rest : Bytes) : Prop :=
  ∀ c s t, IsScalar c → encode c = s ++ t → s ≠ [] → t ≠ [] → s <:+ front → ¬ t <+: rest

/-- A code point that begins in front of a place behind an encoding is that of the encoding. -/
theorem eq_of_begins {s t : Bytes} (hc : IsScalar c) (hd : IsScalar d) (hs : s ≠ [])
    (hsplit : encode c = s ++ t) (h : s <:+ front ++ encode d) : c = d ∧ t = [] := by
  obtain ⟨a, x, hencode, ha, hx⟩ := exists_lead hc
  obtain ⟨b, y, hencode', hb, hy⟩ := exists_lead hd
  obtain ⟨e, s, rfl⟩ := List.exists_cons_of_ne_nil hs
  rw [hencode, List.cons_append] at hsplit
  obtain ⟨rfl, rfl⟩ := List.cons.inj hsplit
  obtain ⟨other, hother⟩ := h
  rw [hencode'] at hother
  obtain ⟨-, hsame⟩ := eq_of_append_tails hother ha hb
    (fun z hz => hx z (List.mem_append_left _ hz)) hy
  have hlonger : encode c ++ [] = encode d ++ t := by
    rw [hencode, hencode', ← hsame]
    simp
  have hcd := encode_append_inj hc hd hlonger
  rw [hcd] at hlonger
  exact ⟨hcd, (List.append_cancel_left hlonger).symm⟩

/-- Behind an encoding ends no other code point. -/
theorem eq_of_encode_suffix (hc : IsScalar c) (hd : IsScalar d)
    (h : encode c <:+ front ++ encode d) : c = d :=
  (eq_of_begins hc hd (encode_ne_nil c) (List.append_nil _).symm h).1

theorem unsplit_append_encode (hd : IsScalar d) (front rest : Bytes) :
    Unsplit (front ++ encode d) rest :=
  fun _ _ _ hc hsplit hs ht hbegins _ => ht (eq_of_begins hc hd hs hsplit hbegins).2

theorem unsplit_append_ascii (hb : b < 0x80) (front rest : Bytes) :
    Unsplit (front ++ [b]) rest := by
  obtain ⟨hscalar, hencode⟩ := encode_ascii hb
  rw [← hencode]
  exact unsplit_append_encode hscalar front rest

theorem Unsplit.append_wellFormed {text : Bytes} (h : Unsplit front (text ++ rest))
    (htext : WellFormed text) : Unsplit (front ++ text) rest := by
  obtain ⟨cs, hcs, rfl⟩ := htext
  rcases List.eq_nil_or_concat cs with rfl | ⟨cs, c, rfl⟩
  · simpa using h
  · have hc := hcs c (by simp)
    have hlast : front ++ ofCodePoints (cs.concat c) = front ++ ofCodePoints cs ++ encode c := by
      simp
    rw [hlast]
    exact unsplit_append_encode hc _ rest

theorem unsplit_nil (rest : Bytes) : Unsplit [] rest :=
  fun _ _ _ _ _ hs _ hbegins _ => hs (List.suffix_nil.mp hbegins)

/-- Nothing is split at the end of a text and before an ASCII byte. -/
theorem unsplit_of_ascii (h : ∀ b ∈ rest.head?, b < 0x80) : Unsplit front rest := by
  rintro c s t hc hsplit hs ht - ⟨more, rfl⟩
  obtain ⟨b, t, rfl⟩ := List.exists_cons_of_ne_nil ht
  have hsingle := encode_eq_of_mem (b := b) hc (by simp [hsplit]) (h b rfl)
  rw [hsplit] at hsingle
  obtain ⟨e, s, rfl⟩ := List.exists_cons_of_ne_nil hs
  simp at hsingle

/-- No code point ends with a byte that encodes nothing, nor goes on behind it. -/
theorem Unsplit.not_begins {s t : Bytes} (h : Unsplit front (b :: rest))
    (hb : decode (b :: rest) = (CodePoint.replacement, 1)) (hc : IsScalar c) (hs : s ≠ [])
    (hsplit : encode c = s ++ t) (hbegins : s <:+ front ++ [b]) : ¬ t <+: rest := by
  rintro ⟨more, rfl⟩
  rcases List.suffix_concat_iff.mp hbegins with rfl | ⟨s, rfl, hfront⟩
  · exact hs rfl
  · cases s with
    | nil =>
        -- The byte would start the encoding, and that would have been read.
        have hwhole : b :: (t ++ more) = encode c ++ more := by simp [hsplit]
        rw [hwhole, decode_encode_append hc] at hb
        obtain ⟨rfl, hlength⟩ := Prod.mk.inj hb
        exact absurd hlength (by decide)
    | cons e s =>
        exact h c (e :: s) (b :: t) hc (by simpa using hsplit) (List.cons_ne_nil _ _)
          (List.cons_ne_nil _ _) hfront ⟨more, rfl⟩

theorem Unsplit.append_invalid (h : Unsplit front (b :: rest))
    (hb : decode (b :: rest) = (CodePoint.replacement, 1)) : Unsplit (front ++ [b]) rest :=
  fun _ _ _ hc hsplit hs _ hbegins => h.not_begins hb hc hs hsplit hbegins

theorem Unsplit.not_encode_suffix (h : Unsplit front (b :: rest))
    (hb : decode (b :: rest) = (CodePoint.replacement, 1)) (hc : IsScalar c) :
    ¬ encode c <:+ front ++ [b] := fun hsuffix =>
  h.not_begins hb hc (encode_ne_nil c) (List.append_nil _).symm hsuffix List.nil_prefix

end UnusedImports.Utf8

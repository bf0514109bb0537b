import UnusedImports.Proofs.Text.Utf8
import UnusedImports.Text.Trim

/-! An ASCII byte is a code point of its own wherever it stands, so a well-formed text can be cut
there. -/

namespace UnusedImports

namespace Utf8

@[simp] theorem ofCodePoints_nil : ofCodePoints [] = [] := rfl

@[simp] theorem ofCodePoints_cons (c : Nat) (cs : List Nat) :
    ofCodePoints (c :: cs) = encode c ++ ofCodePoints cs := rfl

@[simp] theorem ofCodePoints_append (cs ds : List Nat) :
    ofCodePoints (cs ++ ds) = ofCodePoints cs ++ ofCodePoints ds := List.flatMap_append

/-! ### Units -/

theorem units_go_append (s : Bytes) (acc old : List (Nat × Bytes)) :
    units.go s (acc ++ old) = old.reverse ++ units.go s acc := by
  fun_induction units.go s acc with
  | case1 acc => simp [units.go]
  | case2 b s acc d ih => rw [List.cons_append] at ih; rw [units.go, ih]

theorem units_nil : units [] = [] := by
  rw [units, units.go]
  rfl

theorem units_cons (b : UInt8) (s : Bytes) :
    units (b :: s) = ((decode (b :: s)).1, (b :: s).take (decode (b :: s)).2) ::
      units ((b :: s).drop (decode (b :: s)).2) := by
  rw [units, units.go, ← List.nil_append [_], units_go_append]
  rfl

/-- An ASCII byte is the encoding of its value. -/
theorem encode_ascii {b : UInt8} (hb : b < 0x80) : IsScalar b.toNat ∧ encode b.toNat = [b] := by
  have hlt : b.toNat < 0x80 := UInt8.lt_iff_toNat_lt.mp hb
  exact ⟨.inl (by omega), by simp [encode, hlt]⟩

/-- What is read from a byte on: a scalar and its encoding, or a byte that encodes nothing. -/
theorem decode_cases (b : UInt8) (s : Bytes) :
    (IsScalar (decode (b :: s)).1 ∧
        (b :: s).take (decode (b :: s)).2 = encode (decode (b :: s)).1) ∨
      decode (b :: s) = (CodePoint.replacement, 1) := by
  rw [decode]
  by_cases hb : b < 0x80
  · rw [if_pos hb]
    exact .inl ⟨(encode_ascii hb).1, (encode_ascii hb).2.symm⟩
  · rw [if_neg hb]
    cases hseq : sequence? (b :: s) with
    | none => exact .inr rfl
    | some r =>
        have h := sequence_of_sequence? hseq
        exact .inl ⟨isScalar_of_sequence h, (encode_of_sequence h).symm⟩

/-- Induction over a text, code point by code point. -/
@[elab_as_elim]
theorem unit_induction {P : Bytes → Prop} (nil : P [])
    (cons : ∀ b s, P ((b :: s).drop (decode (b :: s)).2) → P (b :: s)) (s : Bytes) : P s := by
  match s with
  | [] => exact nil
  | b :: s => exact cons b s (unit_induction nil cons _)
termination_by s.length
decreasing_by
  have hpos := decode_size_pos b s
  simp only [List.length_drop, List.length_cons]
  omega

theorem flatMap_units (s : Bytes) : (units s).flatMap (·.2) = s := by
  induction s using unit_induction with
  | nil => rw [units_nil]; rfl
  | cons b s ih => rw [units_cons, List.flatMap_cons, ih, List.take_append_drop]

/-- A unit that does not stand for a byte which encodes nothing is a scalar with its encoding. -/
theorem unit_of_mem {s : Bytes} {u : Nat × Bytes} (hu : u ∈ units s)
    (h : u.1 ≠ CodePoint.replacement ∨ u.2.length = 3) : IsScalar u.1 ∧ u.2 = encode u.1 := by
  induction s using unit_induction with
  | nil => simp [units_nil] at hu
  | cons b s ih =>
      rw [units_cons] at hu
      rcases List.mem_cons.mp hu with rfl | hu
      · rcases decode_cases b s with hread | hnone
        · exact hread
        · simp [hnone] at h
      · exact ih hu

theorem units_encode_append {c : Nat} (hc : IsScalar c) (s : Bytes) :
    units (encode c ++ s) = (c, encode c) :: units s := by
  have hdecode := decode_encode_append hc s
  obtain ⟨b, t, hencode⟩ := List.exists_cons_of_ne_nil (encode_ne_nil c)
  rw [hencode] at hdecode ⊢
  rw [List.cons_append] at hdecode ⊢
  rw [units_cons, hdecode, ← List.cons_append, List.take_left, List.drop_left]

theorem units_ofCodePoints_append {cs : List Nat} (hcs : ∀ c ∈ cs, IsScalar c) (s : Bytes) :
    units (ofCodePoints cs ++ s) = cs.map (fun c => (c, encode c)) ++ units s := by
  induction cs with
  | nil => rfl
  | cons c cs ih =>
      rw [ofCodePoints_cons, List.append_assoc, units_encode_append (hcs c List.mem_cons_self),
        ih fun x hx => hcs x (List.mem_cons_of_mem c hx)]
      rfl

/-- Units that all stand for scalars are the code points of the text. -/
theorem eq_ofCodePoints_of_units {s : Bytes}
    (h : ∀ u ∈ units s, u.1 ≠ CodePoint.replacement ∨ u.2.length = 3) :
    (∀ c ∈ codePoints s, IsScalar c) ∧ s = ofCodePoints (codePoints s) := by
  constructor
  · intro c hc
    obtain ⟨u, hu, rfl⟩ := List.mem_map.mp hc
    exact (unit_of_mem hu (h u hu)).1
  · have hbytes : (units s).flatMap (·.2) = (units s).flatMap fun u => encode u.1 := by
      rw [List.flatMap_def, List.flatMap_def]
      exact congrArg List.flatten (List.map_congr_left fun u hu => (unit_of_mem hu (h u hu)).2)
    rw [flatMap_units] at hbytes
    rwa [codePoints, ofCodePoints, List.flatMap_map]

theorem codePoints_ofCodePoints {cs : List Nat} (hcs : ∀ c ∈ cs, IsScalar c) :
    codePoints (ofCodePoints cs) = cs := by
  have h := units_ofCodePoints_append hcs []
  rw [List.append_nil] at h
  rw [codePoints, h, units_nil, List.append_nil, List.map_map]
  exact List.map_id cs

/-! ### Well-formed texts -/

/-- A text that encodes code points. -/
def WellFormed (s : Bytes) : Prop := ∃ cs, (∀ c ∈ cs, IsScalar c) ∧ s = ofCodePoints cs

theorem isValid_iff (s : Bytes) : isValid s = true ↔ WellFormed s := by
  rw [isValid, List.all_eq_true]
  constructor
  · intro h
    exact ⟨_, eq_ofCodePoints_of_units fun u hu => by simpa using h u hu⟩
  · rintro ⟨cs, hcs, rfl⟩ u hu
    have h := units_ofCodePoints_append hcs []
    rw [List.append_nil, units_nil, List.append_nil] at h
    rw [h] at hu
    obtain ⟨c, _, rfl⟩ := List.mem_map.mp hu
    by_cases hc : c = CodePoint.replacement
    · subst hc
      rfl
    · simp [hc]

namespace WellFormed

variable {s t : Bytes}

theorem nil : WellFormed [] := ⟨[], by simp, rfl⟩

theorem encode {c : Nat} (hc : IsScalar c) : WellFormed (Utf8.encode c) :=
  ⟨[c], by simpa using hc, by simp⟩

theorem append (hs : WellFormed s) (ht : WellFormed t) : WellFormed (s ++ t) := by
  obtain ⟨cs, hcs, rfl⟩ := hs
  obtain ⟨ds, hds, rfl⟩ := ht
  refine ⟨cs ++ ds, ?_, by simp⟩
  intro c hc
  rcases List.mem_append.mp hc with hc | hc
  · exact hcs c hc
  · exact hds c hc

theorem ascii {b : UInt8} (hb : b < 0x80) : WellFormed [b] := by
  obtain ⟨hscalar, hencode⟩ := encode_ascii hb
  exact ⟨[b.toNat], by simpa using hscalar, by simp [hencode]⟩

/-- What follows the first code point is well formed. -/
theorem of_encode_append {c : Nat} (hc : IsScalar c) (h : WellFormed (Utf8.encode c ++ s)) :
    WellFormed s := by
  obtain ⟨cs, hcs, heq⟩ := h
  have hunits := units_ofCodePoints_append hcs []
  rw [List.append_nil, units_nil, List.append_nil, ← heq, units_encode_append hc] at hunits
  cases cs with
  | nil => cases hunits
  | cons d ds =>
      obtain ⟨hhead, _⟩ := List.cons.inj hunits
      obtain ⟨rfl, _⟩ := Prod.mk.inj hhead
      rw [ofCodePoints_cons] at heq
      exact ⟨ds, fun x hx => hcs x (List.mem_cons_of_mem c hx), List.append_cancel_left heq⟩

/-- What follows a well-formed front of a well-formed text is well formed. -/
theorem of_append (h : WellFormed (s ++ t)) (hs : WellFormed s) : WellFormed t := by
  obtain ⟨cs, hcs, rfl⟩ := hs
  induction cs with
  | nil => exact h
  | cons c cs ih =>
      rw [ofCodePoints_cons, List.append_assoc] at h
      exact ih (fun x hx => hcs x (List.mem_cons_of_mem c hx))
        (of_encode_append (hcs c List.mem_cons_self) h)

end WellFormed

/-- The bytes of a sequence are not ASCII. -/
theorem not_ascii_of_sequence {s : Bytes} {c : Nat} (h : Sequence s c) : ∀ b ∈ s, 0x80 ≤ b := by
  cases h with
  | two ha hb =>
      simp only [List.mem_cons, List.not_mem_nil, or_false, UInt8.le_iff_toNat_le]
      rintro b (rfl | rfl)
      · simp [ha]; omega
      · simp [hb]
  | three ha hb hc =>
      simp only [List.mem_cons, List.not_mem_nil, or_false, UInt8.le_iff_toNat_le]
      rintro b (rfl | rfl | rfl)
      · simp [ha]; omega
      · simp [hb]
      · simp [hc]
  | four ha hb hc hd =>
      simp only [List.mem_cons, List.not_mem_nil, or_false, UInt8.le_iff_toNat_le]
      rintro b (rfl | rfl | rfl | rfl)
      · simp [ha]; omega
      · simp [hb]
      · simp [hc]
      · simp [hd]

/-- An ASCII byte in the encoding of a code point is all of it. -/
theorem encode_eq_of_mem {c : Nat} {b : UInt8} (hc : IsScalar c) (hmem : b ∈ encode c)
    (hb : b < 0x80) : encode c = [b] := by
  by_cases hascii : c < 0x80
  · simp only [encode, hascii, if_true, List.mem_singleton] at hmem ⊢
    rw [hmem]
  · have hlarge := not_ascii_of_sequence (sequence_encode hc (by omega)) b hmem
    exact absurd hb (UInt8.not_lt.mpr hlarge)

/-- A well-formed text can be cut before and behind an ASCII byte. -/
theorem WellFormed.cut {front back : Bytes} {b : UInt8} (h : WellFormed (front ++ b :: back))
    (hb : b < 0x80) : WellFormed front ∧ WellFormed back := by
  obtain ⟨cs, hcs, heq⟩ := h
  induction cs generalizing front with
  | nil => simp at heq
  | cons c cs ih =>
      have hc := hcs c List.mem_cons_self
      have hrest : ∀ x ∈ cs, IsScalar x := fun x hx => hcs x (List.mem_cons_of_mem c hx)
      rw [ofCodePoints_cons, List.append_eq_append_iff] at heq
      rcases heq with ⟨mid, hencode, hback⟩ | ⟨mid, hfront, hmid⟩
      · cases mid with
        | nil =>
            have hcut : WellFormed [] ∧ WellFormed back := ih hrest (by simpa using hback)
            rw [List.append_nil] at hencode
            exact ⟨hencode ▸ .encode hc, hcut.2⟩
        | cons x mid =>
            -- The byte stands in the first code point, so it is all of that.
            obtain ⟨rfl, rfl⟩ := List.cons.inj hback
            have hsingle := encode_eq_of_mem hc (b := b) (by simp [hencode]) hb
            rw [hencode, List.append_eq_singleton_iff] at hsingle
            rcases hsingle with ⟨rfl, hmid⟩ | ⟨_, hmid⟩
            · obtain ⟨_, rfl⟩ := List.cons.inj hmid
              exact ⟨.nil, cs, hrest, rfl⟩
            · cases hmid
      · subst hfront
        obtain ⟨hfront, hback⟩ := ih hrest hmid.symm
        exact ⟨(WellFormed.encode hc).append hfront, hback⟩

/-- A well-formed text can be cut before an ASCII byte, and at its end. -/
theorem WellFormed.cut_head {front back : Bytes} (h : WellFormed (front ++ back))
    (hback : ∀ b ∈ back.head?, b < 0x80) : WellFormed front ∧ WellFormed back := by
  cases back with
  | nil => exact ⟨by simpa using h, .nil⟩
  | cons b back =>
      have hb : b < 0x80 := hback b rfl
      obtain ⟨hfront, hrest⟩ := h.cut hb
      exact ⟨hfront, (WellFormed.ascii hb).append hrest⟩

/-- A well-formed text can be cut behind its first code point. -/
theorem WellFormed.cut_decode {b : UInt8} {s : Bytes} (h : WellFormed (b :: s)) :
    WellFormed ((b :: s).take (decode (b :: s)).2) ∧
      WellFormed ((b :: s).drop (decode (b :: s)).2) := by
  obtain ⟨cs, hcs, heq⟩ := h
  cases cs with
  | nil => cases heq
  | cons c cs =>
      have hc := hcs c List.mem_cons_self
      rw [heq, ofCodePoints_cons, decode_encode_append hc, List.take_left, List.drop_left]
      exact ⟨.encode hc, cs, fun x hx => hcs x (List.mem_cons_of_mem c hx), rfl⟩

theorem WellFormed.of_ascii {s : Bytes} (h : ∀ b ∈ s, b < 0x80) : WellFormed s := by
  induction s with
  | nil => exact .nil
  | cons b s ih =>
      have hb := WellFormed.ascii (h b List.mem_cons_self)
      exact hb.append (ih fun x hx => h x (List.mem_cons_of_mem b hx))

/-- An ASCII byte of a text is one of its code points. -/
theorem toNat_mem_of_mem_ofCodePoints {cs : List Nat} {b : UInt8} (hcs : ∀ c ∈ cs, IsScalar c)
    (hmem : b ∈ ofCodePoints cs) (hb : b < 0x80) : b.toNat ∈ cs := by
  obtain ⟨c, hc, hmem⟩ := List.mem_flatMap.mp hmem
  have hdecode := decode_encode_append (hcs c hc) []
  rw [encode_eq_of_mem (hcs c hc) hmem hb, List.append_nil, decode, if_pos hb] at hdecode
  rwa [(Prod.mk.inj hdecode).1]

/-! ### Boundaries -/

/-- An offset of a text that lies in no code point: both parts are well formed. -/
def Boundary (s : Bytes) (i : Nat) : Prop := WellFormed (s.take i) ∧ WellFormed (s.drop i)

theorem boundary_append {s t : Bytes} (hs : WellFormed s) (ht : WellFormed t) :
    Boundary (s ++ t) s.length := by
  rw [Boundary, List.take_left, List.drop_left]
  exact ⟨hs, ht⟩

end Utf8

/-! ### White space -/

theorem CodePoint.isScalar_of_isBlank {c : Nat} (h : isBlank c = true) : Utf8.IsScalar c := by
  simp only [isBlank, within, blanks, List.any_cons, List.any_nil, Bool.or_false, Bool.or_eq_true,
    Bool.and_eq_true, decide_eq_true_eq] at h
  simp only [Utf8.IsScalar]
  omega

namespace Bytes

/-- A text is blank if it encodes code points that are. -/
theorem isBlank_iff (s : Bytes) :
    isBlank s = true ↔ ∃ cs, (∀ c ∈ cs, CodePoint.isBlank c = true) ∧ s = Utf8.ofCodePoints cs := by
  rw [isBlank, List.all_eq_true]
  constructor
  · intro h
    refine ⟨_, h, (Utf8.eq_ofCodePoints_of_units fun u hu => .inl ?_).2⟩
    intro hu'
    have hblank := h u.1 (List.mem_map_of_mem hu)
    rw [hu'] at hblank
    exact absurd hblank (by decide)
  · rintro ⟨cs, hcs, rfl⟩
    rwa [Utf8.codePoints_ofCodePoints fun c hc => CodePoint.isScalar_of_isBlank (hcs c hc)]

variable {s t : Bytes}

theorem wellFormed_of_isBlank (h : isBlank s = true) : Utf8.WellFormed s := by
  obtain ⟨cs, hcs, rfl⟩ := (isBlank_iff s).mp h
  exact ⟨cs, fun c hc => CodePoint.isScalar_of_isBlank (hcs c hc), rfl⟩

theorem isBlank_append (hs : isBlank s = true) (ht : isBlank t = true) :
    isBlank (s ++ t) = true := by
  obtain ⟨cs, hcs, rfl⟩ := (isBlank_iff s).mp hs
  obtain ⟨ds, hds, rfl⟩ := (isBlank_iff t).mp ht
  refine (isBlank_iff _).mpr ⟨cs ++ ds, ?_, by simp⟩
  intro c hc
  rcases List.mem_append.mp hc with hc | hc
  · exact hcs c hc
  · exact hds c hc

theorem isBlank_nil : isBlank [] = true := (isBlank_iff []).mpr ⟨[], by simp, rfl⟩

theorem isBlank_singleton {b : UInt8} (hb : b < 0x80) (h : CodePoint.isBlank b.toNat = true) :
    isBlank [b] = true :=
  (isBlank_iff [b]).mpr ⟨[b.toNat], by simpa using h, by simp [(Utf8.encode_ascii hb).2]⟩

theorem isBlank_newline : isBlank [newline] = true := isBlank_singleton (by decide) (by decide)

/-- Spaces and tabs are blank. -/
theorem isBlank_of_spaces (h : ∀ b ∈ s, b = 0x20 ∨ b = 0x09) : isBlank s = true := by
  induction s with
  | nil => exact isBlank_nil
  | cons b s ih =>
      have hb : isBlank [b] = true := by
        rcases h b List.mem_cons_self with rfl | rfl
        · exact isBlank_singleton (by decide) (by decide)
        · exact isBlank_singleton (by decide) (by decide)
      exact isBlank_append hb (ih fun x hx => h x (List.mem_cons_of_mem b hx))

/-- An ASCII byte of a blank text is blank itself. -/
theorem isBlank_of_mem {b : UInt8} (h : isBlank s = true) (hmem : b ∈ s) (hb : b < 0x80) :
    CodePoint.isBlank b.toNat = true := by
  obtain ⟨cs, hcs, rfl⟩ := (isBlank_iff s).mp h
  have hscalar : ∀ c ∈ cs, Utf8.IsScalar c := fun c hc => CodePoint.isScalar_of_isBlank (hcs c hc)
  exact hcs _ (Utf8.toNat_mem_of_mem_ofCodePoints hscalar hmem hb)

end Bytes

end UnusedImports

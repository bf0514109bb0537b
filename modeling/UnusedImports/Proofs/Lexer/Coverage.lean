import UnusedImports.Proofs.Lexer.Reading

/-! Reading on moves over no byte between the tokens that it emits; that is left to settling. -/

namespace UnusedImports

theorem Position.offset_advance (p : Position) (s : Bytes) :
    (p.advance s).offset = p.offset + s.length := by
  induction s generalizing p with
  | nil => rfl
  | cons b s ih =>
      have hnext : (p.next b).offset = p.offset + 1 := by
        unfold next
        split <;> rfl
      calc (p.advance (b :: s)).offset = (p.next b).offset + s.length := ih (p.next b)
        _ = p.offset + (s.length + 1) := by rw [hnext]; omega

namespace Lexer

/-- One lexer comes from another by emitting tokens and by changing what is open. -/
inductive Emits (lx : Lexer) : Lexer → Prop where
  | refl : Emits lx lx
  | token {next} (kind n) : Emits lx next → Emits lx (next.emit kind n)
  | opened {next} (depth frames) : Emits lx next → Emits lx { next with depth, frames }

namespace Emits

variable {lx next : Lexer}

theorem tokens_suffix (h : Emits lx next) : lx.tokens <:+ next.tokens := by
  induction h with
  | refl => exact List.suffix_refl _
  | token kind n _ ih => exact ih.trans (List.suffix_cons _ _)
  | opened _ _ _ ih => exact ih

theorem offset_emit (kind : TokenKind) (n : Nat) (lx : Lexer) :
    (lx.emit kind n).position.offset = lx.position.offset + (lx.rest.take n).length :=
  Position.offset_advance _ _

theorem offset_le (h : Emits lx next) : lx.position.offset ≤ next.position.offset := by
  induction h with
  | refl => exact Nat.le_refl _
  | token kind n _ ih =>
      rw [offset_emit]
      omega
  | opened _ _ _ ih => exact ih

/-- Every byte that is read belongs to a token. -/
theorem covers (h : Emits lx next) {k : Nat} (hfrom : lx.position.offset ≤ k)
    (hto : k < next.position.offset) : ∃ t ∈ next.tokens, t.Covers k := by
  induction h with
  | refl => omega
  | @token next kind n _ ih =>
      by_cases hk : k < next.position.offset
      · obtain ⟨t, ht, hcovers⟩ := ih hk
        exact ⟨t, List.mem_cons_of_mem _ ht, hcovers⟩
      · rw [offset_emit] at hto
        exact ⟨_, List.mem_cons_self, Nat.not_lt.mp hk, hto⟩
  | opened _ _ _ ih => exact ih hto

/-- A token that is new starts where reading on did, or later. -/
theorem le_offset (h : Emits lx next) {t : Token} (ht : t ∈ next.tokens) :
    t ∈ lx.tokens ∨ lx.position.offset ≤ t.offset := by
  induction h with
  | refl => exact .inl ht
  | @token next kind n h ih =>
      rcases List.mem_cons.mp ht with rfl | ht
      · exact .inr h.offset_le
      · exact ih ht
  | opened _ _ _ ih => exact ih ht

/-- What is emitted first starts where reading on did. -/
theorem tokens_cases (h : Emits lx next) :
    (next.tokens = lx.tokens ∧ next.position = lx.position) ∨
      ∃ t more, next.tokens = more ++ t :: lx.tokens ∧ t.offset = lx.position.offset := by
  induction h with
  | refl => exact .inl ⟨rfl, rfl⟩
  | @token next kind n _ ih =>
      rcases ih with ⟨htokens, hposition⟩ | ⟨t, more, htokens, ht⟩
      · refine .inr ⟨⟨next.position, kind, next.rest.take n⟩, [], ?_, by rw [hposition]⟩
        rw [← htokens]
        rfl
      · exact .inr ⟨t, _ :: more, congrArg (_ :: ·) htokens, ht⟩
  | opened _ _ _ ih => exact ih

end Emits

theorem Adds.emits {mode : Mode} {lx next : Lexer} {new : List Token}
    (h : Adds mode lx next new) : Emits lx next := by
  induction h with
  | refl => exact .refl
  | token _ _ _ ih => exact ih.token _ _
  | opened _ _ _ ih => exact ih.opened _ _

theorem emits_scan (dialect : Dialect) (lx : Lexer) : Emits lx (lx.scan dialect) :=
  let ⟨_, hadds, _⟩ := parses_scan dialect lx
  hadds.emits

/-! ### Runs -/

@[simp] theorem settle_tokens (lx : Lexer) : lx.settle.tokens = lx.tokens := by
  unfold settle
  split <;> rfl

theorem offset_le_settle (lx : Lexer) : lx.position.offset ≤ lx.settle.position.offset := by
  unfold settle
  split
  · exact Nat.le_refl _
  · exact (Position.offset_advance _ _).symm ▸ Nat.le_add_right _ _

@[simp] theorem skipHashbang_tokens (source : Bytes) :
    (ofSource source).skipHashbang.tokens = [] := by
  unfold skipHashbang
  split <;> rfl

@[simp] theorem skipHashbang_frames (source : Bytes) :
    (ofSource source).skipHashbang.frames = [] := by
  unfold skipHashbang
  split <;> rfl

@[simp] theorem skipHashbang_depth (source : Bytes) :
    (ofSource source).skipHashbang.depth = 0 := by
  unfold skipHashbang
  split <;> rfl

/-- A run keeps the tokens that were there. -/
theorem tokens_suffix_run (dialect : Dialect) (lx : Lexer) :
    lx.tokens <:+ (lx.run dialect).tokens := by
  fun_induction run dialect lx with
  | case1 lx h => exact (settle_tokens lx).symm ▸ List.suffix_refl lx.tokens
  | case2 lx h ih =>
      have hscan := (emits_scan dialect lx.settle).tokens_suffix
      rw [settle_tokens] at hscan
      exact hscan.trans ih

/-- A token that a run adds starts where the run has settled, or later. -/
theorem le_offset_of_mem_run {dialect : Dialect} {lx : Lexer} {t : Token}
    (ht : t ∈ (lx.run dialect).tokens) :
    t ∈ lx.tokens ∨ lx.settle.position.offset ≤ t.offset := by
  fun_induction run dialect lx with
  | case1 lx h =>
      rw [settle_tokens] at ht
      exact .inl ht
  | case2 lx h ih =>
      have hemits := emits_scan dialect lx.settle
      rcases ih ht with ht | hle
      · rcases hemits.le_offset ht with ht | hle
        · rw [settle_tokens] at ht
          exact .inl ht
        · exact .inr hle
      · have := hemits.offset_le
        have := offset_le_settle (lx.settle.scan dialect)
        exact .inr (by omega)

/-- A token that a run adds is read by one of its steps. -/
theorem exists_scan_of_mem_run {source : Bytes} {dialect : Dialect} {lx : Lexer} {t : Token}
    (hreads : lx.ReadsFrom source) (ht : t ∈ (lx.run dialect).tokens) (hnew : t ∉ lx.tokens) :
    ∃ m : Lexer, m.ReadsFrom source ∧ m.rest ≠ [] ∧ t ∉ m.tokens ∧ t ∈ (m.scan dialect).tokens ∧
      (m.scan dialect).run dialect = lx.run dialect := by
  fun_induction run dialect lx with
  | case1 lx h =>
      rw [settle_tokens] at ht
      exact absurd ht hnew
  | case2 lx h ih =>
      by_cases hmem : t ∈ (lx.settle.scan dialect).tokens
      · exact ⟨lx.settle, hreads.settle, h, by rwa [settle_tokens], hmem, rfl⟩
      · exact ih (hreads.settle.scan h dialect) ht hmem

/-- The place of a lexer, and what it has not read, make up its source. -/
theorem ReadsFrom.offset_add {source : Bytes} {lx : Lexer} (h : lx.ReadsFrom source) :
    lx.position.offset + lx.rest.length = source.length := by
  obtain ⟨front, hsource, hposition, -⟩ := h
  rw [hsource, hposition, Position.advance_start, List.length_append]

theorem ReadsFrom.rest_eq {source : Bytes} {lx : Lexer} (h : lx.ReadsFrom source) :
    lx.rest = source.drop lx.position.offset := by
  obtain ⟨front, hsource, hposition, -⟩ := h
  rw [hposition, Position.advance_start, hsource, List.drop_left]

end Lexer

end UnusedImports

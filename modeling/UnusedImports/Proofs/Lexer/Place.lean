import UnusedImports.Proofs.Lexer.Lossless

/-! The line and the column of a token tell it from every other token that has bytes. -/

namespace UnusedImports

namespace Position

/-- A place comes before another by its line and, on one line, by its column. -/
def Before (p q : Position) : Prop :=
  p.line < q.line ∨ (p.line = q.line ∧ p.column < q.column)

theorem Before.trans {p q r : Position} (hpq : p.Before q) (hqr : q.Before r) : p.Before r := by
  unfold Before at *
  omega

theorem Before.ne {p q : Position} (h : p.Before q) : (p.line, p.column) ≠ (q.line, q.column) := by
  intro heq
  obtain ⟨hline, hcolumn⟩ := Prod.mk.inj heq
  unfold Before at h
  omega

theorem before_next (p : Position) (b : UInt8) : p.Before (p.next b) := by
  unfold Before next
  split
  · exact .inl (Nat.lt_succ_self _)
  · exact .inr ⟨rfl, Nat.lt_succ_self _⟩

theorem before_advance (p : Position) {s : Bytes} (hs : s ≠ []) : p.Before (p.advance s) := by
  induction s generalizing p with
  | nil => exact absurd rfl hs
  | cons b s ih =>
      cases s with
      | nil => exact p.before_next b
      | cons c s => exact (p.before_next b).trans (ih (p.next b) (List.cons_ne_nil c s))

end Position

/-- A front of a text begins with every shorter one. -/
theorem Bytes.take_eq_append (s : Bytes) {i j : Nat} (hij : i ≤ j) :
    s.take j = s.take i ++ (s.take j).drop i := by
  have hfront : s.take i = (s.take j).take i := by rw [List.take_take, Nat.min_eq_left hij]
  rw [hfront, List.take_append_drop]

theorem Position.before_of_lt {source : Bytes} {i j : Nat} (hij : i < j) (hj : j ≤ source.length) :
    (start.advance (source.take i)).Before (start.advance (source.take j)) := by
  rw [Bytes.take_eq_append source (Nat.le_of_lt hij), Lexer.advance_append]
  apply before_advance
  rw [← List.length_pos_iff, List.length_drop, List.length_take]
  omega

/-! ### The tokens of a text -/

section

variable {dialect : Dialect} {source : Bytes} {t : Token}

theorem placed_of_mem_tokenize (h : t ∈ tokenize dialect source) : t.Placed source :=
  (written_tokenize dialect source).placed t (List.mem_reverse.mpr h)

theorem text_ne_nil_of_mem_tokenize (h : t ∈ tokenize dialect source) (hkind : t.kind ≠ .template) :
    t.text ≠ [] :=
  (written_tokenize dialect source).nonempty t (List.mem_reverse.mpr h) hkind

theorem tokenize_apart (dialect : Dialect) (source : Bytes) :
    (tokenize dialect source).Pairwise fun t u => t.offset + t.text.length ≤ u.offset :=
  List.pairwise_reverse.mp (written_tokenize dialect source).ordered

/-- Tokens that have bytes stand at different places, in order. -/
theorem tokenize_before (dialect : Dialect) (source : Bytes) :
    (tokenize dialect source).Pairwise fun t u =>
      t.kind ≠ .template → t.toPosition.Before u.toPosition := by
  refine (tokenize_apart dialect source).imp_of_mem ?_
  intro t u ht hu hapart hkind
  have hlength := List.length_pos_iff.mpr (text_ne_nil_of_mem_tokenize ht hkind)
  have hinside := (placed_of_mem_tokenize hu).inside
  rw [(placed_of_mem_tokenize ht).place, (placed_of_mem_tokenize hu).place]
  exact Position.before_of_lt (by omega) (by omega)

end

end UnusedImports

import UnusedImports.Source.Import

/-! A walk looks at each token in turn, and where an item starts it goes on after the last token of
that item. The rule that finds the items is a parameter. -/

namespace UnusedImports

/-- A walk goes past the tokens ahead, given those it has passed, and collects items. At each token
the rule tells the item that starts there together with the tokens it leaves, or that none does. -/
inductive Walk {α : Type} (item? : List Token → Token → List Token → Option (α × List Token)) :
    List Token → List Token → List α → Prop where
  | done (passed) : Walk item? passed [] []
  | found {passed t read rest a items} : item? passed t (read ++ rest) = some (a, rest) →
      Walk item? (passed ++ t :: read) rest items →
      Walk item? passed (t :: (read ++ rest)) (a :: items)
  | missed {passed t rest items} : item? passed t rest = none →
      Walk item? (passed ++ [t]) rest items → Walk item? passed (t :: rest) items

namespace Span

/-- A span covers an index from its start on and before its stop. -/
def Covers (r : Span) (i : Nat) : Prop := r.start ≤ i ∧ i < r.stop

instance (r : Span) (i : Nat) : Decidable (r.Covers i) :=
  inferInstanceAs (Decidable (r.start ≤ i ∧ i < r.stop))

/-- Spans that follow one another, none of them empty. -/
structure Ordered (spans : List Span) : Prop where
  nonempty : ∀ r ∈ spans, r.start < r.stop
  apart : spans.Pairwise fun r s => r.stop ≤ s.start

theorem Ordered.tail {r : Span} {spans : List Span} (h : Ordered (r :: spans)) :
    Ordered spans :=
  ⟨fun s hs => h.nonempty s (List.mem_cons_of_mem r hs), h.apart.of_cons⟩

/-- A span that starts before another one also stops before it. -/
theorem Ordered.stop_le {r s : Span} {spans : List Span} (h : Ordered spans) (hr : r ∈ spans)
    (hs : s ∈ spans) (hlt : s.start < r.start) : s.stop ≤ r.start := by
  induction spans with
  | nil => contradiction
  | cons q spans ih =>
      rcases List.mem_cons.mp hr with rfl | hr'
      · rcases List.mem_cons.mp hs with rfl | hs'
        · omega
        · have hle := List.rel_of_pairwise_cons h.apart hs'
          have hpos := h.nonempty r List.mem_cons_self
          omega
      · rcases List.mem_cons.mp hs with rfl | hs'
        · exact List.rel_of_pairwise_cons h.apart hr'
        · exact ih h.tail hr' hs'

/-- After the first of ordered spans, no index before its stop is covered. -/
theorem Ordered.not_covers_of_lt {r s : Span} {spans : List Span} {i : Nat}
    (h : Ordered (r :: spans)) (hs : s ∈ spans) (hi : i < r.stop) : ¬ s.Covers i := by
  rintro ⟨hstart, _⟩
  have hrs := List.rel_of_pairwise_cons h.apart hs
  omega

end Span

namespace Walk

variable {α : Type} {item? : List Token → Token → List Token → Option (α × List Token)}

/-- Every item of a walk is what the rule finds at some token. -/
theorem exists_of_mem {passed ts : List Token} {items : List α} {a : α}
    (h : Walk item? passed ts items) (ha : a ∈ items) :
    ∃ front t rest left, passed ++ ts = front ++ t :: rest ∧
      item? front t rest = some (a, left) := by
  induction h with
  | done => contradiction
  | found hitem _ ih =>
      rcases List.mem_cons.mp ha with rfl | ha
      · exact ⟨_, _, _, _, rfl, hitem⟩
      · obtain ⟨front, t, rest, left, heq, hfound⟩ := ih ha
        exact ⟨front, t, rest, left, by simpa using heq, hfound⟩
  | missed _ _ ih =>
      obtain ⟨front, t, rest, left, heq, hfound⟩ := ih ha
      exact ⟨front, t, rest, left, by simpa using heq, hfound⟩

/-- A rule places its items when the span of each runs from its first token to the first token it
leaves. -/
def Places (span : α → Span)
    (item? : List Token → Token → List Token → Option (α × List Token)) : Prop :=
  ∀ {passed t read rest a}, item? passed t (read ++ rest) = some (a, rest) →
    span a = ⟨passed.length, passed.length + (read.length + 1)⟩

theorem span_bounds {span : α → Span} (hplace : Places span item?) {passed ts : List Token}
    {items : List α} (h : Walk item? passed ts items) :
    ∀ a ∈ items, passed.length ≤ (span a).start ∧ (span a).start < (span a).stop ∧
      (span a).stop ≤ passed.length + ts.length := by
  induction h with
  | done => simp
  | found hitem _ ih =>
      intro b hb
      rcases List.mem_cons.mp hb with rfl | hb
      · rw [hplace hitem]
        simp only [List.length_cons, List.length_append]
        omega
      · have hbounds := ih b hb
        simp only [List.length_cons, List.length_append] at hbounds ⊢
        omega
  | missed _ _ ih =>
      intro b hb
      have hbounds := ih b hb
      simp only [List.length_cons, List.length_append, List.length_nil] at hbounds ⊢
      omega

/-- The spans of the items of a walk are in order and share no token. -/
theorem ordered {span : α → Span} (hplace : Places span item?) {passed ts : List Token}
    {items : List α} (h : Walk item? passed ts items) : Span.Ordered (items.map span) := by
  refine ⟨?_, ?_⟩
  · intro r hr
    obtain ⟨a, ha, rfl⟩ := List.mem_map.mp hr
    exact (span_bounds hplace h a ha).2.1
  · induction h with
    | done => exact List.Pairwise.nil
    | found hitem htail ih =>
        refine List.Pairwise.cons ?_ ih
        intro s hs
        obtain ⟨b, hb, rfl⟩ := List.mem_map.mp hs
        have hbounds := span_bounds hplace htail b hb
        rw [hplace hitem]
        simp only [List.length_append, List.length_cons] at hbounds ⊢
        omega
    | missed _ _ ih => exact ih

/-- A walk misses no item but those that start inside an earlier one. -/
theorem mem_of_item {span : α → Span} (hplace : Places span item?)
    {passed ts front rest left : List Token} {items : List α} {t : Token} {a : α}
    (h : Walk item? passed ts items)
    (hsplit : passed ++ ts = front ++ t :: rest) (hle : passed.length ≤ front.length)
    (hitem : item? front t rest = some (a, left))
    (hfree : ∀ b ∈ items, (span b).start < front.length → ¬ (span b).Covers front.length) :
    a ∈ items := by
  induction h with
  | done passed =>
      have hlength := congrArg List.length hsplit
      simp only [List.append_nil, List.length_append, List.length_cons] at hlength
      omega
  | @found passed u read after b items hfound htail ih =>
      rcases Nat.eq_or_lt_of_le hle with heq | hlt
      · obtain ⟨rfl, hrest⟩ := List.append_inj hsplit heq
        obtain ⟨rfl, rfl⟩ := List.cons.inj hrest
        rw [hfound] at hitem
        injection hitem with hitem
        rw [(Prod.mk.inj hitem).1]
        exact List.mem_cons_self
      · have hout := hfree b List.mem_cons_self
        rw [hplace hfound] at hout
        have hpast : passed.length + (read.length + 1) ≤ front.length :=
          Nat.not_lt.mp fun hin => hout hlt ⟨hle, hin⟩
        exact List.mem_cons_of_mem b (ih (by simpa using hsplit) (by simpa using hpast)
          fun c hc => hfree c (List.mem_cons_of_mem b hc))
  | @missed passed u after items hmissed htail ih =>
      rcases Nat.eq_or_lt_of_le hle with heq | hlt
      · obtain ⟨rfl, hrest⟩ := List.append_inj hsplit heq
        obtain ⟨rfl, rfl⟩ := List.cons.inj hrest
        rw [hmissed] at hitem
        cases hitem
      · exact ih (by simpa using hsplit) (by simpa using Nat.succ_le_of_lt hlt) hfree

end Walk

end UnusedImports

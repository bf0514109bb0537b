import UnusedImports.Proofs.Edit.Span
import UnusedImports.Proofs.Edit.Substitution

/-! # Edits stay in their declarations -/

namespace UnusedImports

/-! ### White space -/

/-- A byte of white space: it belongs to a blank stretch of the text. -/
def Bytes.WhiteAt (s : Bytes) (i : Nat) : Prop :=
  ∃ front gap back, s = front ++ gap ++ back ∧ isBlank gap = true ∧
    front.length ≤ i ∧ i < front.length + gap.length

theorem Bytes.whiteAt_of_isBlank {s : Bytes} {i j k : Nat}
    (h : isBlank ((s.take j).drop i) = true) (hi : i ≤ k) (hj : k < j) (hk : k < s.length) :
    s.WhiteAt k := by
  refine ⟨s.take i, (s.take j).drop i, s.drop j, ?_, h, ?_, ?_⟩
  · rw [← take_eq_append s (by omega), List.take_append_drop]
  · rw [List.length_take]
    omega
  · simp only [List.length_take, List.length_drop]
    omega

/-- A byte of a declaration, from its first token to the end of its last one. -/
def Declaration.Spans (tokens : List Token) (d : Declaration) (i : Nat) : Prop :=
  ∃ first last, Edit.Extent tokens d first last ∧ first ≤ i ∧ i < last

section Lists

variable {α β : Type} {R : α → β → Prop} {l : List α} {m : List β}

theorem exists_left_of_forall₂ (h : List.Forall₂ R l m) {b : β} (hb : b ∈ m) :
    ∃ a ∈ l, R a b := by
  induction h with
  | nil => cases hb
  | @cons a c l m hac _ ih =>
      rcases List.mem_cons.mp hb with rfl | hb
      · exact ⟨a, List.mem_cons_self, hac⟩
      · obtain ⟨x, hx, hxb⟩ := ih hb
        exact ⟨x, List.mem_cons_of_mem a hx, hxb⟩

theorem pairwise_of_forall₂ {P : α → α → Prop} {Q : β → β → Prop} (h : List.Forall₂ R l m)
    (hl : l.Pairwise P) (hstep : ∀ a b x y, R a x → R b y → P a b → Q x y) : m.Pairwise Q := by
  induction h with
  | nil => exact .nil
  | cons hac htail ih =>
      refine .cons ?_ (ih hl.of_cons)
      intro y hy
      obtain ⟨b, hb, hby⟩ := exists_left_of_forall₂ htail hy
      exact hstep _ _ _ _ hac hby (List.rel_of_pairwise_cons hl hb)

end Lists

namespace Edit

/-! ### The edits of a file -/

variable {path content : Bytes} {d : Declaration} {e : Edit}

/-- An edit covers the tokens of its declaration and widens them. -/
theorem Mends.exists_site (h : Mends content (analyze path content) d e) :
    ∃ first last, Site (.ofPath path) content d first last ∧
      Widens content first last e.start e.stop := by
  obtain ⟨first, last, hextent, hplan⟩ := plan?_eq_some h.mem h.plan
  obtain ⟨b, hb, _⟩ := h.mendable.2
  have hsite : Site (.ofPath path) content d first last :=
    hextent.site h.mem (List.ne_nil_of_mem hb) h.mendable.1
  refine ⟨first, last, hsite, ?_⟩
  have hlt := hsite.lt
  have hinside := hsite.inside
  rcases hplan with hremove | ⟨text, hwrite⟩
  · rw [hremove]
    exact removalSpan_widens (by omega) hinside
  · rw [hwrite]
    exact .refl hinside

/-- What an edit takes is its declaration and white space. -/
theorem Mends.spans_or_whiteAt (h : Mends content (analyze path content) d e) {i : Nat}
    (hstart : e.start ≤ i) (hstop : i < e.stop) :
    d.Spans (analyze path content).tokens i ∨ content.WhiteAt i := by
  obtain ⟨first, last, hsite, hwidens⟩ := h.exists_site
  have hinside := hwidens.inside
  by_cases hfirst : i < first
  · exact .inr (Bytes.whiteAt_of_isBlank hwidens.before hstart hfirst (by omega))
  · by_cases hlast : i < last
    · exact .inl ⟨first, last, hsite.extent, Nat.le_of_not_lt hfirst, hlast⟩
    · exact .inr (Bytes.whiteAt_of_isBlank hwidens.after (Nat.le_of_not_lt hlast) hstop (by omega))

theorem ofFile_bounds (path content : Bytes) :
    ∀ e ∈ ofFile path content, e.start < e.stop ∧ e.stop ≤ content.length := by
  intro e he
  obtain ⟨d, _, hmends⟩ := exists_left_of_forall₂ (ofFile_mends path content) he
  obtain ⟨first, last, hsite, hwidens⟩ := hmends.exists_site
  have hlt := hsite.lt
  have hstart := hwidens.start_le
  have hstop := hwidens.le_stop
  exact ⟨by omega, hwidens.inside⟩

theorem ofFile_apart (path content : Bytes) :
    (ofFile path content).Pairwise fun e f => e.stop ≤ f.start := by
  have hordered : ((analyze path content).declarations.filter
      (isMendable (analyze path content))).Pairwise fun d e => d.stop ≤ e.start :=
    (List.pairwise_map.mp (importsOf_ordered (tokenize (.ofPath path) content)).apart).sublist
      List.filter_sublist
  refine pairwise_of_forall₂ (ofFile_mends path content) hordered ?_
  intro d d' e e' hmends hmends' hle
  obtain ⟨first, last, hsite, hwidens⟩ := hmends.exists_site
  obtain ⟨first', last', hsite', hwidens'⟩ := hmends'.exists_site
  exact hsite.apart hsite' hle hwidens hwidens'

theorem ofFile_replacements_apart (path content : Bytes) :
    Replacement.Apart content ((ofFile path content).map (·.toReplacement)) := by
  refine ⟨?_, ?_, List.pairwise_map.mpr (ofFile_apart path content)⟩
  · intro r hr
    obtain ⟨e, he, rfl⟩ := List.mem_map.mp hr
    exact Nat.le_of_lt (ofFile_bounds path content e he).1
  · intro r hr
    obtain ⟨e, he, rfl⟩ := List.mem_map.mp hr
    exact (ofFile_bounds path content e he).2

open Classical in
/-- Edits lie inside the file, each ends before the next one starts, and carrying them out makes all
of them. Each takes white space and bytes of its own declaration only, so what is neither white
space nor part of a mended declaration stays, in order. -/
theorem ofFile_confined (path content : Bytes) :
    (∀ e ∈ ofFile path content, e.start < e.stop ∧ e.stop ≤ content.length) ∧
      (ofFile path content).Pairwise (fun e f => e.stop ≤ f.start) ∧
      apply content (ofFile path content) =
        Replacement.substitute content ((ofFile path content).map (·.toReplacement)) ∧
      List.Forall₂
        (fun d e => Mends content (analyze path content) d e ∧
          ∀ i, e.start ≤ i → i < e.stop →
            d.Spans (analyze path content).tokens i ∨ content.WhiteAt i)
        ((analyze path content).declarations.filter (isMendable (analyze path content)))
        (ofFile path content) ∧
      ((content.zipIdx.filter fun x => ¬ content.WhiteAt x.2 ∧
          ∀ d ∈ (analyze path content).declarations.filter (isMendable (analyze path content)),
            ¬ d.Spans (analyze path content).tokens x.2).map (·.1)).Sublist
        (apply content (ofFile path content)) := by
  have happly : apply content (ofFile path content) =
      Replacement.substitute content ((ofFile path content).map (·.toReplacement)) :=
    Replacement.apply_eq_substitute (ofFile_replacements_apart path content)
  refine ⟨ofFile_bounds path content, ofFile_apart path content, happly, ?_, ?_⟩
  · exact (ofFile_mends path content).imp fun d e h =>
      ⟨h, fun i hstart hstop => h.spans_or_whiteAt hstart hstop⟩
  · rw [happly]
    refine Replacement.untaken_sublist content ?_
    intro x hx r hr htakes
    obtain ⟨hwhite, hforeign⟩ := of_decide_eq_true hx
    obtain ⟨e, he, rfl⟩ := List.mem_map.mp hr
    obtain ⟨d, hd, hmends⟩ := exists_left_of_forall₂ (ofFile_mends path content) he
    rcases hmends.spans_or_whiteAt htakes.1 htakes.2 with hspans | hblank
    · exact hforeign d hd hspans
    · exact hwhite hblank

end Edit

end UnusedImports

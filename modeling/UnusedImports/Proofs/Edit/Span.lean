import UnusedImports.Proofs.Edit.Removal
import UnusedImports.Proofs.Lexer.Boundary

/-! An edit covers the tokens of its declaration and blanks around them on one line. A line break in
a declaration on one line can only stand in a string. -/

namespace UnusedImports

/-! ### Lines -/

namespace Bytes

/-- The bytes of a stretch, by their offsets. -/
theorem mem_drop_take {s : Bytes} {b : UInt8} {i j k : Nat} (h : s[k]? = some b) (hi : i ≤ k)
    (hj : k < j) : b ∈ (s.take j).drop i := by
  refine List.mem_of_getElem? (i := k - i) ?_
  rw [List.getElem?_drop, List.getElem?_take, Nat.add_sub_cancel' hi, if_pos hj, h]

/-- An ASCII byte that is not blank stands in no blank text. -/
theorem notMem_of_isBlank {s : Bytes} (h : isBlank s = true) {b : UInt8} (hb : b < 0x80)
    (hnot : CodePoint.isBlank b.toNat = false) : b ∉ s := by
  intro hmem
  rw [isBlank_of_mem h hmem hb] at hnot
  cases hnot

/-- Between an offset and itself there is nothing. -/
theorem isBlank_drop_take_self (s : Bytes) (i : Nat) : isBlank ((s.take i).drop i) = true := by
  rw [List.drop_eq_nil_of_le (List.length_take_le _ _)]
  exact isBlank_nil

theorem newline_notMem_takeWhile (s : Bytes) : newline ∉ s.takeWhile (· != newline) := by
  intro hmem
  have hall := List.all_eq_true.mp List.all_takeWhile newline hmem
  simp at hall

theorem endsLine_dropWhile (s : Bytes) : EndsLine (s.dropWhile (· != newline)) := by
  cases hrest : s.dropWhile (· != newline) with
  | nil => exact .inl rfl
  | cons b rest =>
      have hb := List.head_dropWhile_not (p := (· != newline)) (l := s) (by simp [hrest])
      right
      simpa [hrest] using hb

variable {content : Bytes} {i : Nat}

/-- What stands before an offset on its line. -/
theorem exists_lineStart (hi : i ≤ content.length) :
    ∃ line, ((content.take i).reverse.takeWhile (· != newline)).reverse = line ∧
      (content.take i).drop (i - line.length) = line ∧ newline ∉ line ∧
      (i - line.length = 0 ∨ content[i - line.length - 1]? = some newline) := by
  refine ⟨_, rfl, ?_⟩
  have hsplit : content.take i = ((content.take i).reverse.dropWhile (· != newline)).reverse ++
      ((content.take i).reverse.takeWhile (· != newline)).reverse := by
    rw [← List.reverse_append, List.takeWhile_append_dropWhile, List.reverse_reverse]
  have hnone := newline_notMem_takeWhile (content.take i).reverse
  have hends := endsLine_dropWhile (content.take i).reverse
  generalize (content.take i).reverse.takeWhile (· != newline) = line at hsplit hnone ⊢
  generalize (content.take i).reverse.dropWhile (· != newline) = front at hsplit hends
  have hlength : i - line.reverse.length = front.length := by
    have := congrArg List.length hsplit
    simp only [List.length_take, List.length_append, List.length_reverse] at this ⊢
    omega
  rw [hlength]
  refine ⟨?_, by simpa using hnone, ?_⟩
  · rw [hsplit, ← List.length_reverse, List.drop_left]
  · rcases hends with rfl | hhead
    · exact .inl rfl
    · obtain ⟨rest, rfl⟩ := List.head?_eq_some_iff.mp hhead
      right
      have htake : (content.take i)[rest.length]? = some newline := by
        rw [hsplit]
        simp
      rw [List.getElem?_take] at htake
      split at htake
      · exact htake
      · cases htake

/-- What stands behind an offset on its line. -/
theorem exists_lineEnd (hi : i ≤ content.length) :
    ∃ line, (content.drop i).takeWhile (· != newline) = line ∧ line <+: content.drop i ∧
      i + line.length ≤ content.length ∧ (content.take (i + line.length)).drop i = line ∧
      newline ∉ line ∧
      (i + line.length < content.length → content[i + line.length]? = some newline) := by
  refine ⟨_, rfl, ?_⟩
  have hsplit : content.drop i = (content.drop i).takeWhile (· != newline) ++
      (content.drop i).dropWhile (· != newline) := List.takeWhile_append_dropWhile.symm
  have hnone := newline_notMem_takeWhile (content.drop i)
  have hends := endsLine_dropWhile (content.drop i)
  generalize (content.drop i).takeWhile (· != newline) = line at hsplit hnone ⊢
  generalize (content.drop i).dropWhile (· != newline) = back at hsplit hends
  have hlength := congrArg List.length hsplit
  simp only [List.length_drop, List.length_append] at hlength
  refine ⟨⟨back, hsplit.symm⟩, by omega, ?_, hnone, ?_⟩
  · rw [List.drop_take, Nat.add_sub_cancel_left, hsplit, List.take_left]
  · intro hlt
    rcases hends with rfl | hhead
    · simp only [List.length_nil] at hlength
      omega
    · have hget : (content.drop i)[line.length]? = some newline := by
        rw [hsplit, List.getElem?_append_right (Nat.le_refl _), Nat.sub_self,
          ← List.head?_eq_getElem?, hhead]
      rwa [List.getElem?_drop] at hget

end Bytes

namespace Edit

/-! ### Widening -/

/-- A stretch around another. What it adds is blank. It starts with the other, or at the start of
the line of that, and it ends at the latest behind the next line break. -/
structure Widens (content : Bytes) (first last start stop : Nat) : Prop where
  start_le : start ≤ first
  le_stop : last ≤ stop
  inside : stop ≤ content.length
  before : Bytes.isBlank ((content.take first).drop start) = true
  after : Bytes.isBlank ((content.take stop).drop last) = true
  lineStart : start = first ∨
    ((start = 0 ∨ content[start - 1]? = some Bytes.newline) ∧
      Bytes.newline ∉ (content.take first).drop start)
  lineEnd : ∀ j, last ≤ j → content[j]? = some Bytes.newline → stop ≤ j + 1

theorem Widens.refl {content : Bytes} {first last : Nat} (h : last ≤ content.length) :
    Widens content first last first last where
  start_le := Nat.le_refl _
  le_stop := Nat.le_refl _
  inside := h
  before := Bytes.isBlank_drop_take_self _ _
  after := Bytes.isBlank_drop_take_self _ _
  lineStart := .inl rfl
  lineEnd := fun _ hj _ => Nat.le_succ_of_le hj

theorem removalSpan_widens {content : Bytes} {first last : Nat} (hfirst : first ≤ content.length)
    (hlast : last ≤ content.length) :
    Widens content first last (removalSpan content first last).1
      (removalSpan content first last).2 := by
  obtain ⟨before, hbefore, hfront, hnobreak, hprevious⟩ := Bytes.exists_lineStart hfirst
  obtain ⟨after, hafter, hprefix, hinside, hback, hnoend, hnext⟩ := Bytes.exists_lineEnd hlast
  -- The first line break behind the stretch stands behind all of what is added.
  have hbreak : ∀ n, n ≤ after.length + 1 → ∀ j, last ≤ j → content[j]? = some Bytes.newline →
      last + n ≤ j + 1 := by
    intro n hn j hj hnewline
    by_contra hlt
    have hmem := Bytes.mem_drop_take (j := last + after.length) hnewline hj (by omega)
    rw [hback] at hmem
    exact hnoend hmem
  unfold removalSpan
  simp only [hbefore, hafter]
  split
  · next hblank =>
    rw [Bool.and_eq_true] at hblank
    have hstart : first - before.length = first ∨
        ((first - before.length = 0 ∨
          content[first - before.length - 1]? = some Bytes.newline) ∧
          Bytes.newline ∉ (content.take first).drop (first - before.length)) :=
      .inr ⟨hprevious, by rwa [hfront]⟩
    split
    · next hlt =>
      refine ⟨Nat.sub_le _ _, by omega, by omega, by rw [hfront]; exact hblank.1, ?_, hstart,
        hbreak _ (Nat.le_refl _)⟩
      rw [List.take_add_one, hnext hlt, List.drop_append_of_le_length, hback]
      · exact Bytes.isBlank_append hblank.2 Bytes.isBlank_newline
      · rw [List.length_take]
        omega
    · refine ⟨Nat.sub_le _ _, by omega, by omega, by rw [hfront]; exact hblank.1, ?_, hstart,
        hbreak _ (Nat.le_succ _)⟩
      rw [hback]
      exact hblank.2
  · have hspaces := List.takeWhile_prefix (fun b : UInt8 => b == 0x20 || b == 0x09) (l := after)
    have hle := hspaces.length_le
    refine ⟨Nat.le_refl _, Nat.le_add_right _ _, by omega, Bytes.isBlank_drop_take_self _ _, ?_,
      .inl rfl, hbreak _ (Nat.le_succ_of_le hle)⟩
    rw [List.drop_take, Nat.add_sub_cancel_left,
      ← List.prefix_iff_eq_take.mp (hspaces.trans hprefix)]
    refine Bytes.isBlank_of_spaces fun b hb => ?_
    simpa using List.all_eq_true.mp List.all_takeWhile b hb

/-! ### Declarations on one line -/

variable {dialect : Dialect} {content : Bytes} {d : Declaration} {first last : Nat}

/-- Where a declaration stands in a text. It starts with its keyword. A line break inside it can
only be that of a string, which is closed by a quote or ends with a line. -/
structure Site (dialect : Dialect) (content : Bytes) (d : Declaration) (first last : Nat) :
    Prop where
  extent : Extent (tokenize dialect content) d first last
  lt : first < last
  inside : last ≤ content.length
  keyword : content[first]? = some 'i'.toUInt8
  broken : (tokenize dialect content).drop d.stop ≠ [] → ∀ j, first ≤ j → j < last →
    content[j]? = some Bytes.newline →
      (∃ quote, Bytes.IsQuote quote ∧ content[last - 1]? = some quote) ∨
        EndsLine (content.drop last)

theorem getElem?_of_placed {t : Token} (h : t.Placed content) {i : Nat} (hi : i < t.text.length) :
    content[t.offset + i]? = t.text[i]? := by
  have hget : ((content.drop t.offset).take t.text.length)[i]? = content[t.offset + i]? := by
    rw [List.getElem?_take_of_lt hi, List.getElem?_drop]
  rw [← hget, ← h.text_eq]

/-- Between two places on one line there is no line break. -/
theorem not_newline_of_line_eq {i j k : Nat} (hi : i ≤ k) (hk : k < j)
    (h : (Position.start.advance (content.take i)).line =
      (Position.start.advance (content.take j)).line) : content[k]? ≠ some Bytes.newline := by
  intro hnewline
  have hmem := Bytes.mem_drop_take hnewline hi hk
  rw [Bytes.take_eq_append content (i := i) (j := j) (by omega), Position.advance_start,
    Position.advance_start, List.count_append] at h
  have hpos := List.count_pos_iff.mpr hmem
  simp only at h
  omega

/-- A line break in the last token of a declaration that others follow. -/
theorem closed_of_newline_mem {t : Token} {rest : List Token} (ht : t ∈ tokenize dialect content)
    (hfinal : Import.Final t rest) (hrest : rest ≠ []) (hnewline : Bytes.newline ∈ t.text) :
    (∃ quote, Bytes.IsQuote quote ∧ content[t.offset + t.text.length - 1]? = some quote) ∨
      EndsLine (content.drop (t.offset + t.text.length)) := by
  obtain ⟨_, hlexical⟩ := lexical_of_mem_tokenize ht
  cases hfinal with
  | word hkind =>
      rw [hkind] at hlexical
      exact absurd hnewline hlexical.newline_notMem
  | mark m hmark hm =>
      rw [(Token.isPunctuator_iff.mp hmark).2] at hnewline
      exact absurd hnewline hm
  | atEnd => exact absurd rfl hrest
  | quoted hkind =>
      rw [hkind] at hlexical
      rcases hlexical.string_cases with ⟨front, quote, hquote, htext⟩ | hend
      · refine .inl ⟨quote, hquote, ?_⟩
        have hlength : t.text.length = front.length + 1 := by simp [htext]
        have hlast :=
          getElem?_of_placed (placed_of_mem_tokenize ht) (i := front.length) (by omega)
        rw [hlength, ← Nat.add_assoc, Nat.add_sub_cancel]
        simpa [htext] using hlast
      · exact .inr hend

theorem Extent.site (h : Extent (tokenize dialect content) d first last)
    (hd : d ∈ importsOf (tokenize dialect content)) (hne : d.bindings ≠ [])
    (hsingle : d.isSingleLine (tokenize dialect content) = true) :
    Site dialect content d first last := by
  obtain ⟨keyword, read, hkeyword, hline, hown, hsplit, _⟩ := exists_own_of_mem_importsOf hd
  obtain ⟨front, final, hfront, hfinal⟩ := exists_last_of_mem_importsOf hd hne
  obtain ⟨t, ht, rfl⟩ := h.first
  obtain ⟨u, hu, rfl⟩ := h.last
  obtain rfl : keyword = t := by simpa [hown] using ht
  obtain rfl : final = u := by simpa [hfront] using hu
  have hkeywordMem : keyword ∈ tokenize dialect content := mem_of_mem_own (d := d) (by simp [hown])
  have hfinalMem : final ∈ tokenize dialect content := mem_of_mem_own (d := d) (by simp [hfront])
  have hplaced := placed_of_mem_tokenize hkeywordMem
  have htext : keyword.text = utf8 "import" := (Token.isWord_iff.mp hkeyword).2
  have hlength : keyword.text.length = 6 := by rw [htext]; rfl
  have hkeyword0 := getElem?_of_placed hplaced (i := 0) (by omega)
  -- The keyword is the last token, or it ends before that.
  have hbefore : keyword = final ∨ keyword.offset + keyword.text.length ≤ final.offset := by
    have hapart : (d.own (tokenize dialect content)).Pairwise
        fun t u => t.offset + t.text.length ≤ u.offset :=
      (tokenize_apart dialect content).sublist
        ((List.take_sublist _ _).trans (List.drop_sublist _ _))
    rw [hfront] at hapart
    cases front with
    | nil =>
        rw [hfront] at hown
        exact .inl (List.cons.inj hown).1.symm
    | cons x front =>
        rw [hfront] at hown
        obtain rfl := (List.cons.inj hown).1
        exact .inr ((List.pairwise_cons.mp hapart).1 final (by simp))
  have hsame : final.line = keyword.line :=
    (line_of_isSingleLine hd hfront hsingle).trans hline
  refine ⟨h, ?_, (placed_of_mem_tokenize hfinalMem).inside, ?_, ?_⟩
  · rcases hbefore with rfl | hle
    · omega
    · omega
  · rw [Nat.add_zero] at hkeyword0
    rw [hkeyword0, htext]
    rfl
  · intro hrest j hj hlast hnewline
    refine closed_of_newline_mem hfinalMem hfinal hrest ?_
    by_cases hlt : j < final.offset
    · refine absurd hnewline (not_newline_of_line_eq hj hlt ?_)
      rw [← hplaced.place, ← (placed_of_mem_tokenize hfinalMem).place]
      exact hsame.symm
    · have hget := getElem?_of_placed (placed_of_mem_tokenize hfinalMem)
        (i := j - final.offset) (by omega)
      rw [Nat.add_sub_cancel' (by omega), hnewline] at hget
      exact List.mem_of_getElem? hget.symm

/-! ### Declarations one after another -/

variable {e : Declaration} {next stop : Nat}

theorem Extent.exists_mem_drop {tokens : List Token} (h : Extent tokens e next stop) {n : Nat}
    (hn : n ≤ e.start) : ∃ t ∈ tokens.drop n, t.offset = next := by
  obtain ⟨t, ht, rfl⟩ := h.first
  refine ⟨t, ?_, rfl⟩
  have hmem := List.mem_of_mem_take (List.mem_of_mem_head? ht)
  rw [← Nat.add_sub_cancel' hn, ← List.drop_drop] at hmem
  exact List.mem_of_mem_drop hmem

theorem Extent.le_of_le {tokens : List Token} (h : Extent tokens d first last)
    (he : Extent tokens e next stop)
    (hapart : tokens.Pairwise fun t u => t.offset + t.text.length ≤ u.offset)
    (hle : d.stop ≤ e.start) : last ≤ next := by
  obtain ⟨t, ht, rfl⟩ := h.last
  obtain ⟨u, hu, rfl⟩ := he.exists_mem_drop hle
  rw [← List.take_append_drop d.stop tokens] at hapart
  refine (List.pairwise_append.mp hapart).2.2 t ?_ u hu
  have hmem := List.mem_of_getLast? ht
  rw [Declaration.own, ← List.drop_take] at hmem
  exact List.mem_of_mem_drop hmem

/-- A declaration ends before the line on which a later one stands alone. -/
theorem Site.lt_lineStart (h : Site dialect content d first last)
    (he : Site dialect content e next stop) (hle : d.stop ≤ e.start) {start : Nat}
    (hblank : Bytes.isBlank ((content.take next).drop start) = true)
    (hline : start = 0 ∨ content[start - 1]? = some Bytes.newline)
    (hnobreak : Bytes.newline ∉ (content.take next).drop start) : last < start := by
  have hnext := h.extent.le_of_le he.extent (tokenize_apart dialect content) hle
  have hlt := h.lt
  have hfollowed : (tokenize dialect content).drop d.stop ≠ [] := by
    obtain ⟨t, ht, _⟩ := he.extent.exists_mem_drop hle
    exact List.ne_nil_of_mem ht
  by_contra hge
  -- The keyword of the first declaration is not blank, so it stands on an earlier line.
  have hfirst : first < start := by
    by_contra hfirst
    have hmem := Bytes.mem_drop_take h.keyword (Nat.le_of_not_lt hfirst)
      (Nat.lt_of_lt_of_le hlt hnext)
    exact Bytes.notMem_of_isBlank hblank (by decide) (by decide) hmem
  have hbreak : content[start - 1]? = some Bytes.newline := hline.resolve_left (by omega)
  rcases h.broken hfollowed (start - 1) (by omega) (by omega) hbreak with
    ⟨quote, hquote, hlast⟩ | hend
  · by_cases heq : last = start
    · rw [heq, hbreak] at hlast
      rcases hquote with rfl | rfl
      · exact absurd hlast (by decide)
      · exact absurd hlast (by decide)
    · have hmem := Bytes.mem_drop_take hlast (i := start) (j := next) (by omega) (by omega)
      rcases hquote with rfl | rfl
      · exact Bytes.notMem_of_isBlank hblank (by decide) (by decide) hmem
      · exact Bytes.notMem_of_isBlank hblank (by decide) (by decide) hmem
  · have hinside := he.inside
    have hlater := he.lt
    rcases hend with hnil | hhead
    · rw [List.drop_eq_nil_iff] at hnil
      omega
    · rw [List.head?_drop] at hhead
      by_cases heq : last = next
      · rw [heq, he.keyword] at hhead
        exact absurd hhead (by decide)
      · exact hnobreak (Bytes.mem_drop_take hhead (by omega) (by omega))

/-- Edits of different declarations do not overlap. -/
theorem Site.apart (h : Site dialect content d first last)
    (he : Site dialect content e next stop) (hle : d.stop ≤ e.start) {a b a' b' : Nat}
    (hwidens : Widens content first last a b) (hlater : Widens content next stop a' b') :
    b ≤ a' := by
  have hnext := h.extent.le_of_le he.extent (tokenize_apart dialect content) hle
  rcases hlater.lineStart with rfl | ⟨hline, hnobreak⟩
  · by_contra hlt
    have hmem := Bytes.mem_drop_take he.keyword hnext (Nat.lt_of_not_le hlt)
    exact Bytes.notMem_of_isBlank hwidens.after (by decide) (by decide) hmem
  · have hlast := h.lt_lineStart he hle hlater.before hline hnobreak
    have hbreak := hline.resolve_left (by omega)
    have hend := hwidens.lineEnd (a' - 1) (by omega) hbreak
    omega

end Edit

end UnusedImports

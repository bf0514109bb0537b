import UnusedImports.Editor.CodeAction
import UnusedImports.Proofs.Edit.Confined
import UnusedImports.Proofs.Editor.Document

/-! The offsets of edits lie between code points, so their positions denote them again where 32 bits
hold them. -/

namespace UnusedImports

/-! ### Edits lie between code points -/

namespace Utf8.Boundary

variable {s : Bytes} {i j : Nat}

/-- A text can be cut behind white space. -/
theorem of_isBlank (h : Boundary s i) (hij : i ≤ j)
    (hblank : Bytes.isBlank ((s.take j).drop i) = true) : Boundary s j := by
  have hgap := Bytes.wellFormed_of_isBlank hblank
  have hback : s.drop i = (s.take j).drop i ++ s.drop j := by
    rw [List.drop_take]
    exact Replacement.drop_eq_take_append_drop s hij
  refine ⟨?_, WellFormed.of_append (hback ▸ h.2) hgap⟩
  rw [Bytes.take_eq_append s hij]
  exact h.1.append hgap

/-- A text can be cut at the start of a line. -/
theorem of_lineStart (h : WellFormed s) (hi : i = 0 ∨ s[i - 1]? = some Bytes.newline) :
    Boundary s i := by
  by_cases hzero : i = 0
  · rw [hzero]
    exact ⟨.nil, h⟩
  · have hbreak := hi.resolve_left hzero
    have hsplit : s = s.take (i - 1) ++ Bytes.newline :: s.drop i := by
      have hdrop : s.drop (i - 1) = Bytes.newline :: s.drop i := by
        obtain ⟨hlt, hget⟩ := List.getElem?_eq_some_iff.mp hbreak
        rw [List.drop_eq_getElem_cons hlt, hget, Nat.sub_add_cancel (by omega)]
      rw [← hdrop, List.take_append_drop]
    have hcut := WellFormed.cut (hsplit ▸ h) (by decide)
    refine ⟨?_, hcut.2⟩
    have htake : s.take i = s.take (i - 1) ++ [Bytes.newline] := by
      rw [show i = i - 1 + 1 by omega, List.take_add_one, Nat.add_sub_cancel, hbreak]
      rfl
    rw [htake]
    exact hcut.1.append (.ascii (by decide))

end Utf8.Boundary

theorem Edit.boundary_of_mem_ofFile {path content : Bytes} {e : Edit}
    (hwf : Utf8.WellFormed content) (he : e ∈ Edit.ofFile path content) :
    Utf8.Boundary content e.start ∧ Utf8.Boundary content e.stop := by
  obtain ⟨d, _, hmends⟩ := exists_left_of_forall₂ (ofFile_mends path content) he
  obtain ⟨first, last, hsite, hwidens⟩ := hmends.exists_site
  have htoken : ∀ t ∈ d.own (tokenize (.ofPath path) content),
      Utf8.Boundary content t.offset ∧ Utf8.Boundary content (t.offset + t.text.length) :=
    fun t ht => boundary_of_mem_tokenize hwf (mem_of_mem_own ht)
  obtain ⟨t, ht, rfl⟩ := hsite.extent.first
  obtain ⟨u, hu, rfl⟩ := hsite.extent.last
  constructor
  · rcases hwidens.lineStart with hstart | ⟨hstart, _⟩
    · rw [hstart]
      exact (htoken t (List.mem_of_mem_head? ht)).1
    · exact .of_lineStart hwf hstart
  · exact (htoken u (List.mem_of_getLast? hu)).2.of_isBlank hwidens.le_stop hwidens.after

namespace Editor

/-! ### What text edits make of a text -/

/-- A text edit and the replacement that it stands for. -/
structure TextEdit.Denotes (text : Bytes) (t : TextEdit) (r : Replacement) : Prop where
  range : t.range.Denotes text r.start r.stop
  text_eq : t.text = r.text

/-- Text edits make a text into another: their positions denote offsets, and the other text has the
replacements made at once. -/
def Rewrites (text : Bytes) (ts : List TextEdit) (result : Bytes) : Prop :=
  ∃ rs, List.Forall₂ (TextEdit.Denotes text) ts rs ∧ result = Replacement.substitute text rs

theorem TextEdit.rightUnique_denotes (text : Bytes) : Relator.RightUnique (Denotes text) := by
  intro t r s hr hs
  obtain ⟨hstart, hstop⟩ := hr.range.unique hs.range
  have htext := hr.text_eq.symm.trans hs.text_eq
  cases r
  cases s
  simp_all

/-- What is made of a text is known from any replacements that the edits stand for. -/
theorem rewrites_iff {text : Bytes} {ts : List TextEdit} {rs : List Replacement}
    (h : List.Forall₂ (TextEdit.Denotes text) ts rs) (result : Bytes) :
    Rewrites text ts result ↔ result = Replacement.substitute text rs := by
  constructor
  · rintro ⟨rs', h', rfl⟩
    rw [(TextEdit.rightUnique_denotes text).forall₂ h h']
  · intro hresult
    exact ⟨rs, h, hresult⟩

/-! ### Documents -/

variable {d : Document} {mark : Bytes}

/-- The part of a document for an edit covers the stretch of the edit, behind the mark. -/
theorem Document.Marked.edit_covers (h : d.Marked mark) (hcontent : Utf8.WellFormed d.content)
    {e : Edit} (he : e ∈ Edit.ofFile d.path d.content) :
    (d.range e.start e.stop).Covers d.text (e.start + mark.length) (e.stop + mark.length) := by
  have hbounds := Edit.ofFile_bounds d.path d.content e he
  obtain ⟨hstart, hstop⟩ := Edit.boundary_of_mem_ofFile hcontent he
  exact h.range_covers hstart (by omega) hstop hbounds.2

/-- 32 bits hold the ends of what edits of a content replace in the text behind a mark. -/
def Told (text mark : Bytes) (es : List Edit) : Prop :=
  ∀ e ∈ es, Fits text (e.start + mark.length) (e.stop + mark.length)

/-- Text edits of some of the edits of a document make of it what those edits make of its
content. -/
theorem rewrites_ofEdit_iff (hmark : d.Marked mark) (hcontent : Utf8.WellFormed d.content)
    {es : List Edit} (hes : es.Sublist (Edit.ofFile d.path d.content)) (htold : Told d.text mark es)
    (result : Bytes) :
    Rewrites d.text (es.map (TextEdit.ofEdit d)) result ↔
      result = mark ++ Edit.apply d.content es := by
  have hdenotes : List.Forall₂ (TextEdit.Denotes d.text) (es.map (TextEdit.ofEdit d))
      ((es.map (·.toReplacement)).map (Replacement.shift mark.length)) := by
    rw [List.map_map, List.forall₂_map_left_iff, List.forall₂_map_right_iff, List.forall₂_same]
    intro e he
    have hcovers := hmark.edit_covers hcontent (hes.subset he)
    exact ⟨(hcovers.denotes_iff (htold e he) _ _).mpr ⟨rfl, rfl⟩, rfl⟩
  have happly : Edit.apply d.content es =
      Replacement.substitute d.content (es.map (·.toReplacement)) :=
    Replacement.apply_eq_substitute
      ((Edit.ofFile_replacements_apart d.path d.content).sublist (hes.map _))
  rw [rewrites_iff hdenotes, hmark.text_eq, Replacement.substitute_append, happly]

/-! ### The actions of a document -/

theorem codeActions_none {extensions : List Bytes} (h : d.isHandled extensions = true) :
    codeActions extensions d none =
      (Edit.ofFile d.path d.content).map (CodeAction.ofEdit d) ++
        if 1 < (Edit.ofFile d.path d.content).length then
          [CodeAction.ofAll d (Edit.ofFile d.path d.content)] else [] := by
  have hall : (Edit.ofFile d.path d.content).filter (touches d none) =
      Edit.ofFile d.path d.content := List.filter_eq_self.mpr fun _ _ => rfl
  rw [codeActions, if_pos h]
  simp only [hall]
  generalize Edit.ofFile d.path d.content = es
  by_cases hes : 1 < es.length
  · have hne : es ≠ [] := by
      rintro rfl
      simp at hes
    simp [hes, hne]
  · simp [hes]

/-- The action for an edit of a document. Its only text edit covers the stretch of the edit, and
where its positions can be told, making it gives what carrying out the edit does. -/
structure CodeAction.Makes (d : Document) (mark : Bytes) (a : CodeAction) (e : Edit) : Prop where
  uri_eq : a.uri = d.uri
  edit : ∃ t, a.edits = [t] ∧ t.text = e.text ∧
    t.range.Covers d.text (e.start + mark.length) (e.stop + mark.length)
  rewrites_iff : Told d.text mark [e] → ∀ result,
    Rewrites d.text a.edits result ↔ result = mark ++ Edit.apply d.content [e]

/-- For a document that is analyzed and well formed, there is an action for each edit of its content
and, if there are several edits, one that has the text edits of all the others. In the document,
behind a byte order mark if there is one, the text edit of an action covers the stretch of its edit,
and making all text edits gives what carrying out all edits does, if 32 bits hold their
positions. -/
theorem codeActions_agree (extensions : List Bytes) (d : Document)
    (hhandled : d.isHandled extensions = true) (hvalid : Utf8.isValid d.text = true) :
    ∃ mark singles, d.Marked mark ∧
      codeActions extensions d none = singles ++
        (if 1 < (Edit.ofFile d.path d.content).length then
          [⟨utf8 "Remove all unused imports", d.uri, singles.flatMap (·.edits)⟩]
        else []) ∧
      List.Forall₂ (CodeAction.Makes d mark) singles (Edit.ofFile d.path d.content) ∧
      (d.text.length < UInt32.size → Told d.text mark (Edit.ofFile d.path d.content)) ∧
      (Told d.text mark (Edit.ofFile d.path d.content) → ∀ result,
        Rewrites d.text (singles.flatMap (·.edits)) result ↔
          result = mark ++ Edit.apply d.content (Edit.ofFile d.path d.content)) := by
  obtain ⟨mark, hmark⟩ := d.exists_marked
  have hcontent := hmark.wellFormed_content hvalid
  have hedits : ((Edit.ofFile d.path d.content).map (CodeAction.ofEdit d)).flatMap (·.edits) =
      (Edit.ofFile d.path d.content).map (TextEdit.ofEdit d) := by
    rw [List.flatMap_map, List.map_eq_flatMap]
    rfl
  refine ⟨mark, (Edit.ofFile d.path d.content).map (CodeAction.ofEdit d), hmark, ?_, ?_, ?_, ?_⟩
  · rw [codeActions_none hhandled, hedits]
    rfl
  · rw [List.forall₂_map_left_iff, List.forall₂_same]
    intro e he
    refine ⟨rfl, ⟨_, rfl, rfl, hmark.edit_covers hcontent he⟩, ?_⟩
    exact rewrites_ofEdit_iff hmark hcontent (List.singleton_sublist.mpr he)
  · exact fun hlength e he => (hmark.edit_covers hcontent he).fits_of_length_lt hlength
  · rw [hedits]
    exact rewrites_ofEdit_iff hmark hcontent (List.Sublist.refl _)

/-- A document with a byte order mark and a character of two code units on the line of an unused
import. -/
def sampleDocument : Document :=
  ⟨utf8 "file:///a.ts",
    Lines.byteOrderMark ++ utf8 "/* 😀 */ import a from 'a';\nimport b from 'b';\n"⟩

theorem codeActions_agree_sample :
    sampleDocument.isHandled [utf8 ".ts"] = true ∧ Utf8.isValid sampleDocument.text = true ∧
      sampleDocument.text.length < UInt32.size ∧
      ∃ singles, sampleDocument.Marked Lines.byteOrderMark ∧
        codeActions [utf8 ".ts"] sampleDocument none = singles ++
          (if 1 < (Edit.ofFile sampleDocument.path sampleDocument.content).length then
            [⟨utf8 "Remove all unused imports", sampleDocument.uri, singles.flatMap (·.edits)⟩]
          else []) ∧
        ∀ result, Rewrites sampleDocument.text (singles.flatMap (·.edits)) result ↔
          result = Lines.byteOrderMark ++ Edit.apply sampleDocument.content
            (Edit.ofFile sampleDocument.path sampleDocument.content) := by
  have hhandled : sampleDocument.isHandled [utf8 ".ts"] = true := by decide +kernel
  have hvalid : Utf8.isValid sampleDocument.text = true := by decide +kernel
  have hlength : sampleDocument.text.length < UInt32.size := by decide +kernel
  obtain ⟨mark, singles, hmark, hactions, _, htold, hall⟩ :=
    codeActions_agree [utf8 ".ts"] sampleDocument hhandled hvalid
  obtain rfl : mark = Lines.byteOrderMark :=
    hmark.mark_eq.trans (if_pos (List.prefix_append _ _))
  exact ⟨hhandled, hvalid, hlength, singles, hmark, hactions, hall (htold hlength)⟩

end Editor

end UnusedImports

import UnusedImports.Diff.LineDiff
import UnusedImports.Proofs.Diff.Script
import UnusedImports.Proofs.Text.Lines
import Mathlib

/-! A diff, read as a patch, takes the lines of the old text to those of the new one, whatever
search finds its script. -/

namespace UnusedImports.Diff

/-! ### Scripts over whole lines -/

/-- Parts that a text is cut into at line ends. Only the last one may end within a line. -/
structure IsCut (text : Bytes) (parts : List Bytes) : Prop where
  flatten_eq : parts.flatten = text
  whole : ∀ part ∈ parts.dropLast, part.getLast? = some Bytes.newline

/-- What is asked of a script between two texts: on each side its parts are whole lines and make up
the text, and none of them is empty. -/
structure IsScript (before after : Bytes) (script : List Piece) : Prop where
  old : IsCut before (partsWithout .insert script)
  new : IsCut after (partsWithout .delete script)
  ne_nil : ∀ p ∈ script, p.2 ≠ []

def linesWithout (op : Operation) (script : List Piece) : List Bytes :=
  (partsWithout op script).flatMap bareLines

theorem linesWithout_cons_self (op : Operation) (text : Bytes) (script : List Piece) :
    linesWithout op ((op, text) :: script) = linesWithout op script := by
  simp [linesWithout, partsWithout]

theorem linesWithout_cons {op op' : Operation} (h : op' ≠ op) (text : Bytes)
    (script : List Piece) :
    linesWithout op ((op', text) :: script) = bareLines text ++ linesWithout op script := by
  simp [linesWithout, partsWithout, h]

theorem IsCut.linesWithout_eq {text : Bytes} {op : Operation} {script : List Piece}
    (h : IsCut text (partsWithout op script)) : linesWithout op script = bareLines text := by
  rw [← h.flatten_eq, bareLines, Lines.splitAfter_flatten h.whole, List.map_flatMap]
  rfl

theorem bareLines_ne_nil {text : Bytes} (h : text ≠ []) : bareLines text ≠ [] := by
  simpa [bareLines, Lines.splitAfter_eq_nil_iff] using h

theorem newline_notMem_of_mem_bareLines {l text : Bytes} (h : l ∈ bareLines text) :
    Bytes.newline ∉ l := by
  obtain ⟨line, hline, rfl⟩ := List.mem_map.mp h
  obtain ⟨front, hfront, hends⟩ := Lines.exists_of_mem_splitAfter hline
  have hbare : bare line = bare front := by
    obtain rfl | rfl := hends
    · rfl
    · simp [bare]
  have hpre : bare front <+: front := List.rdropWhile_prefix _ front
  exact fun hmem => hfront (hpre.subset (hbare ▸ hmem))

/-! ### Patches -/

def Hunk.linesOf (op : Operation) (h : Hunk) : List Bytes :=
  (h.changes.filter (·.1 == op)).map (·.2)

/-- What hunks make of lines, given the number of the first line in the old and in the new text.
Lines are kept up to where a hunk starts. There the lines that it deletes have to come next, and the
ones that it inserts take their place. -/
def patch? : List Hunk → Nat → Nat → List Bytes → Option (List Bytes)
  | [], _, _, lines => some lines
  | h :: hs, o, n, lines =>
    let kept := lines.take (h.oldLine - o)
    let rest := lines.drop (h.oldLine - o)
    if o + kept.length = h.oldLine ∧ n + kept.length = h.newLine ∧ h.linesOf .delete <+: rest then
      (patch? hs (h.oldLine + (h.linesOf .delete).length) (h.newLine + (h.linesOf .insert).length)
        (rest.drop (h.linesOf .delete).length)).map (kept ++ h.linesOf .insert ++ ·)
    else none

/-- A hunk has at least one line below its head, and each of them is a deletion or an insertion. -/
structure Hunk.IsPrinted (h : Hunk) : Prop where
  ne_nil : h.changes ≠ []
  changed : ∀ c ∈ h.changes, c.1 ≠ .equal
  single : ∀ c ∈ h.changes, Bytes.newline ∉ c.2

/-- What makes hunks a patch from one list of lines to another. -/
structure IsPatch (before after : List Bytes) (hs : List Hunk) : Prop where
  printed : ∀ h ∈ hs, h.IsPrinted
  ascending : hs.Pairwise fun h k => h.oldLine < k.oldLine
  patch_eq : patch? hs 1 1 before = some after

theorem patch?_cons {h : Hunk} {o n : Nat} {front : List Bytes}
    (ho : o + front.length = h.oldLine) (hn : n + front.length = h.newLine) (hs : List Hunk)
    (rest : List Bytes) :
    patch? (h :: hs) o n (front ++ (h.linesOf .delete ++ rest)) =
      (patch? hs (h.oldLine + (h.linesOf .delete).length)
        (h.newLine + (h.linesOf .insert).length) rest).map (front ++ h.linesOf .insert ++ ·) := by
  have hlength : h.oldLine - o = front.length := by omega
  simp [patch?, hlength, ho, hn]

/-! ### Open hunks -/

/-- A hunk with its changes in order. -/
def Hunk.finished (h : Hunk) : Hunk := { h with changes := h.changes.reverse }

/-- The open hunk, or the one that the next change would open. -/
def opened (o n : Nat) (pending : Option Hunk) : Hunk := (pending.getD ⟨o, n, []⟩).finished

@[simp] theorem opened_none (o n : Nat) : opened o n none = ⟨o, n, []⟩ := rfl

theorem linesOf_nil (op : Operation) (o n : Nat) : (Hunk.mk o n []).linesOf op = [] := rfl

theorem opened_add (o n o' n' : Nat) (pending : Option Hunk) (op : Operation)
    (lines : List Bytes) :
    opened o' n' (hunks.add pending o n op lines) =
      { opened o n pending with
        changes := (opened o n pending).changes ++ lines.map fun l => (op, l) } := by
  simp [opened, hunks.add, Hunk.finished]

theorem linesOf_append_self (op : Operation) (o n : Nat) (changes : List (Operation × Bytes))
    (lines : List Bytes) :
    (Hunk.mk o n (changes ++ lines.map fun l => (op, l))).linesOf op =
      (Hunk.mk o n changes).linesOf op ++ lines := by
  simp [Hunk.linesOf, List.filter_map, Function.comp_def]

theorem linesOf_append_of_ne {op op' : Operation} (h : op' ≠ op) (o n : Nat)
    (changes : List (Operation × Bytes)) (lines : List Bytes) :
    (Hunk.mk o n (changes ++ lines.map fun l => (op', l))).linesOf op =
      (Hunk.mk o n changes).linesOf op := by
  simp [Hunk.linesOf, List.filter_map, Function.comp_def, h]

/-- The line numbers are those behind the open hunk, and as many lines in both texts lie between
the last hunk and this one. -/
structure Follows (o n : Nat) (pending : Option Hunk) (o' n' : Nat) (front : List Bytes) :
    Prop where
  old : o = (opened o n pending).oldLine + ((opened o n pending).linesOf .delete).length
  new : n = (opened o n pending).newLine + ((opened o n pending).linesOf .insert).length
  old_front : o' + front.length = (opened o n pending).oldLine
  new_front : n' + front.length = (opened o n pending).newLine

theorem Follows.gap {o n o' n' : Nat} {front : List Bytes} (ho : o' + front.length = o)
    (hn : n' + front.length = n) : Follows o n none o' n' front where
  old := rfl
  new := rfl
  old_front := ho
  new_front := hn

theorem Follows.delete {o n o' n' : Nat} {pending : Option Hunk} {front : List Bytes}
    (h : Follows o n pending o' n' front) (lines : List Bytes) :
    Follows (o + lines.length) n (hunks.add pending o n .delete lines) o' n' front := by
  obtain ⟨hold, hnew, hold_front, hnew_front⟩ := h
  constructor
  · rw [opened_add, linesOf_append_self, List.length_append, ← Nat.add_assoc]
    exact congrArg (· + lines.length) hold
  · rw [opened_add, linesOf_append_of_ne (by decide)]
    exact hnew
  · rwa [opened_add]
  · rwa [opened_add]

theorem Follows.insert {o n o' n' : Nat} {pending : Option Hunk} {front : List Bytes}
    (h : Follows o n pending o' n' front) (lines : List Bytes) :
    Follows o (n + lines.length) (hunks.add pending o n .insert lines) o' n' front := by
  obtain ⟨hold, hnew, hold_front, hnew_front⟩ := h
  constructor
  · rw [opened_add, linesOf_append_of_ne (by decide)]
    exact hold
  · rw [opened_add, linesOf_append_self, List.length_append, ← Nat.add_assoc]
    exact congrArg (· + lines.length) hnew
  · rwa [opened_add]
  · rwa [opened_add]

/-- The hunks from anywhere in a script on take the old lines from the last hunk on to the new
ones. -/
theorem patch?_hunks {script : List Piece} {o n o' n' : Nat} {pending : Option Hunk}
    {front : List Bytes} (h : Follows o n pending o' n' front) :
    patch? (hunks script o n pending) o' n'
        (front ++ ((opened o n pending).linesOf .delete ++ linesWithout .insert script)) =
      some (front ++ ((opened o n pending).linesOf .insert ++ linesWithout .delete script)) := by
  induction script generalizing o n o' n' pending front with
  | nil =>
      cases pending with
      | none => rfl
      | some g =>
          change patch? [opened o n (some g)] _ _ _ = _
          rw [patch?_cons h.old_front h.new_front]
          simp [patch?, linesWithout, partsWithout]
  | cons p script ih =>
      obtain ⟨op, text⟩ := p
      cases op with
      | equal =>
          rw [linesWithout_cons (by decide), linesWithout_cons (by decide)]
          cases pending with
          | none =>
              have hgap : Follows (o + (bareLines text).length) (n + (bareLines text).length) none
                  o' n' (front ++ bareLines text) := by
                apply Follows.gap
                · rw [List.length_append, ← Nat.add_assoc]
                  exact congrArg (· + _) h.old_front
                · rw [List.length_append, ← Nat.add_assoc]
                  exact congrArg (· + _) h.new_front
              simpa [hunks, hunks.close, linesOf_nil] using ih hgap
          | some g =>
              change patch? (opened o n (some g) :: hunks script _ _ none) _ _ _ = _
              rw [patch?_cons h.old_front h.new_front, ← h.old, ← h.new]
              have hgap : Follows (o + (bareLines text).length) (n + (bareLines text).length) none
                  o n (bareLines text) := Follows.gap rfl rfl
              have hrest := ih hgap
              rw [opened_none, linesOf_nil, linesOf_nil, List.nil_append, List.nil_append] at hrest
              rw [hrest, Option.map_some, List.append_assoc]
      | delete =>
          rw [linesWithout_cons (by decide), linesWithout_cons_self]
          have hrest := ih (h.delete (bareLines text))
          rw [opened_add, linesOf_append_self, linesOf_append_of_ne (by decide),
            List.append_assoc] at hrest
          exact hrest
      | insert =>
          rw [linesWithout_cons_self, linesWithout_cons (by decide)]
          have hrest := ih (h.insert (bareLines text))
          rw [opened_add, linesOf_append_self, linesOf_append_of_ne (by decide),
            List.append_assoc] at hrest
          exact hrest

/-! ### The hunks of a script -/

/-- A deletion or an insertion goes to the open hunk. -/
theorem exists_hunks_add {op : Operation} (h : op ≠ .equal) (text : Bytes) (script : List Piece)
    (o n : Nat) (pending : Option Hunk) :
    ∃ o' n', o ≤ o' ∧ hunks ((op, text) :: script) o n pending =
      hunks script o' n' (hunks.add pending o n op (bareLines text)) := by
  cases op with
  | equal => exact absurd rfl h
  | delete => exact ⟨o + (bareLines text).length, n, Nat.le_add_right .., rfl⟩
  | insert => exact ⟨o, n + (bareLines text).length, Nat.le_refl o, rfl⟩

theorem hunks_some_ne_nil (script : List Piece) (o n : Nat) (g : Hunk) :
    hunks script o n (some g) ≠ [] := by
  induction script generalizing o n g with
  | nil => exact List.cons_ne_nil _ _
  | cons p script ih =>
      by_cases hop : p.1 = .equal
      · obtain ⟨_, text⟩ := p
        subst hop
        exact List.cons_ne_nil _ _
      · obtain ⟨o', n', -, heq⟩ := exists_hunks_add hop p.2 script o n (some g)
        rw [heq]
        exact ih o' n' _

theorem partsWithout_eq_of_hunks_eq_nil {script : List Piece} {o n : Nat}
    (h : hunks script o n none = []) :
    partsWithout .insert script = partsWithout .delete script := by
  induction script generalizing o n with
  | nil => rfl
  | cons p script ih =>
      by_cases hop : p.1 = .equal
      · obtain ⟨_, text⟩ := p
        subst hop
        exact congrArg (text :: ·) (ih h)
      · obtain ⟨o', n', -, heq⟩ := exists_hunks_add hop p.2 script o n none
        exact absurd (heq ▸ h) (hunks_some_ne_nil script o' n' _)

theorem isPrinted_opened_add {op : Operation} {text : Bytes} {pending : Option Hunk}
    (hop : op ≠ .equal) (htext : text ≠ []) (h : ∀ g ∈ pending, g.finished.IsPrinted)
    (o n o' n' : Nat) : (opened o' n' (hunks.add pending o n op (bareLines text))).IsPrinted := by
  rw [opened_add]
  have hbefore : ∀ c ∈ (opened o n pending).changes, c.1 ≠ .equal ∧ Bytes.newline ∉ c.2 := by
    intro c hc
    cases pending with
    | none => exact absurd hc List.not_mem_nil
    | some g => exact ⟨(h g rfl).changed c hc, (h g rfl).single c hc⟩
  have hlines : ∀ c ∈ (bareLines text).map fun l => (op, l),
      c.1 ≠ .equal ∧ Bytes.newline ∉ c.2 := by
    intro c hc
    obtain ⟨l, hl, rfl⟩ := List.mem_map.mp hc
    exact ⟨hop, newline_notMem_of_mem_bareLines hl⟩
  have hall := List.forall_mem_append.mpr ⟨hbefore, hlines⟩
  constructor
  · simp [bareLines_ne_nil htext]
  · exact fun c hc => (hall c hc).1
  · exact fun c hc => (hall c hc).2

/-- The hunks from anywhere in a script on start at or behind the open one, each behind the one
before it, and none of them is empty. -/
theorem hunks_ordered {script : List Piece} (hne : ∀ p ∈ script, p.2 ≠ []) {o n : Nat}
    {pending : Option Hunk} (ho : (opened o n pending).oldLine ≤ o)
    (hpending : ∀ g ∈ pending, g.finished.IsPrinted) :
    (∀ k ∈ hunks script o n pending, (opened o n pending).oldLine ≤ k.oldLine ∧ k.IsPrinted) ∧
      (hunks script o n pending).Pairwise fun h k => h.oldLine < k.oldLine := by
  induction script generalizing o n pending with
  | nil =>
      cases pending with
      | none => exact ⟨fun k hk => absurd hk List.not_mem_nil, .nil⟩
      | some g =>
          refine ⟨fun k hk => ?_, List.pairwise_singleton _ _⟩
          obtain rfl : k = g.finished := List.mem_singleton.mp hk
          exact ⟨Nat.le_refl _, hpending g rfl⟩
  | cons p script ih =>
      rw [List.forall_mem_cons] at hne
      obtain ⟨hp, hscript⟩ := hne
      by_cases hop : p.1 = .equal
      · obtain ⟨_, text⟩ := p
        subst hop
        have hlines : 0 < (bareLines text).length := List.length_pos_iff.mpr (bareLines_ne_nil hp)
        have hopen : (opened (o + (bareLines text).length) (n + (bareLines text).length)
            none).oldLine ≤ o + (bareLines text).length := Nat.le_refl _
        obtain ⟨hrest, hascending⟩ := ih hscript hopen (by simp)
        have hlater : ∀ k ∈ hunks script (o + (bareLines text).length)
            (n + (bareLines text).length) none, o < k.oldLine := fun k hk =>
          Nat.lt_of_lt_of_le (Nat.lt_add_of_pos_right hlines) (hrest k hk).1
        cases pending with
        | none => exact ⟨fun k hk => ⟨(hlater k hk).le, (hrest k hk).2⟩, hascending⟩
        | some g =>
            change (∀ k ∈ g.finished :: _, _) ∧ (g.finished :: _).Pairwise _
            rw [List.forall_mem_cons, List.pairwise_cons]
            have hbehind := fun k hk => Nat.lt_of_le_of_lt ho (hlater k hk)
            exact ⟨⟨⟨Nat.le_refl _, hpending g rfl⟩, fun k hk =>
              ⟨(hbehind k hk).le, (hrest k hk).2⟩⟩, hbehind, hascending⟩
      · obtain ⟨o', n', hle, heq⟩ := exists_hunks_add hop p.2 script o n pending
        rw [heq]
        have hstart : (opened o' n' (hunks.add pending o n p.1 (bareLines p.2))).oldLine =
            (opened o n pending).oldLine := by rw [opened_add]
        rw [← hstart] at ho ⊢
        refine ih hscript (ho.trans hle) ?_
        intro g hg
        have hprinted := isPrinted_opened_add hop hp hpending o n o' n'
        rwa [Option.mem_def.mp hg] at hprinted

/-! ### Diffs -/

theorem patch?_script (script : List Piece) :
    patch? (hunks script 1 1 none) 1 1 (linesWithout .insert script) =
      some (linesWithout .delete script) := by
  have hgap : Follows 1 1 none 1 1 [] := .gap rfl rfl
  exact patch?_hunks hgap

theorem isPatch_hunks {before after : Bytes} {script : List Piece}
    (h : IsScript before after script) :
    IsPatch (bareLines before) (bareLines after) (hunks script 1 1 none) := by
  have hopen : (opened 1 1 none).oldLine ≤ 1 := Nat.le_refl 1
  obtain ⟨hwritten, hascending⟩ := hunks_ordered h.ne_nil hopen (by simp)
  have hpatch := patch?_script script
  rw [h.old.linesWithout_eq, h.new.linesWithout_eq] at hpatch
  exact ⟨fun k hk => (hwritten k hk).2, hascending, hpatch⟩

/-- By whichever script over whole lines, a diff is empty if the texts are the same, and only then.
If they are not, its hunks below the two lines at its head are a patch from the lines of the old
text to those of the new one. -/
theorem lineDiffBy_isPatch {search : Bytes → Bytes → List Piece} (name : Bytes)
    {before after : Bytes} (h : IsScript before after (search before after)) :
    (lineDiffBy search name before after = [] ↔ before = after) ∧
      (before ≠ after → ∃ hs, hs ≠ [] ∧ IsPatch (bareLines before) (bareLines after) hs ∧
        lineDiffBy search name before after =
          utf8 "--- a/" ++ name ++ utf8 "\n+++ b/" ++ name ++ utf8 "\n" ++
            hs.flatMap Hunk.render) := by
  by_cases heq : before = after
  · simp [lineDiffBy, heq]
  · have hdiff : lineDiffBy search name before after =
        utf8 "--- a/" ++ name ++ utf8 "\n+++ b/" ++ name ++ utf8 "\n" ++
          (hunks (search before after) 1 1 none).flatMap Hunk.render :=
      if_neg (by simpa using heq)
    refine ⟨?_, fun _ => ⟨_, ?_, isPatch_hunks h, hdiff⟩⟩
    · have hhead : utf8 "--- a/" ≠ [] := by decide
      simp [hdiff, hhead, heq]
    · intro hnil
      apply heq
      calc before = (partsWithout .insert (search before after)).flatten := h.old.flatten_eq.symm
        _ = (partsWithout .delete (search before after)).flatten := by
          rw [partsWithout_eq_of_hunks_eq_nil hnil]
        _ = after := h.new.flatten_eq

/-- The carriage return at the end of a line, and a last line without end. -/
def sampleBefore : Bytes := utf8 "a\nb\r\nc\nd"

/-- The sample without its first line, and with another one before the last. -/
def sampleAfter : Bytes := utf8 "b\r\nc\nx\nd\n"

theorem pieces_sample :
    pieces sampleBefore sampleAfter =
      [(.delete, utf8 "a\n"), (.equal, utf8 "b\r\nc\n"), (.delete, utf8 "d"),
        (.insert, utf8 "x\nd\n")] := by
  cbv

theorem isScript_sample : IsScript sampleBefore sampleAfter (pieces sampleBefore sampleAfter) := by
  rw [pieces_sample]
  constructor
  · exact ⟨by decide, by decide⟩
  · exact ⟨by decide, by decide⟩
  · decide

theorem lineDiffBy_isPatch_sample :
    IsScript sampleBefore sampleAfter (pieces sampleBefore sampleAfter) ∧
      ∃ hs, hs ≠ [] ∧ IsPatch (bareLines sampleBefore) (bareLines sampleAfter) hs ∧
        lineDiff (utf8 "f.ts") sampleBefore sampleAfter =
          utf8 "--- a/" ++ utf8 "f.ts" ++ utf8 "\n+++ b/" ++ utf8 "f.ts" ++ utf8 "\n" ++
            hs.flatMap Hunk.render :=
  ⟨isScript_sample, (lineDiffBy_isPatch (utf8 "f.ts") isScript_sample).2 (by decide)⟩

example : lineDiff (utf8 "f.ts") sampleBefore sampleAfter =
    utf8 "--- a/f.ts\n+++ b/f.ts\n@@ -1 +1 @@\n-a\n@@ -4 +3 @@\n-d\n+x\n+d\n" := by
  cbv

/-! ### The script that is found -/

theorem linesWithout_pieces {text : Bytes} {op : Operation} {steps : List Step}
    (h : side op steps = Lines.splitAfter text) :
    linesWithout op (steps.map fun s => (s.1, s.2.flatten)) = bareLines text := by
  have hparts : partsWithout op (steps.map fun s => (s.1, s.2.flatten)) =
      (partsWithout op steps).map List.flatten := by
    simp [partsWithout, List.filter_map, Function.comp_def]
  have hcut := Lines.flatMap_splitAfter_flatten h.symm
  rw [linesWithout, hparts, List.flatMap_map, bareLines, ← h, side, ← hcut, List.map_flatMap]
  rfl

/-- The diff of any two texts takes the lines of the old one to those of the new one, whatever
script is found between them. -/
theorem exists_patch_lineDiff (name before after : Bytes) :
    ∃ hs, patch? hs 1 1 (bareLines before) = some (bareLines after) ∧
      (before ≠ after → lineDiff name before after =
        utf8 "--- a/" ++ name ++ utf8 "\n+++ b/" ++ name ++ utf8 "\n" ++
          hs.flatMap Hunk.render) := by
  have hmakes := makes_compare (Lines.splitAfter before) (Lines.splitAfter after)
  have hpatch := patch?_script (pieces before after)
  rw [pieces, linesWithout_pieces hmakes.old, linesWithout_pieces hmakes.new] at hpatch
  exact ⟨_, hpatch, fun hne => if_neg (by simpa using hne)⟩

end UnusedImports.Diff

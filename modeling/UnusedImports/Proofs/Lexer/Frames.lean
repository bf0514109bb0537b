import UnusedImports.Proofs.Lexer.Coverage

/-! Depths do not go down with the nesting, under a closing tag is the text of an element, and a tag
is covered by its expression containers only. -/

namespace UnusedImports

/-- The depth of braces at which a right brace ends a frame. -/
def Frame.depth? : Frame → Option Nat
  | .template d => some d
  | .expression d => some d
  | .tag .. => none
  | .children => none

/-- What is open, innermost first, is well nested at a depth of braces. -/
structure WellNested (depth : Nat) (frames : List Frame) : Prop where
  ordered : (frames.filterMap Frame.depth?).Pairwise (· ≥ ·)
  bounded : ∀ d ∈ frames.filterMap Frame.depth?, d ≤ depth
  closing : ∀ named attributes outer, .tag true named attributes :: outer <:+ frames →
    outer.head? = some .children
  covered : ∀ f closing named attributes outer,
    f :: .tag closing named attributes :: outer <:+ frames → ∃ d, f = .expression d

namespace WellNested

variable {depth : Nat} {f : Frame} {frames outer : List Frame}

theorem nil (depth : Nat) : WellNested depth [] where
  ordered := .nil
  bounded := fun _ hd => nomatch hd
  closing := fun _ _ _ h => nomatch List.suffix_nil.mp h
  covered := fun _ _ _ _ _ h => nomatch List.suffix_nil.mp h

theorem mono (h : WellNested depth frames) {more : Nat} (hle : depth ≤ more) :
    WellNested more frames :=
  ⟨h.ordered, fun d hd => Nat.le_trans (h.bounded d hd) hle, h.closing, h.covered⟩

theorem of_suffix (h : WellNested depth frames) (hsuffix : outer <:+ frames) :
    WellNested depth outer where
  ordered := h.ordered.sublist (hsuffix.sublist.filterMap _)
  bounded := fun d hd => h.bounded d ((hsuffix.sublist.filterMap _).subset hd)
  closing := fun _ _ _ htag => h.closing _ _ _ (htag.trans hsuffix)
  covered := fun _ _ _ _ _ htag => h.covered _ _ _ _ _ (htag.trans hsuffix)

theorem tail (h : WellNested depth frames) : WellNested depth frames.tail :=
  h.of_suffix (List.tail_suffix frames)

/-- Where no tag is on top, a frame is opened at the present depth. -/
theorem cons (h : WellNested depth outer) (hdepth : ∀ d ∈ f.depth?, d = depth)
    (hclosing : ∀ named attributes, f = .tag true named attributes →
      outer.head? = some .children)
    (hcovered : ∀ closing named attributes, outer.head? = some (.tag closing named attributes) →
      ∃ d, f = .expression d) : WellNested depth (f :: outer) where
  ordered := by
    cases hf : f.depth? with
    | none => exact (List.filterMap_cons_none hf).symm ▸ h.ordered
    | some d =>
        obtain rfl := hdepth d hf
        exact (List.filterMap_cons_some hf).symm ▸ h.ordered.cons h.bounded
  bounded := by
    intro d hd
    obtain ⟨g, hg, hgd⟩ := List.mem_filterMap.mp hd
    rcases List.mem_cons.mp hg with rfl | hg
    · exact Nat.le_of_eq (hdepth d hgd)
    · exact h.bounded d (List.mem_filterMap.mpr ⟨g, hg, hgd⟩)
  closing := by
    intro named attributes inner hsuffix
    rcases List.suffix_cons_iff.mp hsuffix with htop | hsuffix
    · obtain ⟨rfl, rfl⟩ := List.cons.inj htop
      exact hclosing _ _ rfl
    · exact h.closing _ _ _ hsuffix
  covered := by
    intro g closing named attributes inner hsuffix
    rcases List.suffix_cons_iff.mp hsuffix with htop | hsuffix
    · obtain ⟨rfl, rfl⟩ := List.cons.inj htop
      exact hcovered _ _ _ rfl
    · exact h.covered _ _ _ _ _ hsuffix

theorem expression (h : WellNested depth frames) :
    WellNested depth (.expression depth :: frames) :=
  h.cons (fun _ hd => (Option.some.inj hd).symm) (fun _ _ htag => nomatch htag)
    (fun _ _ _ _ => ⟨depth, rfl⟩)

theorem template (h : WellNested depth frames)
    (htop : ∀ closing named attributes, frames.head? ≠ some (.tag closing named attributes)) :
    WellNested depth (.template depth :: frames) :=
  h.cons (fun _ hd => (Option.some.inj hd).symm) (fun _ _ htag => nomatch htag)
    (fun _ _ _ htag => absurd htag (htop _ _ _))

theorem children (h : WellNested depth frames)
    (htop : ∀ closing named attributes, frames.head? ≠ some (.tag closing named attributes)) :
    WellNested depth (.children :: frames) :=
  h.cons (fun _ hd => nomatch hd) (fun _ _ htag => nomatch htag)
    (fun _ _ _ htag => absurd htag (htop _ _ _))

theorem tag (h : WellNested depth frames) {closing : Bool} (named : Bool) (attributes : Nat)
    (hclosing : closing = true → frames.head? = some .children)
    (htop : ∀ closing named attributes, frames.head? ≠ some (.tag closing named attributes)) :
    WellNested depth (.tag closing named attributes :: frames) :=
  h.cons (fun _ hd => nomatch hd) (fun _ _ htag => hclosing (by injection htag))
    (fun _ _ _ htag => absurd htag (htop _ _ _))

/-- Under a tag is no other tag. -/
theorem not_tag_of_tag {closing named : Bool} {attributes : Nat}
    (h : WellNested depth (.tag closing named attributes :: outer)) (closing' named' : Bool)
    (attributes' : Nat) : outer.head? ≠ some (.tag closing' named' attributes') := by
  intro htag
  obtain ⟨inner, rfl⟩ := List.head?_eq_some_iff.mp htag
  obtain ⟨_, hf⟩ := h.covered _ _ _ _ _ (List.suffix_refl _)
  cases hf

theorem head?_of_closing {named : Bool} {attributes : Nat}
    (h : WellNested depth (.tag true named attributes :: outer)) :
    outer.head? = some .children :=
  h.closing _ _ _ (List.suffix_refl _)

end WellNested

namespace Lexer

variable {dialect : Dialect} {lx next : Lexer}

/-! ### Right braces -/

/-- What a right brace of code does. It closes a block, or it ends the innermost frame, behind which
a template may go on and open its next substitution, or it has nothing to close. -/
inductive ClosesBrace (lx next : Lexer) : Prop where
  | block : (∀ f ∈ lx.frames.head?, f.depth? ≠ some lx.depth) → next.depth + 1 = lx.depth →
      next.frames = lx.frames → ClosesBrace lx next
  | frame {f outer} : lx.frames = f :: outer → f.depth? = some lx.depth → next.depth = lx.depth →
      next.frames = outer ∨ f = .template lx.depth ∧ next.frames = f :: outer →
      ClosesBrace lx next
  | unmatched : lx.frames = [] → lx.depth = 0 → next.frames = [] → next.depth = 0 →
      ClosesBrace lx next

theorem InCode.frames_cases (h : lx.InCode) :
    lx.frames = [] ∨ ∃ f outer d, lx.frames = f :: outer ∧ f.depth? = some d := by
  cases hframes : lx.frames with
  | nil => exact .inl rfl
  | cons f outer =>
      right
      cases f with
      | template d => exact ⟨_, _, d, rfl, rfl⟩
      | expression d => exact ⟨_, _, d, rfl, rfl⟩
      | tag closing named attributes =>
          exact absurd (by rw [hframes]; rfl) (h.not_tag closing named attributes)
      | children => exact absurd (by rw [hframes]; rfl) h.not_children

/-- A brace that ends no frame closes a block, if one is open. -/
theorem closesBrace_block (hcode : lx.InCode) (h : WellNested lx.depth lx.frames)
    (hframe : ∀ f ∈ lx.frames.head?, f.depth? ≠ some lx.depth) :
    ClosesBrace lx { lx.emit .punctuation 1 with depth := lx.depth - 1 } := by
  rcases Nat.eq_zero_or_pos lx.depth with hzero | hpos
  · rcases hcode.frames_cases with hnil | ⟨f, outer, d, hcons, hd⟩
    · exact .unmatched hnil hzero hnil (congrArg (· - 1) hzero)
    · have hbound : d ≤ lx.depth :=
        h.bounded d (by rw [hcons, List.filterMap_cons_some hd]; exact List.mem_cons_self)
      refine absurd ?_ (hframe f (by rw [hcons]; rfl))
      rw [hd, Nat.le_antisymm hbound (hzero ▸ Nat.zero_le d)]
  · exact .block hframe (Nat.sub_add_cancel hpos) rfl

theorem scanTemplate_frames (k : Nat) (lx : Lexer) :
    (lx.scanTemplate k).depth = lx.depth ∧
      ((lx.scanTemplate k).frames = lx.frames ∨
        (lx.scanTemplate k).frames = .template lx.depth :: lx.frames) := by
  unfold scanTemplate
  split
  · exact ⟨rfl, .inr rfl⟩
  · exact ⟨rfl, .inl rfl⟩

theorem BraceRule.closesBrace (hrule : BraceRule lx next) (hcode : lx.InCode)
    (h : WellNested lx.depth lx.frames) : ClosesBrace lx next := by
  cases hrule with
  | @substitution outer hframes =>
      obtain ⟨hdepth, hopened⟩ := scanTemplate_frames 0 (lx.emit .punctuation 1).pop
      have htail : (lx.emit .punctuation 1).pop.frames = outer := congrArg List.tail hframes
      rw [htail] at hopened
      exact .frame hframes rfl hdepth (hopened.imp_right fun hopen => ⟨rfl, hopen⟩)
  | container hframes => exact .frame hframes rfl rfl (.inl (congrArg List.tail hframes))
  | block htemplate hcontainer =>
      refine closesBrace_block hcode h fun f hf heq => ?_
      cases f with
      | template d => exact htemplate (Option.some.inj heq ▸ hf)
      | expression d => exact hcontainer (Option.some.inj heq ▸ hf)
      | tag => cases heq
      | children => cases heq

theorem ClosesBrace.wellNested (hbrace : ClosesBrace lx next) (hcode : lx.InCode)
    (h : WellNested lx.depth lx.frames) : WellNested next.depth next.frames := by
  cases hbrace with
  | block hframe hdepth hframes =>
      -- All frames were opened below the depth, since the innermost was and depths are ordered.
      rw [hframes]
      refine ⟨h.ordered, fun d hd => ?_, h.closing, h.covered⟩
      rcases hcode.frames_cases with hnil | ⟨f, outer, top, hcons, htop⟩
      · rw [hnil] at hd
        cases hd
      · have hordered := h.ordered
        have hbound := h.bounded
        have hne := hframe f (by rw [hcons]; rfl)
        rw [hcons, List.filterMap_cons_some htop] at hd hordered hbound
        have htopBound := hbound top List.mem_cons_self
        have htopNe : top ≠ lx.depth := fun heq => hne (by rw [htop, heq])
        rcases List.mem_cons.mp hd with rfl | hd
        · omega
        · have := (List.pairwise_cons.mp hordered).1 d hd
          omega
  | @frame f outer hcons hd hdepth hframes =>
      rw [hdepth]
      rcases hframes with hframes | ⟨-, hframes⟩
      · rw [hframes]
        exact h.of_suffix (hcons ▸ List.suffix_cons f outer)
      · rw [hframes, ← hcons]
        exact h
  | unmatched _ _ hframes _ => exact hframes ▸ .nil _

/-! ### Steps -/

theorem scanOpenTag_wellNested (h : WellNested lx.depth lx.frames)
    (hclosing : lx.rest.tail.head? = some Bytes.slash → lx.frames.head? = some .children)
    (htop : ∀ closing named attributes, lx.frames.head? ≠ some (.tag closing named attributes)) :
    WellNested lx.scanOpenTag.depth lx.scanOpenTag.frames :=
  h.tag false 0 (fun hslash => hclosing (eq_of_beq hslash)) htop

theorem head?_ne_slash_of_opensMarkup {s : Bytes} (h : lx.opensMarkup dialect s = true) :
    s.head? ≠ some Bytes.slash := by
  intro hslash
  obtain ⟨more, rfl⟩ := List.head?_eq_some_iff.mp hslash
  have hdecode : Utf8.decode (Bytes.slash :: more) = (Bytes.slash.toNat, 1) :=
    Utf8.decode_ascii (by decide) more
  have hstart : Identifier.isStart Bytes.slash.toNat = false := by decide
  simp [opensMarkup, hdecode, hstart] at h
  exact absurd h.1.2 (by decide)

theorem CodeRule.wellNested (hrule : CodeRule dialect lx next) (hcode : lx.InCode)
    (h : WellNested lx.depth lx.frames) : WellNested next.depth next.frames := by
  cases hrule with
  | done => exact h
  | template =>
      obtain ⟨hdepth, hframes⟩ := scanTemplate_frames 1 lx
      rw [hdepth]
      rcases hframes with hframes | hframes
      · exact hframes ▸ h
      · exact hframes ▸ h.template hcode.not_tag
  | openBrace => exact h.mono (Nat.le_succ _)
  | closeBrace => exact (lx.scanCloseBrace_rule.closesBrace hcode h).wellNested hcode h
  | openTag hrest hopens =>
      -- In code a tag opens only before a name or a right angle, so `</` opens none.
      refine scanOpenTag_wellNested h (fun hslash => ?_) hcode.not_tag
      rw [hrest, List.tail_cons] at hslash
      exact absurd hslash (head?_ne_slash_of_opensMarkup hopens)
  | plain => exact h

theorem TagRule.wellNested {closing named : Bool} {attributes : Nat} {outer : List Frame}
    (hrule : TagRule closing named attributes lx next)
    (hframes : lx.frames = .tag closing named attributes :: outer)
    (h : WellNested lx.depth lx.frames) : WellNested next.depth next.frames := by
  have htag := hframes ▸ h
  have hpop : lx.pop.frames = outer := congrArg List.tail hframes
  have houter : WellNested lx.depth lx.pop.frames := h.tail
  have htop := hpop ▸ htag.not_tag_of_tag
  have hclosing : closing = true → lx.pop.frames.head? = some .children := by
    rintro rfl
    exact hpop ▸ htag.head?_of_closing
  cases hrule with
  | done => exact h
  | opened => exact houter.children htop
  | closed => exact houter.tail
  | stray => exact houter
  | closesItself => exact houter
  | container => exact h.expression
  | quoted => exact h
  | joint => exact h
  | tagName => exact houter.tag true attributes hclosing htop
  | constraint => exact houter
  | attributeName => exact houter.tag named (attributes + 1) hclosing htop
  | givenUp => exact houter

theorem OpeningRule.wellNested (hrule : OpeningRule lx next)
    (hchildren : lx.frames.head? = some .children) (h : WellNested lx.depth lx.frames) :
    WellNested next.depth next.frames := by
  cases hrule with
  | done => exact h
  | container => exact h.expression
  | tag =>
      refine scanOpenTag_wellNested h (fun _ => hchildren) fun _ _ _ htag => ?_
      rw [hchildren] at htag
      cases htag

theorem scanMarkup_frames (lx : Lexer) :
    lx.scanMarkup.depth = lx.depth ∧ lx.scanMarkup.frames = lx.frames := by
  rcases lx.scanMarkup_cases with ⟨-, htext⟩ | ⟨-, htext⟩
  · rw [htext]
    exact ⟨rfl, rfl⟩
  · rw [htext]
    exact ⟨rfl, rfl⟩

theorem scan_wellNested (dialect : Dialect) (h : WellNested lx.depth lx.frames) :
    WellNested (lx.scan dialect).depth (lx.scan dialect).frames := by
  rcases scan_cases dialect lx with ⟨hchildren, hscan⟩ | ⟨_, _, _, hframe, hscan⟩ | ⟨hcode, hscan⟩
  · obtain ⟨hdepth, hframes⟩ := scanMarkup_frames lx
    rw [hscan, scanChildren_eq]
    exact lx.scanMarkup.scanOpening_rule.wellNested (hframes ▸ hchildren) (hdepth ▸ hframes ▸ h)
  · obtain ⟨outer, hframes⟩ := List.head?_eq_some_iff.mp hframe
    exact hscan ▸ (scanTag_rule _ _ _ lx).wellNested hframes h
  · exact hscan ▸ (scanCode_rule dialect lx).wellNested hcode h

/-! ### Rounds -/

@[simp] theorem settle_depth (lx : Lexer) : lx.settle.depth = lx.depth := by
  unfold settle
  split <;> rfl

theorem settle_wellNested (h : WellNested lx.depth lx.frames) :
    WellNested lx.settle.depth lx.settle.frames := by
  rw [settle_depth, settle_frames]
  exact h

theorem skipHashbang_wellNested (source : Bytes) :
    WellNested (ofSource source).skipHashbang.depth (ofSource source).skipHashbang.frames := by
  rw [skipHashbang_frames]
  exact .nil _

/-- In every round what is open is well nested. So a right brace of code ends the innermost frame
that was opened at its depth, or a block, and it is unmatched only where nothing is open; and the
`>` of a closing tag ends one element. -/
theorem wellNested_of_rounds {source : Bytes}
    (h : Relation.ReflTransGen (Round dialect) (ofSource source).skipHashbang lx) :
    WellNested lx.depth lx.frames ∧
      (lx.InCode → lx.settle.rest.head? = some Bytes.closeBrace →
        ClosesBrace lx.settle (lx.settle.scan dialect)) ∧
      ∀ named attributes inner, lx.frames = .tag true named attributes :: inner →
        lx.settle.rest.head? = some '>'.toUInt8 →
        ∃ outer, inner = .children :: outer ∧ (lx.settle.scan dialect).frames = outer := by
  have hnested : WellNested lx.depth lx.frames :=
    rounds_preserve (P := fun lx => WellNested lx.depth lx.frames)
      (fun _ h => settle_wellNested h) (fun _ _ h => scan_wellNested dialect h) h
      (skipHashbang_wellNested source)
  refine ⟨hnested, fun hcode hbrace => ?_, fun named attributes inner hframes hangle => ?_⟩
  · have hcode : lx.settle.InCode := hcode.congr (settle_frames lx)
    obtain ⟨s, hrest⟩ := List.head?_eq_some_iff.mp hbrace
    rw [hcode.scan_eq, (CodeRule.closeBrace hrest).eq]
    exact lx.settle.scanCloseBrace_rule.closesBrace hcode (settle_wellNested hnested)
  · obtain ⟨outer, rfl⟩ := List.head?_eq_some_iff.mp (hframes ▸ hnested).head?_of_closing
    rw [← settle_frames] at hframes
    obtain ⟨s, hrest⟩ := List.head?_eq_some_iff.mp hangle
    refine ⟨outer, rfl, ?_⟩
    rw [scan_of_tag (by rw [hframes]; rfl),
      (TagRule.closed hrest rfl (by rw [hframes]; rfl)).eq, pop_frames, pop_frames, emit_frames,
      hframes]
    rfl

theorem rounds_repeat {n : Nat}
    (h : ∀ m < n, (Nat.repeat (fun lx => lx.settle.scan dialect) m lx).settle.rest ≠ []) :
    Relation.ReflTransGen (Round dialect) lx
      (Nat.repeat (fun lx => lx.settle.scan dialect) n lx) := by
  induction n with
  | zero => exact .refl
  | succ n ih =>
      have hrounds := ih fun m hm => h m (Nat.lt_succ_of_lt hm)
      exact hrounds.tail ⟨h n (Nat.lt_succ_self n), rfl⟩

/-- Inside an attribute, a block and a substitution, a closing tag ends its element. -/
theorem wellNested_of_rounds_sample :
    ∃ lx, Relation.ReflTransGen (Round .markup)
        (ofSource (utf8 "<p a=\x7b\x7b`$\x7b<b></>")).skipHashbang lx ∧
      lx.frames = [.tag true false 0, .children, .template 1, .expression 0, .tag false true 1] ∧
      WellNested lx.depth lx.frames ∧
      (lx.settle.scan .markup).frames = [.template 1, .expression 0, .tag false true 1] := by
  have hrounds : Relation.ReflTransGen (Round .markup)
      (ofSource (utf8 "<p a=\x7b\x7b`$\x7b<b></>")).skipHashbang _ :=
    rounds_repeat (n := 11) (by decide +kernel)
  obtain ⟨hnested, -, hclosing⟩ := wellNested_of_rounds hrounds
  refine ⟨_, hrounds, by decide +kernel, hnested, ?_⟩
  obtain ⟨outer, houter, hframes⟩ := hclosing false 0
    [.children, .template 1, .expression 0, .tag false true 1] (by decide +kernel)
    (by decide +kernel)
  rw [hframes, ← (List.cons.inj houter).2]

end Lexer

end UnusedImports

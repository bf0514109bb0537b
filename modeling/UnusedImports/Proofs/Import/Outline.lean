import UnusedImports.Source.Reexport

/-! The readers of declarations and of re-exports do not look at the offsets of tokens, nor into
literals. -/

namespace UnusedImports

/-! ### Outlines -/

/-- A token without its offset, and without its text if that is a literal. Of a literal the readers
ask only whether it reads `as`. -/
def Token.outline (t : Token) : Token :=
  { t with
    offset := 0
    text := if t.kind == .identifier || t.kind == .punctuation || t.text == utf8 "as" then t.text
      else [] }

/-- A binding without the name that it has in its module. -/
def Binding.outline (b : Binding) : Binding := { b with imported := [] }

/-- A declaration without its module. -/
def Declaration.outline (d : Declaration) : Declaration :=
  { d with source := [], bindings := d.bindings.map Binding.outline }

namespace Token

@[simp] theorem outline_kind (t : Token) : t.outline.kind = t.kind := rfl

@[simp] theorem outline_line (t : Token) : t.outline.line = t.line := rfl

@[simp] theorem outline_column (t : Token) : t.outline.column = t.column := rfl

theorem outline_text_of_identifier {t : Token} (h : t.kind = .identifier) :
    t.outline.text = t.text := by
  simp [outline, h]

@[simp] theorem outline_isWord (t : Token) (word : String) :
    t.outline.isWord word = t.isWord word := by
  cases hkind : t.kind == .identifier with
  | true => simp [isWord, outline, hkind]
  | false => simp [isWord, hkind]

@[simp] theorem outline_isPunctuator (t : Token) (mark : String) :
    t.outline.isPunctuator mark = t.isPunctuator mark := by
  cases hkind : t.kind == .punctuation with
  | true => simp [isPunctuator, outline, hkind]
  | false => simp [isPunctuator, hkind]

@[simp] theorem outline_ne_as (t : Token) :
    (t.outline.text != utf8 "as") = (t.text != utf8 "as") := by
  cases has : t.text == utf8 "as" with
  | true => simp [outline, has]
  | false =>
      have htext : t.outline.text = t.text ∨ t.outline.text = [] := by
        unfold outline
        dsimp only
        split <;> simp
      rcases htext with h | h
      · rw [h]
      · rw [h, bne, bne, has]
        rfl

end Token

namespace Import

@[simp] theorem head?_any_outline {p : Token → Bool} (hp : ∀ t : Token, p t.outline = p t)
    (ts : List Token) : (ts.map Token.outline).head?.any p = ts.head?.any p := by
  cases ts with
  | nil => rfl
  | cons t ts => exact hp t

/-! ### Names and clauses -/

theorem binding_outline (line : Nat) (kind : BindingKind) (imported imported' : Bytes)
    (typeOnly : Bool) {t : Token} (h : t.kind = .identifier) :
    (binding line kind imported' typeOnly t.outline).outline =
      (binding line kind imported typeOnly t).outline := by
  simp [binding, Binding.outline, Token.outline_text_of_identifier h]

theorem isTypeModifier_outline (ts : List Token) :
    isTypeModifier (ts.map Token.outline) = isTypeModifier ts := by
  match ts with
  | [] => rfl
  | [_] => rfl
  | t :: next :: ts =>
      simp only [List.map_cons, isTypeModifier, Token.outline_isWord, Token.outline_isPunctuator,
        Token.outline_kind]
      rw [head?_any_outline fun t => t.outline_isWord "from"]

theorem isInlineType_outline (ts : List Token) :
    isInlineType (ts.map Token.outline) = isInlineType ts := by
  match ts with
  | [] => rfl
  | [_] => rfl
  | t :: next :: ts => simp only [List.map_cons, isInlineType, Token.outline_isWord,
      Token.outline_kind, Token.outline_ne_as]

theorem ite_tail_outline (c : Bool) (ts : List Token) :
    (if c then (ts.map Token.outline).tail else ts.map Token.outline) =
      (if c then ts.tail else ts).map Token.outline := by
  cases c with
  | true => exact (List.map_tail).symm
  | false => rfl

/-- A reader returns the same on tokens and on their outlines: results that agree in what a function
shows of them, and what is left of the tokens. -/
def Agrees {α β : Type} (f : α → β) (r r' : α × List Token) : Prop :=
  f r'.1 = f r.1 ∧ r'.2 = r.2.map Token.outline

namespace Agrees

variable {α β : Type} {f : α → β} {a a' b b' : α × List Token}

theorem ite {c : Prop} [Decidable c] (ha : c → Agrees f a a') (hb : ¬ c → Agrees f b b') :
    Agrees f (if c then a else b) (if c then a' else b') := by
  split
  · next h => exact ha h
  · next h => exact hb h

end Agrees

theorem readName_outline (line : Nat) (ts : List Token) :
    Agrees (Option.map Binding.outline) (readName line ts)
      (readName line (ts.map Token.outline)) := by
  unfold readName
  rw [isInlineType_outline]
  dsimp only
  rw [ite_tail_outline]
  cases (if isInlineType ts then ts.tail else ts) with
  | nil => exact ⟨rfl, rfl⟩
  | cons imported ts =>
      simp only [List.map_cons, Token.outline_kind]
      rw [head?_any_outline fun t => t.outline_isWord "as"]
      refine .ite (fun hkind => .ite (fun _ => ?_) fun _ => .ite (fun _ => ⟨rfl, rfl⟩)
        fun hstring => ?_) fun _ => ⟨rfl, rfl⟩
      · obtain _ | ⟨_, _ | ⟨name, rest⟩⟩ := ts
        · exact ⟨rfl, rfl⟩
        · exact ⟨rfl, rfl⟩
        · exact .ite (fun hname =>
            ⟨congrArg some (binding_outline _ _ _ _ _ (beq_iff_eq.mp hname)), rfl⟩)
            fun _ => ⟨rfl, rfl⟩
      · have hname : imported.kind = .identifier := by
          simpa [hstring] using hkind
        exact ⟨congrArg some (binding_outline _ _ _ _ _ hname), rfl⟩

theorem reverse_outline {bs bs' : List Binding}
    (h : bs'.map Binding.outline = bs.map Binding.outline) :
    bs'.reverse.map Binding.outline = bs.reverse.map Binding.outline := by
  rw [List.map_reverse, List.map_reverse, h]

theorem readNames_outline (line : Nat) (ts : List Token) {read read' : List Binding}
    (hread : read'.map Binding.outline = read.map Binding.outline) :
    Agrees (Option.map (List.map Binding.outline)) (readNames line ts read)
      (readNames line (ts.map Token.outline) read') := by
  induction hn : ts.length using Nat.strongRecOn generalizing ts read read' with
  | _ n ih =>
      cases ts with
      | nil => exact ⟨by simp [readNames], by simp [readNames]⟩
      | cons t rest =>
          have hname := readName_outline line (t :: rest)
          have hle := readName_length_le line (t :: rest)
          rw [List.map_cons] at hname ⊢
          rw [readNames, readNames, Token.outline_isPunctuator]
          refine .ite (fun _ => ⟨congrArg some (reverse_outline hread), rfl⟩) fun _ => ?_
          generalize readName line (t :: rest) = r at hname hle
          generalize readName line (t.outline :: rest.map Token.outline) = r' at hname
          obtain ⟨found, left⟩ := r
          obtain ⟨found', left'⟩ := r'
          obtain ⟨hfound, rfl⟩ := hname
          cases found with
          | none =>
              obtain rfl : found' = none := Option.map_eq_none_iff.mp hfound
              exact ⟨rfl, rfl⟩
          | some b =>
              obtain ⟨b', hb', hb⟩ := Option.map_eq_some_iff.mp hfound
              obtain rfl : found' = some b' := hb'
              have hmore : (b' :: read').map Binding.outline = (b :: read).map Binding.outline := by
                rw [List.map_cons, List.map_cons, hread, hb]
              cases left with
              | nil => exact ⟨rfl, rfl⟩
              | cons next after =>
                  show Agrees _ _ (if next.outline.isPunctuator "," then
                      readNames line (after.map Token.outline) (b' :: read')
                    else if next.outline.isPunctuator "\x7d" then
                      (some (b' :: read').reverse, after.map Token.outline)
                    else (none, next.outline :: after.map Token.outline))
                  rw [Token.outline_isPunctuator, Token.outline_isPunctuator]
                  refine .ite (fun _ => ?_) fun _ =>
                    .ite (fun _ => ⟨congrArg some (reverse_outline hmore), rfl⟩) fun _ => ⟨rfl, rfl⟩
                  refine ih after.length ?_ after hmore rfl
                  simp only [List.length_cons] at hle hn
                  omega

theorem readExports_outline (line : Nat) (ts : List Token) {read read' : List Binding}
    (hread : read'.map Binding.outline = read.map Binding.outline) :
    Agrees (Option.map (List.map Binding.outline)) (readExports line read ts)
      (readExports line read' (ts.map Token.outline)) := by
  cases ts with
  | nil => exact ⟨rfl, rfl⟩
  | cons t rest =>
      unfold readExports
      simp only [List.map_cons, Token.outline_isPunctuator]
      rw [head?_any_outline fun t => t.outline_isWord "as"]
      refine .ite (fun _ => readNames_outline line rest (reverse_outline hread)) fun _ =>
        .ite (fun _ => .ite (fun _ => ?_) fun _ => ⟨rfl, rfl⟩) fun _ => ⟨rfl, rfl⟩
      obtain _ | ⟨_, _ | ⟨name, after⟩⟩ := rest
      · exact ⟨rfl, rfl⟩
      · exact ⟨rfl, rfl⟩
      · refine .ite (fun hname => ⟨congrArg some ?_, rfl⟩) fun _ => ⟨rfl, rfl⟩
        rw [List.map_append, List.map_append, hread]
        exact congrArg (_ ++ [·]) (binding_outline _ _ _ _ _ (beq_iff_eq.mp hname))

theorem readClause_outline (line : Nat) (ts : List Token) :
    Agrees (Option.map (List.map Binding.outline)) (readClause line ts)
      (readClause line (ts.map Token.outline)) := by
  cases ts with
  | nil => exact ⟨rfl, rfl⟩
  | cons t rest =>
      have hexports : Agrees (Option.map (List.map Binding.outline))
          (readExports line [] (t :: rest))
          (readExports line [] ((t :: rest).map Token.outline)) :=
        readExports_outline line (t :: rest) rfl
      unfold readClause
      simp only [List.map_cons, Token.outline_kind] at hexports ⊢
      refine .ite (fun hkind => ?_) fun _ => hexports
      have hname : ∀ kind imported imported', [binding line kind imported' false t.outline].map
          Binding.outline = [binding line kind imported false t].map Binding.outline :=
        fun _ _ _ => congrArg ([·]) (binding_outline _ _ _ _ _ (beq_iff_eq.mp hkind))
      cases rest with
      | nil => exact ⟨congrArg some (hname _ _ _), rfl⟩
      | cons next after =>
          simp only [List.map_cons, Token.outline_isPunctuator]
          exact .ite (fun _ => ⟨congrArg some (hname _ _ _), rfl⟩) fun _ =>
            .ite (fun _ => readExports_outline line after (hname _ _ _)) fun _ =>
              ⟨congrArg some (hname _ _ _), rfl⟩

/-! ### What follows a clause -/

theorem readDotted_outline (ts : List Token) (path path' : Bytes) :
    (readDotted (ts.map Token.outline) path').2 = (readDotted ts path).2.map Token.outline := by
  fun_induction readDotted ts path generalizing path' with
  | case1 => rfl
  | case2 path t h => simp [readDotted, h]
  | case3 path t h => simp [readDotted, h]
  | case4 path t dot rest h hdot ih => simp [readDotted, h, hdot, ih]
  | case5 path t dot rest h hdot => simp [readDotted, h, hdot]
  | case6 path t dot rest h => simp [readDotted, h]

theorem readTarget_outline (ts : List Token) :
    (readTarget (ts.map Token.outline)).2 = (readTarget ts).2.map Token.outline := by
  have hdotted := readDotted_outline ts [] []
  match ts with
  | [] => exact hdotted
  | [_] => exact hdotted
  | t :: bracket :: rest =>
      unfold readTarget
      simp only [List.map_cons, Token.outline_isWord, Token.outline_isPunctuator] at hdotted ⊢
      split
      · dsimp only
        rw [head?_any_outline (p := fun t => t.kind == .string) fun _ => rfl, ite_tail_outline,
          head?_any_outline fun t => t.outline_isPunctuator ")", ite_tail_outline]
      · exact hdotted

theorem dropBraced_outline (ts : List Token) :
    dropBraced (ts.map Token.outline) = (dropBraced ts).map Token.outline := by
  induction ts with
  | nil => rfl
  | cons t rest ih =>
      rw [List.map_cons, dropBraced, dropBraced, Token.outline_isPunctuator, ih]
      split <;> rfl

theorem dropEnding_outline (ts : List Token) :
    dropEnding (ts.map Token.outline) = (dropEnding ts).map Token.outline := by
  have hmark : ∀ us : List Token,
      (if (us.map Token.outline).head?.any (·.isPunctuator ";") then (us.map Token.outline).tail
        else us.map Token.outline) =
      (if us.head?.any (·.isPunctuator ";") then us.tail else us).map Token.outline := fun us => by
    rw [head?_any_outline fun t => t.outline_isPunctuator ";", ite_tail_outline]
  match ts with
  | [] => rfl
  | [t] => exact hmark [t]
  | t :: brace :: rest =>
      unfold dropEnding
      simp only [List.map_cons, Token.outline_isWord, Token.outline_isPunctuator]
      split
      · rw [dropBraced_outline]
        exact hmark _
      · exact hmark (t :: brace :: rest)

/-! ### Declarations -/

theorem markTypeOnly_outline (typeOnly : Bool) {bs bs' : List Binding}
    (h : bs'.map Binding.outline = bs.map Binding.outline) :
    (markTypeOnly typeOnly bs').map Binding.outline =
      (markTypeOnly typeOnly bs).map Binding.outline := by
  unfold markTypeOnly
  split
  · have hmark := congrArg (List.map fun b => { b with typeOnly := true }) h
    simpa [List.map_map, Function.comp_def, Binding.outline] using hmark
  · exact h

theorem any_kind_outline (kind : BindingKind) {bs bs' : List Binding}
    (h : bs'.map Binding.outline = bs.map Binding.outline) :
    bs'.any (·.kind == kind) = bs.any (·.kind == kind) := by
  have hkinds := congrArg (List.any · (·.kind == kind)) h
  simpa [List.any_map, Function.comp_def, Binding.outline] using hkinds

def Contents.outline (c : Contents) : Bool × List Binding :=
  (c.typeOnly, c.bindings.map Binding.outline)

theorem readContents_outline (line : Nat) (ts : List Token) :
    Agrees Contents.outline (readContents line ts)
      (readContents line (ts.map Token.outline)) := by
  unfold readContents
  rw [head?_any_outline (p := fun t => t.kind == .string) fun _ => rfl, isTypeModifier_outline]
  dsimp only
  rw [ite_tail_outline]
  refine .ite (fun _ => ⟨rfl, ?_⟩) fun _ => ?_
  · rw [← List.map_tail, dropEnding_outline]
  · have hclause := readClause_outline line (if isTypeModifier ts then ts.tail else ts)
    generalize readClause line (if isTypeModifier ts then ts.tail else ts) = r at hclause ⊢
    generalize readClause line ((if isTypeModifier ts then ts.tail else ts).map Token.outline) = r'
      at hclause ⊢
    obtain ⟨found, left⟩ := r
    obtain ⟨found', left'⟩ := r'
    obtain ⟨hfound, rfl⟩ := hclause
    cases found with
    | none =>
        obtain rfl : found' = none := Option.map_eq_none_iff.mp hfound
        exact ⟨rfl, rfl⟩
    | some bs =>
        obtain ⟨bs', hbs', hbindings⟩ := Option.map_eq_some_iff.mp hfound
        obtain rfl : found' = some bs' := hbs'
        have hmarked := markTypeOnly_outline (isTypeModifier ts) hbindings
        dsimp only
        rw [any_kind_outline .assigned hbindings]
        refine .ite (fun _ => ⟨congrArg (Prod.mk _) hmarked, ?_⟩) fun _ => ?_
        · rw [readTarget_outline, dropEnding_outline]
        · cases left with
          | nil => exact ⟨rfl, rfl⟩
          | cons t after =>
              simp only [List.map_cons, Token.outline_isWord]
              refine .ite (fun _ => ?_) fun _ => ⟨rfl, rfl⟩
              cases after with
              | nil => exact ⟨rfl, rfl⟩
              | cons s after =>
                  exact .ite (fun _ => ⟨congrArg (Prod.mk _) hmarked, dropEnding_outline after⟩)
                    fun _ => ⟨rfl, rfl⟩

theorem isStatementWord_outline (word : String) (before : Option Token) (t : Token) :
    isStatementWord word (before.map Token.outline) t.outline = isStatementWord word before t := by
  cases before <;> simp [isStatementWord]

theorem isImport_outline (before : Option Token) (t : Token) (after : Option Token) :
    isImport (before.map Token.outline) t.outline (after.map Token.outline) =
      isImport before t after := by
  unfold isImport
  rw [isStatementWord_outline]
  cases after <;> simp

theorem readAll_outline (total : Nat) (before : Option Token) (ts : List Token)
    {read read' : List Declaration}
    (hread : read'.map Declaration.outline = read.map Declaration.outline) :
    (readAll total (before.map Token.outline) (ts.map Token.outline) read').map
        Declaration.outline =
      (readAll total before ts read).map Declaration.outline := by
  fun_induction readAll total before ts read generalizing read' with
  | case1 before read =>
      rw [List.map_nil, readAll, List.map_reverse, List.map_reverse, hread]
  | case2 before read t rest himport contents left start stop declaration =>
      rename_i ih
      obtain ⟨hcontents, hleft⟩ := readContents_outline t.line rest
      rw [List.map_cons, readAll, List.head?_map, isImport_outline, if_pos himport]
      dsimp only [Token.outline_line]
      rw [hleft, List.length_map, List.length_map, ← List.map_cons, ← List.map_take,
        List.getLast?_map]
      refine ih ?_
      rw [List.map_cons, List.map_cons, hread]
      obtain ⟨htype, hbindings⟩ := Prod.mk.inj hcontents
      congr 1
      simp only [Declaration.outline, htype, hbindings]
      rfl
  | case3 before read t rest himport ih =>
      rw [List.map_cons, readAll, List.head?_map, isImport_outline, if_neg himport]
      exact ih hread

end Import

theorem importsOf_outline (tokens : List Token) :
    (importsOf (tokens.map Token.outline)).map Declaration.outline =
      (importsOf tokens).map Declaration.outline := by
  unfold importsOf
  rw [List.length_map]
  exact Import.readAll_outline tokens.length none tokens rfl

/-! ### Re-exports -/

namespace Reexport

open Import

theorem dropExports?_outline (ts : List Token) :
    dropExports? (ts.map Token.outline) = (dropExports? ts).map (List.map Token.outline) := by
  cases ts with
  | nil => rfl
  | cons t rest =>
      unfold dropExports?
      simp only [List.map_cons, Token.outline_isPunctuator]
      rw [head?_any_outline fun t => t.outline_isWord "as", dropBraced_outline]
      split
      · rfl
      · split
        · split
          · rw [← List.map_drop]
            rfl
          · rfl
        · rfl

theorem dropClause?_outline (ts : List Token) :
    dropClause? (ts.map Token.outline) = (dropClause? ts).map (List.map Token.outline) := by
  unfold dropClause?
  rw [head?_any_outline fun t => t.outline_isWord "type", ite_tail_outline, dropExports?_outline]
  generalize dropExports? (if ts.head?.any (·.isWord "type") then ts.tail else ts) = left
  match left with
  | none => rfl
  | some [] => rfl
  | some [_] => rfl
  | some (t :: s :: rest) =>
      simp only [Option.map_some, List.map_cons, Token.outline_isWord, Token.outline_kind]
      split <;> rfl

theorem findAll_outline (total : Nat) (before : Option Token) (ts : List Token)
    (found : List Span) :
    findAll total (before.map Token.outline) (ts.map Token.outline) found =
      findAll total before ts found := by
  fun_induction findAll total before ts found with
  | case1 => rw [List.map_nil, findAll]
  | case2 before found t rest hword after hclause start stop ih =>
      have hmapped := dropClause?_outline rest
      rw [hclause, Option.map_some] at hmapped
      rw [List.map_cons, findAll, isStatementWord_outline, if_pos hword]
      split
      · next after' hafter =>
        obtain rfl := Option.some.inj (hmapped.symm.trans hafter)
        dsimp only
        rw [List.length_map, List.length_map, ← List.map_cons, ← List.map_take, List.getLast?_map]
        exact ih
      · next hnone => rw [hmapped] at hnone; cases hnone
  | case3 before found t rest hword hclause ih =>
      have hmapped := dropClause?_outline rest
      rw [hclause, Option.map_none] at hmapped
      rw [List.map_cons, findAll, isStatementWord_outline, if_pos hword]
      split
      · next hsome => rw [hmapped] at hsome; cases hsome
      · exact ih
  | case4 before found t rest hword ih =>
      rw [List.map_cons, findAll, isStatementWord_outline, if_neg hword]
      exact ih

end Reexport

theorem reexportsOf_outline (tokens : List Token) :
    reexportsOf (tokens.map Token.outline) = reexportsOf tokens := by
  unfold reexportsOf
  rw [List.length_map]
  exact Reexport.findAll_outline tokens.length none tokens []

end UnusedImports

import UnusedImports.Proofs.Import.Names

/-! A declaration may say a name twice; the second one is its alias. Whatever follows an alias
closes its part of the declaration. -/

namespace UnusedImports

namespace Import

variable {line : Nat} {typeOnly : Bool} {ts mid rest : List Token} {b : Binding}
  {bs : List Binding} {c : Contents} {next : Token}

/-- What closes the part of a declaration that ends with an alias. -/
inductive ClosesName (t : Token) : Prop where
  | comma : t.isPunctuator "," → ClosesName t
  | brace : t.isPunctuator "\x7d" → ClosesName t
  | equals : t.isPunctuator "=" → ClosesName t
  | source : t.isWord "from" → ClosesName t

/-- The alias of a binding, and what closes its part, stand among the tokens in front of some
others. -/
def HasAlias (ts : List Token) (b : Binding) (rest : List Token) : Prop :=
  ∃ front t next back, ts = front ++ t :: next :: (back ++ rest) ∧ b.NamedBy t ∧ ClosesName next

namespace HasAlias

theorem skip (h : HasAlias ts b rest) (front : List Token) : HasAlias (front ++ ts) b rest := by
  obtain ⟨before, t, next, back, rfl, hname, hnext⟩ := h
  exact ⟨front ++ before, t, next, back, by simp, hname, hnext⟩

theorem append (h : HasAlias ts b mid) (hmid : ∃ read, mid = read ++ rest) :
    HasAlias ts b rest := by
  obtain ⟨front, t, next, back, rfl, hname, hnext⟩ := h
  obtain ⟨read, rfl⟩ := hmid
  exact ⟨front, t, next, back ++ read, by simp, hname, hnext⟩

theorem head {t : Token} (hname : b.NamedBy t) (hnext : ClosesName next) (read : List Token) :
    HasAlias (t :: next :: (read ++ rest)) b rest :=
  ⟨[], t, next, read, rfl, hname, hnext⟩

/-- Whether a name is a type import does not move its alias. -/
theorem withTypeOnly (h : HasAlias ts b rest) (f : Bool) :
    HasAlias ts { b with typeOnly := f } rest := by
  obtain ⟨front, t, next, back, rfl, hname, hnext⟩ := h
  exact ⟨front, t, next, back, rfl, ⟨hname.kind, hname.name, hname.line, hname.column⟩, hnext⟩

end HasAlias

theorem Item.hasAlias (h : Item line typeOnly ts b (next :: rest)) (hnext : ClosesName next) :
    HasAlias ts b rest := by
  cases h with
  | name hkind => exact .head ⟨hkind, rfl, rfl, rfl⟩ hnext []
  | @renamed t as _ _ _ _ hname =>
      exact (HasAlias.head ⟨hname, rfl, rfl, rfl⟩ hnext []).skip [t, as]
  | @quoted t as _ _ _ _ hname =>
      exact (HasAlias.head ⟨hname, rfl, rfl, rfl⟩ hnext []).skip [t, as]

theorem Spec.hasAlias (h : Spec line ts b (next :: rest)) (hnext : ClosesName next) :
    HasAlias ts b rest := by
  cases h with
  | @typed t _ _ _ _ _ hitem => exact (hitem.hasAlias hnext).skip [t]
  | plain _ hitem => exact hitem.hasAlias hnext

theorem Specs.hasAlias (h : Specs line ts bs (next :: rest)) (hnext : ClosesName next) :
    ∀ b ∈ bs, HasAlias ts b rest := by
  generalize hleft : next :: rest = left at h
  induction h with
  | one hspec =>
      subst hleft
      simpa using hspec.hasAlias hnext
  | @more ts b comma after bs left hspec hcomma hspecs ih =>
      obtain ⟨front, hts, _⟩ := hspec.introduces
      obtain ⟨read, hafter, _⟩ := hspecs.introduces
      intro c hc
      rcases List.mem_cons.mp hc with rfl | hc
      · refine (hspec.hasAlias (.comma hcomma)).append ⟨read ++ [next], ?_⟩
        rw [hafter, ← hleft, List.append_assoc, List.singleton_append]
      · rw [hts, List.append_cons]
        exact (ih hleft c hc).skip _

theorem Named.hasAlias (h : Named line ts bs rest) : ∀ b ∈ bs, HasAlias ts b rest := by
  cases h with
  | nothing => simp
  | @specs t _ _ _ _ _ hspecs hclosing =>
      intro b hb
      cases hclosing with
      | brace hbrace => exact (hspecs.hasAlias (.brace hbrace) b hb).skip [t]
      | @comma _ brace _ hcomma _ =>
          exact ((hspecs.hasAlias (.comma hcomma) b hb).append ⟨[brace], rfl⟩).skip [t]

theorem Exports.hasAlias (h : Exports line ts bs (next :: rest)) (hnext : ClosesName next) :
    ∀ b ∈ bs, HasAlias ts b rest := by
  cases h with
  | named hnamed => exact fun b hb => (hnamed.hasAlias b hb).append ⟨[next], rfl⟩
  | @wholeModule star as _ _ _ _ hname =>
      simpa using (HasAlias.head ⟨hname, rfl, rfl, rfl⟩ hnext []).skip [star, as]

theorem Clause.hasAlias (h : Clause line ts bs (next :: rest)) (hnext : ClosesName next) :
    ∀ b ∈ bs, HasAlias ts b rest := by
  cases h with
  | name hkind => simpa using HasAlias.head ⟨hkind, rfl, rfl, rfl⟩ hnext []
  | @both t comma _ _ _ hkind hcomma hexports =>
      obtain ⟨read, rfl, _⟩ := hexports.introduces
      intro b hb
      rcases List.mem_cons.mp hb with rfl | hb
      · rw [List.append_cons]
        exact .head ⟨hkind, rfl, rfl, rfl⟩ (.comma hcomma) _
      · exact (hexports.hasAlias hnext b hb).skip [t, comma]
  | exports hexports => exact hexports.hasAlias hnext

theorem Body.hasAlias (h : Body line typeOnly ts c rest) :
    ∀ b ∈ c.bindings, HasAlias ts b rest := by
  cases h with
  | assigned hname hequals htarget hending =>
      obtain ⟨read, rfl⟩ := (htarget.mayEnd.trans hending.mayEnd).suffix
      simpa using HasAlias.head ⟨hname, rfl, rfl, rfl⟩ (.equals hequals) read
  | @clause _ _ _ source _ _ hclause hword _ hending =>
      obtain ⟨read, rfl⟩ := hending.mayEnd.suffix
      intro b hb
      obtain ⟨a, ha, rfl⟩ := List.mem_map.mp hb
      exact ((hclause.hasAlias (.source hword) a ha).append ⟨source :: read, rfl⟩).withTypeOnly _

end Import

/-- Every name of a declaration has its alias among the tokens of the declaration. -/
theorem exists_alias_of_mem_importsOf {tokens : List Token} {d : Declaration} {b : Binding}
    (hd : d ∈ importsOf tokens) (hb : b ∈ d.bindings) :
    ∃ front t next back, d.own tokens = front ++ t :: next :: back ∧ b.NamedBy t ∧
      Import.ClosesName next := by
  obtain ⟨keyword, read, hkeyword, _, hown, _, hread⟩ := exists_own_of_mem_importsOf hd
  obtain ⟨modifier, _, body, hbody, hgrammar⟩ :=
    (Import.derives_of_readContents hkeyword hread (List.ne_nil_of_mem hb)).exists_body
  obtain ⟨front, t, next, back, rfl, hname, hnext⟩ := hgrammar.hasAlias b hb
  refine ⟨keyword :: (modifier ++ front), t, next, back, ?_, hname, hnext⟩
  have hsplit : read ++ tokens.drop d.stop =
      (modifier ++ front ++ t :: next :: back) ++ tokens.drop d.stop := by simpa using hbody
  rw [hown, List.append_cancel_right hsplit]
  simp

end UnusedImports

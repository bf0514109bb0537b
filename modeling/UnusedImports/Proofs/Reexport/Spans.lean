import UnusedImports.Proofs.Import.Declarations
import UnusedImports.Source.Reexport

namespace UnusedImports

namespace Reexport

theorem dropExports?_suffix {ts rest : List Token} (h : dropExports? ts = some rest) :
    rest <:+ ts := by
  unfold dropExports? at h
  split at h
  · contradiction
  · next t after =>
    have hafter : after <:+ t :: after := List.suffix_cons t after
    split at h
    · injection h with h
      rw [← h]
      exact (Import.dropBraced_suffix after).trans hafter
    · split at h
      · injection h with h
        rw [← h]
        split
        · exact (List.drop_suffix 2 after).trans hafter
        · exact hafter
      · contradiction

theorem dropClause?_suffix {ts rest : List Token} (h : dropClause? ts = some rest) :
    rest <:+ ts := by
  unfold dropClause? at h
  split at h
  · next t s after hexports =>
    split at h
    · injection h with h
      rw [← h]
      have hs := (dropExports?_suffix hexports).trans (Import.ite_tail_suffix _ ts)
      exact (List.suffix_cons s after).trans ((List.suffix_cons t _).trans hs)
    · contradiction
  · contradiction

/-- The re-export that starts at a token, if one does, and the tokens it leaves. -/
def clause? (passed : List Token) (t : Token) (rest : List Token) : Option (Span × List Token) :=
  if Import.isStatementWord "export" passed.getLast? t then
    (dropClause? rest).map fun after =>
      (⟨passed.length, passed.length + (rest.length + 1 - after.length)⟩, after)
  else none

theorem clause?_places : Walk.Places id clause? := by
  intro passed t read rest r h
  unfold clause? at h
  split at h
  · obtain ⟨after, _, hr⟩ := Option.map_eq_some_iff.mp h
    obtain ⟨rfl, rfl⟩ := Prod.mk.inj hr
    simp only [id_eq, List.length_append, Span.mk.injEq, true_and]
    omega
  · contradiction

theorem findAll_walk (total : Nat) (before : Option Token) (ts : List Token) (found : List Span)
    (passed : List Token) (htotal : total = passed.length + ts.length)
    (hbefore : before = passed.getLast?) :
    ∃ spans, findAll total before ts found = found.reverse ++ spans ∧
      Walk clause? passed ts spans := by
  fun_induction findAll total before ts found generalizing passed with
  | case1 before found => exact ⟨[], by simp, .done passed⟩
  | case2 before found t rest h after hclause start stop ih =>
      obtain ⟨word, hword⟩ := dropClause?_suffix hclause
      subst hword
      simp only [List.length_append, List.length_cons] at htotal
      have hstart : start = passed.length := by
        simp only [start, List.length_append]
        omega
      have hstop : stop = passed.length + (word.length + 1) := by omega
      have htake : (t :: (word ++ after)).take (stop - start) = t :: word := by
        rw [hstop, hstart, Nat.add_sub_cancel_left, List.take_succ_cons, List.take_left]
      have hitem : clause? passed t (word ++ after) = some (⟨start, stop⟩, after) := by
        rw [hbefore] at h
        simp [clause?, h, hclause, hstart, hstop]
        omega
      rw [htake] at ih
      obtain ⟨spans, hspans, hwalk⟩ := ih (passed ++ t :: word)
        (by simp only [List.length_append, List.length_cons]; omega)
        (by simp [List.getLast?_cons])
      refine ⟨⟨start, stop⟩ :: spans, by rw [htake, hspans]; simp, ?_⟩
      exact Walk.found hitem hwalk
  | case3 before found t rest h hclause ih =>
      obtain ⟨spans, hspans, hwalk⟩ := ih (passed ++ [t]) (by simp [htotal]; omega) (by simp)
      refine ⟨spans, hspans, .missed ?_ hwalk⟩
      simp [clause?, hclause]
  | case4 before found t rest h ih =>
      obtain ⟨spans, hspans, hwalk⟩ := ih (passed ++ [t]) (by simp [htotal]; omega) (by simp)
      refine ⟨spans, hspans, .missed ?_ hwalk⟩
      rw [hbefore] at h
      simp [clause?, h]

end Reexport

theorem reexportsOf_walk (tokens : List Token) :
    Walk Reexport.clause? [] tokens (reexportsOf tokens) := by
  obtain ⟨spans, hspans, hwalk⟩ :=
    Reexport.findAll_walk tokens.length none tokens [] [] (by simp) (by simp)
  unfold reexportsOf
  rw [hspans]
  simpa using hwalk

/-- Re-exports follow one another and share no token. -/
theorem reexportsOf_ordered (tokens : List Token) : Span.Ordered (reexportsOf tokens) := by
  simpa using (reexportsOf_walk tokens).ordered Reexport.clause?_places

end UnusedImports

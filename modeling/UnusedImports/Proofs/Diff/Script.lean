import UnusedImports.Diff.Script
import Mathlib.Data.List.Infix

/-! The heuristics of the search decide how short a script is, not what it makes of the old list. -/

namespace UnusedImports.Diff

/-- The parts of a script without those of one operation: without insertions they are the old side,
without deletions the new one. -/
def partsWithout {α : Type} (op : Operation) (script : List (Operation × α)) : List α :=
  (script.filter (·.1 != op)).map (·.2)

/-- The lines of steps on one side. -/
def side (op : Operation) (steps : List Step) : List Bytes := (partsWithout op steps).flatten

/-- The steps lead from one list of lines to another. -/
structure Makes (steps : List Step) (old new : List Bytes) : Prop where
  old : side .insert steps = old
  new : side .delete steps = new

variable {op : Operation} {run done steps : List Step} {lines old new : List Bytes}

@[simp] theorem side_nil (op : Operation) : side op [] = [] := rfl

@[simp] theorem side_cons_self (op : Operation) (lines : List Bytes) (steps : List Step) :
    side op ((op, lines) :: steps) = side op steps := by
  simp [side, partsWithout]

@[simp] theorem side_cons_of_ne {op' : Operation} (h : op' ≠ op) (lines : List Bytes)
    (steps : List Step) : side op ((op', lines) :: steps) = lines ++ side op steps := by
  simp [side, partsWithout, h]

@[simp] theorem side_append (op : Operation) (steps steps' : List Step) :
    side op (steps ++ steps') = side op steps ++ side op steps' := by
  simp [side, partsWithout]

theorem Makes.append {steps' : List Step} {old' new' : List Bytes} (h : Makes steps old new)
    (h' : Makes steps' old' new') : Makes (steps ++ steps') (old ++ old') (new ++ new') where
  old := by rw [side_append, h.old, h'.old]
  new := by rw [side_append, h.new, h'.new]

theorem makes_equal (lines : List Bytes) : Makes [(.equal, lines)] lines lines :=
  ⟨by simp, by simp⟩

theorem makes_delete (lines : List Bytes) : Makes [(.delete, lines)] lines [] :=
  ⟨by simp, by simp⟩

theorem makes_insert (lines : List Bytes) : Makes [(.insert, lines)] [] lines :=
  ⟨by simp, by simp⟩

/-! ### Common beginnings and ends -/

theorem commonLength_spec (as bs : List Bytes) (n : Nat) :
    ∃ k, commonLength as bs n = n + k ∧ as.take k = bs.take k := by
  induction as generalizing bs n with
  | nil => exact ⟨0, by simp [commonLength], by simp⟩
  | cons a as ih =>
      cases bs with
      | nil => exact ⟨0, by simp [commonLength], by simp⟩
      | cons b bs =>
          by_cases hab : a = b
          · obtain ⟨k, hk, htake⟩ := ih bs (n + 1)
            refine ⟨k + 1, ?_, by simp [hab, htake]⟩
            simp only [commonLength, hab, beq_self_eq_true, if_true, hk]
            omega
          · exact ⟨0, by simp [commonLength, hab], by simp⟩

theorem take_commonLength (as bs : List Bytes) :
    as.take (commonLength as bs 0) = bs.take (commonLength as bs 0) := by
  obtain ⟨k, hk, htake⟩ := commonLength_spec as bs 0
  rwa [hk, Nat.zero_add]

/-- What two lists end with alike. -/
theorem drop_commonLength_reverse (as bs : List Bytes) :
    as.drop (as.length - commonLength as.reverse bs.reverse 0) =
      bs.drop (bs.length - commonLength as.reverse bs.reverse 0) := by
  have htake := take_commonLength as.reverse bs.reverse
  rwa [List.take_reverse, List.take_reverse, List.reverse_inj] at htake

/-! ### Tidying -/

theorem side_keep (hop : op ≠ .equal) (lines : List Bytes) (done : List Step) :
    side op (keep lines done).reverse = side op done.reverse ++ lines := by
  unfold keep
  split <;> simp [hop.symm]

/-- Among edits, one side is what the other operation does. -/
theorem side_eq_gather {other : Operation}
    (h : ∀ o : Operation, o ≠ .equal → (o != op) = (o == other)) (hrun : ∀ s ∈ run, s.1 ≠ .equal) :
    side op run = (run.filter fun s => s.1 == other).flatMap (·.2) := by
  rw [side, partsWithout, List.filter_congr fun s hs => h s.1 (hrun s hs), List.flatMap_def]

theorem gather_eq_nil (h : ¬ run.any (fun s => s.1 == op) = true) :
    (run.reverse.filter fun s => s.1 == op).flatMap (·.2) = [] := by
  have hnone : run.reverse.filter (fun s => s.1 == op) = [] := by
    rw [List.filter_eq_nil_iff]
    exact fun s hs heq => h (List.any_eq_true.mpr ⟨s, List.mem_reverse.mp hs, heq⟩)
  rw [hnone, List.flatMap_nil]

/-- Lines that deletions and insertions begin with alike join the lines kept before them. -/
theorem side_keep_common (hop : op ≠ .equal) (lines : List Bytes) (n : Nat) (done : List Step) :
    side op (if n == 0 then done else keep (lines.take n) done).reverse =
      side op done.reverse ++ lines.take n := by
  split
  · next h => simp [eq_of_beq h]
  · exact side_keep hop _ done

theorem side_insert_edited (kept inserted deleted : List Bytes) (done : List Step) :
    side .insert ((.equal, kept) :: (.insert, inserted) :: (.delete, deleted) :: done).reverse =
      side .insert done.reverse ++ (deleted ++ kept) := by
  simp

theorem side_delete_edited (kept inserted deleted : List Bytes) (done : List Step) :
    side .delete ((.equal, kept) :: (.insert, inserted) :: (.delete, deleted) :: done).reverse =
      side .delete done.reverse ++ (inserted ++ kept) := by
  simp

theorem side_closeRun (hop : op ≠ .equal) (hrun : ∀ s ∈ run, s.1 ≠ .equal) (lines : List Bytes)
    (done : List Step) :
    side op (closeRun run lines done).reverse =
      side op done.reverse ++ (side op run.reverse ++ lines) := by
  unfold closeRun
  split
  · simp [side_keep hop]
  · next edit =>
      change side op ((.equal, lines) :: edit :: done).reverse = _ ++ (side op [edit] ++ lines)
      have hsplit : ((.equal, lines) :: edit :: done).reverse =
          done.reverse ++ ([edit] ++ [(.equal, lines)]) := by simp
      rw [hsplit, side_append, side_append, side_cons_of_ne hop.symm, side_nil, List.append_nil]
  · have hreverse : ∀ s ∈ run.reverse, s.1 ≠ .equal := by simpa using hrun
    have hdeleted : (run.reverse.filter fun s => s.1 == .delete).flatMap (·.2) =
        side .insert run.reverse :=
      (side_eq_gather (by intro o; cases o <;> decide) hreverse).symm
    have hinserted : (run.reverse.filter fun s => s.1 == .insert).flatMap (·.2) =
        side .delete run.reverse :=
      (side_eq_gather (by intro o; cases o <;> decide) hreverse).symm
    simp only [hdeleted, hinserted]
    have hfront := take_commonLength (side .delete run.reverse) (side .insert run.reverse)
    split
    · generalize commonLength (side .delete run.reverse) (side .insert run.reverse) 0 = n at *
      have hback := drop_commonLength_reverse ((side .delete run.reverse).drop n)
        ((side .insert run.reverse).drop n)
      cases op with
      | equal => exact absurd rfl hop
      | delete =>
          rw [side_delete_edited, side_keep_common hop, ← List.append_assoc (List.take _ _),
            List.take_append_drop, List.append_assoc, ← List.append_assoc (List.take _ _),
            List.take_append_drop]
      | insert =>
          rw [side_insert_edited, side_keep_common hop, hfront, hback,
            ← List.append_assoc (List.take _ _), List.take_append_drop, List.append_assoc,
            ← List.append_assoc (List.take _ _), List.take_append_drop]
    · next hboth =>
        rw [Bool.and_eq_true, not_and] at hboth
        split
        · next hinsert =>
            have hnone := gather_eq_nil (fun hdelete => hboth hdelete hinsert)
            rw [hdeleted] at hnone
            cases op with
            | equal => exact absurd rfl hop
            | delete => simp
            | insert => simp [hnone]
        · next hinsert =>
            have hnone := gather_eq_nil hinsert
            rw [hinserted] at hnone
            cases op with
            | equal => exact absurd rfl hop
            | delete => simp [hnone]
            | insert => simp

theorem side_mergeRuns (hop : op ≠ .equal) (hrun : ∀ s ∈ run, s.1 ≠ .equal)
    (steps done : List Step) :
    side op (mergeRuns steps run done) =
      side op done.reverse ++ (side op run.reverse ++ side op steps) := by
  induction steps generalizing run done with
  | nil =>
      have hclose := side_closeRun hop hrun [] done
      rw [mergeRuns]
      split
      · next rest heq =>
          rw [heq, List.reverse_cons, side_append, side_cons_of_ne hop.symm, side_nil] at hclose
          simpa using hclose
      · simpa using hclose
  | cons s steps ih =>
      obtain ⟨op', lines⟩ := s
      cases op' with
      | equal =>
          rw [mergeRuns, ih (by simp), side_closeRun hop hrun, side_cons_of_ne hop.symm]
          simp
      | delete =>
          rw [mergeRuns, ih (by simpa using hrun)]
          rw [List.reverse_cons, side_append, List.append_assoc, ← side_append op [_] steps]
          rfl
      | insert =>
          rw [mergeRuns, ih (by simpa using hrun)]
          rw [List.reverse_cons, side_append, List.append_assoc, ← side_append op [_] steps]
          rfl

/-- Shifted by the lines kept on one side, an edit leaves the same lines. -/
theorem side_shiftEdits (hop : op ≠ .equal) (steps done : List Step) (shifted : Bool) :
    side op (shiftEdits steps done shifted).1 = side op done.reverse ++ side op steps := by
  fun_induction shiftEdits steps done shifted with
  | case1 before edit lines after rest done shifted hsuffix ih =>
      obtain ⟨front, rfl⟩ := List.isSuffixOf_iff_suffix.mp hsuffix
      rw [ih]
      by_cases h : edit = op
      · subst h
        simp [hop.symm]
      · simp [h, hop.symm]
  | case2 before edit lines after rest done shifted _ hpre ih =>
      obtain ⟨behind, rfl⟩ := List.isPrefixOf_iff_prefix.mp hpre
      rw [ih]
      by_cases h : edit = op
      · subst h
        simp [hop.symm]
      · simp [h, hop.symm]
  | case3 before edit lines after rest done shifted _ _ ih =>
      rw [ih]
      simp [hop.symm]
  | case4 s rest done shifted _ ih =>
      rw [ih, List.reverse_cons, side_append, List.append_assoc, ← side_append op [_] rest]
      rfl
  | case5 => simp

theorem side_tidyFor (hop : op ≠ .equal) (n : Nat) (steps : List Step) :
    side op (tidyFor n steps) = side op steps := by
  induction n generalizing steps with
  | zero => rfl
  | succ n ih =>
      have hround : side op (shiftEdits (mergeRuns steps [] []) [] false).1 = side op steps := by
        rw [side_shiftEdits hop, side_mergeRuns hop (by simp)]
        simp
      rw [tidyFor]
      revert hround
      cases shiftEdits (mergeRuns steps [] []) [] false with
      | mk shiftedSteps shifted =>
          intro hround
          cases shifted with
          | true => exact (ih shiftedSteps).trans hround
          | false => exact hround

theorem Makes.tidy (h : Makes steps old new) : Makes (tidy steps) old new where
  old := (side_tidyFor (by decide) _ steps).trans h.old
  new := (side_tidyFor (by decide) _ steps).trans h.new

/-! ### Half matches -/

theorem findRun?_eq_some {part l : List Bytes} {n i : Nat} (h : findRun? part l n = some i) :
    ∃ before after, l = before ++ (part ++ after) ∧ i = n + before.length := by
  induction l generalizing n with
  | nil =>
      have hpart : part = [] := by
        by_contra hne
        simp [findRun?, hne] at h
      exact ⟨[], [], by simp [hpart], by simpa [findRun?, hpart] using h.symm⟩
  | cons a l ih =>
      rw [findRun?] at h
      split at h
      · next hpre =>
          obtain ⟨after, hafter⟩ := List.isPrefixOf_iff_prefix.mp hpre
          exact ⟨[], after, hafter.symm, by simpa using h.symm⟩
      · obtain ⟨before, after, rfl, hi⟩ := ih h
        refine ⟨a :: before, after, rfl, ?_⟩
        rw [hi, List.length_cons]
        omega

/-- A match has both lists as the run between what stands before and after it. -/
structure Match.IsOf (m : Match) (long short : List Bytes) : Prop where
  long : long = m.longBefore ++ (m.common ++ m.longAfter)
  short : short = m.shortBefore ++ (m.common ++ m.shortAfter)

theorem extendSeed_isOf {long longSeed seed shortRev short : List Bytes} {best : Option Match}
    (hbest : ∀ m ∈ best, m.IsOf (long ++ longSeed) (shortRev.reverse ++ short)) :
    ∀ m ∈ extendSeed long longSeed seed shortRev short best,
      m.IsOf (long ++ longSeed) (shortRev.reverse ++ short) := by
  induction short generalizing shortRev best with
  | nil => exact hbest
  | cons b short ih =>
      rw [extendSeed]
      have hsame : shortRev.reverse ++ b :: short = (b :: shortRev).reverse ++ short := by simp
      rw [hsame] at hbest ⊢
      refine ih ?_
      split
      · simp only
        split
        · intro m hm
          obtain rfl := Option.some.inj hm
          have hafter := take_commonLength longSeed (b :: short)
          have hbefore := take_commonLength long.reverse shortRev
          generalize commonLength longSeed (b :: short) 0 = after at *
          generalize commonLength long.reverse shortRev 0 = before at *
          rw [List.take_reverse] at hbefore
          constructor
          · rw [← hbefore, ← hafter, List.reverse_reverse, List.append_assoc,
              List.take_append_drop, ← List.append_assoc, List.take_append_drop]
          · rw [List.append_assoc, List.take_append_drop, ← List.append_assoc,
              ← List.reverse_append, List.take_append_drop, hsame]
        · exact hbest
      · exact hbest

theorem seedMatch?_isOf {long short : List Bytes} {offset : Nat} {m : Match}
    (h : seedMatch? long short offset = some m) : m.IsOf long short := by
  unfold seedMatch? at h
  simp only at h
  split at h
  · next best hbest =>
      obtain ⟨-, hm⟩ := Option.ite_none_left_eq_some.mp h
      obtain rfl := Option.some.inj hm
      have hnone : ∀ m ∈ (none : Option Match),
          m.IsOf (long.take offset ++ long.drop offset) ([].reverse ++ short) := by simp
      have hisOf := extendSeed_isOf hnone best hbest
      rwa [List.take_append_drop] at hisOf
  · cases h

theorem halfMatch?_isOf {long short : List Bytes} {m : Match}
    (h : halfMatch? long short = some m) : m.IsOf long short := by
  unfold halfMatch? at h
  split at h
  · cases h
  · split at h
    · next hfirst hsecond =>
        split at h
        · exact seedMatch?_isOf (Option.some.inj h ▸ hfirst)
        · exact seedMatch?_isOf (Option.some.inj h ▸ hsecond)
    · next hfirst _ => exact seedMatch?_isOf (Option.some.inj h ▸ hfirst)
    · exact seedMatch?_isOf h

/-! ### The search -/

theorem makes_replace (old new : List Bytes) :
    Makes [(.delete, old), (.insert, new)] old new := by
  simpa using (makes_delete old).append (makes_insert new)

theorem makes_shrink (before short after : List Bytes) :
    Makes [(.delete, before), (.equal, short), (.delete, after)]
      (before ++ (short ++ after)) short := by
  simpa using (makes_delete before).append ((makes_equal short).append (makes_delete after))

theorem makes_grow (before short after : List Bytes) :
    Makes [(.insert, before), (.equal, short), (.insert, after)] short
      (before ++ (short ++ after)) := by
  simpa using (makes_insert before).append ((makes_equal short).append (makes_insert after))

theorem makes_around {steps' : List Step} {old' new' : List Bytes} (lines : List Bytes)
    (h : Makes steps old new) (h' : Makes steps' old' new') :
    Makes (steps ++ [(.equal, lines)] ++ steps') (old ++ (lines ++ old'))
      (new ++ (lines ++ new')) := by
  rw [List.append_assoc]
  exact h.append ((makes_equal lines).append h')

/-- A list that is found in a longer one is cut out of it. -/
theorem exists_cut_of_findRun? {long short : List Bytes} {i : Nat}
    (h : findRun? short long 0 = some i) :
    long = long.take i ++ (short ++ long.drop (i + short.length)) := by
  obtain ⟨before, after, hcut, rfl⟩ := findRun?_eq_some h
  simp [hcut]

theorem makes_run_shrink {long short : List Bytes} {i : Nat}
    (h : findRun? short long 0 = some i) :
    Makes [(.delete, long.take i), (.equal, short), (.delete, long.drop (i + short.length))]
      long short := by
  have hmakes := makes_shrink (long.take i) short (long.drop (i + short.length))
  rwa [← exists_cut_of_findRun? h] at hmakes

theorem makes_run_grow {long short : List Bytes} {i : Nat}
    (h : findRun? short long 0 = some i) :
    Makes [(.insert, long.take i), (.equal, short), (.insert, long.drop (i + short.length))]
      short long := by
  have hmakes := makes_grow (long.take i) short (long.drop (i + short.length))
  rwa [← exists_cut_of_findRun? h] at hmakes

/-- The longer of two lists and the shorter one. -/
theorem exists_longer (old new : List Bytes) :
    ∃ long short, (if new.length < old.length then old else new) = long ∧
      (if new.length < old.length then new else old) = short ∧
      (new.length < old.length ∧ old = long ∧ new = short ∨
        ¬ new.length < old.length ∧ new = long ∧ old = short) := by
  by_cases hshrinks : new.length < old.length
  · exact ⟨old, new, if_pos hshrinks, if_pos hshrinks, .inl ⟨hshrinks, rfl, rfl⟩⟩
  · exact ⟨new, old, if_neg hshrinks, if_neg hshrinks, .inr ⟨hshrinks, rfl, rfl⟩⟩

/-- What is found of the middle of two lists is right if the searches in its parts are. -/
theorem makes_compareMiddleFor_of {fuel : Nat}
    (h : ∀ n, fuel = n + 1 → ∀ old new, Makes (compareFor n old new) old new)
    (old new : List Bytes) : Makes (compareMiddleFor fuel old new) old new := by
  have hpoint : ∀ n x y, fuel = n + 1 → Makes (compareFor n (old.take x) (new.take y) ++
      compareFor n (old.drop x) (new.drop y)) old new := by
    intro n x y hn
    have hparts := (h n hn (old.take x) (new.take y)).append (h n hn (old.drop x) (new.drop y))
    rwa [List.take_append_drop, List.take_append_drop] at hparts
  rw [compareMiddleFor]
  split
  · next hold =>
      rw [List.isEmpty_iff.mp hold]
      exact makes_insert new
  · split
    · next hnew =>
        rw [List.isEmpty_iff.mp hnew]
        exact makes_delete old
    · -- The longer list is cut around the shorter one, whichever of the two that is.
      obtain ⟨long, short, hlong, hshort, hroles⟩ := exists_longer old new
      simp only [hlong, hshort]
      split
      · next i hfound =>
          rcases hroles with ⟨hshrinks, rfl, rfl⟩ | ⟨hgrows, rfl, rfl⟩
          · rw [if_pos hshrinks]
            exact makes_run_shrink hfound
          · rw [if_neg hgrows]
            exact makes_run_grow hfound
      · split
        · exact makes_replace old new
        · split
          · exact makes_replace old new
          · next n =>
              split
              · next m hm =>
                  obtain ⟨hcutLong, hcutShort⟩ := halfMatch?_isOf hm
                  rcases hroles with ⟨hshrinks, rfl, rfl⟩ | ⟨hgrows, rfl, rfl⟩
                  · have hparts := makes_around m.common (h n rfl m.longBefore m.shortBefore)
                      (h n rfl m.longAfter m.shortAfter)
                    rw [← hcutLong, ← hcutShort] at hparts
                    rw [if_pos hshrinks]
                    exact hparts
                  · have hparts := makes_around m.common (h n rfl m.shortBefore m.longBefore)
                      (h n rfl m.shortAfter m.longAfter)
                    rw [← hcutLong, ← hcutShort] at hparts
                    rw [if_neg hgrows]
                    exact hparts
              · split
                · exact hpoint n _ _ rfl
                · exact makes_replace old new

/-- Setting common beginnings and ends aside leaves a search of the middle. -/
theorem makes_compareFor_of {fuel : Nat}
    (h : ∀ old new, Makes (compareMiddleFor fuel old new) old new) (old new : List Bytes) :
    Makes (compareFor fuel old new) old new := by
  have haside : ∀ (lines : List Bytes) (n : Nat), lines.length = 0 ∨ n ≠ 0 →
      Makes (if n == 0 then [] else [(.equal, lines)]) lines lines := by
    intro lines n hn
    split
    · next hzero =>
        obtain rfl := List.length_eq_zero_iff.mp (hn.resolve_right (by simpa using hzero))
        exact ⟨rfl, rfl⟩
    · exact makes_equal lines
  rw [compareFor]
  split
  · next heq =>
      obtain rfl := eq_of_beq heq
      split
      · next hold =>
          rw [List.isEmpty_iff.mp hold]
          exact ⟨rfl, rfl⟩
      · exact makes_equal old
  · have hfront := take_commonLength old new
    simp only
    generalize commonLength old new 0 = n at *
    have hback := drop_commonLength_reverse (old.drop n) (new.drop n)
    generalize commonLength (old.drop n).reverse (new.drop n).reverse 0 = k at *
    have hfirst := haside (old.take n) n (by simp; omega)
    have hlast := haside ((old.drop n).drop ((old.drop n).length - k)) k (by simp; omega)
    have hparts := (hfirst.append (h ((old.drop n).take ((old.drop n).length - k))
      ((new.drop n).take ((new.drop n).length - k)))).append hlast
    have hold : old.take n ++ (old.drop n).take ((old.drop n).length - k) ++
        (old.drop n).drop ((old.drop n).length - k) = old := by
      rw [List.append_assoc, List.take_append_drop, List.take_append_drop]
    have hnew : old.take n ++ (new.drop n).take ((new.drop n).length - k) ++
        (old.drop n).drop ((old.drop n).length - k) = new := by
      rw [hfront, hback, List.append_assoc, List.take_append_drop, List.take_append_drop]
    rw [hold, hnew] at hparts
    exact hparts.tidy

theorem makes_compareFor (fuel : Nat) (old new : List Bytes) :
    Makes (compareFor fuel old new) old new := by
  induction fuel generalizing old new with
  | zero => exact makes_compareFor_of (makes_compareMiddleFor_of (by simp)) old new
  | succ n ih =>
      exact makes_compareFor_of (makes_compareMiddleFor_of (by rintro _ ⟨⟩; exact ih)) old new

/-- The script between two lists of lines makes the second one out of the first. -/
theorem makes_compare (old new : List Bytes) : Makes (compare old new) old new :=
  (makes_compareFor _ old new).tidy

end UnusedImports.Diff

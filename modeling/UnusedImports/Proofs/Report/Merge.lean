import UnusedImports.Report.Basic
import Mathlib

/-! What a result contributes is counted where it is merged, and the counts add up to the findings
kept and those that no result lists. -/

namespace UnusedImports.Report.Builder

variable {seen : List Finding.Key}

/-! ### One finding for each key -/

/-- Only the set of keys seen before counts. -/
theorem fresh_congr {seen' : List Finding.Key} (h : ∀ k, k ∈ seen ↔ k ∈ seen')
    (fs : List Finding) : fresh seen fs = fresh seen' fs := by
  induction fs generalizing seen seen' with
  | nil => rfl
  | cons f fs ih =>
      have hhead : seen.contains f.key = seen'.contains f.key := by
        rw [Bool.eq_iff_iff, List.contains_iff_mem, List.contains_iff_mem, h]
      have hmore : ∀ k, k ∈ f.key :: seen ↔ k ∈ f.key :: seen' := by simp [h]
      rw [fresh, fresh, hhead, ih h, ih hmore]

theorem fresh_append (seen : List Finding.Key) (fs gs : List Finding) :
    fresh seen (fs ++ gs) =
      fresh seen fs ++ fresh ((fresh seen fs).map Finding.key ++ seen) gs := by
  induction fs generalizing seen with
  | nil => rfl
  | cons f fs ih =>
      rw [List.cons_append, fresh, fresh]
      split
      · exact ih seen
      · rw [ih, List.cons_append]
        congr 2
        exact fresh_congr (by simp [or_left_comm]) gs

theorem mem_keys_fresh (seen : List Finding.Key) (fs : List Finding) (k : Finding.Key) :
    k ∈ (fresh seen fs).map Finding.key ↔ k ∉ seen ∧ k ∈ fs.map Finding.key := by
  induction fs generalizing seen with
  | nil => simp [fresh]
  | cons f fs ih =>
      rw [fresh]
      by_cases hf : f.key ∈ seen
      · rw [if_pos (by simpa using hf), ih, List.map_cons, List.mem_cons]
        constructor
        · exact fun ⟨hk, hmem⟩ => ⟨hk, .inr hmem⟩
        · rintro ⟨hk, rfl | hmem⟩
          · exact absurd hf hk
          · exact ⟨hk, hmem⟩
      · rw [if_neg (by simpa using hf), List.map_cons, List.mem_cons, ih, List.map_cons,
          List.mem_cons, List.mem_cons, not_or]
        by_cases hk : k = f.key
        · simp [hk, hf]
        · simp [hk]

theorem keys_fresh_nodup (seen : List Finding.Key) (fs : List Finding) :
    ((fresh seen fs).map Finding.key).Nodup := by
  induction fs generalizing seen with
  | nil => exact .nil
  | cons f fs ih =>
      rw [fresh]
      split
      · exact ih seen
      · rw [List.map_cons, List.nodup_cons, mem_keys_fresh]
        exact ⟨fun h => h.1 List.mem_cons_self, ih _⟩

/-- The finding that is kept with a key is the first one that has it. -/
theorem find?_fresh {k : Finding.Key} (hk : k ∉ seen) (fs : List Finding) :
    (fresh seen fs).find? (·.key = k) = fs.find? (·.key = k) := by
  induction fs generalizing seen with
  | nil => rfl
  | cons f fs ih =>
      rw [fresh]
      by_cases hf : f.key ∈ seen
      · have hne : f.key ≠ k := fun heq => hk (heq ▸ hf)
        rw [if_pos (by simpa using hf), ih hk, List.find?_cons_of_neg (by simpa using hne)]
      · rw [if_neg (by simpa using hf)]
        by_cases heq : f.key = k
        · rw [List.find?_cons_of_pos (by simpa using heq),
            List.find?_cons_of_pos (by simpa using heq)]
        · rw [List.find?_cons_of_neg (by simpa using heq),
            List.find?_cons_of_neg (by simpa using heq)]
          exact ih (by simp [hk, Ne.symm heq])

/-! ### The findings of results -/

@[simp] theorem key_assignTo (tag : Tag) (f : Finding) : (assignTo tag f).key = f.key := by
  unfold assignTo
  split
  · rfl
  · rfl

theorem fresh_map_assignTo (seen : List Finding.Key) (tag : Tag) (fs : List Finding) :
    fresh seen (fs.map (assignTo tag)) = (fresh seen fs).map (assignTo tag) := by
  induction fs generalizing seen with
  | nil => rfl
  | cons f fs ih =>
      rw [List.map_cons, fresh, fresh, key_assignTo]
      split
      · exact ih seen
      · rw [ih, List.map_cons]

/-- All findings that results list, one result after another, each with its strategy. -/
def listed (rs : List Result) : List Finding :=
  rs.flatMap fun r => r.findings.map (assignTo r.strategy)

theorem mem_keys_listed (rs : List Result) (k : Finding.Key) :
    k ∈ (listed rs).map Finding.key ↔ ∃ r ∈ rs, k ∈ r.findings.map Finding.key := by
  simp only [listed, List.mem_map, List.mem_flatMap]
  constructor
  · rintro ⟨_, ⟨r, hr, f, hf, rfl⟩, rfl⟩
    exact ⟨r, hr, f, hf, (key_assignTo r.strategy f).symm⟩
  · rintro ⟨r, hr, f, hf, rfl⟩
    exact ⟨_, ⟨r, hr, f, hf, rfl⟩, key_assignTo r.strategy f⟩

theorem listed_cons (r : Result) (rs : List Result) :
    listed (r :: rs) = r.findings.map (assignTo r.strategy) ++ listed rs := List.flatMap_cons

/-- What results contribute is what all their findings are without duplicates. -/
theorem flatMap_contributions (seen : List Finding.Key) (rs : List Result) :
    (contributions seen rs).flatMap (·.2) = fresh seen (listed rs) := by
  induction rs generalizing seen with
  | nil => rfl
  | cons r rs ih =>
      have hkeys : ((fresh seen r.findings).map (assignTo r.strategy)).map Finding.key =
          (fresh seen r.findings).map Finding.key := by simp
      rw [contributions, List.flatMap_cons, ih, listed_cons, fresh_append, fresh_map_assignTo,
        hkeys]

/-! ### Counts -/

theorem map_contributions {α : Type} (f : Summary → α) (g : Result → α)
    (h : ∀ r unique, f ⟨r.strategy, r.status, r.total, unique, r.omitted, r.reason⟩ = g r)
    (seen : List Finding.Key) (rs : List Result) :
    (contributions seen rs).map (fun p => f p.1) = rs.map g := by
  induction rs generalizing seen with
  | nil => rfl
  | cons r rs ih => rw [contributions, List.map_cons, ih, List.map_cons, h]

/-- What is left of each result adds up to the findings kept and those not listed. -/
theorem sum_unique_contributions (seen : List Finding.Key) (rs : List Result) :
    ((contributions seen rs).map (·.1.unique)).sum =
      (fresh seen (listed rs)).length + (rs.map Result.omitted).sum := by
  rw [← flatMap_contributions]
  induction rs generalizing seen with
  | nil => rfl
  | cons r rs ih =>
      rw [contributions, List.map_cons, List.sum_cons, ih, List.flatMap_cons, List.length_append,
        List.length_map, List.map_cons, List.sum_cons]
      push_cast
      omega

end UnusedImports.Report.Builder

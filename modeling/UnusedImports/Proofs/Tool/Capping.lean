import UnusedImports.Proofs.Report.Order
import UnusedImports.Tool.Eslint
import UnusedImports.Tool.TsPrune

/-! What a strategy returns is known from what it detects and from its cap, and a lower cap only
lists less. -/

namespace UnusedImports

/-! ### Caps -/

namespace Tool

/-- One cap is as low as another. A cap of zero or less lets everything through. -/
def CapLe (m n : Int) : Prop := n ≤ 0 ∨ 0 < m ∧ m ≤ n

theorem capped_of_nonpos {α : Type} {m : Int} (hm : m ≤ 0) (xs : List α) : capped m xs = xs := by
  rw [capped, if_neg (by omega)]

theorem capped_prefix_self {α : Type} (m : Int) (xs : List α) : capped m xs <+: xs := by
  by_cases hm : 0 < m
  · rw [capped, if_pos hm]
    exact List.take_prefix _ _
  · have hall : capped m xs = xs := capped_of_nonpos (by omega) xs
    exact ⟨[], by rw [List.append_nil, hall]⟩

theorem capped_isPrefix {α : Type} {m n : Int} (h : CapLe m n) (xs : List α) :
    capped m xs <+: capped n xs := by
  by_cases hn : 0 < n
  · have hm : 0 < m ∧ m ≤ n := h.resolve_left (by omega)
    rw [capped, capped, if_pos hm.1, if_pos hn]
    exact List.take_prefix_take_left (by omega)
  · have hall := capped_of_nonpos (Int.not_lt.mp hn) xs
    rw [hall]
    exact capped_prefix_self m xs

end Tool

/-! ### Results -/

/-- A result under a strategy's name that lists the findings detected, in order and up to a cap, and
counts all of them. -/
structure Result.Lists (r : Result) (tag : Tag) (cap : Int) (ds : List Finding) : Prop where
  strategy : r.strategy = tag
  total : r.total = ds.length
  findings : r.findings = Tool.capped cap (Finding.sort ds)

namespace Result.Lists

variable {tag : Tag} {cap : Int} {ds : List Finding} {r : Result}

theorem found (tag : Tag) (cap : Int) (ds : List Finding) :
    (Result.found tag (Tool.capped cap (Finding.sort ds)) ds.length).Lists tag cap ds := by
  have hlength : (Tool.capped cap (Finding.sort ds)).length ≤ ds.length := by
    rw [← (Finding.sort_perm ds).length_eq]
    exact (Tool.capped_prefix_self cap _).length_le
  exact ⟨rfl, Int.max_eq_left (by omega), rfl⟩

theorem capped_sort_nil (cap : Int) : Tool.capped cap (Finding.sort []) = [] := by
  rw [Finding.sort, List.mergeSort_nil]
  exact List.prefix_nil.mp (Tool.capped_prefix_self cap [])

theorem notAvailable (tag : Tag) (cap : Int) (reason : Bytes) :
    (Result.notAvailable tag reason).Lists tag cap [] :=
  ⟨rfl, rfl, (capped_sort_nil cap).symm⟩

theorem inconclusive (tag : Tag) (cap : Int) (reason : Bytes) :
    (Result.inconclusive tag reason).Lists tag cap [] :=
  ⟨rfl, rfl, (capped_sort_nil cap).symm⟩

theorem hasFindings_iff (h : r.Lists tag cap ds) : r.hasFindings = true ↔ ds ≠ [] := by
  rw [Result.hasFindings, decide_eq_true_iff, h.total, ← List.length_pos_iff]
  omega

end Result.Lists

/-! ### The linter -/

namespace Tool.Eslint

/-- The findings that the output of a run is read as, if the run came to its end. -/
def detected (root : Bytes) (o : Options) (reply : Reply) : List Finding :=
  match reply.failure with
  | none | some (.exit ..) => (parse root o.complete.rules reply.output.stdout).toOption.getD []
  | _ => []

theorem interpret_lists (root : Bytes) (o : Options) (reply : Reply) :
    (interpret root o reply).value.Lists .eslint o.maxFindings (detected root o reply) := by
  unfold interpret
  extract_lets read
  have hread : read.value.Lists .eslint o.maxFindings
      ((parse root o.complete.rules reply.output.stdout).toOption.getD []) := by
    unfold read
    split
    case h_1 ds hparse => exact hparse ▸ .found _ _ ds
    case h_2 e hparse =>
      rw [hparse]
      split
      · exact .notAvailable _ _ _
      · exact .inconclusive _ _ _
  unfold detected
  cases reply.failure with
  | none => exact hread
  | some f =>
      cases f with
      | exit => exact hread
      | notFound => exact .notAvailable _ _ _
      | timeout | canceled | other => exact .inconclusive _ _ _

end Tool.Eslint

/-! ### The search for unused exports -/

namespace Tool.TsPrune

/-- The findings that the output of a run is read as, if the run came to its end. An exit code
without any output is no end. -/
def detected (root : Bytes) (reply : Reply) : List Finding :=
  let read := ((parse root reply.output.stdout).toOption.map Parsed.findings).getD []
  match reply.failure with
  | none => read
  | some (.exit ..) => if Bytes.isBlank reply.output.stdout then [] else read
  | _ => []

theorem interpret_lists (root : Bytes) (o : Options) (reply : Reply) :
    (interpret root o reply).value.Lists .tsPrune o.maxFindings (detected root reply) := by
  unfold interpret
  extract_lets exitCode read
  have hread : read.value.Lists .tsPrune o.maxFindings
      (((parse root reply.output.stdout).toOption.map Parsed.findings).getD []) := by
    unfold read
    split
    case h_1 parsed hparse =>
      rw [hparse]
      split
      · exact .found _ _ parsed.findings
      · exact .found _ _ parsed.findings
    case h_2 e hparse =>
      rw [hparse]
      split
      · exact .notAvailable _ _ _
      · exact .inconclusive _ _ _
  unfold detected
  cases reply.failure with
  | none => exact hread
  | some f =>
      cases f with
      | exit =>
          dsimp only
          split
          · split
            · exact .notAvailable _ _ _
            · exact .inconclusive _ _ _
          · exact hread
      | notFound => exact .notAvailable _ _ _
      | timeout | canceled | other => exact .inconclusive _ _ _

end Tool.TsPrune

end UnusedImports

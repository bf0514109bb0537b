import UnusedImports.Config.Basic
import UnusedImports.Project.SourceFile
import UnusedImports.Proofs.Report.Account

/-! No file is as large as the numbers that are lost when a size is read with sign, so that the
limit refuses what the number would. -/

namespace UnusedImports

/-! ### Numbers of bytes and their limits -/

namespace FileSize

/-- The numbers without sign that fit 64 bits are below this one. -/
def bound : Nat := 0x10000000000000000

/-- The number of bytes that a setting denotes, where zero stands for no limit. -/
inductive Denotes (s : Bytes) : Nat → Prop where
  | none : Bytes.isBlank s ∨ s = utf8 "0" → Denotes s 0
  | size {n : Nat} : Bytes.isBlank s = false → s ≠ utf8 "0" → bytes s = .ok n → Denotes s n

variable {s : Bytes} {n m : Nat}

theorem lt_bound_of_bytes (h : bytes s = .ok n) : n < bound := by
  rw [bytes] at h
  split at h
  · cases h
  · rename_i mantissa exponent _
    simp only at h
    split at h
    · cases h
    · split at h
      · cases h
      · split at h
        · cases h
        · rename_i hsize
          cases h
          exact Nat.not_le.mp hsize

theorem Denotes.lt_bound (h : Denotes s n) : n < bound := by
  cases h with
  | none => decide
  | size _ _ hbytes => exact lt_bound_of_bytes hbytes

theorem Denotes.unique (hn : Denotes s n) (hm : Denotes s m) : n = m := by
  cases hn with
  | none h =>
    cases hm with
    | none => rfl
    | size hblank hzero => simp [hblank, hzero] at h
  | size hblank hzero hbytes =>
    cases hm with
    | none h => simp [hblank, hzero] at h
    | size _ _ hbytes' => exact Except.ok.inj (hbytes.symm.trans hbytes')

theorem signed_zero : signed 0 = 0 := by decide

theorem Denotes.limit_eq (h : Denotes s n) : FileSize.limit s = .ok (signed n) := by
  cases h with
  | none h => rw [FileSize.limit, if_pos (by simpa using h), signed_zero]
  | size hblank hzero hbytes =>
    rw [FileSize.limit, if_neg (by simp [hblank, hzero]), hbytes, Except.map]

theorem exists_denotes_of_limit {limit : Int} (h : FileSize.limit s = .ok limit) :
    ∃ n, Denotes s n := by
  rcases Decidable.em (Bytes.isBlank s ∨ s = utf8 "0") with hnone | hsome
  · exact ⟨0, .none hnone⟩
  · rw [FileSize.limit, if_neg (by simpa using hsome)] at h
    obtain ⟨hblank, hzero⟩ : Bytes.isBlank s = false ∧ s ≠ utf8 "0" := by simpa using hsome
    cases hbytes : bytes s with
    | error p => rw [hbytes] at h; cases h
    | ok n => exact ⟨n, .size hblank hzero hbytes⟩

theorem limit_eq_ok_iff {limit : Int} :
    FileSize.limit s = .ok limit ↔ ∃ n, Denotes s n ∧ limit = signed n := by
  constructor
  · intro h
    obtain ⟨n, hn⟩ := exists_denotes_of_limit h
    exact ⟨n, hn, Except.ok.inj (h.symm.trans hn.limit_eq)⟩
  · rintro ⟨n, hn, hlimit⟩
    rw [hlimit]
    exact hn.limit_eq

/-! ### Reading a number with sign -/

theorem signed_of_le (h : (n : Int) ≤ Integer.greatest) : signed n = n :=
  Integer.wrap_eq_self (Int.natCast_nonneg n) h

theorem signed_of_lt (h : Integer.greatest < n) (hn : n < bound) : signed n = n - bound := by
  unfold Integer.greatest at h
  unfold bound at hn ⊢
  rw [signed, Integer.wrap, ← Int.sub_bmod_right]
  exact Int.bmod_eq_of_le (by omega) (by omega)

/-- Just the larger half of the numbers turns negative. -/
theorem signed_neg_iff (hn : n < bound) : signed n < 0 ↔ Integer.greatest < n := by
  rcases Int.lt_or_le Integer.greatest n with h | h
  · rw [signed_of_lt h hn]
    omega
  · rw [signed_of_le h]
    omega

theorem bytes_eightExbibytes : bytes (utf8 "8EiB") = .ok 0x8000000000000000 := by
  have hlength : numberLength (utf8 "8EiB") = 1 := by decide +kernel
  have hnumber : decimal? (((utf8 "8EiB").take 1).filter (· != 0x2c)) = some (8, 0) := by
    decide +kernel
  have hunit : unit? (Bytes.toLower (Bytes.trim ((utf8 "8EiB").drop 1))) =
      some (Nat.pow 1024 6) := by decide +kernel
  have hfinite : ¬ Nat.pow 2 1024 ≤ (Binary64.ofDecimal 8 0).floor := by decide +kernel
  have hsize : ((Binary64.ofDecimal 8 0).mul (Binary64.ofNat (Nat.pow 1024 6))).floor =
      0x8000000000000000 := by decide +kernel
  rw [bytes]
  simp only [hlength, hnumber, hunit, if_neg hfinite, hsize]
  exact if_neg (by decide)

end FileSize

/-! ### Files that are refused -/

namespace SourceFile

/-- A file whose size fits 64 bits with sign breaks the limit of a number as it breaks the
number. -/
theorem exceeds_signed_iff {n size : Nat} (hn : n < FileSize.bound)
    (hsize : (size : Int) ≤ Integer.greatest) :
    exceeds (FileSize.signed n) size = true ↔ n ≠ 0 ∧ n < size := by
  rw [exceeds, Bool.and_eq_true, decide_eq_true_iff, decide_eq_true_iff]
  rcases Int.lt_or_le Integer.greatest n with h | h
  · -- The limit is none, and the number is larger than all files.
    have hneg := (FileSize.signed_neg_iff hn).mpr h
    omega
  · rw [FileSize.signed_of_le h]
    omega

theorem load_eq_tooLarge_iff {tree node : Tree} {path p : Bytes} {limit : Int} {size : Nat}
    (hnode : tree.lookup path = .ok node) :
    load tree limit path = .error (.tooLarge p size) ↔
      exceeds limit (sizeOf node) = true ∧ p = path ∧ size = sizeOf node := by
  rw [load, hnode]
  simp only
  split
  · rename_i hexceeds
    simp [hexceeds, eq_comm]
  · rename_i hwithin
    cases node <;> simp [hwithin]
    split <;> simp

/-- The limit of a setting is the number it denotes, read with sign. Whatever this number is, its
limit refuses the files that are larger and no others; zero refuses none. -/
theorem load_maxFileSizeLimit :
    (∀ (c : Config) (limit : Int), c.maxFileSizeLimit = .ok limit ↔
      ∃ n < FileSize.bound, FileSize.Denotes c.scan.maxFileSize n ∧ limit = FileSize.signed n) ∧
    ∀ n < FileSize.bound, ∀ (tree node : Tree) (path : Bytes), tree.lookup path = .ok node →
      (sizeOf node : Int) ≤ Integer.greatest →
      ((∃ p size, load tree (FileSize.signed n) path = .error (.tooLarge p size)) ↔
        n ≠ 0 ∧ n < sizeOf node) := by
  constructor
  · intro c limit
    rw [Config.maxFileSizeLimit, FileSize.limit_eq_ok_iff]
    exact ⟨fun ⟨n, hn, hlimit⟩ => ⟨n, hn.lt_bound, hn, hlimit⟩,
      fun ⟨n, _, hn, hlimit⟩ => ⟨n, hn, hlimit⟩⟩
  · intro n hn tree node path hnode hsize
    rw [← exceeds_signed_iff hn hsize]
    simp only [load_eq_tooLarge_iff hnode]
    exact ⟨fun ⟨_, _, h, _⟩ => h, fun h => ⟨path, sizeOf node, h, rfl, rfl⟩⟩

/-- A limit of two bytes refuses a file of three, and the number of `8EiB`, which turns negative,
refuses none. -/
theorem load_maxFileSizeLimit_sample :
    (∃ n < FileSize.bound, FileSize.Denotes (utf8 "8EiB") n ∧
      Integer.least = FileSize.signed n) ∧
    (∃ p size, load (.directory [(utf8 "a", .file (utf8 "abc"))]) (FileSize.signed 2) (utf8 "/a") =
      .error (.tooLarge p size)) ∧
    ¬ ∃ p size, load (.directory [(utf8 "a", .file (utf8 "abc"))])
      (FileSize.signed 0x8000000000000000) (utf8 "/a") = .error (.tooLarge p size) := by
  obtain ⟨hsetting, hload⟩ := load_maxFileSizeLimit
  have hnode : (Tree.directory [(utf8 "a", .file (utf8 "abc"))]).lookup (utf8 "/a") =
      .ok (.file (utf8 "abc")) := by cbv
  refine ⟨?_, ?_, ?_⟩
  · have hdenotes : FileSize.Denotes (utf8 "8EiB") 0x8000000000000000 :=
      .size (by cbv) (by decide) FileSize.bytes_eightExbibytes
    exact (hsetting { Config.default with
      scan := { Config.default.scan with maxFileSize := utf8 "8EiB" } } _).mp hdenotes.limit_eq
  · exact (hload 2 (by decide) _ _ _ hnode (by decide)).mpr (by decide)
  · rw [hload 0x8000000000000000 (by decide) _ _ _ hnode (by decide)]
    decide

end SourceFile

end UnusedImports

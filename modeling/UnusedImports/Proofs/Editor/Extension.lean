import UnusedImports.Editor.Session
import UnusedImports.Proofs.Project.Enumeration

/-! The server compares extensions as they are written, the search for sources as they are without
blanks, in lower case and with a dot. -/

namespace UnusedImports

variable {exts : List Bytes} {d : Editor.Document} {version : Bytes}

/-! ### Paths with a given extension -/

namespace Path

/-- The extension of a path has neither another dot nor a slash. -/
theorem exists_of_extension (p : Bytes) :
    extension p = [] ∨
      ∃ after, extension p = '.'.toUInt8 :: after ∧ '.'.toUInt8 ∉ after ∧ Bytes.slash ∉ after := by
  unfold extension
  simp only
  split
  · refine .inr ⟨_, rfl, ?_, ?_⟩
    · intro hdot
      simpa using List.mem_takeWhile_imp (List.mem_reverse.mp hdot)
    · intro hslash
      have hname := List.mem_reverse.mp
        ((List.takeWhile_sublist _).subset (List.mem_reverse.mp hslash))
      simpa using List.mem_takeWhile_imp (List.mem_reverse.mp hname)
  · exact .inl rfl

theorem extension_append {after : Bytes} (hdot : '.'.toUInt8 ∉ after) (hslash : Bytes.slash ∉ after)
    (name : Bytes) : extension (name ++ '.'.toUInt8 :: after) = '.'.toUInt8 :: after := by
  have hname : (splitName (name ++ '.'.toUInt8 :: after)).2 =
      (name.reverse.takeWhile (· != Bytes.slash)).reverse ++ '.'.toUInt8 :: after := by
    have hkeep : ∀ b ∈ after.reverse ++ ['.'.toUInt8], (b != Bytes.slash) = true := by
      intro b hb
      rw [bne_iff_ne]
      rintro rfl
      rcases List.mem_append.mp hb with hb | hb
      · exact hslash (List.mem_reverse.mp hb)
      · exact absurd hb (by decide)
    have hreverse : (name ++ '.'.toUInt8 :: after).reverse =
        (after.reverse ++ ['.'.toUInt8]) ++ name.reverse := by simp
    rw [splitName, hreverse, List.takeWhile_append_of_pos hkeep]
    simp
  have hkeep : ∀ b ∈ after.reverse, (b != '.'.toUInt8) = true := by
    intro b hb
    rw [bne_iff_ne]
    rintro rfl
    exact hdot (List.mem_reverse.mp hb)
  have hafter (front : Bytes) :
      ((front ++ '.'.toUInt8 :: after).reverse.takeWhile (· != '.'.toUInt8)).reverse = after := by
    rw [List.reverse_append, List.reverse_cons, List.append_assoc,
      List.takeWhile_append_of_pos hkeep]
    simp
  have hshorter (front : Bytes) : after.length < (front ++ '.'.toUInt8 :: after).length := by
    rw [List.length_append, List.length_cons]
    omega
  simp only [extension, hname, hafter]
  exact if_pos (hshorter _)

end Path

namespace Editor

/-- A path that starts at the file system's root is no URI with a scheme. -/
theorem Uri.toPath_slash (s : Bytes) : toPath (Bytes.slash :: s) = Bytes.slash :: s := by
  have hscheme : ∀ n, scheme? ((Bytes.slash :: s).take n) = none := by
    intro n
    unfold scheme? Bytes.cut?
    cases Bytes.find? (utf8 ":") ((Bytes.slash :: s).take n) with
    | none => rfl
    | some i =>
        have halpha : (((Bytes.slash :: s).take n).take i).head?.any Bytes.isAlpha = false := by
          cases n with
          | zero => simp
          | succ n =>
              cases i with
              | zero => rfl
              | succ i => exact (by decide : Bytes.isAlpha Bytes.slash = false)
        simp [halpha]
  unfold toPath Bytes.cut?
  cases Bytes.find? (utf8 "#") (Bytes.slash :: s) with
  | none =>
      have hwhole := hscheme (Bytes.slash :: s).length
      rw [List.take_length] at hwhole
      simp [hwhole]
  | some n => simp [hscheme n]

/-- The last part of a path alone decides about its extension, so that some document has it. -/
theorem exists_document (p : Bytes) : ∃ d : Document, Path.extension d.path = Path.extension p := by
  rcases Path.exists_of_extension p with hnone | ⟨after, hsome, hdot, hslash⟩
  · refine ⟨⟨[Bytes.slash], []⟩, ?_⟩
    rw [hnone, Document.path, Uri.toPath_slash]
    decide
  · refine ⟨⟨Bytes.slash :: '.'.toUInt8 :: after, []⟩, ?_⟩
    rw [hsome, Document.path, Uri.toPath_slash]
    exact Path.extension_append hdot hslash [Bytes.slash]

/-! ### Lists of extensions -/

/-- An extension as it is compared by the search for sources: without blanks around it, in lower
case, and with a dot. -/
def IsComparable (ext : Bytes) : Prop :=
  Bytes.toLower (Bytes.trim ext) = ext ∧ ext.head? = some '.'.toUInt8

instance (ext : Bytes) : Decidable (IsComparable ext) :=
  inferInstanceAs (Decidable (Bytes.toLower (Bytes.trim ext) = ext ∧ _))

theorem IsComparable.normalizeExtension {ext : Bytes} (h : IsComparable ext) :
    SourceOptions.normalizeExtension ext = ext := by
  simp [SourceOptions.normalizeExtension, h.1, h.2]

theorem isHandled_new (hexts : exts ≠ []) (version : Bytes) (d : Document) :
    d.isHandled (Session.new exts version).extensions = true ↔
      Bytes.toLower (Path.extension d.path) ∈ exts := by
  simp [Document.isHandled, Session.new, hexts]

theorem wants_mk_iff (hexts : exts ≠ []) (ignored : List Bytes) (vendored : Bool) (p : Bytes) :
    SourceOptions.wants ⟨exts, ignored, vendored⟩ p = true ↔
      Bytes.toLower (Path.extension p) ≠ [] ∧
        ∃ x ∈ exts, SourceOptions.normalizeExtension x = Bytes.toLower (Path.extension p) := by
  simp [SourceOptions.wants, SourceOptions.wanted, hexts, and_comm]

/-- A server and the search for sources that are given the same extensions treat all documents alike
exactly if each extension that a path can have, in lower case, is given as such or not at all: an
entry that is written otherwise counts for the search only. They do so if all entries are written as
they are compared. -/
theorem isHandled_eq_wants_iff (hexts : exts ≠ []) (version : Bytes) (ignored : List Bytes)
    (vendored : Bool) :
    ((∀ d : Document, d.isHandled (Session.new exts version).extensions =
        SourceOptions.wants ⟨exts, ignored, vendored⟩ d.path) ↔
      ∀ p, let e := Bytes.toLower (Path.extension p)
        e ∈ exts ↔ e ≠ [] ∧ ∃ x ∈ exts, SourceOptions.normalizeExtension x = e) ∧
    ((∀ x ∈ exts, IsComparable x) →
      ∀ d : Document, d.isHandled (Session.new exts version).extensions =
        SourceOptions.wants ⟨exts, ignored, vendored⟩ d.path) := by
  have hagree : ∀ d : Document, d.isHandled (Session.new exts version).extensions =
      SourceOptions.wants ⟨exts, ignored, vendored⟩ d.path ↔
        (Bytes.toLower (Path.extension d.path) ∈ exts ↔ Bytes.toLower (Path.extension d.path) ≠ [] ∧
          ∃ x ∈ exts, SourceOptions.normalizeExtension x =
            Bytes.toLower (Path.extension d.path)) := by
    intro d
    rw [Bool.eq_iff_iff, isHandled_new hexts, wants_mk_iff hexts]
  refine ⟨⟨?_, ?_⟩, ?_⟩
  · intro hall p
    obtain ⟨d, hd⟩ := exists_document p
    exact hd ▸ (hagree d).mp (hall d)
  · intro hall d
    exact (hagree d).mpr (hall d.path)
  · intro hcomparable d
    refine (hagree d).mpr ⟨?_, ?_⟩
    · intro he
      have hnormal := hcomparable _ he
      refine ⟨?_, _, he, hnormal.normalizeExtension⟩
      intro hnone
      have hdot := hnormal.2
      rw [hnone] at hdot
      cases hdot
    · rintro ⟨-, x, hx, hnormal⟩
      rw [(hcomparable x hx).normalizeExtension] at hnormal
      exact hnormal ▸ hx

theorem isHandled_eq_wants_vue :
    [utf8 ".ts", utf8 ".vue"] ≠ [] ∧ (∀ x ∈ [utf8 ".ts", utf8 ".vue"], IsComparable x) ∧
      Document.isHandled (Session.new [utf8 ".ts", utf8 ".vue"] []).extensions
        ⟨utf8 "file:///A.VUE", []⟩ = true ∧
      SourceOptions.wants ⟨[utf8 ".ts", utf8 ".vue"], [], false⟩
        (Document.path ⟨utf8 "file:///A.VUE", []⟩) = true := by
  have hexts : [utf8 ".ts", utf8 ".vue"] ≠ [] := List.cons_ne_nil _ _
  have hcomparable : ∀ x ∈ [utf8 ".ts", utf8 ".vue"], IsComparable x := by decide +kernel
  have hhandled : Document.isHandled (Session.new [utf8 ".ts", utf8 ".vue"] []).extensions
      ⟨utf8 "file:///A.VUE", []⟩ = true := by decide +kernel
  have hagree := (isHandled_eq_wants_iff hexts [] [] false).2 hcomparable ⟨utf8 "file:///A.VUE", []⟩
  exact ⟨hexts, hcomparable, hhandled, hagree ▸ hhandled⟩

/-- An extension that is given without its dot is one of sources, but no document has it. -/
theorem isHandled_without_dot :
    Document.isHandled (Session.new [utf8 "ts"] []).extensions ⟨utf8 "file:///a.ts", []⟩ = false ∧
      SourceOptions.wants ⟨[utf8 "ts"], [], false⟩
        (Document.path ⟨utf8 "file:///a.ts", []⟩) = true := by
  decide +kernel

end Editor

end UnusedImports

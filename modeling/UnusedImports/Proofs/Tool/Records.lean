import UnusedImports.Proofs.Text.Trim
import UnusedImports.Tool.TsPrune
import Mathlib

/-! A line is read at the first colon where digits, a dash and a name follow, so the path is as
short as it can be. -/

namespace UnusedImports.Tool.TsPrune

/-! ### The pattern of a record -/

def isNameByte (b : UInt8) : Bool :=
  !(b == 0x20 || b == 0x09 || b == 0x0a || b == 0x0c || b == 0x0d)

/-- A text that begins with digits, a dash between spaces and a name that goes as far as it can. -/
structure IsTail (s digits name : Bytes) : Prop where
  digits_ne : digits ≠ []
  digits_all : ∀ b ∈ digits, Bytes.isDigit b = true
  name_ne : name ≠ []
  name_all : ∀ b ∈ name, isNameByte b = true
  split : ∃ more, s = digits ++ (utf8 " - " ++ (name ++ more)) ∧
    ∀ b ∈ more.head?, isNameByte b = false

/-- A record is read at one of the colons of a text. -/
def Splits (s : Bytes) (r : Record) : Prop :=
  ∃ tail, s = r.path ++ ':'.toUInt8 :: tail ∧ IsTail tail r.digits r.name

/-- A record is read at the first colon that allows one, from some offset on. -/
structure IsFirst (n : Nat) (s : Bytes) (r : Record) : Prop where
  le : n ≤ r.path.length
  splits : Splits s r
  shortest : ∀ r', n ≤ r'.path.length → Splits s r' → r.path.length ≤ r'.path.length

/-- The pattern `^(.+?):(\d+) - (\S+)` matches a text: it is read as a record whose path is not
empty and as short as possible. -/
abbrev IsMatch (s : Bytes) (r : Record) : Prop := IsFirst 1 s r

theorem tail?_eq (s : Bytes) :
    tail? s = (Bytes.dropStart? (utf8 " - ") (s.dropWhile Bytes.isDigit)).bind fun rest =>
      if (s.takeWhile Bytes.isDigit).isEmpty || (rest.takeWhile isNameByte).isEmpty then none
      else some (s.takeWhile Bytes.isDigit, rest.takeWhile isNameByte) := by
  rw [tail?]
  cases Bytes.dropStart? (utf8 " - ") (s.dropWhile Bytes.isDigit) <;> rfl

theorem tail?_iff (s digits name : Bytes) :
    tail? s = some (digits, name) ↔ IsTail s digits name := by
  rw [tail?_eq, Option.bind_eq_some_iff]
  simp only [Option.ite_none_left_eq_some, Option.some_inj, Prod.mk.injEq, Bool.or_eq_true,
    List.isEmpty_iff, not_or, Bytes.dropStart?_eq_some]
  constructor
  · rintro ⟨rest, hrest, ⟨hdigits, hname⟩, rfl, rfl⟩
    refine ⟨hdigits, fun b => List.mem_takeWhile_imp, hname, fun b => List.mem_takeWhile_imp,
      rest.dropWhile isNameByte, ?_, Bytes.head?_dropWhile⟩
    rw [List.takeWhile_append_dropWhile, ← hrest, List.takeWhile_append_dropWhile]
  · rintro ⟨hdigits, hdigitsAll, hname, hnameAll, more, rfl, hmore⟩
    have hdash : ∀ b ∈ (utf8 " - " ++ (name ++ more)).head?, Bytes.isDigit b = false := by
      rw [show utf8 " - " = [0x20, 0x2d, 0x20] by decide]
      rintro b ⟨⟩
      decide
    obtain ⟨htake, hdrop⟩ := Bytes.span_append hdigitsAll hdash
    obtain ⟨htakeName, -⟩ := Bytes.span_append hnameAll hmore
    rw [htake, hdrop]
    exact ⟨name ++ more, rfl, ⟨hdigits, by rwa [htakeName]⟩, rfl, htakeName⟩

theorem IsTail.unique {s digits name digits' name' : Bytes} (h : IsTail s digits name)
    (h' : IsTail s digits' name') : digits = digits' ∧ name = name' := by
  have heq := ((tail?_iff s digits name).mpr h).symm.trans ((tail?_iff s digits' name').mpr h')
  simpa using heq

theorem IsFirst.congr {n m : Nat} {s : Bytes} {r : Record}
    (h : ∀ r', Splits s r' → (n ≤ r'.path.length ↔ m ≤ r'.path.length)) :
    IsFirst n s r ↔ IsFirst m s r := by
  constructor
  · rintro ⟨hle, hsplits, hshortest⟩
    exact ⟨(h r hsplits).mp hle, hsplits,
      fun r' hle' hsplits' => hshortest r' ((h r' hsplits').mpr hle') hsplits'⟩
  · rintro ⟨hle, hsplits, hshortest⟩
    exact ⟨(h r hsplits).mpr hle, hsplits,
      fun r' hle' hsplits' => hshortest r' ((h r' hsplits').mp hle') hsplits'⟩

theorem Splits.cons_iff {a s : Bytes} {b : UInt8} {r : Record} :
    Splits (a ++ b :: s) r ∧ r.path.length ≤ a.length ∧ a.length ≤ r.path.length ↔
      r.path = a ∧ b = ':'.toUInt8 ∧ IsTail s r.digits r.name := by
  constructor
  · rintro ⟨⟨tail, heq, htail⟩, hle, hge⟩
    obtain ⟨hpath, hrest⟩ := List.append_inj heq (by omega)
    obtain ⟨rfl, rfl⟩ := List.cons.inj hrest
    exact ⟨hpath.symm, rfl, htail⟩
  · rintro ⟨rfl, rfl, htail⟩
    exact ⟨⟨s, rfl, htail⟩, le_rfl, le_rfl⟩

/-- The search for a record finds the first one behind what it has passed. -/
theorem record?_iff (acc s : Bytes) (r : Record) :
    record? acc s = some r ↔ IsFirst (max 1 acc.length) (acc.reverse ++ s) r := by
  induction s generalizing acc with
  | nil =>
      simp only [record?, reduceCtorEq, false_iff]
      rintro ⟨hle, ⟨tail, heq, -⟩, -⟩
      have := congrArg List.length heq
      simp at this
      omega
  | cons b s ih =>
      have hnext := ih (b :: acc)
      rw [List.reverse_cons, List.append_assoc, List.singleton_append, List.length_cons] at hnext
      rw [record?]
      split
      · next digits name hread =>
          rw [Option.ite_none_right_eq_some, tail?_iff, Bool.and_eq_true, beq_iff_eq] at hread
          obtain ⟨⟨rfl, hacc⟩, htail⟩ := hread
          have hlength : 1 ≤ acc.length := by
            cases acc with
            | nil => contradiction
            | cons c acc => simp
          have hsplits : Splits (acc.reverse ++ ':'.toUInt8 :: s) ⟨acc.reverse, digits, name⟩ :=
            ⟨s, rfl, htail⟩
          constructor
          · rintro ⟨⟩
            exact ⟨by simp [hlength], hsplits, fun r' hle _ => by simp at hle ⊢; omega⟩
          · intro hr
            have hle := hr.shortest _ (by simp [hlength]) hsplits
            have hge := hr.le
            simp only [List.length_reverse] at hle
            obtain ⟨hpath, -, htail'⟩ := Splits.cons_iff.mp
              ⟨hr.splits, by simpa using hle, by simp; omega⟩
            obtain ⟨hdigits, hname⟩ := htail.unique htail'
            rw [← hpath, hdigits, hname]
      · next hnone =>
          rw [hnext]
          apply IsFirst.congr
          intro r' hsplits
          refine ⟨fun hle => by omega, fun hle => ?_⟩
          -- At this very byte no record is read.
          have hne : ¬ r'.path.length ≤ acc.length := by
            intro hge
            obtain ⟨hpath, rfl, htail⟩ := Splits.cons_iff.mp
              ⟨hsplits, by simpa using hge, by simp; omega⟩
            have hacc : acc ≠ [] := by
              rintro rfl
              simp [hpath] at hle
            rw [← tail?_iff] at htail
            simp [hacc, htail] at hnone
          omega

theorem record?_nil_iff (s : Bytes) (r : Record) : record? [] s = some r ↔ IsMatch s r :=
  record?_iff [] s r

/-! ### Lines as they are written -/

/-- A line that is written as a record, with further text behind a space. Its path has no colon at
which a reader could take it to end. -/
structure IsRecord (line path digits name : Bytes) : Prop where
  path_ne : path ≠ []
  path_first : ∀ c ∈ (Utf8.codePoints path).head?, CodePoint.isBlank c = false
  path_free : ∀ ds, ds ≠ [] → (∀ b ∈ ds, Bytes.isDigit b = true) →
    ¬ ':'.toUInt8 :: (ds ++ utf8 " - ") <:+: path
  digits_ne : digits ≠ []
  digits_all : ∀ b ∈ digits, Bytes.isDigit b = true
  name_ne : name ≠ []
  name_all : ∀ c ∈ Utf8.codePoints name, CodePoint.isBlank c = false
  split : ∃ more, line = path ++ ':'.toUInt8 :: (digits ++ (utf8 " - " ++ (name ++ more))) ∧
    ∀ b ∈ more.head?, b = 0x20

namespace IsRecord

variable {line path digits name : Bytes}

theorem name_bytes (h : IsRecord line path digits name) : ∀ b ∈ name, isNameByte b = true := by
  intro b hb
  by_contra hspace
  have hblank : b < 0x80 ∧ CodePoint.isBlank b.toNat = true := by
    simp only [isNameByte, Bool.not_eq_true', Bool.not_eq_false, Bool.or_eq_true,
      beq_iff_eq] at hspace
    rcases hspace with (((rfl | rfl) | rfl) | rfl) | rfl <;> decide
  have hmem := Utf8.toNat_mem_codePoints hb hblank.1
  simp [h.name_all _ hmem] at hblank

theorem solid (h : IsRecord line path digits name) :
    Bytes.Solid (path ++ ':'.toUInt8 :: (digits ++ (utf8 " - " ++ name))) where
  ne_nil := by simp
  first := by
    intro u hu
    have hne : Utf8.units path ≠ [] := by simpa using h.path_ne
    rw [Utf8.units_append_ascii (by decide), List.head?_append_of_ne_nil _ hne] at hu
    apply h.path_first
    rw [Utf8.codePoints, List.head?_map]
    exact Option.mem_map_of_mem _ hu
  last := by
    intro u hu
    have hspace : utf8 " - " = utf8 " -" ++ [0x20] := by decide
    have heq : path ++ ':'.toUInt8 :: (digits ++ (utf8 " - " ++ name)) =
        (path ++ ':'.toUInt8 :: (digits ++ utf8 " -")) ++ 0x20 :: name := by simp [hspace]
    have hne : Utf8.units name ≠ [] := by simpa using h.name_ne
    rw [heq, Utf8.units_append_ascii (by decide), Utf8.units_ascii (by decide),
      List.getLast?_append_of_ne_nil _ (by simp), List.getLast?_cons_of_ne_nil hne] at hu
    apply h.name_all
    exact List.mem_map_of_mem (List.mem_of_getLast? hu)

/-- What is written as a record is read as that record. -/
theorem isMatch (h : IsRecord line path digits name) :
    IsMatch (Bytes.trim line) ⟨path, digits, name⟩ := by
  obtain ⟨more, hline, hmore⟩ := h.split
  have hascii : ∀ b ∈ more.head?, b < 0x80 := by
    intro b hb
    rw [hmore b hb]
    decide
  obtain ⟨kept, htrim, hkept⟩ := Bytes.trim_append h.solid hascii
  have hfront : ∀ b ∈ kept.head?, isNameByte b = false := by
    obtain ⟨dropped, rfl⟩ := hkept
    intro b hb
    rw [hmore b (by simp [Option.mem_def.mp hb])]
    decide
  have htrim : Bytes.trim line =
      path ++ ':'.toUInt8 :: (digits ++ (utf8 " - " ++ (name ++ kept))) := by
    simpa [hline] using htrim
  refine ⟨by simpa [Nat.one_le_iff_ne_zero] using h.path_ne, ⟨_, htrim, h.digits_ne,
    h.digits_all, h.name_ne, h.name_bytes, kept, rfl, hfront⟩, ?_⟩
  rintro r' hle ⟨tail, heq, htail⟩
  by_contra hlt
  simp only [Nat.not_le] at hlt
  -- An earlier colon would leave the digits and the dash in the path.
  obtain ⟨hdigits, hdigitsAll, -, -, rest, rfl, -⟩ := htail
  apply h.path_free r'.digits hdigits hdigitsAll
  rw [htrim, List.append_eq_append_iff] at heq
  rcases heq with ⟨mid, hpath, -⟩ | ⟨mid, hpath, hmid⟩
  · rw [hpath, List.length_append] at hlt
    omega
  · cases mid with
    | nil => simp [hpath] at hlt
    | cons c mid =>
        rw [List.cons_append] at hmid
        obtain ⟨rfl, htail⟩ := List.cons.inj hmid
        have hcolon : ':'.toUInt8 ∉ r'.digits ++ utf8 " - " := by
          rw [List.mem_append, not_or]
          exact ⟨fun hmem => absurd (hdigitsAll _ hmem) (by decide), by decide⟩
        have hprefix : r'.digits ++ utf8 " - " <+: mid := by
          rw [← List.isPrefixOf_iff_prefix, ← Bytes.isPrefixOf_append hcolon mid, ← htail,
            ← List.append_assoc, List.isPrefixOf_iff_prefix]
          exact List.prefix_append _ _
        obtain ⟨rest', rfl⟩ := hprefix
        exact ⟨r'.path, rest', by simp [hpath]⟩

end IsRecord

/-- What marks an export that its own module uses. -/
def usedInModule : Bytes := utf8 "used in module"

/-- What a line comes to by how it is written: a record, a remark that the name is used in its own
module, nothing at all, or something else, which no record can be read from or only one whose line
number does not fit 64 bits. -/
inductive Classified (root : Bytes) : Bytes → Line → Prop where
  | record {line path digits name : Bytes} (h : IsRecord line path digits name)
      (hfits : Bytes.digitsValue digits < 2 ^ 63) (hused : ¬ usedInModule <:+: line) :
      Classified root line (.finding (toFinding root path (Bytes.digitsValue digits) name))
  | used {line : Bytes} (h : usedInModule <:+: line) : Classified root line .skipped
  | blank {line : Bytes} (h : Bytes.isBlank line = true) : Classified root line .skipped
  | other {line : Bytes} (hblank : Bytes.isBlank line = false) (hused : ¬ usedInModule <:+: line)
      (h : ∀ r, IsMatch (Bytes.trim line) r → 2 ^ 63 ≤ Bytes.digitsValue r.digits) :
      Classified root line .noise

theorem solid_usedInModule : Bytes.Solid usedInModule := by
  have hunits := Utf8.units_of_ascii (s := usedInModule) (by decide +kernel)
  refine ⟨by decide, ?_, ?_⟩
  · rw [hunits]
    rintro u ⟨⟩
    decide
  · rw [hunits]
    rintro u ⟨⟩
    decide

theorem readLine_eq (root line : Bytes) :
    readLine root line =
      if Bytes.isBlank line || Bytes.contains usedInModule line then .skipped
      else match record? [] (Bytes.trim line) with
        | some r =>
          match lineNumber? r.digits with
          | some n => .finding (toFinding root r.path n r.name)
          | none => .noise
        | none => .noise := by
  have hempty : (Bytes.trim line).isEmpty = Bytes.isBlank line := by
    rw [Bool.eq_iff_iff, List.isEmpty_iff, Bytes.trim_eq_nil_iff]
  rw [← hempty, ← Bytes.contains_trim solid_usedInModule (by decide +kernel)]
  rfl

/-- Each line is read as what it was written as. -/
theorem Classified.readLine_eq {root line : Bytes} {kind : Line} (h : Classified root line kind) :
    readLine root line = kind := by
  rw [TsPrune.readLine_eq]
  cases h with
  | @record path digits name h hfits hused =>
      have hblank : Bytes.isBlank line = false := by
        rw [← Bool.not_eq_true, ← Bytes.trim_eq_nil_iff]
        intro hnil
        obtain ⟨tail, heq, -⟩ := h.isMatch.splits
        simp [hnil] at heq
      have hread := (record?_nil_iff (Bytes.trim line) ⟨path, digits, name⟩).mpr h.isMatch
      have hnumber : lineNumber? digits = some (Bytes.digitsValue digits : Int) := if_pos hfits
      rw [← Bytes.contains_iff, Bool.not_eq_true] at hused
      simp [hblank, hused, hread, hnumber]
  | used h =>
      rw [← Bytes.contains_iff] at h
      simp [h]
  | blank h => simp [h]
  | other hblank hused h =>
      rw [← Bytes.contains_iff, Bool.not_eq_true] at hused
      simp only [hblank, hused, Bool.or_self, Bool.false_eq_true, if_false]
      split
      · next r hread =>
          have hlarge := h r ((record?_nil_iff _ r).mp hread)
          have hnumber : lineNumber? r.digits = none := if_neg (by omega)
          rw [hnumber]
      · rfl

/-! ### Whole outputs -/

/-- A line that the reader takes whole. -/
def Fits (line : Bytes) : Prop := Bytes.newline ∉ line ∧ line.length < lineLimit

instance (line : Bytes) : Decidable (Fits line) := inferInstanceAs (Decidable (_ ∧ _))

/-- An output holds lines, each ended by a line feed with or without a carriage return before it,
which then counts as part of what has to fit. The last line may have no end. -/
inductive Joins : List Bytes → Bytes → Prop where
  | nil : Joins [] []
  | last {line : Bytes} (h : Fits line) : Joins [line] line
  | feed {line output : Bytes} {lines : List Bytes} (h : Fits line) (hjoins : Joins lines output) :
      Joins (line :: lines) (line ++ Bytes.newline :: output)
  | returnFeed {line output : Bytes} {lines : List Bytes}
      (h : Fits (line ++ [Bytes.carriageReturn])) (hjoins : Joins lines output) :
      Joins (line :: lines) (line ++ Bytes.carriageReturn :: Bytes.newline :: output)

def Line.finding? : Line → Option Finding
  | .finding f => some f
  | _ => none

/-- A line that is not understood. -/
def Line.isNoise : Line → Bool
  | .noise => true
  | _ => false

/-- What lines of some kinds come to together. -/
def Parsed.of (kinds : List Line) : Parsed :=
  ⟨kinds.filterMap Line.finding?, (kinds.filter Line.isNoise).length⟩

theorem parse_eq (root output : Bytes) (hfits : ∀ l ∈ output.splitOn Bytes.newline, Fits l) :
    parse root output =
      let parsed := Parsed.of ((output.splitOn Bytes.newline).map (readLine root))
      if parsed.findings.isEmpty && 0 < parsed.noise then .error (.noRecord parsed.noise)
      else .ok parsed := by
  have hlong : ((output.splitOn Bytes.newline).any fun l => lineLimit ≤ l.length) = false := by
    rw [List.any_eq_false]
    intro l hl
    simpa using (hfits l hl).2
  rw [parse, hlong, if_neg Bool.false_ne_true]
  rfl

theorem Parsed.of_append_skipped (kinds : List Line) {pad : List Line}
    (h : ∀ k ∈ pad, k = .skipped) : Parsed.of (kinds ++ pad) = Parsed.of kinds := by
  have hfindings : pad.filterMap Line.finding? = [] := by
    rw [List.filterMap_eq_nil_iff]
    intro k hk
    rw [h k hk]
    rfl
  have hnoise : pad.filter Line.isNoise = [] := by
    rw [List.filter_eq_nil_iff]
    intro k hk
    rw [h k hk]
    exact Bool.false_ne_true
  simp [Parsed.of, hfindings, hnoise]

theorem map_readLine {root : Bytes} {lines : List Bytes} {kinds : List Line}
    (h : List.Forall₂ (Classified root) lines kinds) : lines.map (readLine root) = kinds := by
  induction h with
  | nil => rfl
  | cons hline _ ih => rw [List.map_cons, hline.readLine_eq, ih]

theorem readLine_append_return (root line : Bytes) :
    readLine root (line ++ [Bytes.carriageReturn]) = readLine root line := by
  unfold readLine
  rw [Bytes.trim_append_blank (by decide) (by decide)]

theorem splitOn_of_fits {line : Bytes} (h : Fits line) : line.splitOn Bytes.newline = [line] := by
  have hsplit : ([Bytes.newline].intercalate [line]).splitOn Bytes.newline = [line] :=
    List.splitOn_intercalate Bytes.newline (by simpa using h.1) (List.cons_ne_nil line [])
  simpa using hsplit

/-- The lines of an output are read as those it was put together from. What is behind the last line
feed is one more line, which holds nothing. -/
theorem Joins.read {lines : List Bytes} {output : Bytes} (h : Joins lines output) (root : Bytes) :
    (∀ l ∈ output.splitOn Bytes.newline, Fits l) ∧
      ∃ pad, (output.splitOn Bytes.newline).map (readLine root) =
        lines.map (readLine root) ++ pad ∧ ∀ k ∈ pad, k = .skipped := by
  induction h with
  | nil =>
      refine ⟨?_, [.skipped], ?_, by simp⟩
      · simp [Fits, lineLimit]
      · have hskipped : Classified root [] .skipped :=
          .blank ((Bytes.trim_eq_nil_iff []).mp Bytes.trim_nil)
        rw [List.splitOn_nil, List.map_singleton, hskipped.readLine_eq]
        rfl
  | @last line h =>
      rw [splitOn_of_fits h]
      exact ⟨by simpa using h, [], by simp⟩
  | @feed line output lines h hjoins ih =>
      obtain ⟨hfits, pad, hpad, hskipped⟩ := ih
      rw [List.splitOn_append_cons_self, splitOn_of_fits h]
      refine ⟨?_, pad, by simp [hpad], hskipped⟩
      intro l hl
      rcases List.mem_cons.mp hl with rfl | hl
      · exact h
      · exact hfits l hl
  | @returnFeed line output lines h hjoins ih =>
      obtain ⟨hfits, pad, hpad, hskipped⟩ := ih
      rw [← List.singleton_append, ← List.append_assoc, List.splitOn_append_cons_self,
        splitOn_of_fits h]
      refine ⟨?_, pad, by simp [hpad, readLine_append_return], hskipped⟩
      intro l hl
      rcases List.mem_cons.mp hl with rfl | hl
      · exact h
      · exact hfits l hl

/-- An output that is put together from records and other lines is read as exactly its records, in
order, and the number of lines that are nothing else. Only if there are such lines and no record, it
is refused. -/
theorem parse_joined {root output : Bytes} {lines : List Bytes} {kinds : List Line}
    (hjoins : Joins lines output) (hkinds : List.Forall₂ (Classified root) lines kinds) :
    ((Parsed.of kinds).findings ≠ [] ∨ (Parsed.of kinds).noise = 0 →
        parse root output = .ok (Parsed.of kinds)) ∧
      ((Parsed.of kinds).findings = [] ∧ (Parsed.of kinds).noise ≠ 0 →
        parse root output = .error (.noRecord (Parsed.of kinds).noise)) := by
  obtain ⟨hfits, pad, hpad, hskipped⟩ := hjoins.read root
  rw [parse_eq root output hfits, hpad, map_readLine hkinds, Parsed.of_append_skipped kinds hskipped]
  constructor
  · intro h
    apply if_neg
    simpa [Nat.pos_iff_ne_zero, Decidable.or_iff_not_imp_left] using h
  · intro h
    apply if_pos
    simpa [Nat.pos_iff_ne_zero] using h

/-- A record whose path has a colon and digits, a remark, and a line of neither kind. -/
theorem parse_joined_mixed :
    parse (utf8 "/r")
        (utf8 "src/at:9/a.ts:12 - foo (later)\r\nb.ts:3 - bar (used in module)\nwarning") =
      .ok ⟨[toFinding (utf8 "/r") (utf8 "src/at:9/a.ts") 12 (utf8 "foo")], 1⟩ := by
  have hrecord : IsRecord (utf8 "src/at:9/a.ts:12 - foo (later)") (utf8 "src/at:9/a.ts")
      (utf8 "12") (utf8 "foo") := by
    refine ⟨by decide, ?_, ?_, by decide, by decide +kernel, by decide, ?_, utf8 " (later)",
      by decide, by decide +kernel⟩
    · rw [Utf8.codePoints_of_ascii (by decide +kernel)]
      decide
    · intro ds _ _ hin
      have hdash : utf8 " - " <:+: utf8 "src/at:9/a.ts" :=
        (((List.suffix_append ds _).trans (List.suffix_cons _ _)).isInfix).trans hin
      rw [← Bytes.contains_iff] at hdash
      exact absurd hdash (by decide)
    · rw [Utf8.codePoints_of_ascii (by decide +kernel)]
      decide
  have hfits : Bytes.digitsValue (utf8 "12") < 2 ^ 63 := by decide
  have houtput : utf8 "src/at:9/a.ts:12 - foo (later)\r\nb.ts:3 - bar (used in module)\nwarning" =
      utf8 "src/at:9/a.ts:12 - foo (later)" ++ Bytes.carriageReturn :: Bytes.newline ::
        (utf8 "b.ts:3 - bar (used in module)" ++ Bytes.newline :: utf8 "warning") := by decide
  have hother : Classified (utf8 "/r") (utf8 "warning") .noise := by
    refine .other ?_ (by rw [← Bytes.contains_iff]; decide) fun r hr => ?_
    · rw [Bytes.isBlank, Utf8.codePoints_of_ascii (by decide +kernel)]
      decide
    · obtain ⟨tail, heq, -⟩ := hr.splits
      have hcolon : ':'.toUInt8 ∈ utf8 "warning" :=
        (Bytes.isInfix_trim (utf8 "warning")).subset (by simp [heq])
      exact absurd hcolon (by decide)
  rw [houtput]
  exact (parse_joined
    (.returnFeed (by decide) (.feed (by decide) (.last (by decide))))
    (.cons (.record hrecord hfits (by rw [← Bytes.contains_iff]; decide))
      (.cons (.used (by rw [← Bytes.contains_iff]; decide)) (.cons hother .nil)))).1
    (.inl (List.cons_ne_nil _ _))

end UnusedImports.Tool.TsPrune

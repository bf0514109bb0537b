import UnusedImports.Text.Lines
import UnusedImports.Proofs.Text.Search

/-! A text is cut behind each of its line feeds. However it is cut, it has as many lines as are
counted. -/

namespace UnusedImports.Lines

@[simp] theorem splitAfter_nil : splitAfter [] = [] := by
  simp [splitAfter]

theorem splitAfter_append_newline (s t : Bytes) :
    splitAfter (s ++ Bytes.newline :: t) =
      (s.splitOn Bytes.newline).map (· ++ [Bytes.newline]) ++ splitAfter t := by
  have hne : t.splitOn Bytes.newline ≠ [] := List.splitOn_ne_nil Bytes.newline t
  obtain ⟨whole, last, hsplit⟩ :=
    (List.eq_nil_or_concat' (t.splitOn Bytes.newline)).resolve_left hne
  simp only [splitAfter, List.splitOn_append_cons_self, hsplit, ← List.append_assoc,
    List.dropLast_concat, List.getLast?_concat, List.map_append]
  split <;> simp

theorem splitAfter_of_notMem {s : Bytes} (h : Bytes.newline ∉ s) (hne : s ≠ []) :
    splitAfter s = [s] := by
  simp [splitAfter, List.splitOn_eq_singleton h, hne]

theorem splitAfter_append {s : Bytes} (h : s.getLast? = some Bytes.newline) (t : Bytes) :
    splitAfter (s ++ t) = splitAfter s ++ splitAfter t := by
  obtain ⟨front, rfl⟩ := List.getLast?_eq_some_iff.mp h
  have hself := splitAfter_append_newline front []
  rw [splitAfter_nil, List.append_nil] at hself
  rw [hself, List.append_assoc, List.singleton_append, splitAfter_append_newline]

/-- Only the last of several texts may end within a line. -/
theorem splitAfter_flatten {texts : List Bytes}
    (h : ∀ t ∈ texts.dropLast, t.getLast? = some Bytes.newline) :
    splitAfter texts.flatten = texts.flatMap splitAfter := by
  induction texts with
  | nil => simp
  | cons t texts ih =>
      cases texts with
      | nil => simp
      | cons next texts =>
          rw [List.dropLast_cons_cons, List.forall_mem_cons] at h
          obtain ⟨ht, hrest⟩ := h
          rw [List.flatten_cons, List.flatMap_cons, splitAfter_append ht, ih hrest]

/-! ### Single lines -/

/-- A text is one line without its end, or one line with it and a shorter text. -/
theorem line_induction {P : Bytes → Prop} (last : ∀ s, Bytes.newline ∉ s → P s)
    (line : ∀ l s, Bytes.newline ∉ l → P s → P (l ++ Bytes.newline :: s)) (s : Bytes) : P s := by
  by_cases h : Bytes.newline ∈ s
  · obtain ⟨l, rest, hs, hl⟩ := List.eq_append_cons_of_mem h
    have hlt : rest.length < s.length := by
      rw [hs, List.length_append, List.length_cons]
      omega
    rw [hs]
    exact line l rest hl (line_induction last line rest)
  · exact last s h
termination_by s.length

theorem splitAfter_line {l : Bytes} (h : Bytes.newline ∉ l) (s : Bytes) :
    splitAfter (l ++ Bytes.newline :: s) = (l ++ [Bytes.newline]) :: splitAfter s := by
  rw [splitAfter_append_newline, List.splitOn_eq_singleton h]
  rfl

theorem flatten_splitAfter (s : Bytes) : (splitAfter s).flatten = s := by
  induction s using line_induction with
  | last s h =>
      by_cases hne : s = []
      · simp [hne]
      · simp [splitAfter_of_notMem h hne]
  | line l s hl ih =>
      rw [splitAfter_line hl, List.flatten_cons, ih]
      simp

theorem splitAfter_eq_nil_iff (s : Bytes) : splitAfter s = [] ↔ s = [] := by
  constructor
  · intro h
    rw [← flatten_splitAfter s, h, List.flatten_nil]
  · rintro rfl
    exact splitAfter_nil

theorem exists_of_mem_splitAfter {l s : Bytes} (h : l ∈ splitAfter s) :
    ∃ front, Bytes.newline ∉ front ∧ (l = front ∨ l = front ++ [Bytes.newline]) := by
  induction s using line_induction with
  | last s hs =>
      by_cases hne : s = []
      · simp [hne] at h
      · rw [splitAfter_of_notMem hs hne, List.mem_singleton] at h
        exact ⟨s, hs, .inl h⟩
  | line front s hfront ih =>
      rw [splitAfter_line hfront, List.mem_cons] at h
      obtain rfl | h := h
      · exact ⟨front, hfront, .inr rfl⟩
      · exact ih h

/-! ### Runs of lines -/

/-- Lines of a text that come one behind the other are cut again as they were. -/
theorem splitAfter_flatten_of_append {s : Bytes} {front back : List Bytes}
    (h : splitAfter s = front ++ back) :
    splitAfter front.flatten = front ∧ splitAfter back.flatten = back := by
  induction s using line_induction generalizing front with
  | last s hs =>
      cases front with
      | nil => exact ⟨splitAfter_nil, by rw [← List.nil_append back, ← h, flatten_splitAfter]⟩
      | cons line front =>
          have hne : s ≠ [] := by
            rintro rfl
            simp at h
          rw [splitAfter_of_notMem hs hne] at h
          obtain ⟨rfl, hnil⟩ := List.cons.inj h
          obtain ⟨rfl, rfl⟩ := List.append_eq_nil_iff.mp hnil.symm
          exact ⟨by simpa using splitAfter_of_notMem hs hne, splitAfter_nil⟩
  | line l s hl ih =>
      cases front with
      | nil => exact ⟨splitAfter_nil, by rw [← List.nil_append back, ← h, flatten_splitAfter]⟩
      | cons line front =>
          rw [splitAfter_line hl] at h
          obtain ⟨rfl, hrest⟩ := List.cons.inj h
          obtain ⟨hfront, hback⟩ := ih hrest
          refine ⟨?_, hback⟩
          rw [List.flatten_cons, List.append_assoc, List.singleton_append, splitAfter_line hl,
            hfront]

theorem flatMap_splitAfter_flatten {s : Bytes} {runs : List (List Bytes)}
    (h : splitAfter s = runs.flatten) :
    runs.flatMap (fun run => splitAfter run.flatten) = runs.flatten := by
  induction runs generalizing s with
  | nil => rfl
  | cons run runs ih =>
      rw [List.flatten_cons] at h
      obtain ⟨hrun, hruns⟩ := splitAfter_flatten_of_append h
      rw [List.flatMap_cons, hrun, ih hruns, List.flatten_cons]

/-! ### The number of lines -/

@[simp] theorem count_nil : count [] = 0 := rfl

theorem count_of_notMem {s : Bytes} (h : Bytes.newline ∉ s) (hne : s ≠ []) : count s = 1 := by
  have hlast : s.getLast hne ≠ Bytes.newline := fun heq => h (heq ▸ s.getLast_mem hne)
  simp [count, List.count_eq_zero_of_not_mem h, List.getLast?_eq_some_getLast hne, hlast]

theorem count_line {l : Bytes} (h : Bytes.newline ∉ l) (s : Bytes) :
    count (l ++ Bytes.newline :: s) = count s + 1 := by
  have hlines : (l ++ Bytes.newline :: s).count Bytes.newline = s.count Bytes.newline + 1 := by
    rw [List.count_append, List.count_eq_zero_of_not_mem h, List.count_cons_self, Nat.zero_add]
  cases s with
  | nil => simp [count, hlines]
  | cons b s =>
      have hlast : (l ++ Bytes.newline :: b :: s).getLast? = (b :: s).getLast? := by
        rw [List.getLast?_append, List.getLast?_cons_cons,
          List.getLast?_eq_some_getLast (List.cons_ne_nil b s), Option.some_or]
      rw [count, hlines, hlast, count]
      omega

theorem count_eq_zero_iff (s : Bytes) : count s = 0 ↔ s = [] := by
  induction s using line_induction with
  | last s h =>
      by_cases hne : s = []
      · simp [hne]
      · simp [count_of_notMem h hne, hne]
  | line l s hl _ => simp [count_line hl]

theorem length_splitAfter (s : Bytes) : (splitAfter s).length = count s := by
  induction s using line_induction with
  | last s h =>
      by_cases hne : s = []
      · simp [hne]
      · rw [splitAfter_of_notMem h hne, count_of_notMem h hne, List.length_singleton]
  | line l s hl ih => rw [splitAfter_line hl, count_line hl, List.length_cons, ih]

/-- A line feed at the end of a text begins no line. -/
theorem split_concat (s : Bytes) (b : UInt8) :
    split (s ++ [b]) =
      ((if b = Bytes.newline then s else s ++ [b]).splitOn Bytes.newline).map dropReturn := by
  have hsuffix : [Bytes.newline] <:+ s ++ [b] ↔ b = Bytes.newline := by
    constructor
    · rintro ⟨front, hfront⟩
      exact (List.cons.inj (List.append_inj' hfront rfl).2).1.symm
    · rintro rfl
      exact ⟨s, rfl⟩
  have hnonempty : List.isEmpty (s ++ [b]) = false := by simp
  simp only [split, hnonempty, Bytes.dropEnd?, List.isSuffixOf_iff_suffix, hsuffix]
  by_cases hb : b = Bytes.newline
  · simp [hb]
  · simp [hb]

theorem split_of_notMem {s : Bytes} (h : Bytes.newline ∉ s) (hne : s ≠ []) :
    split s = [dropReturn s] := by
  obtain ⟨front, b, rfl⟩ := (List.eq_nil_or_concat' s).resolve_left hne
  have hb : b ≠ Bytes.newline := fun heq => h (heq ▸ List.mem_concat_self)
  rw [split_concat, if_neg hb, List.splitOn_eq_singleton h]
  rfl

theorem split_line {l : Bytes} (h : Bytes.newline ∉ l) (s : Bytes) :
    split (l ++ Bytes.newline :: s) = dropReturn l :: split s := by
  rcases List.eq_nil_or_concat' s with rfl | ⟨front, b, rfl⟩
  · rw [split_concat, if_pos rfl, List.splitOn_eq_singleton h]
    rfl
  · have hfront : l ++ Bytes.newline :: (front ++ [b]) = l ++ Bytes.newline :: front ++ [b] := by
      simp
    rw [hfront, split_concat, split_concat]
    split
    · rw [List.splitOn_append_cons_self, List.splitOn_eq_singleton h]
      rfl
    · rw [← hfront, List.splitOn_append_cons_self, List.splitOn_eq_singleton h]
      rfl

theorem length_split (s : Bytes) : (split s).length = count s := by
  induction s using line_induction with
  | last s h =>
      by_cases hne : s = []
      · simp [hne, split]
      · rw [split_of_notMem h hne, count_of_notMem h hne, List.length_singleton]
  | line l s hl ih => rw [split_line hl, count_line hl, List.length_cons, ih]

/-- A text goes beyond the line feeds in front of each of its bytes, and beyond all of them if it
does not end with one. -/
theorem count_take_lt {s : Bytes} {i : Nat}
    (h : i < s.length ∨ ∃ b, s.getLast? = some b ∧ b ≠ Bytes.newline) :
    (s.take i).count Bytes.newline < count s := by
  induction s using line_induction generalizing i with
  | last s hs =>
      have hne : s ≠ [] := by
        rintro rfl
        simp at h
      rw [count_of_notMem hs hne,
        List.count_eq_zero_of_not_mem fun hmem => hs (List.mem_of_mem_take hmem)]
      exact Nat.one_pos
  | line l s hl ih =>
      rw [count_line hl]
      rcases Nat.lt_or_ge l.length i with hi | hi
      · obtain ⟨j, rfl⟩ := Nat.exists_eq_add_of_lt hi
        have htake : (l ++ Bytes.newline :: s).take (l.length + j + 1) =
            l ++ Bytes.newline :: s.take j := by
          rw [Nat.add_assoc, List.take_length_add_append, List.take_succ_cons]
        rw [htake, List.count_append, List.count_eq_zero_of_not_mem hl, List.count_cons_self,
          Nat.zero_add]
        refine Nat.succ_lt_succ (ih ?_)
        rcases h with hlt | ⟨b, hlast, hb⟩
        · rw [List.length_append, List.length_cons] at hlt
          exact .inl (by omega)
        · right
          cases s with
          | nil =>
              rw [List.getLast?_concat] at hlast
              exact absurd (Option.some.inj hlast).symm hb
          | cons c s => exact ⟨b, by simpa [List.getLast?_cons_cons] using hlast, hb⟩
      · rw [List.take_append_of_le_length hi,
          List.count_eq_zero_of_not_mem fun hmem => hl (List.mem_of_mem_take hmem)]
        exact Nat.succ_pos _

end UnusedImports.Lines

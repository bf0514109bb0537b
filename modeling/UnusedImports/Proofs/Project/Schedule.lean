import UnusedImports.Project.Workers
import UnusedImports.Proofs.Project.Merging
import Mathlib.Data.List.Induction

/-! What a run leaves behind depends on two things only: which tasks are done, and whether one of
them started after the work was called off. -/

namespace UnusedImports

namespace Phase

/-- Number of events that a task may still take part in. -/
def remaining : Phase → Nat
  | waiting => 3
  | ready => 2
  | running => 1
  | done | refused => 0

theorem sum_remaining_set {phases : List Phase} {i : Nat} {phase : Phase}
    (h : phases[i]? = some phase) (next : Phase) :
    ((phases.set i next).map remaining).sum + phase.remaining =
      (phases.map remaining).sum + next.remaining := by
  induction phases generalizing i with
  | nil => simp at h
  | cons first phases ih =>
      cases i with
      | zero =>
          obtain rfl : first = phase := by simpa using h
          simp only [List.set_cons_zero, List.map_cons, List.sum_cons]
          omega
      | succ i =>
          have := ih (by simpa using h)
          simp only [List.set_cons_succ, List.map_cons, List.sum_cons]
          omega

/-- Moving one task on changes nothing about the phases other than the one it leaves. -/
theorem getElem?_set_iff {phases : List Phase} {i : Nat} {phase x : Phase}
    (h : phases[i]? = some phase) (hx : x ≠ phase) (next : Phase) (j : Nat) :
    (phases.set i next)[j]? = some x ↔ i = j ∧ next = x ∨ phases[j]? = some x := by
  have hlt : i < phases.length := (List.getElem?_eq_some_iff.mp h).1
  by_cases hij : i = j
  · subst hij
    simp [List.getElem?_set_self hlt, h, hx.symm]
  · simp [List.getElem?_set_ne hij, hij]

theorem mem_set_iff {phases : List Phase} {i : Nat} {phase x : Phase}
    (h : phases[i]? = some phase) (hx : x ≠ phase) (next : Phase) :
    x ∈ phases.set i next ↔ next = x ∨ x ∈ phases := by
  simp [List.mem_iff_getElem?, getElem?_set_iff h hx, exists_or]

end Phase

namespace Pool

def Event.isWork : Event → Bool
  | .cancel => false
  | _ => true

/-- A task starts after the work was called off. -/
def StartsLate (events : List Event) : Prop :=
  ∃ i, List.Sublist [.cancel, .start i] events

theorem startsLate_concat (events : List Event) (e : Event) :
    StartsLate (events ++ [e]) ↔ StartsLate events ∨ .cancel ∈ events ∧ ∃ i, e = .start i := by
  constructor
  · rintro ⟨i, h⟩
    obtain ⟨front, back, hsplit, hfront, hback⟩ := List.sublist_append_iff.mp h
    cases back with
    | nil =>
        rw [List.append_nil] at hsplit
        exact .inl ⟨i, hsplit ▸ hfront⟩
    | cons last back =>
        obtain ⟨rfl, rfl⟩ : last = e ∧ back = [] := by
          have := hback.length_le
          have := hback.subset
          simp_all
        have hends : [Event.cancel] ++ [.start i] = front ++ [last] := hsplit
        obtain ⟨rfl, hlast⟩ := List.append_inj' hends rfl
        have hcancel : .cancel ∈ events := hfront.subset (List.mem_singleton_self _)
        exact .inr ⟨hcancel, i, (List.singleton_inj.mp hlast).symm⟩
  · rintro (⟨i, h⟩ | ⟨hcancel, i, rfl⟩)
    · exact ⟨i, h.trans (List.sublist_append_left _ _)⟩
    · exact ⟨i, (List.singleton_sublist.mpr hcancel).append (List.Sublist.refl [Event.start i])⟩

variable {scan : Nat → Option FileScan} {limit files : Nat} {p q : Pool} {e : Event}
  {events : List Event}

/-! ### One event -/

/-- All that an event can do to a pool. -/
theorem step?_cases (h : p.step? scan limit e = some q) :
    (e = .handOut ∧ p.active < limit ∧ ∃ i, p.phases[i]? = some .waiting ∧
      q = { p with phases := p.phases.set i .ready }) ∨
    (∃ i, e = .start i ∧ p.phases[i]? = some .ready ∧
      q = { p with phases := p.phases.set i (if p.canceled then .refused else .running) }) ∨
    (∃ i, e = .finish i ∧ p.phases[i]? = some .running ∧
      q = { p with phases := p.phases.set i .done, slots := p.slots.set i (scan i) }) ∨
    (e = .cancel ∧ q = { p with canceled := true }) := by
  cases e with
  | handOut =>
      by_cases hlimit : p.active < limit
      · rw [step?, if_pos hlimit, Option.map_eq_some_iff] at h
        obtain ⟨i, hi, rfl⟩ := h
        obtain ⟨hlt, heq, _⟩ := List.idxOf?_eq_some_iff.mp hi
        refine .inl ⟨rfl, hlimit, i, ?_, rfl⟩
        simpa [List.getElem?_eq_getElem hlt] using heq
      · rw [step?, if_neg hlimit] at h
        cases h
  | start i =>
      by_cases hready : p.phases[i]? = some .ready
      · rw [step?, if_pos hready] at h
        exact .inr (.inl ⟨i, rfl, hready, (Option.some.inj h).symm⟩)
      · rw [step?, if_neg hready] at h
        cases h
  | finish i =>
      by_cases hrunning : p.phases[i]? = some .running
      · rw [step?, if_pos hrunning] at h
        exact .inr (.inr (.inl ⟨i, rfl, hrunning, (Option.some.inj h).symm⟩))
      · rw [step?, if_neg hrunning] at h
        cases h
  | cancel => exact .inr (.inr (.inr ⟨rfl, (Option.some.inj h).symm⟩))

/-- What a pool shows after events. -/
structure Follows (scan : Nat → Option FileScan) (files : Nat) (events : List Event) (p : Pool) :
    Prop where
  length_phases : p.phases.length = files
  length_slots : p.slots.length = files
  slot_eq : ∀ i < files, p.slots[i]? = some (if p.phases[i]? = some .done then scan i else none)
  canceled_iff : p.canceled = true ↔ .cancel ∈ events
  refused_iff : .refused ∈ p.phases ↔ StartsLate events
  remaining_le : (p.phases.map Phase.remaining).sum + events.countP Event.isWork ≤ 3 * files

theorem follows_start : Follows scan files [] (start files) where
  length_phases := List.length_replicate
  length_slots := List.length_replicate
  slot_eq i hi := by simp [start, hi]
  canceled_iff := by simp [start]
  refused_iff := by simp [start, StartsLate]
  remaining_le := by simp [start, Phase.remaining, Nat.mul_comm]

/-- A task goes on to a later phase; it writes into its slot when it is done. -/
theorem Follows.advance (hp : Follows scan files events p) {i : Nat} {phase next : Phase}
    (hi : p.phases[i]? = some phase) (hnext : next.remaining < phase.remaining)
    (hwork : e.isWork = true)
    (hrefused : next = .refused ↔ .cancel ∈ events ∧ ∃ j, e = .start j) :
    Follows scan files (events ++ [e])
      { p with
        phases := p.phases.set i next
        slots := if next = .done then p.slots.set i (scan i) else p.slots } := by
  have hlt : i < p.slots.length :=
    (List.getElem?_eq_some_iff.mp hi).1.trans_eq (hp.length_phases.trans hp.length_slots.symm)
  have hnotDone : Phase.done ≠ phase := by
    rintro rfl
    simp [Phase.remaining] at hnext
  have hnotRefused : Phase.refused ≠ phase := by
    rintro rfl
    simp [Phase.remaining] at hnext
  refine ⟨?_, ?_, ?_, ?_, ?_, ?_⟩
  · rw [List.length_set, hp.length_phases]
  · split <;> simp [hp.length_slots]
  · intro j hj
    simp only [Phase.getElem?_set_iff hi hnotDone]
    by_cases hdone : next = .done
    · by_cases hij : i = j
      · subst hij
        simp [hdone, hlt]
      · simpa [hdone, hij] using hp.slot_eq j hj
    · simpa [hdone] using hp.slot_eq j hj
  · have hcancel : .cancel ≠ e := by
      rintro rfl
      simp [Event.isWork] at hwork
    simp [hp.canceled_iff, hcancel]
  · rw [Phase.mem_set_iff hi hnotRefused, startsLate_concat, hp.refused_iff, hrefused, or_comm]
  · have hsum := Phase.sum_remaining_set hi next
    have hle := hp.remaining_le
    simp only [List.countP_append, List.countP_singleton, hwork, ↓reduceIte]
    omega

theorem Follows.step (hp : Follows scan files events p) (h : p.step? scan limit e = some q) :
    Follows scan files (events ++ [e]) q := by
  obtain ⟨rfl, _, i, hi, rfl⟩ | ⟨i, rfl, hi, rfl⟩ | ⟨i, rfl, hi, rfl⟩ | ⟨rfl, rfl⟩ := step?_cases h
  · exact hp.advance hi (by decide) rfl (by simp)
  · by_cases hcanceled : p.canceled = true
    · rw [if_pos hcanceled]
      exact hp.advance hi (by decide) rfl (by simp [← hp.canceled_iff, hcanceled])
    · rw [if_neg hcanceled]
      exact hp.advance hi (by decide) rfl (by simp [← hp.canceled_iff, hcanceled])
  · exact hp.advance hi (by decide) rfl (by simp)
  · exact
      { length_phases := hp.length_phases
        length_slots := hp.length_slots
        slot_eq := hp.slot_eq
        canceled_iff := by simp
        refused_iff := by simp [startsLate_concat, hp.refused_iff]
        remaining_le := by simpa [Event.isWork] using hp.remaining_le }

/-! ### Runs -/

theorem run?_concat (p : Pool) (events : List Event) (e : Event) :
    p.run? scan limit (events ++ [e]) = (p.run? scan limit events).bind (step? scan limit · e) := by
  simp [run?]

theorem follows_of_run? (h : (start files).run? scan limit events = some p) :
    Follows scan files events p := by
  induction events using List.reverseRecOn generalizing p with
  | nil =>
      obtain rfl : start files = p := Option.some.inj h
      exact follows_start
  | append_singleton events e ih =>
      rw [run?_concat, Option.bind_eq_some_iff] at h
      obtain ⟨q, hq, hstep⟩ := h
      exact (ih hq).step hstep

/-- While a task has not ended, some task can go on. -/
theorem exists_step?_of_not_isFinished (hlimit : 0 < limit) (hp : p.isFinished = false) :
    ∃ e q, Event.isWork e = true ∧ p.step? scan limit e = some q := by
  by_cases hready : .ready ∈ p.phases
  · obtain ⟨i, hi⟩ := List.mem_iff_getElem?.mp hready
    exact ⟨.start i, _, rfl, if_pos hi⟩
  by_cases hrunning : .running ∈ p.phases
  · obtain ⟨i, hi⟩ := List.mem_iff_getElem?.mp hrunning
    exact ⟨.finish i, _, rfl, if_pos hi⟩
  -- No task is under way, so the limit does not keep the next one from being handed out.
  have hactive : p.active = 0 := by
    rw [active, List.countP_eq_zero]
    rintro (_ | _ | _ | _ | _) hphase <;> simp_all [Phase.isActive]
  have hwaiting : .waiting ∈ p.phases := by
    simp only [isFinished, List.all_eq_false] at hp
    obtain ⟨phase, hphase, hover⟩ := hp
    cases phase <;> simp_all [Phase.isOver]
  obtain ⟨i, hi⟩ := Option.isSome_iff_exists.mp (List.isSome_idxOf?.mpr hwaiting)
  exact ⟨.handOut, { p with phases := p.phases.set i .ready }, rfl,
    by rw [step?, if_pos (hactive ▸ hlimit), hi]; rfl⟩

theorem limit_pos (workers : Int) (processors files : Nat) :
    0 < Pool.limit workers processors files :=
  Nat.lt_of_lt_of_le Nat.zero_lt_one (Nat.le_max_right _ _)

theorem Follows.slots_eq (hp : Follows scan files events p) (hfinished : p.isFinished = true)
    (hrefused : .refused ∉ p.phases) : p.slots = (List.range files).map scan := by
  apply List.ext_getElem?
  intro i
  by_cases hi : i < files
  · have hdone : p.phases[i]? = some .done := by
      have hlt : i < p.phases.length := hp.length_phases.symm ▸ hi
      have hmem := List.getElem_mem hlt
      have hover := List.all_eq_true.mp hfinished _ hmem
      rw [List.getElem?_eq_getElem hlt]
      cases hphase : p.phases[i] <;> simp_all [Phase.isOver]
    rw [hp.slot_eq i hi, if_pos hdone]
    simp [hi]
  · simp [hi, hp.length_slots]

theorem map_tasks (tree : Tree) (s : ScanSettings) (paths : List Bytes) :
    (List.range paths.length).map (tasks tree s paths) = paths.map (s.scanPath? tree) := by
  apply List.ext_getElem
  · simp
  · intro i hi _
    have hlt : i < paths.length := by simpa using hi
    simp [tasks, hlt]

/-- What the scan returns after the last task has ended. -/
theorem Follows.result?_eq {tree : Tree} {s : ScanSettings} {paths : List Bytes}
    (hp : Follows (tasks tree s paths) paths.length events p) (hfinished : p.isFinished = true) :
    (StartsLate events → p.result? = none) ∧
      (¬ StartsLate events → p.result? = some (scanFiles tree s paths).value) := by
  constructor
  · intro hlate
    have hrefused := hp.refused_iff.mpr hlate
    simp [result?, hrefused]
  · intro hlate
    have hrefused : .refused ∉ p.phases := mt hp.refused_iff.mp hlate
    rw [value_scanFiles_eq_ofSlots, ← map_tasks, ← hp.slots_eq hfinished hrefused]
    simp [result?, hrefused]

/-- Every run of a scan comes to an end, and its result depends neither on the order in which tasks
start and finish nor on that of the files. A run in which a task starts after the work was called
off has no result. -/
theorem scan?_deterministic (tree : Tree) (s : ScanSettings) (workers : Int) (processors : Nat)
    (paths : List Bytes) :
    (∀ events p, scan? tree s workers processors paths events = some p →
      events.countP Event.isWork ≤ 3 * paths.length ∧
      (p.isFinished = false → ∃ e q, e.isWork = true ∧
        scan? tree s workers processors paths (events ++ [e]) = some q) ∧
      (p.isFinished = true →
        (StartsLate events → p.result? = none) ∧
        (¬ StartsLate events → p.result? = some (scanFiles tree s paths).value))) ∧
    (scanFiles tree s paths).value =
      { findings :=
          Finding.sort ((s.loaded tree paths).flatMap fun file => s.reported file.1 file.2)
        scanned := paths.countP fun path => (s.contentAt? tree path).isSome
        skipped := paths.countP fun path => (s.contentAt? tree path).isNone
        lines := ((s.loaded tree paths).map fun file => Lines.count file.2).sum } ∧
    (scanFiles tree s paths).value.scanned + (scanFiles tree s paths).value.skipped =
      paths.length ∧
    (scanFiles tree s paths).value.findings.Pairwise Finding.Le ∧
    ∀ paths', paths.Perm paths' →
      (scanFiles tree s paths').value = (scanFiles tree s paths).value := by
  refine ⟨?_, value_scanFiles tree s paths, ?_, ?_, ?_⟩
  · intro events p hrun
    have hp := follows_of_run? hrun
    refine ⟨by have := hp.remaining_le; omega, ?_, hp.result?_eq⟩
    intro hfinished
    obtain ⟨e, q, hwork, hstep⟩ := exists_step?_of_not_isFinished (limit_pos _ _ _) hfinished
    refine ⟨e, q, hwork, ?_⟩
    rw [scan?] at hrun ⊢
    rw [run?_concat, hrun, Option.bind_some, hstep]
  · rw [value_scanFiles, List.length_eq_countP_add_countP fun path =>
      (s.contentAt? tree path).isSome]
    congr 1
    apply List.countP_congr
    simp
  · rw [value_scanFiles]
    exact Finding.sort_pairwise _
  · intro paths' hperm
    exact (value_scanFiles_perm tree s hperm).symm

/-- Three files, of which two exist, scanned by two workers; the work is called off when the last
task is already running. -/
theorem scan?_deterministic_sample :
    let tree : Tree := .directory [(utf8 "b.ts", .file (utf8 "import x from 'y'\n")),
      (utf8 "a.ts", .file (utf8 "import z from 'y'\n"))]
    let paths := [utf8 "/b.ts", utf8 "/c.ts", utf8 "/a.ts"]
    let events : List Event := [.handOut, .handOut, .start 1, .start 0, .finish 1, .handOut,
      .start 2, .finish 2, .cancel, .finish 0]
    ∃ p, scan? tree ⟨[], 0⟩ 2 8 paths events = some p ∧ p.isFinished = true ∧
      ¬ StartsLate events ∧ p.result? = some (scanFiles tree ⟨[], 0⟩ paths).value ∧
      (scanFiles tree ⟨[], 0⟩ paths).value.findings.map (·.identifier) = [utf8 "z", utf8 "x"] := by
  intro tree paths events
  have hlate : ¬ StartsLate events := by
    rintro ⟨i, h⟩
    have hi := h.subset (List.mem_cons_of_mem _ (List.mem_singleton_self _))
    simp only [events, List.mem_cons, Event.start.injEq, reduceCtorEq, List.not_mem_nil, false_or,
      or_false] at hi
    obtain rfl | rfl | rfl := hi <;> revert h <;> decide
  have hrun : (scan? tree ⟨[], 0⟩ 2 8 paths events).isSome = true := by rfl
  have hfinished : (scan? tree ⟨[], 0⟩ 2 8 paths events).any isFinished = true := by rfl
  obtain ⟨p, hp⟩ := Option.isSome_iff_exists.mp hrun
  have hover : p.isFinished = true := by simpa [hp] using hfinished
  have hresult := ((scan?_deterministic tree ⟨[], 0⟩ 2 8 paths).1 events p hp).2.2 hover
  exact ⟨p, hp, hover, hlate, hresult.2 hlate, by cbv⟩

end Pool

end UnusedImports

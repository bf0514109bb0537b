import UnusedImports.Proofs.Tool.Capping

/-! A tool has findings exactly if its run came to an end and its output is read, whatever else it
wrote. -/

namespace UnusedImports

namespace Tool

/-! ### Replies -/

/-- The program ran and ended with an exit code other than zero. -/
def Reply.IsExit (reply : Reply) : Prop := ∃ name code, reply.failure = some (.exit name code)

/-- The program ran to its end, whatever its exit code. -/
def Reply.IsEnded (reply : Reply) : Prop := reply.failure = none ∨ reply.IsExit

/-- There is no such program, or it ended and something wrote that a program is not installed. -/
def Reply.IsMissing (reply : Reply) : Prop :=
  (∃ name detail, reply.failure = some (.notFound name detail)) ∨
    (reply.IsEnded ∧ looksMissing reply.output.combined = true)

/-- The findings that are listed: as many of the detected ones, in order, as a cap lets through. -/
def listing (cap : Int) (ds : List Finding) : List Finding :=
  if cap ≤ 0 then Finding.sort ds else (Finding.sort ds).take (min ds.length cap.toNat)

theorem capped_sort_eq_listing (cap : Int) (ds : List Finding) :
    capped cap (Finding.sort ds) = listing cap ds := by
  unfold capped listing
  by_cases hcap : 0 < cap
  · rw [if_pos hcap, if_neg (by omega), ← (Finding.sort_perm ds).length_eq, Nat.min_comm,
      ← List.take_eq_take_min]
  · rw [if_neg hcap, if_pos (by omega)]

end Tool

/-! ### Results -/

/-- A result has findings exactly if the reply of the tool is read as some, which it then lists and
counts. Without findings, it tells a missing tool from one that failed. -/
structure Result.Tells (r : Result) (cap : Int) (missing : Prop) (reads : List Finding → Prop) :
    Prop where
  found : (∃ fs n, r.verdict = .found fs n) ↔ ∃ ds, reads ds
  listed : ∀ ds, reads ds → r.total = ds.length ∧ r.findings = Tool.listing cap ds
  empty : (¬ ∃ ds, reads ds) → r.findings = [] ∧ r.hasFindings = false
  notAvailable : (¬ ∃ ds, reads ds) → ((∃ why, r.verdict = .notAvailable why) ↔ missing)
  inconclusive : (¬ ∃ ds, reads ds) → ((∃ why, r.verdict = .inconclusive why) ↔ ¬ missing)

namespace Result.Tells

variable {cap : Int} {missing : Prop} {reads : List Finding → Prop}

theorem of_read {ds : List Finding} (tag : Tag) (hreads : ∀ es, reads es ↔ es = ds) :
    (Result.found tag (Tool.capped cap (Finding.sort ds)) ds.length).Tells cap missing reads := by
  have hlists := Result.Lists.found tag cap ds
  have hsome : ∃ es, reads es := ⟨ds, (hreads ds).mpr rfl⟩
  refine ⟨⟨fun _ => hsome, fun _ => ⟨_, _, rfl⟩⟩, fun es hes => ?_, fun hnone => ?_,
    fun hnone => ?_, fun hnone => ?_⟩
  · obtain rfl := (hreads es).mp hes
    exact ⟨hlists.total, by rw [hlists.findings, Tool.capped_sort_eq_listing]⟩
  · exact absurd hsome hnone
  · exact absurd hsome hnone
  · exact absurd hsome hnone

theorem of_missing (tag : Tag) (reason : Bytes) (hnone : ∀ ds, ¬ reads ds) (hmissing : missing) :
    (Result.notAvailable tag reason).Tells cap missing reads where
  found := by simp [Result.notAvailable, hnone]
  listed := fun ds hds => absurd hds (hnone ds)
  empty := fun _ => ⟨rfl, rfl⟩
  notAvailable := fun _ => ⟨fun _ => hmissing, fun _ => ⟨reason, rfl⟩⟩
  inconclusive := by simp [Result.notAvailable, hmissing]

theorem of_neither (tag : Tag) (reason : Bytes) (hnone : ∀ ds, ¬ reads ds)
    (hmissing : ¬ missing) : (Result.inconclusive tag reason).Tells cap missing reads where
  found := by simp [Result.inconclusive, hnone]
  listed := fun ds hds => absurd hds (hnone ds)
  empty := fun _ => ⟨rfl, rfl⟩
  notAvailable := by simp [Result.inconclusive, hmissing]
  inconclusive := fun _ => ⟨fun _ => hmissing, fun _ => ⟨reason, rfl⟩⟩

end Result.Tells

namespace Tool

variable {reply : Reply}

theorem Reply.isMissing_iff_of_isEnded (h : reply.IsEnded) :
    reply.IsMissing ↔ looksMissing reply.output.combined = true := by
  refine ⟨?_, fun hmarker => .inr ⟨h, hmarker⟩⟩
  rintro (⟨name, detail, hfailure⟩ | ⟨_, hmarker⟩)
  · rcases h with h | ⟨_, _, h⟩ <;> simp [hfailure] at h
  · exact hmarker

/-- A run to the end whose output is not read was that of a missing tool if something said so. -/
theorem tells_of_isEnded {cap : Int} {reads : List Finding → Prop}
    {missing failed : Log.Logged Result} {tag tag' : Tag} {reason reason' : Bytes}
    (hended : reply.IsEnded) (hnone : ∀ ds, ¬ reads ds)
    (hmissing : missing.value = .notAvailable tag reason)
    (hfailed : failed.value = .inconclusive tag' reason') :
    (if looksMissing reply.output.combined = true then missing else failed).value.Tells cap
      reply.IsMissing reads := by
  have hiff := Reply.isMissing_iff_of_isEnded hended
  split
  · next hmarker =>
    rw [hmissing]
    exact .of_missing _ _ hnone (hiff.mpr hmarker)
  · next hmarker =>
    rw [hfailed]
    exact .of_neither _ _ hnone (mt hiff.mp hmarker)

/-! ### The linter -/

namespace Eslint

/-- The reply of the linter is read as some findings. -/
def Reads (root : Bytes) (o : Options) (reply : Reply) (ds : List Finding) : Prop :=
  reply.IsEnded ∧ parse root o.complete.rules reply.output.stdout = .ok ds

theorem interpret_tells (root : Bytes) (o : Options) (reply : Reply) :
    (interpret root o reply).value.Tells o.maxFindings reply.IsMissing (Reads root o reply) := by
  unfold interpret
  extract_lets read
  have hread : reply.IsEnded →
      read.value.Tells o.maxFindings reply.IsMissing (Reads root o reply) := by
    intro hended
    unfold read
    split
    case h_1 ds hparse =>
      refine .of_read _ fun es => ⟨fun hes => Except.ok.inj (hes.2.symm.trans hparse), ?_⟩
      rintro rfl
      exact ⟨hended, hparse⟩
    case h_2 e hparse =>
      exact tells_of_isEnded hended (by simp [Reads, hparse]) rfl rfl
  cases hfailure : reply.failure with
  | none => exact hread (.inl hfailure)
  | some f =>
      cases f with
      | exit name code => exact hread (.inr ⟨name, code, hfailure⟩)
      | notFound name detail =>
          exact .of_missing _ _ (by simp [Reads, Reply.IsEnded, Reply.IsExit, hfailure])
            (.inl ⟨name, detail, hfailure⟩)
      | timeout | canceled | other =>
          exact .of_neither _ _ (by simp [Reads, Reply.IsEnded, Reply.IsExit, hfailure])
            (by simp [Reply.IsMissing, Reply.IsEnded, Reply.IsExit, hfailure])

end Eslint

/-! ### The search for unused exports -/

namespace TsPrune

/-- The reply of the search is read as some findings. An exit code without any output is not. -/
def Reads (root : Bytes) (reply : Reply) (ds : List Finding) : Prop :=
  reply.IsEnded ∧ ¬ (reply.IsExit ∧ Bytes.isBlank reply.output.stdout = true) ∧
    ∃ parsed, parse root reply.output.stdout = .ok parsed ∧ parsed.findings = ds

theorem interpret_tells (root : Bytes) (o : Options) (reply : Reply) :
    (interpret root o reply).value.Tells o.maxFindings reply.IsMissing (Reads root reply) := by
  unfold interpret
  extract_lets exitCode read
  have hread : reply.IsEnded → ¬ (reply.IsExit ∧ Bytes.isBlank reply.output.stdout = true) →
      read.value.Tells o.maxFindings reply.IsMissing (Reads root reply) := by
    intro hended hspoken
    unfold read
    split
    case h_1 parsed hparse =>
      have hreads : ∀ ds, Reads root reply ds ↔ ds = parsed.findings := by
        refine fun ds => ⟨?_, ?_⟩
        · rintro ⟨_, _, other, hother, rfl⟩
          rw [Except.ok.inj (hparse.symm.trans hother)]
        · rintro rfl
          exact ⟨hended, hspoken, parsed, hparse, rfl⟩
      split
      · exact .of_read _ hreads
      · exact .of_read _ hreads
    case h_2 e hparse =>
      exact tells_of_isEnded hended (by simp [Reads, hparse]) rfl rfl
  cases hfailure : reply.failure with
  | none => exact hread (.inl hfailure) (by simp [Reply.IsExit, hfailure])
  | some f =>
      cases f with
      | exit name code =>
          have hexit : reply.IsExit := ⟨name, code, hfailure⟩
          dsimp only
          split
          · next hblank =>
            exact tells_of_isEnded (.inr hexit) (fun ds h => h.2.1 ⟨hexit, hblank⟩) rfl rfl
          · next hblank => exact hread (.inr hexit) fun h => hblank h.2
      | notFound name detail =>
          exact .of_missing _ _ (by simp [Reads, Reply.IsEnded, Reply.IsExit, hfailure])
            (.inl ⟨name, detail, hfailure⟩)
      | timeout | canceled | other =>
          exact .of_neither _ _ (by simp [Reads, Reply.IsEnded, Reply.IsExit, hfailure])
            (by simp [Reply.IsMissing, Reply.IsEnded, Reply.IsExit, hfailure])

end TsPrune

/-! ### Both tools -/

/-- Whatever a tool answers, a failure of its run is told apart from a run without findings, and
output that can be read is never dropped. -/
theorem run_tells_failures (runner : Runner) (root : Bytes) :
    (∀ o : Eslint.Options,
        let reply := runner (Eslint.command root o)
        (Eslint.run runner root o).value.Tells o.maxFindings reply.IsMissing
          (Eslint.Reads root o reply)) ∧
      ∀ o : TsPrune.Options,
        let reply := runner (TsPrune.command root o)
        (TsPrune.run runner root o).value.Tells o.maxFindings reply.IsMissing
          (TsPrune.Reads root reply) :=
  ⟨fun o => Eslint.interpret_tells root o _, fun o => TsPrune.interpret_tells root o _⟩

end Tool

end UnusedImports

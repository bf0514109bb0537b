import UnusedImports.Editor.Session
import UnusedImports.Proofs.Text.WellFormed
import Mathlib.Data.List.Induction

/-! How the ends of a changed part are located in a text is left open, but for their being inside.
-/

namespace UnusedImports.Editor

/-! ### The texts held -/

namespace Documents

variable {uri other : Bytes}

theorem get?_set_self (ds : Documents) (uri text : Bytes) :
    (ds.set uri text).get? uri = some text := by
  simp [get?, set]

theorem get?_erase_self (ds : Documents) (uri : Bytes) : (ds.erase uri).get? uri = none := by
  simp [get?, erase]

theorem get?_erase_of_ne (ds : Documents) (h : other ≠ uri) :
    (ds.erase uri).get? other = ds.get? other := by
  simp only [get?, erase, List.find?_filter]
  congr 2
  funext d
  by_cases hd : d.1 = other
  · simp [hd, h]
  · simp [hd]

theorem get?_set_of_ne (ds : Documents) (text : Bytes) (h : other ≠ uri) :
    (ds.set uri text).get? other = ds.get? other := by
  have hrest := ds.get?_erase_of_ne h
  simp only [get?] at hrest ⊢
  rw [set, List.find?_cons_of_neg (by simpa using h.symm), hrest]

end Documents

/-! ### Offsets of a client lie inside the text -/

theorem length_of_lineStart? {n : Nat} {s : Bytes} {o : Nat} {rest : Bytes}
    (h : lineStart? n s = some (o, rest)) : o + rest.length = s.length := by
  induction n generalizing s o with
  | zero =>
      obtain ⟨rfl, rfl⟩ := Prod.mk.inj (Option.some.inj h)
      exact Nat.zero_add _
  | succ n ih =>
      rw [lineStart?] at h
      split at h
      · next i hi =>
        obtain ⟨⟨o', rest'⟩, htail, heq⟩ := Option.map_eq_some_iff.mp h
        obtain ⟨rfl, rfl⟩ := Prod.mk.inj heq
        obtain ⟨hlt, -⟩ := List.findIdx?_eq_some_iff_getElem.mp hi
        have hlength := ih htail
        rw [List.length_drop] at hlength
        omega
      · contradiction

theorem le_of_unitsInto? {us : List (Nat × Bytes)} {n m : Nat} (h : unitsInto? us n = some m) :
    m ≤ (us.flatMap (·.2)).length := by
  fun_induction unitsInto? us n generalizing m with
  | case1 =>
      cases h
      exact Nat.zero_le _
  | case2 => contradiction
  | case3 =>
      cases h
      exact Nat.zero_le _
  | case4 =>
      cases h
      exact Nat.zero_le _
  | case5 u us n hbreak hinside ih =>
      obtain ⟨k, hk, rfl⟩ := Option.map_eq_some_iff.mp h
      have := ih hk
      simp only [List.flatMap_cons, List.length_append]
      omega

theorem offsetOf_le (content : Bytes) (p : Position) : offsetOf content p ≤ content.length := by
  unfold offsetOf
  split
  · next o rest hline =>
    have hlength := length_of_lineStart? hline
    split
    · next n hunits =>
      have hle := le_of_unitsInto? hunits
      rw [Utf8.flatMap_units] at hle
      omega
    · exact Nat.zero_le _
  · exact Nat.zero_le _

theorem Range.offsets_le (content : Bytes) (r : Range) :
    (offsets content r).1 ≤ content.length ∧ (offsets content r).2 ≤ content.length :=
  ⟨offsetOf_le content r.start, offsetOf_le content r.stop⟩

/-! ### Changes -/

variable {locate : Bytes → Range → Nat × Nat}

/-- A text and what becomes of it by changes, one after the other. Of a text of which a part
changes, what lies before the start of that part stays in front, and what lies behind its end
stays behind. -/
inductive Edited (locate : Bytes → Range → Nat × Nat) : Bytes → List Change → Bytes → Prop where
  | done (text) : Edited locate text [] text
  | whole {old text changes new} : Edited locate text changes new →
      Edited locate old (.whole text :: changes) new
  | part {front behind before back range text changes new} : front ++ behind = before ++ back →
      locate (front ++ behind) range = (front.length, before.length) →
      Edited locate (front ++ text ++ back) changes new →
      Edited locate (front ++ behind) (.part range text :: changes) new

/-- The ends of every part are located in the text. -/
def Inside (locate : Bytes → Range → Nat × Nat) : Prop :=
  ∀ text range, (locate text range).1 ≤ text.length ∧ (locate text range).2 ≤ text.length

theorem edited_foldl (hinside : Inside locate) (old : Bytes) (changes : List Change) :
    Edited locate old changes (changes.foldl (Change.apply locate) old) := by
  induction changes generalizing old with
  | nil => exact .done old
  | cons change changes ih =>
      cases change with
      | whole text => exact .whole (ih text)
      | part range text =>
          obtain ⟨hstart, hstop⟩ := hinside old range
          have hfront := List.take_append_drop (locate old range).1 old
          have hback := List.take_append_drop (locate old range).2 old
          have hedited : Edited locate (old.take (locate old range).1 ++
              old.drop (locate old range).1) (.part range text :: changes)
              (changes.foldl (Change.apply locate) (Change.apply locate old (.part range text))) :=
            .part (hfront.trans hback.symm)
              (by rw [hfront, List.length_take_of_le hstart, List.length_take_of_le hstop]) (ih _)
          rwa [hfront] at hedited

/-- What an event leaves of the text of its document, given the text held before. -/
inductive Event.Leaves (locate : Bytes → Range → Nat × Nat) :
    Option Bytes → Event → Option Bytes → Prop where
  | opened {old uri text} : Leaves locate old (.opened uri text) (some text)
  | changed {old uri changes new} : Edited locate (old.getD []) changes new →
      Leaves locate old (.changed uri changes) (some new)
  | savedAs {old uri text} : Leaves locate old (.saved uri (some text)) (some text)
  | saved {old uri} : Leaves locate old (.saved uri none) old
  | closed {old uri} : Leaves locate old (.closed uri) none

theorem Event.leaves_update (hinside : Inside locate) (ds : Documents) (e : Event) :
    e.Leaves locate (ds.get? e.uri) ((e.update locate ds).get? e.uri) := by
  cases e with
  | opened uri text =>
      simp only [update, Event.uri, Documents.get?_set_self]
      exact .opened
  | changed uri changes =>
      simp only [update, Event.uri, Documents.get?_set_self]
      exact .changed (edited_foldl hinside _ changes)
  | saved uri text =>
      cases text with
      | none => exact .saved
      | some text =>
          simp only [update, Event.uri, Documents.get?_set_self]
          exact .savedAs
  | closed uri =>
      simp only [update, Event.uri, Documents.get?_erase_self]
      exact .closed

theorem Event.get?_update_of_ne (ds : Documents) {e : Event} {other : Bytes} (h : other ≠ e.uri) :
    (e.update locate ds).get? other = ds.get? other := by
  cases e with
  | opened uri text => exact ds.get?_set_of_ne text h
  | changed uri changes => exact ds.get?_set_of_ne _ h
  | saved uri text =>
      cases text with
      | none => rfl
      | some text => exact ds.get?_set_of_ne text h
  | closed uri => exact ds.get?_erase_of_ne h

/-! ### Sessions -/

/-- A session and all that it has published, latest first. -/
structure Transcript where
  session : Session
  publications : List Publication

namespace Transcript

def hear (locate : Bytes → Range → Nat × Nat) (t : Transcript) (e : Event) : Transcript :=
  let answer := t.session.answer locate (.event e)
  ⟨answer.1, answer.2.publications.reverse ++ t.publications⟩

def held (t : Transcript) (uri : Bytes) : Option Bytes := t.session.documents.get? uri

/-- The remarks that were published last about a document, if any were. -/
def shown (t : Transcript) (uri : Bytes) : Option (List Diagnostic) :=
  (t.publications.find? fun p => p.uri == uri).map (·.diagnostics)

variable {t : Transcript} {e : Event} {uri : Bytes}

theorem hear_extensions (t : Transcript) (e : Event) :
    (t.hear locate e).session.extensions = t.session.extensions := rfl

theorem held_hear_of_ne (h : uri ≠ e.uri) : (t.hear locate e).held uri = t.held uri :=
  e.get?_update_of_ne t.session.documents h

theorem publications_hear (t : Transcript) (e : Event) :
    (t.hear locate e).publications =
      (e.publication t.session.extensions (t.hear locate e).session.documents).toList ++
        t.publications := by
  change (e.publication t.session.extensions (e.update locate t.session.documents)).toList.reverse ++ _ =
    (e.publication t.session.extensions (e.update locate t.session.documents)).toList ++ _
  cases e.publication t.session.extensions (e.update locate t.session.documents) with
  | none => rfl
  | some p => rfl

/-- Whatever an event publishes is about its document. -/
theorem uri_of_publication {extensions : List Bytes} {after : Documents} {p : Publication}
    (h : e.publication extensions after = some p) : p.uri = e.uri := by
  cases e with
  | closed uri =>
      cases h
      rfl
  | opened uri text =>
      obtain ⟨text, -, rfl⟩ := Option.map_eq_some_iff.mp h
      rfl
  | changed uri changes =>
      obtain ⟨text, -, rfl⟩ := Option.map_eq_some_iff.mp h
      rfl
  | saved uri text =>
      obtain ⟨text, -, rfl⟩ := Option.map_eq_some_iff.mp h
      rfl

theorem shown_hear_of_ne (h : uri ≠ e.uri) : (t.hear locate e).shown uri = t.shown uri := by
  unfold shown
  rw [publications_hear]
  cases hpublication : e.publication t.session.extensions (t.hear locate e).session.documents with
  | none => rfl
  | some p =>
      have hother : p.uri ≠ uri := fun heq => h (heq.symm.trans (uri_of_publication hpublication))
      rw [Option.toList_some, List.singleton_append, List.find?_cons_of_neg (by simpa using hother)]

theorem shown_hear_self {ds : List Diagnostic}
    (h : e.publication t.session.extensions (t.hear locate e).session.documents = some ⟨e.uri, ds⟩) :
    (t.hear locate e).shown e.uri = some ds := by
  unfold shown
  rw [publications_hear, h]
  simp

/-- What is shown of a document fits the text held of it. -/
def InStep (t : Transcript) (uri : Bytes) : Prop :=
  match t.held uri with
  | some text => t.shown uri = some (diagnostics t.session.extensions ⟨uri, text⟩)
  | none => t.shown uri = none ∨ t.shown uri = some []

theorem InStep.of_eq {t u : Transcript} (hextensions : u.session.extensions = t.session.extensions)
    (hheld : u.held uri = t.held uri) (hshown : u.shown uri = t.shown uri) (h : t.InStep uri) :
    u.InStep uri := by
  rwa [InStep, hextensions, hheld, hshown]

theorem publication_of_ne_closed {extensions : List Bytes} {after : Documents}
    (h : e ≠ .closed e.uri) : e.publication extensions after =
      (after.get? e.uri).map fun text => ⟨e.uri, diagnostics extensions ⟨e.uri, text⟩⟩ := by
  cases e with
  | closed uri => exact absurd rfl h
  | opened uri text => rfl
  | changed uri changes => rfl
  | saved uri text => rfl

/-- An event other than a closing shows the remarks about the text that it leaves. -/
theorem shown_hear_of_held {text : Bytes} (hclosed : e ≠ .closed e.uri)
    (hheld : (t.hear locate e).held e.uri = some text) :
    (t.hear locate e).shown e.uri = some (diagnostics t.session.extensions ⟨e.uri, text⟩) := by
  apply shown_hear_self
  have hget : (t.hear locate e).session.documents.get? e.uri = some text := hheld
  rw [publication_of_ne_closed hclosed, hget]
  rfl

/-- An event that leaves no text publishes nothing unless it is a closing. -/
theorem shown_hear_of_not_held (hclosed : e ≠ .closed e.uri)
    (hheld : (t.hear locate e).held e.uri = none) : (t.hear locate e).shown e.uri = t.shown e.uri := by
  have hget : (t.hear locate e).session.documents.get? e.uri = none := hheld
  unfold shown
  rw [publications_hear, publication_of_ne_closed hclosed, hget]
  rfl

theorem shown_hear_closed (t : Transcript) (uri : Bytes) :
    (t.hear locate (.closed uri)).shown uri = some [] := by
  have hpublication : (Event.closed uri).publication t.session.extensions
      (t.hear locate (.closed uri)).session.documents = some ⟨uri, []⟩ := rfl
  exact shown_hear_self hpublication

theorem held_hear_closed (t : Transcript) (uri : Bytes) : (t.hear locate (.closed uri)).held uri = none :=
  Documents.get?_erase_self _ uri

/-- Of the events that leave no text, only a save without one is no closing, and it held none. -/
theorem eq_saved_of_not_held (hclosed : e ≠ .closed e.uri)
    (hheld : (t.hear locate e).held e.uri = none) :
    e = .saved e.uri none ∧ t.held e.uri = none := by
  have hnone : (e.update locate t.session.documents).get? e.uri = none := hheld
  cases e with
  | opened uri text =>
      simp only [Event.update, Event.uri, Documents.get?_set_self] at hnone
      cases hnone
  | changed uri changes =>
      simp only [Event.update, Event.uri, Documents.get?_set_self] at hnone
      cases hnone
  | saved uri text =>
      cases text with
      | none => exact ⟨rfl, hnone⟩
      | some text =>
          simp only [Event.update, Event.uri, Documents.get?_set_self] at hnone
          cases hnone
  | closed uri => exact absurd rfl hclosed

/-- An event keeps what is shown of its document in step with the text held. -/
theorem inStep_hear_self (h : t.InStep e.uri) : (t.hear locate e).InStep e.uri := by
  by_cases hclosed : e = .closed e.uri
  · rw [hclosed]
    simp only [InStep, Event.uri, held_hear_closed, shown_hear_closed, or_true]
  · cases hheld : (t.hear locate e).held e.uri with
    | some text =>
        simp only [InStep, hheld]
        exact shown_hear_of_held hclosed hheld
    | none =>
        simp only [InStep, hheld]
        rw [shown_hear_of_not_held hclosed hheld]
        have hold := (eq_saved_of_not_held hclosed hheld).2
        simpa only [InStep, hold] using h

/-- An event keeps what is shown of any document in step with the text held. -/
theorem InStep.hear (h : ∀ uri, t.InStep uri) (e : Event) (uri : Bytes) :
    (t.hear locate e).InStep uri := by
  by_cases huri : uri = e.uri
  · subst huri
    exact inStep_hear_self (h e.uri)
  · exact (h uri).of_eq (hear_extensions t e) (held_hear_of_ne huri) (shown_hear_of_ne huri)

/-- Nothing has been shown of a document after an event exactly if nothing was before, and the event
is not about it or saves it without a text. -/
theorem shown_hear_eq_none_iff (h : t.InStep uri) (e : Event) :
    (t.hear locate e).shown uri = none ↔ t.shown uri = none ∧ (e.uri = uri → e = .saved uri none) := by
  by_cases huri : e.uri = uri
  · subst huri
    by_cases hclosed : e = .closed e.uri
    · rw [hclosed]
      simp [Event.uri, shown_hear_closed]
    · cases hheld : (t.hear locate e).held e.uri with
      | none =>
          obtain ⟨hsaved, -⟩ := eq_saved_of_not_held hclosed hheld
          rw [shown_hear_of_not_held hclosed hheld]
          exact ⟨fun hnone => ⟨hnone, fun _ => hsaved⟩, And.left⟩
      | some text =>
          rw [shown_hear_of_held hclosed hheld]
          -- A save without a text holds what was held before, which has then been shown.
          refine ⟨fun hnone => (Option.some_ne_none _ hnone).elim, ?_⟩
          rintro ⟨hnone, hsaved⟩
          have hold : t.held e.uri = some text := by
            rw [hsaved rfl] at hheld
            exact hheld
          simp only [InStep, hold, hnone] at h
          contradiction
  · rw [shown_hear_of_ne (Ne.symm huri)]
    simp [huri]

end Transcript

/-- A session that hears of events, with its publications. -/
def Session.transcript (locate : Bytes → Range → Nat × Nat) (s : Session) (events : List Event) :
    Transcript := events.foldl (Transcript.hear locate) ⟨s, []⟩

namespace Session

theorem transcript_concat (s : Session) (events : List Event) (e : Event) :
    s.transcript locate (events ++ [e]) = (s.transcript locate events).hear locate e := List.foldl_append

theorem transcript_extensions (s : Session) (events : List Event) :
    (s.transcript locate events).session.extensions = s.extensions := by
  induction events using List.reverseRecOn with
  | nil => rfl
  | append_singleton events e ih => rw [transcript_concat, Transcript.hear_extensions, ih]

theorem inStep_transcript {s : Session} (h : s.documents = .empty) (events : List Event)
    (uri : Bytes) : (s.transcript locate events).InStep uri := by
  induction events using List.reverseRecOn generalizing uri with
  | nil =>
      have hheld : (s.transcript locate []).held uri = none := by
        change s.documents.get? uri = none
        rw [h]
        rfl
      simp only [Transcript.InStep, hheld]
      exact .inl rfl
  | append_singleton events e ih =>
      rw [transcript_concat]
      exact Transcript.InStep.hear ih e uri

theorem shown_transcript_eq_none_iff {s : Session} (h : s.documents = .empty) (events : List Event)
    (uri : Bytes) : (s.transcript locate events).shown uri = none ↔
      ∀ e ∈ events, e.uri = uri → e = .saved uri none := by
  induction events using List.reverseRecOn with
  | nil =>
      simp only [List.not_mem_nil, false_implies, implies_true, iff_true]
      rfl
  | append_singleton events e ih =>
      rw [transcript_concat, Transcript.shown_hear_eq_none_iff (inStep_transcript h events uri), ih]
      simp only [List.forall_mem_append, List.forall_mem_singleton]

/-- What a session shows of documents. What it published last about a document that it holds are the
remarks about the text held, and about any other it published nothing, or no remarks last; it has
published nothing about a document only if all it heard of it were saves without a text; one more
event leaves what is held and shown of other documents alone, and of its own it leaves what the kind
of event says. -/
theorem transcript_inStep (locate : Bytes → Range → Nat × Nat) (hinside : Inside locate)
    (extensions : List Bytes) (version : Bytes) (events : List Event) :
    let s := Session.new extensions version
    let t := s.transcript locate events
    (∀ uri text, t.held uri = some text →
        t.shown uri = some (diagnostics s.extensions ⟨uri, text⟩)) ∧
      (∀ uri ds, t.held uri = none → t.shown uri = some ds → ds = []) ∧
      (∀ uri, t.shown uri = none ↔ ∀ e ∈ events, e.uri = uri → e = .saved uri none) ∧
      ∀ e, e.Leaves locate (t.held e.uri) ((s.transcript locate (events ++ [e])).held e.uri) ∧
        ∀ uri, uri ≠ e.uri → (s.transcript locate (events ++ [e])).held uri = t.held uri ∧
          (s.transcript locate (events ++ [e])).shown uri = t.shown uri := by
  intro s t
  have hempty : s.documents = .empty := rfl
  have hstep : ∀ uri, t.InStep uri := inStep_transcript hempty events
  refine ⟨?_, ?_, shown_transcript_eq_none_iff hempty events, ?_⟩
  · intro uri text hheld
    have hshown := hstep uri
    simp only [Transcript.InStep, hheld] at hshown
    rwa [transcript_extensions] at hshown
  · intro uri ds hheld hshown
    have hnothing := hstep uri
    simp only [Transcript.InStep, hheld, hshown] at hnothing
    simpa using hnothing
  · intro e
    rw [transcript_concat]
    exact ⟨e.leaves_update hinside t.session.documents, fun uri huri =>
      ⟨Transcript.held_hear_of_ne huri, Transcript.shown_hear_of_ne huri⟩⟩

/-- Two documents, one of which changes in part and the other is closed, and a save of a third. -/
def sampleEvents : List Event :=
  [.opened (utf8 "file:///a.ts") (utf8 "import x from 'm';\n"),
    .opened (utf8 "file:///b.ts") (utf8 "import b from 'm';\n"),
    .changed (utf8 "file:///a.ts")
      [.part ⟨⟨0, 7⟩, ⟨0, 8⟩⟩ (utf8 "y"), .part ⟨⟨1, 0⟩, ⟨1, 0⟩⟩ (utf8 "z")],
    .closed (utf8 "file:///b.ts"), .saved (utf8 "file:///c.ts") none]

theorem transcript_inStep_sample :
    Inside Range.offsets ∧
      let s := Session.new [utf8 ".ts"] []
      let t := s.transcript Range.offsets sampleEvents
      t.held (utf8 "file:///a.ts") = some (utf8 "import y from 'm';\nz") ∧
        t.shown (utf8 "file:///a.ts") = some (diagnostics s.extensions
          ⟨utf8 "file:///a.ts", utf8 "import y from 'm';\nz"⟩) ∧
        t.shown (utf8 "file:///c.ts") = none := by
  have hheld : ((new [utf8 ".ts"] []).transcript Range.offsets sampleEvents).held
      (utf8 "file:///a.ts") = some (utf8 "import y from 'm';\nz") := by decide +kernel
  have hsaved : ∀ e ∈ sampleEvents, e.uri = utf8 "file:///c.ts" →
      e = .saved (utf8 "file:///c.ts") none := by decide +kernel
  obtain ⟨hshown, -, hnone, -⟩ :=
    transcript_inStep Range.offsets Range.offsets_le [utf8 ".ts"] [] sampleEvents
  exact ⟨Range.offsets_le, hheld, hshown _ _ hheld, (hnone _).mpr hsaved⟩

end Session

end UnusedImports.Editor

import CodeEditor.Proofs.Document.Edits

/-!
The documents that edits lead to.

`Reached` is every document that replacements, undoing, redoing, groups, clean points, new texts and
new modes lead to, whether they succeed or not. `linear_of_reached` says that its history is linear:
there are at most as many changes as the settings allow, they stand for texts in a row, undoing and
redoing move along these texts by whole groups and fail only at the ends, undoing any number of
times and redoing as often changes neither the text nor the lines, and recording a change forgets
what was undone and, if there is no room, the oldest change.
-/

namespace CodeEditor.Document

variable {μ : Type}

/-- Do the same a number of times. -/
def repeatedly (act : DocumentM μ LineChanges) : Nat → DocumentM μ Unit
  | 0 => pure ()
  | k + 1 => do
      let _ ← act
      repeatedly act k

theorem repeatedly_succ {act : DocumentM μ LineChanges} {k : Nat} {d d₁ d₂ : Document μ}
    {changes : LineChanges} (first : repeatedly act k d = .ok () d₁)
    (last : act d₁ = .ok changes d₂) :
    repeatedly act (k + 1) d = .ok () d₂ := by
  induction k generalizing d with
  | zero =>
      cases first
      rw [repeatedly, bind_ok last]
      rfl
  | succ k ih =>
      cases ran : act d with
      | error e d' =>
          rw [repeatedly, bind_error ran] at first
          cases first
      | ok changes d' =>
          rw [repeatedly, bind_ok ran] at first ⊢
          exact ih first

namespace OnTimeline

variable {d d' : Document μ} {texts : List TextBuffer} [LanguageMode μ]

/-- Taking back groups and doing as many again leads back to the same position. -/
theorem redo_undo {k : Nat} (on : d.OnTimeline texts) (undone : repeatedly undo k d = .ok () d') :
    ∃ d'', repeatedly redo k d' = .ok () d'' ∧ d''.OnTimeline texts ∧
      d''.history.done = d.history.done ∧ d''.history.undone = d.history.undone := by
  induction k generalizing d with
  | zero =>
      cases undone
      exact ⟨d', rfl, on, rfl, rfl⟩
  | succ k ih =>
      by_cases empty : d.history.done = []
      · rw [repeatedly, bind_error (undo_nothing empty)] at undone
        cases undone
      · obtain ⟨run, rest, top⟩ := History.exists_topGroup empty
        obtain ⟨_, d₁, ok, on₁, history₁, -⟩ := on.undo_ok top
        rw [repeatedly, bind_ok ok] at undone
        obtain ⟨d₂, ok₂, on₂, done₂, undone₂⟩ := ih on₁ undone
        -- The group taken back first is done again last, and lies on top by itself.
        have top₂ : TopGroup d₂.history.undone run.reverse d.history.undone := by
          rw [undone₂, history₁]
          exact top.move on.apart
        obtain ⟨_, d₃, ok₃, on₃, history₃, -⟩ := on₂.redo_ok top₂
        refine ⟨d₃, repeatedly_succ ok₂ ok₃, on₃, ?_, ?_⟩
        · rw [history₃, History.moveOn, List.reverse_reverse, done₂, history₁]
          exact top.whole.symm
        · rw [history₃]
          rfl

end OnTimeline

variable [LanguageMode μ]

/-- The documents that edits lead to. Every text that there is can be addressed. -/
inductive Reached : Document μ → Prop
  | ofText (text : String) (config : DocumentConfig) (mode : μ) :
      (TextBuffer.ofString text).Short → Reached (ofText text config mode)
  | replaceText {d : Document μ} (r : TextRange) (text : String) :
      Reached d → (after (replaceText r text d)).buffer.Short →
      Reached (after (replaceText r text d))
  | undo {d : Document μ} : Reached d → Reached (after (undo d))
  | redo {d : Document μ} : Reached d → Reached (after (redo d))
  | beginGroup {d : Document μ} : Reached d → Reached d.beginGroup
  | endGroup {d : Document μ} : Reached d → Reached d.endGroup
  | markClean {d : Document μ} : Reached d → Reached d.markClean
  | setText {d : Document μ} (text : String) :
      Reached d → (TextBuffer.ofString text).Short → Reached (d.setText text)
  | setMode {d : Document μ} (mode : μ) : Reached d → Reached (d.setMode mode)

/-- These are documents that edits lead to one after the other. -/
theorem Reached.reachable {d : Document μ} (reached : Reached d) : Reachable d := by
  induction reached with
  | ofText text config mode short => exact ⟨_, .opened text config mode short⟩
  | replaceText r text _ short ih =>
      obtain ⟨saved, h⟩ := ih
      exact ⟨saved, h.edit (.replaceText _ r text short)⟩
  | undo _ ih =>
      obtain ⟨saved, h⟩ := ih
      exact ⟨saved, h.edit (.undo _)⟩
  | redo _ ih =>
      obtain ⟨saved, h⟩ := ih
      exact ⟨saved, h.edit (.redo _)⟩
  | beginGroup _ ih =>
      obtain ⟨saved, h⟩ := ih
      exact ⟨saved, h.edit (.beginGroup _)⟩
  | endGroup _ ih =>
      obtain ⟨saved, h⟩ := ih
      exact ⟨saved, h.edit (.endGroup _)⟩
  | markClean _ ih =>
      obtain ⟨saved, h⟩ := ih
      exact ⟨_, h.markClean⟩
  | setText text _ short ih =>
      obtain ⟨saved, h⟩ := ih
      exact ⟨saved, h.edit (.setText _ text short)⟩
  | setMode mode _ ih =>
      obtain ⟨saved, h⟩ := ih
      exact ⟨saved, h.edit (.setMode _ mode)⟩

/-- What undoing and redoing do to a document on a timeline. -/
structure MovesAlong (d : Document μ) (texts : List TextBuffer) : Prop where
  undo_nothing : d.history.done = [] → undo d = .error (.rejected .nothingToUndo) d.endGroup
  undo_group : d.history.done ≠ [] → ∃ run rest changes d', TopGroup d.history.done run rest ∧
    undo d = .ok changes d' ∧ texts[rest.length]? = some d'.buffer ∧
      d'.history = d.history.moveBack run rest
  redo_nothing : d.history.undone = [] → redo d = .error (.rejected .nothingToRedo) d.endGroup
  redo_group : d.history.undone ≠ [] → ∃ run rest changes d', TopGroup d.history.undone run rest ∧
    redo d = .ok changes d' ∧ texts[d.history.done.length + run.length]? = some d'.buffer ∧
      d'.history = d.history.moveOn run rest

theorem OnTimeline.movesAlong {d : Document μ} {texts : List TextBuffer} (on : d.OnTimeline texts) :
    d.MovesAlong texts := by
  refine ⟨undo_nothing, ?_, redo_nothing, ?_⟩
  · intro nonempty
    obtain ⟨run, rest, top⟩ := History.exists_topGroup nonempty
    obtain ⟨changes, d', ok, on', history, -⟩ := on.undo_ok top
    have here := on'.here
    rw [history] at here
    exact ⟨run, rest, changes, d', top, ok, here, history⟩
  · intro nonempty
    obtain ⟨run, rest, top⟩ := History.exists_topGroup nonempty
    obtain ⟨changes, d', ok, on', history, -⟩ := on.redo_ok top
    have here := on'.here
    rw [history, History.moveOn, List.length_append, List.length_reverse, Nat.add_comm] at here
    exact ⟨run, rest, changes, d', top, ok, here, history⟩

/-- The history of a document is linear: its changes stand for texts in a row that undoing and
redoing move along. Undoing can be made good by redoing, and recording a change forgets no more than
it must. -/
theorem linear_of_reached {d : Document μ} (reached : Reached d) :
    d.history.done.length + d.history.undone.length ≤ d.config.maxUndo ∧
      (∃ texts, texts.length = d.history.done.length + d.history.undone.length + 1 ∧
        texts[d.history.done.length]? = some d.buffer ∧ Timeline d.history.steps texts ∧
        d.MovesAlong texts) ∧
      (∀ k d', repeatedly undo k d = .ok () d' → ∃ d'', repeatedly redo k d' = .ok () d'' ∧
        d''.text = d.text ∧ d''.index.layout = d.index.layout ∧ d''.canUndo = d.canUndo ∧
        d''.canRedo = d.canRedo) ∧
      ∀ r text old, d.buffer.substring r = .ok old → old ≠ "" ∨ text ≠ "" →
        ∃ replacement d' b, replaceText r text d = .ok replacement d' ∧
          d.buffer.replace r text = .ok b ∧ d'.buffer = b ∧ d'.history.undone = [] ∧
          d'.history.done = (if d.config.maxUndo = 0 then []
            else d.history.stepFor ⟨r.location, old, text⟩ :: d.history.kept) := by
  obtain ⟨texts, on⟩ := reached.reachable.exists_timeline
  refine ⟨on.room, ⟨texts, on.length_eq, on.here, on.line, on.movesAlong⟩, ?_, ?_⟩
  · intro k d' undone
    obtain ⟨d'', redone, on', sameDone, sameUndone⟩ := on.redo_undo undone
    obtain ⟨sameBuffer, sameLayout⟩ := on.same on' sameDone
    refine ⟨d'', redone, ?_, sameLayout, ?_, ?_⟩
    · rw [text, sameBuffer, text]
    · rw [canUndo, History.canUndo, sameDone, canUndo, History.canUndo]
    · rw [canRedo, History.canRedo, sameUndone, canRedo, History.canRedo]
  · intro r text old read recorded
    obtain ⟨replacement, d', b, ok, replaced, buffer, history, -⟩ := on.replaceText text read
    rw [if_pos recorded] at history
    obtain ⟨done, undone, -⟩ := d.history.record_eq ⟨r.location, old, text⟩
    refine ⟨replacement, d', b, ok, replaced, buffer, ?_, ?_⟩
    · rw [history, undone]
    · rw [history, done, on.limit]
      split
      · next off =>
          have room := on.room
          exact List.length_eq_zero_iff.mp (by omega)
      · rfl

/-- A letter that was typed into a text is taken back. -/
theorem linear_of_typed_letter :
    ∃ (d d' : Document PlainText) (changes : LineChanges), Reached d ∧ d.text = "axb" ∧
      undo d = .ok changes d' ∧ d'.text = "ab" := by
  have opened : Reached (ofText "ab" { maxUndo := 1 } PlainText.mk) := .ofText _ _ _ (by decide)
  have typed := opened.replaceText ⟨1, 0⟩ "x" (by decide)
  obtain ⟨-, ⟨texts, -, -, -, moves⟩, -⟩ := linear_of_reached typed
  obtain ⟨run, rest, changes, d', -, ok, -⟩ := moves.undo_group (by decide)
  refine ⟨_, d', changes, typed, rfl, ok, ?_⟩
  have same : d' = after (.ok changes d') := rfl
  rw [same, ← ok]
  decide +kernel

end CodeEditor.Document

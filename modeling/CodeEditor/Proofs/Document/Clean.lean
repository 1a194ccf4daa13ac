import CodeEditor.Proofs.Document.Edits

/-!
The clean point of a document that is edited.

A document says that it is clean when its position in the history is the clean point. Where the
history keeps changes, the position tells the texts apart, and a clean document has the text that
was saved (`Saved.buffer_eq`). Where it keeps none there is only one position, which no replacement
leaves (`isClean_replaceText_of_unrecorded`), so the document goes on to say what it said before.
`isClean_sound_iff` is both: the settings with which the flag can be trusted are those that keep
changes.
-/

namespace CodeEditor

/-- A history that keeps no changes does not notice one. -/
theorem History.record_eq_self {h : History} (off : h.limit = 0) (undone : h.undone = [])
    (change : TextChange) : h.record change = h := by
  have same : h.dropUndone = h := by
    rw [dropUndone, if_pos (List.isEmpty_iff.mpr undone)]
  rw [record, same]
  exact if_pos off

namespace Document

variable {μ : Type} [LanguageMode μ] {d : Document μ}

/-- A clean document has the text that was saved, when it keeps changes. -/
theorem Saved.buffer_eq {saved : TextBuffer} (h : Saved saved d) (keeps : d.config.maxUndo ≠ 0)
    (clean : d.isClean = true) : d.buffer = saved := by
  obtain ⟨texts, on, remembers⟩ := h.exists_timeline
  have here : d.history.clean = some d.history.done.length := of_decide_eq_true clean
  have there := remembers (on.limit ▸ keeps) _ here
  rw [on.here] at there
  exact Option.some.inj there

/-- A document that keeps no changes is as clean after a replacement as it was before. -/
theorem isClean_replaceText_of_unrecorded (reachable : Reachable d) (off : d.config.maxUndo = 0)
    (r : TextRange) (text : String) : (after (replaceText r text d)).isClean = d.isClean := by
  obtain ⟨texts, on⟩ := reachable.exists_timeline
  have undone : d.history.undone = [] := by
    have room := on.room
    exact List.length_eq_zero_iff.mp (by omega)
  cases read : d.buffer.substring r with
  | error e => rw [replaceText_error read, after]
  | ok old =>
      obtain ⟨replacement, d', b, ok, -, -, history, -⟩ := on.replaceText text read
      have same : d'.history = d.history := by
        rw [history]
        split
        · exact History.record_eq_self (on.limit.trans off) undone _
        · rfl
      rw [ok, after, isClean, same, isClean]

/-- The settings of a document decide whether its clean flag can be trusted, after whatever edits:
it can when the document keeps changes, and only then. -/
theorem isClean_sound_iff (mode : μ) (config : DocumentConfig) :
    (∀ (saved : TextBuffer) (d : Document μ), Saved saved d → d.config = config →
      d.isClean = true → d.buffer = saved) ↔ config.maxUndo ≠ 0 := by
  constructor
  · intro sound off
    -- An empty text into which a letter is typed still counts as saved.
    have opened : Saved (.ofString "") (ofText "" config mode) := .opened "" config mode (by decide)
    obtain ⟨texts, on, -⟩ := opened.exists_timeline
    obtain ⟨replacement, d', b, ok, replaced, buffer, -, next, -⟩ :=
      @OnTimeline.replaceText _ _ _ _ ⟨0, 0⟩ "" on "a" rfl
    obtain rfl : b = ⟨['a']⟩ := Except.ok.inj (replaced.symm.trans rfl)
    obtain ⟨texts', -, config', -⟩ := next (by decide)
    have typed : Saved (.ofString "") d' := by
      have edit := Edit.replaceText (ofText "" config mode) ⟨0, 0⟩ "a"
      rw [ok] at edit
      exact opened.edit (edit (buffer ▸ by decide))
    have clean := isClean_replaceText_of_unrecorded ⟨_, opened⟩ off ⟨0, 0⟩ "a"
    rw [ok] at clean
    have same := sound _ d' typed config' (clean.trans rfl)
    rw [buffer] at same
    cases same
  · intro keeps saved d h same clean
    exact h.buffer_eq (same ▸ keeps) clean

end Document

end CodeEditor

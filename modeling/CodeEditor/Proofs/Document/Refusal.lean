import CodeEditor.Proofs.Document.Edits
import CodeEditor.Proofs.Text.Pairs

/-!
Replacements are done as a whole or not at all.

Replacing reads the range before it changes anything, and a range that can be read can be replaced:
the lines of the document are those of its text, so none of the steps that follow the first change
of the text stops. `replaceText_atomic` says so for every document that edits lead to, whatever its
language mode, and says which ranges are refused and why.
-/

namespace CodeEditor.Document

variable {μ : Type} [LanguageMode μ]

/-- A replacement is refused for what is wrong with its range and leaves the document as it is,
lines, history and language mode included. Where nothing is wrong it is done. -/
theorem replaceText_atomic {d : Document μ} (reachable : Reachable d) {r : TextRange}
    (word : r.location + r.length < wordLimit) (text : String) :
    (∀ e d', replaceText r text d = .error e d' ↔
      ∃ reason, d.buffer.Objects r reason ∧ e = .rejected reason ∧ d' = d) ∧
      ((∀ reason, ¬d.buffer.Objects r reason) → ∃ replacement d',
        replaceText r text d = .ok replacement d' ∧ d.buffer.replace r text = .ok d'.buffer ∧
          d'.index.Fits d'.buffer.units) := by
  obtain ⟨texts, on⟩ := reachable.exists_timeline
  cases read : d.buffer.substring r with
  | error f =>
      have refused := TextBuffer.substring_eq_error_iff.mp read
      obtain ⟨reason, objects, rfl⟩ := (TextBuffer.split_eq_error_iff word).mp refused
      rw [replaceText_error read]
      refine ⟨fun e d' => ⟨?_, ?_⟩, fun none => absurd objects (none reason)⟩
      · intro stopped
        cases stopped
        exact ⟨reason, objects, rfl, rfl⟩
      · rintro ⟨reason', objects', rfl, rfl⟩
        rw [objects.unique objects']
  | ok old =>
      obtain ⟨before, inside, after, cut, -⟩ := TextBuffer.substring_eq_ok_iff.mp read
      obtain ⟨replacement, d₁, b, ok, replaced, buffer, -, -, fits, -⟩ := on.replaceText text read
      refine ⟨fun e d' => ⟨?_, ?_⟩, fun _ => ⟨replacement, d₁, ok, buffer ▸ replaced, fits⟩⟩
      · intro stopped
        rw [ok] at stopped
        cases stopped
      · rintro ⟨reason, objects, -⟩
        exact absurd objects (TextBuffer.not_objects_of_split cut reason)

/-- A range that starts in the middle of a pair is refused for its start, although it also ends
there. -/
theorem atomic_of_parted_pair :
    ∃ d : Document PlainText, Reachable d ∧ d.text = "a😀b" ∧ d.canUndo = true ∧
      replaceText ⟨2, 0⟩ "x" d = .error (.rejected (.notCharBoundary 2)) d := by
  have opened : Reachable (ofText "ab" {} PlainText.mk) :=
    ⟨_, .opened "ab" {} PlainText.mk (by decide)⟩
  obtain ⟨saved, h⟩ := opened
  have typed := h.edit (.replaceText _ ⟨1, 0⟩ "😀" (by decide))
  refine ⟨_, ⟨saved, typed⟩, rfl, rfl, ?_⟩
  refine ((replaceText_atomic ⟨saved, typed⟩ (by decide) "x").1 _ _).mpr ⟨_, ?_, rfl, rfl⟩
  exact .start (by decide) ⟨1, 0xD83D, 0xDE00, rfl, rfl, rfl, by decide, by decide⟩

end CodeEditor.Document

import CodeEditor.Document.Basic
import CodeEditor.Proofs.Failure
import CodeEditor.Proofs.Line.Scanning

/-!
Replacements in a document whose lines are those of its text.

`applyReplacement_ok` says what a replacement leads to when its range lies between characters of the
text: the text with the range replaced, the lines of that text, the mode after one edit, and nothing
else. `replaceText_ok` and `replaceText_error` cover the recorded form, which changes nothing when
the range cannot be read. A change *leads* from one text to another when its old text stands in the
first where its new text stands in the second; taking it back and doing it again are replacements
between the two.

`Reports` is what the changes of a replacement tell about the lines, as long as the language mode
adds none of its own. Following the removal and the insertion gives back no slot more than three
times each.
-/

namespace CodeEditor

/-- The change turns one text into another. -/
def TextChange.Leads (c : TextChange) (a b : TextBuffer) : Prop :=
  ∃ before after, a.chars = before ++ (c.oldText.toList ++ after) ∧
    b.chars = before ++ (c.newText.toList ++ after) ∧ Utf16.length before = c.location

/-- The text can be addressed by machine words. -/
def TextBuffer.Short (text : TextBuffer) : Prop := text.length < wordLimit

instance (text : TextBuffer) : Decidable text.Short :=
  inferInstanceAs (Decidable (text.length < wordLimit))

/-- The edit that puts a number of code units in place of a range. -/
def TextEdit.between (old new : TextBuffer) (r : TextRange) (added : Nat) : TextEdit where
  byteRange := r.toBytes
  bytesAdded := added * bytesPerUnit
  start := new.position r.location
  oldEnd := old.position (r.location + r.length)
  newEnd := new.position (r.location + added)

namespace Document

variable {μ : Type}

/-- A document that differs from another in its text, and so in its lines and its syntax. -/
structure Rewritten (d d' : Document μ) (text : TextBuffer) : Prop where
  buffer : d'.buffer = text
  fits : d'.index.Fits text.units
  history : d'.history = d.history
  config : d'.config = d.config
  estimatedHeight : d'.index.estimatedHeight = d.index.estimatedHeight

/-- Changes that a document reports tell how its lines became those of another. -/
def Reports (n : Nat) (d d' : Document μ) (changes : LineChanges) : Prop :=
  LineIndex.Tells n d.buffer d'.buffer d.index d'.index changes

theorem onIndex_ok {α : Type} {change : IndexM α} {index index' : LineIndex} {a : α}
    {buffer : TextBuffer} {mode : μ} {history : History} {config : DocumentConfig}
    (ok : change index = .ok a index') :
    onIndex change ⟨buffer, index, mode, history, config⟩ =
      .ok a ⟨buffer, index', mode, history, config⟩ := by
  rw [onIndex, ok]

variable [LanguageMode μ] {d : Document μ} {r : TextRange} {text : String}

/-- The modes of a type report no lines of their own. -/
def Silent (μ : Type) [LanguageMode μ] : Prop :=
  ∀ (mode : μ) (edit : TextEdit) (text : TextBuffer) (index : LineIndex),
    (LanguageMode.applyEdit mode edit text index).1 = .none

theorem silent_plainText : Silent PlainText := fun _ _ _ _ => rfl

/-- A replacement between characters of the text. -/
theorem applyReplacement_ok {before inside after : List Char} (fits : d.index.Fits d.buffer.units)
    (split : d.buffer.split r = .ok (before, inside, after)) :
    ∃ replacement d', applyReplacement r text d = .ok replacement d' ∧
      d.Rewritten d' ⟨before ++ text.toList ++ after⟩ ∧
      (replacement.edit = .between d.buffer d'.buffer r (Utf16.length text.toList) ∧
        d'.mode = (LanguageMode.applyEdit d.mode replacement.edit d'.buffer d'.index).2) ∧
      (Silent μ → d.Reports 6 d' replacement.changes ∧
        replacement.addsOrRemovesLines = replacement.changes.addsOrRemoves) := by
  obtain ⟨whole, location, length, word⟩ := TextBuffer.split_eq_ok_iff.mp split
  have upper := TextRange.upperBound_eq word
  have upperInside : r.location + r.length ≤ d.buffer.length := by
    rw [TextBuffer.length, ← whole, Utf16.length_append, Utf16.length_append]
    omega
  have atOldEnd := @LineIndex.Fits.positionAt_eq (DocumentM μ) _ _ _ _ _ fits _ upperInside
  -- The text without the range, and with the new text at the same place.
  have removed : d.buffer.replace r "" = .ok ⟨before ++ after⟩ := by
    simpa using TextBuffer.replace_of_split split ""
  have accepted := (TextBuffer.accepted_of_parts whole location length word).1
  have insertable : TextBuffer.split ⟨before ++ after⟩ ⟨r.location, 0⟩ = .ok (before, [], after) :=
    TextBuffer.split_eq_ok_iff.mpr ⟨rfl, location, rfl, show r.location + 0 < wordLimit by omega⟩
  obtain ⟨gone, s, remove, fits, tellsGone⟩ := fits.remove removed
  have inserted := TextBuffer.replace_of_split insertable text
  obtain ⟨added, s', insert, fits, tellsAdded⟩ := fits.insert inserted
  have tells := tellsGone.union tellsAdded fits (by decide)
  have newEndInside : r.location + Utf16.length text.toList ≤
      TextBuffer.length ⟨before ++ text.toList ++ after⟩ := by
    rw [TextBuffer.length, Utf16.length_append, Utf16.length_append]
    omega
  have atStart := @LineIndex.Fits.positionAt_eq (DocumentM μ) _ _ _ _ _ fits r.location (by omega)
  have atNewEnd := @LineIndex.Fits.positionAt_eq (DocumentM μ) _ _ _ _ _ fits _ newEndInside
  refine ⟨?replacement, ?after, ?run, ?rewritten, ?edit, ?reports⟩
  case run =>
    rw [applyReplacement, get_bind, accepted]
    dsimp only [applyReplacement.ofOutcome]
    rw [pure_bind, upper, checked_bind, atOldEnd, pure_bind, removed]
    dsimp only
    rw [pure_bind, set_bind, bind_ok (onIndex_ok remove), inserted]
    dsimp only
    rw [pure_bind, modify_bind, bind_ok (onIndex_ok insert), get_bind]
    dsimp only
    rw [atStart, pure_bind, atNewEnd, pure_bind]
    rfl
  case rewritten =>
    exact ⟨rfl, fits, rfl, rfl, rfl⟩
  case edit =>
    exact ⟨rfl, rfl⟩
  case reports =>
    intro silent
    dsimp only
    rw [silent, LineChanges.union_none]
    exact ⟨tells, rfl⟩

/-- A replacement of a range that does not lie between characters changes nothing. -/
theorem applyReplacement_error {e : Failure} (uncut : d.buffer.split r = .error e) :
    applyReplacement r text d = .error e d := by
  rw [applyReplacement, get_bind, TextBuffer.split_eq_error.mp uncut]
  rfl

/-- A change that leads to the text of a document can be taken back. -/
theorem revert_ok {c : TextChange} {a : TextBuffer} (fits : d.index.Fits d.buffer.units)
    (leads : c.Leads a d.buffer) (short : d.buffer.Short) :
    ∃ replacement d', revert c d = .ok replacement d' ∧ d.Rewritten d' a ∧
      (Silent μ → d.Reports 6 d' replacement.changes) := by
  obtain ⟨before, after, old, new, location⟩ := leads
  have split : d.buffer.split ⟨c.location, c.newLength⟩ =
      .ok (before, c.newText.toList, after) := by
    apply TextBuffer.split_eq_ok_iff.mpr
    refine ⟨new.symm, location, rfl, ?_⟩
    rw [TextBuffer.Short, TextBuffer.length, new, Utf16.length_append, Utf16.length_append] at short
    dsimp only [TextChange.newLength]
    omega
  obtain ⟨replacement, d', ok, rewritten, -, reports⟩ :=
    @applyReplacement_ok _ _ _ _ c.oldText _ _ _ fits split
  refine ⟨replacement, d', ok, ?_, fun silent => (reports silent).1⟩
  rwa [List.append_assoc, ← old] at rewritten

/-- A change that leads away from the text of a document can be done. -/
theorem reapply_ok {c : TextChange} {b : TextBuffer} (fits : d.index.Fits d.buffer.units)
    (leads : c.Leads d.buffer b) (short : d.buffer.Short) :
    ∃ replacement d', reapply c d = .ok replacement d' ∧ d.Rewritten d' b ∧
      (Silent μ → d.Reports 6 d' replacement.changes) := by
  obtain ⟨before, after, old, new, location⟩ := leads
  have split : d.buffer.split ⟨c.location, c.oldLength⟩ =
      .ok (before, c.oldText.toList, after) := by
    apply TextBuffer.split_eq_ok_iff.mpr
    refine ⟨old.symm, location, rfl, ?_⟩
    rw [TextBuffer.Short, TextBuffer.length, old, Utf16.length_append, Utf16.length_append] at short
    dsimp only [TextChange.oldLength]
    omega
  obtain ⟨replacement, d', ok, rewritten, -, reports⟩ :=
    @applyReplacement_ok _ _ _ _ c.newText _ _ _ fits split
  refine ⟨replacement, d', ok, ?_, fun silent => (reports silent).1⟩
  rwa [List.append_assoc, ← new] at rewritten

/-- Replacing a range that can be read. Only a replacement of nothing by nothing is not recorded. -/
theorem replaceText_ok {old : String} (fits : d.index.Fits d.buffer.units)
    (read : d.buffer.substring r = .ok old) :
    ∃ replacement d' b, d.buffer.replace r text = .ok b ∧
      TextChange.Leads ⟨r.location, old, text⟩ d.buffer b ∧ d.Rewritten d' b ∧
      replaceText r text d = .ok replacement
        (if old ≠ "" ∨ text ≠ "" then
          { d' with history := d.history.record ⟨r.location, old, text⟩ }
        else d') ∧
      (Silent μ → d.Reports 6 d' replacement.changes ∧
        replacement.addsOrRemovesLines = replacement.changes.addsOrRemoves) := by
  obtain ⟨before, inside, after, split, rfl⟩ := TextBuffer.substring_eq_ok_iff.mp read
  obtain ⟨replacement, d', ok, rewritten, -, reports⟩ :=
    @applyReplacement_ok _ _ _ _ text _ _ _ fits split
  obtain ⟨whole, location, -, -⟩ := TextBuffer.split_eq_ok_iff.mp split
  refine ⟨replacement, d', _, TextBuffer.replace_of_split split text, ?_, rewritten, ?_, reports⟩
  · exact ⟨before, after, by simpa using whole.symm, by simp, location⟩
  · rw [replaceText, get_bind, read]
    dsimp only
    rw [pure_bind, bind_ok ok]
    split
    · rw [modify_bind, rewritten.history]
      rfl
    · rfl

/-- Replacing a range that cannot be read changes nothing. -/
theorem replaceText_error {e : Failure} (unread : d.buffer.substring r = .error e) :
    replaceText r text d = .error e d := by
  rw [replaceText, get_bind, unread]
  rfl

end Document

end CodeEditor

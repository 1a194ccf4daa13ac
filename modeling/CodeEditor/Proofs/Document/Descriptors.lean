import CodeEditor.Proofs.Document.Edits
import CodeEditor.Proofs.Text.Window
import Mathlib.Logic.Relation

/-!
What a document tells its mode about an edit.

A mode never sees the text before an edit. All it gets is a descriptor and the text behind, and from
these it has to keep its syntax in step. `Describes` says that a descriptor is right: around the
edit both texts have the same bytes, and its positions are those that are counted through the texts.
`Told` says that the mode was given such a descriptor once, when text and lines were those behind
the edit, and `Retold` says so of the steps of a group, one after the other.

A mode that keeps the bytes of the text for itself shows that nothing more is needed: `Shadowed`
changes its copy by what each descriptor says, and `told_of_reachable` has it in step after any run
of edits.
-/

namespace CodeEditor

namespace TextEdit

/-- The bytes that an edit inserted, as the text behind has them. -/
def inserted (e : TextEdit) (new : TextBuffer) : List UInt8 :=
  (new.allBytes.drop e.startByte).take e.bytesAdded

/-- Bytes with the replaced ones exchanged for others. -/
def splice (e : TextEdit) (bytes inserted : List UInt8) : List UInt8 :=
  bytes.take e.startByte ++ inserted ++ bytes.drop (e.startByte + e.bytesRemoved)

/-- An edit says how one text became another. -/
structure Describes (e : TextEdit) (old new : TextBuffer) : Prop where
  bytes : e.splice old.allBytes (e.inserted new) = new.allBytes
  removed : e.startByte + e.bytesRemoved ≤ old.byteLength
  added : e.startByte + e.bytesAdded ≤ new.byteLength
  /-- The start is a position of the text behind. -/
  start : e.start = new.position (unitsOfBytes e.startByte)
  oldEnd : e.oldEnd = old.position (unitsOfBytes (e.startByte + e.bytesRemoved))
  newEnd : e.newEnd = new.position (unitsOfBytes (e.startByte + e.bytesAdded))
  /-- The ends can be asked for as long as the bytes can be addressed. -/
  oldEndByte : old.byteLength < wordLimit → e.oldEndByte = some (e.startByte + e.bytesRemoved)
  newEndByte : new.byteLength < wordLimit → e.newEndByte = some (e.startByte + e.bytesAdded)

/-- The edit that puts a text in place of a range describes the replacement. -/
theorem describes_between {old new : TextBuffer} {r : TextRange} {text : String}
    (replaced : old.replace r text = .ok new) :
    (between old new r (Utf16.length text.toList)).Describes old new := by
  obtain ⟨before, inside, after, split, rfl⟩ := TextBuffer.replace_eq_ok_iff.mp replaced
  obtain ⟨whole, location, length, -⟩ := TextBuffer.split_eq_ok_iff.mp split
  obtain ⟨front, -, behind⟩ := TextBuffer.units_of_split split
  have units : TextBuffer.units ⟨before ++ text.toList ++ after⟩ =
      old.units.take r.location ++
        (Utf16.encode text.toList ++ old.units.drop (r.location + r.length)) := by
    rw [front, behind, TextBuffer.units, Utf16.encode_append, Utf16.encode_append,
      List.append_assoc]
  have start : (old.units.take r.location).length = r.location := by
    rw [front, Utf16.length_encode, location]
  have oldLength : r.location + r.length ≤ old.length := by
    rw [TextBuffer.length, ← whole, Utf16.length_append, Utf16.length_append]
    omega
  have newLength : r.location + Utf16.length text.toList ≤
      TextBuffer.length ⟨before ++ text.toList ++ after⟩ := by
    rw [TextBuffer.length, Utf16.length_append, Utf16.length_append]
    omega
  generalize (⟨before ++ text.toList ++ after⟩ : TextBuffer) = new at *
  -- Locations and lengths in bytes are twice those in code units.
  have oldEnd : r.location * bytesPerUnit + r.length * bytesPerUnit =
      (r.location + r.length) * bytesPerUnit := (Nat.add_mul _ _ _).symm
  have newEnd : r.location * bytesPerUnit + Utf16.length text.toList * bytesPerUnit =
      (r.location + Utf16.length text.toList) * bytesPerUnit := (Nat.add_mul _ _ _).symm
  have removed : (r.location + r.length) * bytesPerUnit ≤ old.byteLength :=
    Nat.mul_le_mul_right _ oldLength
  have added : (r.location + Utf16.length text.toList) * bytesPerUnit ≤ new.byteLength :=
    Nat.mul_le_mul_right _ newLength
  constructor
  case bytes =>
    have slice : (between old new r (Utf16.length text.toList)).inserted new =
        (Utf16.encode text.toList).flatMap TextBuffer.unitBytes := by
      show (new.allBytes.drop (r.location * bytesPerUnit)).take
        (Utf16.length text.toList * bytesPerUnit) = _
      rw [TextBuffer.allBytes, ← TextBuffer.flatMap_unitBytes_drop,
        ← TextBuffer.flatMap_unitBytes_take, units, List.drop_left' start,
        ← Utf16.length_encode, List.take_left]
    rw [slice]
    show old.allBytes.take (r.location * bytesPerUnit) ++ _ ++
      old.allBytes.drop (r.location * bytesPerUnit + r.length * bytesPerUnit) = _
    rw [oldEnd, TextBuffer.allBytes, ← TextBuffer.flatMap_unitBytes_take,
      ← TextBuffer.flatMap_unitBytes_drop, TextBuffer.allBytes, units, List.flatMap_append,
      List.flatMap_append, List.append_assoc]
  case removed => exact oldEnd ▸ removed
  case added => exact newEnd ▸ added
  case start =>
    show new.position r.location = new.position (unitsOfBytes (r.location * bytesPerUnit))
    rw [unitsOfBytes_mul]
  case oldEnd =>
    show old.position (r.location + r.length) =
      old.position (unitsOfBytes (r.location * bytesPerUnit + r.length * bytesPerUnit))
    rw [oldEnd, unitsOfBytes_mul]
  case newEnd =>
    show new.position (r.location + Utf16.length text.toList) = new.position
      (unitsOfBytes (r.location * bytesPerUnit + Utf16.length text.toList * bytesPerUnit))
    rw [newEnd, unitsOfBytes_mul]
  case oldEndByte =>
    intro word
    exact Checked.add_eq_some_iff.mpr ⟨rfl, Nat.lt_of_le_of_lt (oldEnd ▸ removed) word⟩
  case newEndByte =>
    intro word
    exact Checked.add_eq_some_iff.mpr ⟨rfl, Nat.lt_of_le_of_lt (newEnd ▸ added) word⟩

end TextEdit

namespace Document

variable {μ : Type} [LanguageMode μ] {d d' : Document μ} {r : TextRange} {text : String}

/-- A range was replaced, and the mode was told so by an edit when text and lines were up to
date. -/
structure Told (d : Document μ) (r : TextRange) (text : String) (edit : TextEdit)
    (d' : Document μ) :
    Prop where
  replaced : d.buffer.replace r text = .ok d'.buffer
  byteRange : edit.byteRange = r.toBytes
  bytesAdded : edit.bytesAdded = Utf16.length text.toList * bytesPerUnit
  describes : edit.Describes d.buffer d'.buffer
  lines : ∀ other : LineIndex, d'.index.layout = (other.rebuild d'.buffer).layout
  mode : d'.mode = (LanguageMode.applyEdit d.mode edit d'.buffer d'.index).2

/-- Ranges were replaced one after the other, each of them told to the mode. The range and the new
text of a step are read off its change. -/
inductive Retold (range : TextChange → TextRange) (text : TextChange → String) :
    Document μ → List UndoStep → List TextEdit → Document μ → Prop
  | nil (d : Document μ) : Retold range text d [] [] d
  | cons {d d' d'' : Document μ} {step : UndoStep} {steps : List UndoStep} {edit : TextEdit}
      {edits : List TextEdit} :
      d.Told (range step.change) (text step.change) edit d' → Retold range text d' steps edits d'' →
      Retold range text d (step :: steps) (edit :: edits) d''

/-- Every replacement is told to the mode. -/
theorem told_of_applyReplacement {replacement : Replacement} (fits : d.index.Fits d.buffer.units)
    (ok : applyReplacement r text d = .ok replacement d') :
    d.Told r text replacement.edit d' ∧ d'.index.Fits d'.buffer.units ∧ d'.history = d.history := by
  cases split : d.buffer.split r with
  | error e =>
      rw [applyReplacement_error split] at ok
      cases ok
  | ok parts =>
      obtain ⟨before, inside, after⟩ := parts
      obtain ⟨replacement', d₁, ok', rewritten, ⟨edit, mode⟩, -⟩ :=
        @applyReplacement_ok _ _ _ _ text _ _ _ fits split
      cases ok.symm.trans ok'
      have replaced : d.buffer.replace r text = .ok d'.buffer := by
        rw [rewritten.buffer]
        exact TextBuffer.replace_of_split split text
      have fits' : d'.index.Fits d'.buffer.units := rewritten.buffer ▸ rewritten.fits
      refine ⟨⟨replaced, ?_, ?_, ?_, ?_, mode⟩, fits', rewritten.history⟩
      · rw [edit]
        rfl
      · rw [edit]
        rfl
      · rw [edit]
        exact TextEdit.describes_between replaced
      · intro other
        exact fits'.layout_eq (LineIndex.fits_rebuild other d'.buffer)

theorem told_of_replaceText {replacement : Replacement} (fits : d.index.Fits d.buffer.units)
    (ok : replaceText r text d = .ok replacement d') : d.Told r text replacement.edit d' := by
  cases read : d.buffer.substring r with
  | error e =>
      rw [replaceText_error read] at ok
      cases ok
  | ok old =>
      rw [replaceText, get_bind, read] at ok
      dsimp only at ok
      rw [pure_bind] at ok
      obtain ⟨replacement', d₁, applied, recorded⟩ := exists_of_bind_ok ok
      obtain ⟨told, -, -⟩ := told_of_applyReplacement fits applied
      split at recorded
      · cases recorded
        exact { told with }
      · cases recorded
        exact told

/-- The steps that are worked through are told to the mode, in their order. -/
theorem retold_of_replaySteps {range : TextChange → TextRange} {text : TextChange → String}
    {act : TextChange → DocumentM μ Replacement}
    (acts : ∀ change, act change = applyReplacement (range change) (text change))
    {steps before done : List UndoStep} {changes changes' : LineChanges}
    (fits : d.index.Fits d.buffer.units)
    (ok : replaySteps act steps changes before d = .ok (changes', done, none) d') :
    ∃ edits, Retold range text d steps edits d' ∧ d'.history = d.history := by
  induction steps generalizing d changes before with
  | nil =>
      cases ok
      exact ⟨[], .nil _, rfl⟩
  | cons step steps ih =>
      rw [replaySteps] at ok
      dsimp only at ok
      cases ran : act step.change d with
      | error e d₁ =>
          rw [ran] at ok
          cases e <;> cases ok
      | ok replacement d₁ =>
          rw [ran] at ok
          rw [acts] at ran
          obtain ⟨told, fits₁, history⟩ := told_of_applyReplacement fits ran
          obtain ⟨edits, retold, history'⟩ := ih fits₁ ok
          exact ⟨_, .cons told retold, history'.trans history⟩

/-- What undoing and redoing do with the group that they took off its stack. -/
theorem retold_of_group (range : TextChange → TextRange) (text : TextChange → String)
    {act : TextChange → DocumentM μ Replacement}
    (acts : ∀ change, act change = applyReplacement (range change) (text change))
    (push restore : History → List UndoStep → History) (h : History) {steps : List UndoStep}
    {changes : LineChanges} (fits : d.index.Fits d.buffer.units)
    (ok : (do
      let (changes, done, failed) ← replaySteps act steps .none []
      modify fun d => { d with history := push d.history done }
      match failed with
      | none => return changes
      | some (e, pending) =>
          modify fun d => { d with history := restore d.history pending }
          reject e : DocumentM μ LineChanges) { d with history := h } = .ok changes d') :
    ∃ edits, Retold range text { d with history := h } steps edits { d' with history := h } := by
  obtain ⟨⟨changes', done, failed⟩, d₁, ran, pushed⟩ := exists_of_bind_ok ok
  cases failed with
  | some left => cases pushed
  | none =>
      cases pushed
      obtain ⟨edits, retold, rfl⟩ :=
        retold_of_replaySteps acts
          (show LineIndex.Fits { d with history := h }.index _ from fits) ran
      exact ⟨edits, retold⟩

/-- Undoing either finds nothing to undo, or all steps of the newest group are taken back and
told. -/
theorem undo_cases {texts : List TextBuffer} (on : d.OnTimeline texts) :
    undo d = .error (.rejected .nothingToUndo) d.endGroup ∨
      ∃ changes d' run rest h edits, undo d = .ok changes d' ∧ TopGroup d.history.done run rest ∧
        Retold (fun c => ⟨c.location, c.newLength⟩) (·.oldText) { d with history := h } run edits
          { d' with history := h } := by
  by_cases empty : d.history.done = []
  · exact .inl (OnTimeline.undo_nothing empty)
  · obtain ⟨run, rest, top⟩ := History.exists_topGroup empty
    obtain ⟨changes, d', ok, -⟩ := on.undo_ok top
    have ran := ok
    rw [undo, get_bind, History.takeDone_of_top top] at ran
    dsimp only at ran
    rw [modify_bind] at ran
    obtain ⟨edits, retold⟩ := retold_of_group (fun c => ⟨c.location, c.newLength⟩) (·.oldText)
      (fun _ => rfl) History.pushUndone History.restoreDone _ on.fits ran
    exact .inr ⟨changes, d', run, rest, _, edits, ok, top, retold⟩

/-- Redoing either finds nothing to redo, or all steps of the group undone last are made and
told. -/
theorem redo_cases {texts : List TextBuffer} (on : d.OnTimeline texts) :
    redo d = .error (.rejected .nothingToRedo) d.endGroup ∨
      ∃ changes d' run rest h edits, redo d = .ok changes d' ∧ TopGroup d.history.undone run rest ∧
        Retold (fun c => ⟨c.location, c.oldLength⟩) (·.newText) { d with history := h } run edits
          { d' with history := h } := by
  by_cases empty : d.history.undone = []
  · exact .inl (OnTimeline.redo_nothing empty)
  · obtain ⟨run, rest, top⟩ := History.exists_topGroup empty
    obtain ⟨changes, d', ok, -⟩ := on.redo_ok top
    have ran := ok
    rw [redo, get_bind, History.takeUndone_of_top top] at ran
    dsimp only at ran
    rw [modify_bind] at ran
    obtain ⟨edits, retold⟩ := retold_of_group (fun c => ⟨c.location, c.oldLength⟩) (·.newText)
      (fun _ => rfl) History.pushDone History.restoreUndone _ on.fits ran
    exact .inr ⟨changes, d', run, rest, _, edits, ok, top, retold⟩

end Document

/-! ### A copy of the text -/

/-- A mode beside a copy of the text in bytes. -/
structure Shadowed (μ : Type) where
  mode : μ
  bytes : List UInt8

/-- Of an edit the copy is given nothing but the descriptor and the bytes inserted. -/
instance {μ : Type} [LanguageMode μ] : LanguageMode (Shadowed μ) where
  parse s text := ⟨LanguageMode.parse s.mode text, text.allBytes⟩
  applyEdit s edit text index :=
    let (changes, mode) := LanguageMode.applyEdit s.mode edit text index
    (changes, ⟨mode, edit.splice s.bytes (edit.inserted text)⟩)
  canHighlight s := LanguageMode.canHighlight s.mode
  lineBreak s := LanguageMode.lineBreak s.mode
  nodeAt s := LanguageMode.nodeAt s.mode
  detectIndent s := LanguageMode.detectIndent s.mode

namespace Document

section

variable {μ : Type} [LanguageMode μ]

/-- Some edits and clean points one after the other. -/
def Edits : Document μ → Document μ → Prop :=
  Relation.ReflTransGen fun d d' => Edit d d' ∨ d' = d.markClean

theorem Reachable.edits {d d' : Document μ} (reachable : Reachable d) (edits : Edits d d') :
    Reachable d' := by
  induction edits with
  | refl => exact reachable
  | tail _ last ih =>
      obtain ⟨saved, h⟩ := ih
      rcases last with edit | rfl
      · exact ⟨saved, h.edit edit⟩
      · exact ⟨_, h.markClean⟩

/-- The copy of the text is exact. -/
def InStep (d : Document (Shadowed μ)) : Prop := d.mode.bytes = d.buffer.allBytes

variable {d d' : Document (Shadowed μ)}

theorem Told.inStep {r : TextRange} {text : String} {edit : TextEdit}
    (told : d.Told r text edit d') (inStep : d.InStep) : d'.InStep := by
  rw [InStep, told.mode]
  show edit.splice d.mode.bytes (edit.inserted d'.buffer) = d'.buffer.allBytes
  rw [inStep, told.describes.bytes]

theorem Retold.inStep {range : TextChange → TextRange} {text : TextChange → String}
    {steps : List UndoStep} {edits : List TextEdit} (retold : Retold range text d steps edits d')
    (inStep : d.InStep) : d'.InStep := by
  induction retold with
  | nil d => exact inStep
  | cons told _ ih => exact ih (told.inStep inStep)

/-- Every edit keeps the copy of the text exact. -/
theorem InStep.edit (inStep : d.InStep) (reachable : Reachable d) (edit : Edit d d') :
    d'.InStep := by
  obtain ⟨texts, on⟩ := reachable.exists_timeline
  cases edit with
  | replaceText r text short =>
      cases ran : Document.replaceText r text d with
      | ok replacement d' => exact (told_of_replaceText on.fits ran).inStep inStep
      | error e d' =>
          cases read : d.buffer.substring r with
          | error e' =>
              cases (replaceText_error read).symm.trans ran
              exact inStep
          | ok old =>
              obtain ⟨_, _, _, ok, -⟩ := on.replaceText text read
              cases ok.symm.trans ran
  | undo =>
      rcases undo_cases on with nothing | ⟨_, _, _, _, _, _, ok, -, retold⟩
      · rw [nothing]
        exact inStep
      · rw [ok]
        exact retold.inStep inStep
  | redo =>
      rcases redo_cases on with nothing | ⟨_, _, _, _, _, _, ok, -, retold⟩
      · rw [nothing]
        exact inStep
      · rw [ok]
        exact retold.inStep inStep
  | beginGroup => exact inStep
  | endGroup => exact inStep
  | setText text short => rfl
  | setMode mode => rfl
  | setHeight id height =>
      rw [setHeight, onIndex]
      cases LineIndex.setHeight id height d.index <;> exact inStep

theorem InStep.edits (inStep : d.InStep) (reachable : Reachable d) (edits : Edits d d') :
    d'.InStep := by
  induction edits with
  | refl => exact inStep
  | tail before last ih =>
      rcases last with edit | rfl
      · exact ih.edit (reachable.edits before) edit
      · exact ih

end

/-- Every replacement in a document is told to its mode once, by an edit that describes it, and so
is every step of undoing and redoing, which make none when there is nothing to undo or redo. A copy
of the text that is changed by nothing but these edits is exact after any run. -/
theorem told_of_reachable {μ : Type} [LanguageMode μ] :
    (∀ d : Document μ, Reachable d →
      (∀ r text replacement d', replaceText r text d = .ok replacement d' →
        d.Told r text replacement.edit d') ∧
      (undo d = .error (.rejected .nothingToUndo) d.endGroup ∨
        ∃ changes d' run rest h edits, undo d = .ok changes d' ∧ TopGroup d.history.done run rest ∧
          Retold (fun c => ⟨c.location, c.newLength⟩) (·.oldText) { d with history := h } run edits
            { d' with history := h }) ∧
      (redo d = .error (.rejected .nothingToRedo) d.endGroup ∨
        ∃ changes d' run rest h edits, redo d = .ok changes d' ∧
          TopGroup d.history.undone run rest ∧
          Retold (fun c => ⟨c.location, c.oldLength⟩) (·.newText) { d with history := h } run edits
            { d' with history := h })) ∧
      ∀ d d' : Document (Shadowed μ), Reachable d → d.InStep → Edits d d' → d'.InStep := by
  refine ⟨fun d reachable => ?_, fun d d' reachable inStep edits => inStep.edits reachable edits⟩
  obtain ⟨texts, on⟩ := reachable.exists_timeline
  refine ⟨?_, undo_cases on, redo_cases on⟩
  intro r text replacement d' ok
  exact told_of_replaceText on.fits ok

/-- A letter between a CR and its LF is typed and taken back. Where it starts there was no line
before, so its start and its old end are different positions. -/
theorem told_of_parted_return :
    ∃ (d d' d'' : Document (Shadowed PlainText)) (replacement : Replacement)
      (changes : LineChanges),
      replaceText ⟨2, 0⟩ "x" d = .ok replacement d' ∧ undo d' = .ok changes d'' ∧
        replacement.edit.start = ⟨1, 0⟩ ∧ replacement.edit.oldEnd = ⟨0, 2⟩ ∧
          replacement.edit.newEnd = ⟨1, 1⟩ ∧ d''.mode.bytes = d''.buffer.allBytes := by
  let copy : Shadowed PlainText := ⟨PlainText.mk, (TextBuffer.ofString "a\r\nb").allBytes⟩
  have opened : Saved (.ofString "a\r\nb") (ofText "a\r\nb" {} copy) := .opened _ _ _ (by decide)
  obtain ⟨texts, on, -⟩ := opened.exists_timeline
  obtain ⟨replacement, d', b, typed, replaced, buffer, history, next, -⟩ :=
    @OnTimeline.replaceText _ _ _ _ ⟨2, 0⟩ "" on "x" rfl
  obtain rfl : b = ⟨['a', '\r', 'x', '\n', 'b']⟩ := Except.ok.inj (replaced.symm.trans rfl)
  obtain ⟨texts', on', -⟩ := next (by decide)
  have done : d'.history.done ≠ [] := by
    rw [history]
    exact List.cons_ne_nil _ _
  obtain ⟨run, rest, top⟩ := History.exists_topGroup done
  obtain ⟨changes, d'', undone, -⟩ := on'.undo_ok top
  have first := Edit.replaceText (ofText "a\r\nb" {} copy) ⟨2, 0⟩ "x"
  rw [typed, after, buffer] at first
  have second := Edit.undo d'
  rw [undone, after] at second
  have edits : Edits (ofText "a\r\nb" {} copy) d'' :=
    .tail (.single (.inl (first (by decide)))) (.inl second)
  obtain ⟨tells, -⟩ := @told_of_reachable (Shadowed PlainText) _
  obtain ⟨-, copies⟩ := @told_of_reachable PlainText _
  have told := (tells _ ⟨_, opened⟩).1 _ _ _ _ typed
  have start := told.describes.start
  have oldEnd := told.describes.oldEnd
  have newEnd := told.describes.newEnd
  rw [TextEdit.startByte, told.byteRange, buffer] at start
  rw [TextEdit.startByte, TextEdit.bytesRemoved, told.byteRange] at oldEnd
  rw [TextEdit.startByte, told.byteRange, told.bytesAdded, buffer] at newEnd
  exact ⟨_, d', d'', replacement, changes, typed, undone, start.trans (by decide),
    oldEnd.trans (by decide), newEnd.trans (by decide), copies _ _ ⟨_, opened⟩ rfl edits⟩

end Document

end CodeEditor

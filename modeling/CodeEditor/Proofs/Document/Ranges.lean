import CodeEditor.Proofs.Document.Edits
import CodeEditor.Proofs.Line.Listing
import CodeEditor.Proofs.Style.Styled
import CodeEditor.Proofs.Text.Pairs

/-!
Ranges that go on behind the end of a text.

Every operation on a range adds its length to its location before it compares the sum with anything.
Where the sum is a machine word, a range that goes on behind the text is refused, nothing changes,
and attributes are set on the part of it that lies in the text. Where it is not, there is no result
at all (`TextRange.refusal`), unless the operation looked for the line of the location first and
found none (`TextRange.lineRefusal`). `TextRange.refused_or_clipped` says so for all of them.
-/

namespace CodeEditor

namespace TextRange

variable {r : TextRange}

/-- What stops an operation that a range was refused by: the error, if the end of the range is a
machine word. -/
def refusal (r : TextRange) (error : EditError) : Failure :=
  if r.location + r.length < wordLimit then .rejected error else .overflow

/-- What stops an operation that looks for the line of the location in a text of a given length, and
for that of the end behind it. -/
def lineRefusal (r : TextRange) (length : Nat) : Failure :=
  if length < r.location then .rejected (.offsetOutOfBounds r.location length)
  else r.refusal (.offsetOutOfBounds (r.location + r.length) length)

/-- The part of a range that lies in a text of a given length. -/
def clip (r : TextRange) (length : Nat) : TextRange :=
  .ofBounds (min r.location length) (min (r.location + r.length) length)

theorem upperBound_eq_none (beyond : wordLimit ≤ r.location + r.length) : r.upperBound = none :=
  Checked.add_eq_none_iff.mpr beyond

theorem upperBound_clip {length : Nat} (short : length < wordLimit) :
    (r.clip length).upperBound = some (min (r.location + r.length) length) := by
  refine Checked.add_eq_some_iff.mpr ⟨?_, by omega⟩
  rw [clip, ofBounds]
  dsimp only
  omega

/-- What goes on to refuse a range stops with the refusal, and before that if the end of the range
is no machine word. -/
theorem upperBound_bind_refused {α : Type} {rest : Nat → Outcome α} {error : EditError}
    (refused : rest (r.location + r.length) = .error (.rejected error)) :
    (checked r.upperBound >>= rest : Outcome α) = .error (r.refusal error) := by
  rw [refusal]
  split
  · next word =>
      rw [upperBound_eq word]
      exact refused
  · next beyond =>
      rw [upperBound_eq_none (Nat.not_lt.mp beyond)]
      rfl

/-- The same for what has a state, which is left as it is. -/
theorem upperBound_bind_keeps {σ α : Type} {rest : Nat → EStateM Failure σ α} {error : EditError}
    {s : σ} (refused : rest (r.location + r.length) s = .error (.rejected error) s) :
    (checked r.upperBound >>= rest : EStateM Failure σ α) s = .error (r.refusal error) s := by
  rw [refusal]
  split
  · next word =>
      rw [upperBound_eq word, checked_bind]
      exact refused
  · next beyond =>
      rw [upperBound_eq_none (Nat.not_lt.mp beyond)]
      rfl

end TextRange

/-! ### Texts -/

namespace TextBuffer

variable {b : TextBuffer} {r : TextRange}

/-- A text refuses a range for its end. -/
structure Refuses (b : TextBuffer) (r : TextRange) : Prop where
  substring : b.substring r =
    .error (r.refusal (.rangeOutOfBounds r.location r.length b.length))
  replace : ∀ text, b.replace r text =
    .error (r.refusal (.rangeOutOfBounds r.location r.length b.length))

theorem refuses (outside : b.length < r.location + r.length) : b.Refuses r := by
  have uncut : b.split r = .error (r.refusal (.rangeOutOfBounds r.location r.length b.length)) := by
    rw [split_eq_error, checkRange]
    refine TextRange.upperBound_bind_refused ?_
    dsimp only
    rw [if_pos outside]
    rfl
  exact ⟨substring_eq_error_iff.mpr uncut, fun _ => replace_eq_error_iff.mpr uncut⟩

end TextBuffer

/-! ### Lines -/

namespace LineIndex

variable {index : LineIndex} {r : TextRange}

theorem positionAt_reject {offset : Nat} (beyond : index.totalLength < offset) :
    (index.positionAt offset : Outcome LinePosition) =
      .error (.rejected (.offsetOutOfBounds offset index.totalLength)) := by
  rw [positionAt, lineAt_reject beyond]
  rfl

/-- The index of a text of a given length refuses a range for one of its ends. -/
structure Refuses (index : LineIndex) (length : Nat) (r : TextRange) : Prop where
  /-- Following a removal stops before the index changes. -/
  removeCharacters : ∀ text, removeCharacters text r index =
    .error (r.refusal (.rangeOutOfBounds r.location r.length length)) index
  startAndEndLine : (index.startAndEndLine r : Outcome (Line × Line)) = .error
    (r.lineRefusal length)
  linesIn : index.linesIn r = .error (r.lineRefusal length)

theorem removeCharacters_refused (filled : 0 < r.length)
    (outside : index.totalLength < r.location + r.length) (text : TextBuffer) :
    removeCharacters text r index =
      .error (r.refusal (.rangeOutOfBounds r.location r.length index.totalLength)) index := by
  obtain ⟨location, length⟩ := r
  cases length with
  | zero => cases filled
  | succ n =>
      rw [removeCharacters, removeCharactersAt]
      dsimp only
      rw [get_bind]
      refine TextRange.upperBound_bind_keeps ?_
      dsimp only
      rw [if_pos outside]
      rfl

theorem startAndEndLine_refused (valid : index.store.Valid) (filled : 0 < r.length)
    (outside : index.totalLength < r.location + r.length) :
    (index.startAndEndLine r : Outcome (Line × Line)) =
      .error (r.lineRefusal index.totalLength) := by
  rw [startAndEndLine, TextRange.lineRefusal]
  by_cases far : index.totalLength < r.location
  · rw [if_pos far, lineAt_reject far]
    rfl
  · obtain ⟨_, _, start, -, here, -⟩ := @lineAt_spot _ Outcome _ _ valid _ (Nat.not_lt.mp far)
    have notEmpty : ¬r.isEmpty = true := by
      rw [TextRange.isEmpty, beq_iff_eq]
      omega
    rw [if_neg far, here, LawfulMonad.pure_bind, if_neg notEmpty]
    refine TextRange.upperBound_bind_refused ?_
    rw [lineAt_reject outside]
    rfl

theorem refuses (valid : index.store.Valid) (filled : 0 < r.length)
    (outside : index.totalLength < r.location + r.length) : index.Refuses index.totalLength r := by
  have both := startAndEndLine_refused valid filled outside
  refine ⟨removeCharacters_refused filled outside, both, ?_⟩
  rw [linesIn, both]
  rfl

end LineIndex

/-! ### Documents -/

namespace Document

variable {μ : Type} [LanguageMode μ] {d : Document μ} {r : TextRange}

/-- A document refuses a range for one of its ends. -/
structure Refuses (d : Document μ) (r : TextRange) : Prop where
  /-- A replacement leaves the document as it is. -/
  replaceText : ∀ text, replaceText r text d =
    .error (r.refusal (.rangeOutOfBounds r.location r.length d.buffer.length)) d
  lineBreak : ∀ strategy, d.lineBreak r strategy = .error (r.lineRefusal d.buffer.length)

theorem lineBreak_refused (valid : d.index.store.Valid)
    (outside : d.index.totalLength < r.location + r.length) (strategy : IndentStrategy) :
    d.lineBreak r strategy = .error (r.lineRefusal d.index.totalLength) := by
  rw [lineBreak, TextRange.lineRefusal]
  by_cases far : d.index.totalLength < r.location
  · rw [if_pos far, LineIndex.positionAt_reject far]
    rfl
  · obtain ⟨_, _, -, here⟩ :=
      @LineIndex.positionAt_spot _ Outcome _ _ _ valid _ (Nat.not_lt.mp far)
    rw [if_neg far, here, LawfulMonad.pure_bind]
    refine TextRange.upperBound_bind_refused ?_
    rw [LineIndex.positionAt_reject outside]
    rfl

theorem refuses (fits : d.index.Fits d.buffer.units)
    (outside : d.buffer.length < r.location + r.length) : d.Refuses r := by
  refine ⟨fun text => replaceText_error (TextBuffer.refuses outside).substring, fun strategy => ?_⟩
  rw [← fits.totalLength_text] at outside ⊢
  exact lineBreak_refused fits.valid outside strategy

end Document

/-! ### Attributes -/

namespace StyledText

variable {s : StyledText} {r : TextRange}

/-- Attributes are set on the part of a range that lies in the text, if the end of the range is a
machine word, and otherwise not at all. -/
structure Clips (s : StyledText) (r : TextRange) : Prop where
  inText : r.location + r.length < wordLimit → ∀ attributes, ∃ s',
    s.setAttributes r attributes = some s' ∧ s.setAttributes (r.clip s.length) attributes = some s'
  overflows : wordLimit ≤ r.location + r.length → ∀ attributes, s.setAttributes r attributes = none

/-- Setting attributes has a result as soon as the end of the range has one. -/
theorem exists_setAttributes {upper : Nat} (word : r.upperBound = some upper)
    (attributes : TextAttributes) : ∃ s', s.setAttributes r attributes = some s' := by
  rw [setAttributes, word]
  dsimp only [Option.bind_eq_bind, Option.bind_some]
  split
  · exact ⟨_, rfl⟩
  · exact ⟨_, rfl⟩

/-- Nothing of a range counts but the part that lies in the text. -/
theorem setAttributes_clip (short : s.length < wordLimit)
    (word : r.location + r.length < wordLimit) (attributes : TextAttributes) :
    s.setAttributes (r.clip s.length) attributes = s.setAttributes r attributes := by
  have start : min (r.clip s.length).location s.length = min r.location s.length := by
    rw [TextRange.clip, TextRange.ofBounds]
    exact Nat.min_eq_left (Nat.min_le_right _ _)
  have stop : min (min (r.location + r.length) s.length) s.length =
      min (r.location + r.length) s.length := Nat.min_eq_left (Nat.min_le_right _ _)
  rw [setAttributes, setAttributes, TextRange.upperBound_clip short, TextRange.upperBound_eq word]
  dsimp only [Option.bind_eq_bind, Option.bind_some]
  rw [start, stop]

theorem clips (short : s.length < wordLimit) (r : TextRange) : s.Clips r := by
  constructor
  case inText =>
    intro word attributes
    obtain ⟨s', set⟩ := exists_setAttributes (s := s) (TextRange.upperBound_eq word) attributes
    exact ⟨s', set, (setAttributes_clip short word attributes).trans set⟩
  case overflows =>
    intro beyond attributes
    rw [setAttributes, TextRange.upperBound_eq_none beyond]
    rfl

end StyledText

/-- Ranges that are not empty and go on behind the text are refused, and leave everything as it is,
or clipped, as far as their end is a machine word. -/
theorem TextRange.refused_or_clipped {μ : Type} [LanguageMode μ] {r : TextRange}
    (filled : 0 < r.length) :
    (∀ b : TextBuffer, b.length < r.location + r.length → b.Refuses r) ∧
      (∀ (b : TextBuffer) (index : LineIndex), LineIndex.Synced b index →
        b.length < r.location + r.length → index.Refuses b.length r) ∧
      (∀ d : Document μ, Document.Reachable d → d.buffer.length < r.location + r.length →
        d.Refuses r) ∧
      ∀ s : StyledText, s.length < wordLimit → s.length < r.location + r.length → s.Clips r := by
  refine ⟨fun b => TextBuffer.refuses, ?lines, ?documents, fun s short _ => s.clips short r⟩
  case lines =>
    intro b index synced outside
    rw [← synced.fits.totalLength_text] at outside ⊢
    exact LineIndex.refuses synced.fits.valid filled outside
  case documents =>
    intro d reachable outside
    obtain ⟨_, on⟩ := reachable.exists_timeline
    exact Document.refuses on.fits outside

/-- Of two ranges that start at the end of a text, one is refused, and the other, whose end is no
machine word, stops the replacement. Where a line is looked for first, a location behind the text is
refused. -/
theorem TextRange.refused_of_lastWord :
    ∃ d : Document PlainText, Document.Reachable d ∧ d.text = "a" ∧
      Document.replaceText ⟨1, 1⟩ "b" d = .error (.rejected (.rangeOutOfBounds 1 1 1)) d ∧
      Document.replaceText ⟨1, wordLimit - 1⟩ "b" d = .error .overflow d ∧
      d.lineBreak ⟨1, wordLimit - 1⟩ (.tab 1) = .error .overflow ∧
      d.lineBreak ⟨2, wordLimit - 1⟩ (.tab 1) = .error (.rejected (.offsetOutOfBounds 2 1)) ∧
      d.index.linesIn ⟨1, wordLimit - 1⟩ = .error .overflow ∧
      (StyledText.plain "a").setAttributes ⟨1, wordLimit - 1⟩ {} = none := by
  have opened : Document.Reachable (.ofText "a" {} PlainText.mk) :=
    ⟨_, .opened "a" {} PlainText.mk (by decide)⟩
  have ordinary := (@refused_or_clipped PlainText _ ⟨1, 1⟩ (by decide)).2.2.1 _ opened (by decide)
  obtain ⟨-, lines, documents, styled⟩ :=
    @refused_or_clipped PlainText _ ⟨1, wordLimit - 1⟩ (by decide)
  have last := documents _ opened (by decide)
  have beyond :=
    (@refused_or_clipped PlainText _ ⟨2, wordLimit - 1⟩ (by decide)).2.2.1 _ opened (by decide)
  refine ⟨_, opened, rfl, ordinary.replaceText "b", last.replaceText "b", last.lineBreak (.tab 1),
    beyond.lineBreak (.tab 1), ?_, ?_⟩
  · exact (lines ⟨['a']⟩ _ (.rebuild _ _) (by decide)).linesIn
  · exact (styled _ (by decide) (by decide)).overflows (by decide) {}

end CodeEditor

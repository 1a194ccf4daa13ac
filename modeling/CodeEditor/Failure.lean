import CodeEditor.Checked
import CodeEditor.Line.Id

/-!
Why an operation on a text or its lines stops.
-/

namespace CodeEditor

/-- An operation that was asked for cannot be done. -/
inductive EditError where
  /-- An offset lies beyond the end of the text. -/
  | offsetOutOfBounds (offset length : Nat)
  /-- A range ends beyond the end of the text. -/
  | rangeOutOfBounds (location length bufferLength : Nat)
  /-- An offset lies between the two halves of a surrogate pair. -/
  | notCharBoundary (offset : Nat)
  /-- There is no such row. -/
  | rowOutOfBounds (row lineCount : Nat)
  /-- The line is gone. -/
  | staleLine (line : LineId)
  | nothingToUndo
  | nothingToRedo
deriving DecidableEq

/-- The text shown for an error. -/
def EditError.message : EditError → String
  | .offsetOutOfBounds offset length =>
      s!"offset {offset} is outside the buffer (length {length})"
  | .rangeOutOfBounds location length bufferLength =>
      s!"range {location}+{length} is outside the buffer (length {bufferLength})"
  | .notCharBoundary offset => s!"offset {offset} falls inside a surrogate pair"
  | .rowOutOfBounds row lineCount =>
      s!"row {row} is outside the document ({lineCount} lines)"
  | .staleLine line =>
      s!"line {line.slot} of generation {line.generation} no longer exists"
  | .nothingToUndo => "nothing to undo"
  | .nothingToRedo => "nothing to redo"

/-- How an operation stops without a result: with an error that its caller can handle, or because
its arithmetic left the machine word. -/
inductive Failure where
  | rejected (error : EditError)
  | overflow
deriving DecidableEq

/-- A value, an error, or arithmetic that left the machine word. -/
abbrev Outcome (α : Type) : Type := Except Failure α

/-- Reject with an error. -/
def reject {m : Type → Type} [MonadExceptOf Failure m] {α : Type} (error : EditError) : m α :=
  throw (Failure.rejected error)

/-- Stop where checked arithmetic has no value. -/
def checked {m : Type → Type} [Monad m] [MonadExceptOf Failure m] {α : Type} :
    Checked α → m α
  | some a => pure a
  | none => throw Failure.overflow

end CodeEditor

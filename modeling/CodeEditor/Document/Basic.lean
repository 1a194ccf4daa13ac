import CodeEditor.Document.History
import CodeEditor.Document.Mode
import CodeEditor.Line.Ending

/-!
The editable document.

A `Document` holds a text, the index of its lines, a language mode and the history of its changes.
All changes go through `replaceText`, `undo` and `redo`, which keep the four in step: the text is
changed first, the index follows, and the language mode sees the edit when both are up to date. A
replacement that cannot be done leaves everything as it was.
-/

namespace CodeEditor

/-- The settings of a document. -/
structure DocumentConfig where
  /-- The columns of a tab, which are also those of an indentation level. -/
  tabLength : Nat := 4
  /-- How many changes can be undone. -/
  maxUndo : Nat := 1000
  /-- The height of lines that have not been measured. -/
  estimatedLineHeight : Float := defaultLineHeight

/-- A text with its lines, its language mode and its history. -/
structure Document (μ : Type) where
  buffer : TextBuffer
  index : LineIndex
  mode : μ
  history : History
  config : DocumentConfig

/-- What a replacement did. -/
structure Replacement where
  /-- The lines touched, those whose syntax changed included. -/
  changes : LineChanges
  /-- The replacement itself added or removed lines. -/
  addsOrRemovesLines : Bool
  edit : TextEdit

/-- A change of a document. Where it stops, the document keeps what was done so far. -/
abbrev DocumentM (μ α : Type) : Type := EStateM Failure (Document μ) α

namespace Document

variable {μ : Type}

/-- A document that holds `text`, with a mode that has not seen it. -/
def ofText (text : String) (config : DocumentConfig) (mode : μ) : Document μ :=
  let buffer := TextBuffer.ofString text
  { buffer
    index := (LineIndex.empty config.estimatedLineHeight).rebuild buffer
    mode
    history := { limit := config.maxUndo }
    config }

/-- The whole text. -/
def text (d : Document μ) : String := d.buffer.text

def canUndo (d : Document μ) : Bool := d.history.canUndo

def canRedo (d : Document μ) : Bool := d.history.canRedo

/-- The text is that of the clean point. -/
def isClean (d : Document μ) : Bool := d.history.isClean

/-- Make later changes one step, until the group is ended. -/
def beginGroup (d : Document μ) : Document μ := { d with history := d.history.beginGroup }

def endGroup (d : Document μ) : Document μ := { d with history := d.history.endGroup }

/-- Make the text as it is the clean point. -/
def markClean (d : Document μ) : Document μ := { d with history := d.history.markClean }

/-- The indentation by the document's own settings. -/
def indentStrategy (d : Document μ) : IndentStrategy := .space d.config.tabLength

/-- The dominant line ending. -/
def lineEnding (d : Document μ) : Option LineEnding := LineEnding.detect d.index d.buffer

/-- The level that the line of a row is indented by. -/
def indentLevel (d : Document μ) (row : Nat) : Outcome Nat := do
  let line ← d.index.lineAtRow row
  checked (Indent.level d.buffer line d.indentStrategy.tabLength)

/-- Run a change of the line index. -/
def onIndex {α : Type} (change : IndexM α) : DocumentM μ α := fun d =>
  match change d.index with
  | .ok a index => .ok a { d with index }
  | .error e index => .error e { d with index }

/-- Set the measured height of a line. Says whether it changed. -/
def setHeight (id : LineId) (height : Float) : DocumentM μ Bool :=
  onIndex (LineIndex.setHeight id height)

section

variable [LanguageMode μ]

/-- Take another language mode, which parses the text. -/
def setMode (d : Document μ) (mode : μ) : Document μ :=
  { d with mode := LanguageMode.parse mode d.buffer }

/-- Parse the text anew. -/
def parse (d : Document μ) : Document μ := d.setMode d.mode

/-- Take another text. The lines are rebuilt and the history is forgotten. -/
def setText (d : Document μ) (text : String) : Document μ :=
  let buffer := TextBuffer.ofString text
  { d with
    buffer
    index := d.index.rebuild buffer
    mode := LanguageMode.parse d.mode buffer
    history := d.history.clear }

/-- Replace a range of the text, without record in the history. -/
def applyReplacement (r : TextRange) (text : String) : DocumentM μ Replacement := do
  let d ← get
  ofOutcome (d.buffer.checkRange r)
  let oldEnd ← d.index.positionAt (← checked r.upperBound)
  let removed ← ofOutcome (d.buffer.replace r "")
  set { d with buffer := removed }
  let changes ← onIndex (LineIndex.removeCharacters removed r)
  let replaced ← ofOutcome (removed.replace ⟨r.location, 0⟩ text)
  modify fun d => { d with buffer := replaced }
  let changes := changes.union (← onIndex (LineIndex.insertText replaced text r.location))
  let added := Utf16.length text.toList
  let d ← get
  let start ← d.index.positionAt r.location
  let newEnd ← d.index.positionAt (r.location + added)
  let edit : TextEdit :=
    { byteRange := r.toBytes, bytesAdded := added * bytesPerUnit, start, oldEnd, newEnd }
  let (syntactic, mode) := LanguageMode.applyEdit d.mode edit replaced d.index
  set { d with mode }
  return { changes := changes.union syntactic, addsOrRemovesLines := changes.addsOrRemoves, edit }
where
  ofOutcome {α : Type} : Outcome α → DocumentM μ α
    | .ok a => pure a
    | .error e => throw e

/-- Replace a range of the text. -/
def replaceText (r : TextRange) (text : String) : DocumentM μ Replacement := do
  let oldText ← match (← get).buffer.substring r with
    | .ok oldText => pure oldText
    | .error e => throw e
  let replacement ← applyReplacement r text
  if oldText ≠ "" ∨ text ≠ "" then
    modify fun d => { d with history := d.history.record ⟨r.location, oldText, text⟩ }
  return replacement

/-- The replacement that takes a change back. -/
def revert (c : TextChange) : DocumentM μ Replacement :=
  applyReplacement ⟨c.location, c.newLength⟩ c.oldText

/-- The replacement that does a change again. -/
def reapply (c : TextChange) : DocumentM μ Replacement :=
  applyReplacement ⟨c.location, c.oldLength⟩ c.newText

/-- Work through the steps of a group. Says what was touched, which steps were done and, if one was
rejected, the error and the steps that are left, that one first. -/
def replaySteps (act : TextChange → DocumentM μ Replacement) :
    List UndoStep → LineChanges → List UndoStep →
      DocumentM μ (LineChanges × List UndoStep × Option (EditError × List UndoStep))
  | [], changes, done => return (changes, done.reverse, none)
  | step :: rest, changes, done => fun d =>
      match act step.change d with
      | .ok replacement d =>
          replaySteps act rest (changes.union replacement.changes) (step :: done) d
      | .error (.rejected e) d => .ok (changes, done.reverse, some (e, step :: rest)) d
      | .error .overflow d => .error .overflow d

/-- Take back the newest group of changes. If a change cannot be taken back, those before it can be
redone and the rest can still be undone. -/
def undo : DocumentM μ LineChanges := do
  let (steps, history) := (← get).history.takeDone
  modify fun d => { d with history }
  match steps with
  | none => reject .nothingToUndo
  | some steps =>
      let (changes, done, failed) ← replaySteps revert steps .none []
      modify fun d => { d with history := d.history.pushUndone done }
      match failed with
      | none => return changes
      | some (e, pending) =>
          modify fun d => { d with history := d.history.restoreDone pending }
          reject e

/-- Do the group of changes that was taken back last again. If a change cannot be done, those before
it can be undone and the rest can still be redone. -/
def redo : DocumentM μ LineChanges := do
  let (steps, history) := (← get).history.takeUndone
  modify fun d => { d with history }
  match steps with
  | none => reject .nothingToRedo
  | some steps =>
      let (changes, done, failed) ← replaySteps reapply steps .none []
      modify fun d => { d with history := d.history.pushDone done }
      match failed with
      | none => return changes
      | some (e, pending) =>
          modify fun d => { d with history := d.history.restoreUndone pending }
          reject e

/-- How to go on after a line break put in place of a range. -/
def lineBreak (d : Document μ) (r : TextRange) (strategy : IndentStrategy) :
    Outcome LineBreakIndent := do
  let start ← d.index.positionAt r.location
  let stop ← d.index.positionAt (← checked r.upperBound)
  checked (LanguageMode.lineBreak d.mode d.buffer d.index start stop strategy)

/-- The innermost node at a position. -/
def nodeAt (d : Document μ) (position : LinePosition) : Checked (Option SyntaxNode) :=
  LanguageMode.nodeAt d.mode position

/-- How the document is indented. -/
def detectIndent (d : Document μ) : DetectedIndent :=
  LanguageMode.detectIndent d.mode d.buffer d.index

end

end Document

end CodeEditor

import CodeEditor.Failure
import CodeEditor.Text.Range
import CodeEditor.Text.Units
import CodeEditor.Style.Attributes

/-!
Text with attributes.

The attributes of a text are kept as runs that cover it from its start to its end. Setting
attributes on a range splits the runs at its bounds, overlays the runs between them, and joins
neighbours that have become equal; so what is set later lies above what was set before.
-/

namespace CodeEditor

/-- A range of the text and its attributes. -/
structure StyledRun where
  range : TextRange
  attributes : TextAttributes
deriving BEq

namespace StyledRun

/-- The exclusive end of the run. -/
def upperBound (r : StyledRun) : Nat := r.range.location + r.range.length

end StyledRun

/-- A text and the runs of its attributes. -/
structure StyledText where
  text : String
  runs : List StyledRun
deriving BEq

namespace StyledText

/-- The length in code units. -/
def length (s : StyledText) : Nat := Utf16.length s.text.toList

def isEmpty (s : StyledText) : Bool := s.length == 0

/-- Text without attributes: one run, or none when it is empty. -/
def plain (text : String) : StyledText :=
  let length := Utf16.length text.toList
  ⟨text, if length = 0 then [] else [⟨⟨0, length⟩, {}⟩]⟩

/-- The attributes at an offset, unless it lies behind the text. -/
def attributesAt (s : StyledText) (offset : Nat) : Option TextAttributes :=
  (s.runs.find? fun run => run.range.location ≤ offset && offset < run.upperBound).map
    (·.attributes)

/-- The text without its attributes. -/
def clear (s : StyledText) : StyledText := plain s.text

/-- Part the run that has an offset inside. -/
def splitAt (offset : Nat) : List StyledRun → List StyledRun
  | [] => []
  | run :: rest =>
      if run.upperBound ≤ offset then run :: splitAt offset rest
      else if offset ≤ run.range.location then run :: rest
      else
        { run with range := .ofBounds run.range.location offset } ::
          { run with range := .ofBounds offset run.upperBound } :: rest

/-- Join neighbours with equal attributes. -/
def coalesce : List StyledRun → List StyledRun
  | [] => []
  | run :: rest => go run rest
where
  go (run : StyledRun) : List StyledRun → List StyledRun
    | [] => [run]
    | next :: rest =>
        if run.attributes == next.attributes then
          go { run with range := ⟨run.range.location, run.range.length + next.range.length⟩ } rest
        else run :: go next rest

/-- Overlay attributes on the part of a range that lies in the text. -/
def setAttributes (s : StyledText) (r : TextRange) (attributes : TextAttributes) :
    Checked StyledText := do
  let start := min r.location s.length
  let stop := min (← r.upperBound) s.length
  if stop ≤ start then return s
  else
    let runs := (splitAt stop (splitAt start s.runs)).map fun run =>
      if start ≤ run.range.location ∧ run.upperBound ≤ stop then
        { run with attributes := run.attributes.overlay attributes }
      else run
    return { s with runs := coalesce runs }

end StyledText

end CodeEditor

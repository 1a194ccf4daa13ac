import CodeEditor.Line.Index

/-!
Which line ending a text uses.

Detection looks at the first delimited lines of a text and takes the delimiter that most of them
have. Lines whose delimiter cannot be read off the text are passed over.
-/

namespace CodeEditor

namespace LineEnding

/-- How many delimited lines are looked at. -/
def sampleSize : Nat := 20

/-- The delimiter of a line, if the text has one there. -/
def ofLine? (text : TextBuffer) (line : Line) : Option LineEnding :=
  match text.substring line.delimiterRange with
  | .ok symbol => ofSymbol? symbol
  | .error _ => none

/-- The most frequent of some delimiters. Among equally frequent ones the first of `all` wins. -/
def mostFrequent (sample : List LineEnding) : Option LineEnding :=
  let counted := (all.map fun ending => (ending, sample.count ending)).filter (0 < ·.2)
  (counted.foldl (fun best candidate =>
    match best with
    | none => some candidate
    | some (_, count) => if candidate.2 ≤ count then best else some candidate) none).map (·.1)

/-- The line ending of an indexed text. -/
def detect (index : LineIndex) (text : TextBuffer) : Option LineEnding :=
  mostFrequent ((index.lines.filterMap (ofLine? text)).take (min index.lineCount sampleSize))

/-- The line ending of a text. -/
def ofText? (text : String) : Option LineEnding :=
  let buffer := TextBuffer.ofString text
  detect ((LineIndex.empty defaultLineHeight).rebuild buffer) buffer

end LineEnding

end CodeEditor

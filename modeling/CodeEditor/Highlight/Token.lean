import CodeEditor.Highlight.Capture
import CodeEditor.Line.Index
import CodeEditor.Style.Styled
import CodeEditor.Style.Theme

/-!
Styling a line by captures.

The captures that overlap a line are cut to it and take the attributes that the theme gives to their
names. Applied in order, the later ones override the earlier.
-/

namespace CodeEditor.Highlight

/-- Attributes for a part of a line, counted from its start in code units. -/
structure Token where
  range : TextRange
  attributes : TextAttributes

/-- The token of a capture for the bytes of a line, if it has one. -/
def tokenOf (theme : Theme) (line : ByteRange) (c : Capture) : Checked (Option Token) := do
  if ← c.byteRange.overlaps line then
    let start := max c.byteRange.location line.location
    let stop := min (← c.byteRange.upperBound) (← line.upperBound)
    let local_ := ByteRange.ofBounds (← Checked.sub start line.location)
      (← Checked.sub stop line.location)
    let attributes := theme.attributes c.name
    return if local_.isEmpty || attributes.isEmpty then none else some ⟨local_.toText, attributes⟩
  else return none

/-- The tokens of some captures for the bytes of a line. -/
def tokens (theme : Theme) (cs : List Capture) (line : ByteRange) : Checked (List Token) :=
  return (← cs.mapM (tokenOf theme line)).filterMap id

/-- A text with some tokens applied in order. -/
def applyTokens (ts : List Token) (text : StyledText) : Checked StyledText :=
  ts.foldlM (fun text t => text.setAttributes t.range t.attributes) text

/-- A text that covers some bytes, with the tokens of some captures applied, and these tokens. -/
def style (theme : Theme) (cs : List Capture) (range : ByteRange) (text : StyledText) :
    Checked (List Token × StyledText) := do
  let ts ← tokens theme cs range
  return (ts, ← applyTokens ts text)

/-- The bytes and the text of a line without its delimiter. -/
def lineInput (text : TextBuffer) (line : Line) : Outcome (ByteRange × StyledText) := do
  let range ← checked line.contentRange.toBytes?
  return (range, StyledText.plain (← text.substring line.contentRange))

end CodeEditor.Highlight

import CodeEditor.Decimal.Shortest
import CodeEditor.Document.Basic

/-!
A document in one line of text, for logs.
-/

namespace CodeEditor

/-- Sizes are written positionally from 0.0001 up to 10 ^ 16. -/
def sizeLayout : Decimal.Layout := ⟨-4, 16⟩

/-- The settings in one line. -/
def DocumentConfig.describe (c : DocumentConfig) : String :=
  s!"DocumentConfig \x7b tab_length: {c.tabLength}, max_undo: {c.maxUndo}, " ++
    s!"estimated_line_height: {sizeLayout.float c.estimatedLineHeight} \x7d"

/-- The length, the number of lines and the settings in one line. -/
def Document.describe {μ : Type} (d : Document μ) : String :=
  s!"Document \x7b length: {d.buffer.length}, line_count: {d.index.lineCount}, " ++
    s!"config: {d.config.describe}, .. \x7d"

end CodeEditor

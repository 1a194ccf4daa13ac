import CodeEditor.Document.Edit
import CodeEditor.Line.Index
import CodeEditor.Line.Indent

/-!
What a document asks of its syntax.

A document hands every edit to its *language mode* and adds the lines that the mode reports to those
that the edit touched. `LanguageMode μ` says what a type `μ` of modes has to offer; `PlainText` is
the mode without any syntax.
-/

namespace CodeEditor

/-- A node of the syntax, for those who do not know the parser. -/
structure SyntaxNode where
  kind : String
  start : LinePosition
  stop : LinePosition
deriving DecidableEq

/-- A type of language modes. -/
class LanguageMode (μ : Type) where
  /-- Parse the whole text anew. -/
  parse : μ → TextBuffer → μ
  /-- Follow an edit that the text and the lines already have, and report the lines whose syntax
  changed. -/
  applyEdit : μ → TextEdit → TextBuffer → LineIndex → LineChanges × μ
  /-- The syntax is known. -/
  canHighlight : μ → Bool
  /-- How to go on after a line break put in place of the text between two positions. -/
  lineBreak : μ → TextBuffer → LineIndex → LinePosition → LinePosition → IndentStrategy →
    Checked LineBreakIndent
  /-- The innermost node at a position. -/
  nodeAt : μ → LinePosition → Checked (Option SyntaxNode)
  /-- How the document is indented. -/
  detectIndent : μ → TextBuffer → LineIndex → DetectedIndent

/-- The level that a line of a given row is indented by, 0 when there is no such row. -/
def Indent.levelOfRow (text : TextBuffer) (index : LineIndex) (row tabLength : Nat) : Checked Nat :=
  match (index.lineAtRow row : Outcome Line) with
  | .ok line => Indent.level text line tabLength
  | .error _ => some 0

/-- The mode without syntax. -/
structure PlainText where
deriving DecidableEq, Inhabited

instance : LanguageMode PlainText where
  parse mode _ := mode
  applyEdit mode _ _ _ := (.none, mode)
  canHighlight _ := false
  lineBreak _ text index start _ strategy := do
    let level ← Indent.levelOfRow text index start.row strategy.tabLength
    return ⟨level, false⟩
  nodeAt _ _ := some none
  detectIndent _ _ _ := .unknown

end CodeEditor

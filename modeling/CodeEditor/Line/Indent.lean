import CodeEditor.Line.Index

/-!
The indentation of lines.

A line is indented by the spaces and tabs it starts with. Its width counts a tab as a number of
columns, its level is the width in units of that number.
-/

namespace CodeEditor

/-- How a document indents: with tabs shown `length` columns wide, or with `length` spaces for each
level. -/
inductive IndentStrategy where
  | tab (length : Nat)
  | space (length : Nat)
deriving DecidableEq

namespace IndentStrategy

/-- Two spaces. -/
def standard : IndentStrategy := .space 2

/-- The columns of one level. -/
def tabLength : IndentStrategy → Nat
  | .tab length | .space length => length

/-- No text is this long. -/
def textLimit : Nat := wordLimit / 2

/-- A character repeated, unless the text would be too long. -/
def repeated (c : Char) (n : Nat) : Checked String :=
  if n < textLimit then some (String.ofList (List.replicate n c)) else none

/-- The text that indents by a number of levels. -/
def indentString : IndentStrategy → Nat → Checked String
  | .tab _, level => repeated '\t' level
  | .space length, level => (Checked.mul length level).bind (repeated ' ')

end IndentStrategy

/-- What the lines of a document say about its indentation. -/
inductive DetectedIndent where
  | tab
  | space (length : Nat)
  | unknown
deriving DecidableEq

/-- How to go on after a line break: the level of the new line, and whether a second line break
should follow, so that the caret stands on a line of its own between two brackets. -/
structure LineBreakIndent where
  level : Nat
  extraLineBreak : Bool
deriving DecidableEq

namespace Indent

/-- The code unit of a space. -/
def space : UInt16 := 0x20

/-- The code unit of a tab. -/
def tab : UInt16 := 0x09

/-- The code units of a line without its delimiter. -/
def contentUnits (text : TextBuffer) (line : Line) : List UInt16 :=
  text.chunk line.location line.contentLength

/-- The columns of the spaces and tabs that a sequence starts with, after `width` columns. -/
def widthFrom (tabLength : Nat) : Nat → List UInt16 → Checked Nat
  | width, [] => some width
  | width, u :: rest =>
      if u = space then do widthFrom tabLength (← Checked.add width 1) rest
      else if u = tab then do widthFrom tabLength (← Checked.add width tabLength) rest
      else some width

/-- The columns that a line is indented by. -/
def width (text : TextBuffer) (line : Line) (tabLength : Nat) : Checked Nat :=
  widthFrom tabLength 0 (contentUnits text line)

/-- The level that a line is indented by. There are no levels of no columns. -/
def level (text : TextBuffer) (line : Line) (tabLength : Nat) : Checked Nat :=
  if tabLength = 0 then some 0 else (width text line tabLength).map (· / tabLength)

/-- The number of spaces that a line starts with, at most `limit`. -/
def leadingSpaces (text : TextBuffer) (line : Line) (limit : Nat) : Nat :=
  (((contentUnits text line).take limit).takeWhile (· = space)).length

/-- The line starts with a tab. -/
def startsWithTab (text : TextBuffer) (line : Line) : Bool :=
  (contentUnits text line).head? = some tab

/-- The line starts with a space. -/
def startsWithSpace (text : TextBuffer) (line : Line) : Bool :=
  (contentUnits text line).head? = some space

end Indent

end CodeEditor

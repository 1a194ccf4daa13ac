import CodeEditor.Text.Units
import CodeEditor.Text.Range

/-!
Line delimiters.

A line ends in LF, in CR, or in CR directly followed by LF, which together are one delimiter.
`delimiters` finds them in a text and `lineLengths` cuts the text behind each of them.
-/

namespace CodeEditor

/-- A line delimiter. -/
inductive LineEnding where
  | lf
  | cr
  | crlf
deriving DecidableEq, Repr

namespace LineEnding

/-- All delimiters. Among equally frequent ones the earlier is preferred. -/
def all : List LineEnding := [.lf, .cr, .crlf]

/-- The text of a delimiter. -/
def symbol : LineEnding → String
  | .lf => "\n"
  | .cr => "\r"
  | .crlf => "\r\n"

/-- The delimiter with a given text. -/
def ofSymbol? (symbol : String) : Option LineEnding :=
  all.find? fun ending => ending.symbol = symbol

/-- The number of code units of a delimiter. -/
def length : LineEnding → Nat
  | .lf | .cr => 1
  | .crlf => 2

end LineEnding

/-- The code unit of LF. -/
def lineFeed : UInt16 := 0x0A

/-- The code unit of CR. -/
def carriageReturn : UInt16 := 0x0D

/-- The ranges of the delimiters of a text that starts at an offset. -/
def delimitersFrom : Nat → List Char → List TextRange
  | _, [] => []
  | offset, '\r' :: '\n' :: rest => ⟨offset, 2⟩ :: delimitersFrom (offset + 2) rest
  | offset, c :: rest =>
      if c = '\r' ∨ c = '\n' then ⟨offset, 1⟩ :: delimitersFrom (offset + 1) rest
      else delimitersFrom (offset + Utf16.width c) rest

/-- The ranges of the delimiters of a text. -/
def delimiters (cs : List Char) : List TextRange := delimitersFrom 0 cs

/-- The content length and the delimiter length of every line of a text. Only the last line has no
delimiter, and it may be empty. -/
def lineLengths (cs : List Char) : List (Nat × Nat) :=
  let rec go (start : Nat) : List TextRange → List (Nat × Nat)
    | [] => [(Utf16.length cs - start, 0)]
    | d :: rest => (d.location - start, d.length) :: go (d.location + d.length) rest
  go 0 (delimiters cs)

/-- The contents of the lines of a text, without their delimiters. -/
def lineTexts (cs : List Char) : List (List Char) :=
  let rec go : List Char → List Char → List (List Char)
    | [], line => [line.reverse]
    | '\r' :: '\n' :: rest, line => line.reverse :: go rest []
    | c :: rest, line =>
        if c = '\r' ∨ c = '\n' then line.reverse :: go rest [] else go rest (c :: line)
  go cs []

end CodeEditor

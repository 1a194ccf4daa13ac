import CodeEditor.Text.Range
import CodeEditor.Line.Position

/-!
The description of one edit, as the syntax of a document sees it.

An edit replaces a range of bytes by a number of others. `mapByte` and `mapRange` carry what was
known about the text before over to the text behind: bytes in front of the edit stay, bytes behind
it shift by the difference of the sizes, and bytes within collapse to the end of what was inserted.
-/

namespace CodeEditor

/-- One replacement in the text, in bytes and in rows and columns. -/
structure TextEdit where
  /-- The bytes replaced, in the text before. -/
  byteRange : ByteRange
  /-- The number of bytes put in their place. -/
  bytesAdded : Nat
  /-- Where the edit starts. -/
  start : LinePosition
  /-- Where the replaced text ended. -/
  oldEnd : LinePosition
  /-- Where the inserted text ends. -/
  newEnd : LinePosition
deriving DecidableEq

namespace TextEdit

def startByte (e : TextEdit) : Nat := e.byteRange.location

def bytesRemoved (e : TextEdit) : Nat := e.byteRange.length

/-- The end of the replaced bytes in the text before. -/
def oldEndByte (e : TextEdit) : Checked Nat := e.byteRange.upperBound

/-- The end of the inserted bytes in the text behind. -/
def newEndByte (e : TextEdit) : Checked Nat := Checked.add e.byteRange.location e.bytesAdded

/-- Where a byte of the text before stands in the text behind. -/
def mapByte (e : TextEdit) (byte : Nat) : Checked Nat :=
  if byte ≤ e.startByte then some byte
  else do
    let oldEnd ← e.oldEndByte
    if oldEnd ≤ byte then Checked.sub (← Checked.add byte e.bytesAdded) e.bytesRemoved
    else e.newEndByte

/-- Where a range of the text before stands in the text behind. -/
def mapRange (e : TextEdit) (r : ByteRange) : Checked ByteRange := do
  let lower ← e.mapByte r.location
  let upper ← e.mapByte (← r.upperBound)
  return .ofBounds lower upper

end TextEdit

end CodeEditor

import CodeEditor.Failure
import CodeEditor.Text.Range
import CodeEditor.Text.Units

/-!
The text of a document, addressed in UTF-16 code units.

A buffer is its sequence of characters. An offset is a *boundary* when it does not split a surrogate
pair, and only ranges between boundaries can be read as text or replaced; single units, chunks and
bytes can be read anywhere.
-/

namespace CodeEditor

/-- The text of a document. -/
structure TextBuffer where
  chars : List Char
deriving DecidableEq, Inhabited

namespace TextBuffer

/-- The buffer that holds `text`. -/
def ofString (text : String) : TextBuffer := ⟨text.toList⟩

/-- The whole text. -/
def text (b : TextBuffer) : String := String.ofList b.chars

/-- The number of code units. -/
def length (b : TextBuffer) : Nat := Utf16.length b.chars

/-- The number of bytes. -/
def byteLength (b : TextBuffer) : Nat := b.length * bytesPerUnit

/-- The buffer holds no character. -/
def isEmpty (b : TextBuffer) : Bool := b.chars.isEmpty

/-- The offset lies between two characters, or at one of the ends. -/
def isBoundary (b : TextBuffer) (offset : Nat) : Bool :=
  offset ≤ b.length && Utf16.charOffset b.chars (Utf16.charIndex b.chars offset) = offset

/-- The code unit at an offset. -/
def unitAt (b : TextBuffer) (offset : Nat) : Option UInt16 :=
  if b.length ≤ offset then none
  else
    let place := Utf16.charIndex b.chars offset
    b.chars[place]?.bind fun c => (Utf16.units c)[offset - Utf16.charOffset b.chars place]?

/-- Up to `limit` code units from an offset on, which may lie inside a surrogate pair. -/
def chunk (b : TextBuffer) (offset limit : Nat) : List UInt16 :=
  if b.length ≤ offset ∨ limit = 0 then []
  else
    let place := Utf16.charIndex b.chars offset
    let skip := offset - Utf16.charOffset b.chars place
    (Utf16.collect limit (Utf16.encode (b.chars.drop place)) skip #[]).toList

/-- A range must end inside the buffer and both its bounds must be boundaries. The first condition
that fails is the one reported. -/
def checkRange (b : TextBuffer) (r : TextRange) : Outcome Unit := do
  let upper ← checked r.upperBound
  let length := b.length
  if length < upper then reject (.rangeOutOfBounds r.location r.length length)
  else
    [r.location, upper].forM fun offset =>
      if b.isBoundary offset then pure () else reject (.notCharBoundary offset)

/-- The places of the first character of a range and of the first one behind it. -/
def charRange (b : TextBuffer) (r : TextRange) : Checked (Nat × Nat) := do
  let upper ← r.upperBound
  return (Utf16.charIndex b.chars r.location, Utf16.charIndex b.chars upper)

/-- The text of a range. -/
def substring (b : TextBuffer) (r : TextRange) : Outcome String := do
  b.checkRange r
  let (start, stop) ← checked (b.charRange r)
  return String.ofList ((b.chars.take stop).drop start)

/-- The buffer with a range replaced. -/
def replace (b : TextBuffer) (r : TextRange) (text : String) : Outcome TextBuffer := do
  b.checkRange r
  let (start, stop) ← checked (b.charRange r)
  let kept := if start < stop then b.chars.take start ++ b.chars.drop stop else b.chars
  return ⟨if text ≠ "" then kept.take start ++ text.toList ++ kept.drop start else kept⟩

/-- The two bytes of a code unit, low byte first. -/
def unitBytes (u : UInt16) : List UInt8 :=
  [UInt8.ofNat (u.toNat % 256), UInt8.ofNat (u.toNat / 256)]

/-- The bytes of a range, if it lies inside the buffer and covers whole code units. -/
def bytes (b : TextBuffer) (r : ByteRange) : Checked (Option (List UInt8)) :=
  if r.location % bytesPerUnit ≠ 0 ∨ r.length % bytesPerUnit ≠ 0 then some none
  else do
    let range := r.toText
    let upper ← range.upperBound
    if b.length < upper then return none
    else return some ((b.chunk range.location range.length).flatMap unitBytes)

end TextBuffer

end CodeEditor

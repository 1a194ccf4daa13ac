import CodeEditor.Checked

/-!
Ranges of text.

A `TextRange` counts UTF-16 code units, a `ByteRange` the bytes of the same text in UTF-16, two for
each code unit. Both are closed-open and given by a location and a length, so their upper bound may
leave the machine word; whatever reads the bound is checked.
-/

namespace CodeEditor

/-- The number of bytes in one UTF-16 code unit. -/
def bytesPerUnit : Nat := 2

/-- The number of bytes that hold `units` code units. -/
def bytesOfUnits (units : Nat) : Checked Nat :=
  Checked.mul units bytesPerUnit

/-- The number of code units that `bytes` bytes hold. -/
def unitsOfBytes (bytes : Nat) : Nat :=
  bytes / bytesPerUnit

/-- A range of UTF-16 code units. -/
structure TextRange where
  location : Nat
  length : Nat
deriving DecidableEq, Repr, Inhabited

/-- A range of bytes. -/
structure ByteRange where
  location : Nat
  length : Nat
deriving DecidableEq, Repr, Inhabited

namespace TextRange

/-- The range from `lower` up to `upper`, empty when `upper` lies below `lower`. -/
def ofBounds (lower upper : Nat) : TextRange := ⟨lower, upper - lower⟩

/-- The exclusive end. -/
def upperBound (r : TextRange) : Checked Nat := Checked.add r.location r.length

/-- The range covers no code unit. -/
def isEmpty (r : TextRange) : Bool := r.length == 0

/-- An offset lies in the range. The upper bound is read only for offsets from the location on. -/
def contains (r : TextRange) (offset : Nat) : Checked Bool :=
  if r.location ≤ offset then r.upperBound.map fun upper => decide (offset < upper)
  else some false

/-- The same range in bytes. -/
def toBytes (r : TextRange) : ByteRange :=
  ⟨r.location * bytesPerUnit, r.length * bytesPerUnit⟩

/-- The same range in bytes, if it can be counted in bytes. -/
def toBytes? (r : TextRange) : Checked ByteRange := do
  let location ← bytesOfUnits r.location
  let length ← bytesOfUnits r.length
  return ⟨location, length⟩

theorem upperBound_eq {r : TextRange} (word : r.location + r.length < wordLimit) :
    r.upperBound = some (r.location + r.length) :=
  Checked.add_eq_some_iff.mpr ⟨rfl, word⟩

theorem contains_iff {r : TextRange} {offset : Nat} (word : r.location + r.length < wordLimit) :
    r.contains offset = some true ↔ r.location ≤ offset ∧ offset < r.location + r.length := by
  rw [contains, upperBound_eq word]
  by_cases low : r.location ≤ offset <;> simp [low]

end TextRange

namespace ByteRange

/-- The range from `lower` up to `upper`, empty when `upper` lies below `lower`. -/
def ofBounds (lower upper : Nat) : ByteRange := ⟨lower, upper - lower⟩

/-- The exclusive end. -/
def upperBound (r : ByteRange) : Checked Nat := Checked.add r.location r.length

/-- The range covers no byte. -/
def isEmpty (r : ByteRange) : Bool := r.length == 0

/-- A byte lies in the range. The upper bound is read only for offsets from the location on. -/
def contains (r : ByteRange) (byte : Nat) : Checked Bool :=
  if r.location ≤ byte then r.upperBound.map fun upper => decide (byte < upper)
  else some false

/-- Two ranges share a byte. An empty range overlaps a range that has it strictly inside, and
another empty range at the same place; touching at a bound is not overlapping. -/
def overlaps (r other : ByteRange) : Checked Bool :=
  if r.isEmpty && other.isEmpty then some (r.location == other.location)
  else if r.isEmpty then
    if other.location < r.location then
      other.upperBound.map fun upper => decide (r.location < upper)
    else some false
  else if other.isEmpty then
    if r.location < other.location then
      r.upperBound.map fun upper => decide (other.location < upper)
    else some false
  else do
    let otherUpper ← other.upperBound
    if r.location < otherUpper then r.upperBound.map fun upper => decide (other.location < upper)
    else some false

/-- The same range in code units. -/
def toText (r : ByteRange) : TextRange :=
  ⟨unitsOfBytes r.location, unitsOfBytes r.length⟩

/-- The start and the exclusive end. -/
def bounds (r : ByteRange) : Checked (Nat × Nat) :=
  r.upperBound.map fun upper => (r.location, upper)

end ByteRange

end CodeEditor

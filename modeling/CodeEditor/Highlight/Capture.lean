import CodeEditor.Text.Range

/-!
Named pieces of a text for highlighting.

Captures are applied one over the other. `Capture.le` is the order in which this is done: by start,
then the longer one first, then the one whose name has fewer components.
-/

namespace CodeEditor.Highlight

/-- A named piece of a text. -/
structure Capture where
  name : String
  byteRange : ByteRange
  /-- The kind of the node it is. -/
  nodeKind : String := ""
  /-- The properties of the pattern that found it, by name. -/
  properties : List (String × String) := []
deriving DecidableEq

namespace Capture

/-- The number of components of the name. They are divided by dots. -/
def components (c : Capture) : Nat := c.name.toList.count '.' + 1

/-- The order in which two captures are applied. -/
def compare (a b : Capture) : Ordering :=
  (Ord.compare a.byteRange.location b.byteRange.location).then
    ((Ord.compare b.byteRange.length a.byteRange.length).then
      (Ord.compare a.components b.components))

/-- The first capture is not applied behind the second. -/
def le (a b : Capture) : Bool := a.compare b != .gt

/-- Captures in the order in which they are applied. Equal ones keep their order. -/
def sort (cs : List Capture) : List Capture := cs.mergeSort le

end Capture

end CodeEditor.Highlight

/-!
Positions given by row and column.
-/

namespace CodeEditor

/-- A row and a column in UTF-16 code units, both counted from zero. -/
structure LinePosition where
  row : Nat
  column : Nat
deriving DecidableEq, Repr, Inhabited

namespace LinePosition

/-- Positions in reading order. -/
def le (p q : LinePosition) : Bool :=
  p.row < q.row || (p.row == q.row && p.column ≤ q.column)

end LinePosition

end CodeEditor

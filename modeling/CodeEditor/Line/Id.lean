/-!
The identity of a line.

Lines live in numbered slots, and a slot is used again once its line is gone. Each use has a
generation of its own, so an identity names one line for ever.
-/

namespace CodeEditor

/-- The identity of a line: a slot and the generation of the slot's use. -/
structure LineId where
  slot : Nat
  generation : UInt32
deriving DecidableEq, Hashable, Inhabited

end CodeEditor

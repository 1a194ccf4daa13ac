/-!
Arithmetic on machine words.

Lengths and offsets are natural numbers below `wordLimit`. An operation whose result would leave
that range has no value, so every place that may overflow says so in its type.
-/

namespace CodeEditor

/-- Every length and offset lies below this bound, the 64th power of two. -/
def wordLimit : Nat := 0x10000000000000000

/-- A value, or nothing when the arithmetic leading to it leaves the machine word. -/
abbrev Checked (α : Type) : Type := Option α

namespace Checked

/-- The sum, unless it reaches `wordLimit`. -/
def add (a b : Nat) : Checked Nat :=
  if a + b < wordLimit then some (a + b) else none

/-- The difference, unless it is negative. -/
def sub (a b : Nat) : Checked Nat :=
  if b ≤ a then some (a - b) else none

/-- The product, unless it reaches `wordLimit`. -/
def mul (a b : Nat) : Checked Nat :=
  if a * b < wordLimit then some (a * b) else none

theorem add_eq_some_iff {a b c : Nat} : add a b = some c ↔ a + b = c ∧ c < wordLimit := by
  unfold add
  split <;> simp <;> omega

theorem add_eq_none_iff {a b : Nat} : add a b = none ↔ wordLimit ≤ a + b := by
  unfold add
  split <;> simp <;> omega

theorem sub_eq_some_iff {a b c : Nat} : sub a b = some c ↔ a = b + c := by
  unfold sub
  split <;> simp <;> omega

theorem mul_eq_some_iff {a b c : Nat} : mul a b = some c ↔ a * b = c ∧ c < wordLimit := by
  unfold mul
  split
  · next h => simp only [Option.some.injEq]; exact ⟨fun e => ⟨e, e ▸ h⟩, fun e => e.1⟩
  · next h => simp only [reduceCtorEq, false_iff]; rintro ⟨rfl, h'⟩; exact h h'

end Checked

end CodeEditor

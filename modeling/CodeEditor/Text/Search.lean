/-!
Finding pieces of a text.

What a pattern finds is the business of the engine that reads it. A pattern that has been read is a
`Searcher`, a function from a text and a place to the first piece found from there on, and an engine
is what makes searchers of written patterns. Nothing is said here about how patterns are written.
-/

namespace CodeEditor

/-- A piece of a text, from `start` up to `stop`, counted in characters. -/
structure Span where
  start : Nat
  stop : Nat
deriving DecidableEq, Repr, Inhabited

/-- A found piece and the pieces remembered on the way, the latest first. -/
structure Match where
  span : Span
  groups : List (Nat × Span)
deriving DecidableEq

/-- The piece remembered under a number. Number zero is the whole. -/
def Match.group? (m : Match) (number : Nat) : Option Span :=
  if number = 0 then some m.span else m.groups.lookup number

/-- A pattern that has been read: what it finds first in a text from a place on. -/
abbrev Searcher : Type := Array Char → Nat → Option Match

/-- What reads patterns. One that is not well written is refused with a message. -/
abbrev PatternEngine : Type := String → Except String Searcher

/-- What reads patterns that are only asked whether a text holds a piece they describe. -/
abbrev RegexEngine : Type := String → Option (String → Bool)

/-- A piece lies in a text of some length. -/
structure Span.Within (length : Nat) (s : Span) : Prop where
  start_le : s.start ≤ s.stop
  stop_le : s.stop ≤ length

/-- A found piece and all pieces remembered on the way lie in a text. -/
structure Match.Within (length : Nat) (m : Match) : Prop where
  span : m.span.Within length
  groups : ∀ entry ∈ m.groups, entry.2.Within length

theorem Match.Within.group {length number : Nat} {m : Match} {span : Span}
    (within : m.Within length) (found : m.group? number = some span) : span.Within length := by
  rw [group?] at found
  split at found
  · cases found
    exact within.span
  · obtain ⟨before, after, split, -⟩ := List.lookup_eq_some_iff.mp found
    exact within.groups (number, span) (by simp [split])

/-- Searches stay inside the text, and find nothing that starts before their place. -/
def Searcher.StaysInside (s : Searcher) : Prop :=
  ∀ ⦃text : Array Char⦄ ⦃position : Nat⦄ ⦃m : Match⦄, s text position = some m →
    position ≤ m.span.start ∧ m.Within text.size

/-- All searchers that an engine makes stay inside the text. -/
def PatternEngine.StaysInside (engine : PatternEngine) : Prop :=
  ∀ ⦃written : String⦄ ⦃s : Searcher⦄, engine written = .ok s → s.StaysInside

/-- No search finds an empty piece. -/
def Searcher.Consumes (s : Searcher) : Prop :=
  ∀ text position m, s text position = some m → m.span.start < m.span.stop

end CodeEditor

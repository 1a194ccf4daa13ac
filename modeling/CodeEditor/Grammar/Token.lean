import CodeEditor.Grammar.Rule
import CodeEditor.Text.Range
import CodeEditor.Text.Search
import CodeEditor.Text.Units

/-!
The named pieces of a line.

A line is marked with scopes in the order in which its rules are found to apply. `tokensOf` sorts
the marks: those that start earlier come first, then the longer ones, then those of whole regions,
and otherwise their order stays. Styled in this order, an inner piece overrides the one around it.
-/

namespace CodeEditor.Grammar

/-- A named piece of a line. -/
structure Token where
  scope : String
  /-- Where it lies in the line, in code units. -/
  range : TextRange
  contents : String
deriving DecidableEq

/-- A scope for a piece of a line, counted in characters. -/
structure Mark where
  scope : String
  span : Span
  /-- The piece is a region, its opening and closing included. -/
  isRegion : Bool
deriving DecidableEq

namespace Mark

/-- The token of a mark. -/
def token (line : Array Char) (m : Mark) : Token :=
  let contents := (line.extract m.span.start m.span.stop).toList
  { scope := m.scope
    range := ⟨Utf16.length (line.extract 0 m.span.start).toList, Utf16.length contents⟩
    contents := String.ofList contents }

/-- The marks of remembered pieces, in the order of their numbers. -/
def ofCaptures (m : Match) (scopes : CaptureScopes) : List Mark :=
  scopes.entries.filterMap fun (number, scope) =>
    (m.group? number).map fun span => ⟨scope, span, false⟩

end Mark

/-- The order of tokens: by start, then the longer one, then regions. -/
def tokenLe (a b : Bool × Token) : Bool :=
  let s := a.2.range
  let t := b.2.range
  s.location < t.location ||
    (s.location == t.location &&
      (t.length < s.length || (s.length == t.length && (a.1 || !b.1))))

/-- The tokens of the marks of a line. Marks of nothing are dropped. -/
def tokensOf (line : Array Char) (marks : List Mark) : List Token :=
  let tokens := (marks.filter fun m => m.span.start < m.span.stop).map fun m =>
    (m.isRegion, m.token line)
  (tokens.mergeSort tokenLe).map (·.2)

end CodeEditor.Grammar

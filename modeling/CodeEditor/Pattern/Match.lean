import CodeEditor.Pattern.Reader
import CodeEditor.Text.Search

/-!
Finding a pattern in a text.

In the small engine a pattern is tried from left to right and its choices in order of preference.
What follows a choice is part of trying it: when the rest fails, the next choice is taken. A piece
that is repeated at will is not tried again behind an empty one, so trying always ends.
`Pattern.search` tries one place after the other and stops at the first that succeeds; the text
before the place is visible to anchors.
-/

namespace CodeEditor

namespace Pattern

/-- How far trying has come. -/
structure Progress where
  position : Nat
  groups : List (Nat × Span)

/-- What is tried from some progress on. -/
abbrev Trial : Type := Progress → Option Progress

/-- A trial that goes on with another. -/
abbrev Step : Type := Progress → Trial → Option Progress

/-- A fixed number of pieces. -/
def times (body : Step) : Nat → Step
  | 0, p, rest => rest p
  | n + 1, p, rest => body p fun q => times body n q rest

/-- Up to a number of pieces. Behind an empty piece the rest is tried at once. -/
def upTo (body : Step) (greedy : Bool) : Nat → Step
  | 0, p, rest => rest p
  | n + 1, p, rest =>
      let more (_ : Unit) : Option Progress := body p fun q =>
        if q.position = p.position then rest q else upTo body greedy n q rest
      if greedy then (more ()).orElse fun _ => rest p else (rest p).orElse more

/-- A place is one of those that an anchor names. -/
def holdsAt (text : Array Char) (position : Nat) (anchor : Anchor) : Bool :=
  let before := if position = 0 then none else text[position - 1]?
  let behind := text[position]?
  let isBoundary := before.any CharClass.isWord != behind.any CharClass.isWord
  match anchor with
  | .textStart => position = 0
  | .textEnd => behind = none
  | .lineStart => position = 0 || (before = some '\n' && behind ≠ none)
  | .lineEnd => behind = some '\n' || (behind = none && before ≠ some '\n')
  | .wordBoundary => isBoundary
  | .notWordBoundary => !isBoundary

/-- Try a pattern. -/
def run (text : Array Char) : Pattern → Step
  | .empty, p, rest => rest p
  | .char set, p, rest =>
      match text[p.position]? with
      | some c => if set.mem c then rest { p with position := p.position + 1 } else none
      | none => none
  | .anchor a, p, rest => if holdsAt text p.position a then rest p else none
  | .seq first second, p, rest => run text first p fun q => run text second q rest
  | .either first second, p, rest => (run text first p rest).orElse fun _ => run text second p rest
  | .repeated body least most greedy, p, rest =>
      let body := run text body
      times body least p fun q =>
        upTo body greedy ((most.map (· - least)).getD (text.size + 1)) q rest
  | .group number body, p, rest =>
      run text body p fun q =>
        rest { q with groups := (number, ⟨p.position, q.position⟩) :: q.groups }
  | .ahead negated body, p, rest =>
      match negated, run text body p some with
      | false, some q => rest { p with groups := q.groups }
      | true, none => rest p
      | _, _ => none

/-- The piece found at a place. -/
def matchAt (pattern : Pattern) (text : Array Char) (position : Nat) : Option Match :=
  (run text pattern ⟨position, []⟩ some).map fun p => ⟨⟨position, p.position⟩, p.groups⟩

/-- The first piece found from a place on. -/
def search (pattern : Pattern) (text : Array Char) (position : Nat) : Option Match :=
  (List.range' position (text.size + 1 - position)).findSome? (matchAt pattern text)

/-- The pattern describes a piece of a text. -/
def isFoundIn (pattern : Pattern) (text : String) : Bool :=
  (search pattern text.toList.toArray 0).isSome

/-- Patterns in grammars may look ahead, are read leniently and work line by line. -/
def grammarDialect : Dialect := { lookAhead := true, lenient := true, byLine := true }

/-- Patterns in queries cannot look ahead, are read strictly and see the text as one line. -/
def queryDialect : Dialect := { lookAhead := false, lenient := false, byLine := false }

/-- The engine of a dialect. -/
def engine (d : Dialect) : PatternEngine := fun text =>
  match ofString? d text with
  | some pattern => .ok pattern.search
  | none => .error "not a pattern"

/-- The engine of a dialect, where only is asked whether a pattern describes a piece of a text. -/
def recognizer (d : Dialect) : RegexEngine := fun text => (ofString? d text).map isFoundIn

end Pattern

end CodeEditor

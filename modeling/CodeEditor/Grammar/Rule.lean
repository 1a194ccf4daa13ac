/-!
Highlighting grammars, as they are written.

A grammar names the pieces of a text by rules. A *phrase* is a pattern within a line. A *region*
reaches from an opening to a closing pattern, maybe lines later, and has rules of its own. A
*reference* stands for a rule of the repository, a *group* for several rules.
-/

namespace CodeEditor.Grammar

/-- The scopes of remembered pieces, in the order of their numbers. -/
structure CaptureScopes where
  entries : List (Nat × String)
deriving Inhabited, DecidableEq

namespace CaptureScopes

def empty : CaptureScopes := ⟨[]⟩

/-- Give a number a scope, in place of the one it may have. -/
def insert (s : CaptureScopes) (number : Nat) (scope : String) : CaptureScopes :=
  ⟨s.entries.filter (·.1 < number) ++ (number, scope) :: s.entries.filter (number < ·.1)⟩

/-- All scopes of both. Where both have one, the second counts. -/
def override (s t : CaptureScopes) : CaptureScopes :=
  t.entries.foldl (fun s (number, scope) => s.insert number scope) s

end CaptureScopes

/-- A rule of a grammar. -/
inductive Rule where
  /-- What a pattern finds within a line. -/
  | phrase (scope pattern : String) (captures : CaptureScopes)
  /-- What lies between two patterns, both included. -/
  | region (scope : Option String) (opening closing : String) (members : List Rule)
      (openingCaptures closingCaptures : CaptureScopes)
  /-- The rule that a text refers to. -/
  | reference (target : String)
  /-- Some rules in order. -/
  | group (members : List Rule)
deriving Inhabited

/-- A grammar. The rules of the repository stand in the order of their names. -/
structure Definition where
  name : String
  /-- The scope of the whole text. -/
  scopeName : String
  patterns : List Rule
  repository : List (String × Rule)

/-- Why a grammar cannot be used on a text. -/
inductive Error where
  /-- The grammar is not written as one. -/
  | malformed
  /-- A pattern is not well written, and what the engine says of it. -/
  | badPattern (pattern message : String)
  /-- A reference leads nowhere. -/
  | unknownRule (name : String)
  /-- A reference to the whole grammar. -/
  | selfReference
  /-- A reference to another grammar. -/
  | foreignReference
  /-- References and groups that lead back to themselves. -/
  | cyclicReference
  /-- A line that takes too many steps. -/
  | tooManySteps
  /-- An open region whose rule is no region. -/
  | notRegion
  /-- A rule of another grammar. -/
  | foreignRule
deriving DecidableEq

/-- The text shown for an error. -/
def Error.message : Error → String
  | .malformed => "grammar cannot be read"
  | .badPattern pattern message => s!"regex compile error for pattern '{pattern}': {message}"
  | .unknownRule name => s!"unknown rule '{name}'"
  | .selfReference => "unsupported feature: including the grammar itself ($self)"
  | .foreignReference => "unsupported feature: including another grammar"
  | .cyclicReference => "unsupported feature: include cycle detected while expanding rules"
  | .tooManySteps =>
      "unsupported feature: tokenizing exceeded iteration limit (possible zero-width loop)"
  | .notRegion => "unsupported feature: rule stack holds a non begin/end rule"
  | .foreignRule => "unsupported feature: rule id from another grammar"

end CodeEditor.Grammar

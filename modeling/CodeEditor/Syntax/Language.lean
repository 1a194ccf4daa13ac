import CodeEditor.Query.Match
import CodeEditor.Syntax.Error
import CodeEditor.Text.CharClass

/-!
Languages.

A language has a name, queries for highlighting and for the parts of a text that are written in
other languages, and the kinds of nodes that indent. A registry finds languages by their names.
Languages are told apart by a number, as two of them may have the same name.
-/

namespace CodeEditor.Syntax

/-- The kinds of nodes that indent the lines in them. -/
structure IndentScopes where
  /-- Lines in these nodes are indented one level more. -/
  indent : List String := []
  /-- Lines in these nodes go on with the indentation of the first. -/
  inherit : List String := []
  /-- These nodes end a level. -/
  outdent : List String := []
  /-- Blocks are made by indentation alone. -/
  blankBlocks : Bool := false
deriving DecidableEq

namespace IndentScopes

/-- A line break behind the start of such a node opens a level. -/
def opens (s : IndentScopes) (kind : String) : Bool :=
  s.indent.contains kind || s.inherit.contains kind

/-- Such a node closes a level. -/
def closes (s : IndentScopes) (kind : String) : Bool := s.outdent.contains kind

end IndentScopes

/-- A language. -/
structure Language where
  id : Nat
  name : String
  highlights : Option Query
  injections : Option Query
  scopes : Option IndentScopes

/-- The query that a text writes. A blank text writes none. -/
def optionalQuery (compiler : QueryCompiler) (regex : RegexEngine) (text : String) :
    Except Error (Option Query) :=
  if (CharClass.trim text.toList).isEmpty then .ok none
  else match compiler text with
    | .ok c => .ok (some (.ofCompiled regex c))
    | .error message => .error (.query message)

/-- The language with some queries, whose compiler is that of its grammar. -/
def Language.define (compiler : QueryCompiler) (regex : RegexEngine) (id : Nat)
    (name highlights injections : String) (scopes : Option IndentScopes) : Except Error Language :=
  return {
    id, name, scopes
    highlights := ← optionalQuery compiler regex highlights
    injections := ← optionalQuery compiler regex injections }

/-- The query for highlighting in one line. -/
def Language.describeHighlights (l : Language) : String :=
  match l.highlights with
  | some q => s!"Some({q.describe})"
  | none => "None"

/-- Languages by name. The one registered last stands first. -/
structure Registry where
  entries : List (String × Language) := []

namespace Registry

/-- Register a language under a name. It takes the place of an earlier one. -/
def register (r : Registry) (name : String) (language : Language) : Registry :=
  ⟨(name, language) :: r.entries.filter (·.1 ≠ name)⟩

/-- The language with a name. -/
def language? (r : Registry) (name : String) : Option Language := r.entries.lookup name

/-- The number of names. -/
def size (r : Registry) : Nat := r.entries.length

end Registry

end CodeEditor.Syntax

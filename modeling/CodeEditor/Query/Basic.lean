import CodeEditor.Query.Predicate
import CodeEditor.Syntax.Node

/-!
Queries on syntax trees.

How queries are written, and what they find in a tree, is the business of the library that compiles
them. A `CompiledQuery` is what it hands out: the names of the captures, what is said of each
pattern beyond the nodes it describes, and the matches, which are all that is known of how it
searches. A `Query` adds the predicates on texts that the directives of the patterns state.
-/

namespace CodeEditor

open Syntax (Node Located)

namespace Query

/-- A match of a query. -/
structure QueryMatch where
  /-- The number of the pattern. -/
  pattern : Nat
  /-- The captured nodes with the numbers of their captures. -/
  captures : List (Nat × Located)

/-- What is said of a pattern of a query beyond the nodes it describes. -/
structure PatternNotes where
  /-- The directives that the library does not apply itself. -/
  directives : List Directive
  /-- The properties set on it, in order. A property may have no value. -/
  properties : List (String × Option String)

end Query

/-- A query as the library has compiled it. -/
structure CompiledQuery where
  /-- The names of the captures by number. -/
  captureNames : List String
  patterns : List Query.PatternNotes
  /-- The matches on a tree of a text, in order. They may be confined to a range. -/
  matchesIn : Node → TextBuffer → Option ByteRange → List Query.QueryMatch
  /-- What is captured are nodes of the tree. -/
  captured_at : ∀ tree text range, ∀ m ∈ matchesIn tree text range, ∀ capture ∈ m.captures,
    tree.nodeAt? capture.2.path = some capture.2.node

/-- What compiles the queries of a language. One that is not well written is refused with a
message. -/
abbrev QueryCompiler : Type := String → Except String CompiledQuery

/-- A query with its predicates on texts. -/
structure Query extends CompiledQuery where
  /-- The predicates of each pattern. -/
  predicates : List (List Query.TextPredicate)

namespace Query

/-- The query with the predicates that its directives state. -/
def ofCompiled (regex : RegexEngine) (c : CompiledQuery) : Query where
  toCompiledQuery := c
  predicates := c.patterns.map fun p => p.directives.map (.ofDirective regex)

/-- The predicates of a pattern. -/
def predicatesOf (q : Query) (pattern : Nat) : List TextPredicate :=
  (q.predicates[pattern]?).getD []

/-- The properties set on a pattern. -/
def propertiesOf (q : Query) (pattern : Nat) : List (String × Option String) :=
  ((q.patterns[pattern]?).map (·.properties)).getD []

/-- The value of a property of a pattern, as it is set first. -/
def property? (q : Query) (pattern : Nat) (key : String) : Option String :=
  ((q.propertiesOf pattern).lookup key).join

/-- The number of patterns and the names of the captures in one line. -/
def describe (q : Query) : String :=
  let names := ", ".intercalate (q.captureNames.map fun name => s!"\"{name}\"")
  s!"LanguageQuery \x7b pattern_count: {q.patterns.length}, capture_names: [{names}] \x7d"

end Query

end CodeEditor

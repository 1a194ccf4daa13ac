/-!
The kinds of nodes of a language.

A vocabulary says which kinds of nodes there are and which children each may have: a row of places,
each for one of some kinds, to be filled at most once or any number of times. `Vocabulary.admits`
tells whether nodes of some kinds can be children of a node in their order, other children between
them not excluded.
-/

namespace CodeEditor.Syntax

/-- The kind of a node, and whether it is named. -/
structure NodeKind where
  name : String
  named : Bool
deriving DecidableEq

/-- A place for children. -/
structure ChildPlace where
  kinds : List NodeKind
  /-- It may be filled more than once. -/
  many : Bool

/-- The kinds of nodes of a language, with the places for their children. -/
structure Vocabulary where
  shapes : List (NodeKind × List ChildPlace)

namespace Vocabulary

/-- There are nodes of a kind. -/
def has (v : Vocabulary) (kind : NodeKind) : Bool := v.shapes.any (·.1 = kind)

/-- Some kinds fit into some places in their order, each into the first place that takes it. -/
def fit : List NodeKind → List ChildPlace → Bool
  | [], _ => true
  | _ :: _, [] => false
  | kind :: rest, place :: places =>
      if kind ∈ place.kinds then
        fit rest (if place.many then place :: places else places)
      else fit (kind :: rest) places
termination_by kinds places => (kinds.length, places.length)

/-- Nodes of some kinds can be children of a node in their order. -/
def admits (v : Vocabulary) (parent : NodeKind) (children : List NodeKind) : Bool :=
  fit children ((v.shapes.lookup parent).getD [])

end Vocabulary

end CodeEditor.Syntax

import CodeEditor.Text.Search

/-!
Conditions on the text of captures.

A query may add directives to its patterns, such as `#eq? @a "x"`. Some are constraints, which the
query itself applies to every node of a capture. All others are predicates on the text of the first
node of a capture. A predicate holds or does not, and it does not hold when a capture has no text.
A directive that is neither is unsupported and has no answer; what depends on it fails.
-/

namespace CodeEditor.Query

/-- An argument of a directive. -/
inductive Argument where
  /-- A capture, by its number. -/
  | capture (index : Nat)
  | string (value : String)
deriving DecidableEq

/-- A directive of a query, by its name without the hash sign. -/
structure Directive where
  operator : String
  arguments : List Argument
deriving DecidableEq

/-- A condition on the texts of captures. Each can be negated. -/
inductive TextPredicate where
  | equalsString (capture : Nat) (value : String) (positive : Bool)
  | equalsCapture (left right : Nat) (positive : Bool)
  /-- The text holds a piece that a pattern describes, as its engine says. -/
  | fits (capture : Nat) (source : String) (isMatch : String → Bool) (positive : Bool)
  /-- The text holds one of some texts. -/
  | contains (capture : Nat) (values : List String) (positive : Bool)
  | unsupported (name : String)

/-- A text is part of another. -/
def isPartOf (part : List Char) : List Char → Bool
  | [] => part.isEmpty
  | c :: rest => part.isPrefixOf (c :: rest) || isPartOf part rest

namespace TextPredicate

/-- The name of a directive without the mark of its negation, and whether it has none. -/
def base (operator : String) : String × Bool :=
  match operator.toList with
  | 'n' :: 'o' :: 't' :: '-' :: rest => (String.ofList rest, false)
  | _ => (operator, true)

/-- The values of arguments that are no captures. -/
def strings? : List Argument → Option (List String)
  | [] => some []
  | .string value :: rest => (strings? rest).map (value :: ·)
  | .capture _ :: _ => none

/-- The predicate that a directive states. A pattern that the engine does not read states none. -/
def ofDirective (regex : RegexEngine) (d : Directive) : TextPredicate :=
  let (name, positive) := base d.operator
  let isMatch := name ∈ ["match?", "vim-match?", "lua-match?"]
  match d.arguments with
  | [.capture capture, .string value] =>
      if name = "eq?" then .equalsString capture value positive
      else if name = "contains?" then .contains capture [value] positive
      else if isMatch then
        match regex value with
        | some isMatch => .fits capture value isMatch positive
        | none => .unsupported d.operator
      else .unsupported d.operator
  | [.capture left, .capture right] =>
      if name = "eq?" then .equalsCapture left right positive else .unsupported d.operator
  | .capture capture :: values =>
      if name = "contains?" ∧ values ≠ [] then
        match strings? values with
        | some values => .contains capture values positive
        | none => .unsupported d.operator
      else .unsupported d.operator
  | _ => .unsupported d.operator

/-- Whether a predicate holds for the texts of some captures. -/
def evaluate (textOf : Nat → Option String) : TextPredicate → Option Bool
  | .equalsString capture value positive =>
      some ((textOf capture).any fun text => (text == value) == positive)
  | .equalsCapture left right positive =>
      some ((textOf left).any fun a => (textOf right).any fun b => (a == b) == positive)
  | .fits capture _ isMatch positive =>
      some ((textOf capture).any fun text => isMatch text == positive)
  | .contains capture values positive =>
      some ((textOf capture).any fun text =>
        (values.any fun value => isPartOf value.toList text.toList) == positive)
  | .unsupported _ => none

end TextPredicate

/-- The names of unsupported directives that were met, each once. -/
structure Reported where
  names : List String := []
deriving DecidableEq

namespace Reported

/-- Add a name. -/
def insert (r : Reported) (name : String) : Reported :=
  if name ∈ r.names then r else ⟨name :: r.names⟩

/-- The names of both. -/
def union (r s : Reported) : Reported := s.names.foldl insert r

/-- The names in order. -/
def sorted (r : Reported) : List String := r.names.mergeSort (· ≤ ·)

end Reported

/-- Whether all predicates hold. The first that does not ends the search; if it is unsupported, it
is reported. -/
def evaluateAll (textOf : Nat → Option String) : List TextPredicate → Reported → Bool × Reported
  | [], reported => (true, reported)
  | p :: rest, reported =>
      match p.evaluate textOf with
      | some true => evaluateAll textOf rest reported
      | some false => (false, reported)
      | none =>
          match p with
          | .unsupported name => (false, reported.insert name)
          | _ => (false, reported)

end CodeEditor.Query

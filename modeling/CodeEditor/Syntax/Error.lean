import CodeEditor.Failure

/-!
Why a language cannot be set up or a text cannot be parsed.
-/

namespace CodeEditor.Syntax

/-- What goes wrong between a text and its syntax. -/
inductive Error where
  /-- A language cannot be used. -/
  | language (message : String)
  /-- A query cannot be used. -/
  | query (message : String)
  /-- A place in the text does not exist. -/
  | edit (error : EditError)
  /-- The parser stopped before it was done. -/
  | aborted
deriving DecidableEq

/-- The text shown for an error. -/
def Error.message : Error → String
  | .language message => s!"tree-sitter language error: {message}"
  | .query message => s!"tree-sitter query error: {message}"
  | .edit error => s!"text buffer error: {error.message}"
  | .aborted => "tree-sitter parse aborted"

/-- The error of the text behind an error, if there is one. -/
def Error.source? : Error → Option EditError
  | .edit error => some error
  | _ => none

end CodeEditor.Syntax

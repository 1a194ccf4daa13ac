import CodeEditor.Mini.Query
import CodeEditor.Syntax.Vocabulary

/-!
Reading queries.

A query is written with parentheses. `(kind …)` describes a named node and its children, a text in
double quotes a node that stands for that text, and `@name` behind a description captures the node.
`(#name? …)` is a directive for the pattern in which it stands. Further parentheses around a
description and its directives hold them together. A semicolon starts a comment.

A query is refused if it is not well written, speaks of nodes or captures that do not exist,
describes nodes that cannot be, or has directives with wrong arguments.
-/

namespace CodeEditor.Mini

open Query (Argument Directive TextPredicate)
open Syntax (Vocabulary NodeKind)

/-- What stands between two parentheses, or in the whole query. -/
structure Piece where
  nodes : List NodePattern := []
  directives : List Directive := []
deriving Inhabited

namespace Piece

/-- Both pieces one after the other. -/
def append (a b : Piece) : Piece := ⟨a.nodes ++ b.nodes, a.directives ++ b.directives⟩

end Piece

/-- A text without white space and comments at its start. -/
def skipBlank : List Char → List Char
  | ';' :: rest => inComment rest
  | c :: rest => if CharClass.isWhiteSpace c then skipBlank rest else c :: rest
  | [] => []
where
  inComment : List Char → List Char
    | '\n' :: rest => skipBlank rest
    | _ :: rest => inComment rest
    | [] => []

/-- A name can start with this character. -/
def isNameStart (c : Char) : Bool := CharClass.isWord c || c = '-'

/-- A name can go on with this character. -/
def isNamePart (c : Char) : Bool := isNameStart c || c = '.'

/-- The name that a text starts with, and the rest. -/
def name? : List Char → Option (String × List Char)
  | [] => none
  | c :: rest =>
      if isNameStart c then
        some (String.ofList (c :: rest.takeWhile isNamePart), rest.dropWhile isNamePart)
      else none

/-- The text up to the closing quote, and the rest. -/
def quoted? : List Char → List Char → Option (String × List Char)
  | '"' :: rest, done => some (String.ofList done.reverse, rest)
  | '\\' :: c :: rest, done =>
      let escaped := ([('n', '\n'), ('r', '\r'), ('t', '\t'), ('0', '\x00')].lookup c).getD c
      quoted? rest (escaped :: done)
  | c :: rest, done => if c = '\n' then none else quoted? rest (c :: done)
  | [], _ => none

/-- What is read while the names of the captures are collected. -/
abbrev QueryReading (α : Type) : Type := StateT (List String) Option α

/-- The number of a capture, which is a new one if the name is new. -/
def captureNumber (name : String) : QueryReading Nat := fun names =>
  match names.idxOf? name with
  | some i => some (i, names)
  | none => some (names.length, names ++ [name])

/-- The captures written behind a description, and the rest. The amount of fuel is the number of
characters. -/
def captures : Nat → List Char → QueryReading (List Nat × List Char)
  | 0, cs => return ([], cs)
  | fuel + 1, cs =>
      match skipBlank cs with
      | '@' :: rest => do
          let (name, rest) ← (name? rest : Option _)
          let i ← captureNumber name
          let (more, rest) ← captures fuel rest
          return (i :: more, rest)
      | rest => return ([], rest)

/-- The arguments of a directive up to its closing parenthesis, and the rest. Captures must be known
by now. -/
def arguments : Nat → List Char → QueryReading (List Argument × List Char)
  | 0, _ => failure
  | fuel + 1, cs => do
      let (argument, rest) ← match skipBlank cs with
        | ')' :: rest => return ([], rest)
        | '@' :: rest => do
            let (name, rest) ← (name? rest : Option _)
            match (← get).idxOf? name with
            | some i => pure (Argument.capture i, rest)
            | none => failure
        | '"' :: rest => do
            let (value, rest) ← (quoted? rest [] : Option _)
            pure (Argument.string value, rest)
        | cs => do
            let (value, rest) ← (name? cs : Option _)
            pure (Argument.string value, rest)
      let (more, rest) ← arguments fuel rest
      return (argument :: more, rest)

/-- The directive that follows a hash sign, and the rest. Its name ends in a question or exclamation
mark. -/
def directive (cs : List Char) : QueryReading (Directive × List Char) := do
  let (name, rest) ← (name? cs : Option _)
  match rest with
  | c :: rest =>
      if c = '?' ∨ c = '!' then
        let (arguments, rest) ← arguments rest.length rest
        return (⟨name.push c, arguments⟩, rest)
      else failure
  | [] => failure

mutual

/-- The piece up to a closing parenthesis or the end, and the rest. -/
def piece (v : Vocabulary) : Nat → List Char → QueryReading (Piece × List Char)
  | 0, _ => failure
  | fuel + 1, cs =>
      match skipBlank cs with
      | [] => return ({}, [])
      | ')' :: rest => return ({}, ')' :: rest)
      | cs => do
          let (first, rest) ← element v fuel cs
          let (more, rest) ← piece v fuel rest
          return (first.append more, rest)

/-- One description or directive, and the rest. -/
def element (v : Vocabulary) : Nat → List Char → QueryReading (Piece × List Char)
  | 0, _ => failure
  | fuel + 1, cs =>
      match cs with
      | '"' :: rest => do
          let (text, rest) ← (quoted? rest [] : Option _)
          if v.has ⟨text, false⟩ then
            let (captures, rest) ← captures rest.length rest
            return (⟨[⟨text, false, captures, []⟩], []⟩, rest)
          else failure
      | '(' :: rest =>
          match skipBlank rest with
          | '#' :: rest => do
              let (d, rest) ← directive rest
              return (⟨[], [d]⟩, rest)
          | rest =>
              match name? rest with
              | some (kind, rest) => do
                  if v.has ⟨kind, true⟩ then
                    let (inner, rest) ← closed fuel rest
                    let (captures, rest) ← captures rest.length rest
                    return (⟨[⟨kind, true, captures, inner.nodes⟩], inner.directives⟩, rest)
                  else failure
              | none => closed fuel rest
      | _ => failure
where
  /-- A piece with the closing parenthesis behind it. -/
  closed (fuel : Nat) (cs : List Char) : QueryReading (Piece × List Char) := do
    match ← piece v fuel cs with
    | (inner, ')' :: rest) => return (inner, rest)
    | _ => failure

end

/-- The pieces of a query up to its end. -/
def pieces (v : Vocabulary) : Nat → List Char → QueryReading (List Piece)
  | 0, _ => failure
  | fuel + 1, cs =>
      match skipBlank cs with
      | [] => return []
      | cs => do
          let (first, rest) ← element v (2 * cs.length + 2) cs
          return first :: (← pieces v fuel rest)

mutual

/-- There can be nodes that a description fits. -/
def NodePattern.isPossible (v : Vocabulary) : NodePattern → Bool
  | ⟨kind, named, _, children⟩ =>
      v.admits ⟨kind, named⟩ (children.map fun c => ⟨c.kind, c.named⟩) && allPossible v children

def allPossible (v : Vocabulary) : List NodePattern → Bool
  | [] => true
  | p :: rest => p.isPossible v && allPossible v rest

end

namespace QueryPattern

/-- The property that some arguments set: a key, then maybe a value, and at most one capture. -/
def property? (arguments : List Argument) : Option (String × Option String) :=
  let values := arguments.filterMap fun
    | .string value => some value
    | .capture _ => none
  if 1 < (arguments.length - values.length) then none
  else match values with
    | [key] => some (key, none)
    | [key, value] => some (key, some value)
    | _ => none

/-- Whether a directive is negated, and whether it asks for every node. -/
def mode (name : String) (operator : String) : Option (Bool × Bool) :=
  [(name, true, true), ("not-" ++ name, false, true), ("any-" ++ name, true, false),
    ("any-not-" ++ name, false, false)].lookup operator

/-- Add what a directive says, if its arguments are right. Patterns are read by an engine. -/
def add? (regex : RegexEngine) (p : QueryPattern) (d : Directive) : Option QueryPattern :=
  let constrain (c : Constraint) : Option QueryPattern :=
    some { p with constraints := p.constraints ++ [c] }
  match mode "eq?" d.operator, mode "match?" d.operator with
  | some (positive, every), _ =>
      match d.arguments with
      | [.capture left, .capture right] => constrain (.sameText left right positive every)
      | [.capture c, .string value] => constrain (.text c value positive every)
      | _ => none
  | none, some (positive, every) =>
      match d.arguments with
      | [.capture c, .string value] =>
          (regex value).bind fun isMatch => constrain (.pattern c isMatch positive every)
      | _ => none
  | none, none =>
      if d.operator = "any-of?" ∨ d.operator = "not-any-of?" then
        match d.arguments with
        | .capture c :: values =>
            (TextPredicate.strings? values).bind fun values =>
              constrain (.oneOf c values (d.operator = "any-of?"))
        | _ => none
      else if d.operator = "set!" then
        (property? d.arguments).map fun s =>
          { p with notes.properties := p.notes.properties ++ [s] }
      else if d.operator = "is?" ∨ d.operator = "is-not?" then
        (property? d.arguments).map fun _ => p
      else some { p with notes.directives := p.notes.directives ++ [d] }

/-- The pattern that a piece writes. It describes one node, which must be possible. -/
def ofPiece? (v : Vocabulary) (regex : RegexEngine) (piece : Piece) : Option QueryPattern :=
  match piece.nodes with
  | [root] =>
      if root.isPossible v then piece.directives.foldlM (add? regex) ⟨root, [], [], []⟩ else none
  | _ => none

end QueryPattern

/-- The query that a text writes for a language. -/
def QueryText.ofString? (v : Vocabulary) (regex : RegexEngine) (text : String) :
    Option QueryText := do
  let cs := text.toList
  let (written, captureNames) ← (pieces v (cs.length + 1) cs).run []
  return { patterns := ← written.mapM (QueryPattern.ofPiece? v regex), captureNames }

/-- What compiles the queries of a language. A query that is refused is shown in the message. -/
def queryCompiler (v : Vocabulary) (regex : RegexEngine) : QueryCompiler := fun text =>
  match QueryText.ofString? v regex text with
  | some q => .ok q.compiled
  | none => .error text

end CodeEditor.Mini

import CodeEditor.Syntax.Node

/-!
The signs of the mini language.

Mini is a small language of words, numbers, strings, comments, operators and three kinds of
brackets. Every text is a sequence of its lexemes, with white space between them. A square bracket
may be followed at once by the name of a language, which is a lexeme of its own.
-/

namespace CodeEditor.Mini

open Syntax (Mark)

/-- A kind of brackets. -/
inductive Bracket where
  | brace
  | paren
  | square
deriving DecidableEq

namespace Bracket

def opening : Bracket → Char
  | .brace => '\x7b'
  | .paren => '('
  | .square => '['

def closing : Bracket → Char
  | .brace => '\x7d'
  | .paren => ')'
  | .square => ']'

def all : List Bracket := [.brace, .paren, .square]

end Bracket

/-- What a lexeme is. -/
inductive LexemeKind where
  /-- A leaf of the tree. -/
  | leaf (kind : String)
  /-- The name of a language behind a square bracket. -/
  | lang
  | opening (bracket : Bracket)
  | closing (bracket : Bracket)
deriving DecidableEq

/-- A sign of a text. -/
structure Lexeme where
  kind : LexemeKind
  start : Mark
  stop : Mark
deriving DecidableEq

namespace Lexeme

def isBlank (c : Char) : Bool := c = ' ' || c = '\t' || c = '\r' || c = '\n'

def isLineBreak (c : Char) : Bool := c = '\r' || c = '\n'

def isWordStart (c : Char) : Bool := c.isAlpha || c = '_'

def isWordPart (c : Char) : Bool := isWordStart c || c.isDigit

/-- The characters of a string behind its opening quote, the closing one included if there is one on
the line. -/
def stringRest (cs : List Char) : List Char :=
  let inside := cs.takeWhile fun c => c ≠ '"' && !isLineBreak c
  match cs.drop inside.length with
  | '"' :: _ => inside ++ ['"']
  | _ => inside

/-- The kind of the lexeme that starts with a character, and the characters it has beyond that
one. -/
def shape (c : Char) (rest : List Char) : LexemeKind × List Char :=
  if c = '#' then (.leaf "comment", rest.takeWhile fun c => !isLineBreak c)
  else if c = '"' then (.leaf "string", stringRest rest)
  else if c.isDigit then (.leaf "number", rest.takeWhile Char.isDigit)
  else if isWordStart c then (.leaf "word", rest.takeWhile isWordPart)
  else match Bracket.all.find? (·.opening = c), Bracket.all.find? (·.closing = c) with
    | some b, _ => (.opening b, [])
    | none, some b => (.closing b, [])
    | none, none => (.leaf "op", [])

/-- The name of a language that some characters start with, blanks behind it included. -/
def langAt (cs : List Char) : List Char :=
  match cs with
  | c :: rest =>
      if isWordStart c then
        let name := c :: rest.takeWhile isWordPart
        name ++ (cs.drop name.length).takeWhile fun c => c = ' ' || c = '\t'
      else []
  | [] => []

/-- The lexemes of some characters from a place on. The amount of fuel is the number of
characters. -/
def readFrom : Nat → Mark → List Char → List Lexeme
  | 0, _, _ | _, _, [] => []
  | fuel + 1, start, c :: rest =>
      if isBlank c then readFrom fuel (start.after c) rest
      else
        let (kind, more) := shape c rest
        let stop := start.afterAll (c :: more)
        let rest := rest.drop more.length
        let lang := if kind = .opening .square then langAt rest else []
        if lang.isEmpty then ⟨kind, start, stop⟩ :: readFrom fuel stop rest
        else
          let langStop := stop.afterAll lang
          ⟨kind, start, stop⟩ :: ⟨.lang, stop, langStop⟩ ::
            readFrom fuel langStop (rest.drop lang.length)

end Lexeme

end CodeEditor.Mini

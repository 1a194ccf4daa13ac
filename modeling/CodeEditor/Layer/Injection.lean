import CodeEditor.Query.Match
import CodeEditor.Text.CharClass

/-!
Parts of a text that are written in another language.

The captures of an injections query name these parts and their languages. They are visited match by
match. Within a match a `language` capture keeps its text as the language of the next part; a
`content` capture is a part in the language kept, or else in the one that the pattern sets; any
other capture is a part in the language that the pattern sets, else in the one kept, else in the one
it is named after. Whatever part comes, nothing is kept any more. A part without a language or
without text is left out.
-/

namespace CodeEditor.Layer

open Syntax (Node)

/-- A part of a text in another language. -/
structure Injection where
  /-- The path of the node that holds the part. -/
  path : List Nat
  languageName : String
  byteRange : ByteRange
deriving DecidableEq

/-- A capture of an injections query. -/
structure InjectionCapture where
  name : String
  path : List Nat
  node : Node
  /-- The language that the pattern sets. -/
  languageProperty : Option String
  /-- The number of its match. -/
  matchIndex : Nat

/-- What a capture means. -/
inductive CaptureRole where
  | language
  | content
  | named (language : String)
deriving DecidableEq

/-- What a capture with a name means. -/
def CaptureRole.ofName (name : String) : CaptureRole :=
  if name = "language" ∨ name = "injection.language" then .language
  else if name = "content" ∨ name = "injection.content" then .content
  else .named name

namespace InjectionCapture

/-- The language of a part, given the one kept. -/
def languageName (c : InjectionCapture) (kept : Option String) : Option String :=
  match CaptureRole.ofName c.name with
  | .language => none
  | .content => kept.or c.languageProperty
  | .named language => some ((c.languageProperty.or kept).getD language)

/-- The language that a text names, if it is not blank. -/
def named (text : String) : Option String :=
  let name := CharClass.trim text.toList
  if name.isEmpty then none else some (String.ofList name)

/-- The parts that some captures name, where a language may be kept for the match with a number. -/
def injectionsFrom (textOf : Node → String) (kept : Option String) (current : Option Nat) :
    List InjectionCapture → List Injection
  | [] => []
  | c :: rest =>
      let kept := if current = some c.matchIndex then kept else none
      if CaptureRole.ofName c.name = .language then
        injectionsFrom textOf (named (textOf c.node)) (some c.matchIndex) rest
      else
        let rest := injectionsFrom textOf none (some c.matchIndex) rest
        match c.languageName kept with
        | some name =>
            if c.node.byteRange.isEmpty then rest else ⟨c.path, name, c.node.byteRange⟩ :: rest
        | none => rest

/-- The parts that some captures name. -/
def injections (textOf : Node → String) (cs : List InjectionCapture) : List Injection :=
  injectionsFrom textOf none none cs

/-- The order in which captures are visited: by match, then by start. -/
def le (a b : InjectionCapture) : Bool :=
  a.matchIndex < b.matchIndex ||
    (a.matchIndex == b.matchIndex && a.node.start.byte ≤ b.node.start.byte)

end InjectionCapture

/-- The property of a pattern that sets the language. -/
def languageKey : String := "injection.language"

/-- The parts of a tree that a query names, and the unsupported directives that were met. -/
def injectionsOf (q : Query) (tree : Node) (text : TextBuffer) (reported : Query.Reported) :
    List Injection × Query.Reported :=
  let (found, reported) := q.supportedMatches tree text none reported
  let captures := found.zipIdx.flatMap fun (m, i) =>
    m.captures.filterMap fun (capture, x) =>
      (q.captureNames[capture]?).map fun name =>
        (⟨name, x.path, x.node, q.property? m.pattern languageKey, i⟩ : InjectionCapture)
  (InjectionCapture.injections (·.text text) (captures.mergeSort InjectionCapture.le), reported)

end CodeEditor.Layer

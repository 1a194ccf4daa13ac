import CodeEditor.Document.Basic
import CodeEditor.Grammar.Tokenizer
import CodeEditor.Style.Styled
import CodeEditor.Style.Theme

/-!
Styling a document by a grammar.

Every line is styled with the attributes that the theme gives to the scopes of its tokens, one token
over the other.
-/

namespace CodeEditor.Grammar

/-- Why a document cannot be styled. -/
inductive HighlightError where
  | grammar (error : Error)
  | document (failure : Failure)
deriving DecidableEq

/-- The text of a line styled by its tokens. -/
def styleLine (theme : Theme) (content : String) (tokens : List Token) : Checked StyledText :=
  tokens.foldlM (fun styled token =>
    let attributes := theme.attributes token.scope
    if attributes.isEmpty then some styled else styled.setAttributes token.range attributes)
    (StyledText.plain content)

/-- The lines of an indexed text, styled, where some regions are open before the first. -/
def styleLines (g : Compiled) (theme : Theme) (text : TextBuffer) :
    List Line → RuleStack → Except HighlightError (List StyledText)
  | [], _ => return []
  | line :: rest, stack => do
      let content ← (text.substring line.contentRange).mapError .document
      match g.tokenizeLine content stack with
      | .error e _ => throw (.grammar e)
      | .ok tokens stack =>
          match styleLine theme content tokens with
          | none => throw (.document .overflow)
          | some styled => return styled :: (← styleLines g theme text rest stack)

/-- The lines of a document, styled. -/
def highlight {μ : Type} (g : Compiled) (theme : Theme) (d : Document μ) :
    Except HighlightError (List StyledText) :=
  styleLines g theme d.buffer d.index.lines {}

end CodeEditor.Grammar

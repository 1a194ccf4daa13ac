import CodeEditor.Checked
import CodeEditor.Decimal.Shortest
import CodeEditor.Document.Basic
import CodeEditor.Document.Description
import CodeEditor.Document.Edit
import CodeEditor.Document.History
import CodeEditor.Document.Mode
import CodeEditor.Failure
import CodeEditor.Grammar.Compiled
import CodeEditor.Grammar.Decoding
import CodeEditor.Grammar.Highlight
import CodeEditor.Grammar.Rule
import CodeEditor.Grammar.Token
import CodeEditor.Grammar.Tokenizer
import CodeEditor.Highlight.Capture
import CodeEditor.Highlight.Queue
import CodeEditor.Highlight.Token
import CodeEditor.Layer.Captures
import CodeEditor.Layer.Injection
import CodeEditor.Layer.Store
import CodeEditor.Layer.Tree
import CodeEditor.Layer.View
import CodeEditor.Line.Arena
import CodeEditor.Line.Changes
import CodeEditor.Line.Delimiter
import CodeEditor.Line.Ending
import CodeEditor.Line.Id
import CodeEditor.Line.Indent
import CodeEditor.Line.Index
import CodeEditor.Line.Position
import CodeEditor.Line.Store
import CodeEditor.Line.Tree
import CodeEditor.Mini.Lexeme
import CodeEditor.Mini.Query
import CodeEditor.Mini.QueryReader
import CodeEditor.Mini.Tree
import CodeEditor.Mini.Vocabulary
import CodeEditor.Pattern.Basic
import CodeEditor.Pattern.Lexeme
import CodeEditor.Pattern.Match
import CodeEditor.Pattern.Reader
import CodeEditor.Query.Basic
import CodeEditor.Query.Match
import CodeEditor.Query.Predicate
import CodeEditor.Style.Attributes
import CodeEditor.Style.Styled
import CodeEditor.Style.Theme
import CodeEditor.Syntax.Error
import CodeEditor.Syntax.Highlighting
import CodeEditor.Syntax.Indent
import CodeEditor.Syntax.Language
import CodeEditor.Syntax.Mode
import CodeEditor.Syntax.Node
import CodeEditor.Syntax.Vocabulary
import CodeEditor.Text.Buffer
import CodeEditor.Text.CharClass
import CodeEditor.Text.Quoted
import CodeEditor.Text.Range
import CodeEditor.Text.Search
import CodeEditor.Text.Units
import CodeEditor.Yaml.Reader
import CodeEditor.Yaml.Value
import CodeEditor.Proofs.Line.Balance
import CodeEditor.Proofs.Line.Sums
import CodeEditor.Proofs.Line.Slots
import CodeEditor.Proofs.Line.Store
import CodeEditor.Proofs.Arena.Memory
import CodeEditor.Proofs.Arena.Turning
import CodeEditor.Proofs.Arena.Inserting
import CodeEditor.Proofs.Arena.Removing
import CodeEditor.Proofs.Arena.Unlinking
import CodeEditor.Proofs.Arena.Slots
import CodeEditor.Proofs.Arena.Building
import CodeEditor.Proofs.Arena.Store
import CodeEditor.Proofs.Arena.RedBlack
import CodeEditor.Proofs.Line.Changes
import CodeEditor.Proofs.Line.Tracking
import CodeEditor.Proofs.Line.Locality
import CodeEditor.Proofs.Line.Layout
import CodeEditor.Proofs.Line.Lengths
import CodeEditor.Proofs.Line.Removal
import CodeEditor.Proofs.Line.Insertion
import CodeEditor.Proofs.Line.Agreement
import CodeEditor.Proofs.Line.Contents
import CodeEditor.Proofs.Line.Listing
import CodeEditor.Proofs.Line.Scanning
import CodeEditor.Proofs.Text.Window
import CodeEditor.Proofs.Document.Replacement
import CodeEditor.Proofs.Document.History
import CodeEditor.Proofs.Document.Timeline
import CodeEditor.Proofs.Document.Edits
import CodeEditor.Proofs.Document.Reached
import CodeEditor.Proofs.Document.Clean
import CodeEditor.Proofs.Document.Changes
import CodeEditor.Proofs.Document.Descriptors
import CodeEditor.Proofs.Layer.Store
import CodeEditor.Proofs.Query.Match
import CodeEditor.Proofs.Layer.Candidates
import CodeEditor.Proofs.Layer.Layers
import CodeEditor.Proofs.Layer.Shown
import CodeEditor.Proofs.Layer.Grafting
import CodeEditor.Proofs.Layer.Parse
import CodeEditor.Proofs.Layer.Assignment
import CodeEditor.Proofs.Layer.Update
import CodeEditor.Proofs.Layer.Agreement
import CodeEditor.Proofs.Highlight.Queue
import CodeEditor.Proofs.Style.Attributes
import CodeEditor.Proofs.Style.Styled
import CodeEditor.Proofs.Grammar.Token
import CodeEditor.Proofs.Grammar.Highlight
import CodeEditor.Proofs.Grammar.Expansion
import CodeEditor.Proofs.Grammar.Numbering
import CodeEditor.Proofs.Grammar.Includes
import CodeEditor.Proofs.Grammar.Walk
import CodeEditor.Proofs.Sorting
import CodeEditor.Proofs.Pattern.Match
import CodeEditor.Proofs.Grammar.Outline
import CodeEditor.Proofs.Grammar.Nesting
import CodeEditor.Proofs.Grammar.Order
import CodeEditor.Proofs.Grammar.WellFormed
import CodeEditor.Proofs.Grammar.Accepted
import CodeEditor.Proofs.Grammar.Steps
import CodeEditor.Proofs.Style.Layers
import CodeEditor.Proofs.Highlight.Innermost
import CodeEditor.Proofs.Style.Canonical
import CodeEditor.Proofs.Document.Refusal
import CodeEditor.Proofs.Document.CleanPoint
import CodeEditor.Proofs.Document.Halting
import CodeEditor.Proofs.Line.Lifetimes
import CodeEditor.Proofs.Syntax.Mark
import CodeEditor.Proofs.Layer.Upkeep
import CodeEditor.Proofs.Layer.Coordinates
import CodeEditor.Proofs.Mini.Tree
import CodeEditor.Proofs.Syntax.Detection
import CodeEditor.Proofs.Document.Ranges
import CodeEditor.Proofs.Line.Strength
import CodeEditor.Proofs.Document.Endings
import CodeEditor.Proofs.Layer.Injections
import CodeEditor.Proofs.Layer.Shape
import CodeEditor.Proofs.Layer.Rooted
import CodeEditor.Proofs.Layer.Depth
import CodeEditor.Proofs.Layer.Captures
import CodeEditor.Proofs.Line.Indent
import CodeEditor.Proofs.Document.Indentation
import CodeEditor.Proofs.Document.Mapping
import CodeEditor.Proofs.Style.Theme
import CodeEditor.Proofs.Query.Predicate
import CodeEditor.Proofs.Layer.Growth
import CodeEditor.Proofs.Layer.Account
import CodeEditor.Proofs.Layer.Kept
import CodeEditor.Proofs.Layer.Orderly
import CodeEditor.Proofs.Layer.Lookup
import CodeEditor.Proofs.Layer.Arena

import CodeEditor.Query.Basic

/-!
The matches of a query whose predicates hold.
-/

namespace CodeEditor.Query

open Syntax (Node)

namespace QueryMatch

/-- The text of the first node of a capture. -/
def text? (m : QueryMatch) (buffer : TextBuffer) (capture : Nat) : Option String :=
  (m.captures.find? (·.1 = capture)).map (·.2.node.text buffer)

end QueryMatch

/-- Add a match to those kept, the latest first, if its predicates hold. -/
def keepSupported (q : Query) (buffer : TextBuffer) :
    List QueryMatch × Reported → QueryMatch → List QueryMatch × Reported
  | (kept, reported), m =>
      match evaluateAll (m.text? buffer) (q.predicatesOf m.pattern) reported with
      | (true, reported) => (m :: kept, reported)
      | (false, reported) => (kept, reported)

/-- The matches of a query whose predicates hold too. Unsupported predicates are reported. -/
def supportedMatches (q : Query) (tree : Node) (buffer : TextBuffer)
    (range : Option ByteRange) (reported : Reported) : List QueryMatch × Reported :=
  let (kept, reported) := (q.matchesIn tree buffer range).foldl (q.keepSupported buffer)
    ([], reported)
  (kept.reverse, reported)

end CodeEditor.Query

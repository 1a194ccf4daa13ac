import CodeEditor.Highlight.Queue
import CodeEditor.Syntax.Mode

/-!
Highlighting lines by syntax, at once or by requests in a queue.
-/

namespace CodeEditor.Syntax

open Highlight (Token Queue)
open Layer (Snapshot QueryReports)

namespace Mode

/-- The line of a row, styled by the syntax as it is, or as it was in a snapshot. -/
def highlightRow (m : Mode) (theme : Theme) (text : TextBuffer) (index : LineIndex)
    (snapshot : Option Snapshot) (row : Nat) : Outcome (StyledText × Mode) := do
  let (range, styled) ← Highlight.lineInput text (← index.lineAtRow row)
  let (cs, m) ← checked <| match snapshot with
    | some s => m.snapshotCaptures s range
    | none => m.captures range
  let (_, styled) ← checked (Highlight.style theme cs range styled)
  return (styled, m)

end Mode

/-- The job of highlighting some bytes by a snapshot. -/
structure HighlightJob where
  range : ByteRange
  snapshot : Snapshot

/-- Requests for lines, answered by tokens and by what was met in queries. -/
abbrev HighlightQueue : Type := Queue HighlightJob (Checked (List Token × QueryReports))

namespace HighlightJob

/-- Do a job. -/
def run (theme : Theme) (job : HighlightJob) : Checked (List Token × QueryReports) := do
  let (cs, reports) ← job.snapshot.captures job.range {}
  return (← Highlight.tokens theme cs job.range, reports)

end HighlightJob

/-- Submit a request for the line of a row. -/
def submitRow (text : TextBuffer) (index : LineIndex) (snapshot : Snapshot) (q : HighlightQueue)
    (row : Nat) : Outcome HighlightQueue := do
  let line ← index.lineAtRow row
  let (range, _) ← Highlight.lineInput text line
  return (q.submit line.id ⟨range, snapshot⟩).2

end CodeEditor.Syntax

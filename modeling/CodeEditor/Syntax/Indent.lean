import CodeEditor.Document.Mode
import CodeEditor.Syntax.Language

/-!
Indentation by syntax.

How a document is indented is seen on its first lines. How far a new line is indented is seen on the
nodes around the caret: a node that opens a level before the caret on the caret's line indents, one
that closes a level behind it ends that again.
-/

namespace CodeEditor.Syntax

/-! ### Detection -/

namespace IndentDetection

/-- How many lines are looked at. -/
def lineLimit : Nat := 100

/-- How many lines with content are looked at. -/
def contentLimit : Nat := 20

/-- What the lines so far say. -/
structure Tally where
  lines : Nat := 0
  contentLines : Nat := 0
  tabLines : Nat := 0
  spaceLines : Nat := 0
  /-- The least number of spaces that a line starts with, of those that start with more than one. -/
  fewestSpaces : Nat := wordLimit - 1

/-- The line of a row starts inside a comment. -/
def startsInComment (branchAt : Node → Point → Branch) (root : Node) (row : Nat) : Bool :=
  (branchAt root ⟨row, 0⟩).head?.any fun x =>
    "comment".toList.isSuffixOf x.kind.toList

/-- Look at a line. Comments and empty lines say nothing, and a single space is no indentation. -/
def Tally.add (branchAt : Node → Point → Branch) (text : TextBuffer) (root : Node) (t : Tally)
    (line : Line) : Tally × Bool :=
  let t := { t with lines := t.lines + 1 }
  if startsInComment branchAt root line.row || line.contentLength == 0 then (t, false)
  else
    let t := { t with contentLines := t.contentLines + 1 }
    if Indent.startsWithTab text line then ({ t with tabLines := t.tabLines + 1 }, true)
    else if Indent.startsWithSpace text line then
      let spaces := Indent.leadingSpaces text line t.fewestSpaces
      if 1 < spaces then
        ({ t with fewestSpaces := min t.fewestSpaces spaces, spaceLines := t.spaceLines + 1 }, true)
      else (t, true)
    else (t, true)

/-- What the lines looked at say, if they say anything. -/
def Tally.decide (t : Tally) : Option DetectedIndent :=
  if t.tabLines = 0 ∧ t.spaceLines = 0 then none
  else if t.spaceLines < t.tabLines then some .tab
  else some (.space t.fewestSpaces)

/-- Look at lines until enough have been seen and say something. Only a line with content ends the
search. -/
def scan (branchAt : Node → Point → Branch) (text : TextBuffer) (root : Node) (lineCount : Nat) :
    Tally → List Line → DetectedIndent
  | t, [] => t.decide.getD .unknown
  | t, line :: rest =>
      let (t, hasContent) := t.add branchAt text root line
      let isEnough :=
        min lineLimit lineCount ≤ t.lines || min contentLimit lineCount ≤ t.contentLines
      match if hasContent && isEnough then t.decide else none with
      | some found => found
      | none => scan branchAt text root lineCount t rest

end IndentDetection

/-- How an indexed text with a syntax tree is indented, where `branchAt` finds the nodes at a
point. -/
def detectIndent (branchAt : Node → Point → Branch) (text : TextBuffer) (index : LineIndex)
    (root : Node) : DetectedIndent :=
  IndentDetection.scan branchAt text root index.lineCount {} index.lines

/-! ### Line breaks -/

namespace LineBreak

mutual

/-- The deepest node at a position below a node, with the nodes around it, where later children come
first and the ends of nodes belong to them. -/
def deepest (p : LinePosition) : Node → Branch → Option Branch
  | ⟨kind, named, start, stop, children⟩, above =>
      if start.point.position.le p && p.le stop.point.position then
        let branch := ⟨kind, named, start, stop, children⟩ :: above
        (deepestAmong p children branch).or (some branch)
      else none

def deepestAmong (p : LinePosition) : List Node → Branch → Option Branch
  | [], _ => none
  | x :: rest, above => (deepestAmong p rest above).or (deepest p x above)

end

/-- The innermost node of a branch that satisfies a condition and starts on a row, with the nodes
around it, where only nodes on that row are passed. -/
def onRow (row : Nat) (condition : Node → Bool) : Branch → Option Branch
  | [] => none
  | x :: above =>
      if x.start.point.row ≠ row then none
      else if condition x then some (x :: above)
      else onRow row condition above

/-- The node that opens a level before the caret. -/
def opening (scopes : IndentScopes) (branch : Branch) (caret : LinePosition) : Option Branch :=
  let start := if scopes.blankBlocks then
      match branch with
      | [] => none
      | x :: above => deepest caret x above
    else some branch
  start.bind <| onRow caret.row fun x =>
    scopes.opens x.kind && x.start.point.position.column < caret.column

/-- The node that closes a level behind the caret. -/
def closing (scopes : IndentScopes) (branch : Branch) (caret : LinePosition) : Option Branch :=
  onRow caret.row (fun x =>
    scopes.closes x.kind && caret.column ≤ x.start.point.position.column) branch

/-- The row of the innermost node of a branch that starts on another row than its first, or of the
outermost. -/
def rowAbove (row : Nat) : Branch → Nat
  | [] => row
  | x :: above => if x.start.point.row ≠ row then x.start.point.row else rowAbove row above

/-- How to go on after a line break in place of the text between two positions, with the nodes at
each. -/
def indent (scopes : IndentScopes) (text : TextBuffer) (index : LineIndex) (tabLength : Nat)
    (startBranch stopBranch : Branch) (start stop : LinePosition) : Checked LineBreakIndent := do
  let level (row : Nat) : Checked Nat := Indent.levelOfRow text index row tabLength
  match opening scopes startBranch start, closing scopes stopBranch stop with
  | some (x :: _), some _ => return ⟨← Checked.add (← level x.start.point.row) 1, true⟩
  | some (x :: _), none => return ⟨← Checked.add (← level x.start.point.row) 1, false⟩
  | _, some (x :: above) => return ⟨← level (rowAbove x.start.point.row above), false⟩
  | _, _ => return ⟨← level start.row, false⟩

end LineBreak

end CodeEditor.Syntax

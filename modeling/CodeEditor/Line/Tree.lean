import CodeEditor.Line.Id

/-!
The red-black tree of a document's lines.

A node is one line. It carries the sums of lengths, heights and numbers of lines of its subtree, so
that an offset, a row or a vertical position is found along one path. `LineTree.toList` is the
sequence of lines from top to bottom, and every operation below is an operation on that sequence:
`insertAfter` puts a line behind another, `erase` takes one out, `update` changes one in place.

Operations that change a tree work at a *place*: a subtree and the `Path` from it up to the root.
Sums along a path are refreshed once from the place upwards; a rotation afterwards refreshes only
the two nodes it turns. How the tree lies in memory is the business of `LineArena`.
-/

namespace CodeEditor

/-- The sizes of a line. The delimiter is part of the line. -/
structure LineMetrics where
  totalLength : Nat
  delimiterLength : Nat
  height : Float

namespace LineMetrics

/-- The length without the delimiter. -/
def contentLength (m : LineMetrics) : Nat := m.totalLength - m.delimiterLength

/-- A line without a delimiter. -/
def undelimited (length : Nat) (height : Float) : LineMetrics where
  totalLength := length
  delimiterLength := 0
  height := height

end LineMetrics

inductive Color where
  | red
  | black
deriving DecidableEq

/-- The sums over a subtree. Here they are numbers of any size; in memory a sum that leaves the
machine word has no value (`Summary.combine?`). -/
structure Summary where
  length : Nat
  count : Nat
  height : Float

namespace Summary

def zero : Summary := ⟨0, 0, 0.0⟩

/-- The sums of a node from those of its subtrees. Heights are added from left to right, the node's
own last, since the order decides how they round. -/
def combine (left right : Summary) (m : LineMetrics) : Summary where
  length := left.length + right.length + m.totalLength
  count := left.count + right.count + 1
  height := (0.0 + left.height + right.height) + m.height

/-- The sums of a line without subtrees. -/
def ofLine (m : LineMetrics) : Summary := ⟨m.totalLength, 1, m.height⟩

end Summary

/-- A node without its subtrees. -/
structure Cell where
  color : Color
  summary : Summary
  id : LineId
  metrics : LineMetrics

inductive LineTree where
  | empty
  | node (cell : Cell) (left right : LineTree)

/-- Which child of its parent a subtree is. -/
inductive Side where
  | left
  | right
deriving DecidableEq

/-- One level of the way up from a subtree: the parent, which child the subtree is, and the parent's
other child. -/
structure Step where
  side : Side
  cell : Cell
  sibling : LineTree

/-- The way from a subtree up to the root. -/
abbrev Path := List Step

/-- A node within a tree. -/
structure Place where
  cell : Cell
  left : LineTree
  right : LineTree
  path : Path

namespace Cell

/-- The cell in another color. -/
def paint (c : Cell) (color : Color) : Cell := { c with color }

end Cell

namespace LineTree

def summary : LineTree → Summary
  | .empty => Summary.zero
  | .node cell _ _ => cell.summary

/-- The color of the root. The empty tree counts as black. -/
def color : LineTree → Color
  | .empty => .black
  | .node cell _ _ => cell.color

/-- The tree with its root in another color. -/
def paint : LineTree → Color → LineTree
  | .empty, _ => .empty
  | .node cell l r, color => .node (cell.paint color) l r

def isEmpty : LineTree → Bool
  | .empty => true
  | .node .. => false

/-- The lines from top to bottom. -/
def toList : LineTree → List (LineId × LineMetrics)
  | .empty => []
  | .node cell l r => l.toList ++ (cell.id, cell.metrics) :: r.toList

/-- The tree of a node and its two subtrees, with fresh sums. -/
def join (cell : Cell) (l r : LineTree) : LineTree :=
  .node { cell with summary := Summary.combine l.summary r.summary cell.metrics } l r

/-- A tree joined with the subtree on the given side first. -/
def joinAt (side : Side) (cell : Cell) (near far : LineTree) : LineTree :=
  match side with
  | .left => join cell near far
  | .right => join cell far near

/-- The subtree on the given side, then the one on the other. -/
def sidewise (side : Side) (l r : LineTree) : LineTree × LineTree :=
  match side with
  | .left => (l, r)
  | .right => (r, l)

end LineTree

namespace Step

/-- The parent's tree around a subtree, with the sums it had. -/
def fill (s : Step) (t : LineTree) : LineTree :=
  match s.side with
  | .left => .node s.cell t s.sibling
  | .right => .node s.cell s.sibling t

/-- The step with its parent in another color. -/
def paint (s : Step) (color : Color) : Step := { s with cell := s.cell.paint color }

/-- The step with the parent's sums made fresh for a subtree with sums `sub`. -/
def refresh (s : Step) (sub : Summary) : Step :=
  let summary := match s.side with
    | .left => Summary.combine sub s.sibling.summary s.cell.metrics
    | .right => Summary.combine s.sibling.summary sub s.cell.metrics
  { s with cell := { s.cell with summary } }

end Step

namespace Path

/-- The whole tree around a subtree. -/
def fill (path : Path) (t : LineTree) : LineTree :=
  path.foldl (fun t s => s.fill t) t

/-- The path with the sums of all its nodes made fresh for a subtree with sums `sub`. -/
def refresh : Path → Summary → Path
  | [], _ => []
  | s :: rest, sub =>
      let s := s.refresh sub
      s :: refresh rest s.cell.summary

end Path

namespace LineTree

/-! ### Finding lines -/

/-- The place of a line, searched from a subtree with the given path. -/
def locateFrom (id : LineId) : LineTree → Path → Option Place
  | .empty, _ => none
  | .node cell l r, path =>
      if cell.id = id then some ⟨cell, l, r, path⟩
      else
        match locateFrom id l (⟨.left, cell, r⟩ :: path) with
        | some place => some place
        | none => locateFrom id r (⟨.right, cell, l⟩ :: path)

/-- The place of a line. -/
def locate (t : LineTree) (id : LineId) : Option Place := locateFrom id t []

/-- The first line. -/
def first? : LineTree → Option LineId
  | .empty => none
  | .node cell .empty _ => some cell.id
  | .node _ l _ => l.first?

/-- The last line. -/
def last? : LineTree → Option LineId
  | .empty => none
  | .node cell _ .empty => some cell.id
  | .node _ _ r => r.last?

/-- The line with the offset inside. -/
def containing : LineTree → Nat → Option LineId
  | .empty, _ => none
  | .node cell l r, offset =>
      if offset < l.summary.length then l.containing offset
      else
        let offset := offset - l.summary.length
        if offset < cell.metrics.totalLength then some cell.id
        else r.containing (offset - cell.metrics.totalLength)

/-- The line with the given number of lines above. -/
def atRow : LineTree → Nat → Option LineId
  | .empty, _ => none
  | .node cell l r, row =>
      if row < l.summary.count then l.atRow row
      else if row = l.summary.count then some cell.id
      else r.atRow (row - (l.summary.count + 1))

/-- The line with the vertical position inside. The last line of a subtree takes what lies below. -/
def containingY : LineTree → Float → Option LineId
  | .empty, _ => none
  | .node cell l r, y =>
      if !l.isEmpty && y < l.summary.height then l.containingY y
      else
        let y := y - l.summary.height
        if y < cell.metrics.height then some cell.id
        else if r.isEmpty then some cell.id
        else r.containingY (y - cell.metrics.height)

/-! ### Inserting -/

/-- Turn a grandparent so that the parent of a red node takes its place: the parent, black, gets its
outer child and the grandparent, red, which takes over the parent's inner child. -/
def turnUp (grand : Step) (parent : Cell) (outer inner : LineTree) : LineTree :=
  joinAt grand.side (parent.paint .black) outer
    (joinAt grand.side (grand.cell.paint .red) inner grand.sibling)

/-- Restore the colors after a red node was put at a place: no red node keeps a red parent. -/
def afterInsert : LineTree → Path → LineTree
  | t, [] => t.paint .black
  | t, [parent] =>
      if parent.cell.color = .black then parent.fill t else (parent.paint .black).fill t
  | t, parent :: grand :: rest =>
      if parent.cell.color = .black then Path.fill (parent :: grand :: rest) t
      else if grand.sibling.color = .red then
        -- Both the parent and its sibling are red: their redness moves up to the grandparent.
        let grand := { grand.paint .red with sibling := grand.sibling.paint .black }
        afterInsert (grand.fill ((parent.paint .black).fill t)) rest
      else if parent.side = grand.side then
        Path.fill rest (turnUp grand parent.cell t parent.sibling)
      else
        -- The node is an inner grandchild: it first takes its parent's place.
        match t with
        | .empty => Path.fill (parent :: grand :: rest) t
        | .node cell l r =>
            let (near, far) := sidewise grand.side l r
            let outer := joinAt grand.side parent.cell parent.sibling near
            Path.fill rest (turnUp grand cell outer far)

/-- The path to where a node comes that precedes the first line of a subtree. -/
def pathToFirst : LineTree → Path → Path
  | .empty, path => path
  | .node cell l r, path => pathToFirst l (⟨.left, cell, r⟩ :: path)

/-- The tree with a new line directly behind the line at a place. -/
def insertAfter (place : Place) (id : LineId) (m : LineMetrics) : LineTree :=
  let leaf := LineTree.node ⟨.red, Summary.ofLine m, id, m⟩ .empty .empty
  let path := place.right.pathToFirst (⟨.right, place.cell, place.left⟩ :: place.path)
  afterInsert leaf (Path.refresh path leaf.summary)

/-! ### Erasing -/

/-- Restore the black heights where the subtree `t` lacks one black node and its sibling is not a
red node with two black nephews left to try: the sibling, or the red nephew, moves up. -/
def settle (t : LineTree) (parent : Step) (rest : Path) : LineTree :=
  match parent.sibling with
  | .empty => Path.fill (parent :: rest) t
  | .node sibling l r =>
      let (near, far) := sidewise parent.side l r
      let turn (sibling : Cell) (near far : LineTree) : LineTree :=
        Path.fill rest (joinAt parent.side (sibling.paint parent.cell.color)
          (joinAt parent.side (parent.cell.paint .black) t near) (far.paint .black))
      match near, far.color with
      | .node cell l r, .black =>
          if cell.color = .red then
            let (inner, outer) := sidewise parent.side l r
            turn (cell.paint .black) inner
              (joinAt parent.side (sibling.paint .red) outer far)
          else if parent.cell.color = .red then
            Path.fill ({ parent.paint .black with sibling := parent.sibling.paint .red } :: rest) t
          else turn sibling near far
      | .empty, .black =>
          if parent.cell.color = .red then
            Path.fill ({ parent.paint .black with sibling := parent.sibling.paint .red } :: rest) t
          else turn sibling near far
      | _, .red => turn sibling near far

/-- Restore the black heights after a black node was taken out above the subtree at a place. -/
def afterErase : LineTree → Path → LineTree
  | t, [] => t
  | t, parent :: rest =>
      match parent.sibling with
      | .empty => Path.fill (parent :: rest) t
      | .node sibling l r =>
          let (near, far) := sidewise parent.side l r
          if sibling.color = .red then
            -- A red sibling moves up and leaves a black one.
            let parent' : Step := { parent.paint .red with sibling := near }
            let parent' := parent'.refresh t.summary
            let above : Step := ⟨parent.side, sibling.paint .black, far⟩
            let above := above.refresh parent'.cell.summary
            settle t parent' (above :: rest)
          else if parent.cell.color = .black ∧ near.color = .black ∧ far.color = .black then
            -- Nothing to take from here: the whole subtree of the parent lacks the black node.
            afterErase ({ parent with sibling := parent.sibling.paint .red }.fill t) rest
          else settle t parent rest

/-- Take out a node with at most one child. -/
def unlink (cell : Cell) (child : LineTree) (path : Path) : LineTree :=
  let path := Path.refresh path child.summary
  match cell.color, child.color with
  | .red, _ => Path.fill path child
  | .black, .red => Path.fill path (child.paint .black)
  | .black, .black => afterErase child path

/-- The first node of a tree, with its right subtree and its path. -/
def firstPlace : LineTree → Path → Option (Cell × LineTree × Path)
  | .empty, _ => none
  | .node cell .empty r, path => some (cell, r, path)
  | .node cell l r, path => l.firstPlace (⟨.left, cell, r⟩ :: path)

/-- The tree with the line at a place exchanged for another, in the same color. -/
def exchange (place : Place) (id : LineId) (m : LineMetrics) : LineTree :=
  let cell := { place.cell with
    id, metrics := m, summary := Summary.combine place.left.summary place.right.summary m }
  Path.fill (Path.refresh place.path cell.summary) (.node cell place.left place.right)

/-- The tree without the line at a place. A line with two subtrees gives its place to the line that
follows it, so that no other line changes its identity. -/
def erase (place : Place) : LineTree :=
  match place.left, place.right with
  | .empty, child => unlink place.cell child place.path
  | child, .empty => unlink place.cell child place.path
  | left, right =>
      match right.firstPlace (⟨.right, place.cell, left⟩ :: place.path) with
      | none => unlink place.cell left place.path
      | some (next, child, path) =>
          let t := unlink next child path
          match t.locate place.cell.id with
          | none => t
          | some place => exchange place next.id next.metrics

/-! ### Building -/

/-- The number of levels of a balanced tree of `n` nodes. -/
def levels (n : Nat) : Nat := if n = 0 then 0 else n.log2 + 1

/-- The balanced tree of at most `2 ^ h - 1` lines in the given number of levels. Only the lowest
level is red. -/
def build : Nat → List (LineId × LineMetrics) → LineTree
  | 0, _ => .empty
  | h + 1, lines =>
      match lines.drop (lines.length / 2) with
      | [] => .empty
      | (id, m) :: after =>
          let color := if h = 0 then .red else .black
          let before := lines.take (lines.length / 2)
          join ⟨color, Summary.zero, id, m⟩ (build h before) (build h after)

/-- The balanced tree of a list of lines. -/
def ofList (lines : List (LineId × LineMetrics)) : LineTree :=
  (build (levels lines.length) lines).paint .black

end LineTree

namespace Place

/-- The number of lines above. -/
def row (p : Place) : Nat :=
  p.path.foldl (fun n s => match s.side with
    | .left => n
    | .right => n + (s.sibling.summary.count + 1)) p.left.summary.count

/-- The total length of the lines above. -/
def location (p : Place) : Nat :=
  p.path.foldl (fun n s => match s.side with
    | .left => n
    | .right => n + (s.sibling.summary.length + s.cell.metrics.totalLength)) p.left.summary.length

/-- The total height of the lines above. -/
def yPosition (p : Place) : Float :=
  p.path.foldl (fun y s => match s.side with
    | .left => y
    | .right => y + (s.sibling.summary.height + s.cell.metrics.height)) p.left.summary.height

/-- The line below. -/
def next? (p : Place) : Option LineId :=
  match p.right.first? with
  | some id => some id
  | none => (p.path.find? (·.side = .left)).map (·.cell.id)

/-- The line above. -/
def previous? (p : Place) : Option LineId :=
  match p.left.last? with
  | some id => some id
  | none => (p.path.find? (·.side = .right)).map (·.cell.id)

end Place

end CodeEditor

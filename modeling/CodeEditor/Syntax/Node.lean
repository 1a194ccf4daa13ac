import CodeEditor.Line.Position
import CodeEditor.Text.Range
import CodeEditor.Text.Buffer

/-!
Syntax trees.

A tree is made of nodes with a kind, a place in the text and children in order. Places are counted
in bytes of the UTF-16 text; a `Point` counts rows by line feeds alone and columns in bytes. Nodes
are named or, like brackets, stand for a piece of the text as it is. Inside a tree a node is known
by its path, the numbers of the children on the way to it from the root.
-/

namespace CodeEditor.Syntax

/-- A row, counted by line feeds, and a column in bytes. -/
structure Point where
  row : Nat
  column : Nat
deriving DecidableEq, Repr, Inhabited

namespace Point

/-- The point of a row and a column in code units. -/
def ofPosition? (p : LinePosition) : Checked Point :=
  (bytesOfUnits p.column).map fun column => ⟨p.row, column⟩

/-- The row, and the column in code units. -/
def position (p : Point) : LinePosition := ⟨p.row, unitsOfBytes p.column⟩

/-- The first point is not behind the second. -/
def le (p q : Point) : Bool := p.row < q.row || (p.row == q.row && p.column ≤ q.column)

/-- The first point is before the second. -/
def lt (p q : Point) : Bool := !q.le p

end Point

/-- A place in the text. -/
structure Mark where
  byte : Nat
  point : Point
deriving DecidableEq, Repr, Inhabited

namespace Mark

/-- The start of the text. -/
def start : Mark := ⟨0, 0, 0⟩

/-- The place behind a character. -/
def after (m : Mark) (c : Char) : Mark :=
  let bytes := Utf16.width c * bytesPerUnit
  { byte := m.byte + bytes
    point := if c = '\n' then ⟨m.point.row + 1, 0⟩ else ⟨m.point.row, m.point.column + bytes⟩ }

/-- The place behind some characters. -/
def afterAll (m : Mark) (cs : List Char) : Mark := cs.foldl after m

end Mark

/-- A node of a syntax tree. -/
structure Node where
  kind : String
  named : Bool
  start : Mark
  stop : Mark
  children : List Node
deriving Inhabited

/-- A node and the nodes around it, the innermost first. -/
abbrev Branch : Type := List Node

namespace Node

/-- The bytes of a node. -/
def byteRange (x : Node) : ByteRange := .ofBounds x.start.byte x.stop.byte

/-- The node covers no byte. -/
def isEmpty (x : Node) : Bool := x.stop.byte ≤ x.start.byte

/-- The point lies in the node, its end excluded. -/
def holds (x : Node) (p : Point) : Bool := x.start.point.le p && p.lt x.stop.point

/-- The point lies in the node, its end included. -/
def touches (x : Node) (p : Point) : Bool := x.start.point.le p && p.le x.stop.point

/-- The text of a node. -/
def text (buffer : TextBuffer) (x : Node) : String :=
  match buffer.substring x.byteRange.toText with
  | .ok text => text
  | .error _ => ""

/-- The node at a path. -/
def nodeAt? : Node → List Nat → Option Node
  | x, [] => some x
  | x, i :: path => (x.children[i]?).bind (·.nodeAt? path)
termination_by _ path => path.length

/-- A node is another or stands somewhere below it. -/
inductive Has : Node → Node → Prop
  | self (x : Node) : Has x x
  | child {x c y : Node} : c ∈ x.children → Has c y → Has x y

mutual

/-- The nodes of a tree with their depths, each before its children. -/
def preorder (depth : Nat) : Node → List (Nat × Node)
  | ⟨kind, named, start, stop, children⟩ =>
      (depth, ⟨kind, named, start, stop, children⟩) :: preorderAll (depth + 1) children

/-- The nodes of some trees. -/
def preorderAll (depth : Nat) : List Node → List (Nat × Node)
  | [] => []
  | x :: rest => preorder depth x ++ preorderAll depth rest

end

end Node

/-- A node and its path. -/
structure Located where
  path : List Nat
  node : Node

namespace Located

/-- The root of a tree. -/
def root (x : Node) : Located := ⟨[], x⟩

/-- The children of a node. -/
def children (x : Located) : List Located :=
  x.node.children.zipIdx.map fun (c, i) => ⟨x.path ++ [i], c⟩

mutual

/-- The nodes of a tree with their paths, each before its children. -/
def all (path : List Nat) : Node → List Located
  | ⟨kind, named, start, stop, children⟩ =>
      ⟨path, kind, named, start, stop, children⟩ :: allOf path 0 children

/-- The nodes below a node whose children from a number on are given. -/
def allOf (path : List Nat) (i : Nat) : List Node → List Located
  | [] => []
  | x :: rest => all (path ++ [i]) x ++ allOf path (i + 1) rest

end

end Located

end CodeEditor.Syntax

import CodeEditor.Layer.Tree

/-!
What the layers of a document look like.

A `LayerView` is a layer with the layers below it in the order of the text. Views do not change with
the document, and all that is said on the layers as a whole is read off the view of the root.
-/

namespace CodeEditor.Layer

open Syntax (Node Branch Point Language)

/-- A layer and the layers below it. -/
structure LayerView where
  id : LayerId
  language : Language
  tree : Option ParsedTree
  parent : Option LayerId
  range : Option ByteRange
  children : List LayerView

namespace LayerTree

/-- The order of layers by the start of their parts of the text. -/
def startLe (t : LayerTree) (a b : LayerId) : Bool :=
  match (t.layer? a).bind (·.range), (t.layer? b).bind (·.range) with
  | none, _ => true
  | some _, none => false
  | some r, some s => r.location ≤ s.location

/-- The children of a layer in the order of the text. -/
def children (t : LayerTree) (id : LayerId) : List LayerId :=
  (((t.layer? id).map (·.children)).getD []).map (·.2) |>.mergeSort t.startLe

/-- The view of a layer, down to a depth of the amount of fuel. -/
def viewWithin (t : LayerTree) : Nat → LayerId → Option LayerView
  | 0, _ => none
  | fuel + 1, id => do
      let l ← t.layer? id
      let children := (t.children id).filterMap (t.viewWithin fuel)
      return ⟨id, l.language, l.tree, l.parent, l.range, children⟩

/-- The view of the root layer. A chain of layers is no longer than there are slots. -/
def view (t : LayerTree) : Option LayerView := t.viewWithin t.store.slots.size t.root

end LayerTree

namespace LayerView

/-- The bytes that the tree of a layer covers. -/
def rootRange (v : LayerView) : Option ByteRange := v.tree.map (·.root.byteRange)

mutual

/-- The layers with their depths, each before those below it. -/
def preorder (depth : Nat) : LayerView → List (Nat × LayerView)
  | ⟨id, language, tree, parent, range, children⟩ =>
      (depth, ⟨id, language, tree, parent, range, children⟩) :: preorderAll (depth + 1) children

def preorderAll (depth : Nat) : List LayerView → List (Nat × LayerView)
  | [] => []
  | v :: rest => preorder depth v ++ preorderAll depth rest

end

/-- A layer in a line of text: its language and the bytes that its tree covers. -/
def describe (depth : Nat) (v : LayerView) : String :=
  let r := v.rootRange.getD ⟨0, 0⟩
  String.join (List.replicate depth "  ") ++
    s!"● {v.language.name} [{r.location} - {r.location + r.length}]\n"

/-- The layer that is reached by the numbers of children. -/
def descend : LayerView → List Nat → Option LayerView
  | v, [] => some v
  | v, i :: rest => (v.children[i]?).bind (·.descend rest)
termination_by _ path => path.length

/-- A layer that holds a point, and its innermost node at the point with the nodes around it. -/
structure Hit where
  language : Language
  branch : Branch

namespace Hit

/-- A layer has a node at a point, or none. -/
def of? (language : Language) (branch : Branch) : Option Hit :=
  if branch.isEmpty then none else some ⟨language, branch⟩

/-- The innermost node. -/
def node? (h : Hit) : Option Node := h.branch.head?

/-- The number of bytes of the innermost node. -/
def size (h : Hit) : Nat := (h.node?.map (·.byteRange.length)).getD 0

/-- The smaller one of two nodes found. Of nodes of the same size it is the later one. -/
def nearer : Option Hit → Option Hit → Option Hit
  | some best, some found => if found.size ≤ best.size then some found else some best
  | none, found => found
  | best, none => best

end Hit

mutual

/-- The smallest node at a point in a layer and the layers below it whose trees touch the point. Of
nodes of the same size the one found later counts, so that a layer below comes before the one
above. -/
def hit (branchAt : Node → Point → Branch) (p : Point) : LayerView → Option Hit
  | ⟨_, _, none, _, _, _⟩ => none
  | ⟨_, language, some tree, _, _, children⟩ =>
      hitBelow branchAt p (Hit.of? language (branchAt tree.root p)) children

/-- The smallest one of a node found and those in some layers. -/
def hitBelow (branchAt : Node → Point → Branch) (p : Point) (best : Option Hit) :
    List LayerView → Option Hit
  | [] => best
  | v :: rest =>
      if v.tree.any (·.root.touches p) then
        hitBelow branchAt p (Hit.nearer best (hit branchAt p v)) rest
      else hitBelow branchAt p best rest

end

end LayerView

namespace LayerTree

/-- The layers and the bytes they cover, a line of text for each. -/
def hierarchy (t : LayerTree) : String :=
  String.join ((t.view.toList.flatMap (·.preorder 0)).map fun (depth, v) => v.describe depth)

/-- The smallest node at a point over all layers. -/
def hit? (t : LayerTree) (branchAt : Node → Point → Branch) (p : Point) : Option LayerView.Hit :=
  t.view.bind (·.hit branchAt p)

end LayerTree

end CodeEditor.Layer

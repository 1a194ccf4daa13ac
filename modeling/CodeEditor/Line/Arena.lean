import CodeEditor.Checked
import CodeEditor.Line.Tree

/-!
The line tree in memory.

An arena has numbered slots. A live slot is a node: it names its parent and its two children by
their numbers and has the color, the sizes and the sums of the node. The others are free and stand
in a list from which the next node is taken. Every operation follows links from slot to slot and
writes single slots. A number that is no slot's, or a sum that leaves the machine word, stops it
without a value.

Going up or down ends when there is no further link. A way that visits more nodes than there are
slots leads in a circle, on which it would go on for ever; the operations that follow links take at
most as many steps as there are slots, and have no value when these do not suffice.
-/

namespace CodeEditor

/-- A slot of an arena. -/
structure Slot where
  generation : UInt32
  live : Bool
  parent : Option Nat
  left : Option Nat
  right : Option Nat
  color : Color
  metrics : LineMetrics
  summary : Summary

/-- The slots of a line tree. -/
structure LineArena where
  slots : Array Slot
  /-- The free slots; the next node takes the first. -/
  free : List Nat
  root : Option Nat

/-- The sums of a node from those of its subtrees, unless one of them leaves the machine word. -/
def Summary.combine? (left right : Summary) (m : LineMetrics) : Checked Summary := do
  let lengths ← Checked.add left.length right.length
  let _ ← Checked.add lengths m.totalLength
  let _ ← Checked.add (left.count + 1) right.count
  return Summary.combine left right m

/-- The other side. -/
def Side.other : Side → Side
  | .left => .right
  | .right => .left

namespace Slot

/-- A node that is not yet linked. -/
def leaf (generation : UInt32) (m : LineMetrics) : Slot where
  generation
  live := true
  parent := none
  left := none
  right := none
  color := .red
  metrics := m
  summary := Summary.ofLine m

/-- The child on a side. -/
def child (s : Slot) : Side → Option Nat
  | .left => s.left
  | .right => s.right

/-- The slot with another child on a side. -/
def setChild (s : Slot) (side : Side) (link : Option Nat) : Slot :=
  match side with
  | .left => { s with left := link }
  | .right => { s with right := link }

end Slot

namespace LineArena

/-- An arena without slots. -/
def empty : LineArena := ⟨#[], [], none⟩

/-! ### Reading and writing slots -/

def slot (a : LineArena) (i : Nat) : Checked Slot := a.slots[i]?

/-- Change a slot. -/
def write (a : LineArena) (i : Nat) (f : Slot → Slot) : Checked LineArena :=
  if i < a.slots.size then some { a with slots := a.slots.modify i f } else none

/-- Change the slot that a link leads to, if it leads to one. -/
def writeAt (a : LineArena) : Option Nat → (Slot → Slot) → Checked LineArena
  | none, _ => some a
  | some i, f => a.write i f

/-- The color behind a link. No node counts as black. -/
def color (a : LineArena) : Option Nat → Checked Color
  | none => some .black
  | some i => (a.slot i).map (·.color)

/-- The sums behind a link. -/
def summary (a : LineArena) : Option Nat → Checked Summary
  | none => some Summary.zero
  | some i => (a.slot i).map (·.summary)

def paint (a : LineArena) (link : Option Nat) (color : Color) : Checked LineArena :=
  a.writeAt link fun s => { s with color }

/-- Make the sums of a node fresh. -/
def recompute (a : LineArena) (i : Nat) : Checked LineArena := do
  let s ← a.slot i
  let left ← a.summary s.left
  let right ← a.summary s.right
  let summary ← Summary.combine? left right s.metrics
  a.write i fun s => { s with summary }

/-- Make the sums fresh from a node up to the root, in a number of steps. -/
def updateToRootIn : Nat → LineArena → Option Nat → Checked LineArena
  | _, a, none => some a
  | 0, _, some _ => none
  | steps + 1, a, some i => do
      let a ← a.recompute i
      let s ← a.slot i
      updateToRootIn steps a s.parent

def updateToRoot (a : LineArena) (link : Option Nat) : Checked LineArena :=
  updateToRootIn a.slots.size a link

/-- The first node from a node on downwards, in a number of steps. -/
def leftmostIn : Nat → LineArena → Nat → Checked Nat
  | 0, _, _ => none
  | steps + 1, a, i => do
      match (← a.slot i).left with
      | none => return i
      | some left => leftmostIn steps a left

def leftmost (a : LineArena) (i : Nat) : Checked Nat := leftmostIn a.slots.size a i

/-! ### Slots for nodes -/

/-- Take a slot for a new node. -/
def alloc (a : LineArena) (m : LineMetrics) : Checked (Nat × LineArena) :=
  match a.free with
  | i :: free => do
      let a ← { a with free }.write i fun s => .leaf s.generation m
      return (i, a)
  | [] => some (a.slots.size, { a with slots := a.slots.push (.leaf 0 m) })

/-- Give a slot back. Its identity is that of no node from now on. -/
def release (a : LineArena) (i : Nat) : Checked LineArena := do
  let a ← a.write i fun s => { s with
    live := false, generation := s.generation + 1, parent := none, left := none, right := none }
  return { a with free := i :: a.free }

/-- Give all slots back, the lowest first. -/
def clear (a : LineArena) : LineArena where
  slots := a.slots.map fun s =>
    if s.live then { s with live := false, generation := s.generation + 1 } else s
  free := List.range a.slots.size
  root := none

/-- The identity of the node in a slot. -/
def idOf (a : LineArena) (i : Nat) : Checked LineId := do
  return ⟨i, (← a.slot i).generation⟩

/-- The slot of an identity, if its node is still there. -/
def resolve (a : LineArena) (id : LineId) : Option Nat :=
  match a.slots[id.slot]? with
  | none => none
  | some s => if s.live ∧ s.generation = id.generation then some id.slot else none

/-- The number of nodes. -/
def nodeCount (a : LineArena) : Checked Nat := do
  return (← a.summary a.root).count

/-! ### Turning -/

/-- Put another node, or none, in the place of a node. -/
def replaceNode (a : LineArena) (replaced : Nat) (new : Option Nat) : Checked LineArena := do
  let parent := (← a.slot replaced).parent
  let a ← match parent with
    | none => some { a with root := new }
    | some p => do
        let side : Side := if (← a.slot p).left = some replaced then .left else .right
        a.write p (·.setChild side new)
  let a ← a.writeAt new fun s => { s with parent }
  a.write replaced fun s => { s with parent := none }

/-- Turn a node down to a side: its child on the other side takes its place. -/
def rotate (a : LineArena) (side : Side) (p : Nat) : Checked LineArena := do
  match (← a.slot p).child side.other with
  | none => none
  | some q =>
      let a ← a.replaceNode p (some q)
      let inner := (← a.slot q).child side
      let a ← a.write p (·.setChild side.other inner)
      let a ← a.writeAt inner fun s => { s with parent := some p }
      let a ← a.write q (·.setChild side (some p))
      let a ← a.write p fun s => { s with parent := some q }
      let a ← a.recompute p
      a.recompute q

/-! ### Inserting -/

/-- Turn a node's grandparent so that its parent, which becomes black, takes the grandparent's
place. -/
def raiseParent (a : LineArena) (node : Nat) : Checked LineArena := do
  match (← a.slot node).parent with
  | none => return a
  | some parent =>
      match (← a.slot parent).parent with
      | none => return a
      | some grand =>
          let a ← a.paint (some parent) .black
          let a ← a.paint (some grand) .red
          let outerLeft := (← a.slot parent).left = some node ∧ (← a.slot grand).left = some parent
          a.rotate (if outerLeft then .right else .left) grand

/-- A red node that is an inner grandchild takes its parent's place first. Returns the lower of the
two. -/
def straighten (a : LineArena) (node parent grand : Nat) : Checked (Nat × LineArena) := do
  let p ← a.slot parent
  let g ← a.slot grand
  if p.right = some node ∧ g.left = some parent then return (parent, ← a.rotate .left parent)
  else if p.left = some node ∧ g.right = some parent then return (parent, ← a.rotate .right parent)
  else return (node, a)

/-- Restore the colors after a red node was put in, in a number of steps. No red node keeps a red
parent. -/
def fixAfterInsertIn : Nat → LineArena → Nat → Checked LineArena
  | 0, _, _ => none
  | steps + 1, a, node => do
      match (← a.slot node).parent with
      | none => a.paint (some node) .black
      | some parent =>
          let p ← a.slot parent
          if p.color = .black then return a
          else
            match p.parent with
            | none => a.paint (some parent) .black
            | some grand =>
                let g ← a.slot grand
                let uncle := if g.left = some parent then g.right else g.left
                if (← a.color uncle) = .red then
                  let a ← a.paint (some parent) .black
                  let a ← a.paint uncle .black
                  let a ← a.paint (some grand) .red
                  fixAfterInsertIn steps a grand
                else
                  let (node, a) ← a.straighten node parent grand
                  a.raiseParent node

def fixAfterInsert (a : LineArena) (node : Nat) : Checked LineArena :=
  fixAfterInsertIn a.slots.size a node

/-- Put a new node below a node that has no child on the side. -/
def attach (a : LineArena) (side : Side) (parent new : Nat) : Checked LineArena := do
  let a ← a.write parent (·.setChild side (some new))
  let a ← a.write new fun s => { s with parent := some parent, color := .red }
  let a ← a.updateToRoot (some parent)
  a.fixAfterInsert new

/-- Put a new node directly behind a node. -/
def attachBehind (a : LineArena) (after new : Nat) : Checked LineArena := do
  match (← a.slot after).right with
  | none => a.attach .right after new
  | some right => a.attach .left (← a.leftmost right) new

/-- Put a new line directly behind a line. Says what its identity is, unless the line is gone. -/
def insertAfter (a : LineArena) (after : LineId) (m : LineMetrics) :
    Checked (Option LineId × LineArena) :=
  match a.resolve after with
  | none => some (none, a)
  | some after => do
      let (new, a) ← a.alloc m
      let a ← a.attachBehind after new
      return (some (← a.idOf new), a)

/-! ### Removing -/

/-- The child of a node that is not the given one. -/
def sibling (a : LineArena) (node : Option Nat) (parent : Nat) : Checked (Option Nat) := do
  let s ← a.slot parent
  return if s.left = node then s.right else s.left

/-- Turn a parent down to the side of a node that lacks a black node. -/
def rotateTo (a : LineArena) (node : Option Nat) (parent : Nat) : Checked LineArena := do
  a.rotate (if (← a.slot parent).left = node then .left else .right) parent

/-- A red sibling takes the parent's place. Returns the sibling that there is then. -/
def lowerRed (a : LineArena) (node : Option Nat) (parent sibling : Nat) :
    Checked (Option Nat × LineArena) := do
  if (← a.slot sibling).color = .red then
    let a ← a.paint (some parent) .red
    let a ← a.paint (some sibling) .black
    let a ← a.rotateTo node parent
    return (← a.sibling node parent, a)
  else return (some sibling, a)

/-- A red nephew on the side of the node takes the sibling's place. -/
def lowerNephew (a : LineArena) (node : Option Nat) (parent sibling : Nat) : Checked LineArena := do
  let p ← a.slot parent
  let s ← a.slot sibling
  let left ← a.color s.left
  let right ← a.color s.right
  if p.left = node ∧ s.color = .black ∧ left = .red ∧ right = .black then
    let a ← a.paint (some sibling) .red
    let a ← a.paint s.left .black
    a.rotate .right sibling
  else if p.right = node ∧ s.color = .black ∧ right = .red ∧ left = .black then
    let a ← a.paint (some sibling) .red
    let a ← a.paint s.right .black
    a.rotate .left sibling
  else return a

/-- The sibling takes the parent's place and color, the parent becomes black and so does the nephew
on the far side. -/
def raiseSibling (a : LineArena) (node : Option Nat) (parent : Nat) : Checked LineArena := do
  match ← a.sibling node parent with
  | none => return a
  | some sibling =>
      let a ← a.paint (some sibling) (← a.slot parent).color
      let a ← a.paint (some parent) .black
      let s ← a.slot sibling
      let far := if (← a.slot parent).left = node then s.right else s.left
      let a ← a.paint far .black
      a.rotateTo node parent

/-- Restore the black heights beside a black sibling, with something red around. -/
def settle (a : LineArena) (node : Option Nat) (parent sibling : Nat) : Checked LineArena := do
  let p ← a.slot parent
  let s ← a.slot sibling
  let left ← a.color s.left
  let right ← a.color s.right
  if p.color = .red ∧ s.color = .black ∧ left = .black ∧ right = .black then
    let a ← a.paint (some sibling) .red
    a.paint (some parent) .black
  else
    let a ← a.lowerNephew node parent sibling
    a.raiseSibling node parent

/-- Restore the black heights after a black node was taken out above a node, or above none, in a
number of steps. -/
def fixAfterRemoveIn : Nat → LineArena → Option Nat → Option Nat → Checked LineArena
  | _, a, _, none => some a
  | 0, _, _, some _ => none
  | steps + 1, a, node, some parent => do
      match ← a.sibling node parent with
      | none => return a
      | some sibling =>
          match ← a.lowerRed node parent sibling with
          | (none, a) => return a
          | (some sibling, a) =>
              let p ← a.slot parent
              let s ← a.slot sibling
              let left ← a.color s.left
              let right ← a.color s.right
              if p.color = .black ∧ s.color = .black ∧ left = .black ∧ right = .black then
                let a ← a.paint (some sibling) .red
                fixAfterRemoveIn steps a (some parent) p.parent
              else a.settle node parent sibling

def fixAfterRemove (a : LineArena) (node parent : Option Nat) : Checked LineArena :=
  fixAfterRemoveIn a.slots.size a node parent

/-- Take a node with at most one child out of the tree. -/
def splice (a : LineArena) (node : Nat) : Checked LineArena := do
  let s ← a.slot node
  let child := s.left.or s.right
  let a ← a.replaceNode node child
  let a ← a.updateToRoot s.parent
  if s.color = .black then
    if (← a.color child) = .red then a.paint child .black else a.fixAfterRemove child s.parent
  else return a

/-- Put a node that is out of the tree in the place of another. -/
def substitute (a : LineArena) (node new : Nat) : Checked LineArena := do
  let a ← a.replaceNode node (some new)
  let s ← a.slot node
  let a ← a.write new fun n => { n with left := s.left }
  let a ← a.writeAt s.left fun n => { n with parent := some new }
  let a ← a.write new fun n => { n with right := s.right }
  let a ← a.writeAt s.right fun n => { n with parent := some new }
  let a ← a.write new fun n => { n with color := s.color }
  a.updateToRoot (some new)

/-- Take a node out of the tree. The one that follows a node with two children is taken out in its
stead, which is done as for a node without a left child, and takes its place. -/
def unlink (a : LineArena) (node : Nat) : Checked LineArena := do
  let s ← a.slot node
  match s.left, s.right with
  | some _, some right =>
      let next ← a.leftmost right
      let a ← a.splice next
      a.substitute node next
  | _, _ => a.splice node

/-- Take a line out. Says whether that was done: a line that is gone and the only line stay as they
are. -/
def remove (a : LineArena) (id : LineId) : Checked (Bool × LineArena) :=
  match a.resolve id with
  | none => some (false, a)
  | some i => do
      if (← a.nodeCount) ≤ 1 then return (false, a)
      else
        let a ← a.unlink i
        return (true, ← a.release i)

/-- Change the sizes of a line. Says whether that was done. -/
def update (a : LineArena) (id : LineId) (f : LineMetrics → LineMetrics) :
    Checked (Bool × LineArena) :=
  match a.resolve id with
  | none => some (false, a)
  | some i => do
      let a ← a.write i fun s => { s with metrics := f s.metrics }
      return (true, ← a.updateToRoot (some i))

/-! ### Whole contents -/

/-- Start over with a single line. -/
def reset (a : LineArena) (m : LineMetrics) : Checked (LineId × LineArena) := do
  let (root, a) ← a.clear.alloc m
  let a ← a.paint (some root) .black
  return (← a.idOf root, { a with root := some root })

/-- Take a slot for each of several lines, in order. -/
def allocAll (a : LineArena) : List LineMetrics → Checked (List Nat × LineArena)
  | [] => some ([], a)
  | m :: rest => do
      let (i, a) ← a.alloc m
      let (indices, a) ← a.allocAll rest
      return (i :: indices, a)

/-- The number of levels of a balanced tree of a number of nodes. -/
def treeHeight (size : Nat) : Nat :=
  if size = 0 then 0 else treeHeight (size / 2) + 1

/-- Link unlinked nodes to a balanced tree and return its root. Only the lowest level is red. -/
def build (a : LineArena) (indices : List Nat) (height : Nat) : Checked (Option Nat × LineArena) :=
  match _drop : indices.drop (indices.length / 2) with
  | [] => some (none, a)
  | node :: after => do
      let (left, a) ← a.build (indices.take (indices.length / 2)) (height - 1)
      let (right, a) ← a.build after (height - 1)
      let color := if height = 1 then .red else .black
      let a ← a.write node fun s => { s with left, right, color }
      let a ← a.writeAt left fun s => { s with parent := some node }
      let a ← a.writeAt right fun s => { s with parent := some node }
      return (some node, ← a.recompute node)
termination_by indices.length
decreasing_by
  all_goals
    have half := congrArg List.length _drop
    rw [List.length_drop, List.length_cons] at half
    try rw [List.length_take]
    omega

/-- Start over with a list of lines, or with one empty line when the list is empty. -/
def rebuild (a : LineArena) (lines : List LineMetrics) : Checked (List LineId × LineArena) :=
  match lines with
  | [] => do
      let (id, a) ← a.reset (.undelimited 0 0.0)
      return ([id], a)
  | lines => do
      let (indices, a) ← a.clear.allocAll lines
      let (root, a) ← a.build indices (treeHeight indices.length)
      let a ← a.writeAt root fun s => { s with parent := none, color := .black }
      let a := { a with root }
      return (← indices.mapM a.idOf, a)

/-- An arena with a single line. -/
def single (m : LineMetrics) : Checked (LineId × LineArena) := empty.reset m

end LineArena

end CodeEditor

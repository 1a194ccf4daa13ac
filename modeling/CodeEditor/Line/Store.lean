import CodeEditor.Line.Tree

/-!
The lines of a document with their identities.

A `LineStore` is a tree of lines together with the slots that their identities name. A slot holds a
line of the tree or is free; freeing a slot moves it on to its next generation, so an identity of a
line that is gone is the identity of no line of the tree.
-/

namespace CodeEditor

/-- A tree of lines and the slots for their identities. -/
structure LineStore where
  tree : LineTree
  /-- The generation of each slot. -/
  generations : Array UInt32
  /-- The free slots; the next line takes the first. -/
  free : List Nat

namespace LineStore

/-- The identities and sizes of the lines from top to bottom. -/
def toList (s : LineStore) : List (LineId × LineMetrics) := s.tree.toList

def count (s : LineStore) : Nat := s.tree.summary.count

def totalLength (s : LineStore) : Nat := s.tree.summary.length

def totalHeight (s : LineStore) : Float := s.tree.summary.height

/-! ### Slots -/

/-- Take a free slot, or a new one when there is none. -/
def allocate (s : LineStore) : LineId × LineStore :=
  match s.free with
  | slot :: free => (⟨slot, s.generations.getD slot 0⟩, { s with free })
  | [] => (⟨s.generations.size, 0⟩, { s with generations := s.generations.push 0 })

/-- Give back the slot of a line that left the tree. -/
def release (s : LineStore) (id : LineId) : LineStore :=
  { s with
    generations := s.generations.modify id.slot (· + 1)
    free := id.slot :: s.free }

/-- Drop all lines. Their slots are free again, the lowest first. -/
def clear (s : LineStore) : LineStore where
  tree := .empty
  generations := s.toList.foldl (fun g (id, _) => g.modify id.slot (· + 1)) s.generations
  free := List.range s.generations.size

/-- Take a slot for each of several lines, in order. -/
def allocateAll (s : LineStore) : List LineMetrics → List (LineId × LineMetrics) × LineStore
  | [] => ([], s)
  | m :: rest =>
      let (id, s) := s.allocate
      let (entries, s) := s.allocateAll rest
      ((id, m) :: entries, s)

/-! ### Whole contents -/

/-- Start over with a single line. -/
def reset (s : LineStore) (m : LineMetrics) : LineStore :=
  let (id, s) := s.clear.allocate
  { s with tree := .node ⟨.black, Summary.ofLine m, id, m⟩ .empty .empty }

/-- A store with a single line. -/
def single (m : LineMetrics) : LineStore :=
  LineStore.reset ⟨.empty, #[], []⟩ m

/-- Start over with a list of lines, or with one empty line when the list is empty. -/
def rebuild (s : LineStore) (lines : List LineMetrics) : LineStore :=
  match lines with
  | [] => s.reset (.undelimited 0 0.0)
  | _ =>
      let (entries, s) := s.clear.allocateAll lines
      { s with tree := .ofList entries }

/-! ### Lines -/

/-- Where a line stands, unless it is gone. -/
def locate (s : LineStore) (id : LineId) : Option Place := s.tree.locate id

/-- The sizes of a line. -/
def metrics? (s : LineStore) (id : LineId) : Option LineMetrics :=
  (s.locate id).map (·.cell.metrics)

/-- The offset of a line's first code unit. -/
def location? (s : LineStore) (id : LineId) : Option Nat :=
  (s.locate id).map (·.location)

def first? (s : LineStore) : Option LineId := s.tree.first?

def last? (s : LineStore) : Option LineId := s.tree.last?

/-- The line below a line. -/
def next? (s : LineStore) (id : LineId) : Option LineId := (s.locate id).bind (·.next?)

/-- The line above a line. -/
def previous? (s : LineStore) (id : LineId) : Option LineId := (s.locate id).bind (·.previous?)

/-- The line that contains an offset. The end of the text belongs to the last line. -/
def containing? (s : LineStore) (offset : Nat) : Option LineId :=
  if s.totalLength < offset then none
  else if offset = s.totalLength then s.last?
  else s.tree.containing offset

/-- The line with the given number of lines above. -/
def atRow? (s : LineStore) (row : Nat) : Option LineId := s.tree.atRow row

/-- The line that contains a vertical position. What lies below all lines belongs to the last, what
lies above to none. -/
def containingY? (s : LineStore) (y : Float) : Option LineId :=
  if y < 0.0 then none
  else if y ≥ s.totalHeight then s.last?
  else s.tree.containingY y

/-- Change the sizes of a line, unless it is gone. -/
def update? (s : LineStore) (id : LineId) (f : LineMetrics → LineMetrics) : Option LineStore :=
  (s.locate id).map fun place =>
    { s with tree := LineTree.exchange place id (f place.cell.metrics) }

/-- Put a new line behind a line, unless that is gone. -/
def insertAfter? (s : LineStore) (id : LineId) (m : LineMetrics) : Option (LineId × LineStore) :=
  (s.locate id).map fun place =>
    let (new, s) := s.allocate
    (new, { s with tree := LineTree.insertAfter place new m })

/-- Take out a line. A line that is gone and the only line stay as they are. -/
def erase? (s : LineStore) (id : LineId) : Option LineStore :=
  (s.locate id).bind fun place =>
    if s.count ≤ 1 then none
    else some ({ s with tree := LineTree.erase place }.release id)

end LineStore

end CodeEditor

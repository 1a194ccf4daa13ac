import CodeEditor.Line.Id

/-!
The lines that an edit touches.

An edit inserts lines, removes lines and edits the text of lines that stay. A line stands in at most
one of the three sets: removing it outweighs the other two, and a new line is not also an edited
one. `LineChanges.kind?` says how a line was changed.
-/

namespace CodeEditor

/-- How an edit changed a line, from the weakest to the strongest. -/
inductive LineChange where
  | edited
  | inserted
  | removed
deriving DecidableEq

/-- A set of lines. -/
structure LineSet where
  members : List LineId
deriving Inhabited

namespace LineSet

def empty : LineSet := ⟨[]⟩

instance : EmptyCollection LineSet := ⟨empty⟩

instance : Membership LineId LineSet := ⟨fun s id => id ∈ s.members⟩

instance (id : LineId) (s : LineSet) : Decidable (id ∈ s) :=
  inferInstanceAs (Decidable (id ∈ s.members))

def isEmpty (s : LineSet) : Bool := s.members.isEmpty

def insert (s : LineSet) (id : LineId) : LineSet :=
  if id ∈ s then s else ⟨id :: s.members⟩

def erase (s : LineSet) (id : LineId) : LineSet :=
  ⟨s.members.filter (· ≠ id)⟩

/-- The two sets have the same members, in whatever order they were put in. -/
def sameAs (s t : LineSet) : Bool :=
  s.members.all (· ∈ t) && t.members.all (· ∈ s)

theorem mem_def {id : LineId} {s : LineSet} : id ∈ s ↔ id ∈ s.members := Iff.rfl

@[simp] theorem not_mem_empty (id : LineId) : id ∉ (∅ : LineSet) := by
  show id ∉ ([] : List LineId)
  simp

@[simp] theorem mem_insert {id other : LineId} {s : LineSet} :
    id ∈ s.insert other ↔ id = other ∨ id ∈ s := by
  unfold insert
  split
  · next h => exact ⟨.inr, fun e => e.elim (fun e => e ▸ h) fun h => h⟩
  · simp [mem_def]

@[simp] theorem mem_erase {id other : LineId} {s : LineSet} :
    id ∈ s.erase other ↔ id ∈ s ∧ id ≠ other := by
  simp [erase, mem_def]

end LineSet

/-- The lines that an edit inserts, removes and edits. -/
structure LineChanges where
  inserted : LineSet := ∅
  removed : LineSet := ∅
  edited : LineSet := ∅
deriving Inhabited

namespace LineChanges

/-- No line is touched. -/
def none : LineChanges := {}

/-- How a line was changed, if at all. -/
def kind? (c : LineChanges) (id : LineId) : Option LineChange :=
  if id ∈ c.removed then some .removed
  else if id ∈ c.inserted then some .inserted
  else if id ∈ c.edited then some .edited
  else Option.none

/-- Record that a line was inserted. -/
def markInserted (c : LineChanges) (id : LineId) : LineChanges where
  inserted := c.inserted.insert id
  removed := c.removed.erase id
  edited := c.edited.erase id

/-- Record that a line was removed. -/
def markRemoved (c : LineChanges) (id : LineId) : LineChanges where
  inserted := c.inserted.erase id
  removed := c.removed.insert id
  edited := c.edited.erase id

/-- Record that a line was edited. Lines that were inserted or removed stay so. -/
def markEdited (c : LineChanges) (id : LineId) : LineChanges :=
  if id ∈ c.inserted ∨ id ∈ c.removed then c
  else { c with edited := c.edited.insert id }

/-- Both sets of changes: removals first, then insertions of lines that neither removes, then
edits. -/
def union (c d : LineChanges) : LineChanges :=
  let c := d.removed.members.foldl markRemoved c
  let c := d.inserted.members.foldl (fun c id => if id ∈ c.removed then c else c.markInserted id) c
  d.edited.members.foldl markEdited c

/-- The line was inserted or edited. -/
def touches (c : LineChanges) (id : LineId) : Bool :=
  decide (id ∈ c.inserted) || decide (id ∈ c.edited)

/-- Lines were added or removed. -/
def addsOrRemoves (c : LineChanges) : Bool := !c.inserted.isEmpty || !c.removed.isEmpty

def isEmpty (c : LineChanges) : Bool :=
  c.inserted.isEmpty && c.removed.isEmpty && c.edited.isEmpty

/-- The three sets have the same members. -/
def sameAs (c d : LineChanges) : Bool :=
  c.inserted.sameAs d.inserted && c.removed.sameAs d.removed && c.edited.sameAs d.edited

end LineChanges

end CodeEditor

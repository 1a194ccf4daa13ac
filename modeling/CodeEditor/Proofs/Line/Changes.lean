import CodeEditor.Line.Changes

/-!
The members of a union of changes.

`union` puts the second changes on top of the first: a line that either removes is removed, one that
either inserts is inserted unless it is removed, and one that either edits is edited unless it is
one of the others (`mem_removed_union`, `mem_inserted_union`, `mem_edited_union`). Nothing is lost
on the way: a line that one of the two touches is touched (`marks_union`). Inserting a single line
is a union as well.
-/

namespace CodeEditor

namespace LineSet

theorem isEmpty_iff {s : LineSet} : s.isEmpty = true ↔ ∀ id, id ∉ s := by
  rw [isEmpty, List.isEmpty_iff]
  exact List.eq_nil_iff_forall_not_mem

end LineSet

namespace LineChanges

variable {c d : LineChanges} {id : LineId}

/-- The changes touch a line. -/
def Marks (c : LineChanges) (id : LineId) : Prop :=
  id ∈ c.inserted ∨ id ∈ c.removed ∨ id ∈ c.edited

/-! ### Single lines -/

@[simp] theorem not_mem_inserted_none (id : LineId) : id ∉ none.inserted := LineSet.not_mem_empty id

@[simp] theorem not_mem_removed_none (id : LineId) : id ∉ none.removed := LineSet.not_mem_empty id

@[simp] theorem not_mem_edited_none (id : LineId) : id ∉ none.edited := LineSet.not_mem_empty id

theorem marks_markEdited (id : LineId) : (none.markEdited id).Marks id := by
  simp [Marks, markEdited]

theorem marks_markInserted {other : LineId} :
    (c.markInserted id).Marks other ↔ c.Marks other ∨ other = id := by
  simp only [Marks, markInserted, LineSet.mem_insert, LineSet.mem_erase]
  grind

@[simp] theorem union_none (c : LineChanges) : c.union none = c := rfl

theorem union_markInserted (kept : id ∉ c.removed) :
    c.union (none.markInserted id) = c.markInserted id :=
  if_neg kept

/-! ### Several lines -/

theorem mem_foldl_markRemoved (lines : List LineId) (c : LineChanges) :
    (id ∈ (lines.foldl markRemoved c).removed ↔ id ∈ c.removed ∨ id ∈ lines) ∧
      (id ∈ (lines.foldl markRemoved c).inserted ↔ id ∈ c.inserted ∧ id ∉ lines) ∧
      (id ∈ (lines.foldl markRemoved c).edited ↔ id ∈ c.edited ∧ id ∉ lines) := by
  induction lines generalizing c with
  | nil => simp
  | cons line lines ih =>
      obtain ⟨removed, inserted, edited⟩ := ih (c.markRemoved line)
      rw [List.foldl_cons, removed, inserted, edited, markRemoved]
      simp only [LineSet.mem_insert, LineSet.mem_erase, List.mem_cons]
      grind

/-- Inserting lines leaves those that are removed. -/
theorem mem_foldl_markInserted (lines : List LineId) (c : LineChanges) :
    let c' := lines.foldl (fun c id => if id ∈ c.removed then c else c.markInserted id) c
    (id ∈ c'.removed ↔ id ∈ c.removed) ∧
      (id ∈ c'.inserted ↔ id ∈ c.inserted ∨ id ∈ lines ∧ id ∉ c.removed) ∧
      (id ∈ c'.edited ↔ id ∈ c.edited ∧ ¬(id ∈ lines ∧ id ∉ c.removed)) := by
  induction lines generalizing c with
  | nil => simp
  | cons line lines ih =>
      obtain ⟨removed, inserted, edited⟩ :=
        ih (if line ∈ c.removed then c else c.markInserted line)
      dsimp only
      rw [List.foldl_cons, removed, inserted, edited]
      split
      · next gone => grind
      · next kept =>
          simp only [markInserted, LineSet.mem_insert, LineSet.mem_erase, List.mem_cons]
          grind

/-- Editing lines leaves those that are inserted or removed. -/
theorem mem_foldl_markEdited (lines : List LineId) (c : LineChanges) :
    (id ∈ (lines.foldl markEdited c).removed ↔ id ∈ c.removed) ∧
      (id ∈ (lines.foldl markEdited c).inserted ↔ id ∈ c.inserted) ∧
      (id ∈ (lines.foldl markEdited c).edited ↔
        id ∈ c.edited ∨ id ∈ lines ∧ id ∉ c.inserted ∧ id ∉ c.removed) := by
  induction lines generalizing c with
  | nil => simp
  | cons line lines ih =>
      obtain ⟨removed, inserted, edited⟩ := ih (c.markEdited line)
      rw [List.foldl_cons, removed, inserted, edited, markEdited]
      split
      · next other => grind
      · next free =>
          simp only [LineSet.mem_insert, List.mem_cons]
          grind

/-! ### Unions -/

theorem mem_removed_union : id ∈ (c.union d).removed ↔ id ∈ c.removed ∨ id ∈ d.removed := by
  rw [union, (mem_foldl_markEdited _ _).1, (mem_foldl_markInserted _ _).1,
    (mem_foldl_markRemoved _ _).1]
  rfl

theorem mem_inserted_union : id ∈ (c.union d).inserted ↔
    id ∉ d.removed ∧ (id ∈ c.inserted ∨ id ∈ d.inserted ∧ id ∉ c.removed) := by
  rw [union, (mem_foldl_markEdited _ _).2.1, (mem_foldl_markInserted _ _).2.1,
    (mem_foldl_markRemoved _ _).1, (mem_foldl_markRemoved _ _).2.1]
  show id ∈ c.inserted ∧ id ∉ d.removed ∨ id ∈ d.inserted ∧ ¬(id ∈ c.removed ∨ id ∈ d.removed) ↔ _
  grind

theorem mem_edited_union : id ∈ (c.union d).edited ↔
    id ∈ c.edited ∧ id ∉ d.removed ∧ ¬(id ∈ d.inserted ∧ id ∉ c.removed) ∨
      id ∈ d.edited ∧ id ∉ (c.union d).inserted ∧ id ∉ (c.union d).removed := by
  rw [mem_inserted_union, mem_removed_union, union, (mem_foldl_markEdited _ _).2.2,
    (mem_foldl_markInserted _ _).1, (mem_foldl_markInserted _ _).2.1,
    (mem_foldl_markInserted _ _).2.2, (mem_foldl_markRemoved _ _).1,
    (mem_foldl_markRemoved _ _).2.1, (mem_foldl_markRemoved _ _).2.2]
  simp only [← LineSet.mem_def]
  grind

/-- A union touches exactly the lines that one of the two touches. -/
theorem marks_union : (c.union d).Marks id ↔ c.Marks id ∨ d.Marks id := by
  rw [Marks, mem_edited_union, mem_inserted_union, mem_removed_union, Marks, Marks]
  grind

/-- Changes without added or removed lines. -/
theorem addsOrRemoves_eq_false_iff : c.addsOrRemoves = false ↔
    (∀ id, id ∉ c.inserted) ∧ ∀ id, id ∉ c.removed := by
  rw [addsOrRemoves, Bool.or_eq_false_iff, Bool.not_eq_false', Bool.not_eq_false',
    LineSet.isEmpty_iff, LineSet.isEmpty_iff]

end LineChanges

end CodeEditor

import CodeEditor.Proofs.Document.Edits

/-!
Undoing and redoing in one.

Undoing and redoing mirror each other: both take the group of changes on top of the stack that lies
ahead and put it on the one behind. `Direction` says which stack that is, so that what holds of both
is said once. `OnTimeline.move_cases` is all that a move does to a document on a timeline, and
`travel` is one move after the other.
-/

namespace CodeEditor

/-- The way in which the position in a history moves. -/
inductive Direction where
  /-- Undoing. -/
  | back
  /-- Redoing. -/
  | on
deriving DecidableEq

namespace Direction

def opposite : Direction → Direction
  | .back => .on
  | .on => .back

@[simp] theorem opposite_opposite (dir : Direction) : dir.opposite.opposite = dir := by
  cases dir <;> rfl

/-- The error when there is no change ahead. -/
def nothing : Direction → EditError
  | .back => .nothingToUndo
  | .on => .nothingToRedo

end Direction

namespace History

/-- The changes that come next in a direction, the very next one first. -/
def ahead (h : History) : Direction → List UndoStep
  | .back => h.done
  | .on => h.undone

/-- The history with other changes ahead and behind, and no open group. -/
def relocate (h : History) (ahead behind : List UndoStep) : Direction → History
  | .back => { h with done := ahead, undone := behind, openGroup := none }
  | .on => { h with done := behind, undone := ahead, openGroup := none }

@[simp] theorem ahead_relocate (h : History) (ahead behind : List UndoStep) (dir : Direction) :
    (h.relocate ahead behind dir).ahead dir = ahead := by
  cases dir <;> rfl

@[simp] theorem behind_relocate (h : History) (ahead behind : List UndoStep) (dir : Direction) :
    (h.relocate ahead behind dir).ahead dir.opposite = behind := by
  cases dir <;> rfl

@[simp] theorem ahead_relocate_opposite (h : History) (ahead behind : List UndoStep)
    (dir : Direction) : (h.relocate ahead behind dir.opposite).ahead dir = behind := by
  cases dir <;> rfl

/-- The history after the group `run` was moved over. -/
def advance (h : History) (dir : Direction) (run rest : List UndoStep) : History :=
  h.relocate rest (run.reverse ++ h.ahead dir.opposite) dir

end History

namespace Document

variable {μ : Type} [LanguageMode μ] {d : Document μ} {texts : List TextBuffer}

/-- Undo or redo. -/
def move : Direction → DocumentM μ LineChanges
  | .back => undo
  | .on => redo

/-- Undo and redo in some order, whether it succeeds or not. -/
def travel (moves : List Direction) (d : Document μ) : Document μ :=
  moves.foldl (fun d dir => after (move dir d)) d

/-- On a timeline a whole group is moved over, unless there is none. -/
theorem OnTimeline.move_cases (on : d.OnTimeline texts) (dir : Direction) :
    (d.history.ahead dir = [] ∧
        Document.move dir d = .error (.rejected dir.nothing) d.endGroup) ∨
      ∃ run rest changes d', TopGroup (d.history.ahead dir) run rest ∧
        Document.move dir d = .ok changes d' ∧ d'.OnTimeline texts ∧
          d'.history = d.history.advance dir run rest := by
  by_cases empty : d.history.ahead dir = []
  · left
    cases dir with
    | back => exact ⟨empty, undo_nothing empty⟩
    | on => exact ⟨empty, redo_nothing empty⟩
  · right
    obtain ⟨run, rest, top⟩ := History.exists_topGroup empty
    cases dir with
    | back =>
        obtain ⟨changes, d', ok, on', history, -⟩ := on.undo_ok top
        exact ⟨run, rest, changes, d', top, ok, on', history⟩
    | on =>
        obtain ⟨changes, d', ok, on', history, -⟩ := on.redo_ok top
        exact ⟨run, rest, changes, d', top, ok, on', history⟩

theorem Reachable.move (reachable : Reachable d) (dir : Direction) :
    Reachable (after (Document.move dir d)) := by
  obtain ⟨saved, h⟩ := reachable
  cases dir with
  | back => exact ⟨saved, h.edit (.undo d)⟩
  | on => exact ⟨saved, h.edit (.redo d)⟩

end Document

end CodeEditor

import CodeEditor.Text.Units

/-!
The history of a document.

Changes that were done lie on one stack, changes that were undone on another, the next one on top of
each. Each change belongs to a group, and the changes of a group that lie next to each other are
undone and redone together. A position in the history is the number of changes below it; the *clean
point* is such a position, which may lie among the undone changes. It is forgotten when the state it
names can no longer be reached.
-/

namespace CodeEditor

/-- One replacement: the text at a location before and after. -/
structure TextChange where
  location : Nat
  oldText : String
  newText : String
deriving DecidableEq

namespace TextChange

/-- The number of code units before the change. -/
def oldLength (c : TextChange) : Nat := Utf16.length c.oldText.toList

/-- The number of code units after the change. -/
def newLength (c : TextChange) : Nat := Utf16.length c.newText.toList

end TextChange

/-- A change of the history and the group it belongs to. -/
structure UndoStep where
  group : Nat
  change : TextChange
deriving DecidableEq

/-- The changes of a document. Both stacks have their top first. -/
structure History where
  done : List UndoStep := []
  undone : List UndoStep := []
  /-- How many changes are kept. -/
  limit : Nat
  /-- The clean point, if its state can still be reached. -/
  clean : Option Nat := some 0
  /-- The number of the next group. An edit raises it by one at most, so that as a machine word it
  would start over after 2⁶⁴ edits. -/
  nextGroup : Nat := 0
  /-- The group that changes join, while one is open. -/
  openGroup : Option Nat := none
deriving DecidableEq

namespace History

def canUndo (h : History) : Bool := !h.done.isEmpty

def canRedo (h : History) : Bool := !h.undone.isEmpty

/-- The document is at its clean point. -/
def isClean (h : History) : Bool := h.clean = some h.done.length

/-- Later changes form groups of their own. -/
def endGroup (h : History) : History := { h with openGroup := none }

/-- Make this the clean point. No group reaches across it. -/
def markClean (h : History) : History := { h with clean := some h.done.length }.endGroup

/-- A group that no change has used. -/
def newGroup (h : History) : Nat × History := (h.nextGroup, { h with nextGroup := h.nextGroup + 1 })

/-- Later changes form one group, until it is ended. An open group stays open. -/
def beginGroup (h : History) : History :=
  match h.openGroup with
  | some _ => h
  | none =>
      let (group, h) := h.newGroup
      { h with openGroup := some group }

/-- Forget all changes, and the clean point with them. -/
def clear (h : History) : History :=
  { h with done := [], undone := [], clean := none, openGroup := none }

/-- Forget the undone changes, and a clean point among them. -/
def dropUndone (h : History) : History :=
  if h.undone.isEmpty then h
  else
    { h with
      undone := []
      clean := h.clean.filter (· ≤ h.done.length) }

/-- Forget the oldest change when there is no room for one more. -/
def makeRoom (h : History) : History :=
  if h.done.length < h.limit then h
  else
    { h with
      done := h.done.dropLast
      clean := match h.clean with
        | some (n + 1) => some n
        | _ => none }

/-- Put a change on top of the done ones. -/
def record (h : History) (change : TextChange) : History :=
  let h := h.dropUndone
  if h.limit = 0 then h
  else
    let h := h.makeRoom
    match h.openGroup with
    | some group => { h with done := ⟨group, change⟩ :: h.done }
    | none =>
        let (group, h) := h.newGroup
        { h with done := ⟨group, change⟩ :: h.done }

/-- The steps on top of a stack that belong to the same group, top first, and the rest. -/
def takeGroup : List UndoStep → Option (List UndoStep × List UndoStep)
  | [] => none
  | step :: rest => some ((step :: rest).span (·.group = step.group))

/-- Take the newest group of done changes, the newest change first, if there is one. The open group
ends in any case. -/
def takeDone (h : History) : Option (List UndoStep) × History :=
  let h := h.endGroup
  match takeGroup h.done with
  | none => (none, h)
  | some (steps, done) => (some steps, { h with done })

/-- Take the next group of undone changes, the oldest change first, if there is one. The open group
ends in any case. -/
def takeUndone (h : History) : Option (List UndoStep) × History :=
  let h := h.endGroup
  match takeGroup h.undone with
  | none => (none, h)
  | some (steps, undone) => (some steps, { h with undone })

/-- Put changes on the done stack, the first at the bottom. -/
def pushDone (h : History) (steps : List UndoStep) : History :=
  { h with done := steps.reverse ++ h.done }

/-- Put changes on the undone stack, the first at the bottom. -/
def pushUndone (h : History) (steps : List UndoStep) : History :=
  { h with undone := steps.reverse ++ h.undone }

/-- Put done changes back that could not be undone, the first on top. -/
def restoreDone (h : History) (steps : List UndoStep) : History :=
  { h with done := steps ++ h.done }

/-- Put undone changes back that could not be redone, the first on top. -/
def restoreUndone (h : History) (steps : List UndoStep) : History :=
  { h with undone := steps ++ h.undone }

end History

end CodeEditor

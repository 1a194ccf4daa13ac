import CodeEditor.Document.History
import Mathlib.Data.List.TakeDrop
import Mathlib.Data.List.TakeWhile

/-!
The two stacks of a history.

`steps` is all that a history keeps, from the oldest change to the one that would be redone last.
`TopGroup` says which changes on top of a stack are undone or redone together, and `takeGroup` finds
them (`takeGroup_eq_some_iff`). As long as no group reaches across the position (`Apart`), a group
that was undone is also the next one to be redone (`TopGroup.move`).
-/

namespace CodeEditor

/-- The changes on top of a stack that belong to one group, and the rest. -/
structure TopGroup (stack run rest : List UndoStep) : Prop where
  whole : stack = run ++ rest
  nonempty : run ≠ []
  /-- All belong to the same group, and the change below them does not. -/
  group : ∃ g, (∀ step ∈ run, step.group = g) ∧ ∀ step, rest.head? = some step → step.group ≠ g

namespace History

variable {h : History} {run rest stack : List UndoStep}

/-- All changes, the oldest first. -/
def steps (h : History) : List UndoStep := h.done.reverse ++ h.undone

/-- No group reaches across the position. -/
def Apart (h : History) : Prop :=
  ∀ step step', h.done.head? = some step → h.undone.head? = some step' → step.group ≠ step'.group

/-! ### Groups -/

theorem takeGroup_eq_some_iff : takeGroup stack = some (run, rest) ↔ TopGroup stack run rest := by
  cases stack with
  | nil =>
      constructor
      · intro found
        cases found
      · rintro ⟨whole, nonempty, -⟩
        exact absurd (List.append_eq_nil_iff.mp whole.symm).1 nonempty
  | cons top below =>
      rw [takeGroup, Option.some.injEq, List.span_eq_takeWhile_dropWhile, Prod.mk.injEq]
      constructor
      · rintro ⟨rfl, rfl⟩
        refine ⟨List.takeWhile_append_dropWhile.symm, ?_, top.group, ?_, ?_⟩
        · simp
        · intro step mem
          simpa using List.mem_takeWhile_imp mem
        · intro step next
          have stops := List.head?_dropWhile_not (fun s : UndoStep => decide (s.group = top.group))
            (top :: below)
          rw [next] at stops
          simpa using stops
      · rintro ⟨whole, nonempty, g, same, next⟩
        obtain ⟨first, run, rfl⟩ := List.exists_cons_of_ne_nil nonempty
        obtain ⟨rfl, rfl⟩ := List.cons.inj whole
        have top_group := same top (List.mem_cons_self)
        have all : ∀ step ∈ top :: run, decide (step.group = top.group) = true := by
          intro step mem
          rw [same step mem, top_group]
          exact decide_eq_true rfl
        change List.takeWhile _ (top :: run ++ rest) = _ ∧ List.dropWhile _ (top :: run ++ rest) = _
        rw [List.takeWhile_append_of_pos all, List.dropWhile_append_of_pos all]
        cases rest with
        | nil => simp
        | cons below rest =>
            have other : ¬below.group = top.group := by
              rw [top_group]
              exact next below rfl
            simp [other]

theorem takeGroup_eq_none_iff : takeGroup stack = none ↔ stack = [] := by
  cases stack with
  | nil => exact ⟨fun _ => rfl, fun _ => rfl⟩
  | cons top below => simp [takeGroup]

/-- A stack with changes has a group on top. -/
theorem exists_topGroup (nonempty : stack ≠ []) : ∃ run rest, TopGroup stack run rest := by
  cases found : takeGroup stack with
  | none => exact absurd (takeGroup_eq_none_iff.mp found) nonempty
  | some parts => exact ⟨parts.1, parts.2, takeGroup_eq_some_iff.mp found⟩

end History

namespace TopGroup

variable {stack run rest other : List UndoStep}

/-- A group taken from one stack is the group on top of the other once it lies there, when what lay
there before belongs to another group. -/
theorem move (top : TopGroup stack run rest)
    (apart : ∀ step step', stack.head? = some step → other.head? = some step' →
      step.group ≠ step'.group) : TopGroup (run.reverse ++ other) run.reverse other := by
  obtain ⟨rfl, nonempty, g, same, -⟩ := top
  obtain ⟨first, run, rfl⟩ := List.exists_cons_of_ne_nil nonempty
  refine ⟨rfl, by simp, g, ?_, ?_⟩
  · intro step mem
    exact same step (List.mem_reverse.mp mem)
  · intro step next
    have differ := apart first step rfl next
    rw [same first List.mem_cons_self] at differ
    exact differ.symm

/-- After a group was taken from one stack, what is left there is of another group. -/
theorem apart (top : TopGroup stack run rest) :
    ∀ step step', rest.head? = some step → (run.reverse ++ other).head? = some step' →
      step.group ≠ step'.group := by
  obtain ⟨rfl, nonempty, g, same, next⟩ := top
  intro step step' below first
  cases last : run.reverse with
  | nil => exact absurd (List.reverse_eq_nil_iff.mp last) nonempty
  | cons top _ =>
      rw [last] at first
      obtain rfl : top = step' := Option.some.inj first
      have mem : top ∈ run := List.mem_reverse.mp (last ▸ List.mem_cons_self)
      rw [same top mem]
      exact next step below

end TopGroup

namespace History

variable {h : History} {run rest : List UndoStep}

/-! ### Moving the position -/

@[simp] theorem endGroup_done (h : History) : h.endGroup.done = h.done := rfl

@[simp] theorem endGroup_undone (h : History) : h.endGroup.undone = h.undone := rfl

theorem takeDone_of_empty (empty : h.done = []) : h.takeDone = (none, h.endGroup) := by
  rw [takeDone]
  dsimp only [endGroup_done]
  rw [empty]
  rfl

theorem takeDone_of_top (top : TopGroup h.done run rest) :
    h.takeDone = (some run, { h.endGroup with done := rest }) := by
  rw [takeDone]
  dsimp only [endGroup_done]
  rw [takeGroup_eq_some_iff.mpr top]

theorem takeUndone_of_empty (empty : h.undone = []) : h.takeUndone = (none, h.endGroup) := by
  rw [takeUndone]
  dsimp only [endGroup_undone]
  rw [empty]
  rfl

theorem takeUndone_of_top (top : TopGroup h.undone run rest) :
    h.takeUndone = (some run, { h.endGroup with undone := rest }) := by
  rw [takeUndone]
  dsimp only [endGroup_undone]
  rw [takeGroup_eq_some_iff.mpr top]

/-- The history after the group `run` was undone. -/
def moveBack (h : History) (run rest : List UndoStep) : History :=
  { h.endGroup with done := rest, undone := run.reverse ++ h.undone }

/-- The history after the group `run` was done again. -/
def moveOn (h : History) (run rest : List UndoStep) : History :=
  { h.endGroup with done := run.reverse ++ h.done, undone := rest }

theorem steps_moveBack (top : TopGroup h.done run rest) :
    (h.moveBack run rest).steps = h.steps := by
  simp [steps, moveBack, top.whole]

theorem steps_moveOn (top : TopGroup h.undone run rest) : (h.moveOn run rest).steps = h.steps := by
  simp [steps, moveOn, top.whole]

theorem apart_moveBack (top : TopGroup h.done run rest) : (h.moveBack run rest).Apart :=
  top.apart

theorem apart_moveOn (top : TopGroup h.undone run rest) : (h.moveOn run rest).Apart :=
  fun step step' below next same => top.apart step' step next below same.symm

/-! ### Opening and ending groups, and recording changes -/

@[simp] theorem beginGroup_done (h : History) : h.beginGroup.done = h.done := by
  rw [beginGroup]
  split <;> rfl

@[simp] theorem beginGroup_undone (h : History) : h.beginGroup.undone = h.undone := by
  rw [beginGroup]
  split <;> rfl

@[simp] theorem beginGroup_clean (h : History) : h.beginGroup.clean = h.clean := by
  rw [beginGroup]
  split <;> rfl

@[simp] theorem beginGroup_limit (h : History) : h.beginGroup.limit = h.limit := by
  rw [beginGroup]
  split <;> rfl

/-- The step that a change is recorded as. -/
def stepFor (h : History) (change : TextChange) : UndoStep :=
  ⟨h.openGroup.getD h.nextGroup, change⟩

/-- The done changes that are kept when one more is recorded. -/
def kept (h : History) : List UndoStep :=
  if h.done.length < h.limit then h.done else h.done.dropLast

/-- Recording a change forgets what was undone, and the oldest change if there is no room. -/
theorem record_eq (h : History) (change : TextChange) :
    (h.record change).done = (if h.limit = 0 then h.done else h.stepFor change :: h.kept) ∧
      (h.record change).undone = [] ∧ (h.record change).limit = h.limit := by
  have dropped : h.dropUndone.done = h.done ∧ h.dropUndone.undone = [] ∧
      h.dropUndone.limit = h.limit ∧ h.dropUndone.openGroup = h.openGroup ∧
      h.dropUndone.nextGroup = h.nextGroup := by
    rw [dropUndone]
    split
    · next empty => exact ⟨rfl, List.isEmpty_iff.mp empty, rfl, rfl, rfl⟩
    · exact ⟨rfl, rfl, rfl, rfl, rfl⟩
  obtain ⟨done, undone, limit, openGroup, nextGroup⟩ := dropped
  rw [record]
  dsimp only
  generalize h.dropUndone = g at *
  rw [limit, kept, stepFor, ← done, ← openGroup, ← nextGroup, ← limit]
  by_cases off : g.limit = 0
  · rw [if_pos off, if_pos off]
    exact ⟨rfl, undone, rfl⟩
  · rw [if_neg off, if_neg off]
    have room : g.makeRoom.done = (if g.done.length < g.limit then g.done else g.done.dropLast) ∧
        g.makeRoom.undone = g.undone ∧ g.makeRoom.limit = g.limit ∧
        g.makeRoom.openGroup = g.openGroup ∧ g.makeRoom.nextGroup = g.nextGroup := by
      rw [makeRoom]
      split <;> exact ⟨rfl, rfl, rfl, rfl, rfl⟩
    obtain ⟨done', undone', limit', openGroup', nextGroup'⟩ := room
    rw [← done', ← openGroup', ← nextGroup', ← limit']
    rw [undone] at undone'
    cases g.makeRoom.openGroup with
    | none => exact ⟨rfl, undone', rfl⟩
    | some group => exact ⟨rfl, undone', rfl⟩

/-- A clean point that outlives the recording of a change lies among the kept changes, and names the
state that it named before. -/
theorem clean_record (h : History) (change : TextChange) (keeps : h.limit ≠ 0)
    (inside : ∀ n, h.clean = some n → n ≤ h.done.length + h.undone.length) {n : Nat}
    (clean : (h.record change).clean = some n) :
    n ≤ h.kept.length ∧ h.clean = some (n + (h.done.length - h.kept.length)) := by
  have dropped : h.dropUndone.done = h.done ∧ h.dropUndone.limit = h.limit ∧
      ∀ n, h.dropUndone.clean = some n → h.clean = some n ∧ n ≤ h.done.length := by
    rw [dropUndone]
    split
    · next empty =>
        refine ⟨rfl, rfl, fun n there => ⟨there, ?_⟩⟩
        have bound := inside n there
        rwa [List.isEmpty_iff.mp empty, List.length_nil, Nat.add_zero] at bound
    · refine ⟨rfl, rfl, fun n there => ?_⟩
      obtain ⟨there, bound⟩ := Option.filter_eq_some_iff.mp there
      exact ⟨there, of_decide_eq_true bound⟩
  obtain ⟨done, limit, below⟩ := dropped
  have recorded : (h.record change).clean = h.dropUndone.makeRoom.clean := by
    rw [record]
    dsimp only
    rw [if_neg (limit ▸ keeps)]
    split <;> rfl
  rw [recorded, makeRoom, done, limit] at clean
  rw [kept]
  split at clean
  · next room =>
      rw [if_pos room, Nat.sub_self, Nat.add_zero]
      obtain ⟨there, bound⟩ := below n clean
      exact ⟨bound, there⟩
  · next full =>
      rw [if_neg full, List.length_dropLast]
      -- The oldest change goes, so every position that is left moves down by one.
      split at clean
      · next m there =>
          obtain rfl := Option.some.inj clean
          obtain ⟨there, bound⟩ := below _ there
          rw [there, show h.done.length - (h.done.length - 1) = 1 by omega]
          exact ⟨by omega, rfl⟩
      · cases clean

theorem length_kept (h : History) (keeps : h.limit ≠ 0) (room : h.done.length ≤ h.limit) :
    h.kept.length + 1 ≤ h.limit := by
  rw [kept]
  split
  · omega
  · rw [List.length_dropLast]
    omega

end History

end CodeEditor

import CodeEditor.Proofs.Document.Clean
import CodeEditor.Proofs.Document.Moves

/-!
Undoing and redoing stop at the clean point.

A move takes a whole group of changes, so it would jump over the clean point if a group reached
across it. `Guarded` says that none does, and what it takes to keep it so: groups are numbered in
the order they are opened, and a change never joins a group from the other side of the clean point.
Every change of a history preserves this (`Guarded.record`, `Guarded.markClean` and so on), hence
every edit of a document does (`OnTimeline.guarded_edit`). `cleanPoint_never_jumped` is what follows
for undoing and redoing in any order.
-/

namespace CodeEditor

namespace History

variable {h h' : History}

/-- No group reaches across a position: the changes next to it belong to different ones. -/
def PartedAt (h : History) (c : Nat) : Prop :=
  ∀ i step step', i + 1 = c → h.steps[i]? = some step → h.steps[i + 1]? = some step' →
    step.group ≠ step'.group

/-- No group reaches across the clean point, and none ever will. -/
structure Guarded (h : History) : Prop where
  /-- The clean point is one of the positions that undoing and redoing lead to. -/
  inside : ∀ c, h.clean = some c → c ≤ h.steps.length
  parted : ∀ c, h.clean = some c → h.PartedAt c
  /-- A group that is opened next is a new one. -/
  fresh : ∀ step ∈ h.steps, step.group < h.nextGroup
  opened : ∀ g, h.openGroup = some g → g < h.nextGroup
  /-- At the clean point, a change that joins the open group does not join the change below it. -/
  joins : ∀ g step, h.openGroup = some g → h.clean = some h.done.length → h.done.head? = some step →
    step.group ≠ g

/-! ### Changes next to the position -/

theorem getElem?_steps_below {i : Nat} (top : i + 1 = h.done.length) :
    h.steps[i]? = h.done.head? := by
  rw [steps, List.getElem?_append_left (by rw [List.length_reverse]; omega),
    List.getElem?_reverse (by omega), List.head?_eq_getElem?,
    show h.done.length - 1 - i = 0 by omega]

theorem getElem?_steps_above : h.steps[h.done.length]? = h.undone.head? := by
  rw [steps, List.getElem?_append_right (by rw [List.length_reverse]), List.length_reverse,
    Nat.sub_self, List.head?_eq_getElem?]

theorem partedAt_of_apart (apart : h.Apart) : h.PartedAt h.done.length := by
  intro i step step' top below above
  rw [getElem?_steps_below top] at below
  rw [top, getElem?_steps_above] at above
  exact apart step step' below above

/-! ### Changes that are left when one is recorded -/

theorem kept_prefix (h : History) : h.kept <+: h.done := by
  rw [kept]
  split
  · exact List.prefix_refl _
  · exact List.dropLast_prefix _

theorem steps_record (keeps : h.limit ≠ 0) (change : TextChange) :
    (h.record change).steps = h.kept.reverse ++ [h.stepFor change] := by
  obtain ⟨done, undone, -⟩ := h.record_eq change
  rw [steps, done, undone, if_neg keeps, List.append_nil, List.reverse_cons]

/-- Changes that are kept move down by the number of those that are forgotten. -/
theorem getElem?_steps_of_kept {i : Nat} {step : UndoStep}
    (there : h.kept.reverse[i]? = some step) :
    h.steps[i + (h.done.length - h.kept.length)]? = some step := by
  have bound := (List.getElem?_eq_some_iff.mp there).1
  obtain ⟨oldest, split⟩ := h.kept_prefix
  rw [← split, List.length_append, Nat.add_sub_cancel_left, steps, ← split, List.reverse_append,
    List.append_assoc, List.getElem?_append_right (by rw [List.length_reverse]; omega),
    List.length_reverse, Nat.add_sub_cancel, List.getElem?_append_left bound, there]

/-! ### How groups are numbered -/

/-- A change that is recorded opens one group at most. -/
theorem nextGroup_record_le (h : History) (change : TextChange) :
    (h.record change).nextGroup ≤ h.nextGroup + 1 := by
  have dropped : h.dropUndone.nextGroup = h.nextGroup := by
    rw [dropUndone]
    split <;> rfl
  have room : h.dropUndone.makeRoom.nextGroup = h.nextGroup := by
    rw [makeRoom]
    split <;> exact dropped
  rw [History.record]
  split
  · exact dropped ▸ Nat.le_succ _
  · dsimp only
    split
    · exact room ▸ Nat.le_succ _
    · exact room ▸ Nat.le_refl _

theorem nextGroup_beginGroup_le (h : History) : h.beginGroup.nextGroup ≤ h.nextGroup + 1 := by
  rw [beginGroup]
  split
  · exact Nat.le_succ _
  · exact Nat.le_refl _

/-! ### What each change of a history preserves -/

/-- While no group is open, no change can join one. -/
theorem guarded_of_closed (closed : h.openGroup = none)
    (inside : ∀ c, h.clean = some c → c ≤ h.steps.length)
    (parted : ∀ c, h.clean = some c → h.PartedAt c)
    (fresh : ∀ step ∈ h.steps, step.group < h.nextGroup) : h.Guarded := by
  refine ⟨inside, parted, fresh, ?_, ?_⟩
  · intro g there
    cases closed.symm.trans there
  · intro g step there
    cases closed.symm.trans there

theorem guarded_initial (limit : Nat) : Guarded { limit } := by
  refine guarded_of_closed rfl ?_ ?_ (fun _ mem => nomatch mem)
  · intro c there
    obtain rfl := Option.some.inj there
    exact Nat.zero_le _
  · intro c _ i step step' _ below
    cases below

theorem guarded_clear (h : History) : h.clear.Guarded :=
  guarded_of_closed rfl (fun _ there => nomatch there) (fun _ there => nomatch there)
    (fun _ mem => nomatch mem)

namespace Guarded

/-- Where at most the position moves and no group is open. -/
theorem of_steps (guarded : h.Guarded) (steps : h'.steps = h.steps) (clean : h'.clean = h.clean)
    (nextGroup : h'.nextGroup = h.nextGroup) (closed : h'.openGroup = none) : h'.Guarded := by
  refine guarded_of_closed closed ?_ ?_ ?_
  · rw [clean, steps]
    exact guarded.inside
  · rw [clean]
    intro c there
    rw [PartedAt, steps]
    exact guarded.parted c there
  · rw [steps, nextGroup]
    exact guarded.fresh

theorem endGroup (guarded : h.Guarded) : h.endGroup.Guarded :=
  guarded.of_steps rfl rfl rfl rfl

theorem advance (guarded : h.Guarded) {dir : Direction} {run rest : List UndoStep}
    (top : TopGroup (h.ahead dir) run rest) : (h.advance dir run rest).Guarded := by
  cases dir with
  | back => exact guarded.of_steps (steps_moveBack top) rfl rfl rfl
  | on => exact guarded.of_steps (steps_moveOn top) rfl rfl rfl

/-- The clean point ends the open group, so that no change above it joins the changes below. -/
theorem markClean (guarded : h.Guarded) (apart : h.Apart) : h.markClean.Guarded := by
  refine guarded_of_closed rfl ?_ ?_ guarded.fresh
  · intro c there
    obtain rfl := Option.some.inj there
    change h.done.length ≤ h.steps.length
    rw [Document.length_steps]
    exact Nat.le_add_right _ _
  · intro c there
    obtain rfl := Option.some.inj there
    exact partedAt_of_apart (h := h.markClean) apart

theorem lt_of_head? (guarded : h.Guarded) {step : UndoStep} (top : h.done.head? = some step) :
    step.group < h.nextGroup :=
  guarded.fresh step (List.mem_append_left _ (List.mem_reverse.mpr (List.mem_of_head? top)))

/-- A group that is opened has no changes yet. -/
theorem beginGroup (guarded : h.Guarded) : h.beginGroup.Guarded := by
  cases opened : h.openGroup with
  | some g =>
      have same : h.beginGroup = h := by
        rw [History.beginGroup, opened]
      rw [same]
      exact guarded
  | none =>
      have new : h.beginGroup =
          { h with openGroup := some h.nextGroup, nextGroup := h.nextGroup + 1 } := by
        rw [History.beginGroup, opened]
        rfl
      rw [new]
      refine ⟨guarded.inside, guarded.parted, ?_, ?_, ?_⟩
      · intro step mem
        exact Nat.lt_succ_of_lt (guarded.fresh step mem)
      · intro g there
        obtain rfl := Option.some.inj there
        exact Nat.lt_succ_self _
      · intro g step there _ top
        obtain rfl := Option.some.inj there
        exact Nat.ne_of_lt (guarded.lt_of_head? top)

/-! ### Recording a change -/

/-- A recorded change belongs to a group that has a number, and no number is given twice. -/
theorem nextGroup_record (guarded : h.Guarded) (keeps : h.limit ≠ 0) (change : TextChange) :
    (h.record change).openGroup = h.openGroup ∧ h.nextGroup ≤ (h.record change).nextGroup ∧
      (h.stepFor change).group < (h.record change).nextGroup := by
  have dropped : h.dropUndone.limit = h.limit ∧ h.dropUndone.openGroup = h.openGroup ∧
      h.dropUndone.nextGroup = h.nextGroup := by
    rw [dropUndone]
    split <;> exact ⟨rfl, rfl, rfl⟩
  obtain ⟨limit, openGroup, nextGroup⟩ := dropped
  have room : h.dropUndone.makeRoom.openGroup = h.openGroup ∧
      h.dropUndone.makeRoom.nextGroup = h.nextGroup := by
    rw [makeRoom, ← openGroup, ← nextGroup]
    split <;> exact ⟨rfl, rfl⟩
  obtain ⟨openGroup, nextGroup⟩ := room
  rw [record]
  dsimp only
  rw [if_neg (limit ▸ keeps), openGroup, stepFor]
  cases opened : h.openGroup with
  | some g => exact ⟨rfl, nextGroup.ge, nextGroup ▸ guarded.opened g opened⟩
  | none =>
      refine ⟨openGroup.trans opened, ?_, ?_⟩
      all_goals dsimp only [newGroup, Option.getD]; rw [nextGroup]
      · exact Nat.le_succ _
      · exact Nat.lt_succ_self _

/-- The change that is recorded at the clean point is of another group than the one below it. -/
theorem group_ne_stepFor (guarded : h.Guarded) {step : UndoStep} (change : TextChange)
    (here : h.clean = some h.done.length) (top : h.done.head? = some step) :
    step.group ≠ (h.stepFor change).group := by
  rw [stepFor]
  cases opened : h.openGroup with
  | some g => exact guarded.joins g step opened here top
  | none => exact Nat.ne_of_lt (guarded.lt_of_head? top)

theorem clean_of_record (guarded : h.Guarded) (keeps : h.limit ≠ 0) {change : TextChange} {c : Nat}
    (there : (h.record change).clean = some c) :
    c ≤ h.kept.length ∧ h.clean = some (c + (h.done.length - h.kept.length)) := by
  refine h.clean_record change keeps (fun n clean => ?_) there
  rw [← Document.length_steps]
  exact guarded.inside n clean

/-- No group comes to reach across the clean point, neither one that was there nor the one of the
change that is recorded. -/
theorem partedAt_record (guarded : h.Guarded) (keeps : h.limit ≠ 0) {change : TextChange} {c : Nat}
    (there : (h.record change).clean = some c) : (h.record change).PartedAt c := by
  obtain ⟨bound, here⟩ := guarded.clean_of_record keeps there
  intro i step step' next before after
  rw [steps_record keeps] at before after
  rw [List.getElem?_append_left (by rw [List.length_reverse]; omega)] at before
  have before := getElem?_steps_of_kept before
  by_cases below : c < h.kept.length
  · rw [List.getElem?_append_left (by rw [List.length_reverse]; omega)] at after
    have after := getElem?_steps_of_kept after
    rw [Nat.add_right_comm] at after
    exact guarded.parted _ here _ step step' (by omega) before after
  · -- The clean point is just below the change that was recorded.
    rw [List.getElem?_append_right (by rw [List.length_reverse]; omega), List.length_reverse,
      show i + 1 - h.kept.length = 0 by omega] at after
    obtain rfl : h.stepFor change = step' := Option.some.inj after
    have fewer := h.kept_prefix.length_le
    rw [show c + (h.done.length - h.kept.length) = h.done.length by omega] at here
    rw [getElem?_steps_below (by omega)] at before
    exact guarded.group_ne_stepFor change here before

/-- A change is recorded on the side of the clean point that the document is on. -/
theorem record (guarded : h.Guarded) (keeps : h.limit ≠ 0) (change : TextChange) :
    (h.record change).Guarded := by
  obtain ⟨openGroup, nextGroup, number⟩ := guarded.nextGroup_record keeps change
  constructor
  case inside =>
    intro c there
    have bound := (guarded.clean_of_record keeps there).1
    rw [steps_record keeps, List.length_append, List.length_reverse]
    omega
  case parted => exact fun c there => guarded.partedAt_record keeps there
  case fresh =>
    intro step mem
    rw [steps_record keeps] at mem
    rcases List.mem_append.mp mem with old | new
    · have mem : step ∈ h.done := h.kept_prefix.subset (List.mem_reverse.mp old)
      exact lt_of_lt_of_le (guarded.fresh step (List.mem_append_left _ (List.mem_reverse.mpr mem)))
        nextGroup
    · obtain rfl := List.mem_singleton.mp new
      exact number
  case opened =>
    intro g there
    rw [openGroup] at there
    exact lt_of_lt_of_le (guarded.opened g there) nextGroup
  case joins =>
    -- Behind a recorded change the document is not clean.
    intro g step _ here
    have bound := (guarded.clean_of_record keeps here).1
    rw [(h.record_eq change).1, if_neg keeps, List.length_cons] at bound
    omega

/-! ### Moving the position -/

/-- Changes of one group lie all below the clean point or all above it. -/
theorem outside (guarded : h.Guarded) {c : Nat} (clean : h.clean = some c)
    {older run newer : List UndoStep} (whole : h.steps = older ++ (run ++ newer)) {g : Nat}
    (group : ∀ step ∈ run, step.group = g) : c ≤ older.length ∨ older.length + run.length ≤ c := by
  by_contra within
  obtain ⟨j, rfl⟩ : ∃ j, c = older.length + j + 1 := ⟨c - older.length - 1, by omega⟩
  have member : ∀ k (inside : k < run.length), h.steps[older.length + k]? = some run[k] := by
    intro k inside
    rw [whole, List.getElem?_append_right (by omega), Nat.add_sub_cancel_left,
      List.getElem?_append_left inside, List.getElem?_eq_getElem inside]
  have below := member j (by omega)
  have above := member (j + 1) (by omega)
  refine guarded.parted _ clean _ _ _ rfl below above ?_
  rw [group _ (List.getElem_mem _), group _ (List.getElem_mem _)]

/-- A group that is moved over leads at most up to the clean point. -/
theorem same_side (guarded : h.Guarded) {c : Nat} (clean : h.clean = some c) {dir : Direction}
    {run rest : List UndoStep} (top : TopGroup (h.ahead dir) run rest) :
    c ≤ h.done.length ∧ c ≤ (h.advance dir run rest).done.length ∨
      h.done.length ≤ c ∧ (h.advance dir run rest).done.length ≤ c := by
  obtain ⟨whole, -, g, same, -⟩ := top
  cases dir with
  | back =>
      have done : h.done = run ++ rest := whole
      have parts : h.steps = rest.reverse ++ (run.reverse ++ h.undone) := by
        rw [steps, done, List.reverse_append, List.append_assoc]
      have sides := guarded.outside clean parts fun step mem => same step (List.mem_reverse.mp mem)
      rw [List.length_reverse, List.length_reverse] at sides
      change c ≤ h.done.length ∧ c ≤ rest.length ∨ h.done.length ≤ c ∧ rest.length ≤ c
      rw [done, List.length_append]
      omega
  | on =>
      have undone : h.undone = run ++ rest := whole
      have parts : h.steps = h.done.reverse ++ (run ++ rest) := by
        rw [steps, undone]
      have sides := guarded.outside clean parts same
      rw [List.length_reverse] at sides
      change c ≤ h.done.length ∧ c ≤ (run.reverse ++ h.done).length ∨
        h.done.length ≤ c ∧ (run.reverse ++ h.done).length ≤ c
      rw [List.length_append, List.length_reverse]
      omega

end Guarded

end History

namespace Document

variable {μ : Type} [LanguageMode μ] {d d' : Document μ} {texts : List TextBuffer}

/-- What one edit preserves. -/
theorem OnTimeline.guarded_edit (on : d.OnTimeline texts) (guarded : d.history.Guarded)
    (edit : Edit d d') : d'.history.Guarded := by
  have moved : ∀ dir : Direction, (after (Document.move dir d)).history.Guarded := by
    intro dir
    rcases on.move_cases dir with ⟨-, nothing⟩ | ⟨run, rest, changes, d', top, ok, -, history⟩
    · rw [nothing]
      exact guarded.endGroup
    · rw [ok, after, history]
      exact guarded.advance top
  cases edit with
  | replaceText r text short =>
      cases read : d.buffer.substring r with
      | error e =>
          rw [replaceText_error read]
          exact guarded
      | ok old =>
          obtain ⟨replacement, d', b, ok, -, -, history, -⟩ := on.replaceText text read
          rw [ok, after, history]
          split
          · by_cases off : d.history.limit = 0
            · have undone : d.history.undone = [] := by
                have room := on.room
                rw [← on.limit, off] at room
                exact List.length_eq_zero_iff.mp (by omega)
              rw [History.record_eq_self off undone]
              exact guarded
            · exact guarded.record off _
          · exact guarded
  | undo => exact moved .back
  | redo => exact moved .on
  | beginGroup => exact guarded.beginGroup
  | endGroup => exact guarded.endGroup
  | setText text short => exact History.guarded_clear _
  | setMode mode => exact guarded
  | setHeight id height =>
      have same : (after (setHeight id height d)).history = d.history := by
        rw [setHeight, onIndex]
        split <;> rfl
      rw [same]
      exact guarded

/-- An edit opens one group at most. -/
theorem OnTimeline.nextGroup_edit_le (on : d.OnTimeline texts) (edit : Edit d d') :
    d'.history.nextGroup ≤ d.history.nextGroup + 1 := by
  have moved : ∀ dir : Direction,
      (after (Document.move dir d)).history.nextGroup ≤ d.history.nextGroup + 1 := by
    intro dir
    rcases on.move_cases dir with ⟨-, nothing⟩ | ⟨run, rest, changes, d', top, ok, -, history⟩
    · rw [nothing]
      exact Nat.le_succ _
    · rw [ok, after, history]
      cases dir with
      | back => exact Nat.le_succ _
      | on => exact Nat.le_succ _
  cases edit with
  | replaceText r text short =>
      cases read : d.buffer.substring r with
      | error e =>
          rw [replaceText_error read]
          exact Nat.le_succ _
      | ok old =>
          obtain ⟨replacement, d', b, ok, -, -, history, -⟩ := on.replaceText text read
          rw [ok, after, history]
          split
          · exact History.nextGroup_record_le _ _
          · exact Nat.le_succ _
  | undo => exact moved .back
  | redo => exact moved .on
  | beginGroup => exact History.nextGroup_beginGroup_le _
  | endGroup => exact Nat.le_succ _
  | setText text short => exact Nat.le_succ _
  | setMode mode => exact Nat.le_succ _
  | setHeight id height =>
      have same : (after (setHeight id height d)).history = d.history := by
        rw [setHeight, onIndex]
        split <;> rfl
      rw [same]
      exact Nat.le_succ _

/-- What a run of edits preserves. -/
theorem Saved.guarded {saved : TextBuffer} (h : Saved saved d) : d.history.Guarded := by
  induction h with
  | opened text config mode short => exact History.guarded_initial _
  | edit h edit ih =>
      obtain ⟨texts, on, -⟩ := h.exists_timeline
      exact on.guarded_edit ih edit
  | markClean h ih =>
      obtain ⟨texts, on, -⟩ := h.exists_timeline
      exact ih.markClean on.apart

theorem Reachable.guarded (reachable : Reachable d) : d.history.Guarded := by
  obtain ⟨saved, h⟩ := reachable
  exact h.guarded

/-- What one move does to a document with a clean point. -/
theorem Reachable.same_side (reachable : Reachable d) {c : Nat} (clean : d.history.clean = some c)
    (dir : Direction) : (after (Document.move dir d)).history.clean = some c ∧
      (c ≤ d.history.done.length ∧ c ≤ (after (Document.move dir d)).history.done.length ∨
        d.history.done.length ≤ c ∧ (after (Document.move dir d)).history.done.length ≤ c) := by
  obtain ⟨texts, on⟩ := reachable.exists_timeline
  rcases on.move_cases dir with ⟨-, nothing⟩ | ⟨run, rest, changes, d', top, ok, -, history⟩
  · rw [nothing]
    refine ⟨clean, ?_⟩
    change c ≤ d.history.done.length ∧ c ≤ d.history.done.length ∨
      d.history.done.length ≤ c ∧ d.history.done.length ≤ c
    omega
  · rw [ok, after, history]
    refine ⟨?_, reachable.guarded.same_side clean top⟩
    cases dir with
    | back => exact clean
    | on => exact clean

/-- Moves that lead from one side of the clean point to the other come by it. -/
theorem Reachable.exists_clean {c : Nat} {moves : List Direction} (reachable : Reachable d)
    (clean : d.history.clean = some c)
    (across : c ≤ d.history.done.length ∧ (travel moves d).history.done.length ≤ c ∨
      d.history.done.length ≤ c ∧ c ≤ (travel moves d).history.done.length) :
    ∃ front, front <+: moves ∧ (travel front d).isClean = true := by
  induction moves generalizing d with
  | nil =>
      rw [travel, List.foldl_nil] at across
      obtain rfl : c = d.history.done.length := by omega
      exact ⟨[], List.prefix_refl _, decide_eq_true clean⟩
  | cons dir moves ih =>
      by_cases here : c = d.history.done.length
      · subst here
        exact ⟨[], List.nil_prefix, decide_eq_true clean⟩
      · obtain ⟨clean', side⟩ := reachable.same_side clean dir
        obtain ⟨front, begins, isClean⟩ := ih (reachable.move dir) clean' (by
          rw [travel, List.foldl_cons] at across
          rw [travel]
          omega)
        exact ⟨dir :: front, List.cons_prefix_cons.mpr ⟨rfl, begins⟩, isClean⟩

/-- The clean point is one of the positions that undoing and redoing lead to, no group reaches
across it, and so undoing and redoing in any order pass from one side of it to the other only
through a clean document. -/
theorem cleanPoint_never_jumped (reachable : Reachable d) {c : Nat}
    (clean : d.history.clean = some c) :
    c ≤ d.history.done.length + d.history.undone.length ∧
      (∀ older step step' newer, d.history.steps = older ++ step :: step' :: newer →
        older.length + 1 = c → step.group ≠ step'.group) ∧
      ∀ moves, (c < d.history.done.length ∧ (travel moves d).history.done.length < c ∨
          d.history.done.length < c ∧ c < (travel moves d).history.done.length) →
        ∃ front, front <+: moves ∧ (travel front d).isClean = true := by
  have guarded := reachable.guarded
  refine ⟨?_, ?_, ?_⟩
  · rw [← length_steps]
    exact guarded.inside c clean
  · intro older step step' newer whole position
    refine guarded.parted c clean older.length step step' position ?_ ?_
    · rw [whole, List.getElem?_append_right (Nat.le_refl _), Nat.sub_self]
      rfl
    · rw [whole, List.getElem?_append_right (Nat.le_add_right _ 1), Nat.add_sub_cancel_left]
      rfl
  · intro moves across
    exact reachable.exists_clean clean (by omega)

/-- The clean point is put inside a group. Undoing twice from behind the group stops there on the
way to the text before it. -/
theorem never_jumped_inside_group :
    ∃ d : Document PlainText, Reachable d ∧ d.text = "abc" ∧ d.history.clean = some 1 ∧
      d.history.done.length = 2 ∧ (travel [.back, .back] d).text = "c" ∧
      ∃ front, front <+: [.back, .back] ∧ (travel front d).isClean = true := by
  have opened : Saved (.ofString "c") (ofText "c" {} PlainText.mk) := .opened _ _ _ (by decide)
  have typed := (opened.edit (.beginGroup _)).edit (.replaceText _ ⟨0, 0⟩ "a" (by decide))
  have marked := typed.markClean.edit (.replaceText _ ⟨1, 0⟩ "b" (by decide))
  refine ⟨_, ⟨_, marked⟩, rfl, rfl, rfl, by decide +kernel, ?_⟩
  exact (cleanPoint_never_jumped ⟨_, marked⟩ rfl).2.2 _ (.inl ⟨by decide, by decide +kernel⟩)

end Document

end CodeEditor

import CodeEditor.Proofs.Document.Moves
import CodeEditor.Proofs.Text.Pairs

/-!
Undoing and redoing that stop halfway.

The changes that edits record always fit the texts they are moved over, but a document does not rely
on it: a group is worked through one change at a time, and ends in front of one that cannot be done.
`Direction.replay` is what the changes do to a text, without lines or stacks. `move_cases` says of
any history at all that a move does just that to the text, up to where it stops, and what it does to
the stacks; `move_loses_nothing` says when it stops, what is left then, and what moving the other
way does behind that. The lines have to be those of the text, as they are after any edits, and the
ends of changes machine words.
-/

namespace CodeEditor

/-- Wherever the change is put, its end is a machine word. -/
def TextChange.Small (c : TextChange) : Prop :=
  c.location + c.oldLength < wordLimit ∧ c.location + c.newLength < wordLimit

instance (c : TextChange) : Decidable c.Small :=
  inferInstanceAs (Decidable (_ ∧ _))

theorem TopGroup.unique {stack run rest run' rest' : List UndoStep} (top : TopGroup stack run rest)
    (top' : TopGroup stack run' rest') : run = run' ∧ rest = rest' := by
  have found := History.takeGroup_eq_some_iff.mpr top
  rw [History.takeGroup_eq_some_iff.mpr top'] at found
  cases found
  exact ⟨rfl, rfl⟩

/-! ### What changes do to a text -/

namespace Direction

variable {dir : Direction} {c : TextChange} {steps : List UndoStep} {a b : TextBuffer}

/-- What is replaced when a change is moved over. -/
def range : Direction → TextChange → TextRange
  | .back, c => ⟨c.location, c.newLength⟩
  | .on, c => ⟨c.location, c.oldLength⟩

/-- What it is replaced by. -/
def text : Direction → TextChange → String
  | .back, c => c.oldText
  | .on, c => c.newText

/-- The text with one change moved over. -/
def put (dir : Direction) (c : TextChange) (b : TextBuffer) : Outcome TextBuffer :=
  b.replace (dir.range c) (dir.text c)

/-- The text with steps moved over, one after the other. -/
def replay (dir : Direction) (steps : List UndoStep) (b : TextBuffer) : Outcome TextBuffer :=
  steps.foldlM (fun b step => dir.put step.change b) b

/-- Each step finds the text that it was recorded with. -/
def Finds (dir : Direction) : List UndoStep → TextBuffer → Prop
  | [], _ => True
  | step :: steps, b =>
      b.substring (dir.range step.change) = .ok (dir.opposite.text step.change) ∧
        ∀ b', dir.put step.change b = .ok b' → dir.Finds steps b'

theorem range_small (dir : Direction) (small : c.Small) :
    (dir.range c).location + (dir.range c).length < wordLimit := by
  cases dir with
  | back => exact small.2
  | on => exact small.1

theorem replay_cons {step : UndoStep} :
    dir.replay (step :: steps) a = dir.put step.change a >>= dir.replay steps :=
  List.foldlM_cons

theorem replay_append {steps' : List UndoStep} :
    dir.replay (steps ++ steps') a = dir.replay steps a >>= dir.replay steps' :=
  List.foldlM_append

/-- Steps are not worked through when one of them cannot be done. -/
theorem replay_of_put_error {step : UndoStep} {later : List UndoStep} {e : Failure}
    (done : dir.replay steps a = .ok b) (stuck : dir.put step.change b = .error e) :
    dir.replay (steps ++ step :: later) a = .error e := by
  rw [replay_append, done]
  change dir.replay (step :: later) b = .error e
  rw [replay_cons, stuck]
  rfl

/-- A change that found its text can be moved over the other way, which leads back. -/
theorem put_opposite (small : c.Small)
    (found : a.substring (dir.range c) = .ok (dir.opposite.text c)) (done : dir.put c a = .ok b) :
    dir.opposite.put c b = .ok a := by
  obtain ⟨before, inside, after, cut, text⟩ := TextBuffer.substring_eq_ok_iff.mp found
  obtain ⟨whole, location, -, -⟩ := TextBuffer.split_eq_ok_iff.mp cut
  obtain rfl : b = ⟨before ++ (dir.text c).toList ++ after⟩ :=
    Except.ok.inj (done.symm.trans (TextBuffer.replace_of_split cut (dir.text c)))
  have cut' : TextBuffer.split ⟨before ++ (dir.text c).toList ++ after⟩ (dir.opposite.range c) =
      .ok (before, (dir.text c).toList, after) := by
    refine TextBuffer.split_eq_ok_iff.mpr ⟨?_, ?_, ?_, dir.opposite.range_small small⟩
    · rw [List.append_assoc]
    · cases dir <;> exact location
    · cases dir <;> rfl
  rw [put, TextBuffer.replace_of_split cut', text, String.toList_ofList, List.append_assoc, whole]

/-- Steps that found their texts can be moved over the other way, the last first. -/
theorem replay_opposite (small : ∀ step ∈ steps, step.change.Small) (found : dir.Finds steps a)
    (done : dir.replay steps a = .ok b) : dir.opposite.replay steps.reverse b = .ok a := by
  induction steps generalizing a with
  | nil =>
      cases done
      rfl
  | cons step steps ih =>
      rw [replay_cons] at done
      obtain ⟨a', first, done⟩ := bind_eq_ok_iff.mp done
      have back := ih (fun s mem => small s (List.mem_cons_of_mem _ mem)) (found.2 a' first) done
      rw [List.reverse_cons, replay_append, back]
      change dir.opposite.replay [step] a' = .ok a
      rw [replay_cons, put_opposite (small step List.mem_cons_self) found.1 first]
      rfl

end Direction

namespace Document

variable {μ : Type} {d d' : Document μ} {c : TextChange} {steps : List UndoStep}

/-! ### Stacks after a move -/

/-- Of the group ahead, the steps `moved` were moved over and the steps `left` were not. -/
structure Moved (dir : Direction) (d d' : Document μ) (moved left rest : List UndoStep) : Prop where
  group : TopGroup (d.history.ahead dir) (moved ++ left) rest
  /-- The text is the one that the steps lead to, and only they. -/
  text : dir.replay moved d.buffer = .ok d'.buffer
  fits : d'.index.Fits d'.buffer.units
  /-- The steps went over to the other stack, the last of them on top. All others are where they
  were. -/
  history : d'.history =
    d.history.relocate (left ++ rest) (moved.reverse ++ d.history.ahead dir.opposite) dir
  config : d'.config = d.config

/-- The steps that were moved over are the group on top of the other stack, when what lies below
them is of another group. -/
theorem Moved.topGroup {dir : Direction} {moved left rest : List UndoStep}
    (worked : Moved dir d d' moved left rest) (nonempty : moved ≠ [])
    (apart : ∀ step ∈ moved, ∀ below, (d.history.ahead dir.opposite).head? = some below →
      step.group ≠ below.group) :
    TopGroup (d'.history.ahead dir.opposite) moved.reverse (d.history.ahead dir.opposite) := by
  obtain ⟨-, -, g, same, -⟩ := worked.group
  refine ⟨?_, List.reverse_ne_nil_iff.mpr nonempty, g, ?_, ?_⟩
  · rw [worked.history, History.behind_relocate]
  · intro step mem
    exact same step (List.mem_append_left _ (List.mem_reverse.mp mem))
  · intro below first
    obtain ⟨step, moved', rfl⟩ := List.exists_cons_of_ne_nil nonempty
    rw [← same step (List.mem_append_left _ List.mem_cons_self)]
    exact (apart step List.mem_cons_self below first).symm

/-- Moving back over all of them puts both stacks back. -/
theorem Moved.stacks_eq {dir : Direction} {d'' : Document μ} {moved left rest : List UndoStep}
    (worked : Moved dir d d' moved left rest)
    (back : Moved dir.opposite d' d'' moved.reverse [] (d.history.ahead dir.opposite)) :
    d''.history.ahead dir = d.history.ahead dir ∧
      d''.history.ahead dir.opposite = d.history.ahead dir.opposite := by
  constructor
  · rw [back.history, Direction.opposite_opposite, History.ahead_relocate_opposite,
      List.reverse_reverse, worked.history, History.ahead_relocate, worked.group.whole,
      List.append_assoc]
  · rw [back.history, List.nil_append, History.ahead_relocate]

variable [LanguageMode μ]

/-! ### One change -/

/-- Move over one change. -/
def act : Direction → TextChange → DocumentM μ Replacement
  | .back => revert
  | .on => reapply

theorem act_eq (dir : Direction) (c : TextChange) :
    (act dir c : DocumentM μ Replacement) = applyReplacement (dir.range c) (dir.text c) := by
  cases dir <;> rfl

/-- A change that cannot be done changes nothing. -/
theorem act_of_put_error {dir : Direction} {e : Failure} (stuck : dir.put c d.buffer = .error e) :
    act dir c d = .error e d := by
  rw [act_eq]
  exact applyReplacement_error (TextBuffer.replace_eq_error_iff.mp stuck)

theorem act_of_put_ok {dir : Direction} {b : TextBuffer} (fits : d.index.Fits d.buffer.units)
    (done : dir.put c d.buffer = .ok b) :
    ∃ replacement d', act dir c d = .ok replacement d' ∧ d.Rewritten d' b := by
  obtain ⟨before, inside, after, cut, rfl⟩ := TextBuffer.replace_eq_ok_iff.mp done
  obtain ⟨replacement, d', ok, rewritten, -⟩ :=
    @applyReplacement_ok _ _ _ _ (dir.text c) _ _ _ fits cut
  exact ⟨replacement, d', by rw [act_eq, ok], rewritten⟩

/-- A change of a small location is done, or refused for what is wrong with its range. -/
theorem put_cases (dir : Direction) (small : c.Small) (b : TextBuffer) :
    (∃ b', dir.put c b = .ok b') ∨ ∃ e, dir.put c b = .error (.rejected e) := by
  cases done : dir.put c b with
  | ok b' => exact .inl ⟨b', rfl⟩
  | error f =>
      have uncut := TextBuffer.replace_eq_error_iff.mp done
      obtain ⟨e, -, rfl⟩ := (TextBuffer.split_eq_error_iff (dir.range_small small)).mp uncut
      exact .inr ⟨e, rfl⟩

/-! ### A group of changes -/

/-- Where working through steps ends: behind the last, or in front of one that cannot be done. -/
inductive Stops (dir : Direction) (b : TextBuffer) :
    List UndoStep → Option (EditError × List UndoStep) → Prop
  | done : Stops dir b [] none
  | stuck {step : UndoStep} {later : List UndoStep} {e : EditError} :
      dir.put step.change b = .error (.rejected e) →
      Stops dir b (step :: later) (some (e, step :: later))

/-- Working through steps does to the text what they do, as far as it gets. -/
theorem replaySteps_stops (dir : Direction) (fits : d.index.Fits d.buffer.units)
    (small : ∀ step ∈ steps, step.change.Small) (changes : LineChanges) (before : List UndoStep) :
    ∃ changes' moved left failed d', replaySteps (act dir) steps changes before d =
        .ok (changes', before.reverse ++ moved, failed) d' ∧ steps = moved ++ left ∧
      dir.replay moved d.buffer = .ok d'.buffer ∧ d.Rewritten d' d'.buffer ∧
      Stops dir d'.buffer left failed := by
  induction steps generalizing d changes before with
  | nil =>
      refine ⟨changes, [], [], none, d, ?_, rfl, rfl, ⟨rfl, fits, rfl, rfl, rfl⟩, .done⟩
      rw [replaySteps, List.append_nil]
      rfl
  | cons step steps ih =>
      rcases put_cases dir (small step List.mem_cons_self) d.buffer with ⟨b, done⟩ | ⟨e, stuck⟩
      · obtain ⟨replacement, d₁, ok, rewritten⟩ := act_of_put_ok fits done
        obtain ⟨changes', moved, left, failed, d', run, rfl, replayed, rewritten', stops⟩ :=
          ih (d := d₁) (rewritten.buffer ▸ rewritten.fits)
            (fun s mem => small s (List.mem_cons_of_mem _ mem))
            (changes.union replacement.changes) (step :: before)
        refine ⟨changes', step :: moved, left, failed, d', ?_, rfl, ?_,
          ⟨rfl, rewritten'.fits, ?_, ?_, ?_⟩, stops⟩
        · rw [replaySteps]
          dsimp only
          rw [ok]
          dsimp only
          rw [run, List.reverse_cons, List.append_assoc]
          rfl
        · rw [Direction.replay_cons, done, ← rewritten.buffer]
          exact replayed
        · exact rewritten'.history.trans rewritten.history
        · exact rewritten'.config.trans rewritten.config
        · exact rewritten'.estimatedHeight.trans rewritten.estimatedHeight
      · refine ⟨changes, [], step :: steps, some (e, step :: steps), d, ?_, rfl, rfl,
          ⟨rfl, fits, rfl, rfl, rfl⟩, .stuck stuck⟩
        rw [replaySteps, List.append_nil]
        dsimp only
        rw [act_of_put_error stuck]

/-- What is done to the stacks after a group was worked through. -/
theorem move_of_top {dir : Direction} {run rest moved : List UndoStep} {changes : LineChanges}
    {failed : Option (EditError × List UndoStep)} {d₁ : Document μ}
    (top : TopGroup (d.history.ahead dir) run rest)
    (worked : replaySteps (act dir) run .none []
      { d with history := d.history.relocate rest (d.history.ahead dir.opposite) dir } =
        .ok (changes, moved, failed) d₁)
    (history : d₁.history = d.history.relocate rest (d.history.ahead dir.opposite) dir) :
    move dir d = failed.elim
      (.ok changes { d₁ with
        history := d.history.relocate rest (moved.reverse ++ d.history.ahead dir.opposite) dir })
      fun stopped => .error (.rejected stopped.1) { d₁ with
        history := d.history.relocate (stopped.2 ++ rest)
          (moved.reverse ++ d.history.ahead dir.opposite) dir } := by
  cases dir with
  | back =>
      have worked : replaySteps revert run .none []
          { d with history := { d.history.endGroup with done := rest } } =
            .ok (changes, moved, failed) d₁ := worked
      rw [move, undo, get_bind, History.takeDone_of_top top]
      dsimp only
      rw [modify_bind, bind_ok worked, modify_bind, history]
      cases failed <;> rfl
  | on =>
      have worked : replaySteps reapply run .none []
          { d with history := { d.history.endGroup with undone := rest } } =
            .ok (changes, moved, failed) d₁ := worked
      rw [move, redo, get_bind, History.takeUndone_of_top top]
      dsimp only
      rw [modify_bind, bind_ok worked, modify_bind, history]
      cases failed <;> rfl

/-- All that a move does, whatever the history. -/
theorem move_cases (dir : Direction) (fits : d.index.Fits d.buffer.units)
    (small : ∀ run rest, TopGroup (d.history.ahead dir) run rest → ∀ step ∈ run,
      step.change.Small) :
    (d.history.ahead dir = [] ∧ move dir d = .error (.rejected dir.nothing) d.endGroup) ∨
      (∃ moved rest changes d', Moved dir d d' moved [] rest ∧ move dir d = .ok changes d') ∨
      ∃ moved stuck later rest e d', Moved dir d d' moved (stuck :: later) rest ∧
        dir.put stuck.change d'.buffer = .error (.rejected e) ∧
          move dir d = .error (.rejected e) d' := by
  by_cases empty : d.history.ahead dir = []
  · left
    cases dir with
    | back => exact ⟨empty, OnTimeline.undo_nothing empty⟩
    | on => exact ⟨empty, OnTimeline.redo_nothing empty⟩
  · right
    obtain ⟨run, rest, top⟩ := History.exists_topGroup empty
    obtain ⟨changes, moved, left, failed, d₁, worked, rfl, replayed, rewritten, stops⟩ :=
      replaySteps_stops (d := { d with
        history := d.history.relocate rest (d.history.ahead dir.opposite) dir }) dir fits
        (small run rest top) .none []
    rw [List.reverse_nil, List.nil_append] at worked
    have moves := move_of_top top worked rewritten.history
    cases stops with
    | done =>
        refine .inl ⟨moved, rest, changes, _, ?_, moves⟩
        exact ⟨top, replayed, rewritten.fits, rfl, rewritten.config⟩
    | @stuck step later e refused =>
        refine .inr ⟨moved, step, later, rest, e, { d₁ with
          history := d.history.relocate (step :: later ++ rest)
            (moved.reverse ++ d.history.ahead dir.opposite) dir }, ?_, refused, moves⟩
        exact ⟨top, replayed, rewritten.fits, rfl, rewritten.config⟩

/-! ### Where a move stops halfway -/

/-- Moving the other way after the steps `moved` were moved over takes just these, the last
first. -/
structure Resumes (dir : Direction) (d d' : Document μ) (moved : List UndoStep) : Prop where
  group : TopGroup (d'.history.ahead dir.opposite) moved.reverse (d.history.ahead dir.opposite)
  /-- It succeeds when they can be done, leads to the text that they lead to and puts them back. -/
  move : ∀ t, dir.opposite.replay moved.reverse d'.buffer = .ok t ↔
    ∃ changes d'', Document.move dir.opposite d' = .ok changes d'' ∧ d''.buffer = t ∧
      d''.history.ahead dir = d.history.ahead dir ∧
        d''.history.ahead dir.opposite = d.history.ahead dir.opposite
  /-- That is the text before, if all of them had found the texts that they were recorded with. -/
  back : dir.Finds moved d.buffer → dir.opposite.replay moved.reverse d'.buffer = .ok d.buffer

/-- The move came to the step `stuck` of the group ahead and could not do it. -/
structure Halted (dir : Direction) (d d' : Document μ) (moved : List UndoStep) (stuck : UndoStep)
    (later rest : List UndoStep) (e : EditError) : Prop
    extends Moved dir d d' moved (stuck :: later) rest where
  /-- The step still cannot be done, and trying to changes nothing. -/
  refused : act dir stuck.change d' = .error (.rejected e) d'
  /-- The lines are those of the text. -/
  lines : ∀ other : LineIndex, d'.index.layout = (other.rebuild d'.buffer).layout
  /-- The steps that were moved over are a group for the way back, when what lies below them is of
  another one. -/
  resumes : moved ≠ [] →
    (∀ step ∈ moved, ∀ below, (d.history.ahead dir.opposite).head? = some below →
    step.group ≠ below.group) → Resumes dir d d' moved

theorem Moved.resumes {dir : Direction} {moved left rest : List UndoStep}
    (worked : Moved dir d d' moved left rest) (small : ∀ step ∈ moved, step.change.Small)
    (nonempty : moved ≠ [])
    (apart : ∀ step ∈ moved, ∀ below, (d.history.ahead dir.opposite).head? = some below →
      step.group ≠ below.group) : Resumes dir d d' moved := by
  have top := worked.topGroup nonempty apart
  refine ⟨top, ?_, fun found => Direction.replay_opposite small found worked.text⟩
  intro t
  have small' : ∀ run rest, TopGroup (d'.history.ahead dir.opposite) run rest →
      ∀ step ∈ run, step.change.Small := by
    intro run rest top' step mem
    obtain ⟨rfl, -⟩ := top.unique top'
    exact small step (List.mem_reverse.mp mem)
  rcases move_cases dir.opposite worked.fits small' with ⟨nothing, -⟩ |
    ⟨moved', rest', changes, d'', back, ok⟩ | ⟨moved', stuck, later, rest', e, d'', back,
      refused, ok⟩
  · exact absurd (List.append_eq_nil_iff.mp (top.whole.symm.trans nothing)).1 top.nonempty
  · obtain ⟨same, rfl⟩ := top.unique back.group
    rw [List.append_nil] at same
    subst same
    constructor
    · intro done
      have text := back.text
      rw [done] at text
      exact ⟨changes, d'', ok, (Except.ok.inj text).symm, worked.stacks_eq back⟩
    · rintro ⟨_, _, ok', rfl, -⟩
      cases ok.symm.trans ok'
      exact back.text
  · -- Neither are the steps worked through as a whole nor does the move succeed.
    obtain ⟨same, rfl⟩ := top.unique back.group
    rw [same, Direction.replay_of_put_error back.text refused, ok]
    constructor
    · intro done
      cases done
    · rintro ⟨_, _, done, -⟩
      cases done

/-- Undoing and redoing fail with what a change of the group ahead fails with, whatever the changes
of the history are. The changes before it were done then, all are kept in their order, and the way
back is open. -/
theorem move_loses_nothing {dir : Direction} (fits : d.index.Fits d.buffer.units)
    (small : ∀ step ∈ d.history.ahead dir, step.change.Small) :
    (∀ run rest f, TopGroup (d.history.ahead dir) run rest → dir.replay run d.buffer = .error f →
      ∃ d', move dir d = .error f d') ∧
    ∀ f d', move dir d = .error f d' → f ≠ .rejected dir.nothing →
      ∃ moved stuck later rest e, f = .rejected e ∧ Halted dir d d' moved stuck later rest e := by
  have inGroup : ∀ run rest, TopGroup (d.history.ahead dir) run rest →
      ∀ step ∈ run, step.change.Small := by
    intro run rest top step mem
    exact small step (top.whole ▸ List.mem_append_left _ mem)
  rcases move_cases dir fits inGroup with ⟨empty, nothing⟩ | ⟨moved, rest, changes, d₁,
    worked, ok⟩ |
    ⟨moved, stuck, later, rest, e, d₁, worked, refused, halted⟩
  · constructor
    · intro run rest f top
      exact absurd (List.append_eq_nil_iff.mp (top.whole.symm.trans empty)).1 top.nonempty
    · intro f d' failed reason
      cases nothing.symm.trans failed
      exact absurd rfl reason
  · constructor
    · intro run rest' f top failed
      obtain ⟨rfl, -⟩ := worked.group.unique top
      rw [List.append_nil, worked.text] at failed
      cases failed
    · intro f d' failed
      cases ok.symm.trans failed
  · constructor
    · intro run rest' f top failed
      obtain ⟨rfl, -⟩ := worked.group.unique top
      cases (Direction.replay_of_put_error worked.text refused).symm.trans failed
      exact ⟨d₁, halted⟩
    · intro f d' failed reason
      cases halted.symm.trans failed
      refine ⟨moved, stuck, later, rest, e, rfl, worked, act_of_put_error refused, ?_, ?_⟩
      · intro other
        exact worked.fits.layout_eq (LineIndex.fits_rebuild other _)
      · exact worked.resumes fun step mem =>
          inGroup _ _ worked.group step (List.mem_append_left _ mem)

/-- The older change of a group lies behind the end of the text. The newer one is taken back and can
be done again. -/
theorem halted_at_unreachable_change :
    ∃ d d' : Document PlainText, d.text = "abcd" ∧ d'.text = "abc" ∧
      move .back d = .error (.rejected (.rangeOutOfBounds 10 1 3)) d' ∧
        d'.history.done = [⟨0, 10, "", "x"⟩] ∧ d'.history.undone = [⟨0, 3, "", "d"⟩] ∧
          ∃ moved stuck later rest,
            Halted .back d d' moved stuck later rest (.rangeOutOfBounds 10 1 3) := by
  let history : History :=
    { done := [⟨0, 3, "", "d"⟩, ⟨0, 10, "", "x"⟩], limit := 1000, nextGroup := 1 }
  let d : Document PlainText := { ofText "abcd" {} .mk with history }
  have failed : move .back d = .error (.rejected (.rangeOutOfBounds 10 1 3))
      (after (move .back d)) := by
    rfl
  have small : ∀ step ∈ d.history.ahead .back, step.change.Small := by
    decide
  obtain ⟨moved, stuck, later, rest, e, reason, halted⟩ :=
    (move_loses_nothing (LineIndex.fits_rebuild _ _) small).2 _ _ failed (by decide)
  cases reason
  exact ⟨d, _, rfl, by decide +kernel, failed, by decide +kernel, by decide +kernel, moved,
    stuck, later, rest, halted⟩

end Document

end CodeEditor

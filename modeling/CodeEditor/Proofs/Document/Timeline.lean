import CodeEditor.Proofs.Document.History
import CodeEditor.Proofs.Document.Replacement

/-!
The texts that a document can move to.

A history keeps changes, not texts. `OnTimeline` says which texts they stand for: one more than
there are changes, each led to from the one before by the next change, with the text of the document
at its position among them. `undo_ok` and `redo_ok` say that a group of changes is taken back or
done again as a whole, and that only the position moves; `undo_nothing` and `redo_nothing` are all
the ways in which they fail.
-/

namespace CodeEditor

/-- Texts in a row, each led to from the one before by the change of a step. -/
inductive Timeline : List UndoStep → List TextBuffer → Prop
  | single (text : TextBuffer) : Timeline [] [text]
  | cons {step : UndoStep} {steps : List UndoStep} {text next : TextBuffer}
      {texts : List TextBuffer} :
      step.change.Leads text next → Timeline steps (next :: texts) →
      Timeline (step :: steps) (text :: next :: texts)

namespace Timeline

variable {steps older run newer : List UndoStep} {texts : List TextBuffer}

theorem length_eq (line : Timeline steps texts) : texts.length = steps.length + 1 := by
  induction line with
  | single text => rfl
  | cons _ _ ih => rw [List.length_cons, ih, List.length_cons]

/-- The texts around a step. -/
theorem leads {step : UndoStep} (line : Timeline (older ++ step :: newer) texts) :
    ∃ a b, texts[older.length]? = some a ∧ texts[older.length + 1]? = some b ∧
      step.change.Leads a b := by
  induction older generalizing texts with
  | nil =>
      cases line with
      | @cons _ _ text next _ leads _ => exact ⟨text, next, rfl, rfl, leads⟩
  | cons _ older ih =>
      cases line with
      | cons _ line => exact ih line

/-- What is left without the oldest step. -/
theorem tail {step : UndoStep} (line : Timeline (step :: steps) texts) :
    Timeline steps texts.tail := by
  cases line with
  | cons _ line => exact line

/-- A new step in place of the newer ones. -/
theorem record {change : TextChange} {a b : TextBuffer} (group : Nat)
    (line : Timeline (older ++ newer) texts) (here : texts[older.length]? = some a)
    (leads : change.Leads a b) :
    Timeline (older ++ [⟨group, change⟩]) (texts.take (older.length + 1) ++ [b]) := by
  induction older generalizing texts with
  | nil =>
      obtain ⟨text, texts, rfl⟩ :=
        List.exists_cons_of_ne_nil (List.ne_nil_of_length_pos (by rw [line.length_eq]; omega))
      obtain rfl : text = a := Option.some.inj here
      exact .cons leads (.single b)
  | cons _ older ih =>
      cases line with
      | cons first line => exact .cons first (ih line here)

end Timeline

/-! ### Replaying steps -/

/-- Steps that lead from one text to another, each in the sense of a relation. -/
inductive Passes (leads : TextChange → TextBuffer → TextBuffer → Prop) :
    TextBuffer → List UndoStep → TextBuffer → Prop
  | refl (text : TextBuffer) : Passes leads text [] text
  | cons {a b c : TextBuffer} {step : UndoStep} {steps : List UndoStep} :
      a.Short → leads step.change a b → Passes leads b steps c → Passes leads a (step :: steps) c

theorem Passes.concat {leads : TextChange → TextBuffer → TextBuffer → Prop} {a b c : TextBuffer}
    {steps : List UndoStep} {step : UndoStep} (passes : Passes leads a steps b) (short : b.Short)
    (last : leads step.change b c) : Passes leads a (steps ++ [step]) c := by
  induction passes with
  | refl text => exact .cons short last (.refl c)
  | cons short' first _ ih => exact .cons short' first (ih short last)

/-- A run of the timeline leads from its first text to its last. -/
theorem Timeline.passes {older run newer : List UndoStep} {texts : List TextBuffer}
    {a b : TextBuffer}
    (line : Timeline (older ++ (run ++ newer)) texts) (short : ∀ text ∈ texts, text.Short)
    (start : texts[older.length]? = some a) (stop : texts[older.length + run.length]? = some b) :
    Passes TextChange.Leads a run b ∧ Passes (fun c => flip c.Leads) b run.reverse a := by
  induction run generalizing older a with
  | nil =>
      obtain rfl : a = b := Option.some.inj (start.symm.trans stop)
      exact ⟨.refl a, .refl a⟩
  | cons step run ih =>
      obtain ⟨a', next, here, ahead, leads⟩ := line.leads
      obtain rfl : a' = a := Option.some.inj (here.symm.trans start)
      have rest : Timeline ((older ++ [step]) ++ (run ++ newer)) texts := by simpa using line
      have length : (older ++ [step]).length = older.length + 1 := by simp
      obtain ⟨on, back⟩ := ih rest (by rw [length]; exact ahead) (by
        rw [length, ← stop, List.length_cons]
        congr 1
        omega)
      refine ⟨.cons (short a' (List.mem_of_getElem? here)) leads on, ?_⟩
      rw [List.reverse_cons]
      exact back.concat (short next (List.mem_of_getElem? ahead)) leads

namespace Document

variable {μ : Type}

section

variable {leads : TextChange → TextBuffer → TextBuffer → Prop}
  {act : TextChange → DocumentM μ Replacement}

/-- Steps are worked through when each of them leads on and can be done. -/
theorem replaySteps_ok {silent : Prop}
    (can : ∀ {change : TextChange} {d : Document μ} {b : TextBuffer}, d.index.Fits d.buffer.units →
      leads change d.buffer b → d.buffer.Short →
      ∃ replacement d', act change d = .ok replacement d' ∧ d.Rewritten d' b ∧
        (silent → d.Reports 6 d' replacement.changes))
    {d : Document μ} {steps : List UndoStep} {b : TextBuffer} (fits : d.index.Fits d.buffer.units)
    (passes : Passes leads d.buffer steps b) (changes : LineChanges) (before : List UndoStep) :
    ∃ changes' d', replaySteps act steps changes before d =
        .ok (changes', before.reverse ++ steps, none) d' ∧ d.Rewritten d' b ∧
      ∀ (d₀ : Document μ) (n : Nat), silent → d₀.Reports n d changes →
        n + 6 * steps.length < UInt32.size → d₀.Reports (n + 6 * steps.length) d' changes' := by
  generalize start : d.buffer = a at passes
  induction passes generalizing d changes before with
  | refl text =>
      refine ⟨changes, d, ?_, ⟨start, start ▸ fits, rfl, rfl, rfl⟩, fun _ _ _ reports _ => reports⟩
      rw [replaySteps, List.append_nil]
      rfl
  | @cons a b c step steps short first _ ih =>
      subst start
      obtain ⟨replacement, d', ok, rewritten, reports⟩ := can fits first short
      have fits' : d'.index.Fits d'.buffer.units := rewritten.buffer ▸ rewritten.fits
      obtain ⟨changes', d'', rest, rewritten', reports'⟩ :=
        ih fits' (changes.union replacement.changes) (step :: before) rewritten.buffer
      refine ⟨changes', d'', ?_, ⟨rewritten'.buffer, rewritten'.fits, ?_, ?_, ?_⟩, ?_⟩
      · rw [replaySteps]
        dsimp only
        rw [ok]
        dsimp only
        rw [rest, List.reverse_cons, List.append_assoc]
        rfl
      · exact rewritten'.history.trans rewritten.history
      · exact rewritten'.config.trans rewritten.config
      · exact rewritten'.estimatedHeight.trans rewritten.estimatedHeight
      · intro d₀ n silent sofar few
        rw [List.length_cons, Nat.mul_succ, Nat.add_comm _ 6, ← Nat.add_assoc] at few ⊢
        exact reports' d₀ (n + 6) silent
          (LineIndex.Tells.union sofar (reports silent) fits' (by omega)) few

end

/-! ### Moving along the texts -/

/-- The texts that the changes of a document stand for, its own at its position among them. -/
structure OnTimeline (d : Document μ) (texts : List TextBuffer) : Prop where
  line : Timeline d.history.steps texts
  here : texts[d.history.done.length]? = some d.buffer
  short : ∀ text ∈ texts, text.Short
  fits : d.index.Fits d.buffer.units
  apart : d.history.Apart
  limit : d.history.limit = d.config.maxUndo
  room : d.history.done.length + d.history.undone.length ≤ d.config.maxUndo
  estimatedHeight : d.index.estimatedHeight = d.config.estimatedLineHeight

theorem length_steps (h : History) : h.steps.length = h.done.length + h.undone.length := by
  rw [History.steps, List.length_append, List.length_reverse]

namespace OnTimeline

variable {d d' : Document μ} {texts : List TextBuffer} {run rest : List UndoStep}

theorem length_eq (on : d.OnTimeline texts) :
    texts.length = d.history.done.length + d.history.undone.length + 1 := by
  rw [on.line.length_eq, length_steps]

theorem exists_text (on : d.OnTimeline texts) {i : Nat} (inside : i ≤ d.history.steps.length) :
    ∃ text, texts[i]? = some text :=
  ⟨_, List.getElem?_eq_getElem (by rw [on.line.length_eq]; omega)⟩

/-- A document at another position among the same texts. -/
theorem move (on : d.OnTimeline texts) (fits : d'.index.Fits d'.buffer.units)
    (steps : d'.history.steps = d.history.steps) (apart : d'.history.Apart)
    (here : texts[d'.history.done.length]? = some d'.buffer)
    (limit : d'.history.limit = d.history.limit) (config : d'.config = d.config)
    (height : d'.index.estimatedHeight = d.index.estimatedHeight) : d'.OnTimeline texts where
  line := steps ▸ on.line
  here := here
  short := on.short
  fits := fits
  apart := apart
  limit := by rw [limit, config, on.limit]
  room := by rw [← length_steps, steps, length_steps, config]; exact on.room
  estimatedHeight := by rw [height, config, on.estimatedHeight]

/-- Changes of the document that leave its text and its stacks as they are. -/
theorem congr (on : d.OnTimeline texts) (buffer : d'.buffer = d.buffer)
    (fits : d'.index.Fits d.buffer.units) (done : d'.history.done = d.history.done)
    (undone : d'.history.undone = d.history.undone) (limit : d'.history.limit = d.history.limit)
    (config : d'.config = d.config)
    (height : d'.index.estimatedHeight = d.index.estimatedHeight) : d'.OnTimeline texts := by
  refine on.move (buffer ▸ fits) ?_ ?_ ?_ limit config height
  · rw [History.steps, done, undone, History.steps]
  · rw [History.Apart, done, undone]
    exact on.apart
  · rw [done, buffer, on.here]

/-- Documents at the same position have the same text and the same lines. -/
theorem same (on : d.OnTimeline texts) (on' : d'.OnTimeline texts)
    (done : d'.history.done = d.history.done) :
    d'.buffer = d.buffer ∧ d'.index.layout = d.index.layout := by
  have buffer : d'.buffer = d.buffer := by
    have here := on'.here
    rw [done, on.here] at here
    exact (Option.some.inj here).symm
  exact ⟨buffer, (buffer ▸ on'.fits).layout_eq on.fits⟩

variable [LanguageMode μ]

/-- The newest group of changes is taken back as a whole. -/
theorem undo_ok (on : d.OnTimeline texts) (top : TopGroup d.history.done run rest) :
    ∃ changes d', undo d = .ok changes d' ∧ d'.OnTimeline texts ∧
      d'.history = d.history.moveBack run rest ∧ d'.config = d.config ∧
      (Silent μ → 6 * run.length < UInt32.size → d.Reports (6 * run.length) d' changes) := by
  have steps : d.history.steps = rest.reverse ++ (run.reverse ++ d.history.undone) := by
    rw [History.steps, top.whole, List.reverse_append, List.append_assoc]
  obtain ⟨a, start⟩ := on.exists_text (show rest.length ≤ d.history.steps.length by
    rw [steps]
    simp)
  have stop := on.here
  rw [top.whole, List.length_append, Nat.add_comm] at stop
  have passes := (steps ▸ on.line).passes on.short (by simpa using start) (by simpa using stop)
  rw [List.reverse_reverse] at passes
  obtain ⟨changes, d', ok, rewritten, reports⟩ :=
    @replaySteps_ok μ (fun c => flip c.Leads) _ _ revert_ok
    { d with history := { d.history.endGroup with done := rest } } run a on.fits passes.2 .none []
  have history : d'.history.pushUndone run = d.history.moveBack run rest := by
    rw [rewritten.history]
    rfl
  refine ⟨changes, { d' with history := d'.history.pushUndone run }, ?_, ?_, history,
    rewritten.config, fun silent few => ?_⟩
  · rw [undo, get_bind, History.takeDone_of_top top]
    dsimp only
    rw [modify_bind, bind_ok ok]
    rfl
  · refine on.move (rewritten.buffer ▸ rewritten.fits) ?_ ?_ ?_ ?_ rewritten.config
      rewritten.estimatedHeight
    all_goals dsimp only; rw [history]
    · exact History.steps_moveBack top
    · exact History.apart_moveBack top
    · rw [rewritten.buffer]
      exact start
    · rfl
  · have told := reports _ 0 silent (LineIndex.Tells.refl on.fits) (by omega)
    rwa [Nat.zero_add] at told

/-- The next group of changes is done again as a whole. -/
theorem redo_ok (on : d.OnTimeline texts) (top : TopGroup d.history.undone run rest) :
    ∃ changes d', redo d = .ok changes d' ∧ d'.OnTimeline texts ∧
      d'.history = d.history.moveOn run rest ∧ d'.config = d.config ∧
      (Silent μ → 6 * run.length < UInt32.size → d.Reports (6 * run.length) d' changes) := by
  have steps : d.history.steps = d.history.done.reverse ++ (run ++ rest) := by
    rw [History.steps, top.whole]
  obtain ⟨b, stop⟩ := on.exists_text
    (show d.history.done.length + run.length ≤ d.history.steps.length by
      rw [steps]
      simp)
  have passes := (steps ▸ on.line).passes on.short (by simpa using on.here) (by simpa using stop)
  obtain ⟨changes, d', ok, rewritten, reports⟩ := @replaySteps_ok μ TextChange.Leads _ _ reapply_ok
    { d with history := { d.history.endGroup with undone := rest } } run b on.fits passes.1 .none []
  have history : d'.history.pushDone run = d.history.moveOn run rest := by
    rw [rewritten.history]
    rfl
  refine ⟨changes, { d' with history := d'.history.pushDone run }, ?_, ?_, history,
    rewritten.config, fun silent few => ?_⟩
  · rw [redo, get_bind, History.takeUndone_of_top top]
    dsimp only
    rw [modify_bind, bind_ok ok]
    rfl
  · refine on.move (rewritten.buffer ▸ rewritten.fits) ?_ ?_ ?_ ?_ rewritten.config
      rewritten.estimatedHeight
    all_goals dsimp only; rw [history]
    · exact History.steps_moveOn top
    · exact History.apart_moveOn top
    · rw [rewritten.buffer, ← stop]
      simp [History.moveOn, Nat.add_comm]
    · rfl
  · have told := reports _ 0 silent (LineIndex.Tells.refl on.fits) (by omega)
    rwa [Nat.zero_add] at told

theorem undo_nothing (empty : d.history.done = []) :
    undo d = .error (.rejected .nothingToUndo) d.endGroup := by
  rw [undo, get_bind, History.takeDone_of_empty empty]
  rfl

theorem redo_nothing (empty : d.history.undone = []) :
    redo d = .error (.rejected .nothingToRedo) d.endGroup := by
  rw [redo, get_bind, History.takeUndone_of_empty empty]
  rfl

end OnTimeline

end Document

end CodeEditor

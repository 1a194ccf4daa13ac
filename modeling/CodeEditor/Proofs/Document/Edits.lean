import CodeEditor.Proofs.Document.Timeline

/-!
One edit of a document after the other.

`Edit` is every way to change a document, whether it succeeds or not, and `OnTimeline.edit` says
what one edit preserves: the changes stand for texts in a row, and a clean point that is left still
names the text that it named. `Saved` is what a run of edits leads to from an opened document,
together with the text that the document had when it was last opened or marked as clean; `Reachable`
forgets that text.

The clean point is a number of changes, so it can name a text only among those that the changes
stand for. A history that keeps no changes has nothing to tell two texts apart by, which is why
`Remembers` leaves it out.
-/

namespace CodeEditor

/-- Among the texts that the changes stand for, the clean point is the place of a given one. -/
def History.Remembers (h : History) (texts : List TextBuffer) (saved : TextBuffer) : Prop :=
  h.limit ≠ 0 → ∀ n, h.clean = some n → texts[n]? = some saved

namespace Document

variable {μ : Type}

/-- A document without a history. -/
theorem onTimeline_single {d : Document μ} (done : d.history.done = [])
    (undone : d.history.undone = [])
    (limit : d.history.limit = d.config.maxUndo) (fits : d.index.Fits d.buffer.units)
    (short : d.buffer.Short) (height : d.index.estimatedHeight = d.config.estimatedLineHeight) :
    d.OnTimeline [d.buffer] := by
  refine ⟨?_, ?_, ?_, fits, ?_, limit, ?_, height⟩
  · rw [History.steps, done, undone]
    exact .single d.buffer
  · rw [done]
    rfl
  · intro text mem
    rwa [List.mem_singleton.mp mem]
  · intro step step' below
    rw [done] at below
    cases below
  · rw [done, undone]
    exact Nat.zero_le _

namespace OnTimeline

variable {d d' : Document μ} {texts : List TextBuffer}

/-- The texts that are kept when a change is recorded, and the one that it leads to. -/
theorem exists_kept {change : TextChange} {b : TextBuffer} (on : d.OnTimeline texts)
    (leads : change.Leads d.buffer b) (short : b.Short) (keeps : d.history.limit ≠ 0)
    (group : Nat) :
    ∃ texts', Timeline (d.history.kept.reverse ++ [⟨group, change⟩]) texts' ∧
      texts'[d.history.kept.length + 1]? = some b ∧ (∀ text ∈ texts', text.Short) ∧
      ∀ n ≤ d.history.kept.length,
        texts'[n]? = texts[n + (d.history.done.length - d.history.kept.length)]? := by
  have here : texts[d.history.done.reverse.length]? = some d.buffer := by
    rw [List.length_reverse]
    exact on.here
  have line := on.line.record group here leads
  have last : (texts.take (d.history.done.reverse.length + 1) ++ [b])[d.history.done.length + 1]? =
      some b := by
    have len := on.length_eq
    rw [List.getElem?_append_right (by rw [List.length_take, List.length_reverse]; omega),
      List.length_take, List.length_reverse, Nat.min_eq_left (by omega), Nat.sub_self]
    rfl
  have short' : ∀ text ∈ texts.take (d.history.done.reverse.length + 1) ++ [b], text.Short := by
    intro text mem
    rcases List.mem_append.mp mem with old | new
    · exact on.short text (List.mem_of_mem_take old)
    · rwa [List.mem_singleton.mp new]
  have old : ∀ n ≤ d.history.done.length,
      (texts.take (d.history.done.reverse.length + 1) ++ [b])[n]? = texts[n]? := by
    intro n inside
    have len := on.length_eq
    rw [List.length_reverse, List.getElem?_append_left (by rw [List.length_take]; omega),
      List.getElem?_take_of_lt (by omega)]
  by_cases full : d.history.done.length < d.history.limit
  · rw [History.kept, if_pos full]
    refine ⟨_, line, last, short', fun n inside => ?_⟩
    rw [Nat.sub_self, Nat.add_zero]
    exact old n inside
  · rw [History.kept, if_neg full]
    obtain ⟨oldest, newer, split⟩ : ∃ oldest newer, d.history.done.reverse = oldest :: newer :=
      List.exists_cons_of_ne_nil (List.ne_nil_of_length_pos (by rw [List.length_reverse]; omega))
    have newest : d.history.done.dropLast.reverse = newer := by
      rw [← List.tail_reverse, split, List.tail_cons]
    have count : d.history.done.dropLast.length + 1 = d.history.done.length := by
      rw [List.length_dropLast]
      omega
    rw [newest, count]
    rw [split, List.cons_append] at line
    refine ⟨_, line.tail, ?_, ?_, ?_⟩
    · rw [List.getElem?_tail, ← split, last]
    · intro text mem
      rw [← split] at mem
      exact short' text (List.mem_of_mem_tail mem)
    · intro n inside
      rw [List.getElem?_tail, ← split, old (n + 1) (by omega),
        show d.history.done.length - d.history.done.dropLast.length = 1 by omega]

/-- Recording a change keeps the texts behind and adds one, as far as there is room. -/
theorem record {change : TextChange} {b : TextBuffer} (on : d.OnTimeline texts)
    (leads : change.Leads d.buffer b) (rewritten : d.Rewritten d' b) (short : b.Short) :
    ∃ texts', OnTimeline { d' with history := d.history.record change } texts' ∧
      ∀ saved, d.history.Remembers texts saved →
        (d.history.record change).Remembers texts' saved := by
  obtain ⟨done, undone, limit⟩ := d.history.record_eq change
  have room : d.history.done.length ≤ d.history.limit := by
    have room := on.room
    rw [← on.limit] at room
    omega
  have fits : d'.index.Fits d'.buffer.units := rewritten.buffer ▸ rewritten.fits
  have limit' : (d.history.record change).limit = d'.config.maxUndo := by
    rw [limit, on.limit, rewritten.config]
  have height : d'.index.estimatedHeight = d'.config.estimatedLineHeight := by
    rw [rewritten.estimatedHeight, rewritten.config, on.estimatedHeight]
  by_cases off : d.history.limit = 0
  · rw [if_pos off] at done
    have empty : d.history.done = [] := List.length_eq_zero_iff.mp (by omega)
    refine ⟨[d'.buffer], onTimeline_single (done.trans empty) undone limit' fits
      (rewritten.buffer ▸ short) height, fun saved _ keeps => ?_⟩
    exact absurd (limit.trans off) keeps
  · rw [if_neg off] at done
    obtain ⟨texts', line, here, short', old⟩ :=
      on.exists_kept leads short off (d.history.openGroup.getD d.history.nextGroup)
    refine ⟨texts', ⟨?_, ?_, short', fits, ?_, limit', ?_, height⟩, ?_⟩
    · dsimp only
      rw [History.steps, done, undone, List.append_nil, List.reverse_cons]
      exact line
    · dsimp only
      rw [done, List.length_cons, here, rewritten.buffer]
    · intro step step' _ next
      rw [undone] at next
      cases next
    · dsimp only
      rw [done, undone, rewritten.config, ← on.limit]
      exact d.history.length_kept off room
    · intro saved remembers _ n clean
      have inside : ∀ n, d.history.clean = some n →
          n ≤ d.history.done.length + d.history.undone.length := by
        intro n there
        have bound := (List.getElem?_eq_some_iff.mp (remembers off n there)).1
        rw [on.length_eq] at bound
        omega
      obtain ⟨bound, there⟩ := d.history.clean_record change off inside clean
      rw [old n bound]
      exact remembers off _ there

variable [LanguageMode μ]

/-- What replacing a range records. -/
theorem replaceText {r : TextRange} {old : String} (on : d.OnTimeline texts) (text : String)
    (read : d.buffer.substring r = .ok old) :
    ∃ replacement d' b, Document.replaceText r text d = .ok replacement d' ∧
      d.buffer.replace r text = .ok b ∧ d'.buffer = b ∧
      d'.history = (if old ≠ "" ∨ text ≠ "" then d.history.record ⟨r.location, old, text⟩
        else d.history) ∧
      (b.Short → ∃ texts', d'.OnTimeline texts' ∧ d'.config = d.config ∧
        ∀ saved, d.history.Remembers texts saved → d'.history.Remembers texts' saved) ∧
      d'.index.Fits d'.buffer.units ∧
      (Silent μ → d.Reports 6 d' replacement.changes ∧
        replacement.addsOrRemovesLines = replacement.changes.addsOrRemoves) := by
  obtain ⟨replacement, d', b, replaced, leads, rewritten, ok, reports⟩ :=
    replaceText_ok on.fits read
  refine ⟨replacement, _, b, ok, replaced, ?_, ?_, ?_, ?_, ?_⟩
  · split <;> exact rewritten.buffer
  · split
    · rfl
    · exact rewritten.history
  · intro short
    split
    · obtain ⟨texts', on', remembers⟩ := on.record leads rewritten short
      exact ⟨texts', on', rewritten.config, remembers⟩
    · next nothing =>
        -- Nothing was put in place of nothing, so the text is the same.
        obtain ⟨rfl, rfl⟩ : old = "" ∧ text = "" := by
          simpa [not_or] using nothing
        obtain ⟨before, after, whole, whole', -⟩ := leads
        have same : b = d.buffer := by
          obtain ⟨chars⟩ := b
          rw [← whole] at whole'
          exact congrArg TextBuffer.mk whole'
        subst same
        refine ⟨texts, on.congr rewritten.buffer rewritten.fits (by rw [rewritten.history])
          (by rw [rewritten.history]) (by rw [rewritten.history]) rewritten.config
          rewritten.estimatedHeight, rewritten.config, fun saved remembers => ?_⟩
        rwa [rewritten.history]
  · have fits : d'.index.Fits d'.buffer.units := rewritten.buffer ▸ rewritten.fits
    split <;> exact fits
  · split <;> exact reports

end OnTimeline

/-- The document after a change, whether it succeeded or not. -/
def after {α : Type} : EStateM.Result Failure (Document μ) α → Document μ
  | .ok _ d => d
  | .error _ d => d


section

variable [LanguageMode μ]

/-- One edit, whether it succeeds or not. Every text that there is can be addressed. -/
inductive Edit : Document μ → Document μ → Prop
  | replaceText (d : Document μ) (r : TextRange) (text : String) :
      (after (replaceText r text d)).buffer.Short → Edit d (after (replaceText r text d))
  | undo (d : Document μ) : Edit d (after (undo d))
  | redo (d : Document μ) : Edit d (after (redo d))
  | beginGroup (d : Document μ) : Edit d d.beginGroup
  | endGroup (d : Document μ) : Edit d d.endGroup
  | setText (d : Document μ) (text : String) :
      (TextBuffer.ofString text).Short → Edit d (d.setText text)
  | setMode (d : Document μ) (mode : μ) : Edit d (d.setMode mode)
  | setHeight (d : Document μ) (id : LineId) (height : Float) :
      Edit d (after (setHeight id height d))

/-- What edits lead to, with the text at the last clean point: that of the document when it was
opened, or when it was last marked as clean. -/
inductive Saved : TextBuffer → Document μ → Prop
  | opened (text : String) (config : DocumentConfig) (mode : μ) :
      (TextBuffer.ofString text).Short → Saved (.ofString text) (ofText text config mode)
  | edit {saved : TextBuffer} {d d' : Document μ} : Saved saved d → Edit d d' → Saved saved d'
  | markClean {saved : TextBuffer} {d : Document μ} : Saved saved d → Saved d.buffer d.markClean

/-- The documents that edits lead to. -/
def Reachable (d : Document μ) : Prop := ∃ saved, Saved saved d

/-- What one edit preserves: the document stays on a timeline, and a clean point that is left still
names the same text. -/
theorem OnTimeline.edit {d d' : Document μ} {texts : List TextBuffer} (on : d.OnTimeline texts)
    (edit : Edit d d') : ∃ texts', d'.OnTimeline texts' ∧ d'.config = d.config ∧
      ∀ saved, d.history.Remembers texts saved → d'.history.Remembers texts' saved := by
  cases edit with
  | replaceText r text short =>
      cases read : d.buffer.substring r with
      | error e =>
          rw [replaceText_error read]
          exact ⟨texts, on, rfl, fun _ remembers => remembers⟩
      | ok old =>
          obtain ⟨replacement, d', b, ok, -, buffer, -, next, -, -⟩ := on.replaceText text read
          rw [ok] at short ⊢
          exact next (buffer ▸ short)
  | undo =>
      by_cases empty : d.history.done = []
      · rw [OnTimeline.undo_nothing empty]
        exact ⟨texts, on.congr rfl on.fits rfl rfl rfl rfl rfl, rfl, fun _ remembers => remembers⟩
      · obtain ⟨run, rest, top⟩ := History.exists_topGroup empty
        obtain ⟨changes, d', ok, on', history, config, -⟩ := on.undo_ok top
        rw [ok]
        refine ⟨texts, on', config, fun saved remembers => ?_⟩
        rw [after, history]
        exact remembers
  | redo =>
      by_cases empty : d.history.undone = []
      · rw [OnTimeline.redo_nothing empty]
        exact ⟨texts, on.congr rfl on.fits rfl rfl rfl rfl rfl, rfl, fun _ remembers => remembers⟩
      · obtain ⟨run, rest, top⟩ := History.exists_topGroup empty
        obtain ⟨changes, d', ok, on', history, config, -⟩ := on.redo_ok top
        rw [ok]
        refine ⟨texts, on', config, fun saved remembers => ?_⟩
        rw [after, history]
        exact remembers
  | beginGroup =>
      refine ⟨texts, on.congr rfl on.fits (History.beginGroup_done _) (History.beginGroup_undone _)
        (History.beginGroup_limit _) rfl rfl, rfl, fun saved remembers => ?_⟩
      intro keeps n clean
      rw [beginGroup, History.beginGroup_limit] at keeps
      rw [beginGroup, History.beginGroup_clean] at clean
      exact remembers keeps n clean
  | endGroup =>
      exact ⟨texts, on.congr rfl on.fits rfl rfl rfl rfl rfl, rfl, fun _ remembers => remembers⟩
  | setText text short =>
      refine ⟨_, onTimeline_single rfl rfl on.limit (LineIndex.fits_rebuild _ _) short
        on.estimatedHeight, rfl, ?_⟩
      intro saved _ _ n clean
      cases clean
  | setMode mode =>
      exact ⟨texts, on.congr rfl on.fits rfl rfl rfl rfl rfl, rfl, fun _ remembers => remembers⟩
  | setHeight id height =>
      rcases LineIndex.setHeight_cases on.fits.valid id height with ⟨e, stopped⟩ |
        ⟨changed, s, measured, valid, shapes⟩
      · rw [setHeight, onIndex, stopped]
        exact ⟨texts, on, rfl, fun _ remembers => remembers⟩
      · rw [setHeight, onIndex, measured]
        have fits : LineIndex.Fits { d.index with store := s } d.buffer.units :=
          ⟨valid, shapes ▸ on.fits.lines⟩
        exact ⟨texts, on.congr rfl fits rfl rfl rfl rfl rfl, rfl, fun _ remembers => remembers⟩

/-- What a whole run of edits preserves. -/
theorem Saved.exists_timeline {saved : TextBuffer} {d : Document μ} (h : Saved saved d) :
    ∃ texts, d.OnTimeline texts ∧ d.history.Remembers texts saved := by
  induction h with
  | opened text config mode short =>
      refine ⟨_, onTimeline_single rfl rfl rfl (LineIndex.fits_rebuild _ _) short rfl, ?_⟩
      intro _ n clean
      cases clean
      rfl
  | edit _ edit ih =>
      obtain ⟨texts, on, remembers⟩ := ih
      obtain ⟨texts', on', -, kept⟩ := on.edit edit
      exact ⟨texts', on', kept _ remembers⟩
  | markClean _ ih =>
      obtain ⟨texts, on, -⟩ := ih
      refine ⟨texts, on.congr rfl on.fits rfl rfl rfl rfl rfl, ?_⟩
      intro _ n clean
      cases clean
      exact on.here

theorem Reachable.exists_timeline {d : Document μ} (reachable : Reachable d) :
    ∃ texts, d.OnTimeline texts := by
  obtain ⟨saved, h⟩ := reachable
  obtain ⟨texts, on, -⟩ := h.exists_timeline
  exact ⟨texts, on⟩

end

end Document

end CodeEditor

import CodeEditor.Proofs.Document.Edits

/-!
What a document says about the lines that an edit touched.

`Truthful` compares the lines of a document before and after an edit by their identities: which are
new, which are gone, which have another text, and that everything else is as it was.
`truthful_of_reachable` says that the changes of every replacement that succeeds, and of undoing and
redoing, are truthful.

An identity names one line only as long as its slot has not been through all its generations.
Following one replacement gives back a slot no more than six times, so for a single replacement that
is no condition. Undoing or redoing a group makes one replacement for each of its changes; there the
identities can be relied on for groups of less than 2³² / 6 changes, and a document that can undo
fewer changes than that has no longer ones (`few_of_reachable`).
-/

namespace CodeEditor

/-- The code units of a line, its delimiter included. -/
def Line.unitsIn (line : Line) (text : TextBuffer) : List UInt16 :=
  text.chunk line.location line.totalLength

namespace Document

variable {μ : Type}

/-- The identities of the lines, from top to bottom. -/
def lineIds (d : Document μ) : List LineId := d.index.lines.map (·.id)

/-- Changes tell the truth about the lines of a document before and after an edit. -/
structure Truthful (before after : Document μ) (changes : LineChanges) : Prop where
  /-- The inserted lines are exactly the new ones. -/
  inserted : ∀ id, id ∈ changes.inserted ↔ id ∈ after.lineIds ∧ id ∉ before.lineIds
  /-- Every line that is gone was removed. -/
  removed : ∀ id ∈ before.lineIds, id ∉ after.lineIds → id ∈ changes.removed
  /-- Every line that was removed is gone. It may have come with the same edit. -/
  gone : ∀ id ∈ changes.removed, id ∉ after.lineIds
  /-- Edited lines were there and still are. -/
  edited : ∀ id ∈ changes.edited, id ∈ before.lineIds ∧ id ∈ after.lineIds
  /-- Lines that stay keep their text and their delimiter, or are edited. -/
  kept : ∀ line ∈ before.index.lines, ∀ line' ∈ after.index.lines, line'.id = line.id →
    line.id ∉ changes.edited → line'.unitsIn after.buffer = line.unitsIn before.buffer ∧
      line'.delimiterLength = line.delimiterLength
  /-- All lines that stay keep their height. -/
  heights : ∀ line ∈ before.index.lines, ∀ line' ∈ after.index.lines, line'.id = line.id →
    line'.height = line.height
  /-- They keep their order. -/
  order : before.lineIds.filter (· ∈ after.lineIds) = after.lineIds.filter (· ∈ before.lineIds)
  /-- New lines have not been measured. -/
  fresh : ∀ line ∈ after.index.lines, line.id ∉ before.lineIds →
    line.height = before.config.estimatedLineHeight
  /-- Without added and removed lines the lines are the same. -/
  same : changes.addsOrRemoves = false → after.lineIds = before.lineIds

variable {d d' : Document μ} {changes : LineChanges} {n : Nat}

theorem lineIds_eq (d : Document μ) : d.lineIds = d.index.store.ids := d.index.ids_lines

/-- A line of an index has the units at its place. -/
theorem spells_of_mem {line : Line} {index : LineIndex} (text : TextBuffer)
    (mem : line ∈ index.lines) :
    (line.id, line.metrics) ∈ index.store.toList ∧
      LineStore.Spells index.store.toList text.units line.id (line.unitsIn text) := by
  obtain ⟨front, rest, whole, place⟩ := LineIndex.exists_of_mem_lines mem
  constructor
  · rw [whole]
    exact List.mem_append_right _ List.mem_cons_self
  · refine ⟨front, line.metrics, rest, whole, ?_⟩
    rw [Line.unitsIn, TextBuffer.chunk_eq, place]
    rfl

/-- Lists that keep all they share keep everything. -/
theorem eq_of_filter_mem_eq {ids ids' : List LineId}
    (order : ids.filter (· ∈ ids') = ids'.filter (· ∈ ids)) (noneGone : ∀ id ∈ ids, id ∈ ids')
    (noneNew : ∀ id ∈ ids', id ∈ ids) : ids' = ids := by
  rw [LineStore.filter_mem_eq_self noneGone, LineStore.filter_mem_eq_self noneNew] at order
  exact order.symm

/-- Changes that tell how the lines became others are truthful, if no slot went through all its
generations. -/
theorem Reports.truthful (reports : d.Reports n d' changes) (few : n < UInt32.size)
    (valid : d'.index.store.Valid)
    (height : d.index.estimatedHeight = d.config.estimatedLineHeight) :
    Truthful d d' changes := by
  obtain ⟨-, tracks, sameUnits⟩ := reports
  have gone : ∀ id ∈ changes.removed, id ∉ d'.index.store.ids := by
    intro id mem
    exact tracks.not_mem_of_removed valid few mem
  constructor
  case inserted =>
    intro id
    rw [lineIds_eq, lineIds_eq]
    exact tracks.inserted id
  case removed =>
    intro id old out
    rw [lineIds_eq] at old out
    exact tracks.removed id old out
  case gone =>
    intro id mem
    rw [lineIds_eq]
    exact gone id mem
  case edited =>
    intro id mem
    rw [lineIds_eq, lineIds_eq]
    exact tracks.edited id mem
  case kept =>
    intro line mem line' mem' same unedited
    obtain ⟨here, spells⟩ := spells_of_mem d.buffer mem
    obtain ⟨there, spells'⟩ := spells_of_mem d'.buffer mem'
    rw [same] at there spells'
    constructor
    · refine sameUnits line.id ?_ _ _ spells spells'
      rintro (inserted | removed | edited)
      · exact ((tracks.inserted _).mp inserted).2 (LineStore.mem_ids.mpr ⟨_, here⟩)
      · exact gone _ removed (LineStore.mem_ids.mpr ⟨_, there⟩)
      · exact unedited edited
    · exact congrArg LineMetrics.delimiterLength ((tracks.kept _ _ _ here there).2 unedited)
  case heights =>
    intro line mem line' mem' same
    obtain ⟨here, -⟩ := spells_of_mem d.buffer mem
    obtain ⟨there, -⟩ := spells_of_mem d'.buffer mem'
    rw [same] at there
    exact (tracks.kept _ _ _ here there).1
  case order =>
    rw [lineIds_eq, lineIds_eq]
    exact tracks.order
  case fresh =>
    intro line mem new
    obtain ⟨there, -⟩ := spells_of_mem d'.buffer mem
    rw [lineIds_eq] at new
    exact (tracks.fresh _ _ there new).trans height
  case same =>
    intro neither
    obtain ⟨noneInserted, noneRemoved⟩ := LineChanges.addsOrRemoves_eq_false_iff.mp neither
    rw [lineIds_eq, lineIds_eq]
    apply eq_of_filter_mem_eq tracks.order
    · intro id old
      by_contra out
      exact noneRemoved id (tracks.removed id old out)
    · intro id there
      by_contra new
      exact noneInserted id ((tracks.inserted id).mpr ⟨there, new⟩)

/-- The changes of every replacement are truthful, and so are those of undoing and redoing a group
of less than 2³² / 6 changes. Left out are groups of 715 million changes and more, on the way
through which a slot can come back to a generation that it has had before. -/
theorem truthful_of_reachable {d : Document PlainText} (reachable : Reachable d) :
    (∀ r text replacement d', replaceText r text d = .ok replacement d' →
      Truthful d d' replacement.changes ∧
        (replacement.addsOrRemovesLines = false → d'.lineIds = d.lineIds)) ∧
      (∀ changes d', undo d = .ok changes d' →
        (∀ run rest, TopGroup d.history.done run rest → 6 * run.length < UInt32.size) →
        Truthful d d' changes) ∧
      ∀ changes d', redo d = .ok changes d' →
        (∀ run rest, TopGroup d.history.undone run rest → 6 * run.length < UInt32.size) →
        Truthful d d' changes := by
  obtain ⟨texts, on⟩ := reachable.exists_timeline
  refine ⟨?replace, ?undo, ?redo⟩
  case replace =>
    intro r text replacement d' run
    cases read : d.buffer.substring r with
    | error e =>
        rw [replaceText_error read] at run
        cases run
    | ok old =>
        obtain ⟨replacement', d'', b, ok, -, -, -, -, fits, reports⟩ := on.replaceText text read
        cases run.symm.trans ok
        obtain ⟨reports, adds⟩ := reports silent_plainText
        have truthful := reports.truthful (by decide) fits.valid on.estimatedHeight
        refine ⟨truthful, fun neither => truthful.same ?_⟩
        rw [← adds, neither]
  case undo =>
    intro changes d' run few
    by_cases empty : d.history.done = []
    · rw [OnTimeline.undo_nothing empty] at run
      cases run
    · obtain ⟨group, rest, top⟩ := History.exists_topGroup empty
      obtain ⟨changes', d'', ok, on', -, -, reports⟩ := on.undo_ok top
      cases run.symm.trans ok
      have small := few group rest top
      exact (reports silent_plainText small).truthful small on'.fits.valid on.estimatedHeight
  case redo =>
    intro changes d' run few
    by_cases empty : d.history.undone = []
    · rw [OnTimeline.redo_nothing empty] at run
      cases run
    · obtain ⟨group, rest, top⟩ := History.exists_topGroup empty
      obtain ⟨changes', d'', ok, on', -, -, reports⟩ := on.redo_ok top
      cases run.symm.trans ok
      have small := few group rest top
      exact (reports silent_plainText small).truthful small on'.fits.valid on.estimatedHeight

/-- Groups are never longer than what can be undone at all. -/
theorem few_of_reachable [LanguageMode μ] (reachable : Reachable d)
    (small : 6 * d.config.maxUndo < UInt32.size) {run rest : List UndoStep}
    (top : TopGroup d.history.done run rest ∨ TopGroup d.history.undone run rest) :
    6 * run.length < UInt32.size := by
  obtain ⟨texts, on⟩ := reachable.exists_timeline
  have room := on.room
  have inside : run.length ≤ d.history.done.length ∨ run.length ≤ d.history.undone.length := by
    rcases top with top | top
    · left
      rw [top.whole, List.length_append]
      exact Nat.le_add_right _ _
    · right
      rw [top.whole, List.length_append]
      exact Nat.le_add_right _ _
  omega

/-- A line is broken, and the break is taken back. -/
theorem truthful_of_broken_line :
    ∃ (d d' d'' : Document PlainText) (replacement : Replacement) (changes : LineChanges),
      replaceText ⟨1, 0⟩ "\n" d = .ok replacement d' ∧ undo d' = .ok changes d'' ∧
        Truthful d d' replacement.changes ∧ Truthful d' d'' changes := by
  have opened : Saved (.ofString "ab") (ofText "ab" {} PlainText.mk) := .opened _ _ _ (by decide)
  obtain ⟨texts, on, -⟩ := opened.exists_timeline
  obtain ⟨replacement, d', b, broken, replaced, buffer, history, next, -⟩ :=
    @OnTimeline.replaceText _ _ _ _ ⟨1, 0⟩ "" on "\n" rfl
  obtain rfl : b = ⟨['a', '\n', 'b']⟩ := Except.ok.inj (replaced.symm.trans rfl)
  obtain ⟨-, -, config, -⟩ := next (by decide)
  have edit := Edit.replaceText (ofText "ab" {} PlainText.mk) ⟨1, 0⟩ "\n"
  rw [broken, after, buffer] at edit
  have reachable : Reachable d' := ⟨_, opened.edit (edit (by decide))⟩
  have done : d'.history.done ≠ [] := by
    rw [history]
    exact List.cons_ne_nil _ _
  obtain ⟨run, rest, top⟩ := History.exists_topGroup done
  obtain ⟨texts', on'⟩ := reachable.exists_timeline
  obtain ⟨changes, d'', undone, -⟩ := on'.undo_ok top
  have small : 6 * d'.config.maxUndo < UInt32.size := by
    rw [config]
    decide
  obtain ⟨truthful, -⟩ := (truthful_of_reachable ⟨_, opened⟩).1 _ _ _ _ broken
  have truthful' := (truthful_of_reachable reachable).2.1 _ _ undone fun run rest top =>
    few_of_reachable reachable small (.inl top)
  exact ⟨_, d', d'', replacement, changes, broken, undone, truthful, truthful'⟩

end Document

end CodeEditor

import CodeEditor.Proofs.Line.Lengths

/-!
Following the removal of a range.

A removal that starts in the content of a line leaves the line with what is left of the last line
touched (`removeCharactersAt_content`). One that starts between a CR and its LF parts them first and
goes on behind the line (`removeCharactersAt_return`); if the CR then meets another LF, the two are
put together at the end (`completeReturn_next`). `removeCharactersAt_ok` is both: the lines are
those of the new text.
-/

namespace CodeEditor

namespace LineIndex

open LineStore (Tracks Freed Reaches Settled SameUnits)

variable {text : TextBuffer} {index : LineIndex} {front rest : List (LineId × LineMetrics)}
  {id : LineId} {m : LineMetrics}

/-! ### Taking out lines -/

/-- The next line behind one is taken out. -/
theorem eraseNext_ok {next : LineId} {d : LineMetrics} (valid : index.store.Valid)
    (lines : index.store.toList = front ++ (id, m) :: (next, d) :: rest) :
    index.store.next? id = some next ∧
    ∃ s, eraseLine next index = .ok () { index with store := s } ∧
      s.Valid ∧ s.toList = front ++ (id, m) :: rest ∧ Freed [next] index.store s := by
  have lines' : index.store.toList = (front ++ [(id, m)]) ++ (next, d) :: rest := by simp [lines]
  obtain ⟨s, erased, valid', lines'', freed⟩ := eraseLine_ok valid lines' (by simp)
  exact ⟨valid.next?_eq lines, s, erased, valid', by simp [lines''], freed⟩

/-- Lines that stand behind one are taken out one after the other. -/
theorem removeLinesTo_run {stop : LineId} {d : LineMetrics} {between : List (LineId × LineMetrics)}
    (valid : index.store.Valid)
    (lines : index.store.toList = front ++ (id, m) :: (between ++ (stop, d) :: rest)) {count : Nat}
    (enough : between.length < count) (changes : LineChanges) :
    ∃ s, removeCharactersAt.removeLinesTo id stop count changes index =
        .ok ((between.map (·.1) ++ [stop]).foldl LineChanges.markRemoved changes)
          { index with store := s } ∧
      s.Valid ∧ s.toList = front ++ (id, m) :: rest ∧
      Freed (between.map (·.1) ++ [stop]) index.store s := by
  obtain ⟨count, rfl⟩ : ∃ n, count = n + 1 := ⟨count - 1, by omega⟩
  induction between generalizing index count changes with
  | nil =>
      obtain ⟨follows, s, erased, valid', lines', freed⟩ := eraseNext_ok valid lines
      refine ⟨s, ?_, valid', lines', freed⟩
      rw [removeCharactersAt.removeLinesTo, get_bind, follows]
      dsimp only
      rw [bind_ok erased, if_pos rfl]
      rfl
  | cons line between ih =>
      obtain ⟨next, e⟩ := line
      obtain ⟨follows, s, erased, valid', lines', freed⟩ := eraseNext_ok valid lines
      rw [List.length_cons] at enough
      obtain ⟨count, rfl⟩ : ∃ n, count = n + 1 := ⟨count - 1, by omega⟩
      obtain ⟨s', run, valid'', lines'', freed'⟩ :=
        ih (valid'.stored index) lines' (changes.markRemoved next) count (by omega)
      have apart : next.slot ∉ (between.map (·.1) ++ [stop]).map (·.slot) := by
        have split : index.store.toList = (front ++ [(id, m)]) ++
            (next, e) :: ((between ++ [(stop, d)]) ++ rest) := by simp [lines]
        have distinct := valid.holds.nodup_used
        rw [split, LineStore.slotsOf, List.map_append, List.map_append] at distinct
        have behind := (List.nodup_cons.mp (List.nodup_append.mp distinct).2.1).1
        intro mem
        refine behind ?_
        rw [List.map_append, List.map_append]
        exact List.mem_append_left _ (by simpa using mem)
      have other : next ≠ stop := by
        rintro rfl
        exact apart (by simp)
      refine ⟨s', ?_, valid'', lines'', freed.trans_cons freed' apart⟩
      rw [removeCharactersAt.removeLinesTo, get_bind, follows]
      dsimp only
      rw [bind_ok erased, if_neg other]
      exact run

/-- The lines behind one up to and including another are taken out. -/
theorem removeLinesTo_ok {stop : LineId} {d : LineMetrics} {between : List (LineId × LineMetrics)}
    (valid : index.store.Valid)
    (lines : index.store.toList = front ++ (id, m) :: (between ++ (stop, d) :: rest)) :
    ∃ changes s, removeCharactersAt.removeLinesTo id stop index.lineCount .none index =
        .ok changes { index with store := s } ∧
      s.Valid ∧ s.toList = front ++ (id, m) :: rest ∧
      Tracks index.estimatedHeight 1 index.store s changes := by
  have enough : between.length < index.lineCount := by
    rw [lineCount, valid.count_eq, lines]
    simp only [List.length_append, List.length_cons]
    omega
  obtain ⟨s, run, valid', lines', freed⟩ := removeLinesTo_run valid lines enough .none
  have split : index.store.toList = (front ++ [(id, m)]) ++ ((between ++ [(stop, d)]) ++ rest) := by
    simp [lines]
  refine ⟨_, s, run, valid', lines', ?_⟩
  apply Tracks.of_erase valid split (by simp [lines']) (by simpa using freed)
  all_goals
    intro other
    obtain ⟨removed, inserted, edited⟩ := @LineChanges.mem_foldl_markRemoved other
      (between.map (·.1) ++ [stop]) .none
  · rw [removed]
    simp
  · rw [inserted]
    simp
  · rw [edited]
    simp

/-! ### Removing behind whole lines -/

section

variable {above lines : List (LineId × LineMetrics)} {before content removed kept : List UInt16}

/-- A removal within a line: the line gets shorter by what is removed. -/
theorem shorten_ok (valid : index.store.Valid)
    (whole : index.store.toList = above ++ (id, m) :: rest)
    (closed : Closed (shapesOf above) before)
    (below : Lines (⟨m.totalLength, m.delimiterLength⟩ :: shapesOf rest)
      (content ++ removed ++ kept))
    (inside : (content ++ removed).length < m.totalLength ∨
      rest = [] ∧ (content ++ removed).length = m.totalLength)
    (plain : NoBreak content) (units : text.units = before ++ (content ++ kept)) :
    ∃ changes s, (do
        let rest ← checked (Checked.sub m.totalLength removed.length)
        return (← setLength text id rest).1 : IndexM LineChanges) index =
        .ok changes { index with store := s } ∧
      Fits { index with store := s } text.units ∧
      Tracks index.estimatedHeight 1 index.store s changes ∧ Settled changes above rest s := by
  have inside : (content ++ removed).length < totalOf [] + m.totalLength ∨
      shapesOf rest = [] ∧ (content ++ removed).length = totalOf [] + m.totalLength := by
    rcases inside with inside | ⟨rfl, atEnd⟩
    · exact .inl (by rw [totalOf_nil]; omega)
    · exact .inr ⟨rfl, by rw [totalOf_nil]; omega⟩
  obtain ⟨delimiter, lines⟩ := @Lines.replace_lines _ _ [] _ _ _ content below (Nat.zero_le _)
    inside plain
  have le : (content ++ removed).length ≤ m.totalLength := by
    rw [totalOf_nil] at inside
    omega
  rw [totalOf_nil, List.length_append, show content.length + (0 + m.totalLength -
    (content.length + removed.length)) = m.totalLength - removed.length by
      rw [List.length_append] at le; omega] at lines
  obtain ⟨changes, head, s, set', fits, tracks, settled⟩ :=
    setLength_lines valid whole closed lines units
  rw [List.length_append] at le
  rw [show Checked.sub m.totalLength removed.length = some (m.totalLength - removed.length) from
    Checked.sub_eq_some_iff.mpr (by omega), checked_bind, bind_ok set']
  exact ⟨changes, s, rfl, fits, tracks, settled⟩

/-- A removal that reaches into a later line: the lines in between go, and the line takes over what
is left of the last one. -/
theorem takeOver_ok {stop : LineId} {d : LineMetrics} {between : List (LineId × LineMetrics)}
    (valid : index.store.Valid)
    (whole : index.store.toList = above ++ (id, m) :: (between ++ (stop, d) :: rest))
    (closed : Closed (shapesOf above) before)
    (below : Lines (⟨m.totalLength, m.delimiterLength⟩ :: shapesOf (between ++ (stop, d) :: rest))
      (content ++ removed ++ kept))
    (behind : m.totalLength + lengthOf between ≤ (content ++ removed).length)
    (inside : (content ++ removed).length < m.totalLength + lengthOf between + d.totalLength ∨
      rest = [] ∧ (content ++ removed).length = m.totalLength + lengthOf between + d.totalLength)
    (plain : NoBreak content) (units : text.units = before ++ (content ++ kept)) :
    ∃ gone s changes head s', removeCharactersAt.removeLinesTo id stop index.lineCount .none index =
        .ok gone { index with store := s } ∧
      setLength text id (content.length +
        (m.totalLength + lengthOf between + d.totalLength - (content ++ removed).length))
        { index with store := s } = .ok (changes, head) { index with store := s' } ∧
      Fits { index with store := s' } text.units ∧
      Tracks index.estimatedHeight 2 index.store s' (gone.union changes) ∧
      Settled (gone.union changes) above rest s' := by
  obtain ⟨gone, s, removed', valid', whole', erased⟩ := removeLinesTo_ok valid whole
  have total : totalOf (shapeOf (id, m) :: shapesOf between) = m.totalLength +
      lengthOf between := by
    rw [totalOf_cons, totalOf_shapesOf]
    rfl
  have inside : (content ++ removed).length < m.totalLength + lengthOf between + d.totalLength ∨
      shapesOf rest = [] ∧
        (content ++ removed).length = m.totalLength + lengthOf between + d.totalLength := by
    rcases inside with inside | ⟨rfl, atEnd⟩
    · exact .inl inside
    · exact .inr ⟨rfl, atEnd⟩
  obtain ⟨delimiter, lines⟩ := @Lines.replace_lines d.totalLength d.delimiterLength
    (shapeOf (id, m) :: shapesOf between) (shapesOf rest) (content ++ removed) kept content
    (by simpa [shapeOf] using below) (by rwa [total]) (by rwa [total]) plain
  rw [total] at lines
  obtain ⟨changes, head, s', set', fits, tracks, settled⟩ :=
    setLength_lines (valid'.stored index) whole' closed lines units
  refine ⟨gone, s, changes, head, s', removed', set', fits,
    erased.union tracks fits.valid (by decide), settled.union gone⟩

/-- A removal that starts in the content of a line: what is left of the last line touched becomes
the end of the line. The lines above are those of the new text already and may end in a CR. -/
theorem removeCharactersAt_content {location n : Nat} (valid : index.store.Valid)
    (whole : index.store.toList = above ++ lines) (closed : Closed (shapesOf above) before)
    (below : Lines (shapesOf lines) (content ++ (removed ++ kept))) (plain : NoBreak content)
    (start : before.length + content.length = location) (len : removed.length = n + 1)
    (word : location + (n + 1) < wordLimit) (units : text.units = before ++ (content ++ kept)) :
    ∃ changes s bottom, removeCharactersAt text location (n + 1) index =
        .ok changes { index with store := s } ∧
      Fits { index with store := s } text.units ∧
      Tracks index.estimatedHeight 2 index.store s changes ∧ Settled changes above bottom s ∧
      bottom <:+ lines ∧ lengthOf bottom ≤ kept.length := by
  cases lines with
  | nil => exact absurd rfl below.ne_nil
  | cons line rest =>
      obtain ⟨id, m⟩ := line
      replace below : Lines (⟨m.totalLength, m.delimiterLength⟩ :: shapesOf rest)
        (content ++ (removed ++ kept)) := below
      have top : before.length = lengthOf above := by rw [closed.length_eq, totalOf_shapesOf]
      have total := below.length_eq
      simp only [totalOf_cons, totalOf_shapesOf, List.length_append] at total
      have all : index.totalLength = lengthOf above + (m.totalLength + lengthOf rest) := by
        rw [totalLength, valid.totalLength_eq, whole, lengthOf_append, lengthOf_cons]
      have filled : removed ++ kept ≠ [] := by
        intro empty
        have := congrArg List.length empty
        rw [List.length_append, List.length_nil] at this
        omega
      obtain ⟨inContent, inLine⟩ := below.content_le plain
      have inLine := inLine filled
      obtain ⟨line, found, rfl, rfl, here⟩ := @lineAt_eq _ _ _ _ _ IndexM _ _ valid whole location
        (by omega) (by omega)
      have upper := @TextRange.upperBound_eq ⟨location, n + 1⟩ word
      have within : ¬index.totalLength < location + (n + 1) := by omega
      have notBetween : ¬line.contentEnd < location := by
        rw [Line.contentEnd, Line.contentLength, LineMetrics.contentLength]
        omega
      rw [← List.append_assoc] at below
      have len' : (content ++ removed).length = content.length + (n + 1) := by
        rw [List.length_append, len]
      rw [removeCharactersAt, get_bind]
      simp only [upper]
      rw [checked_bind, if_neg within, get_bind, found, pure_bind, if_neg notBetween]
      split
      · next inside =>
          -- The line keeps its end.
          rw [Line.upperBound, Line.totalLength] at inside
          obtain ⟨changes, s, run, fits, tracks, settled⟩ :=
            shorten_ok valid whole closed below (.inl (by omega)) plain units
          rw [len] at run
          exact ⟨changes, s, rest, run, fits, tracks.mono (by decide), settled,
            List.suffix_cons _ rest, by omega⟩
      · next outside =>
          rw [Line.upperBound, Line.totalLength] at outside
          obtain ⟨stop, found', reached⟩ := @lineAt_behind _ _ _ _ _ IndexM _ _ valid whole
            (location + (n + 1)) (by omega) (by
              rw [← valid.totalLength_eq]
              exact Nat.le_of_not_lt within)
          rw [get_bind, found', pure_bind]
          rcases reached with ⟨same, rfl, atEnd⟩ | ⟨between, behind, rfl, other, there,
            lower, upper⟩
          · -- The removal ends with the text, in the line where it starts.
            obtain ⟨changes, s, run, fits, tracks, settled⟩ :=
              shorten_ok valid whole closed below (.inr ⟨rfl, by omega⟩) plain units
            rw [if_pos same]
            rw [len] at run
            exact ⟨changes, s, [], run, fits, tracks.mono (by decide), settled,
              List.nil_suffix, Nat.zero_le _⟩
          · -- The line takes over what is left of the line where the removal ends.
            have reaches : (content ++ removed).length <
                  line.metrics.totalLength + lengthOf between + stop.metrics.totalLength ∨
                behind = [] ∧ (content ++ removed).length =
                  line.metrics.totalLength + lengthOf between + stop.metrics.totalLength := by
              rcases upper with upper | ⟨rfl, atEnd⟩
              · exact .inl (by omega)
              · exact .inr ⟨rfl, by omega⟩
            obtain ⟨gone, s, changes, head, s', removed', set', fits, tracks, settled⟩ :=
              takeOver_ok valid whole closed below (by omega) reaches plain units
            rw [len'] at set'
            have removedHere : Checked.sub line.upperBound location =
                some (line.totalLength - content.length) :=
              Checked.sub_eq_some_iff.mpr (by rw [Line.upperBound, Line.totalLength]; omega)
            have leftThere : Checked.sub stop.upperBound (location + (n + 1)) =
                some (line.metrics.totalLength + lengthOf between + stop.metrics.totalLength -
                  (content.length + (n + 1))) :=
              Checked.sub_eq_some_iff.mpr (by rw [Line.upperBound, Line.totalLength]; omega)
            have keptHere : Checked.sub line.totalLength (line.totalLength - content.length) =
                some content.length :=
              Checked.sub_eq_some_iff.mpr (by rw [Line.totalLength]; omega)
            rw [if_neg other, removedHere, checked_bind, leftThere, checked_bind, get_bind,
              bind_ok removed', keptHere, checked_bind, bind_ok set']
            refine ⟨_, s', behind, rfl, fits, tracks, settled, ?_, ?_⟩
            · exact ⟨(line.id, line.metrics) :: (between ++ [(stop.id, stop.metrics)]), by simp⟩
            · rw [lengthOf_append, lengthOf_cons] at total
              dsimp only at total
              rcases reaches with reaches | ⟨rfl, -⟩
              · omega
              · exact Nat.zero_le _

/-! ### Removing from between a CR and its LF -/

/-- An LF that is all of the next line completes a CR; without one there is nothing to complete. -/
theorem completeReturn_next {next : LineId} (valid : index.store.Valid)
    (follows : index.store.next? id = some next)
    (whole : index.store.toList = above ++ (next, m) :: rest)
    (closed : Closed (shapesOf above) before)
    (below : Lines (⟨m.totalLength, m.delimiterLength⟩ :: shapesOf rest) kept)
    (units : text.units = before ++ kept) (changes : LineChanges) :
    ∃ other s top bottom, removeCharactersAt.completeReturn text id changes index =
        .ok (changes.union other) { index with store := s } ∧
      Fits { index with store := s } text.units ∧
      Tracks index.estimatedHeight 1 index.store s other ∧
      s.toList = top ++ bottom ∧ Reaches other above top ∧ bottom <:+ (next, m) :: rest := by
  obtain ⟨line, found, rfl, rfl, here⟩ := @existing_ok _ _ _ _ _ IndexM _ _ valid whole
  have top : before.length = line.location := by rw [closed.length_eq, totalOf_shapesOf, here]
  rw [removeCharactersAt.completeReturn, get_bind]
  simp only [follows]
  rw [get_bind, found, pure_bind]
  split
  · next completes =>
      have one : line.metrics.totalLength = 1 := completes.1
      rw [one] at below
      obtain ⟨other, head, s, set', fits, tracks, settled⟩ :=
        setLength_lines valid whole closed below units
      obtain ⟨top, lines, reaches⟩ := settled.exists_reaches
      rw [bind_ok set']
      exact ⟨other, s, top, rest, rfl, fits, tracks, lines, reaches, List.suffix_cons _ rest⟩
  · next nothing =>
      have apart : ¬Joins before kept := by
        intro joins
        refine nothing ⟨?_, ?_⟩
        · generalize shapes : (⟨line.metrics.totalLength, line.metrics.delimiterLength⟩ ::
            shapesOf rest : List LineShape) = all at below
          cases below with
          | last plain => exact absurd joins.2 plain.head_ne
          | cons plain ends _ _ =>
              rw [joins_append_right (by simp [ends.ne_nil])] at joins
              have lone := congrArg List.length (joins.line_eq plain ends)
              rw [List.length_append, List.length_singleton] at lone
              exact (congrArg LineShape.total (List.cons.inj shapes).1).trans lone
        · rw [TextBuffer.unitAt_eq, units, ← top, List.getElem?_append_right (Nat.le_refl _),
            Nat.sub_self, ← List.head?_eq_getElem?]
          exact joins.2
      refine ⟨.none, index.store, above, _, rfl, ⟨valid, ?_⟩, (Tracks.refl valid).mono (by decide),
        whole, .of_front List.prefix_rfl, List.suffix_rfl⟩
      rw [units, whole, shapesOf_append]
      exact closed.append_lines below apart

/-- Behind a line of an index whose lines are those of the text, at most the next line is
touched. -/
theorem completeReturn_ok {below : List (LineId × LineMetrics)} (fits : index.Fits text.units)
    (whole : index.store.toList = above ++ (id, m) :: below) (changes : LineChanges) :
    ∃ other s top bottom, removeCharactersAt.completeReturn text id changes index =
        .ok (changes.union other) { index with store := s } ∧
      Fits { index with store := s } text.units ∧
      Tracks index.estimatedHeight 1 index.store s other ∧
      s.toList = top ++ bottom ∧ Reaches other (above ++ [(id, m)]) top ∧ bottom <:+ below := by
  have whole' : index.store.toList = (above ++ [(id, m)]) ++ below := by simp [whole]
  cases below with
  | nil =>
      have last : index.store.next? id = none := by
        rw [fits.valid.next?_eq whole]
        rfl
      rw [removeCharactersAt.completeReturn, get_bind]
      simp only [last]
      exact ⟨.none, index.store, above ++ [(id, m)], [], rfl, fits,
        (Tracks.refl fits.valid).mono (by decide), whole', .of_front List.prefix_rfl,
        List.suffix_rfl⟩
  | cons next below =>
      have lines := fits.lines
      rw [whole', shapesOf_append] at lines
      obtain ⟨before, kept, units, closed, below, -⟩ := lines.split (List.cons_ne_nil _ _)
      exact completeReturn_next fits.valid (fits.valid.next?_eq whole) whole' closed below units
        changes

/-- A removal that starts between a CR and its LF: the line keeps the CR, the LF goes, and what else
is removed is removed behind the line. -/
theorem removeCharactersAt_return {location n : Nat} (valid : index.store.Valid)
    (whole : index.store.toList = above ++ (id, m) :: rest)
    (closed : Closed (shapesOf above) before)
    (ends : m.totalLength = content.length + 2) (delimiter : m.delimiterLength = 2)
    (plain : NoBreak content) (lines : Lines (shapesOf rest) (removed ++ kept))
    (start : before.length + (content.length + 1) = location) (len : removed.length = n)
    (word : location + (n + 1) < wordLimit)
    (units : text.units = before ++ (content ++ [carriageReturn] ++ kept)) :
    ∃ changes s top bottom, removeCharactersAt text location (n + 1) index =
        .ok changes { index with store := s } ∧
      Fits { index with store := s } text.units ∧
      Tracks index.estimatedHeight 3 index.store s changes ∧
      s.toList = top ++ bottom ∧ Reaches changes above top ∧ bottom <:+ rest ∧
      lengthOf bottom ≤ kept.length := by
  have top : before.length = lengthOf above := by rw [closed.length_eq, totalOf_shapesOf]
  have total := lines.length_eq
  rw [totalOf_shapesOf, List.length_append] at total
  have all : index.totalLength = lengthOf above + (m.totalLength + lengthOf rest) := by
    rw [totalLength, valid.totalLength_eq, whole, lengthOf_append, lengthOf_cons]
  obtain ⟨line, found, rfl, rfl, here⟩ := @lineAt_eq _ _ _ _ _ IndexM _ _ valid whole location
    (by omega) (by omega)
  have upper := @TextRange.upperBound_eq ⟨location, n + 1⟩ word
  have within : ¬index.totalLength < location + (n + 1) := by omega
  have between : line.contentEnd < location := by
    rw [Line.contentEnd, Line.contentLength, LineMetrics.contentLength]
    omega
  have shorter : Checked.sub line.totalLength 1 = some (content.length + 1) :=
    Checked.sub_eq_some_iff.mpr (by rw [Line.totalLength]; omega)
  obtain ⟨s₁, m', set₁, valid₁, whole₁, -, closed₁, -, tracks₁⟩ :=
    setLength_return valid whole closed plain units
  have whole₁' : s₁.toList = (above ++ [(line.id, m')]) ++ rest := by
    simp [whole₁]
  have units' : text.units = (before ++ (content ++ [carriageReturn])) ++ kept := by
    simp [units]
  have marked : (LineChanges.none.markEdited line.id).Marks line.id :=
    LineChanges.marks_markEdited _
  have reaches₁ : ∀ m, Reaches (LineChanges.none.markEdited line.id) above
      (above ++ [(line.id, m)]) :=
    fun m => Reaches.concat (.of_front List.prefix_rfl) marked
  rw [removeCharactersAt, get_bind]
  simp only [upper]
  rw [checked_bind, if_neg within, get_bind, found, pure_bind, if_pos between, shorter,
    checked_bind, bind_ok set₁]
  cases n with
  | zero =>
      -- The range is the LF alone. The CR may meet another one.
      obtain rfl := List.eq_nil_of_length_eq_zero len
      cases rest with
      | nil => exact absurd rfl lines.ne_nil
      | cons next rest =>
          obtain ⟨other, s, top, bottom, run, fits, tracks, whole, reaches, suffix⟩ :=
            completeReturn_next (valid₁.stored index) (valid₁.next?_eq whole₁) whole₁' closed₁
              lines units' ((LineChanges.none.markEdited line.id).union .none)
          refine ⟨_, s, top, bottom, run, fits,
            (tracks₁.union tracks fits.valid (by decide)).mono (by decide), whole,
            (reaches₁ m').trans reaches, suffix, ?_⟩
          obtain ⟨more, split⟩ := suffix
          rw [← split, lengthOf_append, List.length_nil] at total
          omega
  | succ n =>
      obtain ⟨changes, s₂, bottom, removed₂, fits₂, tracks₂, settled, suffix, inKept⟩ :=
        @removeCharactersAt_content text { index with store := s₁ }
          (above ++ [(line.id, m')]) rest _
          [] removed kept location n valid₁ whole₁' closed₁ lines ⟨by simp, by simp⟩
          (by simp only [List.length_append, List.length_singleton, List.length_nil]; omega) len
          (by omega) units'
      dsimp only
      rw [bind_ok removed₂]
      have tracks := tracks₁.union tracks₂ fits₂.valid (by decide)
      obtain ⟨front, head, m₂, whole₂, marked₂, place⟩ := settled
      rcases place with rfl | ⟨p, same⟩
      · -- The line behind the one with the CR got what is left.
        obtain ⟨other, s, top, bottom', run, fits, tracks', whole, reaches, suffix'⟩ :=
          completeReturn_ok fits₂ (show s₂.toList = above ++ (line.id, m') ::
              (head, m₂) :: bottom by
            simp [whole₂]) ((LineChanges.none.markEdited line.id).union changes)
        have tracks := tracks.union tracks' fits.valid (by decide)
        have reaches := ((reaches₁ m').trans
          (.of_front List.prefix_rfl : Reaches changes _ (above ++ [(line.id, m')]))).trans reaches
        rcases List.suffix_cons_iff.mp suffix' with rfl | suffix'
        · refine ⟨_, s, top ++ [(head, m₂)], bottom, run, fits, tracks, by simp [whole],
            reaches.concat ?_, suffix, inKept⟩
          exact LineChanges.marks_union.mpr (.inl (LineChanges.marks_union.mpr (.inr marked₂)))
        · refine ⟨_, s, top, bottom', run, fits, tracks, whole, reaches, suffix'.trans suffix, ?_⟩
          obtain ⟨more, rfl⟩ := suffix'
          rw [lengthOf_append] at inKept
          omega
      · -- What is left went to the line with the CR.
        obtain ⟨rfl, last⟩ := List.append_inj' same rfl
        obtain rfl := (Prod.mk.inj (List.cons.inj last).1).1
        obtain ⟨other, s, top, bottom', run, fits, tracks', whole, reaches, suffix'⟩ :=
          completeReturn_ok fits₂ whole₂ ((LineChanges.none.markEdited line.id).union changes)
        refine ⟨_, s, top, bottom', run, fits, tracks.union tracks' fits.valid (by decide), whole,
          Reaches.trans ?_ reaches, suffix'.trans suffix, ?_⟩
        · exact Reaches.concat (.of_front List.prefix_rfl)
            (LineChanges.marks_union.mpr (.inl marked))
        · obtain ⟨more, rfl⟩ := suffix'
          rw [lengthOf_append] at inKept
          omega

/-! ### Every removal -/

/-- A removal touches the lines from the one where it starts, or the one above that, down to the one
where it ends. -/
theorem removeCharactersAt_local {location n : Nat} {lines : List (LineId × LineMetrics)}
    (valid : index.store.Valid) (whole : index.store.toList = above ++ lines)
    (closed : Closed (shapesOf above) before)
    (below : Lines (shapesOf lines) (content ++ (removed ++ kept)))
    (inLine : ∀ line ∈ lines.head?, content.length < line.2.totalLength)
    (start : before.length + content.length = location) (len : removed.length = n + 1)
    (word : location + (n + 1) < wordLimit) (units : text.units = before ++ (content ++ kept)) :
    ∃ changes s top bottom, removeCharactersAt text location (n + 1) index =
        .ok changes { index with store := s } ∧
      Fits { index with store := s } text.units ∧
      Tracks index.estimatedHeight 3 index.store s changes ∧
      s.toList = top ++ bottom ∧ Reaches changes above top ∧ bottom <:+ lines ∧
      lengthOf bottom ≤ kept.length := by
  by_cases plain : NoBreak content
  · obtain ⟨changes, s, bottom, run, fits, tracks, settled, suffix, inKept⟩ :=
      removeCharactersAt_content valid whole closed below plain start len word units
    obtain ⟨top, whole', reaches⟩ := settled.exists_reaches
    exact ⟨changes, s, top, bottom, run, fits, tracks.mono (by decide), whole', reaches, suffix,
      inKept⟩
  · cases lines with
    | nil => exact absurd rfl below.ne_nil
    | cons line rest =>
        obtain ⟨id, m⟩ := line
        obtain ⟨content, below, rfl, behind, ends, delimiter, plain, lines⟩ :=
          below.parted (inLine _ rfl) plain
        obtain ⟨u, removed, rfl⟩ := List.exists_cons_of_length_eq_add_one len
        obtain ⟨rfl, rfl⟩ := List.cons.inj behind
        rw [List.length_append, List.length_singleton] at start
        rw [List.length_cons, Nat.add_right_cancel_iff] at len
        obtain ⟨changes, s, top, bottom, run, fits, tracks, whole', reaches, suffix, inKept⟩ :=
          removeCharactersAt_return valid whole closed ends delimiter plain lines start len
            word units
        exact ⟨changes, s, top, bottom, run, fits, tracks, whole', reaches,
          suffix.trans (List.suffix_cons _ rest), inKept⟩

/-- Following a removal gives the lines of the new text, and the changes tell what became of the old
ones. -/
theorem removeCharactersAt_ok {location n : Nat} (fits : index.Fits (before ++ (removed ++ kept)))
    (start : before.length = location) (len : removed.length = n) (word : location + n < wordLimit)
    (units : text.units = before ++ kept) :
    ∃ changes s, removeCharactersAt text location n index = .ok changes { index with store := s } ∧
      Fits { index with store := s } text.units ∧
      Tracks index.estimatedHeight 3 index.store s changes ∧
      SameUnits changes index.store.toList (before ++ (removed ++ kept)) s.toList text.units := by
  have total := fits.lines.length_eq
  rw [totalOf_shapesOf] at total
  cases n with
  | zero =>
      obtain rfl := List.eq_nil_of_length_eq_zero len
      rw [List.nil_append, ← units] at fits ⊢
      exact ⟨.none, index.store, rfl, fits, (Tracks.refl fits.valid).mono (by decide),
        .refl fits.valid.distinct _ _⟩
  | succ n =>
      obtain ⟨valid, lines⟩ := fits
      have room := total
      rw [List.length_append, List.length_append] at room
      obtain ⟨above, m, rest, line, -, whole, rfl, here, lower, upper⟩ :=
        @lineAt_ok _ IndexM _ _ valid location (by omega)
      have inLine : location < lengthOf above + line.metrics.totalLength := by
        rcases upper with upper | ⟨rfl, atEnd⟩
        · exact upper
        · rw [whole, lengthOf_append, lengthOf_cons, lengthOf_nil] at room
          dsimp only at room
          omega
      rw [whole, shapesOf_append] at lines
      obtain ⟨top, below, split, closed, lines, -⟩ := lines.split (List.cons_ne_nil _ _)
      have topLength : top.length = lengthOf above := by rw [closed.length_eq, totalOf_shapesOf]
      obtain ⟨content, rfl⟩ := List.prefix_of_prefix_length_le (List.prefix_append top below)
        (split ▸ List.prefix_append before (removed ++ kept)) (by omega)
      rw [List.append_assoc] at split
      obtain rfl := List.append_cancel_left split
      rw [List.length_append] at start
      have units' : text.units = top ++ (content ++ kept) := by
        rw [units, List.append_assoc]
      obtain ⟨changes, s, top', bottom, run, fits, tracks, whole', reaches, suffix, inKept⟩ :=
        removeCharactersAt_local valid whole closed lines
          (fun other head => by obtain rfl := Option.some.inj head; dsimp only; omega) start len
          word units'
      have total' := fits.lines.length_eq
      rw [totalOf_shapesOf] at total'
      refine ⟨changes, s, run, fits, tracks, ?_⟩
      have untouched : LineStore.Local changes (top ++ content).length kept.length
          index.store.toList (top' ++ bottom) := by
        apply reaches.local
        · exact whole ▸ List.prefix_append above _
        · rw [List.length_append]
          omega
        · exact suffix.trans (whole ▸ List.suffix_append above _)
        · exact inKept
      rw [← whole'] at untouched
      exact untouched.sameUnits valid.distinct fits.valid.distinct rfl
        (show text.units = (top ++ content) ++ ([] ++ kept) from units) total.symm total'.symm

end

end LineIndex

end CodeEditor

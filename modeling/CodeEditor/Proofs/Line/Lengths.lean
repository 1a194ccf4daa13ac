import CodeEditor.Proofs.Failure
import CodeEditor.Proofs.Line.Layout
import CodeEditor.Proofs.Line.Locality
import CodeEditor.Proofs.Line.Lookup

/-!
Setting the length of one line.

While an edit is followed, the lines above the one at work are already those of the new text, the
ones below still those of the old. `setLength` then reads what the new text has at the line: the
delimiter becomes the one that its code units end in (`setLength_plain`), unless they are a lone LF
behind a CR, which goes to the line above (`setLength_fold`). Either way the line above the next is
complete: if the units end in a delimiter, the lines so far are whole lines of the text
(`setLength_closed`), and if they are followed by the lines below, all lines are those of the text
(`setLength_lines`).

The changes that are reported tell what became of the lines (`LineStore.Tracks`). A slot is given
back only where the line is folded.
-/

namespace CodeEditor

/-- The lengths of a line. -/
def shapeOf (line : LineId × LineMetrics) : LineShape :=
  ⟨line.2.totalLength, line.2.delimiterLength⟩

/-- The lengths of some lines. -/
def shapesOf (lines : List (LineId × LineMetrics)) : List LineShape := lines.map shapeOf

@[simp] theorem shapesOf_nil : shapesOf [] = [] := rfl

@[simp] theorem shapesOf_cons (line : LineId × LineMetrics) (lines : List (LineId × LineMetrics)) :
    shapesOf (line :: lines) = shapeOf line :: shapesOf lines := rfl

@[simp] theorem shapesOf_append (lines lines' : List (LineId × LineMetrics)) :
    shapesOf (lines ++ lines') = shapesOf lines ++ shapesOf lines' := by
  simp [shapesOf]

theorem totalOf_shapesOf (lines : List (LineId × LineMetrics)) :
    totalOf (shapesOf lines) = lengthOf lines := by
  simp [totalOf, shapesOf, lengthOf, shapeOf, Function.comp_def]

/-- The length of the delimiter that some code units end in. -/
def endLength (us : List UInt16) : Nat :=
  if us.getLast? = some lineFeed then
    if us.dropLast.getLast? = some carriageReturn then 2 else 1
  else if us.getLast? = some carriageReturn then 1 else 0

theorem endLength_of_noBreak {us : List UInt16} (plain : NoBreak us) : endLength us = 0 := by
  have notFeed : us.getLast? ≠ some lineFeed := by
    intro h
    exact plain.2 (List.mem_of_getLast? h)
  rw [endLength, if_neg notFeed, if_neg plain.getLast_ne]

theorem endLength_append {content delimiter : List UInt16} (plain : NoBreak content)
    (ends : IsDelimiter delimiter) : endLength (content ++ delimiter) = delimiter.length := by
  have notReturn := plain.getLast_ne
  rcases ends with rfl | rfl | rfl
  · simp [endLength, notReturn]
  · simp [endLength, lineFeed, carriageReturn]
  · simp [endLength, List.dropLast_append_of_ne_nil]

/-- The last of some whole lines, when they end in a CR. -/
theorem exists_last_return {lines : List (LineId × LineMetrics)} {us : List UInt16}
    (closed : Closed (shapesOf lines) us) (ends : us.getLast? = some carriageReturn) :
    ∃ front id m before content, lines = front ++ [(id, m)] ∧
      us = before ++ (content ++ [carriageReturn]) ∧ Closed (shapesOf front) before ∧
      NoBreak content ∧ m.totalLength = content.length + 1 ∧
      ¬Joins before (content ++ [carriageReturn]) := by
  obtain ⟨shapes, before, content, whole, units, closed', plain, apart⟩ := closed.last_return ends
  obtain ⟨front, last, rfl, rfl, single⟩ := List.map_eq_append_iff.mp whole
  obtain ⟨⟨id, m⟩, rfl, shape⟩ := List.map_eq_singleton_iff.mp single
  exact ⟨front, id, m, before, content, rfl, units, closed', plain, congrArg (·.total) shape, apart⟩

/-- One more whole line. -/
theorem closed_concat {lines : List (LineId × LineMetrics)} {us content delimiter : List UInt16}
    {m : LineMetrics} (id : LineId) (closed : Closed (shapesOf lines) us) (plain : NoBreak content)
    (ends : IsDelimiter delimiter) (apart : ¬Joins us (content ++ delimiter))
    (total : m.totalLength = content.length + delimiter.length)
    (len : m.delimiterLength = delimiter.length) :
    Closed (shapesOf (lines ++ [(id, m)])) (us ++ (content ++ delimiter)) := by
  have whole := closed.append (closed_single plain ends) apart
  rw [← total, ← len] at whole
  rwa [shapesOf_append, shapesOf_cons, shapesOf_nil, shapeOf]

namespace LineIndex

open LineStore (Tracks Freed Settled)

/-- The lines of an index are those of some code units. -/
structure Fits (index : LineIndex) (us : List UInt16) : Prop where
  valid : index.store.Valid
  lines : Lines (shapesOf index.store.toList) us

/-- Measuring a line succeeds exactly when the line is there, and leaves the text of every line. -/
theorem setHeight_cases {index : LineIndex} (valid : index.store.Valid) (id : LineId)
    (height : Float) :
    (∃ e, setHeight id height index = .error e index) ∨
      ∃ changed s, setHeight id height index = .ok changed { index with store := s } ∧ s.Valid ∧
        shapesOf s.toList = shapesOf index.store.toList := by
  by_cases mem : id ∈ index.store.ids
  · obtain ⟨front, m, rest, lines⟩ := LineStore.mem_ids_iff.mp mem
    obtain ⟨s, updated, valid', lines'⟩ := valid.update lines fun m => { m with height }
    right
    rw [setHeight, get_bind]
    simp only [valid.metrics?_eq lines, updated]
    split
    · exact ⟨false, index.store, rfl, valid, rfl⟩
    · refine ⟨true, s, rfl, valid', ?_⟩
      rw [lines, lines']
      simp [shapeOf]
  · left
    rw [setHeight, get_bind]
    simp only [LineStore.metrics?, LineStore.locate_eq_none mem]
    exact ⟨_, rfl⟩

/-! ### The end of a line -/

section

variable {text : TextBuffer} {before chunk after : List UInt16}

/-- The unit at the end of some units. -/
theorem unitAt_eq_some {u : UInt16} (units : text.units = before ++ u :: after) :
    text.unitAt before.length = some u := by
  rw [TextBuffer.unitAt_eq, units, List.getElem?_append_right (Nat.le_refl _), Nat.sub_self]
  rfl

/-- The unit in front of an offset. -/
theorem unitAt_pred (units : text.units = before ++ after) :
    0 < before.length ∧ text.unitAt (before.length - 1) = some carriageReturn ↔
      before.getLast? = some carriageReturn := by
  rw [List.getLast?_eq_getElem?, TextBuffer.unitAt_eq, units]
  constructor
  · rintro ⟨pos, eq⟩
    rwa [List.getElem?_append_left (by omega)] at eq
  · intro eq
    have bound := (List.getElem?_eq_some_iff.mp eq).1
    exact ⟨by omega, by rwa [List.getElem?_append_left bound]⟩

/-- The unit in front of the last one of a line. -/
theorem unitAt_pred_content {content : List UInt16}
    (units : text.units = before ++ (content ++ after)) :
    1 ≤ content.length ∧ text.unitAt (before.length + content.length - 1) = some carriageReturn ↔
      content.getLast? = some carriageReturn := by
  have whole := unitAt_pred (show text.units = (before ++ content) ++ after by simp [units])
  rw [List.length_append, List.getLast?_append] at whole
  cases content with
  | nil => simp
  | cons c content =>
      rw [List.getLast?_eq_some_getLast (List.cons_ne_nil c content)] at whole ⊢
      rw [Option.some_or] at whole
      rw [← whole]
      exact and_congr_left fun _ => ⟨fun _ => Nat.le_add_left _ _, fun _ => Nat.le_add_left _ _⟩

/-- A line ends in the delimiter that its units end in, unless they complete a CR. -/
theorem lineEnd_eq {location length : Nat} (start : before.length = location)
    (len : chunk.length = length) (units : text.units = before ++ (chunk ++ after))
    (apart : ¬(chunk = [lineFeed] ∧ before.getLast? = some carriageReturn)) :
    lineEnd text location length = .delimiter (endLength chunk) := by
  subst start
  rcases List.eq_nil_or_concat chunk with rfl | ⟨content, u, rfl⟩
  · subst len
    rfl
  · obtain rfl : length = content.length + 1 := by simpa using len.symm
    rw [List.concat_eq_append, List.append_assoc] at units
    have here : text.unitAt (before.length + content.length) = some u := by
      rw [← List.length_append]
      exact unitAt_eq_some (by rw [units, List.append_assoc]; rfl)
    have inLine := unitAt_pred_content units
    have inFront := unitAt_pred units
    simp only [lineEnd, here]
    split
    · next isReturn =>
        subst isReturn
        simp [endLength, lineFeed, carriageReturn]
    · next notReturn =>
        split
        · next isFeed =>
            subst isFeed
            split
            · next pair =>
                simp [endLength, inLine.mp pair]
            · next alone =>
                split
                · next completes =>
                    refine absurd ⟨?_, inFront.mp completes.2⟩ apart
                    rw [List.eq_nil_of_length_eq_zero completes.1]
                    rfl
                · next separate =>
                    have notReturn : content.getLast? ≠ some carriageReturn := by
                      intro h
                      exact alone (inLine.mpr h)
                    simp [endLength, notReturn]
        · next notFeed => simp [endLength, notReturn, notFeed]

/-- A lone LF behind a CR completes it. -/
theorem lineEnd_completes {location : Nat} (start : before.length = location)
    (units : text.units = before ++ (lineFeed :: after))
    (ends : before.getLast? = some carriageReturn) :
    lineEnd text location 1 = .completesReturn := by
  subst start
  have here := unitAt_eq_some units
  have inFront := (unitAt_pred units).mpr ends
  simp [lineEnd, here, inFront, lineFeed, carriageReturn]

end

/-! ### Setting a length -/

section

variable {text : TextBuffer} {index : LineIndex} {front rest : List (LineId × LineMetrics)}
  {id : LineId} {m : LineMetrics} {before chunk after : List UInt16}

theorem setLengthWithin_plain (valid : index.store.Valid)
    (lines : index.store.toList = front ++ (id, m) :: rest) (start : before.length = lengthOf front)
    (units : text.units = before ++ (chunk ++ after))
    (apart : ¬(chunk = [lineFeed] ∧ before.getLast? = some carriageReturn)) (count : Nat) :
    ∃ s m', setLengthWithin text (count + 1) id chunk.length index =
        .ok (LineChanges.none.markEdited id, id) { index with store := s } ∧
      s.Valid ∧ s.toList = front ++ (id, m') :: rest ∧
      m'.totalLength = chunk.length ∧ m'.delimiterLength = endLength chunk ∧
      Tracks index.estimatedHeight 0 index.store s (LineChanges.none.markEdited id) := by
  obtain ⟨place, located, -, -, location, -⟩ := valid.locate_eq lines
  have ends := lineEnd_eq (start.trans location.symm) rfl units apart
  obtain ⟨s, updated, valid', lines'⟩ := valid.update lines fun m =>
    { m with totalLength := chunk.length, delimiterLength := endLength chunk }
  refine ⟨s, _, ?_, valid', lines', rfl, rfl,
    .of_update valid lines lines' rfl (LineStore.generations_update? updated)⟩
  rw [setLengthWithin, get_bind]
  simp only [located, ends, updated]
  rfl

/-- A line gets its length and the delimiter that its units end in. -/
theorem setLength_plain (valid : index.store.Valid)
    (lines : index.store.toList = front ++ (id, m) :: rest) (start : before.length = lengthOf front)
    (units : text.units = before ++ (chunk ++ after))
    (apart : ¬(chunk = [lineFeed] ∧ before.getLast? = some carriageReturn)) :
    ∃ s m', setLength text id chunk.length index =
        .ok (LineChanges.none.markEdited id, id) { index with store := s } ∧
      s.Valid ∧ s.toList = front ++ (id, m') :: rest ∧
      m'.totalLength = chunk.length ∧ m'.delimiterLength = endLength chunk ∧
      Tracks index.estimatedHeight 0 index.store s (LineChanges.none.markEdited id) := by
  have count : index.lineCount = (front.length + rest.length) + 1 := by
    rw [lineCount, valid.count_eq, lines, List.length_append, List.length_cons]
    omega
  rw [setLength, get_bind, count]
  exact setLengthWithin_plain valid lines start units apart _

/-- A line that is not the only one is taken out. -/
theorem eraseLine_ok (valid : index.store.Valid)
    (lines : index.store.toList = front ++ (id, m) :: rest) (other : front ++ rest ≠ []) :
    ∃ s, eraseLine id index = .ok () { index with store := s } ∧ s.Valid ∧
      s.toList = front ++ rest ∧ Freed [id] index.store s := by
  obtain ⟨s, erased, valid', lines'⟩ := valid.erase lines other
  refine ⟨s, ?_, valid', lines', LineStore.freed_erase? erased⟩
  show EStateM.Result.ok () { index with store := (index.store.erase? id).getD index.store } = _
  rw [erased, Option.getD_some]

/-- A line is put behind another, undelimited and with the estimated height. -/
theorem insertLine_ok (valid : index.store.Valid)
    (lines : index.store.toList = front ++ (id, m) :: rest) (length : Nat) :
    ∃ new s, insertLine id length index = .ok new { index with store := s } ∧ s.Valid ∧
      s.toList = front ++ (id, m) ::
        (new, .undelimited length index.estimatedHeight) :: rest ∧
      Tracks index.estimatedHeight 0 index.store s (LineChanges.none.markInserted new) := by
  obtain ⟨new, s, inserted, valid', unused, lines'⟩ :=
    valid.insertAfter lines (.undelimited length index.estimatedHeight)
  have tracks := @Tracks.of_insert index.store s (.undelimited length index.estimatedHeight)
    index.estimatedHeight (front ++ [(id, m)]) rest new valid' (by simp [lines]) (by simp [lines'])
    unused rfl (LineStore.freed_insertAfter? inserted)
  refine ⟨new, s, ?_, valid', lines', tracks⟩
  rw [insertLine, get_bind]
  simp only [inserted]
  rfl

/-- What setting a line to a lone LF changes when it goes to the line above. -/
def foldChanges (id previous : LineId) : LineChanges :=
  ((LineChanges.none.markEdited id).markRemoved id).union (LineChanges.none.markEdited previous)

theorem marks_foldChanges (id previous : LineId) : (foldChanges id previous).Marks previous :=
  LineChanges.marks_union.mpr (.inr (LineChanges.marks_markEdited previous))

/-- A lone LF goes to the line above, which ends in a CR. -/
theorem setLength_fold {previous : LineId} {p : LineMetrics} (valid : index.store.Valid)
    (lines : index.store.toList = front ++ (previous, p) :: (id, m) :: rest)
    (start : before.length = lengthOf front) (len : chunk.length = p.totalLength)
    (units : text.units = before ++ (chunk ++ lineFeed :: after))
    (ends : chunk.getLast? = some carriageReturn) :
    ∃ s p', setLength text id 1 index =
        .ok (foldChanges id previous, previous) { index with store := s } ∧
      s.Valid ∧ s.toList = front ++ (previous, p') :: rest ∧
      p'.totalLength = chunk.length + 1 ∧ p'.delimiterLength = endLength (chunk ++ [lineFeed]) ∧
      Tracks index.estimatedHeight 1 index.store s (foldChanges id previous) := by
  have count : index.lineCount = (front.length + rest.length) + 2 := by
    rw [lineCount, valid.count_eq, lines, List.length_append, List.length_cons, List.length_cons]
    omega
  have lines' : index.store.toList = (front ++ [(previous, p)]) ++ (id, m) :: rest := by
    simp [lines]
  obtain ⟨place, located, -, -, location, above, -⟩ := valid.locate_eq lines'
  rw [List.getLast?_concat, Option.map_some] at above
  have completes : lineEnd text place.location 1 = .completesReturn := by
    refine @lineEnd_completes text (before ++ chunk) after _ ?_ (by simp [units]) ?_
    · rw [location, List.length_append, start, len, lengthOf_append, lengthOf_cons]
      rfl
    · rw [List.getLast?_append, ends, Option.some_or]
  obtain ⟨s, erased, valid₁, lines₁, freed⟩ := eraseLine_ok valid lines' (by simp)
  have gone : Tracks index.estimatedHeight 1 index.store s
      ((LineChanges.none.markEdited id).markRemoved id) := by
    apply @Tracks.of_erase index.store s _ _ (front ++ [(previous, p)]) rest [(id, m)] valid lines'
      lines₁ freed
    all_goals
      intro other
      simp [LineChanges.markEdited, LineChanges.markRemoved]
  rw [List.append_assoc] at lines₁
  have notLone : ¬(chunk ++ [lineFeed] = [lineFeed] ∧ before.getLast? = some carriageReturn) := by
    rintro ⟨lone, -⟩
    have empty : chunk = [] := by simpa using lone
    simp [empty] at ends
  obtain ⟨s', p', set', valid', lines₂, total, delimiter, tracks⟩ :=
    setLengthWithin_plain (valid₁.stored index) lines₁ start (by simpa using units) notLone
      (front.length + rest.length)
  rw [List.length_append, List.length_singleton] at set' total
  refine ⟨s', p', ?_, valid', lines₂, total, delimiter, gone.union tracks valid' (by decide)⟩
  rw [setLength, get_bind, count, setLengthWithin, get_bind]
  simp only [located, completes, above, valid.metrics?_eq lines]
  rw [bind_ok erased, ← len, bind_ok set']
  rfl

/-- After a line has got a length at which its units end in a delimiter, it and the lines above are
whole lines of the text. -/
theorem setLength_closed {content delimiter : List UInt16} (valid : index.store.Valid)
    (lines : index.store.toList = front ++ (id, m) :: rest)
    (closed : Closed (shapesOf front) before)
    (plain : NoBreak content) (ends : IsDelimiter delimiter)
    (units : text.units = before ++ (content ++ delimiter ++ after)) :
    ∃ changes head m' front' s, setLength text id (content.length + delimiter.length) index =
        .ok (changes, head) { index with store := s } ∧
      s.Valid ∧ s.toList = front' ++ (head, m') :: rest ∧
      Closed (shapesOf (front' ++ [(head, m')])) (before ++ (content ++ delimiter)) ∧
      changes.Marks head ∧ (front' = front ∨ ∃ p, front = front' ++ [(head, p)]) ∧
      Tracks index.estimatedHeight 1 index.store s changes ∧
      (¬Joins before (content ++ delimiter) →
        Tracks index.estimatedHeight 0 index.store s changes) := by
  by_cases folds : content ++ delimiter = [lineFeed] ∧ before.getLast? = some carriageReturn
  · -- The line above, whose CR is completed, ends in CRLF from now on.
    obtain ⟨lone, isReturn⟩ := folds
    obtain ⟨front, previous, p, before, line, rfl, rfl, closed, plain', total, apart⟩ :=
      exists_last_return closed isReturn
    have len : content.length + delimiter.length = 1 := by
      rw [← List.length_append, lone]
      rfl
    obtain ⟨s, p', set', valid', lines', total', delimiter', tracks⟩ :=
      @setLength_fold text index front rest id m before (line ++ [carriageReturn]) after previous p
        valid (by simpa using lines) (by rw [closed.length_eq, totalOf_shapesOf])
        (by simpa using total.symm) (by rw [units, lone]; simp) (by simp)
    rw [List.append_assoc] at delimiter'
    have pair : IsDelimiter [carriageReturn, lineFeed] := .inr (.inr rfl)
    refine ⟨_, previous, p', front, s, len ▸ set', valid', lines', ?_, marks_foldChanges _ _,
      .inr ⟨p, rfl⟩, tracks, fun apart => absurd ⟨isReturn, by rw [lone]; rfl⟩ apart⟩
    have whole := closed_concat previous closed plain' pair
      (by rw [List.append_cons, joins_append_right (by simp)]; exact apart)
      (by simpa using total') (delimiter'.trans (endLength_append plain' pair))
    rw [lone]
    simpa using whole
  · obtain ⟨s, m', set', valid', lines', total, delimiter', tracks⟩ :=
      setLength_plain valid lines (by rw [closed.length_eq, totalOf_shapesOf]) units folds
    rw [List.length_append] at set' total
    refine ⟨_, id, m', front, s, set', valid', lines', ?_, LineChanges.marks_markEdited id,
      .inl rfl, tracks.mono (Nat.zero_le 1), fun _ => tracks⟩
    exact closed_concat id closed plain ends (fun joins => folds ⟨joins.line_eq plain ends,
      joins.1⟩)
      total (delimiter'.trans (endLength_append plain ends))

/-- A line that loses the LF of its CRLF is a whole line with the CR. -/
theorem setLength_return {content : List UInt16} (valid : index.store.Valid)
    (lines : index.store.toList = front ++ (id, m) :: rest)
    (closed : Closed (shapesOf front) before)
    (plain : NoBreak content)
    (units : text.units = before ++ (content ++ [carriageReturn] ++ after)) :
    ∃ s m', setLength text id (content.length + 1) index =
        .ok (LineChanges.none.markEdited id, id) { index with store := s } ∧
      s.Valid ∧ s.toList = front ++ (id, m') :: rest ∧ m'.totalLength = content.length + 1 ∧
      Closed (shapesOf (front ++ [(id, m')])) (before ++ (content ++ [carriageReturn])) ∧
      ¬Joins before (content ++ [carriageReturn]) ∧
      Tracks index.estimatedHeight 0 index.store s (LineChanges.none.markEdited id) := by
  have isReturn : IsDelimiter [carriageReturn] := .inr (.inl rfl)
  have notFeed : content ++ [carriageReturn] ≠ [lineFeed] := by
    intro same
    have last := congrArg List.getLast? same
    simp [carriageReturn, lineFeed] at last
  have apart : ¬Joins before (content ++ [carriageReturn]) := by
    intro joins
    exact notFeed (joins.line_eq plain isReturn)
  obtain ⟨s, m', set', valid', lines', total, delimiter, tracks⟩ := setLength_plain valid lines
    (by rw [closed.length_eq, totalOf_shapesOf]) units fun lone => notFeed lone.1
  rw [List.length_append] at set' total
  exact ⟨s, m', set', valid', lines', total, closed_concat id closed plain isReturn apart total
    (delimiter.trans (endLength_append plain isReturn)), apart, tracks⟩

/-- After a line has got the length that it has in the text, together with the lines below, all
lines are those of the text. -/
theorem setLength_lines {length delimiter : Nat} (valid : index.store.Valid)
    (lines : index.store.toList = front ++ (id, m) :: rest)
    (closed : Closed (shapesOf front) before)
    (below : Lines (⟨length, delimiter⟩ :: shapesOf rest) after)
    (units : text.units = before ++ after) :
    ∃ changes head s, setLength text id length index =
        .ok (changes, head) { index with store := s } ∧
      Fits { index with store := s } text.units ∧
      Tracks index.estimatedHeight 1 index.store s changes ∧ Settled changes front rest s := by
  generalize shapes : (⟨length, delimiter⟩ :: shapesOf rest : List LineShape) = all at below
  cases below with
  | last plain =>
      obtain ⟨same, empty⟩ := List.cons.inj shapes
      obtain ⟨rfl, rfl⟩ := LineShape.mk.inj same
      obtain rfl := List.map_eq_nil_iff.mp empty
      obtain ⟨s, m', set', valid', lines', total, delimiter', tracks⟩ :=
        @setLength_plain text index front
        [] id m before after [] valid lines (by rw [closed.length_eq, totalOf_shapesOf])
        (by rw [units, List.append_nil])
        fun ⟨lone, _⟩ => plain.2 (by rw [lone]; exact List.mem_singleton_self _)
      refine ⟨_, id, s, set', ⟨valid', ?_⟩, tracks.mono (Nat.zero_le 1), front, id, m', lines',
        LineChanges.marks_markEdited id, .inl rfl⟩
      show Lines (shapesOf s.toList) _
      rw [lines', units, shapesOf_append, shapesOf_cons, shapeOf, total, delimiter',
        endLength_of_noBreak plain]
      exact closed.append_lines (.last plain) fun joins => plain.head_ne joins.2
  | cons plain ends apart behind =>
      obtain ⟨same, rfl⟩ := List.cons.inj shapes
      obtain ⟨rfl, rfl⟩ := LineShape.mk.inj same
      obtain ⟨changes, head, m', front', s, set', valid', lines', closed', marked, place,
          tracks, -⟩ :=
        setLength_closed valid lines closed plain ends units
      refine ⟨changes, head, s, set', ⟨valid', ?_⟩, tracks, front', head, m', lines', marked, place⟩
      show Lines (shapesOf s.toList) _
      have whole := closed'.append_lines behind (by
        rw [← List.append_assoc, joins_append_left ends.ne_nil]
        exact apart)
      rw [lines', units]
      simpa using whole

end

end LineIndex

end CodeEditor

import CodeEditor.Proofs.Line.Agreement

/-!
All look-ups of an index and the list of its lines.

An index is asked for lines by identity, by offset, by row and by their neighbours, and each
question is answered along a path of its own through the tree. `Listed` says that all of them answer
from the one list `lines`, at every offset and every row, and what the answers say about positions
and ranges. `Synced.listed` says that this is so whatever was done to an index that follows its
text.

Lines are compared by their `spot`, which leaves out only the height of the lines above: a sum of
numbers that round, added up in another order by each path.
-/

namespace CodeEditor

/-- What there is to know about a line but the height above it. -/
def Line.spot (l : Line) : LineId × Nat × Nat × LineMetrics := (l.id, l.row, l.location, l.metrics)

theorem Line.spot_inj {a b : Line} (same : a.spot = b.spot) :
    a.id = b.id ∧ a.row = b.row ∧ a.location = b.location ∧ a.metrics = b.metrics := by
  simpa [spot] using same

namespace LineTree

/-- The line of a row is the one with that many lines in front. -/
theorem atRow_eq {t : LineTree} (summed : t.Summed) (row : Nat) :
    t.atRow row = t.toList[row]?.map (·.1) := by
  induction t generalizing row with
  | empty => rfl
  | node cell l r ihl ihr =>
      obtain ⟨-, left, right⟩ := summed
      have count := left.sums.count
      rw [atRow, toList_node, count]
      split
      · next inLeft => rw [ihl left, List.getElem?_append_left inLeft]
      · next notLeft =>
          rw [List.getElem?_append_right (by omega)]
          split
          · next here =>
              rw [here, Nat.sub_self]
              rfl
          · next behind =>
              rw [ihr right, List.getElem?_cons, if_neg (by omega), Nat.sub_sub]

end LineTree

namespace Place

/-- The number that `row` adds up along a path. -/
theorem foldl_row {path : Path} (summed : Path.SiblingsSummed path) (start : Nat) :
    path.foldl (fun n s => match s.side with
      | .left => n
      | .right => n + (s.sibling.summary.count + 1)) start =
      (Path.before path).length + start := by
  induction path generalizing start with
  | nil => simp
  | cons s rest ih =>
      obtain ⟨sibling, above⟩ := Path.siblingsSummed_cons_iff.mp summed
      have count := sibling.sums.count
      rw [List.foldl_cons, ih above, Path.before_cons, List.length_append]
      unfold Step.before
      cases s.side with
      | left => simp
      | right =>
          simp only [List.length_append, List.length_singleton]
          omega

/-- The row of a line is the number of lines above. -/
theorem row_eq {p : Place} (left : p.left.Summed) (path : Path.SiblingsSummed p.path) :
    p.row = p.before.length := by
  rw [before, List.length_append, ← left.sums.count]
  exact foldl_row path _

end Place

namespace LineStore.Valid

variable {s : LineStore} {front rest : List (LineId × LineMetrics)} {id : LineId} {m : LineMetrics}

theorem atRow?_eq (valid : s.Valid) (row : Nat) : s.atRow? row = s.toList[row]?.map (·.1) :=
  LineTree.atRow_eq valid.summed row

theorem previous?_eq (valid : s.Valid) (lines : s.toList = front ++ (id, m) :: rest) :
    s.previous? id = front.getLast?.map (·.1) := by
  obtain ⟨place, located, -, -, -, previous, -⟩ := valid.locate_eq lines
  rw [LineStore.previous?, located, Option.bind_some, previous]

end LineStore.Valid

namespace LineIndex

variable {index : LineIndex} {front rest : List (LineId × LineMetrics)} {id : LineId}
  {m : LineMetrics} {line : Line} {i : Nat}

/-! ### The list of lines -/

theorem exists_of_getElem?_go {entries : List (LineId × LineMetrics)} (row location : Nat)
    (y : Float)
    (there : (lines.go row location y entries)[i]? = some line) :
    ∃ front rest, entries = front ++ (line.id, line.metrics) :: rest ∧ front.length = i ∧
      line.row = row + i ∧ line.location = location + lengthOf front := by
  induction entries generalizing row location y i with
  | nil => cases there
  | cons entry entries ih =>
      cases i with
      | zero =>
          cases there
          exact ⟨[], entries, rfl, rfl, rfl, rfl⟩
      | succ i =>
          obtain ⟨front, rest, whole, len, rows, place⟩ := ih _ _ _ there
          refine ⟨entry :: front, rest, by rw [whole, List.cons_append],
            by rw [List.length_cons, len], by omega, ?_⟩
          rw [place, lengthOf_cons, Nat.add_assoc]

/-- The row of a line is its place in the list, and its location the length of the lines above. -/
theorem exists_of_getElem?_lines (there : index.lines[i]? = some line) :
    ∃ front rest, index.store.toList = front ++ (line.id, line.metrics) :: rest ∧ front.length = i ∧
      line.row = i ∧ line.location = lengthOf front := by
  obtain ⟨front, rest, whole, len, row, place⟩ := exists_of_getElem?_go 0 0 0.0 there
  exact ⟨front, rest, whole, len, by rw [row, Nat.zero_add], by rw [place, Nat.zero_add]⟩

theorem getElem?_ids (index : LineIndex) (i : Nat) :
    index.lines[i]?.map (·.id) = index.store.toList[i]?.map (·.1) := by
  rw [← List.getElem?_map, ← List.getElem?_map, ids_lines, LineStore.ids]

theorem length_lines (index : LineIndex) : index.lines.length = index.store.toList.length := by
  rw [← List.length_map (·.id), ids_lines, LineStore.ids, List.length_map]

/-- Every entry of the store is a line of the list. -/
theorem exists_line (lines : index.store.toList = front ++ (id, m) :: rest) :
    ∃ line, index.lines[front.length]? = some line ∧ line.id = id ∧ line.metrics = m ∧
      line.location = lengthOf front := by
  have inside : front.length < index.lines.length := by
    rw [length_lines, lines, List.length_append, List.length_cons]
    omega
  obtain ⟨front', rest', lines', len, -, place⟩ :=
    exists_of_getElem?_lines (List.getElem?_eq_getElem inside)
  obtain ⟨rfl, same⟩ := List.append_inj (lines'.symm.trans lines) len
  obtain ⟨entry, -⟩ := List.cons.inj same
  obtain ⟨rfl, rfl⟩ := Prod.mk.inj entry
  exact ⟨_, List.getElem?_eq_getElem inside, rfl, rfl, place⟩

/-- A line ends where the lines below begin, or above them. -/
theorem upperBound_le_location {line' : Line} {j : Nat} (there : index.lines[i]? = some line)
    (there' : index.lines[j]? = some line') (above : i < j) : line.upperBound ≤ line'.location := by
  obtain ⟨front, rest, lines, rfl, -, place⟩ := exists_of_getElem?_lines there
  obtain ⟨front', rest', lines', rfl, -, place'⟩ := exists_of_getElem?_lines there'
  obtain ⟨behind, rfl⟩ := List.prefix_of_prefix_length_le (List.prefix_append front _)
    (lines.symm.trans lines' ▸ List.prefix_append front' _) (Nat.le_of_lt above)
  rw [List.append_assoc] at lines'
  have same := List.append_cancel_left (lines.symm.trans lines')
  cases behind with
  | nil => simp at above
  | cons entry behind =>
      obtain ⟨rfl, -⟩ := List.cons.inj same
      rw [Line.upperBound, Line.totalLength, place, place', lengthOf_append, lengthOf_cons]
      dsimp only
      omega

/-! ### Lines by identity -/

/-- A line is found by its identity. -/
theorem line?_spot (valid : index.store.Valid) (there : index.lines[i]? = some line) :
    (index.line? line.id).map Line.spot = some line.spot := by
  obtain ⟨front, rest, lines, len, row, location⟩ := exists_of_getElem?_lines there
  obtain ⟨place, located, -, entry, before, -⟩ := valid.locate lines
  obtain ⟨⟨-, left, -⟩, above⟩ := valid.summed.locate located
  have metrics : place.cell.metrics = line.metrics := congrArg (·.2) entry
  rw [line?, located, Option.map_some, Option.map_some, Line.spot, Line.spot,
    Place.row_eq left above.siblings, Place.location_eq left above.siblings, before, len, row,
    location, metrics]

/-- The line at a place of the list is found by the identity that stands there. -/
theorem bind_line?_spot (valid : index.store.Valid) (i : Nat) :
    ((index.lines[i]?.map (·.id)).bind index.line?).map Line.spot =
      index.lines[i]?.map Line.spot := by
  cases there : index.lines[i]? with
  | none => rfl
  | some line => exact line?_spot valid there

theorem existing_spot {μ : Type → Type} [Monad μ] [MonadExceptOf Failure μ]
    (valid : index.store.Valid) (there : index.lines[i]? = some line) :
    ∃ found, (index.existing line.id : μ Line) = pure found ∧ found.spot = line.spot := by
  obtain ⟨found, here, same⟩ := Option.map_eq_some_iff.mp (line?_spot valid there)
  exact ⟨found, by rw [existing, here], same⟩

/-! ### Each way through the tree ends at a place of the list -/

theorem first?_eq (index : LineIndex) : index.store.first? = index.lines[0]?.map (·.id) := by
  rw [getElem?_ids, ← List.head?_eq_getElem?]
  exact LineTree.first?_eq _

theorem last?_eq (index : LineIndex) :
    index.store.last? = index.lines[index.lines.length - 1]?.map (·.id) := by
  rw [getElem?_ids, length_lines, ← List.getLast?_eq_getElem?]
  exact LineTree.last?_eq _

theorem next?_eq (valid : index.store.Valid) (there : index.lines[i]? = some line) :
    index.store.next? line.id = index.lines[i + 1]?.map (·.id) := by
  obtain ⟨front, rest, lines, rfl, -⟩ := exists_of_getElem?_lines there
  rw [getElem?_ids, valid.next?_eq lines, lines, List.getElem?_append_right (Nat.le_add_right _ _),
    Nat.add_sub_cancel_left, List.getElem?_cons_succ, List.head?_eq_getElem?]

theorem previous?_eq (valid : index.store.Valid) (there : index.lines[i]? = some line) :
    index.store.previous? line.id = if i = 0 then none else index.lines[i - 1]?.map (·.id) := by
  obtain ⟨front, rest, lines, rfl, -⟩ := exists_of_getElem?_lines there
  rw [valid.previous?_eq lines, List.getLast?_eq_getElem?]
  split
  · next first => rw [List.length_eq_zero_iff.mp first, List.getElem?_nil, Option.map_none]
  · next below => rw [getElem?_ids, lines, List.getElem?_append_left (by omega)]

theorem atRow?_eq (valid : index.store.Valid) (row : Nat) :
    index.store.atRow? row = index.lines[row]?.map (·.id) := by
  rw [getElem?_ids, valid.atRow?_eq]

/-- Every offset up to the end of the text is held by one line of the list, the end itself by the
last. -/
theorem containing?_eq (valid : index.store.Valid) {offset : Nat}
    (inside : offset ≤ index.totalLength) :
    ∃ i line, index.lines[i]? = some line ∧ index.store.containing? offset = some line.id ∧
      line.location ≤ offset ∧ (offset < line.upperBound ∨
        i + 1 = index.lines.length ∧ offset = line.upperBound ∧ offset = index.totalLength) := by
  rw [totalLength, valid.totalLength_eq] at inside ⊢
  obtain ⟨front, id, m, rest, lines, found, lower, upper⟩ := valid.containing inside
  obtain ⟨line, there, rfl, rfl, place⟩ := exists_line lines
  refine ⟨front.length, line, there, found, place ▸ lower, ?_⟩
  rw [Line.upperBound, place]
  rcases upper with upper | ⟨rfl, atEnd⟩
  · exact .inl upper
  · refine .inr ⟨?_, atEnd, ?_⟩
    · rw [length_lines, lines, List.length_append, List.length_singleton]
    · rw [lines, lengthOf_append, lengthOf_cons, lengthOf_nil]
      exact atEnd

/-! ### Lines by offset and by row -/

section

variable {μ : Type → Type} [Monad μ] [MonadExceptOf Failure μ]

theorem lineAtRow_spot (valid : index.store.Valid) (there : index.lines[i]? = some line) :
    ∃ found, (index.lineAtRow i : μ Line) = pure found ∧ found.spot = line.spot := by
  rw [lineAtRow, atRow?_eq valid, there, Option.map_some]
  exact existing_spot valid there

theorem lineAtRow_reject (valid : index.store.Valid) {row : Nat}
    (beyond : index.lines.length ≤ row) :
    (index.lineAtRow row : μ Line) = reject (.rowOutOfBounds row index.lines.length) := by
  rw [lineAtRow, atRow?_eq valid, List.getElem?_eq_none beyond, Option.map_none, lineCount,
    valid.count_eq, length_lines]

theorem lineAt_reject {offset : Nat} (beyond : index.totalLength < offset) :
    (index.lineAt offset : μ Line) = reject (.offsetOutOfBounds offset index.totalLength) := by
  have none : index.store.containing? offset = none := if_pos beyond
  rw [lineAt, none]

/-- An offset up to the end of the text stands in a line of the list. -/
structure Holds (index : LineIndex) (i : Nat) (line : Line) (offset : Nat) : Prop where
  there : index.lines[i]? = some line
  lower : line.location ≤ offset
  upper : offset < line.upperBound ∨
    i + 1 = index.lines.length ∧ offset = line.upperBound ∧ offset = index.totalLength

/-- The line of an offset. -/
theorem lineAt_spot (valid : index.store.Valid) {offset : Nat}
    (inside : offset ≤ index.totalLength) :
    ∃ i line found, index.Holds i line offset ∧ (index.lineAt offset : μ Line) = pure found ∧
      found.spot = line.spot := by
  obtain ⟨i, line, there, held, lower, upper⟩ := containing?_eq valid inside
  obtain ⟨found, here, spot⟩ := @existing_spot _ _ _ μ _ _ valid there
  refine ⟨i, line, found, ⟨there, lower, upper⟩, ?_, spot⟩
  rw [lineAt, held]
  exact here

/-- The row of an offset is that of its line, the column what it is behind the line's location. -/
theorem positionAt_spot [LawfulMonad μ] (valid : index.store.Valid) {offset : Nat}
    (inside : offset ≤ index.totalLength) :
    ∃ i line, index.Holds i line offset ∧
      (index.positionAt offset : μ LinePosition) = pure ⟨i, offset - line.location⟩ := by
  obtain ⟨i, line, found, holds, here, spot⟩ := @lineAt_spot index μ _ _ valid _ inside
  obtain ⟨-, -, -, -, row, -⟩ := exists_of_getElem?_lines holds.there
  obtain ⟨-, sameRow, location, -⟩ := Line.spot_inj spot
  have column : Checked.sub offset found.location = some (offset - line.location) :=
    Checked.sub_eq_some_iff.mpr (by have lower := holds.lower; omega)
  refine ⟨i, line, holds, ?_⟩
  rw [positionAt, here, LawfulMonad.pure_bind, column, sameRow, row]
  exact LawfulMonad.pure_bind _ _

end

theorem Holds.upperBound_le {offset : Nat} (valid : index.store.Valid)
    (holds : index.Holds i line offset) : line.upperBound ≤ index.totalLength := by
  obtain ⟨front, rest, lines, -, -, place⟩ := exists_of_getElem?_lines holds.there
  rw [totalLength, valid.totalLength_eq, lines, Line.upperBound, Line.totalLength, place,
    lengthOf_append, lengthOf_cons]
  dsimp only
  omega

/-- Offsets stand in the list in their order. -/
theorem Holds.le {line' : Line} {j offset offset' : Nat} (holds : index.Holds i line offset)
    (holds' : index.Holds j line' offset') (le : offset ≤ offset') : i ≤ j := by
  by_contra below
  have apart := upperBound_le_location holds'.there holds.there (by omega)
  have lower := holds.lower
  have inside := (List.getElem?_eq_some_iff.mp holds.there).1
  rcases holds'.upper with upper | ⟨last, -⟩
  · omega
  · omega

/-! ### Ranges -/

/-- A line stands at one place of the list only. -/
theorem place_unique {line' : Line} {j : Nat} (valid : index.store.Valid)
    (there : index.lines[i]? = some line) (there' : index.lines[j]? = some line')
    (same : line.id = line'.id) : i = j := by
  have distinct : (index.lines.map (·.id)).Nodup := by
    rw [ids_lines]
    exact valid.holds.nodup_ids
  refine (List.getElem?_inj (by simpa using (List.getElem?_eq_some_iff.mp there).1) distinct).mp ?_
  rw [List.getElem?_map, List.getElem?_map, there, there', Option.map_some, Option.map_some, same]

/-- Going down from a line of the list to a later one passes the lines in between. -/
theorem linesBelow_spot {line' start : Line} {j count : Nat} (valid : index.store.Valid)
    (there : index.lines[i]? = some line) (there' : index.lines[j]? = some line')
    (same : start.id = line.id) (le : i ≤ j) (enough : j ≤ i + count) :
    (index.linesBelow line'.id count start).map Line.spot =
      ((index.lines.drop (i + 1)).take (j - i)).map Line.spot := by
  induction count generalizing i line start with
  | zero =>
      obtain rfl : i = j := by omega
      simp [linesBelow]
  | succ count ih =>
      rw [linesBelow, same]
      split
      · next stopped =>
          obtain rfl := place_unique valid there there' stopped
          simp
      · next goesOn =>
          have below : i < j := by
            refine Nat.lt_of_le_of_ne le ?_
            rintro rfl
            rw [there] at there'
            exact goesOn (congrArg Line.id (Option.some.inj there'))
          have inside := (List.getElem?_eq_some_iff.mp there').1
          have next := List.getElem?_eq_getElem (show i + 1 < index.lines.length by omega)
          obtain ⟨found, here, spot⟩ := Option.map_eq_some_iff.mp (line?_spot valid next)
          have follows : index.nextLine? line.id = some found := by
            rw [nextLine?, next?_eq valid there, next]
            exact here
          have rest := ih next (Line.spot_inj spot).1 below (by omega)
          rw [follows]
          dsimp only
          have more : j - i = j - (i + 1) + 1 := by omega
          rw [List.map_cons, rest, spot, List.drop_eq_getElem_cons (show i + 1 < _ by omega), more,
            List.take_succ_cons, List.map_cons]

/-- A range inside the text starts in one line of the list and ends in the same or a later one; the
lines from the first to the second are those that it touches. -/
theorem range_spot (valid : index.store.Valid) {r : TextRange} {upper : Nat}
    (word : r.upperBound = some upper) (inside : upper ≤ index.totalLength) :
    ∃ start stop : Line, index.lineAt r.location = (.ok start : Outcome Line) ∧
      index.lineAt upper = (.ok stop : Outcome Line) ∧ start.row ≤ stop.row ∧
      index.startAndEndLine r = (.ok (start, stop) : Outcome (Line × Line)) ∧
      (index.linesIn r).map (List.map Line.spot) =
        .ok (((index.lines.drop start.row).take (stop.row + 1 - start.row)).map Line.spot) := by
  obtain ⟨sum, limit⟩ := Checked.add_eq_some_iff.mp word
  obtain ⟨i, line, start, holds, here, spot⟩ :=
    @lineAt_spot index Outcome _ _ valid r.location (by omega)
  obtain ⟨j, line', stop, holds', here', spot'⟩ := @lineAt_spot index Outcome _ _ valid upper inside
  have le := holds.le holds' (by omega)
  obtain ⟨-, -, -, -, row, -⟩ := exists_of_getElem?_lines holds.there
  obtain ⟨-, -, -, -, row', -⟩ := exists_of_getElem?_lines holds'.there
  obtain ⟨sameId, sameRow, -, -⟩ := Line.spot_inj spot
  obtain ⟨sameId', sameRow', -, -⟩ := Line.spot_inj spot'
  rw [row] at sameRow
  rw [row'] at sameRow'
  have both : index.startAndEndLine r = (.ok (start, stop) : Outcome (Line × Line)) := by
    rw [startAndEndLine, here, LawfulMonad.pure_bind]
    split
    · next empty =>
        obtain rfl : r.location = upper := by
          have length : r.length = 0 := by simpa [TextRange.isEmpty] using empty
          omega
        obtain rfl : start = stop := Except.ok.inj (here.symm.trans here')
        rfl
    · next filled =>
        rw [word]
        show ((index.lineAt upper : Outcome Line) >>= fun stop => pure (start, stop)) = _
        rw [here']
        rfl
  refine ⟨start, stop, here, here', by omega, both, ?_⟩
  have enough : j ≤ i + index.lineCount := by
    have behind := (List.getElem?_eq_some_iff.mp holds'.there).1
    rw [length_lines] at behind
    rw [lineCount, valid.count_eq]
    omega
  have below := linesBelow_spot valid holds.there holds'.there sameId le enough
  have touched : (index.lines.drop i).take (j + 1 - i) =
      line :: (index.lines.drop (i + 1)).take (j - i) := by
    obtain ⟨start', there⟩ := List.getElem?_eq_some_iff.mp holds.there
    rw [List.drop_eq_getElem_cons start', there, show j + 1 - i = j - i + 1 by omega,
      List.take_succ_cons]
  rw [linesIn, both, sameRow, sameRow', touched]
  show Except.ok _ = _
  rw [List.map_cons, sameId', below, spot, List.map_cons]

/-! ### All look-ups -/

/-- All look-ups of an index answer from its list of lines. -/
structure Listed (index : LineIndex) : Prop where
  byId : ∀ line ∈ index.lines, (index.line? line.id).map Line.spot = some line.spot
  gone : ∀ id, id ∉ index.lines.map (·.id) → index.line? id = none
  /-- An offset inside the text is that of the one line around it. -/
  lineAt_inside : ∀ offset, offset < index.totalLength →
    ∃ line ∈ index.lines, (line.location ≤ offset ∧ offset < line.upperBound) ∧
      (∀ other ∈ index.lines, other.location ≤ offset → offset < other.upperBound → other = line) ∧
      (index.lineAt offset : Outcome Line).map Line.spot = .ok line.spot
  /-- The end of the text belongs to the last line. -/
  lineAt_end : ∃ line, index.lines.getLast? = some line ∧
    (index.lineAt index.totalLength : Outcome Line).map Line.spot = .ok line.spot
  lineAt_beyond : ∀ offset, index.totalLength < offset → (index.lineAt offset : Outcome Line) =
    .error (.rejected (.offsetOutOfBounds offset index.totalLength))
  lineAtRow_inside : ∀ row line, index.lines[row]? = some line →
    line.row = row ∧ (index.lineAtRow row : Outcome Line).map Line.spot = .ok line.spot
  lineAtRow_beyond : ∀ row, index.lines.length ≤ row → (index.lineAtRow row : Outcome Line) =
    .error (.rejected (.rowOutOfBounds row index.lines.length))
  first : index.firstLine?.map Line.spot = index.lines.head?.map Line.spot
  last : index.lastLine?.map Line.spot = index.lines.getLast?.map Line.spot
  next : ∀ i line, index.lines[i]? = some line →
    (index.nextLine? line.id).map Line.spot = index.lines[i + 1]?.map Line.spot
  previous : ∀ i line, index.lines[i + 1]? = some line →
    (index.previousLine? line.id).map Line.spot = index.lines[i]?.map Line.spot
  noPrevious : ∀ line, index.lines.head? = some line → index.previousLine? line.id = none
  /-- An offset is found again by its position. -/
  offsetAt_positionAt : ∀ offset, offset ≤ index.totalLength →
    ∃ position, index.positionAt offset = (.ok position : Outcome LinePosition) ∧
      index.offsetAt position = (.ok offset : Outcome Nat)
  /-- Positions are in the order of their offsets. -/
  positionAt_lt : ∀ offset offset', offset < offset' → offset' ≤ index.totalLength →
    ∃ p p', index.positionAt offset = (.ok p : Outcome LinePosition) ∧
      index.positionAt offset' = (.ok p' : Outcome LinePosition) ∧
      (p.row < p'.row ∨ p.row = p'.row ∧ p.column < p'.column)
  /-- A range goes from the line of its location to the line of its end. -/
  range : ∀ (r : TextRange) (upper : Nat), r.upperBound = some upper → upper ≤ index.totalLength →
    ∃ start stop : Line, index.lineAt r.location = (.ok start : Outcome Line) ∧
      index.lineAt upper = (.ok stop : Outcome Line) ∧ start.row ≤ stop.row ∧
      index.startAndEndLine r = (.ok (start, stop) : Outcome (Line × Line)) ∧
      (index.linesIn r).map (List.map Line.spot) =
        .ok (((index.lines.drop start.row).take (stop.row + 1 - start.row)).map Line.spot)

theorem line?_eq_none (gone : id ∉ index.lines.map (·.id)) : index.line? id = none := by
  rw [ids_lines] at gone
  rw [line?, LineStore.locate_eq_none gone, Option.map_none]

/-- An offset inside the text stands in one line only. -/
theorem eq_of_inside {line' : Line} {j offset : Nat} (there : index.lines[i]? = some line)
    (lower : line.location ≤ offset) (upper : offset < line.upperBound)
    (there' : index.lines[j]? = some line') (lower' : line'.location ≤ offset)
    (upper' : offset < line'.upperBound) : line' = line := by
  rcases Nat.lt_trichotomy i j with above | rfl | below
  · have apart := upperBound_le_location there there' above
    omega
  · exact Option.some.inj (there'.symm.trans there)
  · have apart := upperBound_le_location there' there below
    omega

theorem offsetAt_positionAt (valid : index.store.Valid) {offset : Nat}
    (inside : offset ≤ index.totalLength) :
    ∃ position, index.positionAt offset = (.ok position : Outcome LinePosition) ∧
      index.offsetAt position = (.ok offset : Outcome Nat) := by
  obtain ⟨i, line, holds, here⟩ := @positionAt_spot index Outcome _ _ _ valid _ inside
  obtain ⟨found, there, spot⟩ := @lineAtRow_spot _ _ _ Outcome _ _ valid holds.there
  obtain ⟨-, -, location, metrics⟩ := Line.spot_inj spot
  refine ⟨_, here, ?_⟩
  have total : found.totalLength = line.totalLength := by
    rw [Line.totalLength, metrics, Line.totalLength]
  have column : offset - line.location ≤ line.totalLength := by
    have upper := holds.upper
    rw [Line.upperBound] at upper
    omega
  have lower := holds.lower
  rw [offsetAt, there, LawfulMonad.pure_bind, location, total]
  dsimp only
  rw [Nat.min_eq_left column, Nat.add_sub_cancel' lower]
  rfl

theorem positionAt_lt (valid : index.store.Valid) {offset offset' : Nat} (lt : offset < offset')
    (inside : offset' ≤ index.totalLength) :
    ∃ p p', index.positionAt offset = (.ok p : Outcome LinePosition) ∧
      index.positionAt offset' = (.ok p' : Outcome LinePosition) ∧
      (p.row < p'.row ∨ p.row = p'.row ∧ p.column < p'.column) := by
  obtain ⟨i, line, holds, here⟩ := @positionAt_spot index Outcome _ _ _ valid offset (by omega)
  obtain ⟨j, line', holds', here'⟩ := @positionAt_spot index Outcome _ _ _ valid offset' inside
  refine ⟨_, _, here, here', ?_⟩
  rcases Nat.lt_or_eq_of_le (holds.le holds' (Nat.le_of_lt lt)) with above | rfl
  · exact .inl above
  · obtain rfl : line = line' := Option.some.inj (holds.there.symm.trans holds'.there)
    have lower := holds.lower
    exact .inr ⟨rfl, by dsimp only; omega⟩

/-- All look-ups of a valid index answer from its list of lines. -/
theorem listed_of_valid (valid : index.store.Valid) : index.Listed where
  byId := by
    intro line mem
    obtain ⟨i, there⟩ := List.getElem?_of_mem mem
    exact line?_spot valid there
  gone := fun _ => line?_eq_none
  lineAt_inside := by
    intro offset inside
    obtain ⟨i, line, found, holds, here, spot⟩ :=
      @lineAt_spot index Outcome _ _ valid offset (Nat.le_of_lt inside)
    have upper : offset < line.upperBound := by
      rcases holds.upper with upper | ⟨-, -, atEnd⟩
      · exact upper
      · omega
    refine ⟨line, List.mem_of_getElem? holds.there, ⟨holds.lower, upper⟩, ?_, ?_⟩
    · intro other mem lower' upper'
      obtain ⟨j, there'⟩ := List.getElem?_of_mem mem
      exact eq_of_inside holds.there holds.lower upper there' lower' upper'
    · rw [here, ← spot]
      rfl
  lineAt_end := by
    obtain ⟨i, line, found, holds, here, spot⟩ :=
      @lineAt_spot index Outcome _ _ valid index.totalLength (Nat.le_refl _)
    have within := holds.upperBound_le valid
    refine ⟨line, ?_, ?_⟩
    · rcases holds.upper with upper | ⟨last, -⟩
      · omega
      · rw [List.getLast?_eq_getElem?, ← last, Nat.add_sub_cancel, holds.there]
    · rw [here, ← spot]
      rfl
  lineAt_beyond := fun _ => lineAt_reject
  lineAtRow_inside := by
    intro row line there
    obtain ⟨-, -, -, -, here, -⟩ := exists_of_getElem?_lines there
    obtain ⟨found, same, spot⟩ := @lineAtRow_spot _ _ _ Outcome _ _ valid there
    refine ⟨here, ?_⟩
    rw [same, ← spot]
    rfl
  lineAtRow_beyond := fun _ => lineAtRow_reject valid
  first := by
    rw [firstLine?, first?_eq, bind_line?_spot valid, List.head?_eq_getElem?]
  last := by
    rw [lastLine?, last?_eq, bind_line?_spot valid, List.getLast?_eq_getElem?]
  next := by
    intro i line there
    rw [nextLine?, next?_eq valid there, bind_line?_spot valid]
  previous := by
    intro i line there
    rw [previousLine?, previous?_eq valid there, if_neg (Nat.succ_ne_zero i), Nat.add_sub_cancel,
      bind_line?_spot valid]
  noPrevious := by
    intro line there
    rw [List.head?_eq_getElem?] at there
    rw [previousLine?, previous?_eq valid there, if_pos rfl, Option.bind_none]
  offsetAt_positionAt := fun _ => offsetAt_positionAt valid
  positionAt_lt := fun _ _ => positionAt_lt valid
  range := fun _ _ => range_spot valid

/-- What can be done to an index that follows its text: lines are read anew, edits are followed, and
lines are measured. -/
inductive Synced : TextBuffer → LineIndex → Prop
  | rebuild (index : LineIndex) (text : TextBuffer) : Synced text (index.rebuild text)
  | remove {text text' : TextBuffer} {index index' : LineIndex} {r : TextRange}
      {changes : LineChanges} :
      Synced text index → text.replace r "" = .ok text' →
      removeCharacters text' r index = .ok changes index' → Synced text' index'
  | insert {text text' : TextBuffer} {index index' : LineIndex} {location : Nat} {inserted : String}
      {changes : LineChanges} :
      Synced text index → text.replace ⟨location, 0⟩ inserted = .ok text' →
      insertText text' inserted location index = .ok changes index' → Synced text' index'
  | setHeight {text : TextBuffer} {index index' : LineIndex} {id : LineId} {height : Float}
      {changed : Bool} :
      Synced text index → setHeight id height index = .ok changed index' → Synced text index'

theorem Synced.fits {text : TextBuffer} {index : LineIndex} (h : Synced text index) :
    index.Fits text.units := by
  induction h with
  | rebuild index text => exact fits_rebuild index text
  | remove _ replaced step fits => exact fits.of_remove replaced step
  | insert _ replaced step fits => exact fits.of_insert replaced step
  | @setHeight text index index' id height changed _ step fits =>
      rcases setHeight_cases fits.valid id height with ⟨e, stopped⟩ |
        ⟨_, s, measured, valid, shapes⟩
      · cases step.symm.trans stopped
      · cases step.symm.trans measured
        exact ⟨valid, shapes ▸ fits.lines⟩

/-- All look-ups of an index that follows its text answer from its list of lines, which together are
as long as the text. -/
theorem Synced.listed {text : TextBuffer} {index : LineIndex} (h : Synced text index) :
    index.totalLength = text.length ∧ index.Listed := by
  have fits := h.fits
  refine ⟨?_, listed_of_valid fits.valid⟩
  rw [fits.totalLength_eq, TextBuffer.length_units]

/-- An offset between a CR and its LF belongs to the line that they end. -/
theorem listed_of_parted_delimiter :
    ∃ p p', positionAt ((empty 12.0).rebuild ⟨['a', '\r', '\n', 'b']⟩) 2 =
        (.ok p : Outcome LinePosition) ∧
      positionAt ((empty 12.0).rebuild ⟨['a', '\r', '\n', 'b']⟩) 3 =
        (.ok p' : Outcome LinePosition) ∧
      p = ⟨0, 2⟩ ∧ p' = ⟨1, 0⟩ ∧ (p.row < p'.row ∨ p.row = p'.row ∧ p.column < p'.column) := by
  obtain ⟨-, listed⟩ := (Synced.rebuild (empty 12.0) ⟨['a', '\r', '\n', 'b']⟩).listed
  obtain ⟨p, p', here, here', lt⟩ := listed.positionAt_lt 2 3 (by decide) (by decide)
  exact ⟨p, p', here, here', Except.ok.inj (here.symm.trans rfl),
    Except.ok.inj (here'.symm.trans rfl), lt⟩

end LineIndex

end CodeEditor

import CodeEditor.Proofs.Line.Insertion
import CodeEditor.Proofs.Line.Removal

/-!
The index of a text that is edited.

`Following` is every text and index that edits lead to from a text and the index rebuilt from it:
the text is changed first, the index follows. `Following.agrees` says that at any time the next edit
can be followed, whatever range between characters it removes or string it inserts, and that the
lines are those that a rebuild finds in the text: together they are as long as the text, only the
last has no delimiter, and no line has one before its end.
-/

namespace CodeEditor

/-- The content and the delimiter that a line says it has are those of the text. -/
structure Line.Reads (line : Line) (text : TextBuffer) : Prop where
  /-- The delimiter is part of the line. -/
  delimiter_le : line.delimiterLength ≤ line.totalLength
  content : ∀ offset, line.location ≤ offset → offset < line.contentEnd →
    text.unitAt offset ≠ some carriageReturn ∧ text.unitAt offset ≠ some lineFeed
  delimiter : line.delimiterLength ≠ 0 →
    IsDelimiter ((text.units.drop line.contentEnd).take line.delimiterLength)

namespace LineIndex

/-- Where the lines are and how long they and their delimiters are. -/
def layout (index : LineIndex) : List (Nat × Nat × Nat) :=
  index.lines.map fun line => (line.location, line.totalLength, line.delimiterLength)

/-- The lines of an index are those of a text. -/
structure Delimits (index : LineIndex) (text : TextBuffer) : Prop where
  reads : ∀ line ∈ index.lines, line.Reads text
  /-- Only the last line has no delimiter. -/
  last : ∃ front line, index.lines = front ++ [line] ∧ line.delimiterLength = 0 ∧
    ∀ other ∈ front, other.delimiterLength ≠ 0

/-! ### Lines in place -/

/-- The layout of lines of given lengths from an offset on. -/
def layoutFrom : Nat → List LineShape → List (Nat × Nat × Nat)
  | _, [] => []
  | location, shape :: rest =>
      (location, shape.total, shape.delimiter) :: layoutFrom (location + shape.total) rest

theorem layout_go (row location : Nat) (y : Float) (entries : List (LineId × LineMetrics)) :
    (lines.go row location y entries).map
        (fun line => (line.location, line.totalLength, line.delimiterLength)) =
      layoutFrom location (shapesOf entries) := by
  induction entries generalizing row location y with
  | nil => rfl
  | cons entry entries ih =>
      rw [lines.go, List.map_cons, ih]
      rfl

theorem layout_eq (index : LineIndex) : index.layout = layoutFrom 0 (shapesOf index.store.toList) :=
  layout_go 0 0 0.0 index.store.toList

/-- Indexes that fit the same text have the same layout. -/
theorem Fits.layout_eq {index index' : LineIndex} {us : List UInt16} (fits : index.Fits us)
    (fits' : index'.Fits us) : index.layout = index'.layout := by
  rw [LineIndex.layout_eq, LineIndex.layout_eq, fits.lines.unique fits'.lines]

theorem Fits.totalLength_eq {index : LineIndex} {us : List UInt16} (fits : index.Fits us) :
    index.totalLength = us.length := by
  rw [totalLength, fits.valid.totalLength_eq, fits.lines.length_eq, totalOf_shapesOf]

/-- The lines of a text are together as long as the text. -/
theorem Fits.totalLength_text {index : LineIndex} {text : TextBuffer}
    (fits : index.Fits text.units) : index.totalLength = text.length := by
  rw [fits.totalLength_eq, TextBuffer.length_units]

theorem ids_go (row location : Nat) (y : Float) (entries : List (LineId × LineMetrics)) :
    (lines.go row location y entries).map (·.id) = entries.map (·.1) := by
  induction entries generalizing row location y with
  | nil => rfl
  | cons entry entries ih => rw [lines.go, List.map_cons, ih, List.map_cons]

theorem ids_lines (index : LineIndex) : index.lines.map (·.id) = index.store.ids :=
  ids_go 0 0 0.0 index.store.toList

theorem Fits.length_lines {index : LineIndex} {us : List UInt16} (fits : index.Fits us) :
    index.lines.length = index.lineCount := by
  rw [lineCount, fits.valid.count_eq, ← List.length_map (·.id), ids_lines, LineStore.ids,
    List.length_map]

theorem exists_of_mem_go {entries : List (LineId × LineMetrics)} {line : Line} (row location : Nat)
    (y : Float) (mem : line ∈ lines.go row location y entries) :
    ∃ front rest, entries = front ++ (line.id, line.metrics) :: rest ∧
      line.location = location + lengthOf front := by
  induction entries generalizing row location y with
  | nil => cases mem
  | cons entry entries ih =>
      rcases List.mem_cons.mp mem with rfl | mem
      · exact ⟨[], entries, rfl, rfl⟩
      · obtain ⟨front, rest, whole, place⟩ := ih _ _ _ mem
        refine ⟨entry :: front, rest, by rw [whole, List.cons_append], ?_⟩
        rw [place, lengthOf_cons]
        omega

/-- A line stands behind the lines above it. -/
theorem exists_of_mem_lines {index : LineIndex} {line : Line} (mem : line ∈ index.lines) :
    ∃ front rest, index.store.toList = front ++ (line.id, line.metrics) :: rest ∧
      line.location = lengthOf front := by
  obtain ⟨front, rest, whole, place⟩ := exists_of_mem_go 0 0 0.0 mem
  exact ⟨front, rest, whole, by rw [place, Nat.zero_add]⟩

/-- What a line says is so when its lengths are those of the units at its location. -/
theorem reads_of_units {text : TextBuffer} {line : Line}
    {before content delimiter rest : List UInt16}
    (units : text.units = before ++ (content ++ delimiter ++ rest))
    (location : line.location = before.length) (plain : NoBreak content)
    (ends : delimiter ≠ [] → IsDelimiter delimiter)
    (total : line.totalLength = content.length + delimiter.length)
    (len : line.delimiterLength = delimiter.length) : line.Reads text := by
  have contentEnd : line.contentEnd = (before ++ content).length := by
    rw [Line.contentEnd, Line.contentLength, LineMetrics.contentLength, List.length_append]
    rw [Line.totalLength] at total
    rw [Line.delimiterLength] at len
    omega
  refine ⟨by omega, ?_, ?_⟩
  · intro offset lower upper
    rw [contentEnd, List.length_append] at upper
    have here : text.unitAt offset = content[offset - before.length]? := by
      rw [TextBuffer.unitAt_eq, units, List.getElem?_append_right (by omega),
        List.append_assoc, List.getElem?_append_left (by omega)]
    rw [here]
    exact ⟨fun eq => plain.1 (List.mem_of_getElem? eq), fun eq => plain.2 (List.mem_of_getElem? eq)⟩
  · intro delimited
    have split : text.units = (before ++ content) ++ (delimiter ++ rest) := by simp [units]
    rw [contentEnd, len, split, List.drop_left, List.take_left]
    exact ends fun empty => delimited (by rw [len, empty]; rfl)

/-- The lines in a list of entries that fits a text, from an offset on. -/
theorem delimits_go {text : TextBuffer} {shapes : List LineShape} {us : List UInt16}
    (h : Lines shapes us) {entries : List (LineId × LineMetrics)}
    (shapesEq : shapesOf entries = shapes)
    {before : List UInt16} (units : text.units = before ++ us) {location : Nat}
    (start : before.length = location) (row : Nat) (y : Float) :
    (∀ line ∈ lines.go row location y entries, line.Reads text) ∧
      ∃ front line, lines.go row location y entries = front ++ [line] ∧ line.delimiterLength = 0 ∧
        ∀ other ∈ front, other.delimiterLength ≠ 0 := by
  induction h generalizing entries before location row y with
  | @last content plain =>
      obtain ⟨⟨id, m⟩, rfl, shape⟩ := List.map_eq_singleton_iff.mp shapesEq
      obtain ⟨total, delimiter⟩ := LineShape.mk.inj shape
      refine ⟨fun line mem => ?_, [], _, rfl, delimiter, fun other mem => by cases mem⟩
      obtain rfl := List.mem_singleton.mp mem
      exact @reads_of_units text _ before content [] [] (by simp [units]) start.symm plain
        (fun h => absurd rfl h) total delimiter
  | @cons content delimiter rest shapes plain ends apart _ ih =>
      obtain ⟨⟨id, m⟩, entries, rfl, shape, shapesEq⟩ := List.map_eq_cons_iff.mp shapesEq
      obtain ⟨total, delimiterLength⟩ := LineShape.mk.inj shape
      dsimp only at total delimiterLength
      obtain ⟨reads, front, line, split, last, others⟩ := @ih entries shapesEq
        (before ++ (content ++ delimiter)) (by simp [units]) (location + m.totalLength)
        (by rw [List.length_append, List.length_append, start, total]) (row + 1) (y + m.height)
      refine ⟨fun other mem => ?_, ⟨id, row, location, m, y⟩ :: front, line, ?_, last, ?_⟩
      · rcases List.mem_cons.mp mem with rfl | mem
        · exact reads_of_units units start.symm plain (fun _ => ends) total delimiterLength
        · exact reads other mem
      · rw [lines.go, split]
        rfl
      · intro other mem
        rcases List.mem_cons.mp mem with rfl | mem
        · show m.delimiterLength ≠ 0
          rw [delimiterLength]
          exact Nat.ne_of_gt ends.length_pos
        · exact others other mem

theorem Fits.delimits {text : TextBuffer} {index : LineIndex} (fits : index.Fits text.units) :
    index.Delimits text := by
  obtain ⟨reads, last⟩ :=
    delimits_go fits.lines rfl (show text.units = [] ++ text.units from rfl) rfl
    0 0.0
  exact ⟨reads, last⟩

/-! ### Edits -/

/-- A rebuild finds the lines of the text. -/
theorem fits_rebuild (index : LineIndex) (text : TextBuffer) :
    (index.rebuild text).Fits text.units := by
  have lines := lines_lineLengths text.chars
  refine ⟨LineStore.valid_rebuild _ _, ?_⟩
  have metrics : (index.rebuild text).store.toList.map (·.2) = _ :=
    LineStore.metrics_rebuild index.store fun empty => lines.ne_nil (by simpa using empty)
  have shapes := congrArg (List.map fun m : LineMetrics =>
    (⟨m.totalLength, m.delimiterLength⟩ : LineShape)) metrics
  rw [List.map_map, List.map_map] at shapes
  have same : shapesOf (index.rebuild text).store.toList =
      (lineLengths text.chars).map LineShape.of :=
    shapes
  rw [same]
  exact lines

/-- The texts and indexes that edits lead to. -/
inductive Following : TextBuffer → LineIndex → Prop
  | rebuild (index : LineIndex) (text : TextBuffer) : Following text (index.rebuild text)
  | remove {text text' : TextBuffer} {index index' : LineIndex} {r : TextRange}
      {changes : LineChanges} :
      Following text index → text.replace r "" = .ok text' →
      removeCharacters text' r index = .ok changes index' → Following text' index'
  | insert {text text' : TextBuffer} {index index' : LineIndex} {location : Nat} {inserted : String}
      {changes : LineChanges} :
      Following text index → text.replace ⟨location, 0⟩ inserted = .ok text' →
      insertText text' inserted location index = .ok changes index' → Following text' index'

/-- Changes tell how the lines of one text became those of another. -/
structure Tells (n : Nat) (text text' : TextBuffer) (index index' : LineIndex)
    (changes : LineChanges) : Prop where
  estimatedHeight : index'.estimatedHeight = index.estimatedHeight
  tracks : LineStore.Tracks index.estimatedHeight n index.store index'.store changes
  sameUnits : LineStore.SameUnits changes index.store.toList text.units index'.store.toList
    text'.units

theorem Tells.refl {text : TextBuffer} {index : LineIndex} (fits : index.Fits text.units) :
    Tells 0 text text index index .none where
  estimatedHeight := rfl
  tracks := .refl fits.valid
  sameUnits := .refl fits.valid.distinct _ _

/-- What is done in two parts is told by the union of what the parts tell. -/
theorem Tells.union {n k : Nat} {text text₁ text₂ : TextBuffer} {index index₁ index₂ : LineIndex}
    {c d : LineChanges} (first : Tells n text text₁ index index₁ c)
    (second : Tells k text₁ text₂ index₁ index₂ d) (fits : index₂.Fits text₂.units)
    (few : n + k < UInt32.size) : Tells (n + k) text text₂ index index₂ (c.union d) := by
  have tracks := second.tracks
  rw [first.estimatedHeight] at tracks
  constructor
  · exact second.estimatedHeight.trans first.estimatedHeight
  · exact first.tracks.union tracks fits.valid few
  · apply first.sameUnits.union second.sameUnits
    intro id old new
    exact LineStore.mem_ids.mp (first.tracks.mem_between tracks fits.valid few
      (LineStore.mem_ids.mpr old) (LineStore.mem_ids.mpr new))

theorem Fits.remove {text text' : TextBuffer} {index : LineIndex} {r : TextRange}
    (fits : index.Fits text.units) (replaced : text.replace r "" = .ok text') :
    ∃ changes s, removeCharacters text' r index = .ok changes { index with store := s } ∧
      Fits { index with store := s } text'.units ∧
      Tells 3 text text' index { index with store := s } changes := by
  obtain ⟨before, inside, after, split, rfl⟩ := TextBuffer.replace_eq_ok_iff.mp replaced
  obtain ⟨whole, location, length, word⟩ := TextBuffer.split_eq_ok_iff.mp split
  have units : text.units =
      Utf16.encode before ++ (Utf16.encode inside ++ Utf16.encode after) := by
    rw [TextBuffer.units, ← whole, Utf16.encode_append, Utf16.encode_append]
  rw [units] at fits
  obtain ⟨changes, s, run, fits', tracks, sameUnits⟩ :=
    removeCharactersAt_ok fits (by rw [Utf16.length_encode, location])
      (by rw [Utf16.length_encode, length]) word
      (show TextBuffer.units ⟨before ++ "".toList ++ after⟩ = _ by simp [TextBuffer.units])
  exact ⟨changes, s, run, fits', rfl, tracks, units ▸ sameUnits⟩

theorem Fits.insert {text text' : TextBuffer} {index : LineIndex} {location : Nat}
    {inserted : String} (fits : index.Fits text.units)
    (replaced : text.replace ⟨location, 0⟩ inserted = .ok text') :
    ∃ changes s, insertText text' inserted location index = .ok changes { index with store := s } ∧
      Fits { index with store := s } text'.units ∧
      Tells 3 text text' index { index with store := s } changes := by
  obtain ⟨before, inside, after, split, rfl⟩ := TextBuffer.replace_eq_ok_iff.mp replaced
  obtain ⟨whole, start, length, -⟩ := TextBuffer.split_eq_ok_iff.mp split
  obtain rfl := Utf16.length_eq_zero length
  have units : text.units = Utf16.encode before ++ Utf16.encode after := by
    rw [TextBuffer.units, ← whole, List.nil_append, Utf16.encode_append]
  rw [units] at fits
  obtain ⟨changes, s, run, fits', tracks, sameUnits⟩ :=
    insertText_ok fits (by rw [Utf16.length_encode, start])
      (show TextBuffer.units ⟨before ++ inserted.toList ++ after⟩ =
        Utf16.encode before ++ (Utf16.encode inserted.toList ++ Utf16.encode after) by
          simp [TextBuffer.units])
  exact ⟨changes, s, run, fits', rfl, tracks, units ▸ sameUnits⟩

/-- An index that has followed a removal fits what is left of the text. -/
theorem Fits.of_remove {text text' : TextBuffer} {index index' : LineIndex} {r : TextRange}
    {changes : LineChanges} (fits : index.Fits text.units)
    (replaced : text.replace r "" = .ok text')
    (step : removeCharacters text' r index = .ok changes index') : index'.Fits text'.units := by
  obtain ⟨_, _, step', fits', -⟩ := fits.remove replaced
  cases step.symm.trans step'
  exact fits'

/-- An index that has followed an insertion fits the longer text. -/
theorem Fits.of_insert {text text' : TextBuffer} {index index' : LineIndex} {location : Nat}
    {inserted : String} {changes : LineChanges} (fits : index.Fits text.units)
    (replaced : text.replace ⟨location, 0⟩ inserted = .ok text')
    (step : insertText text' inserted location index = .ok changes index') :
    index'.Fits text'.units := by
  obtain ⟨_, _, step', fits', -⟩ := fits.insert replaced
  cases step.symm.trans step'
  exact fits'

theorem Following.fits {text : TextBuffer} {index : LineIndex} (h : Following text index) :
    index.Fits text.units := by
  induction h with
  | rebuild index text => exact fits_rebuild index text
  | remove _ replaced step fits => exact fits.of_remove replaced step
  | insert _ replaced step fits => exact fits.of_insert replaced step

/-- At any time the lines are those of a rebuild, and every removal between two boundaries and every
insertion at a boundary can be followed. -/
theorem Following.agrees {text : TextBuffer} {index : LineIndex} (h : Following text index) :
    (∀ other : LineIndex, index.layout = (other.rebuild text).layout) ∧
      index.totalLength = text.length ∧ index.Delimits text ∧
      (∀ (r : TextRange) (upper : Nat), r.upperBound = some upper → text.isBoundary r.location →
        text.isBoundary upper → ∃ text' changes index', text.replace r "" = .ok text' ∧
          removeCharacters text' r index = .ok changes index' ∧ Following text' index') ∧
      ∀ (location : Nat) (inserted : String), location < wordLimit → text.isBoundary location →
        ∃ text' changes index', text.replace ⟨location, 0⟩ inserted = .ok text' ∧
          insertText text' inserted location index = .ok changes index' ∧
          Following text' index' := by
  have fits := h.fits
  refine ⟨fun other => fits.layout_eq (fits_rebuild other text), ?_, fits.delimits, ?_, ?_⟩
  · rw [fits.totalLength_eq, TextBuffer.length_units]
  · intro r upper word start stop
    obtain ⟨before, inside, after, split⟩ := TextBuffer.exists_split word start stop
    have replaced := TextBuffer.replace_of_split split ""
    obtain ⟨changes, s, step, -⟩ := fits.remove replaced
    exact ⟨_, changes, _, replaced, step, .remove h replaced step⟩
  · intro location inserted word boundary
    obtain ⟨before, inside, after, split⟩ := TextBuffer.exists_split
      (show (TextRange.mk location 0).upperBound = some location from
        Checked.add_eq_some_iff.mpr ⟨rfl, word⟩) boundary boundary
    have replaced := TextBuffer.replace_of_split split inserted
    obtain ⟨changes, s, step, -⟩ := fits.insert replaced
    exact ⟨_, changes, _, replaced, step, .insert h replaced step⟩

/-- A letter between a CR and its LF makes three lines of two. -/
theorem agrees_of_letter_between :
    ∃ text changes index, TextBuffer.replace ⟨['a', '\r', '\n', 'b']⟩ ⟨2, 0⟩ "x" = .ok text ∧
      insertText text "x" 2 ((empty 12.0).rebuild ⟨['a', '\r', '\n', 'b']⟩) = .ok changes index ∧
      index.layout = [(0, 2, 1), (2, 2, 1), (4, 1, 0)] := by
  have start := Following.rebuild (empty 12.0) ⟨['a', '\r', '\n', 'b']⟩
  obtain ⟨-, -, -, -, inserts⟩ := start.agrees
  obtain ⟨text, changes, index, replaced, inserted, following⟩ :=
    inserts 2 "x" (by decide) (by decide)
  refine ⟨text, changes, index, replaced, inserted, ?_⟩
  obtain rfl : text = ⟨['a', '\r', 'x', '\n', 'b']⟩ :=
    Except.ok.inj (replaced.symm.trans (by rfl))
  exact (following.agrees.1 (empty 12.0)).trans (by rfl)

end LineIndex

end CodeEditor

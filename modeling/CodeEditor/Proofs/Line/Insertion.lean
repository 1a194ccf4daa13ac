import CodeEditor.Proofs.Line.Lengths

/-!
Following the insertion of a string.

An `InsertionPoint` is the state of the work: of the string only some units are left to insert, in
the middle of one line, the lines above are whole lines of the new text, and what stands behind the
point is what stood there before. Each delimiter of the string moves the point to a new line
(`breakLine_ok`), until no delimiter is left (`foldlM_breakLine_ok`) and the rest of the string goes
to the line of the point (`InsertionPoint.finish`).

The one line whose content is not free of CR and LF is that of an insertion between a CR and its LF
when the string starts with an LF, which takes the place of the other (`Resumes`).

`Progress` is what the changes tell on the way. Each delimiter ends a line and each line might be
folded into the one above, but behind a delimiter of the string nothing is folded
(`InsertionPoint.Fresh`), so that however long the string is, no slot is given back more than three
times.
-/

namespace CodeEditor

namespace LineIndex

open LineStore (Tracks Reaches Settled SameUnits)

/-- What is to come goes on from the content of a line: the content has no CR or LF, except for a CR
at its end that is completed at once. -/
def Resumes (content todo : List UInt16) : Prop :=
  NoBreak content ∨
    ∃ line, content = line ++ [carriageReturn] ∧ NoBreak line ∧ todo.head? = some lineFeed

/-- A place in the lines of an index at which some code units of the text are yet to be inserted. -/
structure InsertionPoint (text : TextBuffer) (index : LineIndex) (current : LineId) (offset : Nat)
    (todo : List UInt16) where
  above : List (LineId × LineMetrics)
  metrics : LineMetrics
  below : List (LineId × LineMetrics)
  /-- The text of the lines above. -/
  before : List UInt16
  /-- What the current line has in front of the point. -/
  content : List UInt16
  /-- What follows behind the point, in the line and below. -/
  rest : List UInt16
  /-- The length of what the line has behind the point. -/
  length : Nat
  delimiter : Nat
  valid : index.store.Valid
  lines : index.store.toList = above ++ (current, metrics) :: below
  closed : Closed (shapesOf above) before
  resumes : Resumes content todo
  total : metrics.totalLength = content.length + length
  start : before.length + content.length = offset
  behind : Lines (⟨length, delimiter⟩ :: shapesOf below) rest
  units : text.units = before ++ (content ++ (todo ++ rest))

variable {text : TextBuffer} {index : LineIndex} {current : LineId} {offset : Nat}
  {todo : List UInt16}

/-- The current line is empty in front of the point, and is not folded into the line above. -/
def InsertionPoint.Fresh (p : InsertionPoint text index current offset todo) : Prop :=
  p.content = [] ∧ ¬Joins p.before todo

/-- What the changes tell so far of the work that started with the lines of a store. -/
structure Progress (start : LineStore) (above below : List (LineId × LineMetrics)) (n : Nat)
    (changes : LineChanges) (p : InsertionPoint text index current offset todo) : Prop where
  tracks : Tracks index.estimatedHeight n start index.store changes
  reaches : Reaches changes above p.above
  below_eq : p.below = below

/-- What the changes tell of the work when it is done. -/
structure Followed (height : Float) (start : LineStore) (above below : List (LineId × LineMetrics))
    (n : Nat) (changes : LineChanges) (s : LineStore) : Prop where
  tracks : Tracks height n start s changes
  reaches : ∃ top, s.toList = top ++ below ∧ Reaches changes above top

variable {start : LineStore} {above₀ below₀ : List (LineId × LineMetrics)} {n k : Nat}
  {changes : LineChanges}

theorem Progress.mono {p : InsertionPoint text index current offset todo}
    (progress : Progress start above₀ below₀ n changes p) (le : n ≤ k) :
    Progress start above₀ below₀ k changes p :=
  { progress with tracks := progress.tracks.mono le }

/-- A line without CR and LF goes on with anything, and with text that has neither no other does. -/
theorem Resumes.noBreak {content : List UInt16} (h : Resumes content todo) (plain : NoBreak todo) :
    NoBreak content := by
  rcases h with h | ⟨line, -, -, feed⟩
  · exact h
  · exact absurd feed plain.head_ne

/-- Up to the first delimiter to come there is one line. -/
theorem Resumes.line {content plain delimiter rest : List UInt16}
    (h : Resumes content (plain ++ delimiter ++ rest)) (isPlain : NoBreak plain)
    (ends : IsDelimiter delimiter) (apart : ¬Joins delimiter rest) :
    ∃ line delimiter', content ++ (plain ++ delimiter) = line ++ delimiter' ∧ NoBreak line ∧
      IsDelimiter delimiter' ∧ ¬Joins delimiter' rest := by
  rcases h with h | ⟨line, rfl, isLine, feed⟩
  · exact ⟨content ++ plain, delimiter, by simp, noBreak_append.mpr ⟨h, isPlain⟩, ends, apart⟩
  · cases plain with
    | nil =>
        refine ⟨line, [carriageReturn, lineFeed], ?_, isLine, .inr (.inr rfl), ?_⟩
        · rcases ends with rfl | rfl | rfl
          · simp
          · simp [carriageReturn, lineFeed] at feed
          · simp [carriageReturn, lineFeed] at feed
        · simp [Joins, carriageReturn, lineFeed]
    | cons u plain => exact absurd feed (by simpa using isPlain.head_ne)

/-- What is left without a delimiter goes to the current line. -/
theorem InsertionPoint.finish (p : InsertionPoint text index current offset todo)
    (plain : NoBreak todo) (progress : Progress start above₀ below₀ n changes p)
    (few : n + 1 < UInt32.size) :
    ∃ other head s, setLength text current (p.metrics.totalLength + todo.length) index =
        .ok (other, head) { index with store := s } ∧
      Fits { index with store := s } text.units ∧
      Followed index.estimatedHeight start above₀ below₀ (n + 1) (changes.union other) s := by
  have content := p.resumes.noBreak plain
  have lines := p.behind.prepend (noBreak_append.mpr ⟨content, plain⟩)
  have len : p.metrics.totalLength + todo.length = (p.content ++ todo).length + p.length := by
    rw [p.total, List.length_append]
    omega
  obtain ⟨other, head, s, set', fits, tracks, settled⟩ :=
    setLength_lines p.valid p.lines p.closed lines (by rw [p.units]; simp)
  obtain ⟨top, whole, reaches⟩ := settled.exists_reaches
  rw [len]
  refine ⟨other, head, s, set', fits, progress.tracks.union tracks fits.valid few, top, ?_,
    progress.reaches.trans reaches⟩
  rw [whole, progress.below_eq]

/-- A line that has what stands behind the point is one to go on in. -/
theorem exists_point_of_line {above below : List (LineId × LineMetrics)} {m : LineMetrics}
    {before rest : List UInt16} {length delimiter : Nat} (valid : index.store.Valid)
    (lines : index.store.toList = above ++ (current, m) :: below)
    (closed : Closed (shapesOf above) before)
    (behind : Lines (⟨length, delimiter⟩ :: shapesOf below) rest) (here : before.length = offset)
    (more : todo ≠ []) (apart : ¬Joins before todo)
    (units : text.units = before ++ (todo ++ rest)) :
    ∃ s, setLength text current length index =
        .ok (LineChanges.none.markEdited current, current) { index with store := s } ∧
      Tracks index.estimatedHeight 0 index.store s (LineChanges.none.markEdited current) ∧
      ∃ p : InsertionPoint text { index with store := s } current offset todo,
        p.above = above ∧ p.below = below ∧ p.Fresh := by
  obtain ⟨u, todo, rfl⟩ := List.exists_cons_of_ne_nil more
  have room := behind.length_eq
  simp only [totalOf_cons] at room
  have chunk : ((u :: todo ++ rest).take length).length = length := by
    rw [List.length_take, List.length_append]
    omega
  have notFold : ¬((u :: todo ++ rest).take length = [lineFeed] ∧
      before.getLast? = some carriageReturn) := by
    rintro ⟨lone, isReturn⟩
    refine apart ⟨isReturn, ?_⟩
    cases length with
    | zero => simp at lone
    | succ k =>
        rw [List.cons_append, List.take_succ_cons] at lone
        rw [(List.cons.inj lone).1]
        rfl
  obtain ⟨s, m', set', valid', lines', total, -, tracks⟩ := @setLength_plain text index _ _ _ _ _ _
    ((u :: todo ++ rest).drop length) valid lines (by rw [closed.length_eq, totalOf_shapesOf])
    (by rw [List.take_append_drop]; exact units) notFold
  rw [chunk] at set' total
  refine ⟨s, set', tracks, {
    above := above, metrics := m', below := below, before := before, content := [], rest := rest
    length := length, delimiter := delimiter, valid := valid', lines := lines', closed := closed
    resumes := .inl ⟨by simp, by simp⟩, total := ?_, start := ?_, behind := behind
    units := by simpa using units }, rfl, rfl, rfl, apart⟩
  · rw [total, List.length_nil, Nat.zero_add]
  · rw [List.length_nil, Nat.add_zero, here]

/-- Breaking a line: it ends with the delimiter, and a new line behind it gets what stands behind
the point. -/
theorem breakLine_eq {location done : Nat} {plain delimiter : List UInt16}
    (p : InsertionPoint text index current (location + done) (plain ++ delimiter ++ todo))
    (isPlain : NoBreak plain) (ends : IsDelimiter delimiter) (apart : ¬Joins delimiter todo)
    (progress : Progress start above₀ below₀ n changes p) (folds : ¬p.Fresh → 1 ≤ k)
    (few : n + k < UInt32.size) :
    ∃ (other : LineChanges) (new : LineId) (s : LineStore) (above : List (LineId × LineMetrics))
      (before : List UInt16), s.Valid ∧ Tracks index.estimatedHeight (n + k) start s other ∧
      Reaches other above₀ above ∧
      s.toList = above ++ (new, .undelimited p.length index.estimatedHeight) :: p.below ∧
      Closed (shapesOf above) before ∧ ¬Joins before todo ∧
      before.length = location + (done + plain.length + delimiter.length) ∧
      text.units = before ++ (todo ++ p.rest) ∧
      insertText.breakLine text location (changes, current, done)
          ⟨done + plain.length, delimiter.length⟩ index =
        (setLength text new p.length >>= fun last =>
          pure (other.union last.1, last.2, done + plain.length + delimiter.length))
            { index with store := s } := by
  obtain ⟨line, delimiter', whole, isLine, ends', apart'⟩ := p.resumes.line isPlain ends apart
  obtain ⟨found, ok, here, metrics, location'⟩ := @existing_ok _ _ _ _ _ IndexM _ _ p.valid p.lines
  have top : p.before.length = found.location := by
    rw [p.closed.length_eq, totalOf_shapesOf, location']
  have here' := p.start
  have total := p.total
  have len := congrArg List.length whole
  simp only [List.length_append] at len
  have units : text.units = p.before ++ (line ++ delimiter' ++ (todo ++ p.rest)) := by
    rw [p.units, ← whole]
    simp
  obtain ⟨other, head, m₁, above₁, s₁, set₁, valid₁, lines₁, closed₁, marked, place, tracks,
    tracksFresh⟩ := setLength_closed p.valid p.lines p.closed isLine ends' units
  obtain ⟨new, s₂, inserted, valid₂, lines₂, tracks₂⟩ := insertLine_ok (valid₁.stored index)
    lines₁ p.length
  have told : Tracks index.estimatedHeight k index.store s₁ other := by
    by_cases fresh : p.Fresh
    · refine (tracksFresh fun joins => ?_).mono (Nat.zero_le k)
      obtain ⟨empty, notJoins⟩ := fresh
      rw [empty, List.nil_append] at whole
      rw [← whole] at joins
      exact notJoins ((joins_append_right (by simp [ends.ne_nil])).mpr joins)
    · exact tracks.mono (folds fresh)
  have tracks' := (progress.tracks.union told valid₁ few).markInserted tracks₂ valid₂ few
  have reaches :
      Reaches ((changes.union other).markInserted new) above₀ (above₁ ++ [(head, m₁)]) := by
    have pre : above₁ <+: p.above := by
      rcases place with rfl | ⟨q, split⟩
      · exact List.prefix_rfl
      · exact split ▸ List.prefix_append above₁ _
    refine Reaches.concat ((progress.reaches.take pre).mono fun id mark => ?_) ?_
    · exact LineChanges.marks_markInserted.mpr (.inl (LineChanges.marks_union.mpr (.inl mark)))
    · exact LineChanges.marks_markInserted.mpr (.inl (LineChanges.marks_union.mpr (.inr marked)))
  have lineBreak : Checked.sub (location + (done + plain.length + delimiter.length))
      found.location = some (line.length + delimiter'.length) :=
    Checked.sub_eq_some_iff.mpr (by omega)
  have behind : found.upperBound - (location + done) = p.length := by
    rw [Line.upperBound, Line.totalLength, metrics]
    omega
  refine ⟨(changes.union other).markInserted new, new, s₂, above₁ ++ [(head, m₁)],
    p.before ++ (line ++ delimiter'), valid₂, tracks', reaches, by simp [lines₂], closed₁, ?_, ?_,
    by simp [units], ?_⟩
  · rwa [← List.append_assoc, joins_append_left ends'.ne_nil]
  · simp only [List.length_append]
    omega
  · rw [insertText.breakLine, get_bind, ok, pure_bind]
    simp only [lineBreak, behind]
    rw [checked_bind, here, bind_ok set₁]
    dsimp only
    rw [bind_ok inserted]

/-- A delimiter of the string ends the current line; the point is in a new line from then on, or the
lines are those of the text if nothing is left to insert. -/
theorem breakLine_ok {location done : Nat} {plain delimiter : List UInt16}
    (p : InsertionPoint text index current (location + done) (plain ++ delimiter ++ todo))
    (isPlain : NoBreak plain) (ends : IsDelimiter delimiter) (apart : ¬Joins delimiter todo)
    (progress : Progress start above₀ below₀ n changes p) (folds : ¬p.Fresh → 1 ≤ k)
    (few : n + k + 1 < UInt32.size) :
    ∃ changes' current' s, insertText.breakLine text location (changes, current, done)
        ⟨done + plain.length, delimiter.length⟩ index =
        .ok (changes', current', done + plain.length + delimiter.length) { index with store := s } ∧
      (todo = [] ∧ Fits { index with store := s } text.units ∧
          Followed index.estimatedHeight start above₀ below₀ (n + k + 1) changes' s ∨
        todo ≠ [] ∧ ∃ p' : InsertionPoint text { index with store := s } current'
          (location + (done + plain.length + delimiter.length)) todo,
          p'.Fresh ∧ Progress start above₀ below₀ (n + k) changes' p') := by
  obtain ⟨other, new, s, above, before, valid, tracks, reaches, lines, closed, apart, length, units,
    run⟩ := breakLine_eq p isPlain ends apart progress folds (Nat.lt_of_succ_lt few)
  rw [run]
  cases todo with
  | nil =>
      obtain ⟨last, current', s', set', fits, tracks', settled⟩ :=
        setLength_lines (valid.stored index) lines closed p.behind units
      obtain ⟨top, whole, reaches'⟩ := settled.exists_reaches
      rw [bind_ok set']
      refine ⟨_, current', s', rfl, .inl ⟨rfl, fits, tracks.union tracks' fits.valid few, top, ?_,
        reaches.trans reaches'⟩⟩
      rw [whole, progress.below_eq]
  | cons u todo =>
      have more : u :: todo ≠ [] := List.cons_ne_nil u todo
      obtain ⟨s', set', tracks', p', above', below', fresh⟩ :=
        exists_point_of_line (valid.stored index) lines closed p.behind length more apart units
      rw [bind_ok set']
      refine ⟨_, new, s', rfl, .inr ⟨more, p', fresh, ?_, ?_, below'.trans progress.below_eq⟩⟩
      · exact tracks.union tracks' p'.valid (Nat.lt_of_succ_lt few)
      · rw [above']
        exact reaches.mono fun id mark => LineChanges.marks_union.mpr (.inl mark)

/-- All delimiters of the string end lines. After the last the lines are those of the text, if the
string ends with it, or else the point stands in front of what is left. -/
theorem foldlM_breakLine_ok {location done length : Nat} {newlines : List TextRange}
    (breaks : Breaks done todo newlines)
    (p : InsertionPoint text index current (location + done) todo) (more : todo ≠ [])
    (len : done + todo.length = length) (progress : Progress start above₀ below₀ n changes p)
    (folds : ¬p.Fresh → 1 ≤ k) (few : n + k + 1 < UInt32.size) :
    ∃ changes' current' done' s, newlines.foldlM (insertText.breakLine text location)
        (changes, current, done) index = .ok (changes', current', done') { index with store := s } ∧
      (done' = length ∧ Fits { index with store := s } text.units ∧
          Followed index.estimatedHeight start above₀ below₀ (n + k + 1) changes' s ∨
        ∃ todo', todo' ≠ [] ∧ NoBreak todo' ∧ done' + todo'.length = length ∧
          ∃ p' : InsertionPoint text { index with store := s } current' (location + done') todo',
            Progress start above₀ below₀ (n + k) changes' p') := by
  induction breaks generalizing index current changes n k with
  | @none done todo plain =>
      exact ⟨changes, current, done, index.store, rfl,
        .inr ⟨todo, more, plain, len, p, progress.mono (Nat.le_add_right n k)⟩⟩
  | @next done plain delimiter todo newlines isPlain ends apart breaks ih =>
      simp only [List.length_append] at len
      obtain ⟨changes₁, current₁, s₁, step, after⟩ :=
        breakLine_ok p isPlain ends apart progress folds few
      rw [List.foldlM_cons, bind_ok step]
      rcases after with ⟨rfl, fits, followed⟩ | ⟨more', p', fresh, progress'⟩
      · rw [breaks.eq_nil]
        exact ⟨changes₁, current₁, _, s₁, rfl,
          .inl ⟨by rw [← len, List.length_nil]; omega, fits, followed⟩⟩
      · obtain ⟨changes', current', done', s, loop, finished⟩ :=
          ih (k := 0) p' more' (by omega) progress' (fun stale => absurd fresh stale) few
        exact ⟨changes', current', done', s, loop, finished⟩

/-! ### Where the insertion starts -/

section

variable {above below : List (LineId × LineMetrics)} {before content rest : List UInt16}
  {line : Line} {location : Nat}

/-- In the content of a line the string is inserted right there. -/
theorem splitReturn_content (valid : index.store.Valid)
    (whole : index.store.toList = above ++ (line.id, line.metrics) :: below)
    (here : line.location = lengthOf above) (closed : Closed (shapesOf above) before)
    (lines : Lines (⟨line.metrics.totalLength, line.metrics.delimiterLength⟩ :: shapesOf below)
      (content ++ rest))
    (inside : content.length < line.metrics.totalLength ∨
      below = [] ∧ content.length = line.metrics.totalLength)
    (plain : NoBreak content) (start : before.length + content.length = location)
    (units : text.units = before ++ (content ++ (todo ++ rest))) :
    insertText.splitReturn text location line index = .ok (.none, line) index ∧
      ∃ p : InsertionPoint text index line.id location todo, p.metrics = line.metrics ∧
        Progress index.store above below 1 .none p := by
  have top : before.length = lengthOf above := by rw [closed.length_eq, totalOf_shapesOf]
  have notBetween : ¬line.contentEnd < location := by
    have inContent := (lines.content_le plain).1
    rw [Line.contentEnd, Line.contentLength, LineMetrics.contentLength]
    omega
  have inside : content.length < line.metrics.totalLength ∨
      shapesOf below = [] ∧ content.length ≤ line.metrics.totalLength := by
    rcases inside with inside | ⟨rfl, atEnd⟩
    · exact .inl inside
    · exact .inr ⟨rfl, Nat.le_of_eq atEnd⟩
  obtain ⟨delimiter, behind⟩ := lines.replace_front inside (show NoBreak [] from ⟨by simp, by simp⟩)
  rw [List.length_nil, Nat.zero_add, List.nil_append] at behind
  refine ⟨by rw [insertText.splitReturn, if_neg notBetween]; rfl, ⟨{
    above := above, metrics := line.metrics, below := below, before := before, content := content
    rest := rest, length := line.metrics.totalLength - content.length, delimiter := delimiter
    valid := valid, lines := whole, closed := closed, resumes := .inl plain, total := by omega
    start := start, behind := behind, units := units }, rfl,
    (Tracks.refl valid).mono (Nat.zero_le 1), .of_front List.prefix_rfl, rfl⟩⟩

/-- Between a CR and its LF the two are parted first: the LF gets a line of its own, or stays with
the line when the string starts with an LF as well. -/
theorem splitReturn_between (valid : index.store.Valid)
    (whole : index.store.toList = above ++ (line.id, line.metrics) :: below)
    (here : line.location = lengthOf above) (closed : Closed (shapesOf above) before)
    (plain : NoBreak content) (total : line.metrics.totalLength = content.length + 2)
    (delimiter : line.metrics.delimiterLength = 2) (lines : Lines (shapesOf below) rest)
    (start : before.length + content.length + 1 = location) (more : todo ≠ [])
    (units : text.units = before ++ (content ++ [carriageReturn] ++ (todo ++ lineFeed :: rest))) :
    ∃ changes line' s, insertText.splitReturn text location line index =
        .ok (changes, line') { index with store := s } ∧
      ∃ p : InsertionPoint text { index with store := s } line'.id location todo,
        p.metrics = line'.metrics ∧ Progress index.store above below 1 changes p := by
  have top : before.length = lengthOf above := by rw [closed.length_eq, totalOf_shapesOf]
  have between : line.contentEnd < location := by
    rw [Line.contentEnd, Line.contentLength, LineMetrics.contentLength]
    omega
  have shorter : Checked.sub line.totalLength 1 = some (content.length + 1) :=
    Checked.sub_eq_some_iff.mpr (by rw [Line.totalLength]; omega)
  obtain ⟨s₁, m₁, set₁, valid₁, whole₁, total₁, closed₁, apart, tracks₁⟩ :=
    setLength_return valid whole closed plain units
  obtain ⟨new, s₂, inserted, valid₂, whole₂, tracks₂⟩ := insertLine_ok (valid₁.stored index)
    whole₁ 1
  have tracks := tracks₁.markInserted tracks₂ valid₂ (by decide)
  have behind : Lines (⟨1, 1⟩ :: shapesOf below) (lineFeed :: rest) := by
    have lines := @Lines.cons [] [lineFeed] rest _ ⟨by simp, by simp⟩ (.inl rfl)
      (by simp [Joins, carriageReturn, lineFeed]) lines
    simpa using lines
  -- Both cases go on from the line that the LF has.
  have step : ∀ {changes₃ : LineChanges} {current : LineId} {s₃ : LineStore},
      setLength text new 1 { index with store := s₂ } =
        .ok (changes₃, current) { index with store := s₃ } →
      (p : InsertionPoint text { index with store := s₃ } current location todo) →
      Progress index.store above below 1
        (((LineChanges.none.markEdited line.id).markInserted new).union changes₃) p →
      ∃ changes line' s, insertText.splitReturn text location line index =
          .ok (changes, line') { index with store := s } ∧
        ∃ p : InsertionPoint text { index with store := s } line'.id location todo,
          p.metrics = line'.metrics ∧ Progress index.store above below 1 changes p := by
    intro changes₃ current s₃ set₃ p progress
    obtain ⟨line', found, rfl, metrics, -⟩ := @existing_ok { index with store := s₃ } _ _ _ _
      IndexM _ _ p.valid p.lines
    refine ⟨_, line', s₃, ?_, p, metrics.symm, progress⟩
    rw [insertText.splitReturn, if_pos between, shorter, checked_bind, bind_ok set₁]
    dsimp only
    rw [bind_ok inserted, bind_ok set₃]
    dsimp only
    rw [get_bind, found, pure_bind]
    rfl
  by_cases feed : todo.head? = some lineFeed
  · -- The LF of the string completes the CR.
    obtain ⟨todo, rfl⟩ := List.head?_eq_some_iff.mp feed
    obtain ⟨s₃, m₃, set₃, valid₃, whole₃, total₃, -, tracks₃⟩ := @setLength_fold text
      { index with store := s₂ } above below new _ before (content ++ [carriageReturn])
      (todo ++ lineFeed :: rest) line.id m₁ valid₂ whole₂ top (by simpa using total₁.symm)
      (by simp [units]) (by simp)
    exact step set₃ {
      above := above, metrics := m₃, below := below, before := before
      content := content ++ [carriageReturn], rest := lineFeed :: rest, length := 1, delimiter := 1
      valid := valid₃, lines := whole₃, closed := closed
      resumes := .inr ⟨content, rfl, plain, rfl⟩, total := by rw [total₃]
      start := by rw [List.length_append, List.length_singleton]; omega
      behind := behind, units := by simpa using units } {
      tracks := tracks.union tracks₃ valid₃ (by decide), reaches := .of_front List.prefix_rfl
      below_eq := rfl }
  · have whole₂' : s₂.toList = (above ++ [(line.id, m₁)]) ++
        (new, .undelimited 1 index.estimatedHeight) :: below := by
      simp [whole₂]
    have units' : text.units =
        (before ++ (content ++ [carriageReturn])) ++ (todo ++ lineFeed :: rest) := by
      simp [units]
    obtain ⟨s₃, set₃, tracks₃, p, above', below', -⟩ := exists_point_of_line (valid₂.stored index)
      whole₂' closed₁ behind (by simp only [List.length_append, List.length_singleton]; omega) more
      (fun joins => feed joins.2) units'
    refine step set₃ p ⟨(tracks.union tracks₃ p.valid (by decide)).mono (by decide), ?_, below'⟩
    rw [above']
    refine Reaches.concat (.of_front List.prefix_rfl) (LineChanges.marks_union.mpr (.inl ?_))
    exact LineChanges.marks_markInserted.mpr (.inl (LineChanges.marks_markEdited line.id))

/-! ### Every insertion -/

/-- In the line of its offset a string has a point where it can be inserted. -/
theorem splitReturn_ok {front : List UInt16} (fits : index.Fits (front ++ rest))
    (start : front.length = location) (more : todo ≠ [])
    (units : text.units = front ++ (todo ++ rest)) :
    ∃ line changes line' s above below, (index.lineAt location : IndexM Line) = pure line ∧
      insertText.splitReturn text location line index =
        .ok (changes, line') { index with store := s } ∧
      above <+: index.store.toList ∧ lengthOf above ≤ front.length ∧
      below <:+ index.store.toList ∧ lengthOf below ≤ rest.length ∧
      ∃ p : InsertionPoint text { index with store := s } line'.id location todo,
        p.metrics = line'.metrics ∧ Progress index.store above below 1 changes p := by
  obtain ⟨valid, lines⟩ := fits
  have total := lines.length_eq
  rw [totalOf_shapesOf, List.length_append] at total
  obtain ⟨above, m, below, line, found, whole, rfl, here, lower, upper⟩ :=
    @lineAt_ok _ IndexM _ _ valid location (by omega)
  rw [whole, shapesOf_append] at lines
  obtain ⟨before, behind, split, closed, lines, -⟩ := lines.split (List.cons_ne_nil _ _)
  have top : before.length = lengthOf above := by rw [closed.length_eq, totalOf_shapesOf]
  obtain ⟨content, rfl⟩ := List.prefix_of_prefix_length_le (List.prefix_append before behind)
    (split ▸ List.prefix_append front rest) (by omega)
  rw [List.append_assoc] at split
  obtain rfl := List.append_cancel_left split
  rw [List.length_append] at start
  rw [List.append_assoc] at units
  replace lines : Lines (⟨line.metrics.totalLength, line.metrics.delimiterLength⟩ :: shapesOf below)
    (content ++ rest) := lines
  have inside : content.length < line.metrics.totalLength ∨
      below = [] ∧ content.length = line.metrics.totalLength := by
    rcases upper with upper | ⟨last, atEnd⟩
    · exact .inl (by omega)
    · exact .inr ⟨last, by omega⟩
  have pre : above <+: index.store.toList := whole ▸ List.prefix_append above _
  have suf : below <:+ index.store.toList :=
    whole ▸ (List.suffix_cons _ below).trans (List.suffix_append above _)
  have lengthAbove : lengthOf above ≤ (before ++ content).length := by
    rw [List.length_append]
    omega
  have lengthBelow : lengthOf below ≤ rest.length := by
    rw [whole, lengthOf_append, lengthOf_cons, List.length_append] at total
    dsimp only at total
    omega
  by_cases plain : NoBreak content
  · obtain ⟨same, p, metrics, progress⟩ :=
      splitReturn_content valid whole here closed lines inside plain start units
    exact ⟨line, .none, line, index.store, above, below, found, same, pre, lengthAbove, suf,
      lengthBelow, p, metrics, progress⟩
  · have inside : content.length < line.metrics.totalLength := by
      rcases inside with inside | ⟨rfl, atEnd⟩
      · exact inside
      · exact absurd (noBreak_append.mp lines.noBreak_of_single).1 plain
    obtain ⟨content, behind, rfl, rfl, ends, delimiter, plain, lines⟩ := lines.parted inside plain
    rw [List.length_append, List.length_singleton, ← Nat.add_assoc] at start
    obtain ⟨changes, line', s, split, p⟩ :=
      splitReturn_between valid whole here closed plain ends delimiter lines start more units
    exact ⟨line, changes, line', s, above, below, found, split, pre, lengthAbove, suf,
      lengthBelow, p⟩

end

/-- Following an insertion gives the lines of the new text, and the changes tell what became of the
old ones. -/
theorem insertText_ok {inserted : String} {location : Nat} {front rest : List UInt16}
    (fits : index.Fits (front ++ rest)) (here : front.length = location)
    (units : text.units = front ++ (Utf16.encode inserted.toList ++ rest)) :
    ∃ changes s, insertText text inserted location index = .ok changes { index with store := s } ∧
      Fits { index with store := s } text.units ∧
      Tracks index.estimatedHeight 3 index.store s changes ∧
      SameUnits changes index.store.toList (front ++ rest) s.toList text.units := by
  rw [insertText]
  split
  · next empty =>
      have nothing : inserted.toList = [] := by simpa using empty
      rw [nothing, Utf16.encode_nil, List.nil_append] at units
      rw [← units] at fits ⊢
      exact ⟨.none, index.store, rfl, fits, (Tracks.refl fits.valid).mono (by decide),
        .refl fits.valid.distinct _ _⟩
  · next notEmpty =>
      have more : Utf16.encode inserted.toList ≠ [] := by
        intro nothing
        have len := Utf16.length_encode inserted.toList
        rw [nothing] at len
        have empty := Utf16.length_eq_zero len.symm
        exact notEmpty (by simpa using empty)
      obtain ⟨line, changes, line', s₀, above, below, found, split, pre, lengthAbove, suf,
        lengthBelow, p, metrics, progress⟩ := splitReturn_ok fits here more units
      have total := fits.lines.length_eq
      rw [totalOf_shapesOf] at total
      -- What is left to show when the work is done.
      have finished : ∀ {changes : LineChanges} {s : LineStore},
          Fits { index with store := s } text.units →
          Followed index.estimatedHeight index.store above below 3 changes s →
          Tracks index.estimatedHeight 3 index.store s changes ∧
            SameUnits changes index.store.toList (front ++ rest) s.toList text.units := by
        intro changes s fits' followed
        obtain ⟨tracks, top, whole, reaches⟩ := followed
        have total' := fits'.lines.length_eq
        rw [totalOf_shapesOf] at total'
        have untouched := reaches.local pre lengthAbove suf lengthBelow
        rw [← whole] at untouched
        exact ⟨tracks, untouched.sameUnits fits.valid.distinct fits'.valid.distinct
          (show front ++ rest = front ++ ([] ++ rest) from rfl) units total.symm total'.symm⟩
      have breaks := breaks_delimiters inserted.toList
      have len := Utf16.length_encode inserted.toList
      rw [get_bind, found, pure_bind, bind_ok split]
      dsimp only
      cases newlines : delimiters inserted.toList with
      | nil =>
          rw [newlines] at breaks
          obtain ⟨other, head, s, set', fits', followed⟩ :=
            p.finish breaks.noBreak (progress.mono (Nat.le_succ 1)) (by decide)
          rw [metrics, len] at set'
          dsimp only
          rw [Line.totalLength, bind_ok set']
          exact ⟨_, s, rfl, fits', finished fits' followed⟩
      | cons newline newlines' =>
          rw [newlines] at breaks
          obtain ⟨changes', current, done, s₁, loop, after⟩ := foldlM_breakLine_ok (k := 1) breaks
            p more (Nat.zero_add _) progress (fun _ => Nat.le_refl 1) (by decide)
          dsimp only
          rw [bind_ok loop]
          dsimp only
          rcases after with ⟨rfl, fits', followed⟩ | ⟨todo, more', plain, left, p', progress'⟩
          · rw [if_pos len]
            exact ⟨changes', s₁, rfl, fits', finished fits' followed⟩
          · have unfinished : done ≠ Utf16.length inserted.toList := by
              have := List.length_pos_iff.mpr more'
              omega
            obtain ⟨line₁, found₁, here₁, metrics₁, -⟩ :=
              @existing_ok _ _ _ _ _ IndexM _ _ p'.valid p'.lines
            obtain ⟨other, head, s, set', fits', followed⟩ := p'.finish plain progress' (by decide)
            have rest' : Checked.sub (line₁.totalLength + Utf16.length inserted.toList) done =
                some (p'.metrics.totalLength + todo.length) :=
              Checked.sub_eq_some_iff.mpr (by rw [Line.totalLength, metrics₁]; omega)
            rw [if_neg unfinished, get_bind, found₁, pure_bind, rest', checked_bind, bind_ok set']
            exact ⟨_, s, rfl, fits', finished fits' followed⟩

end LineIndex

end CodeEditor

import CodeEditor.Text.Buffer
import CodeEditor.Line.Store
import CodeEditor.Line.Changes
import CodeEditor.Line.Position
import CodeEditor.Line.Delimiter

/-!
The index of a document's lines.

A `LineIndex` relates offsets, rows and lines of a text that it does not hold. `LineIndex.rebuild`
reads all lines off the text; `removeCharacters` and `insertText` follow an edit, once the text has
been changed, by correcting the lengths of the lines around it. They do so line by line, since lines
that stay must keep their identity, and the hard cases are all about CRLF: an edit may part the two,
or bring a CR and an LF together so that two lines become one.

`lines` is the list of lines that all the look-ups agree with.
-/

namespace CodeEditor

/-- A line as it stands at one moment. -/
structure Line where
  id : LineId
  row : Nat
  /-- The offset of the first code unit. -/
  location : Nat
  metrics : LineMetrics
  /-- The total height of the lines above. -/
  yPosition : Float

namespace Line

def totalLength (l : Line) : Nat := l.metrics.totalLength

def delimiterLength (l : Line) : Nat := l.metrics.delimiterLength

/-- The length without the delimiter. -/
def contentLength (l : Line) : Nat := l.metrics.contentLength

def height (l : Line) : Float := l.metrics.height

/-- The offset behind the content, where the delimiter begins. -/
def contentEnd (l : Line) : Nat := l.location + l.contentLength

/-- The offset behind the line. -/
def upperBound (l : Line) : Nat := l.location + l.totalLength

/-- The line with its delimiter. -/
def range (l : Line) : TextRange := ⟨l.location, l.totalLength⟩

/-- The line without its delimiter. -/
def contentRange (l : Line) : TextRange := ⟨l.location, l.contentLength⟩

/-- The delimiter. -/
def delimiterRange (l : Line) : TextRange := ⟨l.contentEnd, l.delimiterLength⟩

/-- The line with its delimiter, in bytes. -/
def byteRange (l : Line) : ByteRange := l.range.toBytes

end Line

/-- The lines of a text. -/
structure LineIndex where
  store : LineStore
  /-- The height of lines that have not been measured. -/
  estimatedHeight : Float
  /-- The longest line that the last rebuild found. -/
  longestAtRebuild : Option LineId

/-- The height of a line when nothing else is known. -/
def defaultLineHeight : Float := 12.0

/-- A change of a line index. Where it stops, the index keeps what was done so far. -/
abbrev IndexM (α : Type) : Type := EStateM Failure LineIndex α

namespace LineIndex

/-- An index with a single empty line. -/
def empty (height : Float) : LineIndex where
  store := .single (.undelimited 0 height)
  estimatedHeight := height
  longestAtRebuild := none

/-- The first of the longest entries. -/
def longestEntry (entries : List (LineId × LineMetrics)) : Option (LineId × LineMetrics) :=
  entries.foldl (fun best entry =>
    match best with
    | none => some entry
    | some (_, m) => if m.totalLength < entry.2.totalLength then some entry else best) none

/-- Drop all lines and read them anew off the text. -/
def rebuild (index : LineIndex) (text : TextBuffer) : LineIndex :=
  let lines := (lineLengths text.chars).map fun (content, delimiter) =>
    LineMetrics.mk (content + delimiter) delimiter index.estimatedHeight
  let store := index.store.rebuild lines
  { index with store, longestAtRebuild := (longestEntry store.toList).map (·.1) }

/-! ### Looking up -/

def lineCount (index : LineIndex) : Nat := index.store.count

/-- The length of the text, which is the sum of the lengths of its lines. -/
def totalLength (index : LineIndex) : Nat := index.store.totalLength

/-- The sum of the heights of all lines. -/
def contentHeight (index : LineIndex) : Float := index.store.totalHeight

/-- The lines from top to bottom. -/
def lines (index : LineIndex) : List Line :=
  let rec go (row location : Nat) (y : Float) : List (LineId × LineMetrics) → List Line
    | [] => []
    | (id, m) :: rest =>
        ⟨id, row, location, m, y⟩ :: go (row + 1) (location + m.totalLength) (y + m.height) rest
  go 0 0 0.0 index.store.toList

/-- A line, unless it is gone. -/
def line? (index : LineIndex) (id : LineId) : Option Line :=
  (index.store.locate id).map fun place =>
    ⟨id, place.row, place.location, place.cell.metrics, place.yPosition⟩

def firstLine? (index : LineIndex) : Option Line := index.store.first?.bind index.line?

def lastLine? (index : LineIndex) : Option Line := index.store.last?.bind index.line?

/-- The line below a line. -/
def nextLine? (index : LineIndex) (id : LineId) : Option Line :=
  (index.store.next? id).bind index.line?

/-- The line above a line. -/
def previousLine? (index : LineIndex) (id : LineId) : Option Line :=
  (index.store.previous? id).bind index.line?

/-- The longest line of the last rebuild, unless it is gone. Edits do not change which it is. -/
def longestLine? (index : LineIndex) : Option Line := index.longestAtRebuild.bind index.line?

/-- The line that contains a vertical position. -/
def lineAtY? (index : LineIndex) (y : Float) : Option Line :=
  (index.store.containingY? y).bind index.line?

section

variable {m : Type → Type} [Monad m] [MonadExceptOf Failure m]

/-- A line that must still be there. -/
def existing (index : LineIndex) (id : LineId) : m Line :=
  match index.line? id with
  | some line => pure line
  | none => reject (.staleLine id)

/-- The line that contains an offset. The end of the text belongs to the last line. -/
def lineAt (index : LineIndex) (offset : Nat) : m Line :=
  match index.store.containing? offset with
  | some id => index.existing id
  | none => reject (.offsetOutOfBounds offset index.totalLength)

/-- The line of a row. -/
def lineAtRow (index : LineIndex) (row : Nat) : m Line :=
  match index.store.atRow? row with
  | some id => index.existing id
  | none => reject (.rowOutOfBounds row index.lineCount)

/-- The line that contains a byte. -/
def lineAtByte (index : LineIndex) (byte : Nat) : m Line := index.lineAt (unitsOfBytes byte)

/-- The row and column of an offset. -/
def positionAt (index : LineIndex) (offset : Nat) : m LinePosition := do
  let line ← index.lineAt offset
  let column ← checked (Checked.sub offset line.location)
  return ⟨line.row, column⟩

/-- The offset of a row and column. A column beyond the line stands for its end. -/
def offsetAt (index : LineIndex) (position : LinePosition) : m Nat := do
  let line ← index.lineAtRow position.row
  return line.location + min position.column line.totalLength

/-- The lines that hold the first code unit of a range and its end. -/
def startAndEndLine (index : LineIndex) (r : TextRange) : m (Line × Line) := do
  let start ← index.lineAt r.location
  if r.isEmpty then return (start, start)
  else
    let upper ← checked r.upperBound
    return (start, ← index.lineAt upper)

end

/-- The lines below a line down to another one, or to the last line if that does not follow. No more
than `count` lines are visited. -/
def linesBelow (index : LineIndex) (stop : LineId) : Nat → Line → List Line
  | 0, _ => []
  | count + 1, line =>
      if line.id = stop then []
      else
        match index.nextLine? line.id with
        | none => []
        | some next => next :: index.linesBelow stop count next

/-- The lines that a range touches, from top to bottom. -/
def linesIn (index : LineIndex) (r : TextRange) : Outcome (List Line) := do
  let (start, stop) ← index.startAndEndLine r
  return start :: index.linesBelow stop.id index.lineCount start

/-- Set the measured height of a line. Says whether it changed. -/
def setHeight (id : LineId) (height : Float) : IndexM Bool := do
  let index ← get
  match index.store.metrics? id with
  | none => reject (.staleLine id)
  | some m =>
      if (m.height - height).abs < heightTolerance then return false
      else
        match index.store.update? id fun m => { m with height } with
        | none => reject (.staleLine id)
        | some store =>
            set { index with store }
            return true
where
  /-- Heights that differ by less count as equal: the distance from 1 to the next number. -/
  heightTolerance : Float := Float.ofBits 0x3CB0000000000000

/-! ### Following edits -/

/-- Put a line of a given length behind a line. Its delimiter is not known yet. -/
def insertLine (after : LineId) (length : Nat) : IndexM LineId := do
  let index ← get
  let metrics := .undelimited length index.estimatedHeight
  match index.store.insertAfter? after metrics with
  | none => reject (.staleLine after)
  | some (id, store) =>
      set { index with store }
      return id

/-- Take out a line. -/
def eraseLine (id : LineId) : IndexM Unit :=
  modify fun index => { index with store := (index.store.erase? id).getD index.store }

/-- What the text says about the end of a line. -/
inductive LineEnd where
  /-- The line ends in a delimiter of the given length, or in none. -/
  | delimiter (units : Nat)
  /-- The line is a lone LF and completes the CR in front of it. -/
  | completesReturn

/-- How a line of the given place and length ends. -/
def lineEnd (text : TextBuffer) (location : Nat) : Nat → LineEnd
  | 0 => .delimiter 0
  | n + 1 =>
      match text.unitAt (location + n) with
      | none => .delimiter 0
      | some u =>
          if u = carriageReturn then .delimiter 1
          else if u = lineFeed then
            if 1 ≤ n ∧ text.unitAt (location + n - 1) = some carriageReturn then .delimiter 2
            else if n = 0 ∧ 0 < location ∧ text.unitAt (location - 1) = some carriageReturn then
              .completesReturn
            else .delimiter 1
          else .delimiter 0

/-- The work of `setLength` within a number of lines, each of which may be folded into the one
above. -/
def setLengthWithin (text : TextBuffer) : Nat → LineId → Nat → IndexM (LineChanges × LineId)
  | 0, line, _ => reject (.staleLine line)
  | count + 1, line, length => do
      let index ← get
      match index.store.locate line with
      | none => reject (.staleLine line)
      | some place =>
          match lineEnd text place.location length with
          | .delimiter units =>
              let store := index.store.update? line fun m =>
                { m with totalLength := length, delimiterLength := units }
              set { index with store := store.getD index.store }
              return (LineChanges.none.markEdited line, line)
          | .completesReturn =>
              match place.previous? with
              | none => reject (.staleLine line)
              | some previous =>
                  match index.store.metrics? previous with
                  | none => reject (.staleLine previous)
                  | some m =>
                      let changes := (LineChanges.none.markEdited line).markRemoved line
                      eraseLine line
                      let (other, merged) ← setLengthWithin text count previous (m.totalLength + 1)
                      return (changes.union other, merged)

/-- Set the length of a line and read its delimiter off the text. A line that is left with a lone LF
behind a CR is folded into the line above; the line that holds the content is returned. -/
def setLength (text : TextBuffer) (line : LineId) (length : Nat) :
    IndexM (LineChanges × LineId) := do
  setLengthWithin text (← get).lineCount line length

/-- Follow the removal of `length` code units at `location`, which the text already lacks. -/
def removeCharactersAt (text : TextBuffer) (location : Nat) : Nat → IndexM LineChanges
  | 0 => return .none
  | n + 1 => do
      let range : TextRange := ⟨location, n + 1⟩
      let total := (← get).totalLength
      let upper ← checked range.upperBound
      if total < upper then reject (.rangeOutOfBounds location (n + 1) total)
      else
        let start ← (← get).lineAt location
        if start.contentEnd < location then
          -- The removal starts between the CR and the LF of a delimiter.
          let shorter ← checked (Checked.sub start.totalLength 1)
          let (changes, _) ← setLength text start.id shorter
          completeReturn start.id (changes.union (← removeCharactersAt text location n))
        else if upper < start.upperBound then
          -- The removal stays within the line.
          let rest ← checked (Checked.sub start.totalLength (n + 1))
          return (← setLength text start.id rest).1
        else
          let stop ← (← get).lineAt upper
          if stop.id = start.id then
            let rest ← checked (Checked.sub start.totalLength (n + 1))
            return (← setLength text start.id rest).1
          else
            -- The line loses its delimiter and takes over what is left of the last line touched.
            let removedHere ← checked (Checked.sub start.upperBound location)
            let leftThere ← checked (Checked.sub stop.upperBound upper)
            let changes ← removeLinesTo start.id stop.id (← get).lineCount .none
            let kept ← checked (Checked.sub start.totalLength removedHere)
            let (other, _) ← setLength text start.id (kept + leftThere)
            return changes.union other
where
  /-- Where a line ends in a lone CR, an LF that is all of the next line completes it. -/
  completeReturn (line : LineId) (changes : LineChanges) : IndexM LineChanges := do
    match (← get).store.next? line with
    | none => return changes
    | some next =>
        let nextLine ← (← get).existing next
        if nextLine.totalLength = 1 ∧ text.unitAt nextLine.location = some lineFeed then
          let (other, _) ← setLength text next 1
          return changes.union other
        else return changes
  /-- Take out the lines behind `start` up to and including `stop`, one after the other. No more
  than the given number of lines are taken out. -/
  removeLinesTo (start stop : LineId) : Nat → LineChanges → IndexM LineChanges
    | 0, _ => reject (.staleLine stop)
    | count + 1, changes => do
        match (← get).store.next? start with
        | none => reject (.staleLine stop)
        | some next =>
            eraseLine next
            let changes := changes.markRemoved next
            if next = stop then return changes else removeLinesTo start stop count changes

/-- Follow the removal of a range, which the text already lacks. -/
def removeCharacters (text : TextBuffer) (r : TextRange) : IndexM LineChanges :=
  removeCharactersAt text r.location r.length

/-- Follow the insertion of a string at an offset, which the text already has. -/
def insertText (text : TextBuffer) (inserted : String) (location : Nat) : IndexM LineChanges := do
  if inserted.isEmpty then return .none
  else
    let line ← (← get).lineAt location
    let (changes, line) ← splitReturn line
    let inserted := inserted.toList
    let length := Utf16.length inserted
    match delimiters inserted with
    | [] =>
        let (other, _) ← setLength text line.id (line.totalLength + length)
        return changes.union other
    | newlines =>
        let (changes, current, done) ← newlines.foldlM breakLine (changes, line.id, 0)
        if done = length then return changes
        else
          let line ← (← get).existing current
          let rest ← checked (Checked.sub (line.totalLength + length) done)
          let (other, _) ← setLength text current rest
          return changes.union other
where
  /-- Inserting between the CR and the LF of a delimiter makes two lines of it first. -/
  splitReturn (line : Line) : IndexM (LineChanges × Line) := do
    if line.contentEnd < location then
      let shorter ← checked (Checked.sub line.totalLength 1)
      let (changes, _) ← setLength text line.id shorter
      let new ← insertLine line.id 1
      let changes := changes.markInserted new
      let (other, current) ← setLength text new 1
      return (changes.union other, ← (← get).existing current)
    else return (.none, line)
  /-- End the current line behind a delimiter of the inserted string; what stood behind the
  insertion so far goes to a new line. The state has the changes so far, the current line and the
  end of the delimiter before. -/
  breakLine : LineChanges × LineId × Nat → TextRange → IndexM (LineChanges × LineId × Nat)
    | (changes, current, done), newline => do
        let line ← (← get).existing current
        let lineBreak := location + (newline.location + newline.length)
        let behind := line.upperBound - (location + done)
        let length ← checked (Checked.sub lineBreak line.location)
        let (other, head) ← setLength text line.id length
        let changes := changes.union other
        let new ← insertLine head behind
        let changes := changes.markInserted new
        let (other, current) ← setLength text new behind
        return (changes.union other, current, newline.location + newline.length)

end LineIndex

end CodeEditor

import CodeEditor.Line.Indent
import CodeEditor.Proofs.Line.Scanning

/-!
How wide indentation is.

`columns` counts what `widthFrom` counts, without a bound. It adds up over the blanks in front
(`columns_append`) and stops at anything else, so what indents by some levels is as wide as these
levels (`columns_mark`), and a line that starts with it and goes on with no blank is indented by as
many (`Fits.level_behind`).
-/

namespace CodeEditor

namespace Indent

variable {tabLength : Nat} {us blanks : List UInt16}

/-- The columns of the spaces and tabs that a sequence starts with. -/
def columns (tabLength : Nat) : List UInt16 → Nat
  | [] => 0
  | u :: rest =>
      if u = space then columns tabLength rest + 1
      else if u = tab then columns tabLength rest + tabLength
      else 0

/-- A code unit indents. -/
def Blank (u : UInt16) : Prop := u = space ∨ u = tab

theorem noBreak_of_blank (blank : ∀ u ∈ us, Blank u) : NoBreak us :=
  ⟨fun mem => (blank _ mem).elim (by decide) (by decide),
    fun mem => (blank _ mem).elim (by decide) (by decide)⟩

theorem widthFrom_eq {width : Nat} (word : width + columns tabLength us < wordLimit) :
    widthFrom tabLength width us = some (width + columns tabLength us) := by
  induction us generalizing width with
  | nil => rfl
  | cons u us ih =>
      have step : ∀ {n}, width + (columns tabLength us + n) < wordLimit →
          (Checked.add width n).bind (widthFrom tabLength · us) =
            some (width + (columns tabLength us + n)) := by
        intro n word
        rw [Checked.add_eq_some_iff.mpr ⟨rfl, by omega⟩, Option.bind_some, ih (by omega)]
        congr 1
        omega
      rw [columns] at word ⊢
      rw [widthFrom]
      by_cases isSpace : u = space
      · simp only [if_pos isSpace] at word ⊢
        exact step word
      · by_cases isTab : u = tab
        · simp only [if_neg isSpace, if_pos isTab] at word ⊢
          exact step word
        · simp only [if_neg isSpace, if_neg isTab]
          rfl

/-- No unit is wider than a tab. -/
theorem columns_le (pos : 0 < tabLength) (us : List UInt16) :
    columns tabLength us ≤ us.length * tabLength := by
  induction us with
  | nil => exact Nat.zero_le _
  | cons u us ih =>
      rw [columns, List.length_cons, Nat.succ_mul]
      split
      · omega
      · split <;> omega

theorem columns_append (blank : ∀ u ∈ blanks, Blank u) (us : List UInt16) :
    columns tabLength (blanks ++ us) = columns tabLength blanks + columns tabLength us := by
  induction blanks with
  | nil => simp [columns]
  | cons u blanks ih =>
      obtain ⟨here, there⟩ := List.forall_mem_cons.mp blank
      rw [List.cons_append, columns, columns, ih there]
      rcases here with rfl | rfl
      · simp only [if_true]
        omega
      · have apart : tab ≠ space := by decide
        simp only [if_neg apart, if_true]
        omega

theorem columns_eq_zero (other : ∀ u, us.head? = some u → ¬Blank u) : columns tabLength us = 0 := by
  cases us with
  | nil => rfl
  | cons u us =>
      obtain ⟨noSpace, noTab⟩ := not_or.mp (other u rfl)
      rw [columns, if_neg noSpace, if_neg noTab]

theorem columns_replicate {u : UInt16} {width : Nat}
    (wide : ∀ us, columns tabLength (u :: us) = columns tabLength us + width) (n : Nat) :
    columns tabLength (List.replicate n u) = n * width := by
  induction n with
  | zero => rw [Nat.zero_mul]; rfl
  | succ n ih => rw [List.replicate_succ, wide, ih, Nat.succ_mul]

theorem level_congr {text : TextBuffer} {line line' : Line} (same : line'.spot = line.spot)
    (tabLength : Nat) : level text line' tabLength = level text line tabLength := by
  obtain ⟨-, -, location, metrics⟩ := Line.spot_inj same
  rw [level, level, width, width, contentUnits, contentUnits, Line.contentLength,
    Line.contentLength, location, metrics]

/-- The level of a line, if its columns can be counted. -/
theorem level_eq {text : TextBuffer} {line : Line}
    (word : 0 < tabLength → columns tabLength (contentUnits text line) < wordLimit) :
    level text line tabLength = some (columns tabLength (contentUnits text line) / tabLength) := by
  rw [level]
  split
  · next zero => rw [zero, Nat.div_zero]
  · next pos =>
      have word := word (Nat.pos_of_ne_zero pos)
      rw [width, widthFrom_eq (by omega), Option.map_some, Nat.zero_add]

/-- The columns of a line can be counted if it could be full of tabs. -/
theorem columns_lt {text : TextBuffer} {line : Line}
    (word : line.contentLength * tabLength < wordLimit)
    (pos : 0 < tabLength) : columns tabLength (contentUnits text line) < wordLimit := by
  refine Nat.lt_of_le_of_lt (columns_le pos _)
    (Nat.lt_of_le_of_lt (Nat.mul_le_mul_right _ ?_) word)
  rw [contentUnits, TextBuffer.chunk_eq]
  exact List.length_take_le _ _

end Indent

namespace IndentStrategy

/-- The character that indents. -/
def mark : IndentStrategy → Char
  | .tab _ => '\t'
  | .space _ => ' '

/-- How often it stands for a number of levels. -/
def count : IndentStrategy → Nat → Nat
  | .tab _, level => level
  | .space length, level => length * level

variable (s : IndentStrategy) (level : Nat)

/-- The text that indents is the mark as often as needed, unless that is too long for a text. -/
theorem indentString_eq : s.indentString level =
    if s.count level < textLimit then some (String.ofList (List.replicate (s.count level) s.mark))
    else none := by
  cases s with
  | tab length => rfl
  | space length =>
      rw [indentString, count, mark]
      by_cases word : length * level < wordLimit
      · rw [Checked.mul_eq_some_iff.mpr ⟨rfl, word⟩]
        rfl
      · have long : ¬length * level < textLimit := by
          unfold textLimit
          omega
        rw [Checked.mul, if_neg word, if_neg long]
        rfl

theorem indentString_eq_none_iff : s.indentString level = none ↔ textLimit ≤ s.count level := by
  rw [indentString_eq]
  split <;> simp <;> omega

/-- The code unit of the mark. -/
def markUnit : IndentStrategy → UInt16
  | .tab _ => Indent.tab
  | .space _ => Indent.space

theorem encode_indentString {indent : String} (made : s.indentString level = some indent) :
    Utf16.encode indent.toList = List.replicate (s.count level) s.markUnit := by
  rw [indentString_eq] at made
  split at made
  · obtain rfl := Option.some.inj made
    have unit : Utf16.units s.mark = [s.markUnit] := by
      cases s <;> rfl
    rw [String.toList_ofList]
    generalize s.count level = n
    induction n with
    | zero => rfl
    | succ n ih => rw [List.replicate_succ, Utf16.encode_cons, unit, ih, List.replicate_succ]; rfl
  · cases made

theorem blank_of_mem {u : UInt16} {n : Nat} (mem : u ∈ List.replicate n s.markUnit) :
    Indent.Blank u := by
  obtain rfl := List.eq_of_mem_replicate mem
  cases s with
  | tab => exact .inr rfl
  | space => exact .inl rfl

/-- What indents by some levels is as wide as these. -/
theorem columns_mark :
    Indent.columns s.tabLength (List.replicate (s.count level) s.markUnit) =
      level * s.tabLength := by
  cases s with
  | tab length => exact Indent.columns_replicate (fun _ => rfl) level
  | space length =>
      rw [Nat.mul_comm]
      exact (Indent.columns_replicate (fun _ => rfl) _).trans (Nat.mul_one _)

end IndentStrategy

/-- The first unit of a delimiter is none of content. -/
theorem IsDelimiter.head_not_mem {u : UInt16} {us content : List UInt16}
    (ends : IsDelimiter (u :: us))
    (plain : NoBreak content) : u ∉ content := by
  intro mem
  rcases ends with first | first | first
  · exact plain.2 ((List.cons.inj first).1 ▸ mem)
  · exact plain.1 ((List.cons.inj first).1 ▸ mem)
  · exact plain.1 ((List.cons.inj first).1 ▸ mem)

/-- What has no break in it is content of a line that starts with it and is as long. -/
theorem Line.Reads.le_contentLength {text : TextBuffer} {line : Line}
    {before content rest : List UInt16}
    (reads : line.Reads text) (units : text.units = before ++ (content ++ rest))
    (location : line.location = before.length) (plain : NoBreak content)
    (reaches : content.length ≤ line.totalLength) : content.length ≤ line.contentLength := by
  refine Nat.le_of_not_lt fun short => ?_
  -- Otherwise the delimiter would start within.
  have sum : line.contentLength + line.delimiterLength = line.totalLength :=
    Nat.sub_add_cancel reads.delimiter_le
  have delimited : line.delimiterLength ≠ 0 := by omega
  have ends := reads.delimiter delimited
  obtain ⟨n, length⟩ := Nat.exists_eq_succ_of_ne_zero delimited
  rw [Line.contentEnd, location, ← List.drop_drop, units, List.drop_left,
    List.drop_append_of_le_length (Nat.le_of_lt short), List.drop_eq_getElem_cons short, length,
    List.cons_append, List.take_succ_cons] at ends
  exact ends.head_not_mem plain (List.getElem_mem short)

namespace LineIndex

variable {index : LineIndex} {text : TextBuffer} {before content rest : List UInt16}

/-- The line of an offset starts as far in front of it as the column counted through the text. -/
theorem Fits.location_add_column {line : Line} {offset : Nat} (fits : index.Fits text.units)
    (inside : offset ≤ text.length) (here : (index.lineAt offset : Outcome Line) = .ok line)
    (lower : line.location ≤ offset) : line.location + (text.position offset).column = offset := by
  have counted := @Fits.positionAt_eq Outcome _ _ _ _ _ fits _ inside
  have column : Checked.sub offset line.location = some (offset - line.location) :=
    Checked.sub_eq_some_iff.mpr (Nat.add_sub_of_le lower).symm
  rw [positionAt, here] at counted
  change (checked (Checked.sub offset line.location) >>= fun column => .ok ⟨line.row, column⟩) =
    Except.ok (text.position offset) at counted
  rw [column] at counted
  rw [← Except.ok.inj counted]
  exact Nat.add_sub_of_le lower

/-- Behind an LF a line starts, and it holds whatever has no break in it. -/
theorem Fits.lineAt_behind (fits : index.Fits text.units)
    (units : text.units = before ++ lineFeed :: (content ++ rest)) (plain : NoBreak content) :
    ∃ line, (index.lineAt (before.length + 1 + content.length) : Outcome Line) = .ok line ∧
      line.location = before.length + 1 ∧ content.length ≤ line.contentLength := by
  have whole : before.length + 1 + content.length ≤ text.length := by
    rw [← TextBuffer.length_units, units]
    simp only [List.length_append, List.length_cons]
    omega
  obtain ⟨i, line, found, holds, here, spot⟩ :=
    @lineAt_spot index Outcome _ _ fits.valid _ (fits.totalLength_text ▸ whole)
  obtain ⟨-, -, sameLocation, sameMetrics⟩ := Line.spot_inj spot
  have position : text.position (before.length + 1 + content.length) =
      ⟨(text.position before.length).row + 1, content.length⟩ := by
    rw [TextBuffer.position, TextBuffer.position, Nat.add_assoc, LinePosition.scan_add, units,
      List.drop_left, Nat.add_comm 1, LinePosition.scan, LinePosition.behind_lineFeed,
      LinePosition.scan_content plain _ (Nat.le_refl _), Nat.zero_add]
  have start := fits.location_add_column whole here (sameLocation ▸ holds.lower)
  rw [position] at start
  have location : found.location = before.length + 1 := Nat.add_right_cancel start
  have upper : before.length + 1 + content.length ≤ line.location + line.totalLength := by
    rcases holds.upper with inside | ⟨-, atEnd, -⟩
    · exact Nat.le_of_lt inside
    · exact Nat.le_of_eq atEnd
  refine ⟨found, here, location, ?_⟩
  rw [Line.contentLength, sameMetrics]
  refine (fits.delimits.reads line (List.mem_of_getElem? holds.there)).le_contentLength
    (@List.append_cons _ before lineFeed _ ▸ units) ?_ plain (by omega)
  rw [← sameLocation, location, List.length_append, List.length_singleton]

/-- What a line that starts behind an LF holds. -/
theorem contentUnits_behind {line : Line}
    (units : text.units = before ++ lineFeed :: (content ++ rest))
    (location : line.location = before.length + 1) (inside : content.length ≤ line.contentLength) :
    Indent.contentUnits text line = content ++ rest.take (line.contentLength - content.length) := by
  rw [Indent.contentUnits, TextBuffer.chunk_eq, location, ← List.drop_drop, units, List.drop_left,
    List.drop_succ_cons, List.drop_zero, List.take_append, List.take_of_length_le inside]

/-- A line that starts behind an LF with what indents by some levels, and goes on with no blank, is
indented by as many. -/
theorem Fits.level_behind {s : IndentStrategy} {level : Nat} (fits : index.Fits text.units)
    (units : text.units =
      before ++ lineFeed :: (List.replicate (s.count level) s.markUnit ++ rest))
    (other : ∀ u, rest.head? = some u → ¬Indent.Blank u) (word : level * s.tabLength < wordLimit)
    (none : s.tabLength = 0 → level = 0) :
    ∃ line, (index.lineAt (before.length + 1 + s.count level) : Outcome Line) = .ok line ∧
      Indent.level text line s.tabLength = some level := by
  have plain : NoBreak (List.replicate (s.count level) s.markUnit) :=
    Indent.noBreak_of_blank fun _ mem => s.blank_of_mem mem
  obtain ⟨line, here, location, inside⟩ := fits.lineAt_behind units plain
  have behind : Indent.columns s.tabLength
      (rest.take (line.contentLength - (List.replicate (s.count level) s.markUnit).length)) =
          0 := by
    refine Indent.columns_eq_zero fun u first => other u ?_
    rw [List.head?_take] at first
    split at first
    · cases first
    · exact first
  have columns : Indent.columns s.tabLength (Indent.contentUnits text line) =
      level * s.tabLength := by
    rw [contentUnits_behind units location inside,
      Indent.columns_append fun _ mem => s.blank_of_mem mem, s.columns_mark, behind, Nat.add_zero]
  rw [List.length_replicate] at here
  refine ⟨line, here, ?_⟩
  rw [Indent.level_eq fun _ => columns ▸ word, columns]
  rcases Nat.eq_zero_or_pos s.tabLength with zero | pos
  · rw [none zero, Nat.zero_mul, Nat.zero_div]
  · rw [Nat.mul_div_cancel _ pos]

end LineIndex

end CodeEditor

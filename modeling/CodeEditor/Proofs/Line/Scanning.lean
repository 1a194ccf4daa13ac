import CodeEditor.Proofs.Line.Listing

/-!
Positions read off a text.

`TextBuffer.position` counts rows and columns by going through the code units from the start, one
after the other: an LF ends a row, and so does a CR that no LF follows. An index finds positions
along a path of its tree instead. `Fits.positionAt_eq` says that both give the same for every offset
of the text that the index fits, also between a CR and its LF.
-/

namespace CodeEditor

namespace LinePosition

/-- The position behind a code unit, when others follow it. -/
def behind (p : LinePosition) (u : UInt16) (rest : List UInt16) : LinePosition :=
  if u = lineFeed ∨ u = carriageReturn ∧ rest.head? ≠ some lineFeed then ⟨p.row + 1, 0⟩
  else ⟨p.row, p.column + 1⟩

/-- The position behind some code units of a text that starts at a position. -/
def scan (p : LinePosition) : List UInt16 → Nat → LinePosition
  | u :: rest, n + 1 => scan (p.behind u rest) rest n
  | _, _ => p

variable {p : LinePosition} {content delimiter : List UInt16}

@[simp] theorem scan_zero (p : LinePosition) (us : List UInt16) : p.scan us 0 = p := by
  cases us <;> rfl

theorem scan_add (p : LinePosition) (us : List UInt16) (m n : Nat) :
    p.scan us (m + n) = (p.scan us m).scan (us.drop m) n := by
  induction m generalizing p us with
  | zero => rw [Nat.zero_add, scan_zero, List.drop_zero]
  | succ m ih =>
      cases us with
      | nil =>
          rw [List.drop_nil]
          cases n <;> rfl
      | cons u us =>
          rw [Nat.succ_add]
          exact ih _ us

theorem behind_lineFeed (p : LinePosition) (rest : List UInt16) :
    p.behind lineFeed rest = ⟨p.row + 1, 0⟩ := if_pos (.inl rfl)

theorem behind_carriageReturn {rest : List UInt16} (alone : rest.head? ≠ some lineFeed) :
    p.behind carriageReturn rest = ⟨p.row + 1, 0⟩ := if_pos (.inr ⟨rfl, alone⟩)

theorem behind_half (p : LinePosition) (rest : List UInt16) :
    p.behind carriageReturn (lineFeed :: rest) = ⟨p.row, p.column + 1⟩ := by
  apply if_neg
  rintro (feed | ⟨-, alone⟩)
  · cases feed
  · exact alone rfl

/-- In content the column grows. -/
theorem scan_content (plain : NoBreak content) (rest : List UInt16) {n : Nat}
    (inside : n ≤ content.length) : p.scan (content ++ rest) n = ⟨p.row, p.column + n⟩ := by
  induction content generalizing p n with
  | nil =>
      obtain rfl := Nat.le_zero.mp inside
      rw [scan_zero, Nat.add_zero]
  | cons u content ih =>
      cases n with
      | zero => rw [scan_zero, Nat.add_zero]
      | succ n =>
          obtain ⟨noReturn, noFeed⟩ := plain
          have step : p.behind u (content ++ rest) = ⟨p.row, p.column + 1⟩ := by
            apply if_neg
            rintro (feed | ⟨ret, -⟩)
            · exact noFeed (feed ▸ List.mem_cons_self)
            · exact noReturn (ret ▸ List.mem_cons_self)
          have plain' : NoBreak content :=
            ⟨fun mem => noReturn (List.mem_cons_of_mem u mem),
              fun mem => noFeed (List.mem_cons_of_mem u mem)⟩
          rw [List.cons_append, scan, step, ih plain' (Nat.le_of_succ_le_succ inside)]
          congr 1
          dsimp only
          omega

/-- Behind a delimiter the next row starts. -/
theorem scan_delimiter (ends : IsDelimiter delimiter) {rest : List UInt16}
    (apart : ¬Joins delimiter rest) :
    p.scan (delimiter ++ rest) delimiter.length = ⟨p.row + 1, 0⟩ := by
  rcases ends with rfl | rfl | rfl
  · exact (scan_zero _ rest).trans (behind_lineFeed p rest)
  · have alone : rest.head? ≠ some lineFeed := fun joins => apart ⟨rfl, joins⟩
    exact (scan_zero _ rest).trans (behind_carriageReturn alone)
  · exact (scan_zero _ rest).trans (behind_lineFeed _ rest)

/-- In front of the end of its delimiter a line goes on, between CR and LF too. -/
theorem scan_line (plain : NoBreak content) (ends : IsDelimiter delimiter) (rest : List UInt16)
    {n : Nat} (inside : n < content.length + delimiter.length) :
    p.scan (content ++ delimiter ++ rest) n = ⟨p.row, p.column + n⟩ := by
  rw [List.append_assoc]
  by_cases within : n ≤ content.length
  · exact scan_content plain _ within
  · have length : delimiter.length ≤ 2 := by
      rcases ends with rfl | rfl | rfl <;> decide
    obtain rfl : n = content.length + 1 := by omega
    obtain rfl : delimiter = [carriageReturn, lineFeed] := by
      rcases ends with rfl | rfl | rfl
      · simp at inside
      · simp at inside
      · rfl
    rw [scan_add, scan_content plain _ (Nat.le_refl _), List.drop_left]
    exact (scan_zero _ _).trans (behind_half _ rest)

/-- A line and its delimiter are left for the start of the next row. -/
theorem scan_past (plain : NoBreak content) (ends : IsDelimiter delimiter) {rest : List UInt16}
    (apart : ¬Joins delimiter rest) (n : Nat) :
    p.scan (content ++ delimiter ++ rest) (content.length + delimiter.length + n) =
      (LinePosition.mk (p.row + 1) 0).scan rest n := by
  rw [Nat.add_assoc, scan_add, List.append_assoc, scan_content plain _ (Nat.le_refl _),
    List.drop_left, scan_add, scan_delimiter ends apart, List.drop_left]

end LinePosition

/-- The row of an offset is the number of lines above, the column what it is behind their length. -/
theorem Lines.scan_eq {front rest : List LineShape} {shape : LineShape} {us : List UInt16}
    (h : Lines (front ++ shape :: rest) us) {offset row : Nat} (lower : totalOf front ≤ offset)
    (upper : offset < totalOf front + shape.total ∨
      rest = [] ∧ offset = totalOf front + shape.total) :
    (LinePosition.mk row 0).scan us offset = ⟨row + front.length, offset - totalOf front⟩ := by
  induction front generalizing us offset row with
  | nil =>
      rw [List.nil_append] at h
      rw [totalOf_nil, Nat.zero_add] at upper
      rw [totalOf_nil, Nat.sub_zero]
      cases h with
      | last plain =>
          have inside : offset ≤ us.length := by
            dsimp only at upper
            omega
          have here := @LinePosition.scan_content ⟨row, 0⟩ us plain [] offset inside
          rw [List.append_nil] at here
          rw [here, Nat.zero_add]
          rfl
      | cons plain ends _ below =>
          have inside := upper.resolve_right fun atEnd => below.ne_nil atEnd.1
          rw [LinePosition.scan_line plain ends _ inside, Nat.zero_add]
          rfl
  | cons first front ih =>
      generalize same : first :: front ++ shape :: rest = all at h
      cases h with
      | last _ => simp at same
      | @cons content delimiter below _ plain ends apart lines =>
          obtain ⟨rfl, rfl⟩ := List.cons.inj same
          rw [totalOf_cons] at lower upper
          dsimp only at lower upper
          obtain ⟨n, rfl⟩ := Nat.exists_eq_add_of_le (Nat.le_trans (Nat.le_add_right _ _) lower)
          have upper : n < totalOf front + shape.total ∨
              rest = [] ∧ n = totalOf front + shape.total :=
            upper.imp (fun inside => by omega) fun atEnd => ⟨atEnd.1, by omega⟩
          rw [LinePosition.scan_past plain ends apart, ih lines (by omega) upper, totalOf_cons,
            List.length_cons]
          congr 1 <;> dsimp only <;> omega

/-- The row and the column of an offset, counted through the text. -/
def TextBuffer.position (text : TextBuffer) (offset : Nat) : LinePosition :=
  (LinePosition.mk 0 0).scan text.units offset

namespace LineIndex

/-- The position that an index finds is the one counted through its text. -/
theorem Fits.positionAt_eq {μ : Type → Type} [Monad μ] [LawfulMonad μ] [MonadExceptOf Failure μ]
    {index : LineIndex} {text : TextBuffer} (fits : index.Fits text.units) {offset : Nat}
    (inside : offset ≤ text.length) :
    (index.positionAt offset : μ LinePosition) = pure (text.position offset) := by
  have total := fits.totalLength_text
  obtain ⟨i, line, ⟨there, lower, upper⟩, found⟩ :=
    @positionAt_spot index μ _ _ _ fits.valid offset (total ▸ inside)
  obtain ⟨front, rest, entries, rows, -, location⟩ := exists_of_getElem?_lines there
  have lines := fits.lines
  rw [entries, shapesOf_append, shapesOf_cons] at lines
  have above : totalOf (shapesOf front) = line.location := by rw [totalOf_shapesOf, location]
  have within : offset < totalOf (shapesOf front) + line.totalLength ∨
      shapesOf rest = [] ∧ offset = totalOf (shapesOf front) + line.totalLength := by
    rw [above]
    refine upper.imp id fun atEnd => ⟨?_, atEnd.2.1⟩
    have count := index.length_lines
    rw [entries, List.length_append, List.length_cons] at count
    obtain rfl := List.length_eq_zero_iff.mp (show rest.length = 0 by omega)
    exact shapesOf_nil
  rw [found, TextBuffer.position, lines.scan_eq (above ▸ lower) within, above, shapesOf,
    List.length_map, rows, Nat.zero_add]

end LineIndex

/-- A position between CR and LF is still on their row. -/
example : (TextBuffer.ofString "a\r\n\rb").position 2 = ⟨0, 2⟩ ∧
    (TextBuffer.ofString "a\r\n\rb").position 5 = ⟨2, 1⟩ := by decide

end CodeEditor

import CodeEditor.Proofs.Line.Agreement
import Mathlib.Data.List.Forall2

/-!
The contents of lines, cut from a text in two ways.

`lineTexts` cuts a text from its first character to its last, and an index knows by its lengths
alone where a line is. `Pieces` says of a text what both of them mean by its lines, so that the
contents that an index points at are those of `lineTexts` (`LineIndex.Fits.contents`), whatever mix
of delimiters the text has.
-/

namespace CodeEditor

/-- The lines of a text with their contents. -/
inductive Pieces : List LineShape → List (List Char) → List Char → Prop
  | last {content : List Char} : NoBreak (Utf16.encode content) →
      Pieces [⟨Utf16.length content, 0⟩] [content] content
  | cons {content delimiter rest : List Char} {shapes : List LineShape}
      {texts : List (List Char)} :
      NoBreak (Utf16.encode content) → IsDelimiter (Utf16.encode delimiter) →
      ¬Joins (Utf16.encode delimiter) (Utf16.encode rest) → Pieces shapes texts rest →
      Pieces (⟨Utf16.length content + Utf16.length delimiter, Utf16.length delimiter⟩ :: shapes)
        (content :: texts) (content ++ (delimiter ++ rest))

variable {shapes : List LineShape} {texts : List (List Char)} {cs : List Char}

theorem Pieces.lines (h : Pieces shapes texts cs) : Lines shapes (Utf16.encode cs) := by
  induction h with
  | last plain =>
      rw [← Utf16.length_encode]
      exact .last plain
  | cons plain ends apart _ ih =>
      rw [← Utf16.length_encode, ← Utf16.length_encode, Utf16.encode_append, Utf16.encode_append,
        ← List.append_assoc]
      exact .cons plain ends apart ih

/-- What stands in front of the rest of a text belongs to its first line. -/
theorem exists_pieces_go (cs line : List Char) (plain : NoBreak (Utf16.encode line.reverse)) :
    ∃ shapes, Pieces shapes (lineTexts.go cs line) (line.reverse ++ cs) := by
  fun_induction lineTexts.go cs line with
  | case1 line =>
      rw [List.append_nil]
      exact ⟨_, .last plain⟩
  | case2 rest line ih =>
      obtain ⟨shapes, pieces⟩ := ih ⟨by simp, by simp⟩
      refine ⟨_, @Pieces.cons line.reverse ['\r', '\n'] rest _ _ plain (.inr (.inr rfl)) ?_ pieces⟩
      rintro ⟨last, -⟩
      cases last
  | case3 c rest line notPair isBreak ih =>
      obtain ⟨shapes, pieces⟩ := ih ⟨by simp, by simp⟩
      refine ⟨_, @Pieces.cons line.reverse [c] rest _ _ plain ?_ ?_ pieces⟩
      · rcases isBreak with rfl | rfl
        · exact .inr (.inl rfl)
        · exact .inl rfl
      · rintro ⟨last, first⟩
        obtain ⟨below, rfl⟩ := exists_of_head_encode first
        rcases isBreak with rfl | rfl
        · exact notPair below rfl rfl
        · cases last
  | case4 c rest line notPair notBreak ih =>
      obtain ⟨notReturn, notFeed⟩ := not_or.mp notBreak
      obtain ⟨shapes, pieces⟩ := ih (by
        rw [List.reverse_cons, Utf16.encode_append, noBreak_append, Utf16.encode_cons,
          Utf16.encode_nil, List.append_nil]
        exact ⟨plain, noBreak_units notReturn notFeed⟩)
      refine ⟨shapes, ?_⟩
      rwa [List.reverse_cons, List.append_assoc] at pieces

/-- `lineTexts` cuts a text into its lines. -/
theorem exists_pieces (cs : List Char) : ∃ shapes, Pieces shapes (lineTexts cs) cs :=
  exists_pieces_go cs [] ⟨by simp, by simp⟩

namespace LineIndex

/-- The contents of lines that follow each other in a text. -/
theorem contents_go {text : TextBuffer} (short : text.length < wordLimit)
    (pieces : Pieces shapes texts cs) {entries : List (LineId × LineMetrics)}
    (same : shapesOf entries = shapes) {before : List Char} (whole : before ++ cs = text.chars)
    (row : Nat) (y : Float) :
    List.Forall₂ (fun line content =>
      text.substring line.contentRange = .ok (String.ofList content))
      (lines.go row (Utf16.length before) y entries) texts := by
  induction pieces generalizing entries before row y with
  | @last content plain =>
      obtain ⟨⟨id, m⟩, rfl, shape⟩ := List.map_eq_singleton_iff.mp same
      obtain ⟨total, delimiter⟩ := LineShape.mk.inj shape
      dsimp only at total delimiter
      refine .cons ?_ .nil
      refine TextBuffer.substring_eq_ok_iff.mpr ⟨before, content, [], ?_, rfl⟩
      rw [TextBuffer.length, ← whole, Utf16.length_append] at short
      have len : m.contentLength = Utf16.length content := by
        rw [LineMetrics.contentLength, total, delimiter, Nat.sub_zero]
      refine TextBuffer.split_eq_ok_iff.mpr ⟨by rw [List.append_nil, whole], rfl, len.symm, ?_⟩
      show Utf16.length before + m.contentLength < wordLimit
      rwa [len]
  | @cons content delimiter rest shapes texts plain ends apart _ ih =>
      obtain ⟨⟨id, m⟩, entries, rfl, shape, same⟩ := List.map_eq_cons_iff.mp same
      obtain ⟨total, delimiterLength⟩ := LineShape.mk.inj shape
      dsimp only at total delimiterLength
      have below := @ih entries same (before ++ (content ++ delimiter)) (by simp [← whole])
        (row + 1) (y + m.height)
      rw [Utf16.length_append, Utf16.length_append, ← total] at below
      refine .cons ?_ below
      refine TextBuffer.substring_eq_ok_iff.mpr ⟨before, content, delimiter ++ rest, ?_, rfl⟩
      rw [TextBuffer.length, ← whole, Utf16.length_append, Utf16.length_append] at short
      have len : m.contentLength = Utf16.length content := by
        rw [LineMetrics.contentLength, total, delimiterLength, Nat.add_sub_cancel]
      refine TextBuffer.split_eq_ok_iff.mpr ⟨whole, rfl, len.symm, ?_⟩
      show Utf16.length before + m.contentLength < wordLimit
      omega

/-- The contents of the lines of an index are those that the text is cut into. -/
theorem Fits.contents {text : TextBuffer} {index : LineIndex} (fits : index.Fits text.units)
    (short : text.length < wordLimit) :
    List.Forall₂ (fun line content =>
      text.substring line.contentRange = .ok (String.ofList content))
      index.lines (lineTexts text.chars) := by
  obtain ⟨shapes, pieces⟩ := exists_pieces text.chars
  exact contents_go short pieces (fits.lines.unique pieces.lines)
    (show [] ++ text.chars = text.chars from rfl) 0 0.0

end LineIndex

end CodeEditor

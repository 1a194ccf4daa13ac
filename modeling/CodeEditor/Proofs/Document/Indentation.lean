import CodeEditor.Proofs.Document.Edits
import CodeEditor.Proofs.Line.Indent

/-!
Line breaks that keep the indentation.

Without syntax a new line is indented by as many levels as the line that it is broken off from. The
text that indents by these levels stands between the LF in front of it and what follows the break.
If this is no blank, the new line starts with nothing else, and is therefore indented by the same
number of levels again (`indentation_stable`).
-/

namespace CodeEditor.Document

variable {d : Document PlainText} {s : IndentStrategy} {o : Nat}

/-- The level behind a line break is that of the line. -/
theorem lineBreak_eq (fits : d.index.Fits d.buffer.units) (inside : o ≤ d.buffer.length)
    (word : o < wordLimit) (s : IndentStrategy) :
    ∃ line, (d.index.lineAt o : Outcome Line) = .ok line ∧
      d.lineBreak ⟨o, 0⟩ s =
        checked ((Indent.level d.buffer line s.tabLength).map fun level => ⟨level, false⟩) := by
  have inside : o ≤ d.index.totalLength := fits.totalLength_text ▸ inside
  obtain ⟨i, line, found, holds, here, spot⟩ :=
    @LineIndex.lineAt_spot d.index Outcome _ _ fits.valid _ inside
  obtain ⟨j, line', holds', position⟩ :=
    @LineIndex.positionAt_spot d.index Outcome _ _ _ fits.valid _ inside
  obtain rfl : j = i := Nat.le_antisymm (holds'.le holds (Nat.le_refl o))
    (holds.le holds' (Nat.le_refl o))
  obtain ⟨found', byRow, spot'⟩ :=
    @LineIndex.lineAtRow_spot d.index _ _ Outcome _ _ fits.valid holds.there
  have row : Indent.levelOfRow d.buffer d.index j s.tabLength =
      Indent.level d.buffer found s.tabLength := by
    rw [Indent.levelOfRow, byRow]
    exact Indent.level_congr (spot'.trans spot.symm) _
  have upper : (TextRange.mk o 0).upperBound = some o := TextRange.upperBound_eq word
  refine ⟨found, here, ?_⟩
  rw [← row, lineBreak, upper, position]
  change ((d.index.positionAt o : Outcome LinePosition) >>= fun stop =>
    checked (LanguageMode.lineBreak d.mode d.buffer d.index ⟨j, o - line'.location⟩ stop s)) = _
  rw [position]
  exact congrArg checked Option.map_eq_bind.symm

/-- A line break is put in front of some text and followed by what indents the new line. -/
theorem breakLine_ok {texts : List TextBuffer} (on : d.OnTimeline texts) {before after : List Char}
    (cut : d.buffer.split ⟨o, 0⟩ = .ok (before, [], after)) (indent : String) :
    ∃ replacement d', replaceText ⟨o, 0⟩ ("\n" ++ indent) d = .ok replacement d' ∧
      d'.index.Fits d'.buffer.units ∧ d'.buffer.units = Utf16.encode before ++
        lineFeed :: (Utf16.encode indent.toList ++ Utf16.encode after) := by
  obtain ⟨replacement, d', b, ok, replaced, rfl, -, -, fits, -⟩ :=
    on.replaceText ("\n" ++ indent) (TextBuffer.substring_eq_ok_iff.mpr ⟨_, _, _, cut, rfl⟩)
  rw [TextBuffer.replace_of_split cut] at replaced
  refine ⟨replacement, d', ok, fits, ?_⟩
  rw [← Except.ok.inj replaced, TextBuffer.units, String.toList_append, Utf16.encode_append,
    Utf16.encode_append, Utf16.encode_append, List.append_assoc, List.append_assoc]
  rfl

/-- What follows an offset starts with the unit there. -/
theorem not_blank_of_unitAt {b : TextBuffer} {before after : List Char}
    (whole : before ++ after = b.chars)
    (noSpace : b.unitAt (Utf16.length before) ≠ some Indent.space)
    (noTab : b.unitAt (Utf16.length before) ≠ some Indent.tab) {u : UInt16}
    (first : (Utf16.encode after).head? = some u) : ¬Indent.Blank u := by
  have here : b.unitAt (Utf16.length before) = some u := by
    rw [TextBuffer.unitAt_eq, TextBuffer.units, ← whole, Utf16.encode_append, ← Utf16.length_encode,
      List.getElem?_append_right (Nat.le_refl _), Nat.sub_self, ← List.head?_eq_getElem?, first]
  rintro (rfl | rfl)
  · exact noSpace here
  · exact noTab here

/-- A new line goes on at the level that the line break computes, which is that of the columns that
the line is indented by. -/
theorem indentation_stable (reachable : d.Reachable) (s : IndentStrategy)
    (boundary : d.buffer.isBoundary o) (noSpace : d.buffer.unitAt o ≠ some Indent.space)
    (noTab : d.buffer.unitAt o ≠ some Indent.tab) :
    ∃ line, (d.index.lineAt o : Outcome Line) = .ok line ∧
      (line.contentLength * s.tabLength < wordLimit → ∃ level,
        level = Indent.columns s.tabLength (Indent.contentUnits d.buffer line) / s.tabLength ∧
        d.lineBreak ⟨o, 0⟩ s = .ok ⟨level, false⟩ ∧
        (s.indentString level = none ↔ IndentStrategy.textLimit ≤ s.count level) ∧
        ∀ indent, s.indentString level = some indent → ∃ replacement d' line',
          replaceText ⟨o, 0⟩ ("\n" ++ indent) d = .ok replacement d' ∧
          (d'.index.lineAt (o + 1 + Utf16.length indent.toList) : Outcome Line) = .ok line' ∧
          Indent.level d'.buffer line' s.tabLength = some level) := by
  obtain ⟨texts, on⟩ := reachable.exists_timeline
  have short : d.buffer.length < wordLimit := on.short _ (List.mem_of_getElem? on.here)
  obtain ⟨before, after, whole, rfl⟩ := TextBuffer.isBoundary_iff.mp boundary
  have inside : Utf16.length before ≤ d.buffer.length := by
    rw [TextBuffer.length, ← whole, Utf16.length_append]
    exact Nat.le_add_right _ _
  obtain ⟨line, here, breaks⟩ := lineBreak_eq on.fits inside (by omega) s
  refine ⟨line, here, fun word => ?_⟩
  have columns := @Indent.columns_lt s.tabLength d.buffer line word
  rw [Indent.level_eq columns] at breaks
  refine ⟨_, rfl, breaks, s.indentString_eq_none_iff _, fun indent made => ?_⟩
  generalize Indent.columns s.tabLength (Indent.contentUnits d.buffer line) = width
    at columns made ⊢
  have cut : d.buffer.split ⟨Utf16.length before, 0⟩ = .ok (before, [], after) :=
    TextBuffer.split_eq_ok_iff.mpr ⟨whole, rfl, rfl, by dsimp only; omega⟩
  obtain ⟨replacement, d', ok, fits, units⟩ := breakLine_ok on cut indent
  have encoded := s.encode_indentString _ made
  rw [encoded] at units
  -- Without columns to a level there are no levels, and nothing is as wide as any number of them.
  have word : width / s.tabLength * s.tabLength < wordLimit := by
    rcases Nat.eq_zero_or_pos s.tabLength with zero | pos
    · rw [zero, Nat.mul_zero]
      decide
    · exact Nat.lt_of_le_of_lt (Nat.div_mul_le_self _ _) (columns pos)
  obtain ⟨line', there, level⟩ := fits.level_behind units
    (fun _ => not_blank_of_unitAt whole noSpace noTab) word fun zero => by rw [zero, Nat.div_zero]
  refine ⟨replacement, d', line', ok, ?_, level⟩
  rw [← Utf16.length_encode, ← Utf16.length_encode, encoded, List.length_replicate]
  exact there

/-- A line that is indented by a tab and a space is broken between CR and LF. -/
theorem indentation_stable_in_crlf :
    ∃ (d d' : Document PlainText) (replacement : Replacement) (line : Line),
      d.text = "\t a\r\nb" ∧ d.lineBreak ⟨4, 0⟩ (.space 2) = .ok ⟨1, false⟩ ∧
      replaceText ⟨4, 0⟩ "\n  " d = .ok replacement d' ∧
      (d'.index.lineAt 7 : Outcome Line) = .ok line ∧ Indent.level d'.buffer line 2 = some 1 := by
  have opened : Reachable (ofText "\t a\r\nb" {} PlainText.mk) := ⟨_, .opened _ _ _ (by decide)⟩
  obtain ⟨line, here, stable⟩ :=
    @indentation_stable _ 4 opened (.space 2) (by decide) (by decide) (by decide)
  have length : line.contentLength = 3 := by
    have same := congrArg (Except.map (·.contentLength)) here
    exact (Except.ok.inj same).symm
  obtain ⟨level, -, breaks, -, goesOn⟩ := stable (by rw [length]; decide)
  obtain rfl : level = 1 := congrArg LineBreakIndent.level (Except.ok.inj (breaks.symm.trans rfl))
  obtain ⟨replacement, d', line', ok, there, again⟩ := goesOn "  " rfl
  exact ⟨_, d', replacement, line', rfl, breaks, ok, there, again⟩

end CodeEditor.Document

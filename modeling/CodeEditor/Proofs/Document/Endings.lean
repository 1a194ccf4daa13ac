import CodeEditor.Proofs.Document.Edits
import CodeEditor.Proofs.Line.Contents
import CodeEditor.Proofs.Text.Window
import Mathlib.Data.List.Induction

/-!
Which line ending a document uses.

`LineEnding.scan` reads the delimiters of a text from its first character to its last. An index
knows by its lengths alone where they are, and every one of them can be read off the text there
(`LineIndex.Fits.endings`). `LineEnding.Prevails` says which of some delimiters is the most
frequent, and `lineEnding_prevails` that every document that edits lead to detects the one that
prevails among the first twenty of its text.
-/

namespace CodeEditor

namespace LineEnding

/-- The place in the order of preference. -/
def rank : LineEnding → Nat
  | .lf => 0
  | .cr => 1
  | .crlf => 2

/-- A delimiter is among some, none of them is more frequent, and of equally frequent ones it is
preferred. -/
structure Prevails (sample : List LineEnding) (e : LineEnding) : Prop where
  occurs : e ∈ sample
  most : ∀ other, sample.count other ≤ sample.count e
  preferred : ∀ other, sample.count other = sample.count e → e.rank ≤ other.rank

/-- The delimiters of a text from left to right. A CR directly in front of an LF is one with it. -/
def scan : List Char → List LineEnding
  | [] => []
  | '\r' :: '\n' :: rest => .crlf :: scan rest
  | c :: rest =>
      if c = '\r' then .cr :: scan rest
      else if c = '\n' then .lf :: scan rest
      else scan rest

variable {sample : List LineEnding} {e other : LineEnding}

/-! ### The most frequent delimiter -/

theorem rank_inj (same : e.rank = other.rank) : e = other := by
  cases e <;> cases other <;> first | rfl | cases same

theorem Prevails.unique (prevails : Prevails sample e) (prevails' : Prevails sample other) :
    e = other := by
  have counts := Nat.le_antisymm (prevails'.most e) (prevails.most other)
  exact rank_inj (Nat.le_antisymm (prevails.preferred other counts.symm)
    (prevails'.preferred e counts))

/-- The first of the most frequent candidates. -/
theorem foldl_first (counted : List (LineEnding × Nat)) :
    match counted.foldl (fun best candidate =>
      match best with
      | none => some candidate
      | some (_, count) => if candidate.2 ≤ count then best else some candidate) none with
    | none => counted = []
    | some best => ∃ front rest, counted = front ++ best :: rest ∧ (∀ c ∈ front, c.2 < best.2) ∧
        ∀ c ∈ rest, c.2 ≤ best.2 := by
  induction counted using List.reverseRecOn with
  | nil => rfl
  | append_singleton counted candidate ih =>
      rw [List.foldl_append, List.foldl_cons, List.foldl_nil]
      revert ih
      cases counted.foldl _ none with
      | none =>
          rintro rfl
          exact ⟨[], [], rfl, nofun, nofun⟩
      | some best =>
          rintro ⟨front, rest, rfl, fewer, most⟩
          dsimp only
          by_cases atMost : candidate.2 ≤ best.2
          · rw [if_pos atMost]
            refine ⟨front, rest ++ [candidate], by simp, fewer, ?_⟩
            exact List.forall_mem_append.mpr ⟨most, List.forall_mem_singleton.mpr atMost⟩
          · have more := Nat.lt_of_not_le atMost
            rw [if_neg atMost]
            refine ⟨front ++ best :: rest, [], rfl, ?_, nofun⟩
            refine List.forall_mem_append.mpr ⟨fun c mem => Nat.lt_trans (fewer c mem) more, ?_⟩
            exact List.forall_mem_cons.mpr ⟨more, fun c mem => Nat.lt_of_le_of_lt (most c mem) more⟩

/-- The candidates among which the most frequent one is found are in the order of preference. -/
theorem counted_spec (sample : List LineEnding) :
    let counted := (all.map fun ending => (ending, sample.count ending)).filter (0 < ·.2)
    (counted.Pairwise fun c d => c.1.rank < d.1.rank) ∧
      ∀ c, c ∈ counted ↔ c.2 = sample.count c.1 ∧ 0 < c.2 := by
  have byRank : all.Pairwise fun a b => a.rank < b.rank := by decide
  have paired : (all.map fun ending => (ending, sample.count ending)).Pairwise
      fun c d => c.1.rank < d.1.rank := List.pairwise_map.mpr byRank
  refine ⟨paired.filter _, ?_⟩
  rintro ⟨ending, count⟩
  have mem : ending ∈ all := by cases ending <;> decide
  simp only [List.mem_filter, List.mem_map, Prod.mk.injEq, decide_eq_true_eq]
  constructor
  · rintro ⟨⟨_, -, rfl, rfl⟩, pos⟩
    exact ⟨rfl, pos⟩
  · rintro ⟨rfl, pos⟩
    exact ⟨⟨ending, mem, rfl, rfl⟩, pos⟩

/-- Of candidates in the order of preference the first of the most frequent ones prevails. -/
theorem prevails_of_first {front rest : List (LineEnding × Nat)} {best : LineEnding × Nat}
    (sorted : (front ++ best :: rest).Pairwise fun c d => c.1.rank < d.1.rank)
    (mem_iff : ∀ c, c ∈ front ++ best :: rest ↔ c.2 = sample.count c.1 ∧ 0 < c.2)
    (fewer : ∀ c ∈ front, c.2 < best.2) (most : ∀ c ∈ rest, c.2 ≤ best.2) :
    Prevails sample best.1 := by
  obtain ⟨e, n⟩ := best
  obtain ⟨count, pos⟩ := (mem_iff (e, n)).mp (by simp)
  dsimp only at count pos ⊢
  subst count
  obtain ⟨-, behind, -⟩ := List.pairwise_append.mp sorted
  have after := (List.pairwise_cons.mp behind).1
  -- A delimiter that occurs is in front of the one found, it is that one or it is behind it.
  have place (other : LineEnding) (occurs : 0 < sample.count other) :
      (other, sample.count other) ∈ front ∨ other = e ∨ (other, sample.count other) ∈ rest := by
    have mem := (mem_iff (other, sample.count other)).mpr ⟨rfl, occurs⟩
    rcases List.mem_append.mp mem with mem | mem
    · exact .inl mem
    · exact .inr ((List.mem_cons.mp mem).imp_left fun same => (Prod.mk.inj same).1)
  constructor
  case occurs => exact List.count_pos_iff.mp pos
  case most =>
    intro other
    rcases Nat.eq_zero_or_pos (sample.count other) with none | occurs
    · rw [none]
      exact Nat.zero_le _
    · rcases place other occurs with mem | rfl | mem
      · exact Nat.le_of_lt (fewer _ mem)
      · exact Nat.le_refl _
      · exact most _ mem
  case preferred =>
    intro other same
    rcases place other (same ▸ pos) with mem | rfl | mem
    · exact absurd (fewer _ mem) (by rw [same]; exact Nat.lt_irrefl _)
    · exact Nat.le_refl _
    · exact Nat.le_of_lt (after _ mem)

/-- The most frequent delimiter prevails. There is none among no delimiters. -/
theorem mostFrequent_spec (sample : List LineEnding) :
    match mostFrequent sample with
    | none => sample = []
    | some e => Prevails sample e := by
  obtain ⟨sorted, mem_iff⟩ := counted_spec sample
  have first := foldl_first ((all.map fun ending => (ending, sample.count ending)).filter (0 < ·.2))
  rw [mostFrequent]
  generalize (all.map fun ending => (ending, sample.count ending)).filter (0 < ·.2) = counted at *
  revert first
  cases counted.foldl _ none with
  | none =>
      rintro rfl
      refine List.eq_nil_iff_forall_not_mem.mpr fun e mem => ?_
      exact absurd ((mem_iff (e, sample.count e)).mpr ⟨rfl, List.count_pos_iff.mpr mem⟩)
        List.not_mem_nil
  | some best =>
      rintro ⟨front, rest, rfl, fewer, most⟩
      exact prevails_of_first sorted mem_iff fewer most

theorem mostFrequent_eq_none_iff : mostFrequent sample = none ↔ sample = [] := by
  constructor
  · intro none
    have spec := mostFrequent_spec sample
    rwa [none] at spec
  · rintro rfl
    rfl

theorem mostFrequent_eq_some_iff : mostFrequent sample = some e ↔ Prevails sample e := by
  have spec := mostFrequent_spec sample
  constructor
  · intro found
    rwa [found] at spec
  · intro prevails
    cases found : mostFrequent sample with
    | none =>
        rw [found] at spec
        exact absurd prevails.occurs (spec ▸ List.not_mem_nil)
    | some other =>
        rw [found] at spec
        rw [spec.unique prevails]

/-! ### The delimiters of a text -/

/-- Content is passed over. -/
theorem scan_append {content : List Char} (plain : NoBreak (Utf16.encode content))
    (cs : List Char) :
    scan (content ++ cs) = scan cs := by
  induction content with
  | nil => rfl
  | cons c content ih =>
      rw [Utf16.encode_cons, noBreak_append] at plain
      have notReturn : c ≠ '\r' := by
        rintro rfl
        exact plain.1.1 List.mem_cons_self
      have notFeed : c ≠ '\n' := by
        rintro rfl
        exact plain.1.2 List.mem_cons_self
      rw [List.cons_append, scan, if_neg notReturn, if_neg notFeed, ih plain.2]
      exact fun rest same _ => notReturn same

theorem scan_eq_nil {content : List Char} (plain : NoBreak (Utf16.encode content)) :
    scan content = [] := by
  have whole := scan_append plain []
  rwa [List.append_nil] at whole

/-- The characters of a delimiter. -/
theorem exists_symbol {delimiter : List Char} (ends : IsDelimiter (Utf16.encode delimiter)) :
    ∃ e : LineEnding, delimiter = e.symbol.toList ∧ ofSymbol? (String.ofList delimiter) =
      some e := by
  rcases ends with lf | cr | crlf
  · obtain rfl : delimiter = ['\n'] := Utf16.encode_inj.mp lf
    exact ⟨.lf, rfl, rfl⟩
  · obtain rfl : delimiter = ['\r'] := Utf16.encode_inj.mp cr
    exact ⟨.cr, rfl, rfl⟩
  · obtain rfl : delimiter = ['\r', '\n'] := Utf16.encode_inj.mp crlf
    exact ⟨.crlf, rfl, rfl⟩

/-- A delimiter that does not join with what follows is one of the text. -/
theorem scan_symbol_append (e : LineEnding) {rest : List Char}
    (apart : ¬Joins (Utf16.encode e.symbol.toList) (Utf16.encode rest)) :
    scan (e.symbol.toList ++ rest) = e :: scan rest := by
  cases e with
  | lf => rfl
  | crlf => rfl
  | cr =>
      show scan ('\r' :: rest) = _
      rw [scan, if_pos rfl]
      rintro below - rfl
      exact apart ⟨rfl, rfl⟩

end LineEnding

namespace LineIndex

/-- A line has the delimiter that stands behind its content. -/
theorem ofLine?_of_chars {text : TextBuffer} {line : Line}
    {before content delimiter rest : List Char}
    (whole : before ++ (content ++ (delimiter ++ rest)) = text.chars)
    (short : text.length < wordLimit) (location : line.location = Utf16.length before)
    (total : line.totalLength = Utf16.length content + Utf16.length delimiter)
    (len : line.delimiterLength = Utf16.length delimiter) :
    LineEnding.ofLine? text line = LineEnding.ofSymbol? (String.ofList delimiter) := by
  have contentEnd : line.contentEnd = Utf16.length (before ++ content) := by
    rw [Line.contentEnd, Line.contentLength, LineMetrics.contentLength, Utf16.length_append]
    rw [Line.totalLength] at total
    rw [Line.delimiterLength] at len
    omega
  have read : text.substring line.delimiterRange = .ok (String.ofList delimiter) := by
    refine TextBuffer.substring_eq_ok_iff.mpr ⟨before ++ content, delimiter, rest, ?_, rfl⟩
    refine TextBuffer.split_eq_ok_iff.mpr ⟨?_, contentEnd.symm, len.symm, ?_⟩
    · rw [List.append_assoc, whole]
    · show line.contentEnd + line.delimiterLength < wordLimit
      rw [TextBuffer.length, ← whole] at short
      simp only [Utf16.length_append] at short contentEnd
      omega
  rw [LineEnding.ofLine?, read]

/-- The delimiters of lines that follow each other in a text. -/
theorem endings_go {text : TextBuffer} (short : text.length < wordLimit)
    {shapes : List LineShape} {texts : List (List Char)} {cs : List Char}
    (pieces : Pieces shapes texts cs) {entries : List (LineId × LineMetrics)}
    (same : shapesOf entries = shapes) {before : List Char} (whole : before ++ cs = text.chars)
    (row : Nat) (y : Float) :
    (lines.go row (Utf16.length before) y entries).filterMap (LineEnding.ofLine? text) =
      LineEnding.scan cs := by
  induction pieces generalizing entries before row y with
  | @last content plain =>
      obtain ⟨⟨id, m⟩, rfl, shape⟩ := List.map_eq_singleton_iff.mp same
      obtain ⟨total, delimiterLength⟩ := LineShape.mk.inj shape
      -- There is nothing behind the last line, which is not the text of a delimiter.
      rw [LineEnding.scan_eq_nil plain, lines.go, List.filterMap_cons_none]
      · rfl
      · exact @ofLine?_of_chars _ _ before content [] [] (by rwa [List.append_nil, List.append_nil])
          short rfl total delimiterLength
  | @cons content delimiter rest shapes texts plain ends apart _ ih =>
      obtain ⟨⟨id, m⟩, entries, rfl, shape, same⟩ := List.map_eq_cons_iff.mp same
      obtain ⟨total, delimiterLength⟩ := LineShape.mk.inj shape
      dsimp only at total delimiterLength
      have below := @ih entries same (before ++ (content ++ delimiter)) (by simp [← whole])
        (row + 1) (y + m.height)
      rw [Utf16.length_append, Utf16.length_append, ← total] at below
      obtain ⟨e, rfl, symbol⟩ := LineEnding.exists_symbol ends
      rw [LineEnding.scan_append plain, LineEnding.scan_symbol_append e apart, ← below, lines.go]
      refine List.filterMap_cons_some ?_
      rw [← symbol]
      exact ofLine?_of_chars whole short rfl total delimiterLength

/-- The lines of an index have the delimiters of the text, in the order of the text. -/
theorem Fits.endings {text : TextBuffer} {index : LineIndex} (fits : index.Fits text.units)
    (short : text.length < wordLimit) :
    index.lines.filterMap (LineEnding.ofLine? text) = LineEnding.scan text.chars := by
  obtain ⟨shapes, pieces⟩ := exists_pieces text.chars
  exact endings_go short pieces (fits.lines.unique pieces.lines)
    (show [] ++ text.chars = text.chars from rfl) 0 0.0

/-- The line ending that is detected is the most frequent one of the first delimiters. -/
theorem Fits.detect {text : TextBuffer} {index : LineIndex} (fits : index.Fits text.units)
    (short : text.length < wordLimit) :
    LineEnding.detect index text =
      LineEnding.mostFrequent ((LineEnding.scan text.chars).take LineEnding.sampleSize) := by
  have endings := fits.endings short
  have few : (LineEnding.scan text.chars).length ≤ index.lineCount := by
    rw [← endings, ← fits.length_lines]
    exact List.length_filterMap_le _ _
  rw [LineEnding.detect, endings, Nat.min_comm, ← List.take_take, List.take_of_length_le few]

end LineIndex

namespace Document

variable {μ : Type} [LanguageMode μ] {d : Document μ}

/-- A document uses the line ending that prevails among the first twenty of its text, none when the
text has no delimiter. The text alone gives the same answer as the index of the document. -/
theorem lineEnding_prevails (reachable : d.Reachable) :
    (d.lineEnding = none ↔ LineEnding.scan d.text.toList = []) ∧
      (∀ e, d.lineEnding = some e ↔
        LineEnding.Prevails ((LineEnding.scan d.text.toList).take 20) e) ∧
      LineEnding.ofText? d.text = d.lineEnding := by
  obtain ⟨texts, on⟩ := reachable.exists_timeline
  have short := on.short _ (List.mem_of_getElem? on.here)
  have chars : d.text.toList = d.buffer.chars := String.toList_ofList
  have sampled : d.lineEnding =
      LineEnding.mostFrequent ((LineEnding.scan d.buffer.chars).take LineEnding.sampleSize) :=
    on.fits.detect short
  have again : LineEnding.ofText? d.text = d.lineEnding := by
    have buffer : TextBuffer.ofString d.text = d.buffer := congrArg TextBuffer.mk chars
    rw [sampled, LineEnding.ofText?, buffer]
    exact (LineIndex.fits_rebuild _ d.buffer).detect short
  rw [chars]
  refine ⟨?_, fun e => ?_, again⟩
  · rw [sampled, LineEnding.mostFrequent_eq_none_iff, List.take_eq_nil_iff]
    exact or_iff_right (by decide)
  · rw [sampled]
    exact LineEnding.mostFrequent_eq_some_iff

/-- A CR typed in front of the first of two LF. Each delimiter then occurs once, and LF is
preferred. -/
theorem lineEnding_of_joined_delimiter :
    ∃ (d d' : Document PlainText) (replacement : Replacement),
      replaceText ⟨1, 0⟩ "\r" d = .ok replacement d' ∧ d'.text = "a\r\nb\nc" ∧
        d'.lineEnding = some .lf ∧ LineEnding.ofText? d'.text = some .lf := by
  have opened : Saved (.ofString "a\nb\nc") (ofText "a\nb\nc" {} PlainText.mk) :=
    .opened _ _ _ (by decide)
  obtain ⟨texts, on, -⟩ := opened.exists_timeline
  obtain ⟨replacement, d', b, typed, replaced, buffer, -⟩ :=
    @OnTimeline.replaceText _ _ _ _ ⟨1, 0⟩ "" on "\r" rfl
  obtain rfl : b = ⟨['a', '\r', '\n', 'b', '\n', 'c']⟩ := Except.ok.inj (replaced.symm.trans rfl)
  have edit := Edit.replaceText (ofText "a\nb\nc" {} PlainText.mk) ⟨1, 0⟩ "\r"
  rw [typed, after, buffer] at edit
  have reachable : Reachable d' := ⟨_, opened.edit (edit (by decide))⟩
  have text : d'.text = "a\r\nb\nc" := by
    rw [Document.text, buffer]
    rfl
  obtain ⟨-, detected, again⟩ := lineEnding_prevails reachable
  have found : d'.lineEnding = some .lf := by
    rw [detected, text]
    constructor
    case occurs => decide
    case most => rintro ⟨⟩ <;> decide
    case preferred => rintro ⟨⟩ <;> decide
  exact ⟨_, d', replacement, typed, text, found, again.trans found⟩

end Document

end CodeEditor

import CodeEditor.Grammar.Tokenizer
import CodeEditor.Proofs.Text.Units

/-!
Where the tokens of a line lie.

A token stands for a mark that is not empty, and its range is counted in code units of the
characters before and in the mark (`Mark.bounds_token`). So it ends inside the line, wherever a
pattern says that it has been found.
-/

namespace CodeEditor.Grammar

variable {chars : Array Char}

/-- The number of code units before a character. -/
def unitsBefore (chars : Array Char) (position : Nat) : Nat :=
  Utf16.length (chars.toList.take position)

theorem unitsBefore_mono {m n : Nat} (le : m ≤ n) : unitsBefore chars m ≤ unitsBefore chars n := by
  obtain ⟨more, rfl⟩ := Nat.exists_eq_add_of_le le
  rw [unitsBefore, unitsBefore, List.take_add, Utf16.length_append]
  exact Nat.le_add_right _ _

theorem unitsBefore_le (chars : Array Char) (position : Nat) :
    unitsBefore chars position ≤ Utf16.length chars.toList := by
  have whole := congrArg Utf16.length (List.take_append_drop position chars.toList)
  rw [Utf16.length_append] at whole
  rw [unitsBefore]
  omega

theorem unitsBefore_lt {m n : Nat} (lt : m < n) (inside : m < chars.size) :
    unitsBefore chars m < unitsBefore chars n := by
  refine Nat.lt_of_lt_of_le ?_ (unitsBefore_mono lt)
  have next : chars.toList.take (m + 1) = chars.toList.take m ++ [chars[m]] := by
    rw [List.take_add_one, Array.getElem?_toList, Array.getElem?_eq_getElem inside,
      Option.toList_some]
  rw [unitsBefore, unitsBefore, next, Utf16.length_append, Utf16.length_cons]
  have := Utf16.width_pos chars[m]
  omega

/-- The characters before a mark, and those in it. -/
theorem Mark.take_stop {m : Mark} (ordered : m.span.start ≤ m.span.stop) :
    chars.toList.take m.span.stop =
      chars.toList.take m.span.start ++ (chars.extract m.span.start m.span.stop).toList := by
  rw [Array.toList_extract, List.extract_eq_take_drop, ← List.take_add,
    Nat.add_sub_cancel' ordered]

/-- Where the token of a mark starts and ends. -/
theorem Mark.bounds_token {m : Mark} (ordered : m.span.start ≤ m.span.stop) :
    (m.token chars).range.location = unitsBefore chars m.span.start ∧
      (m.token chars).range.location + (m.token chars).range.length =
        unitsBefore chars m.span.stop := by
  have front : (chars.extract 0 m.span.start).toList = chars.toList.take m.span.start := by
    rw [Array.toList_extract, List.extract_eq_take_drop, List.drop_zero, Nat.sub_zero]
  rw [token, unitsBefore, unitsBefore, take_stop ordered, Utf16.length_append]
  dsimp only
  rw [front]
  exact ⟨rfl, rfl⟩

/-- The token of a mark ends inside the line. -/
theorem Mark.token_le {line : Array Char} {m : Mark} (filled : m.span.start < m.span.stop) :
    (m.token line).range.location + (m.token line).range.length ≤ Utf16.length line.toList := by
  rw [(bounds_token (Nat.le_of_lt filled)).2]
  exact unitsBefore_le line m.span.stop

/-- Every token is that of a mark that is not empty. -/
theorem exists_mark_of_mem_tokensOf {line : Array Char} {marks : List Mark} {token : Token}
    (mem : token ∈ tokensOf line marks) :
    ∃ m ∈ marks, m.span.start < m.span.stop ∧ token = m.token line := by
  obtain ⟨⟨isRegion, token⟩, sorted, rfl⟩ := List.mem_map.mp mem
  obtain ⟨m, filtered, eq⟩ := List.mem_map.mp (List.mem_mergeSort.mp sorted)
  obtain ⟨marked, filled⟩ := List.mem_filter.mp filtered
  exact ⟨m, marked, of_decide_eq_true filled, (congrArg Prod.snd eq).symm⟩

namespace Compiled

variable {g : Compiled} {line : String} {stack stack' : RuleStack} {tokens : List Token}

/-- The tokens of a line are those of some marks. -/
theorem exists_marks_of_tokenizeLine (ok : g.tokenizeLine line stack = .ok tokens stack') :
    ∃ marks, tokens = tokensOf line.toList.toArray marks := by
  rw [tokenizeLine] at ok
  dsimp only at ok
  split at ok
  · next marks _ =>
      cases ok
      exact ⟨_, rfl⟩
  · cases ok

/-- The tokens of a line end inside it. -/
theorem token_le_of_tokenizeLine (ok : g.tokenizeLine line stack = .ok tokens stack')
    {token : Token} (mem : token ∈ tokens) :
    token.range.location + token.range.length ≤ Utf16.length line.toList := by
  obtain ⟨marks, rfl⟩ := exists_marks_of_tokenizeLine ok
  obtain ⟨m, -, filled, rfl⟩ := exists_mark_of_mem_tokensOf mem
  exact m.token_le filled

end Compiled

end CodeEditor.Grammar

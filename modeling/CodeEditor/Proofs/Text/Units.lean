import CodeEditor.Text.Buffer

/-!
Texts as sequences of code units.

`encode` is the sequence that offsets count. An offset goes to the place of a character and back
(`exists_char`, `charIndex_append`), so that `unitAt` and `chunk` read that sequence (`unitAt_eq`,
`chunk_eq`). A buffer is split by a range exactly when its characters fall into three lists of the
right lengths (`split_eq_ok_iff`), which is so for all ranges inside the text whose bounds are
boundaries (`exists_split`), and reading and replacing a range are said by the three parts
(`substring_eq`, `replace_eq`).
-/

namespace CodeEditor

namespace Utf16

@[simp] theorem encode_nil : encode [] = [] := rfl

@[simp] theorem encode_cons (c : Char) (cs : List Char) : encode (c :: cs) = units c ++ encode cs :=
  rfl

@[simp] theorem encode_append (cs ds : List Char) : encode (cs ++ ds) = encode cs ++ encode ds := by
  simp [encode]

theorem length_eq_zero {cs : List Char} (h : length cs = 0) : cs = [] := by
  cases cs with
  | nil => rfl
  | cons c cs =>
      have := width_pos c
      rw [length_cons] at h
      omega

/-- An offset inside a text lies in the character of its place. -/
theorem exists_char {cs : List Char} {offset : Nat} (inside : offset < length cs) :
    ∃ before c after, before ++ c :: after = cs ∧ charIndex cs offset = before.length ∧
      length before ≤ offset ∧ offset < length before + width c := by
  fun_induction charIndex cs offset with
  | case1 => cases inside
  | case2 c cs offset here => exact ⟨[], c, cs, rfl, rfl, Nat.zero_le _, by rw [length_nil]; omega⟩
  | case3 c cs offset behind ih =>
      rw [length_cons] at inside
      obtain ⟨before, c', after, rfl, place, start, stop⟩ := ih (by omega)
      refine ⟨c :: before, c', after, rfl, by rw [place, List.length_cons], ?_, ?_⟩
      · rw [length_cons]
        omega
      · rw [length_cons]
        omega

/-- The place of an offset between two characters is the number of those before it. -/
theorem charIndex_append (before after : List Char) :
    charIndex (before ++ after) (length before) = before.length := by
  induction before with
  | nil =>
      cases after with
      | nil => rfl
      | cons c after => exact if_pos (width_pos c)
  | cons c before ih =>
      rw [List.cons_append, charIndex, length_cons, if_neg (by omega), Nat.add_sub_cancel_left, ih,
        List.length_cons]

theorem charOffset_append (before after : List Char) :
    charOffset (before ++ after) before.length = length before := by
  rw [charOffset, List.take_left]

/-- Leaving out units and collecting others is taking a stretch of them. -/
theorem toList_collect {limit skip : Nat} {us : List UInt16} {collected : Array UInt16}
    (room : collected.size < limit) :
    (collect limit us skip collected).toList =
      collected.toList ++ (us.drop skip).take (limit - collected.size) := by
  fun_induction collect limit us skip collected with
  | case1 => simp
  | case2 _ us skip collected ih => rw [ih room, List.drop_succ_cons]
  | case3 u us collected pushed full =>
      have one : limit - collected.size = 1 := by
        rw [Array.size_push] at full
        omega
      simp [pushed, one]
  | case4 u us collected pushed notFull ih =>
      have size : pushed.size = collected.size + 1 := Array.size_push _
      have more : limit - collected.size = limit - pushed.size + 1 := by omega
      rw [ih (by omega), more, List.drop_zero, List.drop_zero, List.take_succ_cons]
      simp [pushed]

/-- Of two fronts of a text the longer goes on from the shorter. -/
theorem append_of_length_le {xs ys xs' ys' : List Char} (same : xs ++ ys = xs' ++ ys')
    (le : length xs ≤ length xs') : ∃ between, xs' = xs ++ between ∧ ys = between ++ ys' := by
  rcases List.append_eq_append_iff.mp same with ⟨between, longer, rest⟩ | ⟨between, longer, rest⟩
  · exact ⟨between, longer, rest⟩
  · rw [longer, length_append] at le
    obtain rfl := length_eq_zero (show length between = 0 by omega)
    exact ⟨[], by simpa using longer.symm, by simpa using rest.symm⟩

end Utf16

theorem unitsOfBytes_mul (units : Nat) : unitsOfBytes (units * bytesPerUnit) = units :=
  Nat.mul_div_cancel units (by decide)

namespace TextBuffer

variable {b : TextBuffer} {r : TextRange}

/-- The code units of the text. -/
def units (b : TextBuffer) : List UInt16 := Utf16.encode b.chars

@[simp] theorem length_units (b : TextBuffer) : b.units.length = b.length :=
  Utf16.length_encode b.chars

theorem unitAt_eq (b : TextBuffer) (offset : Nat) : b.unitAt offset = b.units[offset]? := by
  rw [unitAt]
  split
  · next outside => rw [List.getElem?_eq_none (by rwa [length_units])]
  · next inside =>
      obtain ⟨before, c, after, whole, place, start, stop⟩ :=
        Utf16.exists_char (Nat.not_le.mp inside)
      have width := Utf16.length_units c
      have there : (before ++ c :: after)[before.length]? = some c := by simp
      dsimp only
      rw [place, units, ← whole, Utf16.charOffset_append, there, Option.bind_some,
        Utf16.encode_append, Utf16.encode_cons,
        List.getElem?_append_right (by rwa [Utf16.length_encode]), Utf16.length_encode,
        List.getElem?_append_left (by omega)]

theorem chunk_eq (b : TextBuffer) (offset limit : Nat) :
    b.chunk offset limit = (b.units.drop offset).take limit := by
  rw [chunk]
  split
  · next nothing =>
      rcases nothing with outside | zero
      · rw [List.drop_eq_nil_of_le (by rwa [length_units]), List.take_nil]
      · rw [zero, List.take_zero]
  · next some =>
      obtain ⟨before, c, after, whole, place, start, -⟩ :=
        @Utf16.exists_char b.chars offset (by rw [TextBuffer.length] at some; omega)
      have passed : (Utf16.encode before).drop offset = [] :=
        List.drop_eq_nil_of_le (by rwa [Utf16.length_encode])
      rw [Utf16.toList_collect (Nat.pos_of_ne_zero fun zero => some (.inr zero)), place, units,
        ← whole, Utf16.charOffset_append, List.drop_left, Utf16.encode_append, List.drop_append,
        passed, Utf16.length_encode]
      simp

theorem isBoundary_iff {offset : Nat} :
    b.isBoundary offset ↔ ∃ before after, before ++ after = b.chars ∧
    Utf16.length before = offset := by
  rw [isBoundary, Bool.and_eq_true, decide_eq_true_iff, decide_eq_true_iff]
  constructor
  · rintro ⟨-, start⟩
    exact ⟨_, _, List.take_append_drop _ _, start⟩
  · rintro ⟨before, after, whole, rfl⟩
    rw [TextBuffer.length, ← whole, Utf16.charIndex_append, Utf16.charOffset_append,
      Utf16.length_append]
    exact ⟨by omega, rfl⟩

/-- The characters before a range, in it and after it, if the range is one that can be read. -/
def split (b : TextBuffer) (r : TextRange) : Outcome (List Char × List Char × List Char) := do
  b.checkRange r
  let (start, stop) ← checked (b.charRange r)
  return (b.chars.take start, (b.chars.take stop).drop start, b.chars.drop stop)

/-- A range is accepted when its upper bound can be computed and both bounds are boundaries, which
none outside the text is. -/
theorem checkRange_eq_ok_iff :
    b.checkRange r = .ok () ↔
      ∃ upper, r.upperBound = some upper ∧ b.isBoundary r.location ∧ b.isBoundary upper := by
  rw [checkRange]
  cases r.upperBound with
  | none => simp [checked, throw, throwThe, MonadExceptOf.throw, bind, Except.bind]
  | some upper =>
      simp only [checked, pure, Except.pure, bind, Except.bind, Option.some.injEq, exists_eq_left']
      by_cases outside : b.length < upper
      · have : ¬b.isBoundary upper := by
          rw [isBoundary, Bool.and_eq_true, decide_eq_true_iff]
          omega
        simp [outside, this, reject, throw, throwThe, MonadExceptOf.throw]
      · cases start : b.isBoundary r.location <;> cases stop : b.isBoundary upper <;>
          simp [outside, start, stop, reject, throw, throwThe, MonadExceptOf.throw, bind,
            Except.bind, pure, Except.pure]

/-- Between two boundaries of a text lies a part of it. -/
theorem exists_parts {upper : Nat} (word : r.upperBound = some upper)
    (start : b.isBoundary r.location) (stop : b.isBoundary upper) :
    ∃ before inside after, before ++ (inside ++ after) = b.chars ∧
    Utf16.length before = r.location ∧
      Utf16.length inside = r.length := by
  obtain ⟨before, rest, whole, location⟩ := isBoundary_iff.mp start
  obtain ⟨front, after, whole', len⟩ := isBoundary_iff.mp stop
  obtain ⟨sum, -⟩ := Checked.add_eq_some_iff.mp word
  obtain ⟨inside, rfl, rfl⟩ :=
    Utf16.append_of_length_le (whole.trans whole'.symm) (by omega)
  rw [Utf16.length_append] at len
  exact ⟨before, inside, after, whole, location, by omega⟩

variable {before inside after : List Char}

/-- A part of the text has a range that is accepted, and its places. -/
theorem accepted_of_parts (whole : before ++ (inside ++ after) = b.chars)
    (location : Utf16.length before = r.location) (len : Utf16.length inside = r.length)
    (word : r.location + r.length < wordLimit) :
    b.checkRange r = .ok () ∧
      b.charRange r = some (before.length, before.length + inside.length) := by
  have upper := TextRange.upperBound_eq word
  have whole' : (before ++ inside) ++ after = b.chars := by rw [List.append_assoc, whole]
  have len' : Utf16.length (before ++ inside) = r.location + r.length := by
    rw [Utf16.length_append, location, len]
  constructor
  · exact checkRange_eq_ok_iff.mpr ⟨_, upper, isBoundary_iff.mpr ⟨_, _, whole, location⟩,
      isBoundary_iff.mpr ⟨_, _, whole', len'⟩⟩
  · have first := Utf16.charIndex_append before (inside ++ after)
    have behind := Utf16.charIndex_append (before ++ inside) after
    rw [whole, location] at first
    rw [whole', len', List.length_append] at behind
    rw [charRange, upper]
    exact congrArg some (Prod.ext first behind)

theorem split_of_parts (whole : before ++ (inside ++ after) = b.chars)
    (location : Utf16.length before = r.location) (len : Utf16.length inside = r.length)
    (word : r.location + r.length < wordLimit) : b.split r = .ok (before, inside, after) := by
  obtain ⟨accepted, places⟩ := accepted_of_parts whole location len word
  rw [split, accepted, places, ← whole]
  simp [checked, pure, Except.pure, bind, Except.bind, List.take_append, List.drop_append,
    List.drop_eq_nil_of_le (Nat.le_add_right before.length inside.length)]

/-- A range splits the text when the text falls into three parts of which the first two have the
range's location and length. -/
theorem split_eq_ok_iff :
    b.split r = .ok (before, inside, after) ↔
      before ++ (inside ++ after) = b.chars ∧ Utf16.length before = r.location ∧
        Utf16.length inside = r.length ∧ r.location + r.length < wordLimit := by
  constructor
  · intro ok
    cases accepted : b.checkRange r with
    | error e =>
        rw [split, accepted] at ok
        cases ok
    | ok _ =>
        obtain ⟨upper, bound, start, stop⟩ := checkRange_eq_ok_iff.mp accepted
        obtain ⟨front, part, behind, whole, location, len⟩ := exists_parts bound start stop
        obtain ⟨rfl, word⟩ := Checked.add_eq_some_iff.mp bound
        cases ok.symm.trans (split_of_parts whole location len word)
        exact ⟨whole, location, len, word⟩
  · rintro ⟨whole, location, len, word⟩
    exact split_of_parts whole location len word

/-- A range splits the text when both its bounds are boundaries, which none outside the text is. -/
theorem exists_split {upper : Nat} (word : r.upperBound = some upper)
    (start : b.isBoundary r.location) (stop : b.isBoundary upper) :
    ∃ before inside after, b.split r = .ok (before, inside, after) := by
  obtain ⟨before, inside, after, whole, location, len⟩ := exists_parts word start stop
  obtain ⟨sum, limit⟩ := Checked.add_eq_some_iff.mp word
  exact ⟨before, inside, after, split_eq_ok_iff.mpr ⟨whole, location, len, by omega⟩⟩

/-- Splitting stops where checking the range does. -/
theorem split_eq_error {e : Failure} : b.split r = .error e ↔ b.checkRange r = .error e := by
  cases accepted : b.checkRange r with
  | error e' =>
      have stopped : b.split r = .error e' := by
        rw [split, accepted]
        rfl
      simp [stopped]
  | ok _ =>
      obtain ⟨upper, word, start, stop⟩ := checkRange_eq_ok_iff.mp accepted
      obtain ⟨before, inside, after, cut⟩ := exists_split word start stop
      simp [cut]

/-- What is made of the parts that a range splits the text into. -/
theorem map_split_eq_ok_iff {α : Type} {f : List Char → List Char → List Char → α} {a : α} :
    (do
      let (before, inside, after) ← b.split r
      return f before inside after : Outcome α) = .ok a ↔
      ∃ before inside after, b.split r = .ok (before, inside, after) ∧
      a = f before inside after := by
  cases cut : b.split r with
  | error e => simp [bind, Except.bind]
  | ok parts =>
      obtain ⟨before, inside, after⟩ := parts
      constructor
      · intro ok
        cases ok
        exact ⟨before, inside, after, rfl, rfl⟩
      · rintro ⟨_, _, _, same, rfl⟩
        cases same
        rfl

/-- The text of a range is what stands in it. -/
theorem substring_eq (b : TextBuffer) (r : TextRange) :
    b.substring r = (do
      let (_, inside, _) ← b.split r
      return String.ofList inside) := by
  rw [substring, split]
  cases b.checkRange r with
  | error e => rfl
  | ok _ =>
      cases b.charRange r with
      | none => rfl
      | some places => rfl

/-- A range is replaced by putting the new text between what stands before it and behind it. -/
theorem replace_eq (b : TextBuffer) (r : TextRange) (text : String) :
    b.replace r text = (do
      let (before, _, after) ← b.split r
      return ⟨before ++ text.toList ++ after⟩) := by
  cases cut : b.split r with
  | error e =>
      rw [replace, split_eq_error.mp cut]
      rfl
  | ok parts =>
      obtain ⟨before, inside, after⟩ := parts
      obtain ⟨whole, location, len, word⟩ := split_eq_ok_iff.mp cut
      obtain ⟨accepted, places⟩ := accepted_of_parts whole location len word
      -- Removing nothing and inserting nothing are left out.
      have kept : (if before.length < before.length + inside.length then
          b.chars.take before.length ++ b.chars.drop (before.length + inside.length)
        else b.chars) = before ++ after := by
        rw [← whole]
        split
        · simp [List.drop_append]
        · next nothing =>
            obtain rfl : inside = [] := List.eq_nil_of_length_eq_zero (by omega)
            rfl
      rw [replace, accepted, places]
      dsimp only [checked, pure, Except.pure, bind, Except.bind]
      rw [kept]
      split
      · simp
      · next empty =>
          rw [Decidable.not_not.mp empty]
          simp

theorem substring_eq_ok_iff {text : String} :
    b.substring r = .ok text ↔ ∃ before inside after,
      b.split r = .ok (before, inside, after) ∧ text = String.ofList inside := by
  rw [substring_eq]
  exact map_split_eq_ok_iff (f := fun _ inside _ => String.ofList inside)

theorem replace_eq_ok_iff {text : String} {b' : TextBuffer} :
    b.replace r text = .ok b' ↔ ∃ before inside after,
      b.split r = .ok (before, inside, after) ∧ b' = ⟨before ++ text.toList ++ after⟩ := by
  rw [replace_eq]
  exact map_split_eq_ok_iff (f := fun before _ after => TextBuffer.mk
    (before ++ text.toList ++ after))

theorem replace_of_split {before inside after : List Char}
    (cut : b.split r = .ok (before, inside, after)) (text : String) :
    b.replace r text = .ok ⟨before ++ text.toList ++ after⟩ :=
  replace_eq_ok_iff.mpr ⟨before, inside, after, cut, rfl⟩

end TextBuffer

end CodeEditor

import CodeEditor.Proofs.Text.Window

/-!
Offsets that split a surrogate pair.

Between the two halves of a pair there is no boundary, and everywhere else in a text there is one
(`isBoundary_iff_not_splitsPair`). A range is therefore refused for one of three reasons, of which
`Objects` names the first, and is read when there is none (`split_eq_error_iff`).
-/

namespace CodeEditor

namespace Utf16

/-- The first half of a surrogate pair. -/
def IsHigh (u : UInt16) : Prop := 0xD800 ≤ u.toNat ∧ u.toNat ≤ 0xDBFF

/-- The second half of a surrogate pair. -/
def IsLow (u : UInt16) : Prop := 0xDC00 ≤ u.toNat ∧ u.toNat ≤ 0xDFFF

instance (u : UInt16) : Decidable (IsHigh u) :=
  inferInstanceAs (Decidable (0xD800 ≤ u.toNat ∧ u.toNat ≤ 0xDBFF))

instance (u : UInt16) : Decidable (IsLow u) :=
  inferInstanceAs (Decidable (0xDC00 ≤ u.toNat ∧ u.toNat ≤ 0xDFFF))

/-- A character is one unit that is half of no pair, or a pair. -/
theorem units_cases (c : Char) :
    (∃ u, units c = [u] ∧ ¬IsHigh u ∧ ¬IsLow u) ∨
      ∃ high low, units c = [high, low] ∧ IsHigh high ∧ IsLow low := by
  have scalar := toNat_lt_or c
  unfold units
  split
  · next basic =>
      refine .inl ⟨_, rfl, ?_, ?_⟩
      · rw [IsHigh, toNat_unit basic]
        omega
      · rw [IsLow, toNat_unit basic]
        omega
  · next wide =>
      refine .inr ⟨_, _, rfl, ?_, ?_⟩
      · rw [IsHigh, toNat_unit (by omega)]
        omega
      · rw [IsLow, toNat_unit (by omega)]
        omega

end Utf16

namespace TextBuffer

variable {b : TextBuffer} {r : TextRange}

/-- An offset lies between the two halves of a surrogate pair. -/
def SplitsPair (b : TextBuffer) (offset : Nat) : Prop :=
  ∃ before high low, offset = before + 1 ∧ b.unitAt before = some high ∧
    b.unitAt offset = some low ∧
    Utf16.IsHigh high ∧ Utf16.IsLow low

/-- An offset inside a text that is no boundary lies inside a character. -/
theorem exists_inside {offset : Nat} (inside : offset ≤ b.length) (uncut : ¬b.isBoundary offset) :
    ∃ before c after, before ++ c :: after = b.chars ∧ Utf16.length before < offset ∧
      offset < Utf16.length before + Utf16.width c := by
  rw [isBoundary_iff] at uncut
  have notEnd : offset ≠ b.length := fun atEnd => uncut ⟨b.chars, [], List.append_nil _, atEnd.symm⟩
  obtain ⟨before, c, after, whole, -, start, stop⟩ :=
    @Utf16.exists_char b.chars _ (Nat.lt_of_le_of_ne inside notEnd)
  have notStart : Utf16.length before ≠ offset := fun atStart => uncut ⟨before, _, whole, atStart⟩
  exact ⟨before, c, after, whole, Nat.lt_of_le_of_ne start notStart, stop⟩

/-- Inside a text, the offsets that split a pair are those that are no boundaries. -/
theorem splitsPair_iff {offset : Nat} (inside : offset ≤ b.length) :
    b.SplitsPair offset ↔ ¬b.isBoundary offset := by
  constructor
  · rintro ⟨place, high, low, rfl, -, there, -, isLow⟩ cut
    obtain ⟨before, after, whole, location⟩ := isBoundary_iff.mp cut
    -- The unit there is the first of a character, and no character begins with a second half.
    rw [unitAt_eq, units, ← whole, Utf16.encode_append, ← location, ← Utf16.length_encode,
      List.getElem?_append_right (Nat.le_refl _), Nat.sub_self] at there
    cases after with
    | nil => cases there
    | cons c after =>
        rw [Utf16.encode_cons] at there
        rcases Utf16.units_cases c with ⟨u, single, -, notLow⟩ | ⟨first, second, pair, isHigh, -⟩
        · rw [single] at there
          cases there
          exact absurd isLow notLow
        · rw [pair] at there
          cases there
          obtain ⟨-, le⟩ := isHigh
          obtain ⟨ge, -⟩ := isLow
          omega
  · intro uncut
    obtain ⟨before, c, after, whole, low, high⟩ := exists_inside inside uncut
    have width := Utf16.length_units c
    rcases Utf16.units_cases c with ⟨u, single, -⟩ | ⟨first, second, pair, isHigh, isLow⟩
    · rw [single, List.length_singleton] at width
      omega
    · rw [pair, List.length_cons, List.length_singleton] at width
      obtain rfl : offset = Utf16.length before + 1 := by omega
      refine ⟨_, first, second, rfl, ?_, ?_, isHigh, isLow⟩
      all_goals
        rw [unitAt_eq, units, ← whole, Utf16.encode_append, Utf16.encode_cons, pair,
          ← Utf16.length_encode, List.getElem?_append_right (by omega)]
        simp

theorem isBoundary_iff_not_splitsPair {offset : Nat} (inside : offset ≤ b.length) :
    b.isBoundary offset ↔ ¬b.SplitsPair offset := by
  rw [splitsPair_iff inside, Decidable.not_not]

/-! ### Ranges -/

/-- What is wrong with a range, the first that is. -/
inductive Objects (b : TextBuffer) (r : TextRange) : EditError → Prop
  | outside : b.length < r.location + r.length →
      Objects b r (.rangeOutOfBounds r.location r.length b.length)
  | start : r.location + r.length ≤ b.length → b.SplitsPair r.location →
      Objects b r (.notCharBoundary r.location)
  | stop : r.location + r.length ≤ b.length → ¬b.SplitsPair r.location →
      b.SplitsPair (r.location + r.length) → Objects b r (.notCharBoundary (r.location + r.length))

/-- There is one first thing that is wrong. -/
theorem Objects.unique {e e' : EditError} (objects : b.Objects r e) (objects' : b.Objects r e') :
    e = e' := by
  cases objects with
  | outside outside =>
      cases objects' with
      | outside => rfl
      | start inside => omega
      | stop inside => omega
  | start inside splits =>
      cases objects' with
      | outside => omega
      | start => rfl
      | stop _ whole => exact absurd splits whole
  | stop inside whole =>
      cases objects' with
      | outside => omega
      | start _ splits => exact absurd splits whole
      | stop => rfl

/-- Nothing is wrong with a range that splits the text. -/
theorem not_objects_of_split {before inside after : List Char}
    (cut : b.split r = .ok (before, inside, after)) (e : EditError) : ¬b.Objects r e := by
  obtain ⟨whole, location, len, word⟩ := split_eq_ok_iff.mp cut
  have upper := TextRange.upperBound_eq word
  obtain ⟨start, stop⟩ := (exists_split_iff upper).mp ⟨before, inside, after, cut⟩
  intro objects
  cases objects with
  | outside outside =>
      rw [length, ← whole, Utf16.length_append, Utf16.length_append] at outside
      omega
  | start inText splits => exact (isBoundary_iff_not_splitsPair (by omega)).mp start splits
  | stop inText _ splits => exact (isBoundary_iff_not_splitsPair inText).mp stop splits

/-- What splitting stops with when it stops, and why. -/
theorem exists_objects_of_split_error (word : r.location + r.length < wordLimit) {f : Failure}
    (uncut : b.split r = .error f) : ∃ e, b.Objects r e ∧ f = .rejected e := by
  rw [split_eq_error, checkRange, TextRange.upperBound_eq word] at uncut
  dsimp only [checked, pure, Except.pure, bind, Except.bind] at uncut
  split at uncut
  · next outside =>
      cases uncut
      exact ⟨_, .outside outside, rfl⟩
  · next inText =>
      have inText : r.location + r.length ≤ b.length := Nat.not_lt.mp inText
      have start := @splitsPair_iff b r.location (by omega)
      have stop := splitsPair_iff inText
      simp only [List.forM] at uncut
      split at uncut
      · next startCut =>
          split at uncut
          · cases uncut
          · next stopUncut =>
              cases uncut
              exact ⟨_, .stop inText (fun splits => start.mp splits startCut) (stop.mpr stopUncut),
                rfl⟩
      · next startUncut =>
          cases uncut
          exact ⟨_, .start inText (start.mpr startUncut), rfl⟩

/-- A range is refused exactly for the first thing that is wrong with it. -/
theorem split_eq_error_iff (word : r.location + r.length < wordLimit) {f : Failure} :
    b.split r = .error f ↔ ∃ e, b.Objects r e ∧ f = .rejected e := by
  refine ⟨exists_objects_of_split_error word, ?_⟩
  rintro ⟨e, objects, rfl⟩
  cases cut : b.split r with
  | ok parts => exact absurd objects (not_objects_of_split cut e)
  | error f =>
      obtain ⟨e', objects', rfl⟩ := exists_objects_of_split_error word cut
      rw [objects.unique objects']

/-- What is made of the parts of a text stops with what splitting stops with. -/
theorem map_split_eq_error_iff {α : Type} {f : List Char → List Char → List Char → α}
    {e : Failure} :
    (do
      let (before, inside, after) ← b.split r
      return f before inside after : Outcome α) = .error e ↔ b.split r = .error e := by
  cases b.split r with
  | ok parts => exact ⟨nofun, nofun⟩
  | error e' =>
      constructor
      · intro stopped
        cases stopped
        rfl
      · intro stopped
        cases stopped
        rfl

theorem substring_eq_error_iff {e : Failure} : b.substring r = .error e ↔ b.split r = .error e := by
  rw [substring_eq]
  exact map_split_eq_error_iff (f := fun _ inside _ => String.ofList inside)

theorem replace_eq_error_iff {text : String} {e : Failure} :
    b.replace r text = .error e ↔ b.split r = .error e := by
  rw [replace_eq]
  exact map_split_eq_error_iff (f := fun before _ after => TextBuffer.mk
    (before ++ text.toList ++ after))

end TextBuffer

end CodeEditor

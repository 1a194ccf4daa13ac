import CodeEditor.Proofs.Document.Descriptors

/-!
Bytes and ranges carried over an edit.

`moved` is where a byte goes when the numbers are as large as they need to be, and `mapByte_eq` says
that nothing else is computed as long as no sum leaves the machine word: nothing is ever subtracted
from a smaller number. From what `moved` does in front of the edit, within it and behind it follows
that the order of bytes is kept (`moved_mono`), that bytes outside stay what they are
(`Turns.getElem?_moved`), and what becomes of a range (`mapRange_eq`). `mapping_monotone` puts it
together.

A byte at the start of an edit stays there even if it is not replaced. An insertion in front of it
therefore belongs to the range that starts there.
-/

namespace CodeEditor

/-- Ranges that follow each other overlap only if both are empty and at the same place. -/
theorem ByteRange.overlaps_of_le {r s : ByteRange} (le : r.location + r.length ≤ s.location)
    (word : s.location + s.length < wordLimit) :
    r.overlaps s = some (r.isEmpty && s.isEmpty && r.location == s.location) := by
  have upper : r.upperBound = some (r.location + r.length) :=
    Checked.add_eq_some_iff.mpr ⟨rfl, by omega⟩
  have upper' : s.upperBound = some (s.location + s.length) :=
    Checked.add_eq_some_iff.mpr ⟨rfl, word⟩
  rw [overlaps, upper, upper']
  cases empty : r.isEmpty with
  | true =>
      cases empty' : s.isEmpty with
      | true => rfl
      | false =>
          have behind : ¬s.location < r.location := by omega
          simp [behind]
  | false =>
      have filled : ¬s.location < r.location + r.length := by omega
      cases s.isEmpty <;> simp [filled]

/-- Ranges that follow each other share no byte. -/
theorem ByteRange.not_contains_of_le {r s : ByteRange} (le : r.location + r.length ≤ s.location)
    {byte : Nat} (inside : r.contains byte = some true) : s.contains byte = some false := by
  have below : byte < r.location + r.length := by
    simp only [contains] at inside
    split at inside
    · obtain ⟨upper, word, below⟩ := Option.map_eq_some_iff.mp inside
      obtain ⟨rfl, -⟩ := Checked.add_eq_some_iff.mp word
      exact of_decide_eq_true below
    · cases inside
  rw [contains, if_neg (by omega)]

namespace TextEdit

variable {e : TextEdit} {x y : Nat} {r : ByteRange}

/-- The end of the replaced bytes in the text before. -/
def oldEndAt (e : TextEdit) : Nat := e.startByte + e.bytesRemoved

/-- Where a byte of the text before stands in the text behind, whatever the numbers are. -/
def moved (e : TextEdit) (byte : Nat) : Nat :=
  if byte ≤ e.startByte then byte
  else if e.oldEndAt ≤ byte then byte + e.bytesAdded - e.bytesRemoved
  else e.startByte + e.bytesAdded

/-- A byte can be addressed, and still can with the bytes added in front of it. -/
def Addresses (e : TextEdit) (byte : Nat) : Prop := byte + e.bytesAdded < wordLimit

/-- A byte that an edit leaves alone: it lies in front of the start, or behind it and not in front
of the end of the replaced bytes. -/
def Spares (e : TextEdit) (byte : Nat) : Prop :=
  byte < e.startByte ∨ e.startByte < byte ∧ e.oldEndAt ≤ byte

instance (e : TextEdit) (byte : Nat) : Decidable (e.Addresses byte) :=
  inferInstanceAs (Decidable (byte + e.bytesAdded < wordLimit))

instance (e : TextEdit) (byte : Nat) : Decidable (e.Spares byte) :=
  inferInstanceAs (Decidable (_ ∨ _))

/-- Some bytes become others by an edit. -/
structure Turns (e : TextEdit) (old new : List UInt8) : Prop where
  removed : e.oldEndAt ≤ old.length
  spliced : ∃ inserted, inserted.length = e.bytesAdded ∧ new = e.splice old inserted

theorem Describes.turns {old new : TextBuffer} (describes : e.Describes old new) :
    e.Turns old.allBytes new.allBytes := by
  have length (b : TextBuffer) : b.allBytes.length = b.byteLength := by
    rw [TextBuffer.allBytes, TextBuffer.byteLength, ← TextBuffer.length_units]
    induction b.units with
    | nil => rfl
    | cons u us ih => simp [ih, TextBuffer.unitBytes, bytesPerUnit]; omega
  refine ⟨?_, e.inserted new, ?_, describes.bytes.symm⟩
  · rw [length]
    exact describes.removed
  · have added := describes.added
    rw [inserted, List.length_take, List.length_drop, length]
    omega

/-! ### Bytes -/

/-- A byte stays, goes to the end of what is inserted, or is shifted. -/
theorem moved_cases (e : TextEdit) (x : Nat) :
    x ≤ e.startByte ∧ e.moved x = x ∨
      (e.startByte < x ∧ x < e.oldEndAt) ∧ e.moved x = e.startByte + e.bytesAdded ∨
      (e.startByte < x ∧ e.oldEndAt ≤ x) ∧ e.moved x + e.bytesRemoved = x + e.bytesAdded := by
  by_cases front : x ≤ e.startByte
  · exact .inl ⟨front, if_pos front⟩
  · rw [moved, if_neg front]
    by_cases ge : e.oldEndAt ≤ x
    · have removed : e.bytesRemoved ≤ x := Nat.le_trans (Nat.le_add_left _ _) ge
      rw [if_pos ge]
      omega
    · rw [if_neg ge]
      omega

theorem moved_of_le (front : x ≤ e.startByte) : e.moved x = x := if_pos front

theorem moved_of_ge (behind : e.startByte < x) (ge : e.oldEndAt ≤ x) :
    e.moved x + e.bytesRemoved = x + e.bytesAdded := by
  have cases := moved_cases e x
  omega

/-- Nothing moves by more than the bytes added. -/
theorem moved_le (e : TextEdit) (x : Nat) : e.moved x ≤ x + e.bytesAdded := by
  have cases := moved_cases e x
  omega

theorem moved_mono (le : x ≤ y) : e.moved x ≤ e.moved y := by
  have oldEnd : e.oldEndAt = e.startByte + e.bytesRemoved := rfl
  have casesX := moved_cases e x
  have casesY := moved_cases e y
  omega

/-- Bytes are mapped where they go, and no sum or difference on the way leaves the machine word. -/
theorem mapByte_eq (room : e.Addresses e.oldEndAt) (word : e.Addresses x) :
    e.mapByte x = some (e.moved x) := by
  rw [Addresses] at room word
  rw [oldEndAt] at room
  have oldEnd : e.oldEndByte = some e.oldEndAt :=
    Checked.add_eq_some_iff.mpr ⟨rfl, show e.startByte + e.bytesRemoved < wordLimit by omega⟩
  rw [mapByte, moved]
  split
  · rfl
  · rw [oldEnd, Option.bind_eq_bind, Option.bind_some]
    split
    · next ge =>
        have sum : Checked.add x e.bytesAdded = some (x + e.bytesAdded) :=
          Checked.add_eq_some_iff.mpr ⟨rfl, word⟩
        rw [sum, Option.bind_some]
        rw [oldEndAt] at ge
        exact Checked.sub_eq_some_iff.mpr (by omega)
    · exact Checked.add_eq_some_iff.mpr ⟨rfl, show e.startByte + e.bytesAdded < wordLimit by omega⟩

/-- Bytes that an edit leaves alone are found where they went. -/
theorem Turns.getElem?_moved {old new : List UInt8} (turns : e.Turns old new)
    (spared : e.Spares x) :
    new[e.moved x]? = old[x]? := by
  obtain ⟨removed, inserted, added, rfl⟩ := turns
  have front : (old.take e.startByte).length = e.startByte := by
    rw [List.length_take]
    rw [oldEndAt] at removed
    omega
  rw [splice, List.append_assoc]
  rcases spared with before | ⟨behind, ge⟩
  · rw [moved_of_le (Nat.le_of_lt before), List.getElem?_append_left (by omega),
      List.getElem?_take_of_lt before]
  · have shifted := moved_of_ge behind ge
    rw [oldEndAt] at ge
    rw [List.getElem?_append_right (by omega), List.getElem?_append_right (by omega),
      List.getElem?_drop]
    congr 1
    omega

/-! ### Ranges -/

/-- The range from where a range's start goes to where its end goes. -/
def movedRange (e : TextEdit) (r : ByteRange) : ByteRange :=
  .ofBounds (e.moved r.location) (e.moved (r.location + r.length))

@[simp] theorem movedRange_location (e : TextEdit) (r : ByteRange) :
    (e.movedRange r).location = e.moved r.location := rfl

/-- The end of a range does not pass its start. -/
theorem movedRange_upper (e : TextEdit) (r : ByteRange) :
    (e.movedRange r).location + (e.movedRange r).length = e.moved (r.location + r.length) :=
  Nat.add_sub_of_le (moved_mono (Nat.le_add_right _ _))

theorem mapRange_eq (room : e.Addresses e.oldEndAt) (word : e.Addresses (r.location + r.length)) :
    e.mapRange r = some (e.movedRange r) := by
  have start : e.Addresses r.location := by
    rw [Addresses] at word ⊢
    omega
  have upper : r.upperBound = some (r.location + r.length) :=
    Checked.add_eq_some_iff.mpr ⟨rfl, by rw [Addresses] at word; omega⟩
  rw [mapRange, mapByte_eq room start, upper, Option.bind_eq_bind, Option.bind_some,
    Option.bind_some, mapByte_eq room word]
  rfl

/-- A range in front of the edit or behind it keeps its length. -/
theorem movedRange_length_of_outside
    (outside : r.location + r.length ≤ e.startByte ∨
      e.startByte < r.location ∧ e.oldEndAt ≤ r.location) :
    (e.movedRange r).length = r.length := by
  have upper := movedRange_upper e r
  rw [movedRange_location] at upper
  rcases outside with front | ⟨behind, ge⟩
  · rw [moved_of_le front, moved_of_le (by omega)] at upper
    omega
  · have start := moved_of_ge behind ge
    have stop := @moved_of_ge e (r.location + r.length) (by omega) (by omega)
    omega

/-- A range around the edit changes its length as the text does. -/
theorem movedRange_length_of_around (front : r.location ≤ e.startByte)
    (behind : e.startByte < r.location + r.length) (ge : e.oldEndAt ≤ r.location + r.length) :
    e.bytesRemoved ≤ r.length ∧ (e.movedRange r).length = r.length +
      e.bytesAdded - e.bytesRemoved := by
  have upper := movedRange_upper e r
  have stop := moved_of_ge behind ge
  rw [movedRange_location, moved_of_le front] at upper
  rw [oldEndAt] at ge
  omega

/-- Mapping bytes and ranges over an edit succeeds as long as the bytes added lead no end out of the
machine word, and keeps the order of bytes. Ranges that the edit does not cut keep their length, or
change it with the text, and bytes that it leaves alone are those of the text behind. Ranges one
after the other stay so and share no byte; they overlap at most as two empty ranges at one place. -/
theorem mapping_monotone (e : TextEdit) (room : e.Addresses e.oldEndAt) :
    (∀ x y, x ≤ y → e.Addresses y →
      ∃ x' y', e.mapByte x = some x' ∧ e.mapByte y = some y' ∧ x' ≤ y') ∧
    (∀ r : ByteRange, e.Addresses (r.location + r.length) → ∃ r', e.mapRange r = some r' ∧
      e.mapByte r.location = some r'.location ∧
      e.mapByte (r.location + r.length) = some (r'.location + r'.length) ∧
      (r.location + r.length ≤ e.startByte ∨ e.startByte < r.location ∧ e.oldEndAt ≤ r.location →
        r'.length = r.length) ∧
      (r.location ≤ e.startByte → e.startByte < r.location + r.length →
        e.oldEndAt ≤ r.location + r.length →
        e.bytesRemoved ≤ r.length ∧ r'.length = r.length + e.bytesAdded - e.bytesRemoved)) ∧
    (∀ old new, e.Turns old new → ∀ x, e.Spares x → e.Addresses x →
      ∃ x', e.mapByte x = some x' ∧ new[x']? = old[x]?) ∧
    ∀ r s : ByteRange, r.location + r.length ≤ s.location → e.Addresses (s.location + s.length) →
      ∃ r' s', e.mapRange r = some r' ∧ e.mapRange s = some s' ∧
        r'.location + r'.length ≤ s'.location ∧
        (∀ byte, r'.contains byte = some true → s'.contains byte = some false) ∧
        r'.overlaps s' = some (r'.isEmpty && s'.isEmpty && r'.location == s'.location) := by
  have below {x y : Nat} (le : x ≤ y) (word : e.Addresses y) : e.Addresses x := by
    rw [Addresses] at word ⊢
    omega
  refine ⟨?bytes, ?lengths, ?contents, ?order⟩
  case bytes =>
    intro x y le word
    exact ⟨_, _, mapByte_eq room (below le word), mapByte_eq room word, moved_mono le⟩
  case lengths =>
    intro r word
    refine ⟨_, mapRange_eq room word, mapByte_eq room (below (Nat.le_add_right _ _) word), ?_,
      movedRange_length_of_outside, movedRange_length_of_around⟩
    rw [movedRange_upper]
    exact mapByte_eq room word
  case contents =>
    intro old new turns x spared word
    exact ⟨_, mapByte_eq room word, turns.getElem?_moved spared⟩
  case order =>
    intro r s le word
    have ordered :
        (e.movedRange r).location + (e.movedRange r).length ≤ (e.movedRange s).location := by
      rw [movedRange_upper]
      exact moved_mono le
    have fits : (e.movedRange s).location + (e.movedRange s).length < wordLimit := by
      rw [movedRange_upper]
      exact Nat.lt_of_le_of_lt (moved_le e _) word
    exact ⟨_, _, mapRange_eq room (below (by omega) word), mapRange_eq room word, ordered,
      fun _ => ByteRange.not_contains_of_le ordered, ByteRange.overlaps_of_le ordered fits⟩

/-- A letter is inserted between two others. The ranges of the letters touch at the insertion, which
falls to the second: it grows, and its start stays where the first ends. -/
theorem mapping_monotone_of_insertion :
    ∃ (e : TextEdit) (old new : TextBuffer), e.Describes old new ∧ old.text = "ab" ∧
    new.text = "acb" ∧
      e.startByte = 2 ∧ e.oldEndAt = 2 ∧
      (∃ x' y', e.mapByte 2 = some x' ∧ e.mapByte 3 = some y' ∧ x' ≤ y') ∧
      (∃ x', e.mapByte 3 = some x' ∧ new.allBytes[x']? = old.allBytes[3]?) ∧
      ∃ r' s', e.mapRange ⟨0, 2⟩ = some r' ∧ e.mapRange ⟨2, 2⟩ = some s' ∧
        r'.location + r'.length ≤ s'.location ∧ r'.length = 2 ∧ s'.length = 4 := by
  have describes : (between (.ofString "ab") (.ofString "acb") ⟨1, 0⟩ 1).Describes (.ofString "ab")
      (.ofString "acb") := @describes_between _ _ ⟨1, 0⟩ "c" rfl
  obtain ⟨bytes, lengths, contents, order⟩ := mapping_monotone
    (between (.ofString "ab") (.ofString "acb") ⟨1, 0⟩ 1) (by decide)
  obtain ⟨r', s', first, second, ordered, -, -⟩ := order ⟨0, 2⟩ ⟨2, 2⟩ (by decide) (by decide)
  obtain ⟨_, first', -, -, kept, -⟩ := lengths ⟨0, 2⟩ (by decide)
  obtain ⟨_, second', -, -, -, grown⟩ := lengths ⟨2, 2⟩ (by decide)
  obtain rfl := Option.some.inj (first.symm.trans first')
  obtain rfl := Option.some.inj (second.symm.trans second')
  exact ⟨_, _, _, describes, rfl, rfl, rfl, rfl, bytes 2 3 (by decide) (by decide),
    contents _ _ describes.turns 3 (by decide) (by decide), r', s', first, second, ordered,
    kept (by decide), (grown (by decide) (by decide) (by decide)).2⟩

end TextEdit

end CodeEditor

import CodeEditor.Proofs.Text.Units

/-!
A buffer as a window on the code units of its text.

`Utf16.decode?` reads code units as characters, which not all sequences of units can be; it undoes
`encode` and accepts nothing else (`decode?_eq_some_iff`). What stands in front of an offset can be
read exactly when the offset is a boundary (`isBoundary_iff_decode`). `chunks` reads a buffer piece
by piece, as a parser does, and `allBytes` are the bytes of its text.

`isWindow` puts together what each way to read a buffer says of the one sequence of units: length,
single units, chunks, bytes, boundaries, ranges read as text and ranges replaced.
-/

namespace CodeEditor

namespace Utf16

/-- The characters that code units stand for. A surrogate stands for a character only in a pair, the
high one in front of the low one. -/
def decode? : List UInt16 → Option (List Char)
  | [] => some []
  | u :: rest =>
      if u.toNat < 0xD800 ∨ 0xDFFF < u.toNat then (decode? rest).map (Char.ofNat u.toNat :: ·)
      else
        match rest with
        | [] => none
        | low :: rest =>
            if u.toNat < 0xDC00 ∧ 0xDC00 ≤ low.toNat ∧ low.toNat ≤ 0xDFFF then
              (decode? rest).map
                (Char.ofNat (0x10000 + (u.toNat - 0xD800) * 0x400 + (low.toNat - 0xDC00)) :: ·)
            else none

/-- No character has the code point of a surrogate. -/
theorem toNat_lt_or (c : Char) : c.toNat < 0xD800 ∨ 0xDFFF < c.toNat ∧ c.toNat < 0x110000 := by
  have valid := c.valid
  simpa [UInt32.isValidChar, Nat.isValidChar] using valid

theorem toNat_ofNat_of_valid {n : Nat} (valid : n.isValidChar) : (Char.ofNat n).toNat = n := by
  rw [Char.ofNat, dif_pos valid]
  rfl

theorem toNat_unit {n : Nat} (small : n < 0x10000) : (UInt16.ofNat n).toNat = n := by
  rw [UInt16.toNat_ofNat', Nat.mod_eq_of_lt small]

/-- The units of a character are read as that character. -/
theorem decode?_units_append (c : Char) (us : List UInt16) :
    decode? (units c ++ us) = (decode? us).map (c :: ·) := by
  have scalar := toNat_lt_or c
  unfold units
  split
  · next basic =>
    rw [List.singleton_append, decode?.eq_def]
    dsimp only
    rw [toNat_unit basic, if_pos (by omega), Char.ofNat_toNat]
  · next wide =>
    have high := @toNat_unit (0xD800 + (c.toNat - 0x10000) / 0x400) (by omega)
    have low := @toNat_unit (0xDC00 + (c.toNat - 0x10000) % 0x400) (by omega)
    have whole : 0x10000 + (0xD800 + (c.toNat - 0x10000) / 0x400 - 0xD800) * 0x400 +
        (0xDC00 + (c.toNat - 0x10000) % 0x400 - 0xDC00) = c.toNat := by omega
    dsimp only
    rw [List.cons_append, List.singleton_append, decode?.eq_def]
    dsimp only
    rw [high, low, if_neg (by omega), if_pos (by omega), whole, Char.ofNat_toNat]

theorem decode?_encode_append (cs : List Char) (us : List UInt16) :
    decode? (encode cs ++ us) = (decode? us).map (cs ++ ·) := by
  induction cs with
  | nil => simp
  | cons c cs ih =>
      rw [encode_cons, List.append_assoc, decode?_units_append, ih, Option.map_map]
      rfl

theorem encode_of_decode? {us : List UInt16} {cs : List Char} (read : decode? us = some cs) :
    encode cs = us := by
  fun_induction decode? us generalizing cs with
  | case1 =>
      cases read
      rfl
  | case2 u rest basic ih =>
      obtain ⟨ds, below, rfl⟩ := Option.map_eq_some_iff.mp read
      have small := u.toNat_lt
      have point : (Char.ofNat u.toNat).toNat = u.toNat :=
        toNat_ofNat_of_valid (by unfold Nat.isValidChar; omega)
      rw [encode_cons, ih below, units, point, if_pos small, UInt16.ofNat_toNat]
      rfl
  | case3 u single => cases read
  | case4 u surrogate low rest pair ih =>
      obtain ⟨ds, below, rfl⟩ := Option.map_eq_some_iff.mp read
      have point := @toNat_ofNat_of_valid
        (0x10000 + (u.toNat - 0xD800) * 0x400 + (low.toNat - 0xDC00))
        (by unfold Nat.isValidChar; omega)
      -- The pair is recovered from the code point by division.
      have first : 0xD800 + (0x10000 + (u.toNat - 0xD800) * 0x400 + (low.toNat - 0xDC00) -
          0x10000) / 0x400 = u.toNat := by omega
      have second : 0xDC00 + (0x10000 + (u.toNat - 0xD800) * 0x400 + (low.toNat - 0xDC00) -
          0x10000) % 0x400 = low.toNat := by omega
      rw [encode_cons, ih below, units, point, if_neg (by omega)]
      dsimp only
      rw [first, second, UInt16.ofNat_toNat, UInt16.ofNat_toNat]
      rfl
  | case5 => cases read

/-- Code units are read as the characters that they encode, and no others can be read. -/
theorem decode?_eq_some_iff {us : List UInt16} {cs : List Char} :
    decode? us = some cs ↔ us = encode cs := by
  constructor
  · intro read
    exact (encode_of_decode? read).symm
  · rintro rfl
    have whole := decode?_encode_append cs []
    rwa [List.append_nil, decode?, Option.map_some, List.append_nil] at whole

/-- Texts with the same units are the same. -/
theorem encode_inj {cs ds : List Char} : encode cs = encode ds ↔ cs = ds := by
  constructor
  · intro same
    have read : decode? (encode cs) = some ds := decode?_eq_some_iff.mpr same
    rw [decode?_eq_some_iff.mpr rfl] at read
    exact Option.some.inj read
  · rintro rfl
    rfl

/-- What can be read at the front of a text is a front of its characters. -/
theorem exists_append_of_encode {front cs : List Char} {us : List UInt16}
    (same : encode front ++ us = encode cs) : ∃ behind, front ++ behind = cs ∧
    encode behind = us := by
  have read := decode?_encode_append front us
  rw [same, decode?_eq_some_iff.mpr rfl] at read
  obtain ⟨behind, below, whole⟩ := Option.map_eq_some_iff.mp read.symm
  exact ⟨behind, whole, encode_of_decode? below⟩

end Utf16

namespace TextBuffer

variable {b : TextBuffer} {r : TextRange}

/-! ### Boundaries -/

/-- An offset is a boundary when what stands in front of it can be read. -/
theorem isBoundary_iff_decode {offset : Nat} :
    b.isBoundary offset ↔
      offset ≤ b.length ∧ (Utf16.decode? (b.units.take offset)).isSome := by
  rw [isBoundary_iff, Option.isSome_iff_exists]
  constructor
  · rintro ⟨before, behind, whole, rfl⟩
    refine ⟨?_, before, Utf16.decode?_eq_some_iff.mpr ?_⟩
    · rw [length, ← whole, Utf16.length_append]
      exact Nat.le_add_right _ _
    · rw [units, ← whole, Utf16.encode_append, ← Utf16.length_encode, List.take_left]
  · rintro ⟨inside, before, read⟩
    have front := Utf16.decode?_eq_some_iff.mp read
    have split : Utf16.encode before ++ b.units.drop offset = Utf16.encode b.chars := by
      rw [← front, List.take_append_drop, units]
    obtain ⟨behind, whole, -⟩ := Utf16.exists_append_of_encode split
    refine ⟨before, behind, whole, ?_⟩
    rw [← Utf16.length_encode, ← front, List.length_take, length_units]
    exact Nat.min_eq_left inside

/-- The units in front of a range, in it and behind it. -/
theorem units_of_split {before inside after : List Char}
    (cut : b.split r = .ok (before, inside, after)) :
    b.units.take r.location = Utf16.encode before ∧
      (b.units.drop r.location).take r.length = Utf16.encode inside ∧
      b.units.drop (r.location + r.length) = Utf16.encode after := by
  obtain ⟨whole, location, len, -⟩ := split_eq_ok_iff.mp cut
  rw [← Utf16.length_encode] at location len
  rw [units, ← whole, Utf16.encode_append, Utf16.encode_append, ← location, ← len]
  refine ⟨List.take_left, ?_, ?_⟩
  · rw [List.drop_left, List.take_left]
  · rw [← List.drop_drop, List.drop_left, List.drop_left]

/-- Ranges inside the text split it exactly when both their bounds are boundaries. -/
theorem exists_split_iff {upper : Nat} (word : r.upperBound = some upper) :
    (∃ before inside after, b.split r = .ok (before, inside, after)) ↔
      b.isBoundary r.location ∧ b.isBoundary upper := by
  constructor
  · rintro ⟨before, inside, after, cut⟩
    obtain ⟨whole, location, len, -⟩ := split_eq_ok_iff.mp cut
    obtain ⟨sum, -⟩ := Checked.add_eq_some_iff.mp word
    refine ⟨isBoundary_iff.mpr ⟨before, inside ++ after, whole, location⟩,
      isBoundary_iff.mpr ⟨before ++ inside, after, ?_, ?_⟩⟩
    · rw [List.append_assoc, whole]
    · rw [Utf16.length_append]
      omega
  · rintro ⟨start, stop⟩
    exact exists_split word start stop

/-! ### Chunks -/

/-- The pieces that are read from an offset on, each of at most as many units as the next of the
given sizes, until a piece is empty. -/
def chunksFrom (b : TextBuffer) (sizes : Nat → Nat) (round offset : Nat) : List (List UInt16) :=
  if b.chunk offset (sizes round) = [] then []
  else
    b.chunk offset (sizes round) ::
      b.chunksFrom sizes (round + 1) (offset + (b.chunk offset (sizes round)).length)
termination_by b.length - offset
decreasing_by
  next filled =>
    have pos := List.length_pos_iff.mpr filled
    rw [chunk_eq, List.length_take, List.length_drop, length_units] at pos ⊢
    omega

/-- The pieces of a whole text. -/
def chunks (b : TextBuffer) (sizes : Nat → Nat) : List (List UInt16) := b.chunksFrom sizes 0 0

theorem flatten_chunksFrom {sizes : Nat → Nat} (some : ∀ n, 1 ≤ sizes n) (round offset : Nat) :
    (b.chunksFrom sizes round offset).flatten = b.units.drop offset := by
  have size := some round
  fun_induction chunksFrom b sizes round offset with
  | case1 round offset empty =>
      rw [chunk_eq, List.take_eq_nil_iff] at empty
      rw [List.flatten_nil]
      exact (empty.resolve_left (by omega)).symm
  | case2 round offset filled ih =>
      rw [List.flatten_cons, ih (some _), ← List.drop_drop, chunk_eq]
      exact List.prefix_iff_eq_append.mp (List.take_prefix _ _)

/-! ### Bytes -/

/-- The bytes of the text, low bytes first. -/
def allBytes (b : TextBuffer) : List UInt8 := b.units.flatMap unitBytes

theorem flatMap_unitBytes_drop (us : List UInt16) (count : Nat) :
    (us.drop count).flatMap unitBytes = (us.flatMap unitBytes).drop (count * bytesPerUnit) := by
  induction us generalizing count with
  | nil => simp
  | cons u us ih =>
      cases count with
      | zero => simp
      | succ count =>
          rw [List.drop_succ_cons, ih, Nat.succ_mul]
          rfl

theorem flatMap_unitBytes_take (us : List UInt16) (count : Nat) :
    (us.take count).flatMap unitBytes = (us.flatMap unitBytes).take (count * bytesPerUnit) := by
  induction us generalizing count with
  | nil => simp
  | cons u us ih =>
      cases count with
      | zero => simp
      | succ count =>
          rw [List.take_succ_cons, List.flatMap_cons, ih, Nat.succ_mul]
          rfl

/-- The bytes of a range can be read when it covers whole units inside the text. A range of bytes
that is given by machine words never leaves them when it is counted in units. -/
theorem bytes_eq {r : ByteRange} (location : r.location < wordLimit)
    (length : r.length < wordLimit) :
    b.bytes r = some
      (if r.location % bytesPerUnit = 0 ∧ r.length % bytesPerUnit = 0 ∧
          r.location + r.length ≤ b.byteLength then
        some ((b.allBytes.drop r.location).take r.length)
      else none) := by
  rw [bytes]
  split
  · next odd => rw [if_neg (by omega)]
  · next even =>
      have word : r.toText.location + r.toText.length < wordLimit := by
        dsimp only [ByteRange.toText, unitsOfBytes, bytesPerUnit]
        omega
      have here : r.toText.location * bytesPerUnit = r.location := by
        dsimp only [ByteRange.toText, unitsOfBytes, bytesPerUnit] at even ⊢
        omega
      have size : r.toText.length * bytesPerUnit = r.length := by
        dsimp only [ByteRange.toText, unitsOfBytes, bytesPerUnit] at even ⊢
        omega
      dsimp only
      rw [TextRange.upperBound_eq word, Option.bind_eq_bind, Option.bind_some, byteLength, ← here,
        ← size, chunk_eq, flatMap_unitBytes_take, flatMap_unitBytes_drop]
      split
      · next outside =>
          rw [if_neg (by dsimp only [bytesPerUnit]; omega)]
          rfl
      · next inside =>
          rw [if_pos (by dsimp only [bytesPerUnit]; omega)]
          rfl

/-! ### The window -/

/-- Whatever is read from a buffer, and whatever it is turned into, is said by one sequence of code
units. -/
structure IsWindow (b : TextBuffer) (us : List UInt16) : Prop where
  length : b.length = us.length
  unitAt : ∀ offset, b.unitAt offset = us[offset]?
  chunk : ∀ offset limit, b.chunk offset limit = (us.drop offset).take limit
  /-- Chunks of whatever sizes, read until one is empty, are the whole text. -/
  chunks : ∀ sizes : Nat → Nat, (∀ n, 1 ≤ sizes n) → (b.chunks sizes).flatten = us
  bytes : ∀ r : ByteRange, r.location < wordLimit → r.length < wordLimit →
    b.bytes r = some
      (if r.location % bytesPerUnit = 0 ∧ r.length % bytesPerUnit = 0 ∧
          r.location + r.length ≤ us.length * bytesPerUnit then
        some (((us.flatMap unitBytes).drop r.location).take r.length)
      else none)
  isBoundary : ∀ offset, b.isBoundary offset ↔
    offset ≤ us.length ∧ (Utf16.decode? (us.take offset)).isSome
  /-- A range is read when both its bounds are boundaries, which none outside the text is. -/
  reads : ∀ (r : TextRange) (upper : Nat), r.upperBound = some upper →
    ((∃ text, b.substring r = .ok text) ↔ b.isBoundary r.location ∧ b.isBoundary upper)
  /-- What is read of a range are the characters that its units stand for. -/
  substring : ∀ (r : TextRange) (text : String), b.substring r = .ok text →
    Utf16.decode? ((us.drop r.location).take r.length) = some text.toList
  /-- A range is replaced when both its bounds are boundaries. -/
  replaces : ∀ (r : TextRange) (upper : Nat) (text : String), r.upperBound = some upper →
    ((∃ b', b.replace r text = .ok b') ↔ b.isBoundary r.location ∧ b.isBoundary upper)
  /-- The units of the new text stand where those of the range stood. -/
  replace : ∀ (r : TextRange) (text : String) (b' : TextBuffer), b.replace r text = .ok b' →
    Utf16.encode b'.text.toList =
      us.take r.location ++ Utf16.encode text.toList ++ us.drop (r.location + r.length)

theorem encode_text (b : TextBuffer) : Utf16.encode b.text.toList = b.units := by
  rw [text, String.toList_ofList, units]

/-- Every buffer is a window on the code units of its text. -/
theorem isWindow (b : TextBuffer) : b.IsWindow (Utf16.encode b.text.toList) := by
  rw [encode_text]
  constructor
  case length => exact b.length_units.symm
  case unitAt => exact b.unitAt_eq
  case chunk => exact b.chunk_eq
  case chunks =>
    intro sizes some
    exact flatten_chunksFrom some 0 0
  case bytes =>
    intro r location length
    rw [length_units]
    exact bytes_eq location length
  case isBoundary =>
    intro offset
    rw [length_units]
    exact isBoundary_iff_decode
  case reads =>
    intro r upper word
    rw [← exists_split_iff word]
    constructor
    · rintro ⟨text, read⟩
      obtain ⟨before, inside, after, cut, -⟩ := substring_eq_ok_iff.mp read
      exact ⟨before, inside, after, cut⟩
    · rintro ⟨before, inside, after, cut⟩
      exact ⟨_, substring_eq_ok_iff.mpr ⟨before, inside, after, cut, rfl⟩⟩
  case substring =>
    intro r text read
    obtain ⟨before, inside, after, cut, rfl⟩ := substring_eq_ok_iff.mp read
    obtain ⟨-, here, -⟩ := units_of_split cut
    rw [String.toList_ofList]
    exact Utf16.decode?_eq_some_iff.mpr here
  case replaces =>
    intro r upper text word
    rw [← exists_split_iff word]
    constructor
    · rintro ⟨b', replaced⟩
      obtain ⟨before, inside, after, cut, -⟩ := replace_eq_ok_iff.mp replaced
      exact ⟨before, inside, after, cut⟩
    · rintro ⟨before, inside, after, cut⟩
      exact ⟨_, replace_of_split cut text⟩
  case replace =>
    intro r text b' replaced
    obtain ⟨before, inside, after, cut, rfl⟩ := replace_eq_ok_iff.mp replaced
    obtain ⟨front, -, behind⟩ := units_of_split cut
    rw [encode_text, front, behind, units, Utf16.encode_append, Utf16.encode_append]

/-- A chunk may start between the two halves of a pair, where no range can. -/
example : (ofString "x😀y").chunk 2 8 = [0xDE00, 0x79] ∧ (ofString "x😀y").isBoundary 2 = false := by
  decide

end TextBuffer

end CodeEditor

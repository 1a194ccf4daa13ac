/-!
UTF-16 code units of a text.

A character of the basic plane is one code unit, any other a pair of surrogates. `charIndex` and
`charOffset` go between offsets, which count code units, and places, which count characters.
-/

namespace CodeEditor.Utf16

/-- The number of code units of a character. -/
def width (c : Char) : Nat :=
  if c.toNat < 0x10000 then 1 else 2

/-- The code units of a character. -/
def units (c : Char) : List UInt16 :=
  if c.toNat < 0x10000 then [UInt16.ofNat c.toNat]
  else
    let rest := c.toNat - 0x10000
    [UInt16.ofNat (0xD800 + rest / 0x400), UInt16.ofNat (0xDC00 + rest % 0x400)]

/-- The code units of a text. -/
def encode (cs : List Char) : List UInt16 :=
  cs.flatMap units

/-- The number of code units of a text. -/
def length (cs : List Char) : Nat :=
  cs.foldl (fun n c => n + width c) 0

/-- The number of characters that end at or before an offset, which is the place of the character
that the offset lies in. -/
def charIndex : List Char → Nat → Nat
  | [], _ => 0
  | c :: cs, offset => if offset < width c then 0 else charIndex cs (offset - width c) + 1

/-- The offset at which the character of a place begins. -/
def charOffset (cs : List Char) (place : Nat) : Nat :=
  length (cs.take place)

/-- Leave out a number of units, then add units until there are `limit`. -/
def collect (limit : Nat) : List UInt16 → Nat → Array UInt16 → Array UInt16
  | [], _, collected => collected
  | _ :: us, skip + 1, collected => collect limit us skip collected
  | u :: us, 0, collected =>
      let collected := collected.push u
      if collected.size = limit then collected else collect limit us 0 collected

theorem width_pos (c : Char) : 0 < width c := by
  unfold width; split <;> decide

theorem length_units (c : Char) : (units c).length = width c := by
  unfold units width; split <;> rfl

private theorem foldl_width (cs : List Char) (n : Nat) :
    cs.foldl (fun n c => n + width c) n = n + length cs := by
  induction cs generalizing n with
  | nil => simp [length]
  | cons c cs ih =>
      simp only [length, List.foldl_cons]
      rw [ih, ih (0 + width c)]
      omega

@[simp] theorem length_nil : length [] = 0 := rfl

@[simp] theorem length_cons (c : Char) (cs : List Char) :
    length (c :: cs) = width c + length cs := by
  simp [length, foldl_width cs (width c)]

@[simp] theorem length_append (cs ds : List Char) : length (cs ++ ds) = length cs + length ds := by
  induction cs with
  | nil => simp
  | cons c cs ih =>
      rw [List.cons_append, length_cons, length_cons, ih]
      omega

theorem length_encode (cs : List Char) : (encode cs).length = length cs := by
  induction cs with
  | nil => rfl
  | cons c cs ih =>
      rw [length_cons, ← ih, ← length_units]
      simp [encode]

end CodeEditor.Utf16

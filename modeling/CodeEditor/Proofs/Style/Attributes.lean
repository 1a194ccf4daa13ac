import CodeEditor.Style.Attributes
import Mathlib

/-!
Attributes that no comparison tells apart.

Where neighbouring runs are joined, the attributes of the first stay and those of the second are
lost. Both compare as equal, which is not the same as being equal: zero has two signs. `unsigned`
forgets them, and attributes are the same without them exactly when they are identical but for zeros
(`TextAttributes.unsigned_eq_of_beq`). Overlaying does not look at signs (`unsigned_overlay`).

A comparison tells what is not a number apart from itself. Where everything `IsNumeric`, comparing
is the same as being identical but for zeros (`TextAttributes.beq_iff_unsigned_eq`).
-/

namespace CodeEditor

/-- A number without the sign of zero. -/
def unsigned (x : Float32) : Float32 := if x == 0 then 0 else x

theorem beq_zero_iff {x : Float32} : (x == 0) = true ↔ x = 0 ∨ x = -0 := by
  have notNan : (0 : Float32) ≠ .nan ∧ (-0 : Float32) ≠ .nan ∧ (0 : Float32) ≠ -0 := by decide
  rw [Float32.beq_iff_ne_nan_and_eq]
  grind

/-- Numbers are the same without signs of zero when they are identical or compare as equal. -/
theorem unsigned_eq_iff {x y : Float32} : unsigned x = unsigned y ↔ x = y ∨ (x == y) = true := by
  have notNan : (0 : Float32) ≠ .nan ∧ (-0 : Float32) ≠ .nan ∧ (0 : Float32) ≠ -0 := by decide
  have zeroX := @beq_zero_iff x
  have zeroY := @beq_zero_iff y
  have equal := @Float32.beq_iff_ne_nan_and_eq x y
  rw [unsigned, unsigned]
  grind

theorem beq_of_unsigned_eq {x y : Float32} (number : x.isNaN = false)
    (same : unsigned x = unsigned y) : (x == y) = true := by
  rcases unsigned_eq_iff.mp same with rfl | equal
  · rw [Float32.isNaN_eq_decide_eq_nan, decide_eq_false_iff_not] at number
    exact Float32.beq_iff_ne_nan_and_eq.mpr ⟨number, number, .inl rfl⟩
  · exact equal

namespace Font

/-- The size is a number. -/
def IsNumeric (f : Font) : Prop := f.size.isNaN = false

/-- A font without the sign of zero. -/
def unsigned (f : Font) : Font := { f with size := CodeEditor.unsigned f.size }

theorem unsigned_eq_of_beq {f g : Font} (same : (f == g) = true) : f.unsigned = g.unsigned := by
  obtain ⟨family, size⟩ := f
  obtain ⟨family', size'⟩ := g
  obtain ⟨rfl, sizes⟩ : family = family' ∧ (size == size') = true := by
    simpa [BEq.beq, instBEqFont.beq] using same
  rw [unsigned, unsigned, unsigned_eq_iff.mpr (.inr sizes)]

theorem beq_of_unsigned_eq {f g : Font} (numeric : f.IsNumeric) (same : f.unsigned = g.unsigned) :
    (f == g) = true := by
  obtain ⟨family, size⟩ := f
  obtain ⟨family', size'⟩ := g
  obtain ⟨rfl, sizes⟩ := Font.mk.inj same
  have equal := CodeEditor.beq_of_unsigned_eq numeric sizes
  simpa [BEq.beq, instBEqFont.beq] using equal

end Font

namespace Shadow

/-- All measures are numbers. -/
def IsNumeric (s : Shadow) : Prop :=
  s.offsetX.isNaN = false ∧ s.offsetY.isNaN = false ∧ s.blurRadius.isNaN = false

/-- A shadow without signs of zero. -/
def unsigned (s : Shadow) : Shadow where
  color := s.color
  offsetX := CodeEditor.unsigned s.offsetX
  offsetY := CodeEditor.unsigned s.offsetY
  blurRadius := CodeEditor.unsigned s.blurRadius

theorem unsigned_eq_of_beq {s t : Shadow} (same : (s == t) = true) : s.unsigned = t.unsigned := by
  obtain ⟨color, x, y, blur⟩ := s
  obtain ⟨color', x', y', blur'⟩ := t
  obtain ⟨rfl, xs, ys, blurs⟩ : color = color' ∧ (x == x') = true ∧ (y == y') = true ∧
      (blur == blur') = true := by
    simpa [BEq.beq, instBEqShadow.beq] using same
  rw [unsigned, unsigned, unsigned_eq_iff.mpr (.inr xs), unsigned_eq_iff.mpr (.inr ys),
    unsigned_eq_iff.mpr (.inr blurs)]

theorem beq_of_unsigned_eq {s t : Shadow} (numeric : s.IsNumeric) (same : s.unsigned = t.unsigned) :
    (s == t) = true := by
  obtain ⟨color, x, y, blur⟩ := s
  obtain ⟨color', x', y', blur'⟩ := t
  obtain ⟨numberX, numberY, numberBlur⟩ := numeric
  obtain ⟨rfl, xs, ys, blurs⟩ := Shadow.mk.inj same
  have equalX := CodeEditor.beq_of_unsigned_eq numberX xs
  have equalY := CodeEditor.beq_of_unsigned_eq numberY ys
  have equalBlur := CodeEditor.beq_of_unsigned_eq numberBlur blurs
  simpa [BEq.beq, instBEqShadow.beq] using ⟨equalX, equalY, equalBlur⟩

end Shadow

namespace TextAttributes

/-- All numbers that are set are numbers. -/
def IsNumeric (a : TextAttributes) : Prop :=
  (∀ font, a.font = some font → font.IsNumeric) ∧
    ∀ shadow, a.shadow = some shadow → shadow.IsNumeric

/-- Attributes without signs of zero. -/
def unsigned (a : TextAttributes) : TextAttributes :=
  { a with font := a.font.map Font.unsigned, shadow := a.shadow.map Shadow.unsigned }

/-- Where a part compares as equal, it is the same without signs of zero. -/
theorem map_eq_of_beq {α : Type} [BEq α] {f : α → α} (same : ∀ x y, (x == y) = true → f x = f y)
    {a b : Option α} (equal : (a == b) = true) : a.map f = b.map f := by
  cases a with
  | none =>
      cases b with
      | none => rfl
      | some y => cases equal
  | some x =>
      cases b with
      | none => cases equal
      | some y => exact congrArg some (same x y equal)

/-- What compares as equal is the same without signs of zero. -/
theorem unsigned_eq_of_beq {a b : TextAttributes} (same : (a == b) = true) :
    a.unsigned = b.unsigned := by
  obtain ⟨color, font, shadow, traits⟩ := a
  obtain ⟨color', font', shadow', traits'⟩ := b
  obtain ⟨colors, fonts, shadows, rfl⟩ : (color == color') = true ∧ (font == font') = true ∧
      (shadow == shadow') = true ∧ traits = traits' := by
    simpa [BEq.beq, instBEqTextAttributes.beq] using same
  rw [unsigned, unsigned, eq_of_beq colors,
    map_eq_of_beq (fun _ _ => Font.unsigned_eq_of_beq) fonts,
    map_eq_of_beq (fun _ _ => Shadow.unsigned_eq_of_beq) shadows]

/-- Where a part is the same without signs of zero, it compares as equal. -/
theorem beq_of_map_eq {α : Type} [BEq α] {f : α → α} {numeric : α → Prop}
    (same : ∀ x y, numeric x → f x = f y → (x == y) = true) {a b : Option α}
    (numbers : ∀ x, a = some x → numeric x) (equal : a.map f = b.map f) : (a == b) = true := by
  cases a with
  | none =>
      rw [Option.map_eq_none_iff.mp equal.symm]
      rfl
  | some x =>
      obtain ⟨y, rfl, here⟩ := Option.map_eq_some_iff.mp equal.symm
      exact same x y (numbers x rfl) here.symm

/-- Comparing numeric attributes is comparing them without signs of zero. -/
theorem beq_iff_unsigned_eq {a b : TextAttributes} (numeric : a.IsNumeric) :
    (a == b) = true ↔ a.unsigned = b.unsigned := by
  refine ⟨unsigned_eq_of_beq, fun same => ?_⟩
  obtain ⟨color, font, shadow, traits⟩ := a
  obtain ⟨color', font', shadow', traits'⟩ := b
  obtain ⟨rfl, fonts, shadows, rfl⟩ := TextAttributes.mk.inj same
  have equalFont := beq_of_map_eq (fun _ _ => Font.beq_of_unsigned_eq) numeric.1 fonts
  have equalShadow := beq_of_map_eq (fun _ _ => Shadow.beq_of_unsigned_eq) numeric.2 shadows
  simpa [BEq.beq, instBEqTextAttributes.beq] using ⟨beq_self_eq_true color, equalFont, equalShadow⟩

theorem unsigned_overlay (a b : TextAttributes) :
    (a.overlay b).unsigned = a.unsigned.overlay b.unsigned := by
  simp [unsigned, overlay, Option.map_or]

theorem isNumeric_unset : IsNumeric {} := ⟨nofun, nofun⟩

theorem IsNumeric.overlay {a b : TextAttributes} (numeric : a.IsNumeric) (numeric' : b.IsNumeric) :
    (a.overlay b).IsNumeric := by
  constructor
  · intro font here
    rcases Option.or_eq_some_iff.mp here with upper | ⟨-, lower⟩
    · exact numeric'.1 font upper
    · exact numeric.1 font lower
  · intro shadow here
    rcases Option.or_eq_some_iff.mp here with upper | ⟨-, lower⟩
    · exact numeric'.2 shadow upper
    · exact numeric.2 shadow lower

theorem overlay_overlay (a b : TextAttributes) : (a.overlay b).overlay b = a.overlay b := by
  obtain ⟨color, font, shadow, bold, italic⟩ := b
  simp [overlay, FontTraits.union, ← Option.or_assoc]

/-- Attributes that set nothing leave what lies below. -/
theorem overlay_of_isEmpty {a b : TextAttributes} (empty : b.isEmpty = true) : a.overlay b = a := by
  obtain ⟨color, font, shadow, bold, italic⟩ := b
  obtain ⟨rfl, rfl, rfl, rfl, rfl⟩ :
      color = none ∧ font = none ∧ shadow = none ∧ bold = false ∧ italic = false := by
    simpa [isEmpty, FontTraits.isEmpty, and_assoc] using empty
  simp [overlay, FontTraits.union]

end TextAttributes

end CodeEditor

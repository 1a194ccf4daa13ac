/-!
How text is drawn.

An attribute that is not set leaves what lies below. Overlaying attributes replaces those that are
set and adds up the traits.
-/

namespace CodeEditor

/-- A color with alpha. -/
structure TextColor where
  red : UInt8
  green : UInt8
  blue : UInt8
  alpha : UInt8
deriving DecidableEq

namespace TextColor

/-- An opaque color. -/
def opaqueRgb (red green blue : UInt8) : TextColor := ⟨red, green, blue, 0xff⟩

/-- The value of a hexadecimal digit. -/
def hexDigit? (b : UInt8) : Option Nat :=
  let n := b.toNat
  if 0x30 ≤ n ∧ n ≤ 0x39 then some (n - 0x30)
  else if 0x41 ≤ n ∧ n ≤ 0x46 then some (n - 0x41 + 10)
  else if 0x61 ≤ n ∧ n ≤ 0x66 then some (n - 0x61 + 10)
  else none

/-- Two bytes of text read as a hexadecimal number. A plus sign may stand in place of the first
digit. -/
def component? (high low : UInt8) : Option UInt8 := do
  let l ← hexDigit? low
  if high.toNat = 0x2b then return UInt8.ofNat l
  else return UInt8.ofNat ((← hexDigit? high) * 16 + l)

/-- Read a color written with six or eight hexadecimal digits, with or without a number sign in
front. Lengths are counted in bytes, and no byte of a longer character is a digit. -/
def ofHex? (text : String) : Option TextColor :=
  let bytes := text.toUTF8.toList
  let digits := if bytes.head? = some 0x23 then bytes.drop 1 else bytes
  match digits with
  | [r₁, r₂, g₁, g₂, b₁, b₂] => do
      return opaqueRgb (← component? r₁ r₂) (← component? g₁ g₂) (← component? b₁ b₂)
  | [r₁, r₂, g₁, g₂, b₁, b₂, a₁, a₂] => do
      return ⟨← component? r₁ r₂, ← component? g₁ g₂, ← component? b₁ b₂, ← component? a₁ a₂⟩
  | _ => none

end TextColor

/-- A font and its size in points. -/
structure Font where
  family : String
  size : Float32
deriving BEq

/-- A shadow below the text. -/
structure Shadow where
  color : TextColor
  offsetX : Float32
  offsetY : Float32
  blurRadius : Float32
deriving BEq

/-- Traits on top of the font. -/
structure FontTraits where
  bold : Bool := false
  italic : Bool := false
deriving DecidableEq

namespace FontTraits

def isEmpty (t : FontTraits) : Bool := !t.bold && !t.italic

/-- The traits of both. -/
def union (t u : FontTraits) : FontTraits := ⟨t.bold || u.bold, t.italic || u.italic⟩

end FontTraits

/-- The attributes of a piece of text, each of which may be left open. -/
structure TextAttributes where
  color : Option TextColor := none
  font : Option Font := none
  shadow : Option Shadow := none
  traits : FontTraits := {}
deriving BEq

namespace TextAttributes

/-- Nothing is set. -/
def isEmpty (a : TextAttributes) : Bool :=
  a.color.isNone && a.font.isNone && a.shadow.isNone && a.traits.isEmpty

/-- Some attributes with everything that others set laid over them. -/
def overlay (a b : TextAttributes) : TextAttributes where
  color := b.color.or a.color
  font := b.font.or a.font
  shadow := b.shadow.or a.shadow
  traits := a.traits.union b.traits

end TextAttributes

end CodeEditor

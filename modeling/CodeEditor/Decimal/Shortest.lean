/-!
The shortest decimal that stands for a binary number.

A finite double is `m * 2 ^ q`. Every real within its rounding interval reads back as the same
double, so the fewest digits that do are found by trying the two decimals next to the value with
one digit, with two digits, and so on; seventeen always suffice. All comparisons are exact, on
natural numbers.
-/

namespace CodeEditor.Decimal

/-- A power of two. -/
def powerOfTwo (e : Nat) : Nat := Nat.pow 2 e

/-- A positive double as a whole number times a power of two, and whether it is the lowest number
of its binade, below which the doubles lie twice as close. -/
structure Binary where
  significand : Nat
  exponent : Int
  lowest : Bool

/-- The magnitude of a finite double. -/
def Binary.ofBits (bits : Nat) : Binary :=
  let fraction := bits % powerOfTwo 52
  let biased : Nat := bits / powerOfTwo 52 % powerOfTwo 11
  if biased = 0 then ⟨fraction, -1074, false⟩
  else ⟨fraction + powerOfTwo 52, Int.ofNat biased - 1075, fraction = 0 && 1 < biased⟩

/-- A value and the bounds of its rounding interval, as numerators over one denominator. -/
structure Interval where
  low : Nat
  value : Nat
  high : Nat
  denominator : Nat
  /-- The bounds themselves belong to the interval. -/
  closed : Bool

/-- The rounding interval of a double: half way to its neighbours, the half ways themselves going
to the even significand. -/
def Binary.interval (b : Binary) : Interval :=
  let scaleUp := powerOfTwo b.exponent.toNat
  let scaleDown := powerOfTwo (-b.exponent).toNat
  { low := (4 * b.significand - (if b.lowest then 1 else 2)) * scaleUp
    value := 4 * b.significand * scaleUp
    high := (4 * b.significand + 2) * scaleUp
    denominator := 4 * scaleDown
    closed := b.significand % 2 = 0 }

/-- A decimal: its digits as a whole number, and the power of ten they are multiplied by. -/
structure Digits where
  digits : Nat
  exponent : Int
deriving DecidableEq, Repr

/-- The power `10 ^ e` as a fraction. -/
def powerOfTen (e : Int) : Nat × Nat := (Nat.pow 10 e.toNat, Nat.pow 10 (-e).toNat)

/-- The decimal lies in the interval. -/
def Interval.contains (i : Interval) (d : Digits) : Bool :=
  let (num, den) := powerOfTen d.exponent
  let x := d.digits * num * i.denominator
  let low := i.low * den
  let high := i.high * den
  if i.closed then low ≤ x && x ≤ high else low < x && x < high

/-- The distance of a decimal from the value, up to a factor that depends on the exponent only. -/
def Interval.distance (i : Interval) (d : Digits) : Nat :=
  let (num, den) := powerOfTen d.exponent
  let x := d.digits * num * i.denominator
  let v := i.value * den
  (x - v) + (v - x)

/-- The greatest `e ≤ start` within `fuel` steps with `10 ^ e` at most the value. -/
def Interval.magnitudeFrom (i : Interval) : Nat → Int → Int
  | 0, e => e
  | fuel + 1, e =>
      let (num, den) := powerOfTen e
      if num * i.denominator ≤ i.value * den then e else i.magnitudeFrom fuel (e - 1)

/-- The power of ten of the first digit of the value. -/
def Interval.magnitude (i : Interval) : Int := i.magnitudeFrom 700 309

/-- The nearer of the two decimals of a given exponent around the value that lie in the interval. -/
def Interval.nearest? (i : Interval) (exponent : Int) : Option Digits :=
  let (num, den) := powerOfTen exponent
  let below : Digits := ⟨i.value * den / (num * i.denominator), exponent⟩
  let above : Digits := ⟨below.digits + 1, exponent⟩
  match i.contains below, i.contains above with
  | true, true => some (if i.distance above < i.distance below then above else below)
  | true, false => some below
  | false, true => some above
  | false, false => none

/-- The shortest decimal in the interval with at most `digits` digits behind the first, tried from
the power of ten `exponent` downwards. -/
def Interval.shortestFrom (i : Interval) : Nat → Int → Digits
  | 0, exponent => (i.nearest? exponent).getD ⟨i.value, 0⟩
  | digits + 1, exponent => (i.nearest? exponent).getD (i.shortestFrom digits (exponent - 1))

/-- Without zeros at the end. -/
def Digits.strip : Nat → Digits → Digits
  | 0, d => d
  | fuel + 1, d =>
      if d.digits ≠ 0 ∧ d.digits % 10 = 0 then Digits.strip fuel ⟨d.digits / 10, d.exponent + 1⟩
      else d

/-- The fewest digits that read back as a positive double. -/
def shortest (b : Binary) : Digits :=
  let i := b.interval
  (i.shortestFrom 17 i.magnitude).strip 18

/-- How a number is laid out: which powers of ten of the first digit are written positionally. -/
structure Layout where
  positionalFrom : Int
  positionalBelow : Int

/-- Digits laid out. Positional numbers always have a decimal point. -/
def Layout.write (l : Layout) (d : Digits) : String :=
  let ds := Nat.toDigits 10 d.digits
  let magnitude := d.exponent + ds.length - 1
  let zeros (n : Int) : List Char := List.replicate n.toNat '0'
  if l.positionalFrom ≤ magnitude ∧ magnitude < l.positionalBelow then
    let whole := if magnitude < 0 then ['0'] else ds.take (magnitude + 1).toNat ++ zeros d.exponent
    let fraction :=
      if magnitude < 0 then zeros (-magnitude - 1) ++ ds else ds.drop (magnitude + 1).toNat
    String.ofList (whole ++ '.' :: if fraction.isEmpty then ['0'] else fraction)
  else
    let fraction := if ds.length ≤ 1 then [] else '.' :: ds.drop 1
    String.ofList (ds.take 1 ++ fraction) ++ "e" ++ toString magnitude

/-- A double in its shortest decimal form. -/
def Layout.float (l : Layout) (x : Float) : String :=
  if x.isNaN then "NaN"
  else
    let bits := x.toBits.toNat
    let sign := if bits / powerOfTwo 63 = 1 then "-" else ""
    if x.isInf then sign ++ "inf"
    else if bits % powerOfTwo 63 = 0 then sign ++ "0.0"
    else sign ++ l.write (shortest (.ofBits (bits % powerOfTwo 63)))

end CodeEditor.Decimal

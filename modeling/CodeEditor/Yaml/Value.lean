/-!
Structured data.

A `Value` is what a YAML document says. A scalar without quotes is kept as it is written, because
its type depends on what the reader of the value asks for; `ofPlain` gives the type it has by
itself.
-/

namespace CodeEditor.Yaml

/-- A piece of structured data. -/
inductive Value where
  /-- A scalar without quotes. -/
  | plain (text : String)
  | string (text : String)
  | null
  | bool (value : Bool)
  | integer (value : Int)
  /-- A number that is no integer. -/
  | fraction
  | sequence (items : List Value)
  | mapping (entries : List (Value × Value))
deriving Inhabited

/-- The number that some digits of a base write, if there are any and nothing else. -/
def digits? (base : Nat) (cs : List Char) : Option Nat :=
  let digit (c : Char) : Nat :=
    if c.isDigit then c.toNat - '0'.toNat
    else if c.isAlpha then c.toLower.toNat - 'a'.toNat + 10
    else base
  if cs.isEmpty || cs.any (base ≤ digit ·) then none
  else some (cs.foldl (fun n c => base * n + digit c) 0)

/-- The natural number that a text writes: hexadecimal behind `0x`, octal behind `0o`, binary behind
`0b`, else decimal without leading zeros. -/
def natural? : List Char → Option Nat
  | '0' :: 'x' :: rest => digits? 16 rest
  | '0' :: 'o' :: rest => digits? 8 rest
  | '0' :: 'b' :: rest => digits? 2 rest
  | '0' :: _ :: _ => none
  | cs => digits? 10 cs

/-- The integer that a text writes. -/
def integer? : List Char → Option Int
  | '-' :: rest => (natural? rest).map fun n => -(n : Int)
  | '+' :: rest => (natural? rest).map Int.ofNat
  | cs => (natural? cs).map Int.ofNat

/-- A text without its sign. -/
def unsigned : List Char → List Char
  | '-' :: rest | '+' :: rest => rest
  | cs => cs

/-- The text writes a number with a point or an exponent, or one beyond all numbers. -/
def isFraction (cs : List Char) : Bool :=
  let cs := unsigned cs
  if cs ∈ [".inf".toList, ".Inf".toList, ".INF".toList, ".nan".toList, ".NaN".toList, ".NAN".toList]
  then true
  else
    let whole := cs.takeWhile Char.isDigit
    let cs := cs.dropWhile Char.isDigit
    let (places, cs) := match cs with
      | '.' :: rest => (rest.takeWhile Char.isDigit, rest.dropWhile Char.isDigit)
      | _ => ([], cs)
    let leadingZero := match whole with
      | '0' :: _ :: _ => true
      | _ => false
    if leadingZero || (whole.isEmpty && places.isEmpty) then false
    else match cs with
      | [] => true
      | c :: exponent => (c = 'e' || c = 'E') && (digits? 10 (unsigned exponent)).isSome

/-- The value of a scalar without quotes. -/
def ofPlain (text : String) : Value :=
  if text ∈ ["", "~", "null", "Null", "NULL"] then .null
  else if text ∈ ["true", "True", "TRUE"] then .bool true
  else if text ∈ ["false", "False", "FALSE"] then .bool false
  else match integer? text.toList with
    | some n => .integer n
    | none => if isFraction text.toList then .fraction else .string text

/-- The value with the type it has by itself. -/
def Value.typed : Value → Value
  | .plain text => ofPlain text
  | v => v

end CodeEditor.Yaml

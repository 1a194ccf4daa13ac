import CodeEditor.Pattern.Basic

/-!
The signs that patterns are written with.

A written pattern of the small engine is a sequence of lexemes: characters and sets of characters,
anchors, counts, parentheses and bars. Two dialects are in use, which differ in how strict they are;
see `Dialect`.
-/

namespace CodeEditor

/-- How patterns are written. -/
structure Dialect where
  /-- Patterns look ahead by `(?=` and `(?!`, and `(?<name>` remembers a piece. -/
  lookAhead : Bool
  /-- A brace that starts no count stands for itself, and so does an escaped letter without a
  meaning. -/
  lenient : Bool
  /-- The anchors `^` and `$` stand at the ends of every line, not only of the text. -/
  byLine : Bool

/-- How a parenthesis opens. -/
inductive Opening where
  /-- The piece is remembered. -/
  | numbered
  /-- The piece is not remembered. -/
  | plain
  /-- The piece, or none, follows. -/
  | ahead (negated : Bool)
deriving DecidableEq

/-- A sign of a written pattern. -/
inductive Lexeme where
  | chars (set : CharSet)
  | anchor (anchor : Anchor)
  | count (least : Nat) (most : Option Nat) (greedy : Bool)
  | opening (opening : Opening)
  | closing
  | bar
  /-- From here to the end of the group, case does not matter. -/
  | caseless
deriving DecidableEq

namespace Lexeme

/-- What an escaped character stands for. -/
inductive Escaped where
  | char (c : Char)
  | kind (kind : CharKind) (negated : Bool)
  | anchor (anchor : Anchor)

/-- What an escaped character stands for, if anything. -/
def escaped? (d : Dialect) (c : Char) : Option Escaped :=
  match c with
  | 's' => some (.kind .space false)
  | 'S' => some (.kind .space true)
  | 'd' => some (.kind .digit false)
  | 'D' => some (.kind .digit true)
  | 'w' => some (.kind .word false)
  | 'W' => some (.kind .word true)
  | 'b' => some (.anchor .wordBoundary)
  | 'B' => some (.anchor .notWordBoundary)
  | 'A' => some (.anchor .textStart)
  | 'z' => some (.anchor .textEnd)
  | 'n' => some (.char '\n')
  | 't' => some (.char '\t')
  | 'r' => some (.char '\r')
  | 'f' => some (.char '\x0c')
  | 'v' => some (.char '\x0b')
  | 'a' => some (.char '\x07')
  | _ =>
      if c.isDigit then none
      else if c.isAlpha || 128 ≤ c.toNat then if d.lenient then some (.char c) else none
      else some (.char c)

/-- The first character or kind of characters written inside a set, and the rest. -/
def member? (d : Dialect) : List Char → Option ((Char ⊕ CharItem) × List Char)
  | '\\' :: c :: rest =>
      match escaped? d c with
      | some (.char c) => some (.inl c, rest)
      | some (.kind kind negated) => some (.inr (.named kind negated), rest)
      | _ => none
  | '\\' :: [] | [] => none
  | c :: rest => some (.inl c, rest)

/-- The items of a set up to its closing bracket, and the rest. A hyphen between two characters
makes a range of them, which must not be reversed. The amount of fuel is the number of characters
left. -/
def items? (d : Dialect) : Nat → List Char → List CharItem → Option (List CharItem × List Char)
  | _, ']' :: rest, items => some (items.reverse, rest)
  | fuel + 1, cs, items => do
      match ← member? d cs with
      | (.inr item, rest) => items? d fuel rest (item :: items)
      | (.inl low, rest) =>
          match rest with
          | '-' :: ']' :: _ => items? d fuel rest (.range low low :: items)
          | '-' :: rest' =>
              match ← member? d rest' with
              | (.inl high, rest) =>
                  if low ≤ high then items? d fuel rest (.range low high :: items) else none
              | (.inr item, rest) =>
                  if d.lenient then
                    items? d fuel rest (item :: .range '-' '-' :: .range low low :: items)
                  else none
          | _ => items? d fuel rest (.range low low :: items)
  | 0, _, _ => none

/-- The set that follows an opening bracket. A closing bracket right at its start is a member. -/
def set? (d : Dialect) (cs : List Char) : Option (CharSet × List Char) := do
  let (negated, cs) := match cs with
    | '^' :: rest => (true, rest)
    | _ => (false, cs)
  let (items, rest) ← match cs with
    | ']' :: '-' :: _ => items? d cs.length cs.tail [.range ']' ']']
    | ']' :: rest => items? d cs.length rest [.range ']' ']']
    | _ => items? d cs.length cs []
  return (⟨items, negated, false⟩, rest)

/-- The number written by some digits. -/
def number (digits : List Char) : Nat :=
  digits.foldl (fun n c => 10 * n + (c.toNat - '0'.toNat)) 0

/-- The bounds that follow an opening brace, if a count is written there: `n`, `n,`, `n,m` or
`,m`. -/
def bounds? (cs : List Char) : Option ((Nat × Option Nat) × List Char) :=
  let least := cs.takeWhile Char.isDigit
  match cs.dropWhile Char.isDigit with
  | '}' :: rest => if least.isEmpty then none else some ((number least, some (number least)), rest)
  | ',' :: cs =>
      let most := cs.takeWhile Char.isDigit
      match cs.dropWhile Char.isDigit with
      | '}' :: rest =>
          if most.isEmpty then if least.isEmpty then none else some ((number least, none), rest)
          else some ((number least, some (number most)), rest)
      | _ => none
  | _ => none

/-- No count goes beyond this number. -/
def countLimit : Nat := 100000

/-- A count, which is lazy if a question mark follows. -/
def counted (least : Nat) (most : Option Nat) : List Char → Lexeme × List Char
  | '?' :: rest => (.count least most false, rest)
  | rest => (.count least most true, rest)

/-- The count that follows an opening brace, or the brace itself. For lenient readers reversed
bounds are swapped, and a question mark behind a single bound makes the whole optional. -/
def brace? (d : Dialect) (cs : List Char) : Option (Lexeme × List Char) :=
  match bounds? cs with
  | none => if d.lenient then some (.chars (.single '{' false), cs) else none
  | some ((least, most), rest) =>
      if countLimit < least || most.any (countLimit < ·) then none
      else if most = some least && d.lenient then some (.count least most true, rest)
      else if most.any (· < least) then
        if d.lenient then some (counted (most.getD 0) (some least) rest) else none
      else some (counted least most rest)

/-- The parenthesis whose sign and question mark have been read. -/
def special? (d : Dialect) : List Char → Option (Lexeme × List Char)
  | ':' :: rest => some (.opening .plain, rest)
  | 'i' :: ')' :: rest => some (.caseless, rest)
  | '=' :: rest => if d.lookAhead then some (.opening (.ahead false), rest) else none
  | '!' :: rest => if d.lookAhead then some (.opening (.ahead true), rest) else none
  | '<' :: rest =>
      let name := rest.takeWhile CharClass.isWord
      match rest.dropWhile CharClass.isWord with
      | '>' :: rest => if name.isEmpty then none else some (.opening .numbered, rest)
      | _ => none
  | _ => none

/-- The first lexeme of a written pattern, and the rest. -/
def read? (d : Dialect) : List Char → Option (Lexeme × List Char)
  | [] => none
  | '\\' :: rest =>
      match rest with
      | [] => none
      | c :: rest => (escaped? d c).map fun
          | .char c => (.chars (.single c false), rest)
          | .kind kind negated => (.chars ⟨[.named kind negated], false, false⟩, rest)
          | .anchor a => (.anchor a, rest)
  | '[' :: rest => (set? d rest).map fun (set, rest) => (.chars set, rest)
  | '(' :: '?' :: rest => special? d rest
  | '(' :: rest => some (.opening .numbered, rest)
  | ')' :: rest => some (.closing, rest)
  | '|' :: rest => some (.bar, rest)
  | '*' :: rest => some (counted 0 none rest)
  | '+' :: rest => some (counted 1 none rest)
  | '?' :: rest => some (counted 0 (some 1) rest)
  | '{' :: rest => brace? d rest
  | '.' :: rest => some (.chars .notLineFeed, rest)
  | '^' :: rest => some (.anchor (if d.byLine then .lineStart else .textStart), rest)
  | '$' :: rest => some (.anchor (if d.byLine then .lineEnd else .textEnd), rest)
  | c :: rest => some (.chars (.single c false), rest)

/-- All lexemes of a written pattern. The amount of fuel is the number of its characters. -/
def readAll? (d : Dialect) : Nat → List Char → Option (List Lexeme)
  | _, [] => some []
  | 0, _ => none
  | fuel + 1, cs => do
      let (lexeme, rest) ← read? d cs
      return lexeme :: (← readAll? d fuel rest)

end Lexeme

end CodeEditor

import CodeEditor.Text.CharClass

/-!
Patterns of text.

Which patterns there are and what they find is the business of the engine that a tokenizer and a
query are given. The patterns here are one such engine, a small one. A `Pattern` describes pieces of
a text. Which piece it finds follows from the order in which its alternatives are written, see
`Pattern.search`; here is only its shape.
-/

namespace CodeEditor

namespace CharClass

/-- The ranges of letters outside ASCII that count as parts of words. -/
def letters : List (Nat × Nat) :=
  [(0xAA, 0xAA), (0xB5, 0xB5), (0xBA, 0xBA), (0xC0, 0xD6), (0xD8, 0xF6), (0xF8, 0x2C1),
    (0x370, 0x373), (0x376, 0x377), (0x37A, 0x37D), (0x37F, 0x37F), (0x386, 0x386), (0x388, 0x38A),
    (0x38C, 0x38C), (0x38E, 0x3A1), (0x3A3, 0x3F5), (0x3F7, 0x481), (0x48A, 0x52F)]

/-- A letter, a digit or an underscore. -/
def isWord (c : Char) : Bool :=
  c.isAlpha || c = '_' || isDecimalDigit c || inRanges letters c.toNat

end CharClass

/-- A kind of characters with a name of its own. -/
inductive CharKind where
  | space
  | digit
  | word
deriving DecidableEq

/-- The characters of a kind. -/
def CharKind.has : CharKind → Char → Bool
  | .space => CharClass.isWhiteSpace
  | .digit => CharClass.isDecimalDigit
  | .word => CharClass.isWord

/-- A part of a set of characters. -/
inductive CharItem where
  /-- The characters from `low` to `high`, both included. -/
  | range (low high : Char)
  /-- The characters of a kind, or all others. -/
  | named (kind : CharKind) (negated : Bool)
deriving DecidableEq

/-- The characters of a part of a set. -/
def CharItem.has : CharItem → Char → Bool
  | .range low high, c => low ≤ c && c ≤ high
  | .named kind negated, c => kind.has c != negated

/-- A set of characters: those of its items, or all others. A caseless set also has the characters
that differ from one of its members in case only. -/
structure CharSet where
  items : List CharItem
  negated : Bool := false
  caseless : Bool := false
deriving DecidableEq

namespace CharSet

/-- Every character but a line feed. -/
def notLineFeed : CharSet := ⟨[.range '\n' '\n'], true, false⟩

/-- One character. -/
def single (c : Char) (caseless : Bool) : CharSet := ⟨[.range c c], false, caseless⟩

/-- The characters that differ from a character in case only: its other case in ASCII and Latin-1,
and the three signs from further on that are a case of an ASCII or Latin-1 letter. -/
def otherCases (c : Char) : List Char :=
  let n := c.toNat
  let swapped : List Nat :=
    if (0x41 ≤ n && n ≤ 0x5A) || (0xC0 ≤ n && n ≤ 0xDE && n != 0xD7) then [n + 0x20]
    else if (0x61 ≤ n && n ≤ 0x7A) || (0xE0 ≤ n && n ≤ 0xFE && n != 0xF7) then [n - 0x20]
    else []
  let further : List Nat :=
    if c = 'k' ∨ c = 'K' then [0x212A]
    else if c = 's' ∨ c = 'S' then [0x17F]
    else if c = 'å' ∨ c = 'Å' then [0x212B]
    else if n = 0x212A then [0x6B, 0x4B]
    else if n = 0x17F then [0x73, 0x53]
    else if n = 0x212B then [0xE5, 0xC5]
    else []
  (swapped ++ further).map Char.ofNat

/-- A character is in the set. -/
def mem (s : CharSet) (c : Char) : Bool :=
  let listed (c : Char) : Bool := s.items.any (·.has c)
  (listed c || (s.caseless && (otherCases c).any listed)) != s.negated

end CharSet

/-- A place between two characters. -/
inductive Anchor where
  /-- Before the first character. -/
  | textStart
  /-- Behind the last character. -/
  | textEnd
  /-- Before the first character of a line. A line feed that ends the text starts no line. -/
  | lineStart
  /-- Behind the last character of a line. -/
  | lineEnd
  /-- Where a word starts or ends. -/
  | wordBoundary
  /-- Anywhere else. -/
  | notWordBoundary
deriving DecidableEq

/-- A description of pieces of a text. -/
inductive Pattern where
  /-- The empty piece. -/
  | empty
  /-- One character of a set. -/
  | char (set : CharSet)
  /-- The empty piece at certain places. -/
  | anchor (anchor : Anchor)
  /-- A piece followed by another. -/
  | seq (first second : Pattern)
  /-- One of two pieces, the first by preference. -/
  | either (first second : Pattern)
  /-- At least `least` and at most `most` pieces one after the other, by preference many if it is
  greedy, else few. -/
  | repeated (body : Pattern) (least : Nat) (most : Option Nat) (greedy : Bool)
  /-- A piece that is remembered under a number. -/
  | group (number : Nat) (body : Pattern)
  /-- The empty piece where a piece follows, or where none follows. -/
  | ahead (negated : Bool) (body : Pattern)
deriving DecidableEq

end CodeEditor

import CodeEditor.Pattern.Lexeme

/-!
Reading patterns of the small engine.

The lexemes of a written pattern are taken one after the other. `Reading` holds what is unfinished:
the group being read and those around it. A pattern is well written if every parenthesis is closed,
none is closed that was not opened, and every count has something to count.
-/

namespace CodeEditor

namespace Pattern

/-- A group that is being read. -/
structure OpenGroup where
  /-- Its opening, and its number if it has one. -/
  opening : Opening
  number : Nat
  /-- The choices that are complete. -/
  choices : Option Pattern := none
  /-- The pieces of the current choice, the latest first. -/
  pieces : List Pattern := []
  /-- Case does not matter. -/
  caseless : Bool

/-- Some pieces one after the other. -/
def sequence : List Pattern → Pattern
  | [] => .empty
  | [p] => p
  | p :: rest => .seq p (sequence rest)

namespace OpenGroup

/-- Add a piece to the current choice. -/
def push (g : OpenGroup) (p : Pattern) : OpenGroup := { g with pieces := p :: g.pieces }

/-- All choices, the current one included. -/
def body (g : OpenGroup) : Pattern :=
  let choice := sequence g.pieces.reverse
  match g.choices with
  | none => choice
  | some choices => .either choices choice

/-- Begin another choice. -/
def nextChoice (g : OpenGroup) : OpenGroup := { g with choices := some g.body, pieces := [] }

/-- The pattern of the closed group. -/
def close (g : OpenGroup) : Pattern :=
  match g.opening with
  | .numbered => .group g.number g.body
  | .plain => g.body
  | .ahead negated => .ahead negated g.body

end OpenGroup

/-- What has been read and is unfinished. -/
structure Reading where
  /-- The innermost group. -/
  current : OpenGroup
  /-- The groups around it, the innermost first. -/
  around : List OpenGroup := []
  /-- The number of the last remembered group. -/
  groups : Nat := 0

namespace Reading

/-- Nothing has been read. -/
def start : Reading := { current := { opening := .plain, number := 0, caseless := false } }

/-- Take one more lexeme, if it is in place. -/
def take (r : Reading) : Lexeme → Option Reading
  | .chars set =>
      some { r with current := r.current.push (.char { set with caseless := r.current.caseless }) }
  | .anchor a => some { r with current := r.current.push (.anchor a) }
  | .count least most greedy =>
      match r.current.pieces with
      | [] => none
      | p :: rest =>
          some { r with
            current := { r.current with pieces := .repeated p least most greedy :: rest } }
  | .opening opening =>
      let groups := if opening = .numbered then r.groups + 1 else r.groups
      some {
        current := { opening, number := groups, caseless := r.current.caseless }
        around := r.current :: r.around
        groups }
  | .closing =>
      match r.around with
      | [] => none
      | outer :: around => some { r with current := outer.push r.current.close, around }
  | .bar => some { r with current := r.current.nextChoice }
  | .caseless => some { r with current := { r.current with caseless := true } }

/-- The pattern, if no group is open. -/
def finish (r : Reading) : Option Pattern :=
  if r.around.isEmpty then some r.current.body else none

end Reading

/-- The pattern that a text writes, if it is well written. -/
def ofString? (d : Dialect) (text : String) : Option Pattern := do
  let cs := text.toList
  let lexemes ← Lexeme.readAll? d cs.length cs
  (← lexemes.foldlM Reading.take .start).finish

end Pattern

end CodeEditor

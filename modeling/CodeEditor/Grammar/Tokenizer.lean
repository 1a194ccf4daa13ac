import CodeEditor.Grammar.Compiled
import CodeEditor.Grammar.Token
import CodeEditor.Line.Delimiter

/-!
Finding the rules of a grammar in a text.

A line is walked from left to right. At each place the candidate found earliest applies, of those
found at the same place the first. Inside a region its closing pattern is looked for as well and
wins ties. The regions that are open at the end of a line are carried over to the next. A match of
nothing does not move the walk, except that a phrase steps over one character; since a line might
otherwise be walked for ever, the number of steps is limited.
-/

namespace CodeEditor.Grammar

/-- The regions that are open, the innermost first. -/
structure RuleStack where
  frames : List RuleId := []
deriving DecidableEq

/-- A region that is open, and where it starts on the line. -/
structure Frame where
  id : RuleId
  start : Nat

/-- How far the walk of a line has come. -/
structure Walk where
  position : Nat
  /-- The regions that are open, the innermost first. -/
  frames : List Frame
  /-- The marks made so far, the latest first. -/
  marks : List Mark

namespace Walk

/-- The walk of a line with some regions open. -/
def start (stack : RuleStack) : Walk := ⟨0, stack.frames.map fun id => ⟨id, 0⟩, []⟩

def stack (w : Walk) : RuleStack := ⟨w.frames.map (·.id)⟩

/-- Add some marks in order. -/
def mark (w : Walk) (marks : List Mark) : Walk := { w with marks := marks.reverse ++ w.marks }

end Walk

/-- A rule that was found. -/
inductive Found where
  | phrase (phrase : Phrase) (m : Match)
  | region (id : RuleId) (region : Region) (m : Match)

/-- The match by which a rule was found. -/
def Found.match : Found → Match
  | .phrase _ m | .region _ _ m => m

namespace Compiled

/-- Look for a rule from a place on. -/
def find (g : Compiled) (line : Array Char) (position : Nat) (id : RuleId) :
    Except Error (Option Found) :=
  match g.rule? id with
  | none => .error .foreignRule
  | some (.phrase p) => .ok ((p.pattern line position).map (.phrase p))
  | some (.region r) => .ok ((r.opening line position).map (.region id r))
  | some _ => .ok none

/-- The earlier of two finds, the first of those at the same place. -/
def earlier : Option Found → Option Found → Option Found
  | some a, some b => if b.match.span.start < a.match.span.start then some b else some a
  | a, b => a.or b

/-- The rule that applies first from a place on. -/
def findFirst (g : Compiled) (line : Array Char) (position : Nat) (ids : List RuleId) :
    Except Error (Option Found) :=
  ids.foldlM (fun best id => return earlier best (← g.find line position id)) none

/-- The region of an open frame. -/
def frameRegion (g : Compiled) (f : Frame) : Except Error Region :=
  match g.region? f.id with
  | some r => .ok r
  | none => .error .notRegion

/-- The mark of a region. -/
def regionMark (r : Region) (span : Span) : List Mark :=
  r.scope.toList.map fun scope => ⟨scope, span, true⟩

/-- Close the innermost region. -/
def close (w : Walk) (f : Frame) (frames : List Frame) (r : Region) (m : Match) : Walk :=
  { w with frames, position := m.span.stop }.mark
    (regionMark r ⟨f.start, m.span.stop⟩ ++ Mark.ofCaptures m r.closingCaptures)

/-- Apply a rule that was found. Behind the last character a phrase of nothing ends the walk, but
its marks stay. -/
def apply (line : Array Char) (w : Walk) : Found → Walk × Bool
  | .phrase p m =>
      let w := w.mark (⟨p.scope, m.span, false⟩ :: Mark.ofCaptures m p.captures)
      if m.span.stop ≠ w.position then ({ w with position := m.span.stop }, true)
      else if w.position < line.size then ({ w with position := w.position + 1 }, true)
      else (w, false)
  | .region id r m =>
      ({ w with frames := ⟨id, m.span.start⟩ :: w.frames, position := m.span.stop }.mark
        (Mark.ofCaptures m r.openingCaptures), true)

/-- One step of the walk, and whether there may be more. -/
def step (g : Compiled) (line : Array Char) (w : Walk) : Except Error (Walk × Bool) :=
  match w.frames with
  | [] => do
      match ← g.findFirst line w.position g.root with
      | none => return (w, false)
      | some found => return apply line w found
  | f :: frames => do
      let r ← g.frameRegion f
      let closing := r.closing line w.position
      let found ← g.findFirst line w.position r.candidates
      match closing, found with
      | some m, some found =>
          if m.span.start ≤ found.match.span.start then return (close w f frames r m, true)
          else return apply line w found
      | some m, none => return (close w f frames r m, true)
      | none, some found => return apply line w found
      | none, none => return (w, false)

/-- Walk for at most a number of steps. An error leaves the walk as it was before the step. -/
def walk (g : Compiled) (line : Array Char) : Nat → Walk → Walk × Except Error Unit
  | 0, w => (w, .error .tooManySteps)
  | fuel + 1, w =>
      match g.step line w with
      | .error e => (w, .error e)
      | .ok (w, false) => (w, .ok ())
      | .ok (w, true) => walk g line fuel w

/-- How many steps a line may take, by its number of bytes in UTF-8. -/
def stepLimit (line : String) : Nat :=
  max (min ((line.utf8ByteSize + 1) * 32) (wordLimit - 1)) 128

/-- The marks of the regions that are open at the end of a line, the outermost first. -/
def openMarks (g : Compiled) (line : Array Char) (frames : List Frame) :
    Except Error (List Mark) := do
  let marks ← frames.reverse.mapM fun f => do
    return regionMark (← g.frameRegion f) ⟨f.start, line.size⟩
  return marks.flatten

/-- The tokens of a line, given without its delimiter. The open regions are updated, also when the
line cannot be finished. -/
def tokenizeLine (g : Compiled) (line : String) : EStateM Error RuleStack (List Token) :=
  fun stack =>
    let chars := line.toList.toArray
    let (w, done) := g.walk chars (stepLimit line) (.start stack)
    match done.bind fun _ => g.openMarks chars w.frames with
    | .ok marks => .ok (tokensOf chars (w.mark marks).marks.reverse) w.stack
    | .error e => .error e w.stack

/-- The tokens of some lines, one after the other. -/
def tokenizeLines (g : Compiled) (lines : List String) :
    EStateM Error RuleStack (List (List Token)) :=
  lines.mapM g.tokenizeLine

/-- The tokens of every line of a text. -/
def tokenize (g : Compiled) (text : String) : Except Error (List (List Token)) :=
  match g.tokenizeLines ((lineTexts text.toList).map String.ofList) {} with
  | .ok tokens _ => .ok tokens
  | .error e _ => .error e

end Compiled

end CodeEditor.Grammar

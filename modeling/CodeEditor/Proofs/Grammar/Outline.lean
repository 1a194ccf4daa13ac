import CodeEditor.Proofs.Grammar.Walk

/-!
What the tokens of a line stand for.

A `Course` is a walk that numbers the regions it opens and remembers of every mark what it is for: a
phrase, a remembered part of a match, or a region, which is told by its number and those of the
regions around it. `walk_follow` says that this changes nothing about the walk, and
`tokens_eq_of_ok` that the tokens of a line are those of its `outline`, the pieces of its course in
their order.
-/

namespace CodeEditor.Grammar

/-- What a piece of a line stands for. -/
inductive Source where
  /-- The whole of a phrase. -/
  | phrase
  /-- A remembered part of a match. -/
  | capture
  /-- A region. Those that are open before the line have the first numbers, the outermost number
  zero; the others are numbered in the order in which they are opened. The numbers of the regions
  that were open then are `around`, and the region is closed on the line or open at its end. -/
  | region (number : Nat) (around : List Nat) (closed : Bool)
deriving DecidableEq

/-- A marked piece of a line. -/
structure Piece where
  source : Source
  mark : Mark
deriving DecidableEq

/-- An open region with its number. -/
structure OpenRegion where
  number : Nat
  frame : Frame

/-- The pieces that a region makes from its start up to a place: one if it has a scope. -/
def OpenRegion.pieces (o : OpenRegion) (outer : List OpenRegion) (r : Region) (stop : Nat)
    (closed : Bool) : List Piece :=
  (Compiled.regionMark r ⟨o.frame.start, stop⟩).map
    (Piece.mk (.region o.number (outer.map (·.number)) closed))

/-- The pieces of the remembered parts of a match. -/
def captured (m : Match) (scopes : CaptureScopes) : List Piece :=
  (Mark.ofCaptures m scopes).map (Piece.mk .capture)

/-- How far the walk of a line has come, and what its marks are for. -/
structure Course where
  position : Nat
  /-- The regions that are open, the innermost first. -/
  opened : List OpenRegion
  /-- The number of the region that is opened next. -/
  next : Nat
  /-- The pieces marked so far, the latest last. -/
  pieces : List Piece

namespace Course

/-- Some regions that are open before a line. -/
def carried : List RuleId → List OpenRegion
  | [] => []
  | id :: outer => ⟨outer.length, ⟨id, 0⟩⟩ :: carried outer

/-- The course of a line that has not been walked. -/
def start (stack : RuleStack) : Course := ⟨0, carried stack.frames, stack.frames.length, []⟩

/-- The walk without what its marks are for. -/
def walk (c : Course) : Walk :=
  ⟨c.position, c.opened.map (·.frame), (c.pieces.map (·.mark)).reverse⟩

/-- The course behind an event. -/
def enter (line : Array Char) (c : Course) : Event → Course
  | .rule (.phrase p m) =>
      { c with
        position :=
          if m.span.stop ≠ c.position then m.span.stop
          else if c.position < line.size then c.position + 1 else c.position
        pieces := c.pieces ++ ⟨.phrase, p.scope, m.span, false⟩ :: captured m p.captures }
  | .rule (.region id r m) =>
      { position := m.span.stop
        opened := ⟨c.next, id, m.span.start⟩ :: c.opened
        next := c.next + 1
        pieces := c.pieces ++ captured m r.openingCaptures }
  | .closing _ r m =>
      match c.opened with
      | [] => c
      | o :: outer =>
          { c with
            position := m.span.stop
            opened := outer
            pieces := c.pieces ++
              (o.pieces outer r m.span.stop true ++ captured m r.closingCaptures) }

theorem walk_start (stack : RuleStack) : (start stack).walk = .start stack := by
  have frames : ∀ ids, (carried ids).map (·.frame) = ids.map fun id => ⟨id, 0⟩ := by
    intro ids
    induction ids with
    | nil => rfl
    | cons id outer ih => rw [carried, List.map_cons, List.map_cons, ih]
  rw [walk, start, Walk.start]
  simp only [frames, List.map_nil, List.reverse_nil]

/-- Marks with what they are for are still these marks. -/
theorem map_mark_mk (source : Source) (marks : List Mark) :
    (marks.map (Piece.mk source)).map (·.mark) = marks := by
  rw [List.map_map]
  exact List.map_id marks

end Course

namespace Compiled

variable {g : Compiled} {c : Course} {e : Event}

/-- To remember what the marks are for does not change what an event does. -/
theorem walk_enter {line : Array Char} (applies : g.Applies line c.walk e) :
    (c.enter line e).walk = (e.apply line c.walk).1 := by
  cases applies with
  | @phrase id p m =>
      have marks : ((c.pieces ++ ⟨.phrase, p.scope, m.span, false⟩ :: captured m p.captures).map
          (·.mark)).reverse =
            (Mark.mk p.scope m.span false :: Mark.ofCaptures m p.captures).reverse ++
            (c.pieces.map (·.mark)).reverse := by
        rw [List.map_append, List.map_cons, captured, Course.map_mark_mk, List.reverse_append]
      rw [Course.enter, Course.walk, Event.apply, Compiled.apply]
      dsimp only
      rw [marks]
      simp only [Course.walk, Walk.mark]
      by_cases stays : m.span.stop = c.position
      · by_cases inside : c.position < line.size
        · simp [stays, inside]
        · simp [stays, inside]
      · simp [stays]
  | @opening id r m =>
      rw [Course.enter, Course.walk, Event.apply, Compiled.apply]
      simp only [Course.walk, Walk.mark, List.map_append, captured, Course.map_mark_mk,
        List.reverse_append, List.map_cons]
  | @closing f frames r m split =>
      rw [Course.walk] at split
      dsimp only at split
      cases opened : c.opened with
      | nil =>
          rw [opened] at split
          cases split
      | cons o outer =>
          rw [opened, List.map_cons] at split
          obtain ⟨rfl, rfl⟩ := List.cons.inj split
          rw [Course.enter, Event.apply, Compiled.close]
          simp only [opened, Course.walk, Walk.mark, List.map_append, captured, OpenRegion.pieces,
            Course.map_mark_mk, List.reverse_append, List.map_cons, List.tail_cons,
            List.append_assoc]

variable {line : Array Char}

/-- The course behind at most a number of steps. -/
def follow (g : Compiled) (line : Array Char) : Nat → Course → Course
  | 0, c => c
  | fuel + 1, c =>
      match g.event? line c.walk with
      | .ok (some e) =>
          if (e.apply line c.walk).2 then follow g line fuel (c.enter line e)
          else c.enter line e
      | _ => c

/-- To remember what the marks are for does not change the walk. -/
theorem walk_follow (g : Compiled) (line : Array Char) (fuel : Nat) (c : Course) :
    (g.follow line fuel c).walk = (g.walk line fuel c.walk).1 := by
  induction fuel generalizing c with
  | zero => rfl
  | succ fuel ih =>
      rw [follow, Compiled.walk, step_eq]
      cases first : g.event? line c.walk with
      | error e => rfl
      | ok e =>
          cases e with
          | none => rfl
          | some e =>
              have entered := walk_enter (applies_of_event? first)
              dsimp only [Except.map]
              cases result : e.apply line c.walk with
              | mk w more =>
                  rw [result] at entered
                  cases more with
                  | true =>
                      dsimp only at entered ⊢
                      rw [if_pos rfl, ih, entered]
                  | false => exact entered

/-- What every event preserves holds behind a walk. -/
theorem follow_induction {p : Course → Prop} {fuel : Nat} (start : p c)
    (step : ∀ c e, p c → g.Applies line c.walk e → p (c.enter line e)) :
    p (g.follow line fuel c) := by
  induction fuel generalizing c with
  | zero => exact start
  | succ fuel ih =>
      rw [follow]
      split
      · next e first =>
          have entered := step c e start (applies_of_event? first)
          split
          · exact ih entered
          · exact entered
      · exact start

/-! ### The end of a line -/

/-- The pieces of the regions that are open at the end of a line, the outermost first. -/
def openPieces (g : Compiled) (line : Array Char) : List OpenRegion → List Piece
  | [] => []
  | o :: outer => openPieces g line outer ++
      (g.region? o.frame.id).toList.flatMap fun r => o.pieces outer r line.size false

theorem openMarks_cons (g : Compiled) (line : Array Char) (f : Frame) (frames : List Frame) :
    g.openMarks line (f :: frames) = (do
      let marks ← g.openMarks line frames
      return marks ++ regionMark (← g.frameRegion f) ⟨f.start, line.size⟩) := by
  rw [openMarks, openMarks, List.reverse_cons, List.mapM_append]
  cases frames.reverse.mapM fun f => do
      return regionMark (← g.frameRegion f) ⟨f.start, line.size⟩ with
  | error e => rfl
  | ok marks =>
      rw [List.mapM_cons]
      cases g.frameRegion f with
      | error e => rfl
      | ok r =>
          dsimp only [bind, Except.bind, pure, Except.pure, List.mapM_nil]
          rw [List.flatten_append, List.flatten_singleton]

/-- The marks of the regions that are open at the end are those of their pieces. -/
theorem openMarks_eq_ok {opened : List OpenRegion} {marks : List Mark}
    (ok : g.openMarks line (opened.map (·.frame)) = .ok marks) :
    marks = (g.openPieces line opened).map (·.mark) ∧
      ∀ o ∈ opened, ∃ r, g.region? o.frame.id = some r := by
  induction opened generalizing marks with
  | nil =>
      cases ok
      exact ⟨rfl, fun o mem => by cases mem⟩
  | cons o outer ih =>
      rw [List.map_cons, openMarks_cons] at ok
      obtain ⟨before, first, rest⟩ := bind_eq_ok_iff.mp ok
      obtain ⟨r, region, same⟩ := bind_eq_ok_iff.mp rest
      cases same
      obtain ⟨rfl, regions⟩ := ih first
      have region := frameRegion_eq_ok_iff.mp region
      refine ⟨?_, List.forall_mem_cons.mpr ⟨⟨r, region⟩, regions⟩⟩
      rw [openPieces, region, Option.toList_some, List.flatMap_singleton, List.map_append,
        OpenRegion.pieces, Course.map_mark_mk]

/-! ### The outline of a line -/

/-- The course of a line. -/
def course (g : Compiled) (line : String) (stack : RuleStack) : Course :=
  g.follow line.toList.toArray (stepLimit line) (.start stack)

/-- All pieces of a line, in the order in which their marks are made. -/
def pieces (g : Compiled) (line : String) (stack : RuleStack) : List Piece :=
  let c := g.course line stack
  c.pieces ++ g.openPieces line.toList.toArray c.opened

end Compiled

/-- The token of a piece. -/
def Piece.token (line : Array Char) (p : Piece) : Token := p.mark.token line

/-- Some pieces of a line in the order of their tokens, without those of nothing. -/
def outlineOf (line : Array Char) (pieces : List Piece) : List Piece :=
  (pieces.filter fun p => p.mark.span.start < p.mark.span.stop).mergeSort fun a b =>
    tokenLe (a.mark.isRegion, a.token line) (b.mark.isRegion, b.token line)

/-- What pieces are for has no influence on the order of their tokens. -/
theorem map_token_outlineOf (line : Array Char) (pieces : List Piece) :
    (outlineOf line pieces).map (Piece.token line) = tokensOf line (pieces.map (·.mark)) := by
  have entries : (pieces.filter fun p => p.mark.span.start < p.mark.span.stop).map
      (fun p => (p.mark.isRegion, p.token line)) =
        ((pieces.map (·.mark)).filter fun m => m.span.start < m.span.stop).map fun m =>
          (m.isRegion, m.token line) := by
    rw [List.filter_map, List.map_map]
    rfl
  rw [tokensOf, ← entries, ← List.map_mergeSort (r := fun a b =>
    tokenLe (a.mark.isRegion, a.token line) (b.mark.isRegion, b.token line)) (fun _ _ _ _ => rfl),
    List.map_map]
  rfl

namespace Compiled

variable {g : Compiled} {line : String} {stack stack' : RuleStack} {tokens : List Token}

/-- The pieces of a line in the order of its tokens. -/
def outline (g : Compiled) (line : String) (stack : RuleStack) : List Piece :=
  outlineOf line.toList.toArray (g.pieces line stack)

/-- The tokens of a line are those of its outline, and the regions that are open behind it are those
of its course. -/
theorem tokens_eq_of_ok (ok : g.tokenizeLine line stack = .ok tokens stack') :
    tokens = (g.outline line stack).map (Piece.token line.toList.toArray) ∧
      stack'.frames = (g.course line stack).opened.map (·.frame.id) ∧
      ∀ o ∈ (g.course line stack).opened, ∃ r, g.region? o.frame.id = some r := by
  have followed := g.walk_follow line.toList.toArray (stepLimit line) (.start stack)
  rw [Course.walk_start] at followed
  rw [tokenizeLine] at ok
  dsimp only at ok
  split at ok
  · next marks done =>
      cases ok
      obtain ⟨-, -, ends⟩ := bind_eq_ok_iff.mp done
      rw [← followed] at ends
      obtain ⟨rfl, regions⟩ := openMarks_eq_ok ends
      refine ⟨?_, ?_, regions⟩
      · rw [← followed, outline, map_token_outlineOf, pieces, Walk.mark, Course.walk]
        simp only [List.reverse_append, List.reverse_reverse, List.map_append, course]
      · rw [← followed, Walk.stack, Course.walk, List.map_map]
        rfl
  · cases ok

end Compiled

end CodeEditor.Grammar

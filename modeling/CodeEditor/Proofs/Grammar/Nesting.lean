import CodeEditor.Proofs.Grammar.Outline

/-!
How the pieces of a line lie to each other.

`Follows` is what is known of two pieces of which one is marked before the other: unless one is a
remembered part of a match, they are apart or one lies inside the other, and of two regions the
inner one lies inside the outer. The inner one is marked first exactly when it is closed on the
line, since the regions that are open at its end are marked from the outside in.

A course is `Sound` when this holds of its pieces, and when no region that is still open begins
inside a piece. Every event keeps a course sound (`Sound.enter`), and so all pieces of a line follow
each other (`pieces_follow`).
-/

namespace CodeEditor

namespace Span

/-- One piece ends before another starts. -/
def Before (s t : Span) : Prop := s.stop ≤ t.start

/-- One piece lies inside another. -/
def Inside (s t : Span) : Prop := t.start ≤ s.start ∧ s.stop ≤ t.stop

/-- Two pieces have nothing in common, or one lies inside the other. -/
def Nested (s t : Span) : Prop := s.Before t ∨ t.Before s ∨ s.Inside t ∨ t.Inside s

theorem Nested.symm {s t : Span} (nested : s.Nested t) : t.Nested s := by
  rcases nested with before | after | inside | around
  · exact .inr (.inl before)
  · exact .inl after
  · exact .inr (.inr (.inr inside))
  · exact .inr (.inr (.inl around))

end Span

namespace Grammar

namespace Source

/-- The piece is a phrase or a region. -/
def IsWhole : Source → Prop
  | .capture => False
  | _ => True

/-- The piece is a region. -/
def isRegion : Source → Bool
  | .region .. => true
  | _ => false

/-- The piece is a region that is closed on the line. -/
def IsClosed : Source → Prop
  | .region _ _ closed => closed = true
  | _ => False

/-- One region was opened inside another. -/
def Encloses : Source → Source → Prop
  | .region number _ _, .region _ around _ => number ∈ around
  | _, _ => False

end Source

/-- One piece is marked before another. -/
structure Follows (a b : Piece) : Prop where
  nested : a.source.IsWhole → b.source.IsWhole → a.mark.span.Nested b.mark.span
  phrases : a.source = .phrase → b.source = .phrase → a.mark.span.Before b.mark.span
  /-- An outer region is marked first if both are open at the end of the line. -/
  inner : a.source.Encloses b.source → b.mark.span.Inside a.mark.span ∧ ¬b.source.IsClosed
  /-- An inner region is marked first if it is closed on the line. -/
  outer : b.source.Encloses a.source → a.mark.span.Inside b.mark.span ∧ a.source.IsClosed

/-- A piece lies in the line, and if it is a region, then it has a higher number than those around
it. -/
structure Piece.Placed (length : Nat) (p : Piece) : Prop where
  within : p.mark.span.Within length
  isRegion : p.mark.isRegion = p.source.isRegion
  around : ∀ number around closed, p.source = .region number around closed → ∀ n ∈ around,
    n < number

/-- A piece was marked on a course: it lies behind, and no open region begins in it. -/
structure Piece.Done (length : Nat) (c : Course) (p : Piece) : Prop extends p.Placed length where
  behind : p.source.IsWhole → p.mark.span.stop ≤ c.position
  uncut : p.source.IsWhole → ∀ o ∈ c.opened,
    p.mark.span.stop ≤ o.frame.start ∨ o.frame.start ≤ p.mark.span.start
  region : ∀ number around closed, p.source = .region number around closed →
    closed = true ∧ number < c.next ∧ ∀ o ∈ c.opened, o.number ≠ number ∧
      (o.number ∈ around → o.frame.start ≤ p.mark.span.start)

/-- The open regions are numbered from the outside in, as they begin. -/
def Stacked (opened : List OpenRegion) : Prop :=
  opened.Pairwise fun inner outer =>
    outer.number < inner.number ∧ outer.frame.start ≤ inner.frame.start

/-- What holds of a course at any time. -/
structure Course.Sound (length : Nat) (c : Course) : Prop where
  position_le : c.position ≤ length
  stacked : Stacked c.opened
  opened : ∀ o ∈ c.opened, o.number < c.next ∧ o.frame.start ≤ c.position
  done : ∀ p ∈ c.pieces, p.Done length c
  follow : c.pieces.Pairwise Follows

variable {length stop : Nat} {closed : Bool} {c c' : Course} {a b p : Piece} {m : Match}
  {scopes : CaptureScopes} {o : OpenRegion} {outer opened : List OpenRegion} {r : Region}

/-! ### Pairs of pieces -/

theorem follows_of_capture_left (capture : a.source = .capture) (b : Piece) : Follows a b := by
  constructor <;> rw [capture]
  · exact fun never => never.elim
  · exact fun never => by cases never
  · exact fun never => never.elim
  · cases b.source <;> exact fun never => never.elim

theorem follows_of_capture_right (a : Piece) (capture : b.source = .capture) : Follows a b := by
  constructor <;> rw [capture]
  · exact fun _ never => never.elim
  · exact fun _ never => by cases never
  · cases a.source <;> exact fun never => never.elim
  · exact fun never => never.elim

theorem source_of_mem_captured (mem : p ∈ captured m scopes) : p.source = .capture := by
  obtain ⟨mark, -, rfl⟩ := List.mem_map.mp mem
  rfl

/-- Remembered parts of a match may follow anything. -/
theorem follow_append_captured {pieces : List Piece} (follow : pieces.Pairwise Follows) (m : Match)
    (scopes : CaptureScopes) : (pieces ++ captured m scopes).Pairwise Follows := by
  refine List.pairwise_append.mpr ⟨follow, ?_, ?_⟩
  · exact List.pairwise_of_forall_mem_list fun a memA b _ =>
      follows_of_capture_left (source_of_mem_captured memA) b
  · exact fun a _ b memB => follows_of_capture_right a (source_of_mem_captured memB)

/-- What the piece of a region is. -/
theorem mem_pieces_iff : p ∈ o.pieces outer r stop closed ↔ ∃ scope, r.scope = some scope ∧
    p = ⟨.region o.number (outer.map (·.number)) closed, scope, ⟨o.frame.start, stop⟩, true⟩ := by
  rw [OpenRegion.pieces, Compiled.regionMark, List.map_map, List.mem_map]
  simp only [Option.mem_toList, Function.comp_apply, eq_comm]

/-- The piece of a region that is inside of others. -/
theorem placed_of_mem_pieces
    (above : ∀ o' ∈ outer, o'.number < o.number ∧ o'.frame.start ≤ o.frame.start)
    (starts : o.frame.start ≤ stop) (stops : stop ≤ length)
    (mem : p ∈ o.pieces outer r stop closed) : p.Placed length := by
  obtain ⟨scope, -, rfl⟩ := mem_pieces_iff.mp mem
  refine ⟨⟨starts, stops⟩, rfl, fun number around closed same n mem => ?_⟩
  cases same
  obtain ⟨o', inOuter, rfl⟩ := List.mem_map.mp mem
  exact (above o' inOuter).1

/-- A region makes no more than one piece. -/
theorem follow_pieces (o : OpenRegion) (outer : List OpenRegion) (r : Region) (stop : Nat)
    (closed : Bool) : (o.pieces outer r stop closed).Pairwise Follows := by
  rw [OpenRegion.pieces, Compiled.regionMark]
  cases r.scope with
  | none => exact .nil
  | some scope => exact List.pairwise_singleton _ _

/-! ### Pieces that are done -/

namespace Piece.Done

/-- A piece stays done when the walk goes on and only regions further on are opened. -/
theorem mono (done : p.Done length c) (position : c.position ≤ c'.position)
    (next : c.next ≤ c'.next)
    (opened : ∀ o ∈ c'.opened, o ∈ c.opened ∨ c.next ≤ o.number ∧ c.position ≤ o.frame.start) :
    p.Done length c' where
  toPlaced := done.toPlaced
  behind := fun whole => Nat.le_trans (done.behind whole) position
  uncut := by
    intro whole o mem
    rcases opened o mem with old | ⟨-, start⟩
    · exact done.uncut whole o old
    · exact .inl (Nat.le_trans (done.behind whole) start)
  region := by
    intro number around closed source
    obtain ⟨isClosed, less, open'⟩ := done.region number around closed source
    refine ⟨isClosed, by omega, fun o mem => ?_⟩
    rcases opened o mem with old | ⟨high, -⟩
    · exact open' o old
    · refine ⟨by omega, fun inside => ?_⟩
      have := done.around number around closed source _ inside
      omega

/-- The remembered parts of a match are done at once. -/
theorem captured (within : m.Within length) (mem : p ∈ captured m scopes) : p.Done length c := by
  obtain ⟨mark, marked, rfl⟩ := List.mem_map.mp mem
  obtain ⟨⟨number, scope⟩, -, found⟩ := List.mem_filterMap.mp marked
  obtain ⟨span, group, rfl⟩ := Option.map_eq_some_iff.mp found
  exact ⟨⟨within.group group, rfl, fun _ _ _ never => by cases never⟩, fun never => never.elim,
    fun never => never.elim, fun _ _ _ never => by cases never⟩

/-- A piece that is done lies before the piece of an open region or inside it, and inside it if it
is a region opened in this one. -/
theorem follows (done : p.Done length c) (mem : o ∈ c.opened) (outside : outer ⊆ c.opened)
    (stop_le : c.position ≤ stop) (piece : b ∈ o.pieces outer r stop closed) : Follows p b := by
  obtain ⟨scope, -, rfl⟩ := mem_pieces_iff.mp piece
  constructor
  case nested =>
    intro whole _
    have behind := done.behind whole
    rcases done.uncut whole o mem with before | after
    · exact .inl before
    · exact .inr (.inr (.inl ⟨after, Nat.le_trans behind stop_le⟩))
  case phrases => exact fun _ never => by cases never
  case inner =>
    intro encloses
    cases source : p.source with
    | phrase | capture =>
        rw [source] at encloses
        exact encloses.elim
    | region number around isClosed =>
        rw [source] at encloses
        obtain ⟨o', inOuter, same⟩ := List.mem_map.mp encloses
        obtain ⟨-, -, open'⟩ := done.region number around isClosed source
        exact absurd same (open' o' (outside inOuter)).1
  case outer =>
    intro encloses
    cases source : p.source with
    | phrase | capture =>
        rw [source] at encloses
        exact encloses.elim
    | region number around isClosed =>
        rw [source] at encloses
        obtain ⟨rfl, -, open'⟩ := done.region number around isClosed source
        have behind := done.behind (by rw [source]; trivial)
        exact ⟨⟨(open' o mem).2 encloses, Nat.le_trans behind stop_le⟩, rfl⟩

end Piece.Done

/-! ### Events -/

namespace Course.Sound

theorem start (length : Nat) (stack : RuleStack) : (Course.start stack).Sound length := by
  have numbers : ∀ ids, ∀ o ∈ carried ids, o.number < ids.length ∧ o.frame.start = 0 := by
    intro ids
    induction ids with
    | nil => exact fun o mem => by cases mem
    | cons id outer ih =>
        refine List.forall_mem_cons.mpr ⟨⟨Nat.lt_succ_self _, rfl⟩, fun o mem => ?_⟩
        exact ⟨Nat.lt_succ_of_lt (ih o mem).1, (ih o mem).2⟩
  have stacked : ∀ ids, Stacked (carried ids) := by
    intro ids
    induction ids with
    | nil => exact .nil
    | cons id outer ih =>
        refine List.pairwise_cons.mpr ⟨fun o mem => ?_, ih⟩
        exact ⟨(numbers outer o mem).1, Nat.le_of_eq (numbers outer o mem).2⟩
  constructor
  case position_le => exact Nat.zero_le length
  case stacked => exact stacked stack.frames
  case opened =>
    intro o mem
    exact ⟨(numbers stack.frames o mem).1, Nat.le_of_eq (numbers stack.frames o mem).2⟩
  case done => exact fun p mem => by cases mem
  case follow => exact .nil

variable {line : Array Char}

/-- A phrase lies behind all that was marked before it. -/
theorem phrase (sound : c.Sound line.size) (from_le : c.position ≤ m.span.start)
    (within : m.Within line.size) (p : Phrase) :
    (c.enter line (.rule (.phrase p m))).Sound line.size := by
  generalize behind : c.enter line (.rule (.phrase p m)) = c'
  rw [enter] at behind
  have stops : m.span.stop ≤ c'.position ∧ c'.position ≤ line.size := by
    have := within.span.stop_le
    have := sound.position_le
    rw [← behind]
    dsimp only
    split
    · omega
    · split <;> omega
  have starts := within.span.start_le
  have opened : c'.opened = c.opened := by rw [← behind]
  have next : c'.next = c.next := by rw [← behind]
  have pieces : c'.pieces = c.pieces ++ [⟨.phrase, p.scope, m.span, false⟩] ++
      captured m p.captures := by
    rw [← behind, List.append_assoc]
    rfl
  have old : ∀ piece ∈ c.pieces, piece.Done line.size c' := by
    intro piece mem
    refine (sound.done piece mem).mono (by omega) (by omega) fun o mem => .inl ?_
    rwa [← opened]
  have new : Piece.Done line.size c' ⟨.phrase, p.scope, m.span, false⟩ := by
    refine ⟨⟨within.span, rfl, fun _ _ _ never => by cases never⟩, fun _ => stops.1,
      fun _ o mem => ?_, fun _ _ _ never => by cases never⟩
    have := (sound.opened o (opened ▸ mem)).2
    exact .inr (Nat.le_trans this from_le)
  constructor
  case position_le => exact stops.2
  case stacked => exact opened ▸ sound.stacked
  case opened =>
    intro o mem
    have := sound.opened o (opened ▸ mem)
    omega
  case done =>
    intro piece mem
    rw [pieces] at mem
    rcases List.mem_append.mp mem with mem | mem
    · rcases List.mem_append.mp mem with mem | mem
      · exact old piece mem
      · exact List.mem_singleton.mp mem ▸ new
    · exact .captured within mem
  case follow =>
    rw [pieces]
    refine follow_append_captured (List.pairwise_append.mpr ⟨sound.follow, ?_, ?_⟩) _ _
    · exact List.pairwise_singleton _ _
    · intro a memA b memB
      rw [List.mem_singleton.mp memB]
      have before := fun whole => Nat.le_trans ((sound.done a memA).behind whole) from_le
      constructor
      case nested => exact fun whole _ => .inl (before whole)
      case phrases => exact fun same _ => before (by rw [same]; trivial)
      case inner => cases a.source <;> exact fun never => never.elim
      case outer => exact fun never => never.elim

/-- A region that is opened begins behind all that was marked before it. -/
theorem opening (sound : c.Sound line.size) (from_le : c.position ≤ m.span.start)
    (within : m.Within line.size) (id : RuleId) (r : Region) :
    (c.enter line (.rule (.region id r m))).Sound line.size := by
  have starts := within.span.start_le
  rw [enter]
  constructor
  case position_le => exact within.span.stop_le
  case stacked =>
    refine List.pairwise_cons.mpr ⟨fun o mem => ?_, sound.stacked⟩
    have := sound.opened o mem
    exact ⟨this.1, Nat.le_trans this.2 from_le⟩
  case opened =>
    refine List.forall_mem_cons.mpr ⟨⟨Nat.lt_succ_self _, starts⟩, fun o mem => ?_⟩
    have := sound.opened o mem
    dsimp only
    omega
  case done =>
    intro piece mem
    rcases List.mem_append.mp mem with mem | mem
    · refine (sound.done piece mem).mono ?_ (Nat.le_succ _) fun o mem => ?_
      · exact Nat.le_trans from_le starts
      · rcases List.mem_cons.mp mem with rfl | mem
        · exact .inr ⟨Nat.le_refl _, from_le⟩
        · exact .inl mem
    · exact .captured within mem
  case follow => exact follow_append_captured sound.follow _ _

/-- A region that is closed begins where it was opened and ends behind all that was marked
before. -/
theorem closing (sound : c.Sound line.size) (from_le : c.position ≤ m.span.start)
    (within : m.Within line.size) (f : Frame) (r : Region) :
    (c.enter line (.closing f r m)).Sound line.size := by
  have starts := within.span.start_le
  rw [enter]
  split
  · exact sound
  · next o outer opened =>
      have stacked := sound.stacked
      have bounds := sound.opened
      rw [opened] at stacked bounds
      obtain ⟨above, stacked⟩ := List.pairwise_cons.mp stacked
      obtain ⟨here, bounds⟩ := List.forall_mem_cons.mp bounds
      have inOpened : o ∈ c.opened := by rw [opened]; exact List.mem_cons_self
      have outside : outer ⊆ c.opened := by rw [opened]; exact List.subset_cons_self o outer
      constructor
      case position_le => exact within.span.stop_le
      case stacked => exact stacked
      case opened =>
        intro o' mem
        have := bounds o' mem
        dsimp only
        omega
      case done =>
        intro piece mem
        rcases List.mem_append.mp mem with mem | mem
        · refine (sound.done piece mem).mono ?_ (Nat.le_refl _) fun o mem => .inl (outside mem)
          exact Nat.le_trans from_le starts
        · rcases List.mem_append.mp mem with mem | mem
          · have placed := placed_of_mem_pieces above (by omega) within.span.stop_le mem
            obtain ⟨scope, -, rfl⟩ := mem_pieces_iff.mp mem
            refine ⟨placed, fun _ => Nat.le_refl _, fun _ o' mem => .inr (above o' mem).2, ?_⟩
            intro number around closed same
            cases same
            exact ⟨rfl, here.1, fun o' mem =>
              ⟨Nat.ne_of_lt (above o' mem).1, fun _ => (above o' mem).2⟩⟩
          · exact .captured within mem
      case follow =>
        rw [← List.append_assoc]
        refine follow_append_captured (List.pairwise_append.mpr ⟨sound.follow, ?_, ?_⟩) _ _
        · exact follow_pieces o outer r _ true
        · intro a memA b memB
          exact (sound.done a memA).follows inOpened outside (Nat.le_trans from_le starts) memB

/-- Every event keeps a course sound. -/
theorem enter {g : Compiled} {e : Event} (sound : c.Sound line.size)
    (inside : g.StaysInside) (applies : g.Applies line c.walk e) :
    (c.enter line e).Sound line.size := by
  obtain ⟨from_le, within⟩ := applies.within inside
  cases applies with
  | @phrase id p m => exact sound.phrase from_le within p
  | @opening id r m => exact sound.opening from_le within id r
  | @closing f frames r m => exact sound.closing from_le within f r

end Course.Sound

/-! ### The end of a line -/

namespace Compiled

variable {g : Compiled} {line : Array Char}

theorem StaysInside.sound_follow (inside : g.StaysInside) (line : Array Char) (fuel : Nat)
    (stack : RuleStack) : (g.follow line fuel (.start stack)).Sound line.size :=
  follow_induction (Course.Sound.start line.size stack)
    fun _ _ sound applies => sound.enter inside applies

/-- A piece of an open region, and the regions around it. -/
theorem exists_of_mem_openPieces (mem : p ∈ g.openPieces line opened) : ∃ inner o outer r,
    opened = inner ++ o :: outer ∧ p ∈ o.pieces outer r line.size false := by
  induction opened with
  | nil => cases mem
  | cons o outer ih =>
      rw [openPieces] at mem
      rcases List.mem_append.mp mem with mem | mem
      · obtain ⟨inner, o', outer', r, rfl, piece⟩ := ih mem
        exact ⟨o :: inner, o', outer', r, rfl, piece⟩
      · obtain ⟨r, -, piece⟩ := List.mem_flatMap.mp mem
        exact ⟨[], o, outer, r, rfl, piece⟩

theorem placed_of_mem_openPieces (stacked : Stacked opened)
    (starts : ∀ o ∈ opened, o.frame.start ≤ line.size) (mem : p ∈ g.openPieces line opened) :
    p.Placed line.size := by
  obtain ⟨inner, o, outer, r, rfl, piece⟩ := exists_of_mem_openPieces mem
  have above := (List.pairwise_cons.mp (List.pairwise_append.mp stacked).2.1).1
  have starts := starts o (List.mem_append_right inner List.mem_cons_self)
  exact placed_of_mem_pieces above starts (Nat.le_refl _) piece

/-- The regions that are open at the end are marked from the outside in. -/
theorem openPieces_follow (stacked : Stacked opened) :
    (g.openPieces line opened).Pairwise Follows := by
  induction opened with
  | nil => exact .nil
  | cons o outer ih =>
      obtain ⟨above, stacked⟩ := List.pairwise_cons.mp stacked
      refine List.pairwise_append.mpr ⟨ih stacked, ?_, fun a memA b memB => ?_⟩
      · cases g.region? o.frame.id with
        | none => exact .nil
        | some r =>
            rw [Option.toList_some, List.flatMap_singleton]
            exact follow_pieces o outer r line.size false
      · obtain ⟨r, -, piece⟩ := List.mem_flatMap.mp memB
        obtain ⟨scope, -, rfl⟩ := mem_pieces_iff.mp piece
        obtain ⟨inner, o', outer', r', rfl, piece'⟩ := exists_of_mem_openPieces memA
        obtain ⟨scope', -, rfl⟩ := mem_pieces_iff.mp piece'
        obtain ⟨less, starts⟩ := above o' (List.mem_append_right inner List.mem_cons_self)
        have inside : Span.Inside ⟨o.frame.start, line.size⟩ ⟨o'.frame.start, line.size⟩ :=
          ⟨starts, Nat.le_refl _⟩
        constructor
        case nested => exact fun _ _ => .inr (.inr (.inr inside))
        case phrases => exact fun never _ => by cases never
        case inner => exact fun _ => ⟨inside, Bool.false_ne_true⟩
        case outer =>
          -- The number of the inner region is higher than those around the outer one.
          intro encloses
          obtain ⟨o₂, further, same⟩ := List.mem_map.mp encloses
          have outside := (List.pairwise_cons.mp (List.pairwise_append.mp stacked).2.1).1 o₂ further
          omega

/-- The pieces of a line follow each other. -/
theorem StaysInside.pieces_follow (inside : g.StaysInside) (line : String) (stack : RuleStack) :
    (g.pieces line stack).Pairwise Follows := by
  have sound := inside.sound_follow line.toList.toArray (stepLimit line) stack
  refine List.pairwise_append.mpr ⟨sound.follow, openPieces_follow sound.stacked, ?_⟩
  intro a memA b memB
  obtain ⟨inner, o, outer, r, opened, piece⟩ := exists_of_mem_openPieces memB
  have inOpened : o ∈ (g.course line stack).opened := by
    rw [opened]
    exact List.mem_append_right inner List.mem_cons_self
  have outside : outer ⊆ (g.course line stack).opened := by
    rw [opened]
    exact fun _ mem => List.mem_append_right inner (List.mem_cons_of_mem o mem)
  exact (sound.done a memA).follows inOpened outside sound.position_le piece

/-- The pieces of a line lie in it. -/
theorem StaysInside.pieces_placed (inside : g.StaysInside) (line : String) (stack : RuleStack) :
    ∀ p ∈ g.pieces line stack, p.Placed line.toList.toArray.size := by
  intro p mem
  have sound := inside.sound_follow line.toList.toArray (stepLimit line) stack
  rcases List.mem_append.mp mem with mem | mem
  · exact (sound.done p mem).toPlaced
  · refine placed_of_mem_openPieces sound.stacked (fun o mem => ?_) mem
    exact Nat.le_trans (sound.opened o mem).2 sound.position_le

end Compiled

end Grammar

end CodeEditor

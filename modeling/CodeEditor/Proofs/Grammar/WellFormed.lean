import CodeEditor.Proofs.Grammar.Order
import CodeEditor.Proofs.Grammar.Token

/-!
What can be relied on behind a line.

`wellFormed_of_ok` holds whatever regions are open before the line: its tokens are sorted, each is
the part of the line that its range says, and what is left open are regions of the grammar, whose
tokens reach to the end of the line. The tokens of phrases never overlap. Of all tokens this can
only be said of a grammar that is `Captureless`, where they are apart or one lies inside the other:
a pattern may remember any part of its match, also one that overlaps another.
-/

namespace CodeEditor

namespace TextRange

/-- A range starts earlier, or at the same place and is not shorter. -/
def Leads (r s : TextRange) : Prop :=
  r.location < s.location ∨ r.location = s.location ∧ s.length ≤ r.length

end TextRange

namespace Grammar

/-- A token is the part of a line that its range says. -/
structure Token.Names (line : String) (t : Token) : Prop where
  filled : 1 ≤ t.range.length
  inside : t.range.location + t.range.length ≤ Utf16.length line.toList
  contents : ∃ before after, line.toList = before ++ t.contents.toList ++ after ∧
    Utf16.length before = t.range.location ∧ Utf16.length t.contents.toList = t.range.length

variable {m : Mark} {c : Course} {e : Event} {p : Piece} {a b : Bool × Token}

theorem leads_of_tokenLe (le : tokenLe a b = true) : a.2.range.Leads b.2.range := by
  rw [tokenLe_iff] at le
  rw [TextRange.Leads]
  omega

/-- The token of a mark that is not empty names what is marked. -/
theorem Mark.names_token {line : String} (filled : m.span.start < m.span.stop)
    (within : m.span.Within line.toList.toArray.size) :
    (m.token line.toList.toArray).Names line := by
  have ordered := Nat.le_of_lt filled
  obtain ⟨starts, stops⟩ := @Mark.bounds_token line.toList.toArray m ordered
  constructor
  case filled =>
    have := unitsBefore_lt filled (Nat.lt_of_lt_of_le filled within.stop_le)
    omega
  case inside => exact Mark.token_le filled
  case contents =>
    have contents : (m.token line.toList.toArray).contents.toList =
        (line.toList.toArray.extract m.span.start m.span.stop).toList := String.toList_ofList
    refine ⟨line.toList.take m.span.start, line.toList.drop m.span.stop, ?_, starts.symm, ?_⟩
    · have whole := @Mark.take_stop line.toList.toArray m ordered
      rw [List.toList_toArray] at whole
      rw [contents, ← whole, List.take_append_drop]
    · rw [contents]
      rfl

namespace Compiled

variable {g : Compiled} {chars : Array Char} {line : String} {stack stack' : RuleStack}
  {tokens : List Token}

/-! ### Grammars without captures -/

/-- No remembered part of a match has a scope. -/
structure Captureless (g : Compiled) : Prop where
  phrase : ∀ id p, g.rule? id = some (.phrase p) → p.captures.entries = []
  region : ∀ id r, g.region? id = some r →
    r.openingCaptures.entries = [] ∧ r.closingCaptures.entries = []

theorem captured_eq_nil {scopes : CaptureScopes} (empty : scopes.entries = []) (m : Match) :
    captured m scopes = [] := by
  rw [captured, Mark.ofCaptures, empty]
  rfl

theorem isWhole_of_mem_pieces {o : OpenRegion} {outer : List OpenRegion} {r : Region} {stop : Nat}
    {closed : Bool} (mem : p ∈ o.pieces outer r stop closed) : p.source.IsWhole := by
  obtain ⟨scope, -, rfl⟩ := mem_pieces_iff.mp mem
  trivial

namespace Captureless

/-- An event marks phrases and regions only. -/
theorem enter (plain : g.Captureless) (whole : ∀ p ∈ c.pieces, p.source.IsWhole)
    (applies : g.Applies chars c.walk e) : ∀ p ∈ (c.enter chars e).pieces, p.source.IsWhole := by
  rw [Course.enter.eq_def]
  cases applies with
  | @phrase id p m there =>
      dsimp only
      rw [captured_eq_nil (plain.phrase id p there)]
      exact List.forall_mem_append.mpr ⟨whole, List.forall_mem_singleton.mpr trivial⟩
  | @opening id r m there =>
      dsimp only
      rw [captured_eq_nil (plain.region id r there).1, List.append_nil]
      exact whole
  | @closing f frames r m split there =>
      dsimp only
      rw [captured_eq_nil (plain.region f.id r there).2]
      split
      · exact whole
      · rw [List.append_nil]
        exact List.forall_mem_append.mpr ⟨whole, fun p mem => isWhole_of_mem_pieces mem⟩

/-- All pieces of a line are phrases and regions. -/
theorem isWhole (plain : g.Captureless) (line : String) (stack : RuleStack) :
    ∀ p ∈ g.pieces line stack, p.source.IsWhole := by
  refine List.forall_mem_append.mpr ⟨?_, fun p mem => ?_⟩
  · exact follow_induction (p := fun c => ∀ p ∈ c.pieces, p.source.IsWhole)
      (fun _ mem => by cases mem)
      fun c e whole applies => plain.enter whole applies
  · obtain ⟨inner, o, outer, r, -, piece⟩ := exists_of_mem_openPieces mem
    exact isWhole_of_mem_pieces piece

end Captureless

/-! ### Open regions -/

/-- An open region with a scope has a piece that reaches to the end of the line. -/
theorem exists_mem_openPieces {opened : List OpenRegion} {o : OpenRegion} {r : Region}
    {scope : String} (chars : Array Char) (mem : o ∈ opened)
    (region : g.region? o.frame.id = some r)
    (named : r.scope = some scope) : ∃ around,
      ⟨.region o.number around false, scope, ⟨o.frame.start, chars.size⟩, true⟩ ∈
        g.openPieces chars opened := by
  induction opened with
  | nil => cases mem
  | cons o' outer ih =>
      rw [openPieces]
      rcases List.mem_cons.mp mem with rfl | mem
      · rw [region, Option.toList_some, List.flatMap_singleton]
        exact ⟨_, List.mem_append_right _ (mem_pieces_iff.mpr ⟨scope, named, rfl⟩)⟩
      · obtain ⟨around, piece⟩ := ih mem
        exact ⟨around, List.mem_append_left _ piece⟩

/-- The token of a region that is open at the end of the line reaches to its end, and there is one
unless the region begins there. -/
theorem StaysInside.reaches_end (inside : g.StaysInside) {o : OpenRegion} {r : Region}
    {scope : String}
    (mem : o ∈ (g.course line stack).opened) (region : g.region? o.frame.id = some r)
    (named : r.scope = some scope) :
    o.frame.start = line.toList.length ∨ ∃ p ∈ g.outline line stack,
      (∃ around, p.source = .region o.number around false) ∧
        (p.token line.toList.toArray).scope = scope ∧
        (p.token line.toList.toArray).range.location +
          (p.token line.toList.toArray).range.length = Utf16.length line.toList := by
  have sound := inside.sound_follow line.toList.toArray (stepLimit line) stack
  have starts : o.frame.start ≤ line.toList.toArray.size :=
    Nat.le_trans (sound.opened o mem).2 sound.position_le
  obtain ⟨around, piece⟩ := exists_mem_openPieces line.toList.toArray mem region named
  rcases Nat.eq_or_lt_of_le starts with atEnd | before
  · exact .inl atEnd
  · refine .inr ⟨_, mem_outline_iff.mpr ⟨List.mem_append_right _ piece, before⟩, ⟨around, rfl⟩,
      rfl, ?_⟩
    refine (Mark.bounds_token starts).2.trans ?_
    rw [unitsBefore, List.toList_toArray, List.size_toArray, List.take_length]

/-! ### A whole line -/

/-- What the tokens of a line are, and the regions that are open behind it. -/
structure WellFormed (g : Compiled) (line : String) (stack : RuleStack) (tokens : List Token)
    (stack' : RuleStack) : Prop where
  sorted : tokens.Pairwise fun a b => a.range.Leads b.range
  names : ∀ t ∈ tokens, t.Names line
  outline : tokens = (g.outline line stack).map (Piece.token line.toList.toArray)
  frames : stack'.frames = (g.course line stack).opened.map (·.frame.id)
  regions : ∀ id ∈ stack'.frames, ∃ r, g.region? id = some r
  /-- A region that is left open has a token that reaches to the end, unless it begins there. -/
  reaching : ∀ o ∈ (g.course line stack).opened, ∀ r scope, g.region? o.frame.id = some r →
    r.scope = some scope → o.frame.start = line.toList.length ∨ ∃ p ∈ g.outline line stack,
      (∃ around, p.source = .region o.number around false) ∧
        (p.token line.toList.toArray).scope = scope ∧
        (p.token line.toList.toArray).range.location +
          (p.token line.toList.toArray).range.length = Utf16.length line.toList
  nested : g.Captureless → tokens.Pairwise fun a b => a.range.Nested b.range
  apart : (g.outline line stack).Pairwise fun a b => a.source = .phrase → b.source = .phrase →
    (a.token line.toList.toArray).range.Before (b.token line.toList.toArray).range ∨
      (b.token line.toList.toArray).range.Before (a.token line.toList.toArray).range

/-- A line that can be tokenized is well formed, whatever regions are open before it. -/
theorem wellFormed_of_ok (inside : g.StaysInside)
    (ok : g.tokenizeLine line stack = .ok tokens stack') :
    g.WellFormed line stack tokens stack' := by
  obtain ⟨rfl, frames, regions⟩ := tokens_eq_of_ok ok
  have placed : ∀ p ∈ g.outline line stack, p.Placed line.toList.toArray.size :=
    fun p mem => inside.pieces_placed line stack p (mem_outline_iff.mp mem).1
  constructor
  case sorted =>
    exact List.pairwise_map.mpr ((inside.outline_sorted line stack).imp fun both =>
      leads_of_tokenLe both.1)
  case names =>
    refine List.forall_mem_map.mpr fun p mem => ?_
    exact Mark.names_token (mem_outline_iff.mp mem).2 (placed p mem).within
  case outline => rfl
  case frames => exact frames
  case regions =>
    rw [frames]
    exact List.forall_mem_map.mpr regions
  case reaching => exact fun o mem r scope region named => inside.reaches_end mem region named
  case nested =>
    intro plain
    have whole := fun p mem => plain.isWhole line stack p (mem_outline_iff.mp mem).1
    refine List.pairwise_map.mpr ((inside.outline_related line stack).imp_of_mem ?_)
    intro a b memA memB related
    have nested : a.mark.span.Nested b.mark.span := by
      rcases related with follows | follows
      · exact follows.nested (whole a memA) (whole b memB)
      · exact (follows.nested (whole b memB) (whole a memA)).symm
    exact Mark.nested_token (placed a memA).within.start_le (placed b memB).within.start_le nested
  case apart =>
    refine (inside.outline_related line stack).imp_of_mem fun memA memB related phraseA phraseB =>
      ?_
    have orderedA := (placed _ memA).within.start_le
    have orderedB := (placed _ memB).within.start_le
    rcases related with follows | follows
    · exact .inl (Mark.before_token orderedA orderedB (follows.phrases phraseA phraseB))
    · exact .inr (Mark.before_token orderedB orderedA (follows.phrases phraseB phraseA))

theorem brackets_captureless : brackets.Captureless where
  phrase
    | 0, _, there | 1, _, there | _ + 2, _, there => by cases there
  region
    | 0, _, there | 1, _, there => by cases there; exact ⟨rfl, rfl⟩
    | _ + 2, _, there => by cases there

/-- Both brackets are open at the end of the line, so both tokens reach to it. -/
theorem brackets_wellFormed :
    brackets.tokenizeLine "a(b" ⟨[1]⟩ =
      .ok [⟨"outer", ⟨0, 3⟩, "a(b"⟩, ⟨"inner", ⟨1, 2⟩, "(b"⟩] ⟨[0, 1]⟩ ∧
      brackets.WellFormed "a(b" ⟨[1]⟩ [⟨"outer", ⟨0, 3⟩, "a(b"⟩, ⟨"inner", ⟨1, 2⟩, "(b"⟩] ⟨[0, 1]⟩ ∧
      brackets.Captureless := by
  have ok : brackets.tokenizeLine "a(b" ⟨[1]⟩ =
      .ok [⟨"outer", ⟨0, 3⟩, "a(b"⟩, ⟨"inner", ⟨1, 2⟩, "(b"⟩] ⟨[0, 1]⟩ := by cbv
  exact ⟨ok, wellFormed_of_ok brackets_staysInside ok, brackets_captureless⟩

end Compiled

end Grammar

end CodeEditor

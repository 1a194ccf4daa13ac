import CodeEditor.Proofs.Grammar.Nesting
import CodeEditor.Proofs.Grammar.Token
import CodeEditor.Proofs.Pattern.Match
import CodeEditor.Proofs.Sorting
import Mathlib

/-!
The order of the tokens of a line.

Tokens are sorted by their ranges, and those of regions with equal ranges stay in the order in which
they were marked. So the token of an enclosing region comes before that of a region inside it where
the ranges differ, and where both are open at the end of the line. But a region that is closed on
the line is marked before those around it: if one of them has the same range, then its token comes
behind and overrides the inner one. `enclosing_before_iff` says exactly this.
-/

namespace CodeEditor

namespace TextRange

/-- One range ends before another starts. -/
def Before (r s : TextRange) : Prop := r.location + r.length ≤ s.location

/-- One range lies inside another. -/
def Inside (r s : TextRange) : Prop :=
  s.location ≤ r.location ∧ r.location + r.length ≤ s.location + s.length

/-- Two ranges have nothing in common, or one lies inside the other. -/
def Nested (r s : TextRange) : Prop := r.Before s ∨ s.Before r ∨ r.Inside s ∨ s.Inside r

end TextRange

namespace Grammar

variable {chars : Array Char}

/-! ### Ranges -/

section Ranges

variable {m m' : Mark}

theorem Mark.before_token (ordered : m.span.start ≤ m.span.stop)
    (ordered' : m'.span.start ≤ m'.span.stop) (before : m.span.Before m'.span) :
    (m.token chars).range.Before (m'.token chars).range := by
  rw [TextRange.Before, (bounds_token ordered).2, (bounds_token ordered').1]
  exact unitsBefore_mono before

theorem Mark.inside_token (ordered : m.span.start ≤ m.span.stop)
    (ordered' : m'.span.start ≤ m'.span.stop) (inside : m.span.Inside m'.span) :
    (m.token chars).range.Inside (m'.token chars).range := by
  rw [TextRange.Inside, (bounds_token ordered).2, (bounds_token ordered').2,
    (bounds_token ordered).1, (bounds_token ordered').1]
  exact ⟨unitsBefore_mono inside.1, unitsBefore_mono inside.2⟩

/-- Tokens lie to each other as their marks do. -/
theorem Mark.nested_token (ordered : m.span.start ≤ m.span.stop)
    (ordered' : m'.span.start ≤ m'.span.stop) (nested : m.span.Nested m'.span) :
    (m.token chars).range.Nested (m'.token chars).range := by
  rcases nested with before | before | inside | inside
  · exact .inl (before_token ordered ordered' before)
  · exact .inr (.inl (before_token ordered' ordered before))
  · exact .inr (.inr (.inl (inside_token ordered ordered' inside)))
  · exact .inr (.inr (.inr (inside_token ordered' ordered inside)))

end Ranges

/-! ### Sorting -/

theorem tokenLe_iff {a b : Bool × Token} : tokenLe a b = true ↔
    a.2.range.location < b.2.range.location ∨
      a.2.range.location = b.2.range.location ∧ (b.2.range.length < a.2.range.length ∨
        b.2.range.length = a.2.range.length ∧ (b.1 = true → a.1 = true)) := by
  simp only [tokenLe, Bool.or_eq_true, Bool.and_eq_true, decide_eq_true_eq, beq_iff_eq,
    Bool.not_eq_true', eq_comm (a := a.2.range.length)]
  cases a.1 <;> cases b.1 <;> simp

theorem tokenLe_trans (a b c : Bool × Token) (ab : tokenLe a b = true) (bc : tokenLe b c = true) :
    tokenLe a c = true := by
  rw [tokenLe_iff] at *
  grind

theorem tokenLe_total (a b : Bool × Token) : (tokenLe a b || tokenLe b a) = true := by
  rw [Bool.or_eq_true, tokenLe_iff, tokenLe_iff]
  grind

/-- A region ties with what has the same range, or comes before it. -/
theorem tokenLe_of_range_eq {a b : Bool × Token} (same : a.2.range = b.2.range)
    (region : a.1 = true) : tokenLe a b = true := by
  rw [tokenLe_iff, same]
  exact .inr ⟨rfl, .inr ⟨rfl, fun _ => region⟩⟩

/-- What does not come behind a token that it lies in has the same range. -/
theorem range_eq_of_tokenLe {a b : Bool × Token} (le : tokenLe a b = true)
    (inside : a.2.range.Inside b.2.range) : a.2.range = b.2.range := by
  rw [tokenLe_iff] at le
  obtain ⟨low, high⟩ := inside
  generalize a.2.range = r at *
  generalize b.2.range = s at *
  obtain ⟨location, length⟩ := r
  obtain ⟨location', length'⟩ := s
  dsimp only at *
  rw [TextRange.mk.injEq]
  omega

namespace Compiled

variable {g : Compiled} {line : String} {stack stack' : RuleStack} {tokens : List Token} {p : Piece}

/-- A piece of the outline is one of the line and covers a part of it. -/
theorem mem_outline_iff : p ∈ g.outline line stack ↔
    p ∈ g.pieces line stack ∧ p.mark.span.start < p.mark.span.stop := by
  rw [outline, outlineOf, List.mem_mergeSort, List.mem_filter, decide_eq_true_eq]

/-- Pieces are in the order of their tokens, and those that tie in the order of their marks. -/
theorem StaysInside.outline_sorted (inside : g.StaysInside) (line : String) (stack : RuleStack) :
    (g.outline line stack).Pairwise fun a b =>
      tokenLe (a.mark.isRegion, a.token line.toList.toArray)
          (b.mark.isRegion, b.token line.toList.toArray) = true ∧
        (tokenLe (b.mark.isRegion, b.token line.toList.toArray)
          (a.mark.isRegion, a.token line.toList.toArray) = true → Follows a b) :=
  pairwise_mergeSort (fun _ _ _ => tokenLe_trans _ _ _) (fun _ _ => tokenLe_total _ _)
    ((inside.pieces_follow line stack).filter _)

/-- Of two pieces of the outline one was marked before the other. -/
theorem StaysInside.outline_related (inside : g.StaysInside) (line : String) (stack : RuleStack) :
    (g.outline line stack).Pairwise fun a b => Follows a b ∨ Follows b a := by
  refine ((List.mergeSort_perm _ _).pairwise_iff fun either => either.symm).mpr ?_
  exact ((inside.pieces_follow line stack).filter _).imp fun follows => .inl follows

/-- A region and one that was opened inside it are regions. -/
theorem isRegion_of_encloses {a b : Source} (encloses : a.Encloses b) :
    a.isRegion = true ∧ b.isRegion = true := by
  cases a with
  | phrase | capture => exact encloses.elim
  | region =>
      cases b with
      | phrase | capture => exact encloses.elim
      | region => exact ⟨rfl, rfl⟩

/-- A region is not inside itself. -/
theorem not_encloses_self {length : Nat} (placed : p.Placed length) :
    ¬p.source.Encloses p.source := by
  intro encloses
  cases source : p.source with
  | phrase | capture =>
      rw [source] at encloses
      exact encloses.elim
  | region number around closed =>
      rw [source] at encloses
      exact Nat.lt_irrefl number (placed.around number around closed source number encloses)

/-- The token of an enclosing region comes before that of a region inside it, unless both have the
same range and the inner region is closed on the line. -/
theorem enclosing_before_iff (stays : g.StaysInside)
    (ok : g.tokenizeLine line stack = .ok tokens stack') :
    tokens = (g.outline line stack).map (Piece.token line.toList.toArray) ∧
      ∀ (i j : Nat) (a b : Piece), (g.outline line stack)[i]? = some a →
        (g.outline line stack)[j]? = some b → a.source.Encloses b.source →
          (i < j ↔ (a.token line.toList.toArray).range ≠ (b.token line.toList.toArray).range ∨
            ¬b.source.IsClosed) := by
  refine ⟨(tokens_eq_of_ok ok).1, ?_⟩
  intro i j a b atI atJ encloses
  have placedA := stays.pieces_placed line stack a (mem_outline_iff.mp (List.mem_of_getElem? atI)).1
  have placedB := stays.pieces_placed line stack b (mem_outline_iff.mp (List.mem_of_getElem? atJ)).1
  obtain ⟨regionA, regionB⟩ := isRegion_of_encloses encloses
  rw [← placedA.isRegion] at regionA
  rw [← placedB.isRegion] at regionB
  obtain ⟨inI, sameA⟩ := List.getElem?_eq_some_iff.mp atI
  obtain ⟨inJ, sameB⟩ := List.getElem?_eq_some_iff.mp atJ
  have sorted := List.pairwise_iff_getElem.mp (stays.outline_sorted line stack)
  constructor
  · -- Where both tie, the enclosing region was marked first, so the inner one is open at the end.
    intro lt
    obtain ⟨-, follows⟩ := sorted i j inI inJ lt
    rw [sameA, sameB] at follows
    by_cases same : (a.token line.toList.toArray).range = (b.token line.toList.toArray).range
    · have tie := follows (tokenLe_of_range_eq same.symm regionB)
      exact .inr (tie.inner encloses).2
    · exact .inl same
  · intro reason
    refine Nat.lt_of_not_le fun le => ?_
    rcases Nat.eq_or_lt_of_le le with rfl | lt
    · obtain rfl : a = b := Option.some.inj (atI.symm.trans atJ)
      exact not_encloses_self placedA encloses
    · obtain ⟨before, follows⟩ := sorted j i inJ inI lt
      have related := List.pairwise_iff_getElem.mp (stays.outline_related line stack) j i inJ inI lt
      rw [sameA, sameB] at before follows related
      -- The inner region lies inside, and its token comes first: so it has the same range.
      have inside :
          (b.token line.toList.toArray).range.Inside (a.token line.toList.toArray).range :=
        Mark.inside_token placedB.within.start_le placedA.within.start_le
          (related.elim (fun f => (f.outer encloses).1) fun f => (f.inner encloses).1)
      have same := range_eq_of_tokenLe before inside
      have tie := follows (tokenLe_of_range_eq same.symm regionA)
      rcases reason with differ | isOpen
      · exact differ same.symm
      · exact isOpen (tie.outer encloses).2

/-- Angle brackets, and round ones inside them. -/
def brackets : Compiled where
  name := "brackets"
  scopeName := "source.brackets"
  rules := #[
    .region ⟨some "inner", (Pattern.char (.single '(' false)).search,
      (Pattern.char (.single ')' false)).search, .empty, .empty, [], []⟩,
    .region ⟨some "outer", (Pattern.char (.single '<' false)).search,
      (Pattern.char (.single '>' false)).search, .empty, .empty, [0], [0]⟩]
  root := [1]

theorem brackets_staysInside : brackets.StaysInside where
  phrase
    | 0, _, there | 1, _, there | _ + 2, _, there => by cases there
  opening
    | 0, _, there | 1, _, there => by cases there; exact Pattern.search_staysInside _
    | _ + 2, _, there => by cases there
  closing
    | 0, _, there | 1, _, there => by cases there; exact Pattern.search_staysInside _
    | _ + 2, _, there => by cases there

/-- Both regions come from the line before. The round bracket is closed where the line ends, so its
token comes before that of the region around it. -/
theorem closed_before_enclosing :
    brackets.tokenizeLine "a)" ⟨[0, 1]⟩ =
        .ok [⟨"inner", ⟨0, 2⟩, "a)"⟩, ⟨"outer", ⟨0, 2⟩, "a)"⟩] ⟨[1]⟩ ∧
      ∃ outer inner, (brackets.outline "a)" ⟨[0, 1]⟩)[1]? = some outer ∧
        (brackets.outline "a)" ⟨[0, 1]⟩)[0]? = some inner ∧ outer.source.Encloses inner.source ∧
        ((1 < 0) ↔ (outer.token #['a', ')']).range ≠ (inner.token #['a', ')']).range ∨
          ¬inner.source.IsClosed) := by
  have ok : brackets.tokenizeLine "a)" ⟨[0, 1]⟩ =
      .ok [⟨"inner", ⟨0, 2⟩, "a)"⟩, ⟨"outer", ⟨0, 2⟩, "a)"⟩] ⟨[1]⟩ := by cbv
  have pieces : brackets.outline "a)" ⟨[0, 1]⟩ =
      [⟨.region 1 [0] true, "inner", ⟨0, 2⟩, true⟩, ⟨.region 0 [] false, "outer", ⟨0, 2⟩,
          true⟩] := by
    cbv
  refine ⟨ok, ⟨.region 0 [] false, "outer", ⟨0, 2⟩, true⟩,
    ⟨.region 1 [0] true, "inner", ⟨0, 2⟩, true⟩,
    by rw [pieces]; rfl, by rw [pieces]; rfl, List.mem_singleton.mpr rfl, ?_⟩
  exact (enclosing_before_iff brackets_staysInside ok).2 1 0 _ _ (by rw [pieces]; rfl)
    (by rw [pieces]; rfl)
    (List.mem_singleton.mpr rfl)

end Compiled

end Grammar

end CodeEditor

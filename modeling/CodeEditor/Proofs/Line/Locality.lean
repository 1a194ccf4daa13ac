import CodeEditor.Proofs.Line.Tracking

/-!
Where in the lines an edit makes its changes.

An edit works at one place of the text, on one line after the other. `Settled` is what setting the
length of one line leaves, `Reaches` says of the lines down to a place that they are untouched down
to some line and touched from there on, and `Local` says of all lines that only some in the middle
are touched. The others stand in front of the edit or behind it, so they have the same text before
and after (`Local.sameUnits`).
-/

namespace CodeEditor

namespace LineStore

variable {s : LineStore} {id : LineId} {m : LineMetrics} {c d : LineChanges}

/-- Lines that are up to some point those that stood there before, and that changes touch from there
on. -/
def Reaches (c : LineChanges) (old new : List (LineId × LineMetrics)) : Prop :=
  ∃ front touched, front <+: old ∧ new = front ++ touched ∧ ∀ line ∈ touched, c.Marks line.1

namespace Reaches

variable {old mid new : List (LineId × LineMetrics)}

theorem of_front (front : new <+: old) : Reaches c old new :=
  ⟨new, [], front, (List.append_nil new).symm, fun _ mem => absurd mem List.not_mem_nil⟩

/-- One more line that the changes touch. -/
theorem concat (reaches : Reaches c old new) (marked : c.Marks id) :
    Reaches c old (new ++ [(id, m)]) := by
  obtain ⟨front, touched, pre, rfl, marks⟩ := reaches
  refine ⟨front, touched ++ [(id, m)], pre, List.append_assoc _ _ _, fun line mem => ?_⟩
  rcases List.mem_append.mp mem with before | last
  · exact marks line before
  · rw [List.mem_singleton.mp last]
    exact marked

theorem mono (reaches : Reaches c old new) (more : ∀ id, c.Marks id → d.Marks id) :
    Reaches d old new := by
  obtain ⟨front, touched, pre, whole, marks⟩ := reaches
  exact ⟨front, touched, pre, whole, fun line mem => more _ (marks line mem)⟩

/-- It holds of less as well. -/
theorem take (reaches : Reaches c old mid) (pre : new <+: mid) : Reaches c old new := by
  obtain ⟨front, touched, preOld, rfl, marks⟩ := reaches
  obtain ⟨rest, split⟩ := pre
  rcases List.append_eq_append_iff.mp split with ⟨more, rfl, -⟩ | ⟨part, rfl, rfl⟩
  · exact of_front ((List.prefix_append new more).trans preOld)
  · exact ⟨front, part, preOld, rfl, fun line mem => marks line (List.mem_append_left _ mem)⟩

theorem trans (first : Reaches c old mid) (second : Reaches d mid new) :
    Reaches (c.union d) old new := by
  obtain ⟨front, touched, pre, rfl, marks⟩ := second
  obtain ⟨front', touched', pre', rfl, marks'⟩ := first.take pre
  refine ⟨front', touched' ++ touched, pre', List.append_assoc _ _ _, fun line mem => ?_⟩
  rw [LineChanges.marks_union]
  exact (List.mem_append.mp mem).imp (marks' line) (marks line)

end Reaches

/-- What setting a length leaves of the lines: those above and below, and between them the one that
the text went to, which is a line of its own or the last of those above. -/
def Settled (c : LineChanges) (above below : List (LineId × LineMetrics)) (s : LineStore) : Prop :=
  ∃ front head m, s.toList = front ++ (head, m) :: below ∧ c.Marks head ∧
    (front = above ∨ ∃ p, above = front ++ [(head, p)])

theorem Settled.union {above below : List (LineId × LineMetrics)}
    (settled : Settled d above below s)
    (c : LineChanges) : Settled (c.union d) above below s := by
  obtain ⟨front, head, m, lines, marked, place⟩ := settled
  exact ⟨front, head, m, lines, LineChanges.marks_union.mpr (.inr marked), place⟩

/-- Lines in which only some in the middle are touched: those above lie in a text of some length,
those below in another. -/
def Local (c : LineChanges) (lengthAbove lengthBelow : Nat)
    (old new : List (LineId × LineMetrics)) : Prop :=
  ∃ front touched below, new = front ++ (touched ++ below) ∧ front <+: old ∧
    lengthOf front ≤ lengthAbove ∧ below <:+ old ∧ lengthOf below ≤ lengthBelow ∧
    ∀ line ∈ touched, c.Marks line.1

/-- The lines above one that was set are those that stood there, up to some point. -/
theorem Settled.exists_reaches {above below : List (LineId × LineMetrics)}
    (settled : Settled c above below s) :
    ∃ top, s.toList = top ++ below ∧ Reaches c above top := by
  obtain ⟨front, head, m, lines, marked, place⟩ := settled
  refine ⟨front ++ [(head, m)], by simp [lines], Reaches.concat (.of_front ?_) marked⟩
  rcases place with rfl | ⟨p, rfl⟩
  · exact List.prefix_rfl
  · exact List.prefix_append front _

theorem Reaches.local {old above top below : List (LineId × LineMetrics)} {p q : Nat}
    (reaches : Reaches c above top) (pre : above <+: old) (lengthAbove : lengthOf above ≤ p)
    (suf : below <:+ old) (lengthBelow : lengthOf below ≤ q) : Local c p q old (top ++ below) := by
  obtain ⟨front, touched, ⟨more, rfl⟩, rfl, marks⟩ := reaches
  rw [lengthOf_append] at lengthAbove
  refine ⟨front, touched, below, List.append_assoc _ _ _, ?_, by omega, suf, lengthBelow, marks⟩
  exact (List.prefix_append front more).trans pre

/-! ### The text of a line -/

/-- A line in a list has some code units, when the list is that of the lines of a text. -/
def Spells (lines : List (LineId × LineMetrics)) (us : List UInt16) (id : LineId)
    (line : List UInt16) : Prop :=
  ∃ front m rest, lines = front ++ (id, m) :: rest ∧
    (us.drop (lengthOf front)).take m.totalLength = line

/-- Lines that the changes do not touch have the same code units in two texts. -/
def SameUnits (c : LineChanges) (old : List (LineId × LineMetrics)) (us : List UInt16)
    (new : List (LineId × LineMetrics)) (us' : List UInt16) : Prop :=
  ∀ id, ¬c.Marks id → ∀ line line', Spells old us id line → Spells new us' id line' → line' = line

variable {old new : List (LineId × LineMetrics)} {us us' before after inside inside' : List UInt16}

theorem Spells.unique (distinct : (old.map (·.1)).Nodup) {line line' : List UInt16}
    (here : Spells old us id line) (there : Spells old us id line') : line' = line := by
  obtain ⟨front, m, rest, lines, rfl⟩ := here
  obtain ⟨front', m', rest', lines', rfl⟩ := there
  rw [lines] at distinct
  obtain ⟨rfl, rfl, -⟩ := LineTree.append_cons_inj distinct (lines.symm.trans lines')
  rfl

theorem SameUnits.refl (distinct : (old.map (·.1)).Nodup) (c : LineChanges) (us : List UInt16) :
    SameUnits c old us old us :=
  fun _ _ _ _ here there => here.unique distinct there

/-- What is dropped down to a number of units of the second list does not depend on the first. -/
theorem drop_append_of_left {left dropped : Nat} (inside : left ≤ after.length)
    (all : dropped + left = (before ++ after).length) :
    (before ++ after).drop dropped = after.drop (after.length - left) := by
  rw [List.length_append] at all
  rw [List.drop_append, List.drop_eq_nil_of_le (by omega), List.nil_append]
  congr 1
  omega

/-- Lines in front of an edit and behind it keep their text. -/
theorem Local.sameUnits (untouched : Local c before.length after.length old new)
    (distinct : (old.map (·.1)).Nodup) (distinct' : (new.map (·.1)).Nodup)
    (whole : us = before ++ (inside ++ after)) (whole' : us' = before ++ (inside' ++ after))
    (length : lengthOf old = us.length) (length' : lengthOf new = us'.length) :
    SameUnits c old us new us' := by
  obtain ⟨front, touched, below, rfl, ⟨more, rfl⟩, lengthFront, ⟨less, suffix⟩, lengthBelow,
      marks⟩ :=
    untouched
  intro id unmarked line line' here there
  obtain ⟨above', m', rest', lines', rfl⟩ := there
  have mem : (id, m') ∈ front ++ (touched ++ below) := by
    rw [lines']
    exact List.mem_append_right _ List.mem_cons_self
  rcases List.mem_append.mp mem with inFront | behind
  · -- The line stands in front of the edit: at the same place from the start.
    obtain ⟨above, rest, rfl⟩ := List.append_of_mem inFront
    have old' : Spells ((above ++ (id, m') :: rest) ++ more) us id
        ((us.drop (lengthOf above)).take m'.totalLength) :=
      ⟨above, m', rest ++ more, by simp, rfl⟩
    rw [old'.unique distinct here]
    obtain ⟨rfl, -, -⟩ := LineTree.append_cons_inj (lines' ▸ distinct') (by rw [← lines']; simp :
      above' ++ (id, m') :: rest' = above ++ (id, m') :: (rest ++ (touched ++ below)))
    rw [lengthOf_append, lengthOf_cons] at lengthFront
    dsimp only at lengthFront
    rw [whole, whole', List.drop_append_of_le_length (by omega),
      List.drop_append_of_le_length (by omega), List.take_append_of_le_length
        (by rw [List.length_drop]; omega), List.take_append_of_le_length
        (by rw [List.length_drop]; omega)]
  · rcases List.mem_append.mp behind with inTouched | inBelow
    · exact absurd (marks _ inTouched) unmarked
    · -- The line stands behind the edit: at the same place from the end.
      obtain ⟨above, rest, rfl⟩ := List.append_of_mem inBelow
      have old' : Spells (front ++ more) us id
          ((us.drop (lengthOf (less ++ above))).take m'.totalLength) :=
        ⟨less ++ above, m', rest, by rw [← suffix]; simp, rfl⟩
      rw [old'.unique distinct here]
      obtain ⟨rfl, -, rfl⟩ := LineTree.append_cons_inj (lines' ▸ distinct')
        (by rw [← lines']; simp :
        above' ++ (id, m') :: rest' = (front ++ (touched ++ above)) ++ (id, m') :: rest)
      rw [← suffix] at length
      simp only [lengthOf_append, lengthOf_cons, whole, List.length_append] at length
      simp only [lengthOf_append, lengthOf_cons, whole', List.length_append] at length'
      rw [lengthOf_append, lengthOf_cons] at lengthBelow
      dsimp only at lengthBelow
      simp only [whole, whole', lengthOf_append]
      have left : m'.totalLength + lengthOf rest' ≤ after.length := by omega
      rw [← List.append_assoc, ← List.append_assoc, drop_append_of_left left,
        drop_append_of_left left]
      all_goals
        simp only [List.length_append]
        omega

/-- What is done in two parts leaves what both leave. -/
theorem SameUnits.union {mid : List (LineId × LineMetrics)} {us₁ : List UInt16}
    (first : SameUnits c old us mid us₁) (second : SameUnits d mid us₁ new us')
    (between : ∀ id, (∃ m, (id, m) ∈ old) → (∃ m, (id, m) ∈ new) → ∃ m, (id, m) ∈ mid) :
    SameUnits (c.union d) old us new us' := by
  intro id unmarked line line' here there
  rw [LineChanges.marks_union, not_or] at unmarked
  have inOld : ∃ m, (id, m) ∈ old := by
    obtain ⟨front, m, rest, lines, -⟩ := here
    exact ⟨m, lines ▸ List.mem_append_right _ List.mem_cons_self⟩
  have inNew : ∃ m, (id, m) ∈ new := by
    obtain ⟨front, m, rest, lines, -⟩ := there
    exact ⟨m, lines ▸ List.mem_append_right _ List.mem_cons_self⟩
  obtain ⟨m, mem⟩ := between id inOld inNew
  obtain ⟨front, rest, lines⟩ := List.append_of_mem mem
  have middle : Spells mid us₁ id ((us₁.drop (lengthOf front)).take m.totalLength) :=
    ⟨front, m, rest, lines, rfl⟩
  rw [second id unmarked.2 _ _ middle there, first id unmarked.1 _ _ here middle]

end LineStore

end CodeEditor

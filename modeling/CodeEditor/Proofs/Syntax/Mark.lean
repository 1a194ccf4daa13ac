import CodeEditor.Proofs.Line.Scanning
import CodeEditor.Syntax.Node

/-!
Two counts of rows.

The index of the lines ends a row at every LF and at every CR that no LF follows, a syntax tree at
LF alone. `loneReturns` counts what the tree passes over. The row of the one is the row of the other
with that number added, and where it is zero the columns are the same too, in bytes here and in code
units there (`Holds.beneath`, `Holds.position_eq_iff`).

Places in one text come one after the other by their points as by their bytes (`Holds.lt_iff`).
-/

namespace CodeEditor

open Syntax (Mark Point)

/-- The number of CRs among the first code units that no LF follows. -/
def loneReturns : List UInt16 → Nat → Nat
  | u :: rest, n + 1 =>
      (if u = carriageReturn ∧ rest.head? ≠ some lineFeed then 1 else 0) + loneReturns rest n
  | _, _ => 0

@[simp] theorem loneReturns_zero (us : List UInt16) : loneReturns us 0 = 0 := by
  cases us <;> rfl

theorem loneReturns_lineFeed (rest : List UInt16) (n : Nat) :
    loneReturns (lineFeed :: rest) (n + 1) = loneReturns rest n := by
  rw [loneReturns, if_neg fun h => absurd h.1 (by decide), Nat.zero_add]

theorem loneReturns_half {rest : List UInt16} (joins : rest.head? = some lineFeed) (n : Nat) :
    loneReturns (carriageReturn :: rest) (n + 1) = loneReturns rest n := by
  rw [loneReturns, if_neg fun h => h.2 joins, Nat.zero_add]

theorem loneReturns_carriageReturn {rest : List UInt16} (alone : rest.head? ≠ some lineFeed)
    (n : Nat) : loneReturns (carriageReturn :: rest) (n + 1) = 1 + loneReturns rest n := by
  rw [loneReturns, if_pos ⟨rfl, alone⟩]

theorem loneReturns_content {content : List UInt16} (plain : NoBreak content) (rest : List UInt16)
    (n : Nat) : loneReturns (content ++ rest) (content.length + n) = loneReturns rest n := by
  induction content with
  | nil => rw [List.nil_append, List.length_nil, Nat.zero_add]
  | cons u content ih =>
      obtain ⟨noReturn, noFeed⟩ := plain
      have other : u ≠ carriageReturn := fun same => noReturn (same ▸ List.mem_cons_self)
      rw [List.cons_append, List.length_cons, Nat.succ_add, loneReturns, if_neg fun h => other h.1,
        Nat.zero_add]
      exact ih ⟨fun mem => noReturn (List.mem_cons_of_mem u mem),
        fun mem => noFeed (List.mem_cons_of_mem u mem)⟩

namespace LinePosition

/-- A position and the place of a tree for it, some rows above. In the same row the columns are the
same. -/
structure Beneath (rows : Nat) (p : LinePosition) (q : Point) : Prop where
  row : p.row = q.row + rows
  column : rows = 0 → q.column = p.column * bytesPerUnit

variable {p : LinePosition} {m : Mark} {rows : Nat}

/-- Both go on behind a character. Only a CR that no LF follows takes them apart. -/
theorem Beneath.char (beneath : p.Beneath rows m.point) (c : Char) (rest : List UInt16) :
    ∃ (p' : LinePosition) (lone : Nat),
      (∀ n, p.scan (Utf16.units c ++ rest) (Utf16.width c + n) = p'.scan rest n) ∧
      (∀ n, loneReturns (Utf16.units c ++ rest) (Utf16.width c + n) = lone + loneReturns rest n) ∧
      p'.Beneath (rows + lone) (m.after c).point := by
  obtain ⟨row, column⟩ := beneath
  by_cases feed : c = '\n'
  · subst feed
    refine ⟨⟨p.row + 1, 0⟩, 0, fun n => ?_, fun n => ?_, ?_, fun _ => ?_⟩
    · rw [Nat.add_comm]
      exact congrArg (fun q => scan q rest n) (behind_lineFeed p rest)
    · rw [Nat.add_comm, Nat.zero_add]
      exact loneReturns_lineFeed rest n
    · rw [row]
      exact Nat.add_right_comm _ _ _
    · rfl
  · have point : (m.after c).point =
        ⟨m.point.row, m.point.column + Utf16.width c * bytesPerUnit⟩ := by
      rw [Mark.after, if_neg feed]
    rw [point]
    by_cases ret : c = '\r'
    · subst ret
      by_cases joins : rest.head? = some lineFeed
      · refine ⟨⟨p.row, p.column + 1⟩, 0, fun n => ?_, fun n => ?_, row, fun same => ?_⟩
        · obtain ⟨rest, rfl⟩ := List.head?_eq_some_iff.mp joins
          rw [Nat.add_comm]
          exact congrArg (fun q => scan q _ n) (behind_half p rest)
        · rw [Nat.add_comm, Nat.zero_add]
          exact loneReturns_half joins n
        · dsimp only
          rw [column same, Nat.add_mul]
          rfl
      · refine ⟨⟨p.row + 1, 0⟩, 1, fun n => ?_, fun n => ?_, ?_, fun same => ?_⟩
        · rw [Nat.add_comm]
          exact congrArg (fun q => scan q rest n) (behind_carriageReturn joins)
        · rw [Nat.add_comm]
          exact loneReturns_carriageReturn joins n
        · rw [row]
          rfl
        · cases same
    · have plain := noBreak_units ret feed
      refine ⟨⟨p.row, p.column + Utf16.width c⟩, 0, fun n => ?_, fun n => ?_, row, fun same => ?_⟩
      · rw [scan_add, ← Utf16.length_units, scan_content plain rest (Nat.le_refl _), List.drop_left]
      · rw [← Utf16.length_units, loneReturns_content plain, Nat.zero_add]
      · dsimp only
        rw [column same, Nat.add_mul]

/-- Both go on behind some characters, and the CRs that no LF follows take them apart. -/
theorem Beneath.chars (beneath : p.Beneath rows m.point) (front rest : List Char) :
    (p.scan (Utf16.encode (front ++ rest)) (Utf16.length front)).Beneath
      (rows + loneReturns (Utf16.encode (front ++ rest)) (Utf16.length front))
      (m.afterAll front).point := by
  induction front generalizing p m rows with
  | nil => simpa [Mark.afterAll] using beneath
  | cons c front ih =>
      obtain ⟨p', lone, scanned, counted, beneath'⟩ := beneath.char c (Utf16.encode (front ++ rest))
      rw [List.cons_append, Utf16.encode_cons, Utf16.length_cons, scanned, counted, ← Nat.add_assoc]
      exact ih beneath'

end LinePosition

namespace Syntax

namespace Point

variable {p q r : Point}

theorem le_iff : p.le q ↔ p.row < q.row ∨ p.row = q.row ∧ p.column ≤ q.column := by
  simp [le]

theorem lt_iff : p.lt q ↔ p.row < q.row ∨ p.row = q.row ∧ p.column < q.column := by
  have either : p.lt q ↔ ¬q.le p := by simp [lt]
  rw [either, le_iff]
  omega

theorem le_iff_not_lt : p.le q ↔ ¬q.lt p := by simp [lt]

theorem lt_irrefl (p : Point) : ¬p.lt p := by
  rw [lt_iff]
  omega

theorem lt_trans (first : p.lt q) (second : q.lt r) : p.lt r := by
  rw [lt_iff] at *
  omega

theorem lt_asymm (first : p.lt q) : ¬q.lt p := fun second => lt_irrefl p (lt_trans first second)

end Point

namespace Mark

theorem afterAll_append (m : Mark) (cs ds : List Char) :
    m.afterAll (cs ++ ds) = (m.afterAll cs).afterAll ds := List.foldl_append

theorem byte_afterAll (m : Mark) (cs : List Char) :
    (m.afterAll cs).byte = m.byte + Utf16.length cs * bytesPerUnit := by
  induction cs generalizing m with
  | nil => exact (congrArg (m.byte + ·) (Nat.zero_mul _)).symm
  | cons c cs ih =>
      rw [afterAll, List.foldl_cons, ← afterAll, ih, Utf16.length_cons, Nat.add_mul,
        ← Nat.add_assoc]
      rfl

/-- The offset of a place in code units. -/
def offset (m : Mark) : Nat := unitsOfBytes m.byte

theorem offset_afterAll (cs : List Char) : (start.afterAll cs).offset = Utf16.length cs := by
  rw [offset, byte_afterAll, show start.byte = 0 from rfl, Nat.zero_add, unitsOfBytes_mul]

theorem column_afterAll_le {m : Mark} (le : m.point.column ≤ m.byte) (cs : List Char) :
    (m.afterAll cs).point.column ≤ (m.afterAll cs).byte := by
  induction cs generalizing m with
  | nil => exact le
  | cons c cs ih =>
      refine ih (show (m.after c).point.column ≤ (m.after c).byte from ?_)
      rw [after]
      dsimp only
      split
      · exact Nat.zero_le _
      · exact Nat.add_le_add_right le _

theorem lt_after (m : Mark) (c : Char) : m.point.lt (m.after c).point := by
  have width := Utf16.width_pos c
  rw [Point.lt_iff, after]
  dsimp only
  split
  · exact .inl (Nat.lt_succ_self _)
  · exact .inr ⟨rfl, Nat.lt_add_of_pos_right (Nat.mul_pos width (by decide))⟩

/-- Behind some characters is a later point. -/
theorem lt_afterAll {cs : List Char} (notEmpty : cs ≠ []) (m : Mark) :
    m.point.lt (m.afterAll cs).point ∧ m.byte < (m.afterAll cs).byte := by
  constructor
  · induction cs generalizing m with
    | nil => exact absurd rfl notEmpty
    | cons c cs ih =>
        by_cases last : cs = []
        · subst last
          exact lt_after m c
        · exact Point.lt_trans (lt_after m c) (ih last (m.after c))
  · obtain ⟨c, cs, rfl⟩ := List.exists_cons_of_ne_nil notEmpty
    have width := Utf16.width_pos c
    rw [byte_afterAll, Utf16.length_cons]
    exact Nat.lt_add_of_pos_right (Nat.mul_pos (Nat.add_pos_left width _) (by decide))

end Mark

end Syntax

namespace TextBuffer

variable {text : TextBuffer} {m m' : Mark}

/-- The mark is a place of the text, counted as a parser does. -/
def Holds (text : TextBuffer) (m : Mark) : Prop :=
  ∃ front rest, front ++ rest = text.chars ∧ m = Mark.start.afterAll front

/-- The places of a text are in one order by their points and by their bytes. -/
theorem Holds.lt_iff (holds : text.Holds m) (holds' : text.Holds m') :
    m.point.lt m'.point ↔ m.byte < m'.byte := by
  obtain ⟨front, rest, whole, rfl⟩ := holds
  obtain ⟨front', rest', whole', rfl⟩ := holds'
  rcases List.append_eq_append_iff.mp (whole.trans whole'.symm) with
    ⟨between, rfl, -⟩ | ⟨between, rfl, -⟩
  · rw [Mark.afterAll_append]
    by_cases same : between = []
    · subst same
      exact iff_of_false (Point.lt_irrefl _) (Nat.lt_irrefl _)
    · obtain ⟨point, byte⟩ := Mark.lt_afterAll same (Mark.start.afterAll front)
      exact iff_of_true point byte
  · rw [Mark.afterAll_append]
    by_cases same : between = []
    · subst same
      exact iff_of_false (Point.lt_irrefl _) (Nat.lt_irrefl _)
    · obtain ⟨point, byte⟩ := Mark.lt_afterAll same (Mark.start.afterAll front')
      exact iff_of_false (Point.lt_asymm point) (Nat.lt_asymm byte)

theorem Holds.le_iff (holds : text.Holds m) (holds' : text.Holds m') :
    m.point.le m'.point ↔ m.byte ≤ m'.byte := by
  rw [Point.le_iff_not_lt, holds'.lt_iff holds, Nat.not_lt]

theorem Holds.column_le (holds : text.Holds m) : m.point.column ≤ m.byte := by
  obtain ⟨front, rest, -, rfl⟩ := holds
  exact Mark.column_afterAll_le (Nat.zero_le _) front

/-- The number of CRs in front of an offset that no LF follows. -/
def loneReturns (text : TextBuffer) (offset : Nat) : Nat :=
  CodeEditor.loneReturns text.units offset

theorem Holds.offset_le (holds : text.Holds m) : m.offset ≤ text.length := by
  obtain ⟨front, rest, whole, rfl⟩ := holds
  rw [Mark.offset_afterAll, TextBuffer.length, ← whole, Utf16.length_append]
  exact Nat.le_add_right _ _

/-- The row of a place in the text is further down by the CRs that no LF follows, and where there
are none the columns are the same. -/
theorem Holds.beneath (holds : text.Holds m) :
    (text.position m.offset).Beneath (text.loneReturns m.offset) m.point := by
  obtain ⟨front, rest, whole, rfl⟩ := holds
  rw [Mark.offset_afterAll, position, loneReturns, units, ← whole]
  have top : (LinePosition.mk 0 0).Beneath 0 Mark.start.point := ⟨rfl, fun _ => rfl⟩
  have beneath := top.chars front rest
  rwa [Nat.zero_add] at beneath

/-- The position of a place is that of its point exactly when no CR without an LF stands in
front. -/
theorem Holds.position_eq_iff (holds : text.Holds m) :
    text.position m.offset = m.point.position ↔ text.loneReturns m.offset = 0 := by
  obtain ⟨row, column⟩ := holds.beneath
  constructor
  · intro same
    rw [same, Point.position] at row
    exact Nat.left_eq_add.mp row
  · intro none
    rw [none, Nat.add_zero] at row
    rw [Point.position, column none, unitsOfBytes_mul, ← row]

end TextBuffer

end CodeEditor

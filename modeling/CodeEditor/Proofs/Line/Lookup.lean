import CodeEditor.Line.Index
import CodeEditor.Proofs.Line.Store

/-!
Looking up lines.

In a valid store every look-up reads the list of lines: a place has the total length of the lines
above as its location and the lines next to it as its neighbours (`Valid.locate`), and an offset up
to the end of the text lies in one line (`Valid.containing`). An index over such a store therefore
finds the line of every offset of the text (`LineIndex.lineAt_ok`) and of every line that it still
has (`LineIndex.existing_ok`).
-/

namespace CodeEditor

namespace LineTree

theorem first?_eq (t : LineTree) : t.first? = t.toList.head?.map (·.1) := by
  fun_induction LineTree.first? t with
  | case1 => rfl
  | case2 cell r => rfl
  | case3 cell l r notEmpty ih =>
      have filled : l.toList ≠ [] := by
        cases l with
        | empty => exact absurd rfl notEmpty
        | node cell l r => simp
      rw [ih, toList_node, List.head?_append, List.head?_eq_some_head filled, Option.some_or]

theorem last?_eq (t : LineTree) : t.last? = t.toList.getLast?.map (·.1) := by
  fun_induction LineTree.last? t with
  | case1 => rfl
  | case2 cell l => simp [Cell.entry]
  | case3 cell l r notEmpty ih =>
      have filled : r.toList ≠ [] := by
        cases r with
        | empty => exact absurd rfl notEmpty
        | node cell l r => simp
      rw [ih, toList_node, List.getLast?_append, List.getLast?_cons,
        List.getLast?_eq_some_getLast filled]
      rfl

/-- An offset inside the text lies in one line. -/
theorem containing_eq {t : LineTree} (summed : t.Summed) {offset : Nat}
    (inside : offset < lengthOf t.toList) :
    ∃ front id m rest, t.toList = front ++ (id, m) :: rest ∧ t.containing offset = some id ∧
      lengthOf front ≤ offset ∧ offset < lengthOf front + m.totalLength := by
  induction t generalizing offset with
  | empty => simp at inside
  | node cell l r ihl ihr =>
      obtain ⟨-, left, right⟩ := summed
      have lengthLeft := left.sums.length
      rw [containing]
      split
      · next inLeft =>
          obtain ⟨front, id, m, rest, lines, found, lower, upper⟩ :=
            ihl left (show offset < lengthOf l.toList by omega)
          exact ⟨front, id, m, rest ++ cell.entry :: r.toList, by simp [lines], found, lower, upper⟩
      · next behindLeft =>
          dsimp only
          split
          · next here =>
              exact ⟨l.toList, cell.id, cell.metrics, r.toList, rfl, rfl, by omega, by omega⟩
          · next behind =>
              simp only [toList_node, Cell.entry, lengthOf_append, lengthOf_cons] at inside
              obtain ⟨front, id, m, rest, lines, found, lower, upper⟩ := ihr right
                (show offset - l.summary.length - cell.metrics.totalLength < lengthOf r.toList by
                  omega)
              refine ⟨l.toList ++ cell.entry :: front, id, m, rest, by simp [lines], found, ?_, ?_⟩
              · simp only [Cell.entry, lengthOf_append, lengthOf_cons]
                omega
              · simp only [Cell.entry, lengthOf_append, lengthOf_cons]
                omega

end LineTree

/-- An offset lies inside one line only. -/
theorem line_unique {front front' rest rest' : List (LineId × LineMetrics)}
    {line line' : LineId × LineMetrics} {offset : Nat}
    (same : front ++ line :: rest = front' ++ line' :: rest') (lower : lengthOf front ≤ offset)
    (upper : offset < lengthOf front + line.2.totalLength) (lower' : lengthOf front' ≤ offset)
    (upper' : offset < lengthOf front' + line'.2.totalLength) :
    front = front' ∧ line = line' ∧ rest = rest' := by
  rcases List.append_eq_append_iff.mp same with ⟨between, rfl, behind⟩ | ⟨between, rfl, behind⟩
  · cases between with
    | nil =>
        obtain ⟨rfl, rfl⟩ := List.cons.inj behind
        exact ⟨by simp, rfl, rfl⟩
    | cons extra between =>
        obtain ⟨rfl, -⟩ := List.cons.inj behind
        simp only [lengthOf_append, lengthOf_cons] at lower'
        omega
  · cases between with
    | nil =>
        obtain ⟨rfl, rfl⟩ := List.cons.inj behind
        exact ⟨by simp, rfl, rfl⟩
    | cons extra between =>
        obtain ⟨rfl, -⟩ := List.cons.inj behind
        simp only [lengthOf_append, lengthOf_cons] at lower
        omega

namespace Place

/-- The sum that `location` adds up along a path. -/
theorem foldl_location {path : Path} (summed : Path.SiblingsSummed path) (start : Nat) :
    path.foldl (fun n s => match s.side with
      | .left => n
      | .right => n + (s.sibling.summary.length + s.cell.metrics.totalLength)) start =
      lengthOf (Path.before path) + start := by
  induction path generalizing start with
  | nil => simp
  | cons s rest ih =>
      obtain ⟨sibling, above⟩ := Path.siblingsSummed_cons_iff.mp summed
      have length := sibling.sums.length
      rw [List.foldl_cons, ih above, Path.before_cons, lengthOf_append]
      unfold Step.before
      cases s.side with
      | left => simp
      | right =>
          simp only [lengthOf_append, Cell.entry, lengthOf_cons, lengthOf_nil]
          omega

/-- The location of a line is the total length of the lines above. -/
theorem location_eq {p : Place} (left : p.left.Summed) (path : Path.SiblingsSummed p.path) :
    p.location = lengthOf p.before := by
  rw [before, lengthOf_append, ← left.sums.length]
  exact foldl_location path _

/-- The parent that a path comes to from the right is the last line in front of it. -/
theorem find_right (path : Path) :
    (path.find? (·.side = .right)).map (·.cell.id) = (Path.before path).getLast?.map (·.1) := by
  induction path with
  | nil => rfl
  | cons s rest ih =>
      rw [Path.before_cons, Step.before]
      cases side : s.side with
      | left => simpa [side] using ih
      | right => simp [side, Cell.entry]

/-- The parent that a path comes to from the left is the first line behind it. -/
theorem find_left (path : Path) :
    (path.find? (·.side = .left)).map (·.cell.id) = (Path.after path).head?.map (·.1) := by
  induction path with
  | nil => rfl
  | cons s rest ih =>
      rw [Path.after_cons, Step.after]
      cases side : s.side with
      | left => simp [side, Cell.entry]
      | right => simpa [side] using ih

theorem previous?_eq (p : Place) : p.previous? = p.before.getLast?.map (·.1) := by
  rw [previous?, LineTree.last?_eq, find_right, before, List.getLast?_append]
  cases p.left.toList.getLast? <;> rfl

theorem next?_eq (p : Place) : p.next? = p.after.head?.map (·.1) := by
  rw [next?, LineTree.first?_eq, find_left, after, List.head?_append]
  cases p.right.toList.head? <;> rfl

end Place

namespace LineStore.Valid

variable {s : LineStore} {front rest : List (LineId × LineMetrics)} {id : LineId} {m : LineMetrics}

/-- The place of a line knows what is above and what is next to it. -/
theorem locate_eq (valid : s.Valid) (lines : s.toList = front ++ (id, m) :: rest) :
    ∃ place, s.locate id = some place ∧ place.cell.id = id ∧ place.cell.metrics = m ∧
      place.location = lengthOf front ∧ place.previous? = front.getLast?.map (·.1) ∧
      place.next? = rest.head?.map (·.1) := by
  obtain ⟨place, located, -, entry, rfl, rfl⟩ := valid.locate lines
  obtain ⟨⟨-, left, -⟩, above⟩ := valid.summed.locate located
  exact ⟨place, located, congrArg (·.1) entry, congrArg (·.2) entry,
    Place.location_eq left above.siblings, Place.previous?_eq place, Place.next?_eq place⟩

theorem metrics?_eq (valid : s.Valid) (lines : s.toList = front ++ (id, m) :: rest) :
    s.metrics? id = some m := by
  obtain ⟨place, located, -, metrics, -⟩ := valid.locate_eq lines
  rw [metrics?, located, Option.map_some, metrics]

theorem next?_eq (valid : s.Valid) (lines : s.toList = front ++ (id, m) :: rest) :
    s.next? id = rest.head?.map (·.1) := by
  obtain ⟨place, located, -, -, -, -, next⟩ := valid.locate_eq lines
  rw [LineStore.next?, located, Option.bind_some, next]

/-- Every offset up to the end of the text is that of one line, the end itself of the last. -/
theorem containing (valid : s.Valid) {offset : Nat} (inside : offset ≤ lengthOf s.toList) :
    ∃ front id m rest, s.toList = front ++ (id, m) :: rest ∧ s.containing? offset = some id ∧
      lengthOf front ≤ offset ∧
      (offset < lengthOf front + m.totalLength ∨
        rest = [] ∧ offset = lengthOf front + m.totalLength) := by
  rw [containing?, valid.totalLength_eq, if_neg (by omega)]
  split
  · next atEnd =>
      have last := List.getLast?_eq_some_getLast valid.nonempty
      generalize s.toList.getLast valid.nonempty = line at last
      obtain ⟨id, m⟩ := line
      obtain ⟨front, lines⟩ := List.getLast?_eq_some_iff.mp last
      refine ⟨front, id, m, [], lines, ?_, ?_, .inr ⟨rfl, ?_⟩⟩
      · have tree : s.tree.toList.getLast? = some (id, m) := last
        rw [LineStore.last?, LineTree.last?_eq, tree]
        rfl
      · rw [atEnd, lines, lengthOf_append]
        omega
      · rw [atEnd, lines]
        simp
  · next inner =>
      have before : offset < lengthOf s.toList := by omega
      obtain ⟨front, id, m, rest, lines, found, lower, upper⟩ :=
        LineTree.containing_eq valid.summed before
      exact ⟨front, id, m, rest, lines, found, lower, .inl upper⟩

/-- A valid store is one in any index. -/
theorem stored (valid : s.Valid) (index : LineIndex) :
    ({ index with store := s } : LineIndex).store.Valid := valid

end LineStore.Valid

namespace LineIndex

variable {index : LineIndex} {front rest : List (LineId × LineMetrics)} {id : LineId}
  {m : LineMetrics}

theorem line?_eq (valid : index.store.Valid)
    (lines : index.store.toList = front ++ (id, m) :: rest) :
    ∃ line, index.line? id = some line ∧ line.id = id ∧ line.metrics = m ∧
      line.location = lengthOf front := by
  obtain ⟨place, located, -, metrics, location, -⟩ := valid.locate_eq lines
  exact ⟨_, by rw [line?, located, Option.map_some], rfl, metrics, location⟩

section

variable {μ : Type → Type} [Monad μ] [MonadExceptOf Failure μ]

/-- A line of the index is found. -/
theorem existing_ok (valid : index.store.Valid)
    (lines : index.store.toList = front ++ (id, m) :: rest) :
    ∃ line, (index.existing id : μ Line) = pure line ∧ line.id = id ∧ line.metrics = m ∧
      line.location = lengthOf front := by
  obtain ⟨line, found, facts⟩ := line?_eq valid lines
  exact ⟨line, by rw [existing, found], facts⟩

/-- The line of an offset is found, up to the end of the text. -/
theorem lineAt_ok (valid : index.store.Valid) {offset : Nat}
    (inside : offset ≤ lengthOf index.store.toList) :
    ∃ front m rest line, (index.lineAt offset : μ Line) = pure line ∧
      index.store.toList = front ++ (line.id, m) :: rest ∧ line.metrics = m ∧
      line.location = lengthOf front ∧ lengthOf front ≤ offset ∧
      (offset < lengthOf front + m.totalLength ∨
        rest = [] ∧ offset = lengthOf front + m.totalLength) := by
  obtain ⟨front, id, m, rest, lines, found, lower, upper⟩ := valid.containing inside
  obtain ⟨line, ok, here, metrics, location⟩ := @existing_ok _ _ _ _ _ μ _ _ valid lines
  refine ⟨front, m, rest, line, ?_, here ▸ lines, metrics, location, lower, upper⟩
  rw [lineAt, found]
  exact ok

/-- The line that an offset lies inside of is the one found. -/
theorem lineAt_eq (valid : index.store.Valid)
    (lines : index.store.toList = front ++ (id, m) :: rest) {offset : Nat}
    (lower : lengthOf front ≤ offset) (upper : offset < lengthOf front + m.totalLength) :
    ∃ line, (index.lineAt offset : μ Line) = pure line ∧ line.id = id ∧ line.metrics = m ∧
      line.location = lengthOf front := by
  have inside : offset ≤ lengthOf index.store.toList := by
    have total :
        lengthOf index.store.toList = lengthOf front + (m.totalLength + lengthOf rest) := by
      rw [lines, lengthOf_append, lengthOf_cons]
    omega
  obtain ⟨front', m', rest', line, found, lines', metrics, location, lower', upper'⟩ :=
    @lineAt_ok _ μ _ _ valid _ inside
  have same := lines.symm.trans lines'
  have upper' : offset < lengthOf front' + m'.totalLength := by
    rcases upper' with upper' | ⟨rfl, atEnd⟩
    · exact upper'
    · have total := congrArg lengthOf same
      simp only [lengthOf_append, lengthOf_cons, lengthOf_nil] at total
      omega
  obtain ⟨rfl, line', -⟩ := line_unique same lower upper lower' upper'
  obtain ⟨rfl, rfl⟩ := Prod.mk.inj line'
  exact ⟨line, found, rfl, metrics, location⟩

/-- An offset from the end of a line on is that of a line below, or the end of the text and the line
the last one. -/
theorem lineAt_behind (valid : index.store.Valid)
    (lines : index.store.toList = front ++ (id, m) :: rest) {offset : Nat}
    (lower : lengthOf front + m.totalLength ≤ offset)
    (inside : offset ≤ lengthOf index.store.toList) :
    ∃ stop, (index.lineAt offset : μ Line) = pure stop ∧
      (stop.id = id ∧ rest = [] ∧ offset = lengthOf front + m.totalLength ∨
        ∃ between behind, rest = between ++ (stop.id, stop.metrics) :: behind ∧ stop.id ≠ id ∧
          stop.location = lengthOf front + m.totalLength + lengthOf between ∧
          stop.location ≤ offset ∧ (offset < stop.location + stop.metrics.totalLength ∨
            behind = [] ∧ offset = stop.location + stop.metrics.totalLength)) := by
  obtain ⟨front', d, behind, stop, found, lines', rfl, location, lower', upper⟩ :=
    @lineAt_ok _ μ _ _ valid _ inside
  refine ⟨stop, found, ?_⟩
  have distinct : (index.store.toList.map (·.1)).Nodup := valid.holds.nodup_ids
  have same := lines.symm.trans lines'
  by_cases isLine : stop.id = id
  · rw [lines] at distinct
    rw [isLine] at same
    obtain ⟨rfl, rfl, rfl⟩ := LineTree.append_cons_inj distinct same
    rcases upper with upper | ⟨rfl, atEnd⟩
    · omega
    · exact .inl ⟨isLine, rfl, atEnd⟩
  · rcases List.append_eq_append_iff.mp same with ⟨between, rfl, below⟩ | ⟨between, rfl, below⟩
    · cases between with
      | nil => exact absurd (congrArg (·.1) (List.cons.inj below).1).symm isLine
      | cons line between =>
          obtain ⟨rfl, rfl⟩ := List.cons.inj below
          simp only [lengthOf_append, lengthOf_cons] at location lower' upper
          refine .inr ⟨between, behind, rfl, isLine, by omega, by omega, ?_⟩
          rcases upper with upper | ⟨last, atEnd⟩
          · exact .inl (by omega)
          · exact .inr ⟨last, by omega⟩
    · -- The line found would stand above.
      cases between with
      | nil => exact absurd (congrArg (·.1) (List.cons.inj below).1) isLine
      | cons line between =>
          obtain ⟨rfl, rfl⟩ := List.cons.inj below
          simp only [lengthOf_append, lengthOf_cons] at lower
          rcases upper with upper | ⟨none, -⟩
          · omega
          · simp at none

end

end LineIndex

end CodeEditor

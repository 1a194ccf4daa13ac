import CodeEditor.Proofs.Line.Balance
import CodeEditor.Proofs.Line.Slots
import CodeEditor.Proofs.Line.Sums

/-!
The store of lines as a plain list.

`LineStore.Valid` is the invariant of a store: a balanced tree with the right sums, at least one
line, and slots that are in use for exactly its lines. Every operation keeps it and acts on the list
of lines and nothing else: `Valid.insertAfter` puts one new line behind another, `Valid.erase` takes
one out, `Valid.update` changes one in place, and on an identity that no line has nothing happens
(`insertAfter?_eq_none`, `erase?_eq_none`, `update?_eq_none`).
-/

namespace CodeEditor

namespace LineStore

/-- The identities of the lines. -/
def ids (s : LineStore) : List LineId := s.toList.map (·.1)

/-- The invariant of a store of lines. -/
structure Valid (s : LineStore) : Prop where
  balanced : ∃ n, s.tree.Balanced .black n
  summed : s.tree.Summed
  holds : s.Holds s.toList
  nonempty : s.toList ≠ []

namespace Valid

variable {s : LineStore}

/-- What is to be shown of a store whose lines are known. -/
theorem of_lines {lines : List (LineId × LineMetrics)} (whole : s.toList = lines)
    (balanced : ∃ n, s.tree.Balanced .black n) (summed : s.tree.Summed) (holds : s.Holds lines)
    (nonempty : lines ≠ []) : s.Valid := by
  subst whole
  exact ⟨balanced, summed, holds, nonempty⟩

theorem distinct (valid : s.Valid) : (s.tree.toList.map (·.1)).Nodup := valid.holds.nodup_ids

theorem count_eq (valid : s.Valid) : s.count = s.toList.length := valid.summed.sums.count

theorem totalLength_eq (valid : s.Valid) : s.totalLength = lengthOf s.toList :=
  valid.summed.sums.length

/-- The place of a line stands between the lines around it. -/
theorem locate (valid : s.Valid) {front rest : List (LineId × LineMetrics)} {id : LineId}
    {m : LineMetrics} (lines : s.toList = front ++ (id, m) :: rest) :
    ∃ place, s.locate id = some place ∧ place.toTree = s.tree ∧ place.cell.entry = (id, m) ∧
      place.before = front ∧ place.after = rest := by
  cases located : s.locate id with
  | none =>
      refine absurd ?_ (LineTree.locate_eq_none_iff.mp located)
      have whole : s.tree.toList = front ++ (id, m) :: rest := lines
      rw [whole]
      simp
  | some place =>
      have there := LineTree.toList_of_locate located
      obtain ⟨here, whole⟩ := LineTree.locate_eq_some located
      have distinct := valid.holds.nodup_ids
      rw [lines] at distinct
      obtain ⟨before, metrics, after⟩ :=
        LineTree.append_cons_inj distinct (lines.symm.trans there)
      exact ⟨place, rfl, whole, by rw [Cell.entry, here, metrics], before.symm, after.symm⟩

end Valid

/-! ### Whole contents -/

theorem valid_reset (s : LineStore) (m : LineMetrics) : (s.reset m).Valid where
  balanced := ⟨1, .black rfl .empty .empty⟩
  summed := ⟨Summary.sums_ofLine _ m, trivial, trivial⟩
  holds := (s.holds_clear.allocate m).withTree _
  nonempty := by simp [reset, toList, Cell.entry]

theorem toList_rebuild (s : LineStore) {lines : List LineMetrics} (notEmpty : lines ≠ []) :
    (s.rebuild lines).toList = (s.clear.allocateAll lines).1 := by
  cases lines with
  | nil => exact absurd rfl notEmpty
  | cons m rest => exact LineTree.toList_ofList _

/-- A store that starts over holds the lines it is given, in their order. -/
theorem metrics_rebuild (s : LineStore) {lines : List LineMetrics} (notEmpty : lines ≠ []) :
    (s.rebuild lines).toList.map (·.2) = lines := by
  rw [s.toList_rebuild notEmpty]
  exact (s.holds_clear.allocateAll lines).2

theorem valid_rebuild (s : LineStore) (lines : List LineMetrics) : (s.rebuild lines).Valid := by
  cases lines with
  | nil => exact s.valid_reset _
  | cons m rest =>
      have held := (s.holds_clear.allocateAll (m :: rest)).1
      rw [List.append_nil] at held
      have lines := s.toList_rebuild (List.cons_ne_nil m rest)
      refine ⟨LineTree.balanced_ofList _, LineTree.summed_ofList _, ?_, ?_⟩
      · rw [lines]
        exact held.withTree _
      · intro empty
        have metrics := s.metrics_rebuild (List.cons_ne_nil m rest)
        simp [empty] at metrics

/-! ### Single lines -/

theorem locate_eq_none {s : LineStore} {id : LineId} (gone : id ∉ s.ids) : s.locate id = none :=
  LineTree.locate_eq_none_iff.mpr gone

theorem insertAfter?_eq_none {s : LineStore} {id : LineId} (gone : id ∉ s.ids) (m : LineMetrics) :
    s.insertAfter? id m = none := by
  simp [insertAfter?, locate_eq_none gone]

theorem erase?_eq_none {s : LineStore} {id : LineId} (gone : id ∉ s.ids) : s.erase? id = none := by
  simp [erase?, locate_eq_none gone]

theorem update?_eq_none {s : LineStore} {id : LineId} (gone : id ∉ s.ids)
    (f : LineMetrics → LineMetrics) : s.update? id f = none := by
  simp [update?, locate_eq_none gone]

namespace Valid

variable {s : LineStore} {front rest : List (LineId × LineMetrics)} {id : LineId} {m : LineMetrics}

/-- Changing a line leaves all others and all identities. -/
theorem update (valid : s.Valid) (lines : s.toList = front ++ (id, m) :: rest)
    (f : LineMetrics → LineMetrics) :
    ∃ s', s.update? id f = some s' ∧ s'.Valid ∧ s'.toList = front ++ (id, f m) :: rest := by
  obtain ⟨place, located, whole, entry, before, after⟩ := valid.locate lines
  obtain ⟨n, balanced⟩ := valid.balanced
  obtain ⟨a, k, node, path⟩ := balanced.locate located
  obtain ⟨sums, above⟩ := valid.summed.locate located
  have metrics : place.cell.metrics = m := congrArg (·.2) entry
  have changed : LineTree.toList (LineTree.exchange place id (f m)) = front ++
      (id, f m) :: rest := by
    rw [LineTree.toList_exchange, before, after]
  refine ⟨{ s with tree := LineTree.exchange place id (f m) }, ?_, ?_, changed⟩
  · simp [update?, located, metrics]
  · refine of_lines changed (LineTree.balanced_exchange id (f m) node path)
      (LineTree.summed_exchange id (f m) sums above.siblings) ?_ (by simp)
    refine (valid.holds.of_ids ?_).withTree _
    rw [lines]
    simp

/-- A new line stands directly behind another, with an identity that no line had. -/
theorem insertAfter (valid : s.Valid) (lines : s.toList = front ++ (id, m) :: rest)
    (new : LineMetrics) :
    ∃ id' s', s.insertAfter? id new = some (id', s') ∧ s'.Valid ∧ id' ∉ s.ids ∧
      s'.toList = front ++ (id, m) :: (id', new) :: rest := by
  obtain ⟨place, located, whole, entry, before, after⟩ := valid.locate lines
  obtain ⟨n, balanced⟩ := valid.balanced
  obtain ⟨a, k, node, path⟩ := balanced.locate located
  obtain ⟨sums, above⟩ := valid.summed.locate located
  have held := valid.holds.allocate new
  have changed : LineTree.toList (LineTree.insertAfter place s.allocate.1 new) =
      front ++ (id, m) :: (s.allocate.1, new) :: rest := by
    rw [LineTree.toList_insertAfter, before, after, entry]
  refine ⟨s.allocate.1, { s.allocate.2 with tree := LineTree.insertAfter place s.allocate.1 new },
    ?_, ?_, ?_, changed⟩
  · simp [insertAfter?, located]
  · refine of_lines changed (LineTree.balanced_insertAfter _ new node path)
      (LineTree.summed_insertAfter _ new sums above.siblings) ?_ (by simp)
    refine (held.perm ?_).withTree _
    rw [lines]
    simpa using @List.perm_middle _ _ (front ++ [(id, m)]) rest
  · exact (List.nodup_cons.mp held.nodup_ids).1

/-- Erasing takes exactly one line out, if another one is left. -/
theorem erase (valid : s.Valid) (lines : s.toList = front ++ (id, m) :: rest)
    (other : front ++ rest ≠ []) :
    ∃ s', s.erase? id = some s' ∧ s'.Valid ∧ s'.toList = front ++ rest := by
  obtain ⟨place, located, whole, entry, before, after⟩ := valid.locate lines
  obtain ⟨n, balanced⟩ := valid.balanced
  obtain ⟨a, k, node, path⟩ := balanced.locate located
  obtain ⟨sums, above⟩ := valid.summed.locate located
  have many : ¬s.count ≤ 1 := by
    rw [valid.count_eq, lines]
    have := List.length_pos_iff.mpr other
    simp only [List.length_append, List.length_cons] at this ⊢
    omega
  have changed : LineTree.toList (LineTree.erase place) = front ++ rest := by
    rw [LineTree.toList_erase (whole ▸ valid.distinct), before, after]
  refine ⟨({ s with tree := LineTree.erase place } : LineStore).release id, ?_, ?_, changed⟩
  · simp [erase?, located, many]
  · have held : s.Holds ((id, m) :: (front ++ rest)) :=
      valid.holds.perm (lines ▸ List.perm_middle.symm)
    exact of_lines changed (LineTree.balanced_erase node path)
      (LineTree.summed_erase sums above.siblings) (held.withTree _).release other

/-- The only line stays. -/
theorem erase_only (valid : s.Valid) (only : s.toList = [(id, m)]) : s.erase? id = none := by
  obtain ⟨place, located, -⟩ := valid.locate (show s.toList = [] ++ (id, m) :: [] from only)
  have one : s.count ≤ 1 := by rw [valid.count_eq, only]; simp
  simp [erase?, located, one]

end Valid

/-- An identity is that of a line exactly when the line stands somewhere in the list. -/
theorem mem_ids_iff {s : LineStore} {id : LineId} :
    id ∈ s.ids ↔ ∃ front m rest, s.toList = front ++ (id, m) :: rest := by
  constructor
  · intro mem
    obtain ⟨⟨_, m⟩, inside, rfl⟩ := List.mem_map.mp mem
    obtain ⟨front, rest, eq⟩ := List.append_of_mem inside
    exact ⟨front, m, rest, eq⟩
  · rintro ⟨front, m, rest, eq⟩
    simp [ids, eq]

/-- A line that is put in stands behind a line of the store. -/
theorem Valid.exists_of_insertAfter? {s s' : LineStore} (valid : s.Valid) {id new : LineId}
    {m : LineMetrics} (step : s.insertAfter? id m = some (new, s')) :
    ∃ front d rest, s.toList = front ++ (id, d) :: rest ∧ s'.Valid ∧ new ∉ s.ids ∧
      s'.toList = front ++ (id, d) :: (new, m) :: rest := by
  by_cases mem : id ∈ s.ids
  · obtain ⟨front, d, rest, lines⟩ := mem_ids_iff.mp mem
    obtain ⟨new', s'', step', valid', fresh, lines'⟩ := valid.insertAfter lines m
    cases step.symm.trans step'
    exact ⟨front, d, rest, lines, valid', fresh, lines'⟩
  · simp [insertAfter?_eq_none mem] at step

/-- A line that is taken out was a line of the store, and not the only one. -/
theorem Valid.exists_of_erase? {s s' : LineStore} (valid : s.Valid) {id : LineId}
    (step : s.erase? id = some s') :
    ∃ front d rest, s.toList = front ++ (id, d) :: rest ∧ s'.Valid ∧ s'.toList = front ++ rest := by
  by_cases mem : id ∈ s.ids
  · obtain ⟨front, d, rest, lines⟩ := mem_ids_iff.mp mem
    by_cases other : front ++ rest = []
    · obtain ⟨rfl, rfl⟩ := List.append_eq_nil_iff.mp other
      simp [valid.erase_only lines] at step
    · obtain ⟨s'', step', valid', lines'⟩ := valid.erase lines other
      cases step.symm.trans step'
      exact ⟨front, d, rest, lines, valid', lines'⟩
  · simp [erase?_eq_none mem] at step

/-- A line that is changed is a line of the store. -/
theorem Valid.exists_of_update? {s s' : LineStore} (valid : s.Valid) {id : LineId}
    {f : LineMetrics → LineMetrics} (step : s.update? id f = some s') :
    ∃ front d rest, s.toList = front ++ (id, d) :: rest ∧ s'.Valid ∧
      s'.toList = front ++ (id, f d) :: rest := by
  by_cases mem : id ∈ s.ids
  · obtain ⟨front, d, rest, lines⟩ := mem_ids_iff.mp mem
    obtain ⟨s'', step', valid', lines'⟩ := valid.update lines f
    cases step.symm.trans step'
    exact ⟨front, d, rest, lines, valid', lines'⟩
  · simp [update?_eq_none mem] at step

end LineStore

end CodeEditor

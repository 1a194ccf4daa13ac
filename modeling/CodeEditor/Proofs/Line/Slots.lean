import CodeEditor.Line.Store

/-!
The slots behind the identities of lines.

A store holds some lines (`LineStore.Holds`) when each of their slots is in use by exactly that
generation and the free list has every other slot once. Allocating adds a line to those held, with
an identity that none of them has; releasing takes one away.
-/

namespace CodeEditor

namespace LineStore

/-- The slots of some lines. -/
def slotsOf (lines : List (LineId × LineMetrics)) : List Nat := (lines.map (·.1)).map (·.slot)

/-- Some lines are those that the slots are in use for. -/
structure Holds (s : LineStore) (lines : List (LineId × LineMetrics)) : Prop where
  /-- Each slot is that of one line, or free, and no slot is counted twice. -/
  slots : (slotsOf lines ++ s.free).Perm (List.range s.generations.size)
  /-- Lines carry the present generation of their slot. -/
  generations : ∀ line ∈ lines, s.generations[line.1.slot]? = some line.1.generation

namespace Holds

variable {s : LineStore} {lines : List (LineId × LineMetrics)}

theorem nodup_slots (h : s.Holds lines) : (slotsOf lines ++ s.free).Nodup :=
  h.slots.nodup_iff.mpr List.nodup_range

/-- No two lines have the same slot. -/
theorem nodup_used (h : s.Holds lines) : (slotsOf lines).Nodup :=
  (List.nodup_append.mp h.nodup_slots).1

/-- No two lines have the same identity. -/
theorem nodup_ids (h : s.Holds lines) : (lines.map (·.1)).Nodup :=
  List.Pairwise.of_map (·.slot) (fun _ _ other same => other (same ▸ rfl)) h.nodup_used

theorem lt_size (h : s.Holds lines) {slot : Nat} (mem : slot ∈ slotsOf lines ++ s.free) :
    slot < s.generations.size :=
  List.mem_range.mp (h.slots.subset mem)

theorem perm (h : s.Holds lines) {lines' : List (LineId × LineMetrics)}
    (same : lines'.Perm lines) : s.Holds lines' where
  slots := (((same.map _).map _).append_right _).trans h.slots
  generations line mem := h.generations line (same.subset mem)

/-- What a store holds does not depend on its tree. -/
theorem withTree (h : s.Holds lines) (tree : LineTree) : Holds { s with tree } lines :=
  ⟨h.slots, h.generations⟩

/-- Changing the sizes of lines leaves their identities. -/
theorem of_ids (h : s.Holds lines) {lines' : List (LineId × LineMetrics)}
    (same : lines'.map (·.1) = lines.map (·.1)) : s.Holds lines' where
  slots := by
    have slots : slotsOf lines' = slotsOf lines := congrArg (List.map LineId.slot) same
    rw [slots]
    exact h.slots
  generations line mem := by
    have mem : line.1 ∈ lines.map (·.1) := same ▸ List.mem_map_of_mem mem
    obtain ⟨line', mem', eq⟩ := List.mem_map.mp mem
    rw [← eq]
    exact h.generations line' mem'

end Holds

/-! ### Taking and giving back slots -/

theorem Holds.allocate {s : LineStore} {lines : List (LineId × LineMetrics)} (h : s.Holds lines)
    (m : LineMetrics) : s.allocate.2.Holds ((s.allocate.1, m) :: lines) := by
  unfold LineStore.allocate
  split
  · next slot free eq =>
      have bound : slot < s.generations.size := h.lt_size (by simp [eq])
      constructor
      · have slots := h.slots
        rw [eq] at slots
        exact (List.perm_middle.symm).trans slots
      · intro line mem
        rcases List.mem_cons.mp mem with rfl | mem
        · simp [bound]
        · exact h.generations line mem
  · next eq =>
      constructor
      · have slots := h.slots
        rw [eq, List.append_nil] at slots
        simp only [eq, List.append_nil, Array.size_push, List.range_succ]
        exact (List.Perm.cons s.generations.size slots).trans
          (List.perm_append_singleton _ _).symm
      · intro line mem
        rcases List.mem_cons.mp mem with rfl | mem
        · simp
        · have found := h.generations line mem
          have bound := (Array.getElem?_eq_some_iff.mp found).1
          rw [Array.getElem?_push_lt bound]
          simpa [bound] using found

theorem Holds.release {s : LineStore} {id : LineId} {m : LineMetrics}
    {lines : List (LineId × LineMetrics)} (h : s.Holds ((id, m) :: lines)) :
    (s.release id).Holds lines := by
  constructor
  · simp only [LineStore.release, Array.size_modify]
    exact List.perm_middle.trans h.slots
  · intro line mem
    have other : line.1.slot ≠ id.slot := by
      intro same
      have distinct := h.nodup_used
      simp only [slotsOf, List.map_cons, List.nodup_cons] at distinct
      exact distinct.1 (same ▸ List.mem_map_of_mem (List.mem_map_of_mem mem))
    have found := h.generations line (List.mem_cons_of_mem _ mem)
    simp only [LineStore.release]
    rw [Array.getElem?_modify, if_neg (Ne.symm other)]
    exact found

/-- After dropping all lines every slot is free. -/
theorem holds_clear (s : LineStore) : s.clear.Holds [] := by
  have size : ∀ (lines : List (LineId × LineMetrics)) (g : Array UInt32),
      (lines.foldl (fun g line => g.modify line.1.slot (· + 1)) g).size = g.size := by
    intro lines
    induction lines with
    | nil => intro g; rfl
    | cons line lines ih => intro g; simp [ih]
  refine ⟨?_, fun line mem => by cases mem⟩
  simp [clear, size, slotsOf]

theorem Holds.allocateAll {s : LineStore} {lines : List (LineId × LineMetrics)} (h : s.Holds lines)
    (ms : List LineMetrics) :
    (s.allocateAll ms).2.Holds ((s.allocateAll ms).1 ++ lines) ∧
      (s.allocateAll ms).1.map (·.2) = ms := by
  induction ms generalizing s lines with
  | nil => exact ⟨h, rfl⟩
  | cons m ms ih =>
      obtain ⟨held, metrics⟩ := ih (h.allocate m)
      refine ⟨held.perm ?_, ?_⟩
      · exact List.perm_middle.symm
      · simp [LineStore.allocateAll, metrics]

end LineStore

end CodeEditor

import CodeEditor.Proofs.Arena.Turning
import CodeEditor.Proofs.Line.Slots

/-!
Building a tree in memory.

From unlinked nodes `LineArena.build` links the tree that `LineTree.build` builds from their lines
(`build_cases`), from below upwards: until a node is linked to its parent it is the root of a tree
of its own.
-/

namespace CodeEditor

namespace LineTree

theorem build_succ {h : Nat} {lines after : List (LineId × LineMetrics)} {id : LineId}
    {m : LineMetrics} (drop : lines.drop (lines.length / 2) = (id, m) :: after) :
    build (h + 1) lines =
      join ⟨if h + 1 = 1 then .red else .black, Summary.zero, id, m⟩
        (build h (lines.take (lines.length / 2))) (build h after) := by
  simp [build, drop]

theorem sums_build {h : Nat} {lines : List (LineId × LineMetrics)} (fits : lines.length < 2 ^ h) :
    (build h lines).summary.Sums lines := by
  have sums := (summed_build h lines).sums
  rwa [toList_build fits] at sums

theorem slots_build {h : Nat} {lines : List (LineId × LineMetrics)} (fits : lines.length < 2 ^ h) :
    (build h lines).slots = LineStore.slotsOf lines := by
  rw [slots, toList_build fits]

end LineTree

namespace LineArena

variable {a : LineArena} {id : LineId} {m : LineMetrics} {l r : LineTree}

/-- The number of levels is counted by halving. -/
theorem treeHeight_eq (n : Nat) : treeHeight n = LineTree.levels n := by
  induction n using Nat.strongRecOn with
  | ind n ih =>
      unfold treeHeight LineTree.levels
      split
      · rfl
      · next positive =>
          rw [ih (n / 2) (by omega), LineTree.levels, Nat.log2_def n]
          split <;> split <;> omega

/-- An arena in which two trees are linked below a node. -/
def joined (a : LineArena) (node : Nat) (left right : Option Nat) (color : Color) : LineArena :=
  ((a.written node fun s => { s with left, right, color }).writtenAt left
    fun s => { s with parent := some node }).writtenAt right fun s => { s with parent := some node }

theorem getElem?_joined {node j : Nat} {left right : Option Nat} {color : Color} (out : node ≠ j) :
    (a.joined node left right color).slots[j]? =
      if left = some j ∨ right = some j then
        a.slots[j]?.map fun s => { s with parent := some node }
      else a.slots[j]? := by
  by_cases onLeft : left = some j <;> by_cases onRight : right = some j <;>
    simp [joined, out, onLeft, onRight, Function.comp_def]

/-- Two trees linked below an unlinked node are one tree. -/
theorem spells_joined {color : Color} (leaf : a.slots[id.slot]? = some (.leaf id.generation m))
    (left : a.Spells none l) (right : a.Spells none r)
    (nodup : (l.slots ++ id.slot :: r.slots).Nodup) :
    (a.joined id.slot l.slot? r.slot? color).Spells none
      (.node ⟨color, Summary.ofLine m, id, m⟩ l r) := by
  rw [List.perm_middle.nodup_iff, List.nodup_cons, List.mem_append, not_or] at nodup
  obtain ⟨⟨outLeft, outRight⟩, trees⟩ := nodup
  obtain ⟨leftNodup, rightNodup, apart⟩ := List.nodup_append.mp trees
  refine ⟨?_, left.reparent leftNodup (fun j root => ?_) fun j mem other => ?_,
    right.reparent rightNodup (fun j root => ?_) fun j mem other => ?_⟩
  · have onLeft : l.slot? ≠ some id.slot := fun root => outLeft (LineTree.mem_slots_of_slot? root)
    have onRight : r.slot? ≠ some id.slot :=
      fun root => outRight (LineTree.mem_slots_of_slot? root)
    simp [joined, leaf, onLeft, onRight]
    rfl
  · have mem := LineTree.mem_slots_of_slot? root
    rw [getElem?_joined (ne_of_mem_of_not_mem mem outLeft).symm, if_pos (.inl root)]
  · rw [getElem?_joined (ne_of_mem_of_not_mem mem outLeft).symm, if_neg]
    rintro (root | root)
    · exact other root
    · exact apart j mem j (LineTree.mem_slots_of_slot? root) rfl
  · have mem := LineTree.mem_slots_of_slot? root
    rw [getElem?_joined (ne_of_mem_of_not_mem mem outRight).symm, if_pos (.inr root)]
  · rw [getElem?_joined (ne_of_mem_of_not_mem mem outRight).symm, if_neg]
    rintro (root | root)
    · exact apart j (LineTree.mem_slots_of_slot? root) j mem rfl
    · exact other root

/-- A tree is built from two halves around a node. -/
theorem build_eq {h : Nat} {lines after : List (LineId × LineMetrics)}
    (drop : lines.drop (lines.length / 2) = (id, m) :: after) :
    a.build (LineStore.slotsOf lines) (h + 1) = (do
      let (left, a) ← a.build (LineStore.slotsOf (lines.take (lines.length / 2))) h
      let (right, a) ← a.build (LineStore.slotsOf after) h
      let color := if h + 1 = 1 then .red else .black
      let a ← a.write id.slot fun s => { s with left, right, color }
      let a ← a.writeAt left fun s => { s with parent := some id.slot }
      let a ← a.writeAt right fun s => { s with parent := some id.slot }
      return (some id.slot, ← a.recompute id.slot)) := by
  have size : (LineStore.slotsOf lines).length = lines.length := by simp [LineStore.slotsOf]
  have below : (LineStore.slotsOf lines).drop (lines.length / 2) =
      id.slot :: LineStore.slotsOf after := by
    rw [LineStore.slotsOf, ← List.map_drop, ← List.map_drop, drop]
    rfl
  have above : (LineStore.slotsOf lines).take (lines.length / 2) =
      LineStore.slotsOf (lines.take (lines.length / 2)) := by
    rw [LineStore.slotsOf, ← List.map_take, ← List.map_take]
    rfl
  rw [LineArena.build, size, above]
  split
  · next empty => simp [below] at empty
  · next node' after' same =>
      rw [below] at same
      cases same
      rfl

/-- Two trees are linked below a node when all their lines can be addressed, and only then. -/
theorem link_cases {color : Color} {xs ys : List (LineId × LineMetrics)}
    (leaf : a.slots[id.slot]? = some (.leaf id.generation m)) (left : a.Spells none l)
    (right : a.Spells none r) (nodup : (l.slots ++ id.slot :: r.slots).Nodup)
    (hl : l.summary.Sums xs) (hr : r.summary.Sums ys) :
    let run : Checked (Option Nat × LineArena) := do
      let a ← a.write id.slot fun s => { s with left := l.slot?, right := r.slot?, color }
      let a ← a.writeAt l.slot? fun s => { s with parent := some id.slot }
      let a ← a.writeAt r.slot? fun s => { s with parent := some id.slot }
      return (some id.slot, ← a.recompute id.slot)
    (Addressable (xs ++ (id, m) :: ys) ∧ ∃ a₁, run = some (some id.slot, a₁) ∧
        a₁.Spells none (LineTree.join ⟨color, Summary.zero, id, m⟩ l r) ∧
        (∀ j ∉ l.slots ++ id.slot :: r.slots, a₁.slots[j]? = a.slots[j]?) ∧
        a₁.root = a.root ∧ a₁.free = a.free ∧ a₁.slots.size = a.slots.size) ∨
      ¬Addressable (xs ++ (id, m) :: ys) ∧ run = none := by
  intro run
  have node := lt_size leaf
  have joined : (a.joined id.slot l.slot? r.slot? color).Spells none _ :=
    spells_joined leaf left right nodup
  have ran : run =
      ((a.joined id.slot l.slot? r.slot? color).recompute id.slot).map (some id.slot, ·) := by
    show LineArena.write a id.slot _ >>= _ = _
    rw [write_eq node]
    dsimp only [bind, Option.bind]
    rw [writeAt_eq (by simpa using fun i => left.slot?_lt)]
    dsimp only
    rw [writeAt_eq (by simpa using fun i => right.slot?_lt)]
    dsimp only
    rw [Option.map_eq_bind]
    rfl
  have recomputed := joined.recompute_eq hl hr
  rw [ran]
  by_cases small : Addressable (xs ++ (id, m) :: ys)
  · have summed : ((a.joined id.slot l.slot? r.slot? color).written id.slot fun s =>
        { s with summary := Summary.combine l.summary r.summary m }).Spells none
          (LineTree.join ⟨color, Summary.zero, id, m⟩ l r) :=
      joined.written (by simpa using nodup) rfl rfl
    have inside : id.slot < (a.joined id.slot l.slot? r.slot? color).slots.size := by
      simpa [LineArena.joined] using node
    refine .inl ⟨small, _, ?_, summed, fun j out => ?_, ?_, ?_, ?_⟩
    · rw [show LineArena.recompute _ id.slot = _ from recomputed.trans (if_pos small)]
      dsimp only
      rw [write_eq inside]
      rfl
    · rw [List.mem_append, List.mem_cons, not_or, not_or] at out
      obtain ⟨outLeft, other, outRight⟩ := out
      rw [getElem?_written, if_neg (Ne.symm other), getElem?_joined (Ne.symm other), if_neg]
      rintro (root | root)
      · exact outLeft (LineTree.mem_slots_of_slot? root)
      · exact outRight (LineTree.mem_slots_of_slot? root)
    · simp [LineArena.joined]
    · simp [LineArena.joined]
    · simp [LineArena.joined]
  · refine .inr ⟨small, ?_⟩
    rw [show LineArena.recompute _ id.slot = none from recomputed.trans (if_neg small)]
    rfl

/-- A balanced tree is linked when its lines can be addressed, and only then. -/
theorem build_cases {h : Nat} {lines : List (LineId × LineMetrics)}
    (leaves : ∀ line ∈ lines, a.slots[line.1.slot]? = some (.leaf line.1.generation line.2))
    (nodup : (LineStore.slotsOf lines).Nodup) (fits : lines.length < 2 ^ h) :
    (Addressable lines ∧ ∃ a₁,
        a.build (LineStore.slotsOf lines) h = some ((LineTree.build h lines).slot?, a₁) ∧
        a₁.Spells none (LineTree.build h lines) ∧
        (∀ j ∉ LineStore.slotsOf lines, a₁.slots[j]? = a.slots[j]?) ∧
        a₁.root = a.root ∧ a₁.free = a.free ∧ a₁.slots.size = a.slots.size) ∨
      ¬Addressable lines ∧ a.build (LineStore.slotsOf lines) h = none := by
  induction h generalizing a lines with
  | zero =>
      obtain rfl : lines = [] := List.eq_nil_of_length_eq_zero (by omega)
      refine .inl ⟨by decide, a, ?_, trivial, fun _ _ => rfl, rfl, rfl, rfl⟩
      unfold LineArena.build
      rfl
  | succ h ih =>
      rw [Nat.pow_succ] at fits
      have whole := List.take_append_drop (lines.length / 2) lines
      have half : (lines.take (lines.length / 2)).length = lines.length / 2 := by
        rw [List.length_take]
        omega
      cases drop : lines.drop (lines.length / 2) with
      | nil =>
          have short := congrArg List.length drop
          rw [List.length_drop, List.length_nil] at short
          obtain rfl : lines = [] := List.eq_nil_of_length_eq_zero (by omega)
          refine .inl ⟨by decide, a, ?_, trivial, fun _ _ => rfl, rfl, rfl, rfl⟩
          unfold LineArena.build
          rfl
      | cons line after =>
          obtain ⟨id, m⟩ := line
          rw [drop] at whole
          have lengths := congrArg List.length whole
          rw [List.length_append, List.length_cons, half] at lengths
          generalize front : lines.take (lines.length / 2) = before at whole half
          have slots : LineStore.slotsOf lines =
              LineStore.slotsOf before ++ id.slot :: LineStore.slotsOf after := by
            simp [← whole, LineStore.slotsOf]
          have frontFits : before.length < 2 ^ h := by omega
          have afterFits : after.length < 2 ^ h := by omega
          rw [slots] at nodup
          obtain ⟨frontNodup, restNodup, apart⟩ := List.nodup_append.mp nodup
          obtain ⟨out, afterNodup⟩ := List.nodup_cons.mp restNodup
          rw [LineTree.build_succ drop, build_eq drop, front]
          have inAll : ∀ j, j ∉ LineStore.slotsOf lines → j ∉ LineStore.slotsOf before ∧
              j ≠ id.slot ∧ j ∉ LineStore.slotsOf after := by
            intro j outside
            rwa [slots, List.mem_append, List.mem_cons, not_or, not_or] at outside
          rw [← whole] at leaves
          rcases ih (fun line mem => leaves line (List.mem_append_left _ mem)) frontNodup frontFits
            with ⟨smallFront, a₁, run₁, left, same₁, root₁, free₁, size₁⟩ | ⟨big, stops⟩
          · rw [run₁, Option.bind_eq_bind, Option.bind_some]
            dsimp only
            have outBefore : ∀ j ∈ id.slot :: LineStore.slotsOf after,
                j ∉ LineStore.slotsOf before :=
              fun j mem before => apart j before j mem rfl
            have leaves₁ : ∀ line ∈ after,
                a₁.slots[line.1.slot]? = some (.leaf line.1.generation line.2) := by
              intro line mem
              have slot : line.1.slot ∈ LineStore.slotsOf after :=
                List.mem_map_of_mem (List.mem_map_of_mem mem)
              rw [same₁ _ (outBefore _ (List.mem_cons_of_mem _ slot))]
              exact leaves line (by simp [mem])
            rcases ih leaves₁ afterNodup afterFits
              with ⟨smallAfter, a₂, run₂, right, same₂, root₂, free₂, size₂⟩ | ⟨big, stops⟩
            · rw [run₂, Option.bind_some]
              dsimp only
              have leaf : a₂.slots[id.slot]? = some (.leaf id.generation m) := by
                rw [same₂ _ out, same₁ _ (outBefore _ List.mem_cons_self)]
                exact leaves (id, m) (by simp)
              have left₂ : a₂.Spells none (LineTree.build h before) := by
                refine left.frame fun j mem => same₂ j fun after => ?_
                rw [LineTree.slots_build frontFits] at mem
                exact outBefore j (List.mem_cons_of_mem _ after) mem
              rcases link_cases leaf left₂ right (by
                rwa [LineTree.slots_build frontFits, LineTree.slots_build afterFits])
                (LineTree.sums_build frontFits) (LineTree.sums_build afterFits)
                with ⟨small, a₃, run₃, spells, same₃, root₃, free₃, size₃⟩ | ⟨big, stops⟩
              · refine .inl ⟨whole ▸ small, a₃, run₃, spells, fun j outside => ?_,
                  root₃.trans (root₂.trans root₁), free₃.trans (free₂.trans free₁),
                  size₃.trans (size₂.trans size₁)⟩
                obtain ⟨outFront, other, outAfter⟩ := inAll j outside
                rw [same₃ j, same₂ j outAfter, same₁ j outFront]
                rw [LineTree.slots_build frontFits, LineTree.slots_build afterFits]
                simp [outFront, other, outAfter]
              · exact .inr ⟨whole ▸ big, stops⟩
            · refine .inr ⟨fun small => big ?_, ?_⟩
              · rw [← whole] at small
                exact @Addressable.part (before ++ [(id, m)]) after [] (by simpa using small)
              · rw [stops]
                rfl
          · refine .inr ⟨fun small => big ?_, ?_⟩
            · rw [← whole] at small
              exact @Addressable.part [] before ((id, m) :: after) small
            · rw [stops]
              rfl

end LineArena

end CodeEditor

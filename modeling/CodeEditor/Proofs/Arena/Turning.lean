import CodeEditor.Proofs.Arena.Memory

/-!
Turning nodes in memory.

`Around.replace` is what putting another node in the place of one does to the links around the
place. With it `Laid.rotate` shows that a rotation, which rewrites up to seven links one after the
other, lays out the turned tree with fresh sums for the two nodes it turns.
-/

namespace CodeEditor

namespace LineTree

theorem joinAt_other (side : Side) (cell : Cell) (near far : LineTree) :
    joinAt side.other cell near far = joinAt side cell far near := by
  cases side <;> rfl

theorem slot?_joinAt (side : Side) (cell : Cell) (near far : LineTree) :
    (joinAt side cell near far).slot? = some cell.id.slot := by
  cases side <;> rfl

/-- A turn keeps the order of the lines. -/
theorem toList_turned (side : Side) (p q : Cell) (t near far : LineTree) :
    (joinAt side q (joinAt side p t near) far).toList =
      (Step.fill ⟨side, p, Step.fill ⟨side, q, far⟩ near⟩ t).toList := by
  cases side <;> simp [joinAt, Step.fill]

end LineTree

namespace LineArena

variable {a base : LineArena} {path rest : Path} {t : LineTree} {up link new : Option Nat} {i : Nat}

section

variable {cell : Cell} {side : Side} {near far : Option Nat}

/-- A node is found to be the child on the side where it is. -/
theorem side_eq (other : far ≠ near) :
    (if (cell.slot side up near far).left = near then Side.left else .right) = side := by
  cases side with
  | left => exact if_pos rfl
  | right => exact if_neg other

theorem left_eq_iff (other : far ≠ near) : (cell.slot side up near far).left = near ↔
    side = .left := by
  cases side with
  | left => exact iff_of_true rfl rfl
  | right => exact iff_of_false other (by decide)

theorem right_eq_iff (other : far ≠ near) :
    (cell.slot side up near far).right = near ↔ side = .right := by
  cases side with
  | left => exact iff_of_false other (by decide)
  | right => exact iff_of_true rfl rfl

/-- The child that a node has besides the given one. -/
theorem far_eq (other : far ≠ near) :
    (if (cell.slot side up near far).left = near then (cell.slot side up near far).right
      else (cell.slot side up near far).left) = far := by
  cases side with
  | left => exact if_pos rfl
  | right => exact if_neg other

end

/-- Putting another node in the place of one rewrites the link that leads there, then the parents of
the two. -/
theorem Around.replace {s : Slot} (around : a.Around path (some i))
    (nodup : (Path.slots path).Nodup)
    (out : i ∉ Path.slots path) (there : a.slots[i]? = some s) (up : s.parent = Path.parent? path)
    (found : ∀ n, new = some n → n ∉ Path.slots path ∧ ∃ s, a.slots[n]? = some s) :
    ∃ a₁ : LineArena, a₁.Around path new ∧ a₁.free = a.free ∧ a₁.slots.size = a.slots.size ∧
      (∀ j ∉ Path.slots path, a₁.slots[j]? = a.slots[j]?) ∧
      a.replaceNode i new =
        some ((a₁.writtenAt new fun s => { s with parent := Path.parent? path }).written i
          fun s => { s with parent := none }) := by
  have finish {a₁ : LineArena} (same : ∀ j ∉ Path.slots path, a₁.slots[j]? = a.slots[j]?) :
      (a₁.writeAt new fun s => { s with parent := Path.parent? path }) =
          some (a₁.writtenAt new fun s => { s with parent := Path.parent? path }) ∧
        ((a₁.writtenAt new fun s => { s with parent := Path.parent? path }).write i
            fun s => { s with parent := none }) =
          some ((a₁.writtenAt new fun s => { s with parent := Path.parent? path }).written i
            fun s => { s with parent := none }) := by
    constructor
    · refine writeAt_eq fun n eq => ?_
      obtain ⟨apart, s, there⟩ := found n eq
      exact lt_size ((same n apart).trans there)
    · refine write_eq ?_
      rw [size_writtenAt]
      exact lt_size ((same i out).trans there)
  cases path with
  | nil =>
      obtain ⟨parents, last⟩ := @finish { a with root := new } fun _ _ => rfl
      refine ⟨{ a with root := new }, rfl, rfl, rfl, fun _ _ => rfl, ?_⟩
      rw [replaceNode, slot, there]
      dsimp only [bind, Option.bind]
      rw [up]
      dsimp only [Path.parent?, List.head?, Option.map] at parents last ⊢
      rw [parents]
      exact last
  | cons step rest =>
      obtain ⟨here, sibling, above⟩ := around
      rw [Path.slots_cons, List.nodup_cons] at nodup
      have notBeside : step.cell.id.slot ∉ step.sibling.slots :=
        fun mem => nodup.1 (List.mem_append_left _ mem)
      have notAbove : step.cell.id.slot ∉ Path.slots rest :=
        fun mem => nodup.1 (List.mem_append_right _ mem)
      have other : step.sibling.slot? ≠ some i := by
        intro same
        exact out (by simp [LineTree.mem_slots_of_slot? same])
      have same : ∀ j ∉ Path.slots (step :: rest),
          (a.written step.cell.id.slot (·.setChild step.side new)).slots[j]? = a.slots[j]? := by
        intro j out
        rw [getElem?_written, if_neg]
        rintro rfl
        exact out (by simp)
      obtain ⟨parents, last⟩ := finish same
      refine ⟨a.written step.cell.id.slot (·.setChild step.side new), ⟨?_, ?_, ?_⟩, rfl,
        size_written, same, ?_⟩
      · rw [getElem?_written, if_pos rfl, here, Option.map_some, Cell.setChild_slot]
      · exact sibling.frame (getElem?_written_of_notMem notBeside)
      · exact above.frame (getElem?_written_of_notMem notAbove) rfl
      · rw [replaceNode, slot, there]
        dsimp only [bind, Option.bind]
        rw [up]
        dsimp only [Path.parent?, List.head?, Option.map] at parents last ⊢
        rw [slot, here]
        dsimp only
        rw [side_eq other, write_eq (lt_size here)]
        dsimp only
        rw [parents]
        exact last

/-- A tree whose root gets another parent. -/
theorem Spells.reparent {a' : LineArena} {up' : Option Nat} (spells : a.Spells up t)
    (nodup : t.slots.Nodup)
    (root : ∀ i, t.slot? = some i → a'.slots[i]? = a.slots[i]?.map fun s =>
      { s with parent := up' })
    (same : ∀ i ∈ t.slots, t.slot? ≠ some i → a'.slots[i]? = a.slots[i]?) : a'.Spells up' t := by
  cases t with
  | empty => trivial
  | node cell l r =>
      obtain ⟨here, left, right⟩ := spells
      rw [LineTree.slots_node, List.perm_middle.nodup_iff, List.nodup_cons, List.mem_append,
        not_or] at nodup
      obtain ⟨⟨notLeft, notRight⟩, -⟩ := nodup
      refine ⟨?_, left.frame fun i mem => ?_, right.frame fun i mem => ?_⟩
      · rw [root _ rfl, here]
        rfl
      · refine same i (by simp [mem]) ?_
        rintro ⟨⟩
        exact notLeft mem
      · refine same i (by simp [mem]) ?_
        rintro ⟨⟩
        exact notRight mem

/-- A step refilled after its sums were made fresh. -/
theorem fill_refresh (s : Step) (t : LineTree) :
    (s.refresh t.summary).fill t = LineTree.joinAt s.side s.cell t s.sibling := by
  obtain ⟨side, cell, sibling⟩ := s
  cases side <;> rfl

section

variable {side : Side} {p q : Cell} {near inner outer : LineTree}

/-- An arena in which a node and its parent have changed places, but for the link from above. -/
def turned (a : LineArena) (side : Side) (p q : Nat) (up inner : Option Nat) : LineArena :=
  (((((a.writtenAt (some q) fun s => { s with parent := up }).written p
    fun s => { s with parent := none }).written p (·.setChild side.other inner)).writtenAt inner
    fun s => { s with parent := some p }).written q (·.setChild side (some p))).written p
    fun s => { s with parent := some q }

theorem perm_turn (side : Side) (p q : Cell) (near inner outer : LineTree) (path : Path) :
    (near.slots ++ Path.slots (⟨side, p, Step.fill ⟨side, q, outer⟩ inner⟩ :: path)).Perm
      (p.id.slot :: q.id.slot ::
        (inner.slots ++ (near.slots ++ outer.slots ++ Path.slots path))) := by
  have below := Step.slots_fill ⟨side, q, outer⟩ inner
  rw [List.perm_iff_count] at below ⊢
  intro i
  have below := below i
  simp only [Path.slots_cons, List.count_append, List.count_cons] at below ⊢
  omega

theorem perm_turned (side : Side) (p q : Cell) (near inner outer : LineTree) (path : Path) :
    (near.slots ++ Path.slots (⟨side, p, inner⟩ :: ⟨side, q, outer⟩ :: path)).Perm
      (near.slots ++ Path.slots (⟨side, p, Step.fill ⟨side, q, outer⟩ inner⟩ :: path)) := by
  have below := Step.slots_fill ⟨side, q, outer⟩ inner
  rw [List.perm_iff_count] at below ⊢
  intro i
  have below := below i
  simp only [Path.slots_cons, List.count_append, List.count_cons] at below ⊢
  omega

/-- A rotation writes its links and then makes two sums fresh. -/
theorem rotate_eq {a₁ : LineArena} {up far : Option Nat} (pq : p.id.slot ≠ q.id.slot)
    (pHere : a.slots[p.id.slot]? = some (p.slot side up link (some q.id.slot)))
    (pSame : a₁.slots[p.id.slot]? = a.slots[p.id.slot]?)
    (qHere : a₁.slots[q.id.slot]? = some (q.slot side (some p.id.slot) inner.slot? far))
    (found : ∀ i, inner.slot? = some i → i < a₁.slots.size)
    (replaced : a.replaceNode p.id.slot (some q.id.slot) =
      some ((a₁.writtenAt (some q.id.slot) fun s => { s with parent := up }).written p.id.slot
        fun s => { s with parent := none })) :
    a.rotate side p.id.slot =
      ((a₁.turned side p.id.slot q.id.slot up inner.slot?).recompute p.id.slot >>=
        (·.recompute q.id.slot)) := by
  have qp := pq.symm
  have p₁ := pSame.trans pHere
  rw [LineArena.rotate, slot, pHere]
  dsimp only [bind, Option.bind]
  rw [Cell.child_other_slot]
  dsimp only
  rw [replaced]
  dsimp only
  have q₂ : ((a₁.writtenAt (some q.id.slot) fun s => { s with parent := up }).written p.id.slot
      fun s => { s with parent := none }).slots[q.id.slot]? =
      some (q.slot side up inner.slot? far) := by
    simp [qHere, pq, Cell.slot]
  have pSize := lt_size p₁
  have qSize := lt_size qHere
  rw [slot, q₂]
  dsimp only
  rw [Cell.child_slot, write_eq (by simpa using pSize)]
  dsimp only
  rw [writeAt_eq (by simpa using found)]
  dsimp only
  rw [write_eq (by simpa using qSize)]
  dsimp only
  rw [write_eq (by simpa using pSize)]
  rfl

/-- What a rotation writes besides the two nodes. -/
theorem getElem?_turned {up : Option Nat} {j : Nat} (pOut : p.id.slot ≠ j) (qOut : q.id.slot ≠ j) :
    (a.turned side p.id.slot q.id.slot up link).slots[j]? =
      if link = some j then a.slots[j]?.map fun s => { s with parent := some p.id.slot }
      else a.slots[j]? := by
  simp [turned, pOut, qOut]

/-- The links that a rotation writes. -/
theorem Laid.relink
    (laid : Laid base (⟨side, p, Step.fill ⟨side, q, outer⟩ inner⟩ :: path) near a) :
    ∃ a₂, Laid base (⟨side, p, inner⟩ :: ⟨side, q, outer⟩ :: path) near a₂ ∧
      a.rotate side p.id.slot = (a₂.recompute p.id.slot >>= (·.recompute q.id.slot)) := by
  obtain ⟨⟨pHere, below, above⟩, nearSpells, nodup, free, size, others⟩ := laid
  obtain ⟨qHere, outerSpells, innerSpells⟩ := spells_fill_iff.mp below
  rw [Step.slot?_fill] at pHere
  dsimp only at pHere qHere outerSpells innerSpells
  have perm := perm_turn side p q near inner outer path
  have distinct := perm.nodup_iff.mp nodup
  simp only [List.nodup_cons, List.mem_cons, List.mem_append, not_or] at distinct
  obtain ⟨⟨pq, pInner, ⟨pNear, pOuter⟩, pPath⟩, ⟨qInner, ⟨qNear, qOuter⟩, qPath⟩, trees⟩ := distinct
  have qp := Ne.symm pq
  obtain ⟨innerNodup, restNodup, innerApart⟩ := List.nodup_append.mp trees
  have pathNodup := (List.nodup_append.mp restNodup).2.1
  -- The link from above and the parents of the two.
  have found : ∀ n, some q.id.slot = some n → n ∉ Path.slots path ∧ ∃ s, a.slots[n]? = some s := by
    rintro n ⟨⟩
    exact ⟨qPath, _, qHere⟩
  obtain ⟨a₁, around, free₁, size₁, same, replaced⟩ := above.replace pathNodup pPath pHere rfl found
  have inside : ∀ i, inner.slot? = some i → i < a₁.slots.size := by
    intro i root
    rw [size₁]
    exact innerSpells.slot?_lt root
  have pInner' : inner.slot? ≠ some p.id.slot := fun root =>
    pInner (LineTree.mem_slots_of_slot? root)
  have qInner' : inner.slot? ≠ some q.id.slot := fun root =>
    qInner (LineTree.mem_slots_of_slot? root)
  let a₂ := a₁.turned side p.id.slot q.id.slot (Path.parent? path) inner.slot?
  have pSlot : a₂.slots[p.id.slot]? =
      some (p.slot side (some q.id.slot) near.slot? inner.slot?) := by
    have pHere := (same _ pPath).trans pHere
    simp [a₂, turned, pHere, pInner', qp]
  have qSlot : a₂.slots[q.id.slot]? =
      some (q.slot side (Path.parent? path) (some p.id.slot) outer.slot?) := by
    have qHere := (same _ qPath).trans qHere
    simp [a₂, turned, qHere, qInner', pq]
  -- Nothing else is written but the inner subtree's parent.
  have still {is : List Nat} (pOut : p.id.slot ∉ is) (qOut : q.id.slot ∉ is)
      (apart : ∀ i ∈ inner.slots, i ∉ is) : ∀ j ∈ is, a₂.slots[j]? = a₁.slots[j]? := by
    intro j mem
    rw [getElem?_turned (ne_of_mem_of_not_mem mem pOut).symm (ne_of_mem_of_not_mem mem qOut).symm,
      if_neg fun root => apart j (LineTree.mem_slots_of_slot? root) mem]
  have turnedPerm := (perm_turned side p q near inner outer path).symm
  have outPath : ∀ i ∈ inner.slots, i ∉ Path.slots path :=
    fun i mem path => innerApart i mem i (List.mem_append_right _ path) rfl
  have outNear : ∀ i ∈ inner.slots, i ∉ near.slots :=
    fun i mem near => innerApart i mem i (by simp [near]) rfl
  have outOuter : ∀ i ∈ inner.slots, i ∉ outer.slots :=
    fun i mem outer => innerApart i mem i (by simp [outer]) rfl
  obtain ⟨-, -, trees⟩ := List.nodup_append.mp restNodup
  have nearSame : ∀ j ∈ near.slots, a₁.slots[j]? = a.slots[j]? :=
    fun j mem => same j fun path => trees j (by simp [mem]) j path rfl
  have outerSame : ∀ j ∈ outer.slots, a₁.slots[j]? = a.slots[j]? :=
    fun j mem => same j fun path => trees j (by simp [mem]) j path rfl
  refine ⟨a₂, ⟨⟨pSlot, ?_, ⟨qSlot, ?_, ?_⟩⟩, ?_, ?_, ?_, ?_, ?_⟩,
    rotate_eq pq pHere (same _ pPath) ((same _ qPath).trans qHere) inside replaced⟩
  · refine innerSpells.reparent innerNodup (fun i root => ?_) fun i mem other => ?_
    · have mem := LineTree.mem_slots_of_slot? root
      rw [getElem?_turned (ne_of_mem_of_not_mem mem pInner).symm
        (ne_of_mem_of_not_mem mem qInner).symm, if_pos root, same i (outPath i mem)]
    · rw [getElem?_turned (ne_of_mem_of_not_mem mem pInner).symm
        (ne_of_mem_of_not_mem mem qInner).symm, if_neg other, same i (outPath i mem)]
  · exact outerSpells.frame fun j mem =>
      (still pOuter qOuter outOuter j mem).trans (outerSame j mem)
  · exact around.frame (still pPath qPath outPath) (by simp [a₂, turned])
  · exact nearSpells.frame fun j mem => (still pNear qNear outNear j mem).trans (nearSame j mem)
  · exact turnedPerm.nodup_iff.mp nodup
  · simp [a₂, turned, free₁, free]
  · simp [a₂, turned, size₁, size]
  · intro i out
    have out := turnedPerm.mem_iff.not.mpr out
    rw [← others i out]
    have out := perm.mem_iff.not.mp out
    simp only [List.mem_cons, List.mem_append, not_or] at out
    obtain ⟨pOut, qOut, innerOut, -, pathOut⟩ := out
    rw [getElem?_turned (Ne.symm pOut) (Ne.symm qOut),
      if_neg fun root => innerOut (LineTree.mem_slots_of_slot? root), same i pathOut]

/-- A rotation lays out the turned tree. -/
theorem Laid.rotate (laid : Laid base (⟨side, p, Step.fill ⟨side, q, outer⟩ inner⟩ :: path) near a)
    (hn : near.Summed) (hi : inner.Summed) (ho : outer.Summed)
    (small : Addressable
      (LineTree.joinAt side q (LineTree.joinAt side p near inner) outer).toList) :
    Yields (a.rotate side p.id.slot) base path
      (LineTree.joinAt side q (LineTree.joinAt side p near inner) outer) := by
  obtain ⟨a₂, laid, run⟩ := laid.relink
  have lower := fill_refresh ⟨side, p, inner⟩ near
  have summed : (LineTree.joinAt side p near inner).Summed := hn.joinAt hi
  dsimp only at lower
  rw [← lower] at small summed ⊢
  have upper :=
    fill_refresh ⟨side, q, outer⟩ ((Step.refresh ⟨side, p, inner⟩ near.summary).fill near)
  dsimp only at upper
  rw [← upper] at small ⊢
  rw [Step.toList_fill, Step.before_refresh, Step.after_refresh] at small
  have part := small.part
  rw [Step.toList_fill, Step.before_refresh, Step.after_refresh] at part
  rw [run]
  refine (laid.recompute_parent hn.sums hi part).bind fun a laid => ?_
  have whole := (laid_cons_iff.mp laid).recompute_parent summed.sums ho small
  exact whole.refocus rfl

end

end LineArena

end CodeEditor

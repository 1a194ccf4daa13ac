import CodeEditor.Proofs.Arena.Turning

/-!
Putting a node into the tree in memory.

What `fixAfterInsert` writes is what `LineTree.afterInsert` builds (`Laid.fixAfterInsert`): it
repaints three nodes and goes on two levels higher, or it turns once or twice and is done.
`Laid.attach` puts the new node there in the first place.
-/

namespace CodeEditor

namespace LineTree

/-- An inner grandchild seen from the parent's other child. -/
theorem fill_inner {side : Side} {parent : Step} {cell : Cell} {l r near far : LineTree}
    (other : parent.side ≠ side) (eq : sidewise side l r = (near, far)) :
    Step.fill ⟨side, parent.cell, Step.fill ⟨side, cell, far⟩ near⟩ parent.sibling =
      parent.fill (.node cell l r) := by
  obtain ⟨side', p, sibling⟩ := parent
  cases side <;> cases side' <;> cases eq
  · exact absurd rfl other
  · rfl
  · rfl
  · exact absurd rfl other

/-- Turning makes the sums of the parent fresh, whatever they were. -/
theorem turnUp_refresh (grand : Step) (cell : Cell) (outer far : LineTree) (sub : Summary) :
    turnUp grand (Step.refresh ⟨grand.side, cell, far⟩ sub).cell outer
        (Step.refresh ⟨grand.side, cell, far⟩ sub).sibling =
      turnUp grand cell outer far := by
  unfold turnUp
  cases grand.side <;> rfl

end LineTree

namespace LineArena

variable {a base : LineArena} {path rest : Path} {t : LineTree} {up near far : Option Nat} {i : Nat}
  {cell : Cell} {side : Side}

/-! ### Restoring the colors -/

/-- Turning the grandparent of an outer grandchild. -/
theorem Laid.raiseParent {parent grand : Step} (laid : Laid base (parent :: grand :: rest) t a)
    (same : parent.side = grand.side) (root : t.slot? = some i) (ht : t.Summed)
    (hp : parent.sibling.Summed) (hg : grand.sibling.Summed)
    (small : Addressable (LineTree.turnUp grand parent.cell t parent.sibling).toList) :
    Yields (a.raiseParent i) base rest (LineTree.turnUp grand parent.cell t parent.sibling) := by
  obtain ⟨side, p, inner⟩ := parent
  obtain ⟨_, g, uncle⟩ := grand
  obtain rfl : side = _ := same
  obtain ⟨s, there, up, -⟩ := laid.root root
  rw [LineArena.raiseParent]
  refine .read there ?_
  rw [up]
  refine .read laid.parent ?_
  refine (laid.paint_parent .black).bind fun a₁ laid₁ => ?_
  refine ((laid_cons_iff.mp laid₁).paint_parent .red).bind fun a₂ laid₂ => ?_
  have below := laid_cons_iff.mpr laid₂
  have parent : a₂.slot p.id.slot =
      some ((p.paint .black).slot side (some g.id.slot) (some i) inner.slot?) :=
    below.parent_of_root root
  have grand : a₂.slot g.id.slot =
      some ((g.paint .red).slot side (Path.parent? rest) (some p.id.slot) uncle.slot?) :=
    laid₂.parent_of_root (Step.slot?_fill _ _)
  have innerNe : inner.slot? ≠ some i := below.sibling_ne root
  have uncleNe : uncle.slot? ≠ some p.id.slot := laid₂.sibling_ne (Step.slot?_fill _ _)
  refine .read parent (.read grand ?_)
  simp only [left_eq_iff innerNe, left_eq_iff uncleNe]
  have turn : (if side = .left ∧ side = .left then Side.right else .left) = side.other := by
    cases side <;> rfl
  rw [turn]
  have across : Laid base (⟨side.other, g.paint .red,
      Step.fill ⟨side.other, p.paint .black, t⟩ inner⟩ :: rest) uncle a₂ := by
    refine laid₂.refocus (congrArg (Path.fill rest) ?_)
    cases side <;> rfl
  have turned := across.rotate hg hp ht
  simp only [LineTree.joinAt_other] at turned
  exact turned small

/-- Whether a node is an inner grandchild is a matter of two sides. -/
theorem Laid.straighten {parent grand : Step} (laid : Laid base (parent :: grand :: rest) t a)
    (root : t.slot? = some i) :
    a.straighten i parent.cell.id.slot grand.cell.id.slot =
      if parent.side = grand.side then some (i, a)
      else (a.rotate grand.side parent.cell.id.slot).map (parent.cell.id.slot, ·) := by
  have above := laid_cons_iff.mp laid
  have siblingNe := laid.sibling_ne root
  have uncleNe := above.sibling_ne (Step.slot?_fill _ _)
  rw [LineArena.straighten, laid.parent_of_root root, above.parent_of_root (Step.slot?_fill _ _)]
  dsimp only [bind, Option.bind]
  simp only [left_eq_iff siblingNe, left_eq_iff uncleNe, right_eq_iff siblingNe,
    right_eq_iff uncleNe]
  cases parent.side <;> cases grand.side <;> simp
  all_goals
    rw [Option.map_eq_bind]
    rfl

/-- What is read before the colors above a node are restored. -/
theorem Laid.fixAfterInsertIn_cons {parent : Step} (laid : Laid base (parent :: rest) t a)
    (root : t.slot? = some i) (steps : Nat) :
    fixAfterInsertIn (steps + 1) a i =
      (if parent.cell.color = .black then some a
      else match rest with
        | [] => a.paint (some parent.cell.id.slot) .black
        | grand :: _ =>
            if grand.sibling.color = .red then do
              let a ← a.paint (some parent.cell.id.slot) .black
              let a ← a.paint grand.sibling.slot? .black
              let a ← a.paint (some grand.cell.id.slot) .red
              fixAfterInsertIn steps a grand.cell.id.slot
            else do
              let (node, a) ← a.straighten i parent.cell.id.slot grand.cell.id.slot
              a.raiseParent node) := by
  obtain ⟨s, there, up, -⟩ := laid.root root
  rw [fixAfterInsertIn, there, Option.bind_eq_bind, Option.bind_some, up, Path.parent?_cons]
  dsimp only
  rw [laid.parent_of_root root, Option.bind_eq_bind, Option.bind_some, Cell.color_slot,
    Cell.parent_slot]
  cases rest with
  | nil => rfl
  | cons grand rest =>
      have above := laid_cons_iff.mp laid
      have uncleNe := above.sibling_ne (Step.slot?_fill _ _)
      rw [Path.parent?_cons]
      dsimp only
      rw [above.parent_of_root (Step.slot?_fill _ _), Option.bind_eq_bind, Option.bind_some,
        far_eq uncleNe, above.around.2.1.color, Option.bind_eq_bind, Option.bind_some]
      rfl

/-- Restoring the colors above a red node in enough steps. -/
theorem Laid.fixAfterInsertIn {path : Path} {t : LineTree} {a : LineArena} {i steps : Nat}
    (laid : Laid base path t a) (root : t.slot? = some i) (enough : path.length ≤ steps)
    (ht : t.Summed) (hp : Path.Summed path t.toList)
    (small : Addressable (Path.fill path t).toList) :
    Yields (fixAfterInsertIn (steps + 1) a i) base [] (LineTree.afterInsert t path) := by
  fun_induction LineTree.afterInsert t path generalizing a i steps with
  | case1 t =>
      obtain ⟨s, there, up, -⟩ := laid.root root
      rw [LineArena.fixAfterInsertIn]
      refine .read there ?_
      rw [up, ← root]
      exact laid.paint .black
  | case2 t parent black =>
      rw [laid.fixAfterInsertIn_cons root, if_pos black]
      exact laid.yields.refocus rfl
  | case3 t parent red =>
      rw [laid.fixAfterInsertIn_cons root, if_neg red]
      exact (laid.paint_parent .black).refocus rfl
  | case4 t parent grand rest black =>
      rw [laid.fixAfterInsertIn_cons root, if_pos black]
      exact laid.yields.refocus rfl
  | case5 t parent grand rest red uncle grand' =>
      rename_i ih
      rw [laid.fixAfterInsertIn_cons root, if_neg red]
      dsimp only
      rw [if_pos uncle]
      refine (laid.paint_parent .black).bind fun a₁ laid₁ => ?_
      refine ((laid_cons_iff.mp laid₁).paint_sibling .black).bind fun a₂ laid₂ => ?_
      refine (laid₂.paint_parent .red).bind fun a₃ laid₃ => ?_
      -- Painting moves no line.
      have lines := Step.toList_fill (parent.paint .black) t
      have before : grand'.before = grand.before := Step.before_sibling (LineTree.toList_paint _ _)
      have after : grand'.after = grand.after := Step.after_sibling (LineTree.toList_paint _ _)
      have step : grand'.Summed ((parent.paint .black).fill t).toList := by
        rw [lines]
        exact (hp.2.1.paint .red).paint_sibling .black
      have whole : (grand'.fill ((parent.paint .black).fill t)).toList =
          (grand.fill (parent.fill t)).toList := by
        simp only [Step.toList_fill, before, after]
        rfl
      have fewer : rest.length + 1 ≤ steps := Nat.le_of_succ_le enough
      obtain ⟨steps, rfl⟩ := Nat.exists_eq_add_one_of_ne_zero (Nat.ne_zero_of_lt fewer)
      refine ih (laid_cons_iff.mp laid₃) (Step.slot?_fill _ _) (Nat.le_of_succ_le_succ fewer)
        (step.fill ((hp.1.paint .black).fill ht)) ?_ ?_
      · rw [whole, Step.toList_fill, Step.toList_fill]
        exact hp.2.2
      · rw [Path.toList_fill, whole, ← Path.toList_fill]
        exact small
  | case6 t parent grand rest red uncle same =>
      rw [laid.fixAfterInsertIn_cons root, if_neg red]
      dsimp only
      rw [if_neg uncle, laid.straighten root, if_pos same]
      refine (laid.raiseParent same root ht hp.1.sibling hp.2.1.sibling ?_).refocus rfl
      have part : Addressable (grand.fill (parent.fill t)).toList :=
        @Addressable.below rest _ small
      rw [LineTree.toList_turnUp grand parent t same]
      simpa using part
  | case7 parent grand rest red uncle other => cases root
  | case8 parent grand rest red uncle other cell l r near far eq =>
      rw [laid.fixAfterInsertIn_cons root, if_neg red]
      dsimp only
      rw [if_neg uncle, laid.straighten root, if_neg other]
      cases root
      obtain ⟨hn, hf⟩ := LineTree.sidewise_summed ht.2.1 ht.2.2 eq
      have part : Addressable (grand.fill (parent.fill (.node cell l r))).toList :=
        @Addressable.below rest _ small
      rw [Step.toList_fill] at part
      have lines := LineTree.toList_turnUp_inner grand parent cell l r other
      rw [eq] at lines
      -- The node takes its parent's place, which makes the parent an outer grandchild.
      have across : Laid base
          (⟨grand.side, parent.cell, Step.fill ⟨grand.side, cell, far⟩ near⟩ :: grand :: rest)
          parent.sibling a :=
        laid.refocus (congrArg (Path.fill (grand :: rest)) (LineTree.fill_inner other eq))
      have refreshed := fill_refresh ⟨grand.side, cell, far⟩
        (LineTree.joinAt grand.side parent.cell parent.sibling near)
      have kept : (LineTree.joinAt grand.side cell
          (LineTree.joinAt grand.side parent.cell parent.sibling near) far).toList =
          (parent.fill (.node cell l r)).toList := by
        rw [LineTree.toList_turned, LineTree.fill_inner other eq]
      obtain ⟨a₁, run, laid₁⟩ := across.rotate hp.1.sibling hn hf (kept ▸ part.part)
      rw [← refreshed] at laid₁
      rw [run]
      have raised := (laid_cons_iff.mpr laid₁).raiseParent rfl (LineTree.slot?_joinAt _ _ _ _)
        (hp.1.sibling.joinAt hn) hf hp.2.1.sibling
      rw [LineTree.turnUp_refresh, lines] at raised
      refine (raised ?_).refocus rfl
      rw [Step.toList_fill] at part
      simpa using part

theorem Laid.fixAfterInsert (laid : Laid base path t a) (root : t.slot? = some i) (ht : t.Summed)
    (hp : Path.Summed path t.toList) (small : Addressable (Path.fill path t).toList) :
    Yields (a.fixAfterInsert i) base [] (LineTree.afterInsert t path) := by
  have inside := List.length_pos_of_mem (LineTree.mem_slots_of_slot? root)
  have few := laid.length_le
  obtain ⟨steps, size⟩ := Nat.exists_eq_add_one_of_ne_zero (show a.slots.size ≠ 0 by omega)
  rw [LineArena.fixAfterInsert, size]
  exact laid.fixAfterInsertIn root (by omega) ht hp small

/-! ### Putting in a node -/

/-- Linking a free node below a node that has no child on the side. -/
theorem Laid.graft {s : Step} {id : LineId} {m : LineMetrics}
    (laid : Laid base (s :: rest) .empty a)
    (leaf : a.slots[id.slot]? = some (.leaf id.generation m))
    (out : id.slot ∉ Path.slots (s :: rest)) :
    Laid base (s :: rest) (.node ⟨.red, Summary.ofLine m, id, m⟩ .empty .empty)
      ((a.written s.cell.id.slot (·.setChild s.side (some id.slot))).written id.slot
        fun slot => { slot with parent := some s.cell.id.slot, color := .red }) := by
  obtain ⟨⟨here, sibling, above⟩, -, nodup, free, size, others⟩ := laid
  have distinct := List.nodup_cons.mpr ⟨out, nodup⟩
  rw [Path.slots_cons, List.mem_cons, List.mem_append, not_or, not_or] at out
  obtain ⟨outStep, outSibling, outRest⟩ := out
  have apart : s.cell.id.slot ∉ s.sibling.slots ∧ s.cell.id.slot ∉ Path.slots rest := by
    simpa using (List.nodup_cons.mp nodup).1
  have still {is : List Nat} (step : s.cell.id.slot ∉ is) (new : id.slot ∉ is) :
      ∀ j ∈ is, ((a.written s.cell.id.slot (·.setChild s.side (some id.slot))).written id.slot
        fun slot => { slot with parent := some s.cell.id.slot, color := .red }).slots[j]? =
          a.slots[j]? := fun j mem =>
    (getElem?_written_of_notMem new j mem).trans (getElem?_written_of_notMem step j mem)
  refine ⟨⟨?_, ?_, ?_⟩, ⟨?_, trivial, trivial⟩, ?_, ?_, ?_, ?_⟩
  · rw [getElem?_written, if_neg outStep, getElem?_written, if_pos rfl, here, Option.map_some,
      Cell.setChild_slot]
    rfl
  · exact sibling.frame (still apart.1 outSibling)
  · exact above.frame (still apart.2 outRest) rfl
  · rw [getElem?_written, if_pos rfl, getElem?_written, if_neg (Ne.symm outStep), leaf]
    rfl
  · simpa using distinct
  · exact free
  · rwa [size_written, size_written]
  · intro j outside
    simp only [LineTree.slots_node, LineTree.slots_empty, List.nil_append, List.cons_append,
      List.mem_cons, Path.slots_cons, not_or] at outside
    rw [getElem?_written, if_neg (Ne.symm outside.1), getElem?_written,
      if_neg (Ne.symm outside.2.1)]
    exact others j (by simp [outside.2])

theorem Laid.leftmostIn {steps : Nat} (laid : Laid base path t a) (root : t.slot? = some i)
    (enough : t.slots.length ≤ steps) :
    ∃ s rest, t.pathToFirst path = s :: rest ∧ s.side = .left ∧
      leftmostIn steps a i = some s.cell.id.slot := by
  induction t generalizing path i steps with
  | empty => cases root
  | node cell l r ihl ihr =>
      cases root
      rw [LineTree.slots_node, List.length_append, List.length_cons] at enough
      obtain ⟨steps, rfl⟩ := Nat.exists_eq_add_one_of_ne_zero (show steps ≠ 0 by omega)
      rw [LineArena.leftmostIn, laid.slot]
      dsimp only [bind, Option.bind]
      cases l with
      | empty => exact ⟨_, _, rfl, rfl, rfl⟩
      | node below l' r' =>
          exact ihl (show Laid base (⟨.left, cell, r⟩ :: path) (.node below l' r') a from
            laid_cons_iff.mpr laid) rfl (by omega)

theorem Laid.leftmost (laid : Laid base path t a) (root : t.slot? = some i) :
    ∃ s rest, t.pathToFirst path = s :: rest ∧ s.side = .left ∧
      a.leftmost i = some s.cell.id.slot :=
  laid.leftmostIn root (Nat.le_trans (Nat.le_add_right _ _) laid.length_le)

/-- The path to a free place below a node fills up to the same tree. -/
theorem fill_pathToFirst (t : LineTree) (path : Path) :
    Path.fill (t.pathToFirst path) .empty = Path.fill path t := by
  induction t generalizing path with
  | empty => rfl
  | node cell l r ihl ihr => exact ihl _

/-- A node is put in below a parent when all the lines can be addressed, and only then. -/
theorem Laid.attach_cases {s : Step} {id : LineId} {m : LineMetrics}
    (laid : Laid base (s :: rest) .empty a)
    (leaf : a.slots[id.slot]? = some (.leaf id.generation m))
    (out : id.slot ∉ Path.slots (s :: rest)) (siblings : Path.SiblingsSummed (s :: rest)) :
    Addressable (Path.before (s :: rest) ++ [(id, m)] ++ Path.after (s :: rest)) ∧
        Yields (a.attach s.side s.cell.id.slot id.slot) base []
          (LineTree.afterInsert (.node ⟨.red, Summary.ofLine m, id, m⟩ .empty .empty)
            (Path.refresh (s :: rest) (Summary.ofLine m))) ∨
      ¬Addressable (Path.before (s :: rest) ++ [(id, m)] ++ Path.after (s :: rest)) ∧
        a.attach s.side s.cell.id.slot id.slot = none := by
  have sums : (Summary.ofLine m).Sums [(id, m)] := Summary.sums_ofLine id m
  have grafted := laid.graft leaf out
  have run : a.attach s.side s.cell.id.slot id.slot =
      (((a.written s.cell.id.slot (·.setChild s.side (some id.slot))).written id.slot
        fun slot => { slot with parent := some s.cell.id.slot, color := .red }).updateToRoot
          (Path.parent? (s :: rest)) >>= (·.fixAfterInsert id.slot)) := by
    have parent := lt_size laid.parent
    have new := lt_size leaf
    rw [LineArena.attach, write_eq parent, Option.bind_eq_bind, Option.bind_some,
      write_eq (by rwa [size_written]), Option.bind_some]
    rfl
  rw [run]
  rcases grafted.updateToRoot_cases sums siblings nofun with ⟨small, updated⟩ | ⟨big, stops⟩
  · refine .inl ⟨small, updated.bind fun a₁ laid₁ => ?_⟩
    have summed : (LineTree.node ⟨.red, Summary.ofLine m, id, m⟩ .empty .empty).Summed :=
      ⟨sums, trivial, trivial⟩
    refine laid₁.fixAfterInsert rfl summed (siblings.refresh sums) ?_
    rw [Path.toList_fill, Path.before_refresh, Path.after_refresh]
    exact small
  · refine .inr ⟨big, ?_⟩
    rw [stops]
    rfl

/-- A node is put in behind another when all the lines can be addressed, and only then. -/
theorem Laid.attachBehind_cases {place : Place} {id : LineId} {m : LineMetrics}
    (laid : Laid base place.path (.node place.cell place.left place.right) a)
    (leaf : a.slots[id.slot]? = some (.leaf id.generation m)) (out : id.slot ∉ place.toTree.slots)
    (summed : (LineTree.node place.cell place.left place.right).Summed)
    (siblings : Path.SiblingsSummed place.path) :
    Addressable (LineTree.insertAfter place id m).toList ∧
        Yields (a.attachBehind place.cell.id.slot id.slot) base []
          (LineTree.insertAfter place id m) ∨
      ¬Addressable (LineTree.insertAfter place id m).toList ∧
        a.attachBehind place.cell.id.slot id.slot = none := by
  -- The place below which the node is put in.
  have found : ∃ s rest, place.right.pathToFirst (⟨.right, place.cell, place.left⟩ :: place.path) =
      s :: rest ∧ a.attachBehind place.cell.id.slot id.slot =
        a.attach s.side s.cell.id.slot id.slot := by
    rw [LineArena.attachBehind, laid.slot, Option.bind_eq_bind, Option.bind_some]
    cases right : place.right with
    | empty => exact ⟨_, _, rfl, rfl⟩
    | node cell l r =>
        have below : Laid base (⟨.right, place.cell, place.left⟩ :: place.path)
            (.node cell l r) a :=
          laid_cons_iff.mpr (right ▸ laid)
        obtain ⟨s, rest, path, side, run⟩ := below.leftmost rfl
        refine ⟨s, rest, path, ?_⟩
        show (a.leftmost cell.id.slot >>= fun p => a.attach .left p id.slot) = _
        rw [run, side]
        rfl
  obtain ⟨s, rest, path, run⟩ := found
  have around := fill_pathToFirst place.right (⟨.right, place.cell, place.left⟩ :: place.path)
  have beside : Path.SiblingsSummed (⟨.right, place.cell, place.left⟩ :: place.path) :=
    Path.siblingsSummed_cons_iff.mpr ⟨summed.2.1, siblings⟩
  have below := summed.2.2.pathToFirst beside
  rw [path] at around below
  have whole : Path.fill (s :: rest) .empty = place.toTree := around
  have built : LineTree.insertAfter place id m =
      LineTree.afterInsert (.node ⟨.red, Summary.ofLine m, id, m⟩ .empty .empty)
        (Path.refresh (s :: rest) (Summary.ofLine m)) := by
    rw [← path]
    rfl
  have lines : (LineTree.insertAfter place id m).toList =
      Path.before (s :: rest) ++ [(id, m)] ++ Path.after (s :: rest) := by
    rw [built, LineTree.toList_afterInsert, Path.before_refresh, Path.after_refresh]
    rfl
  have free : id.slot ∉ Path.slots (s :: rest) := by
    rw [← whole] at out
    simpa using (slots_fill (s :: rest) .empty).mem_iff.not.mp out
  rw [lines, built, run]
  exact (laid.refocus whole).attach_cases leaf free below

end LineArena

end CodeEditor

import CodeEditor.Proofs.Arena.Turning
import CodeEditor.Proofs.Line.Balance

/-!
Taking a node out of the tree in memory.

What `fixAfterRemove` writes is what `LineTree.afterErase` builds (`Laid.fixAfterRemove`). The lack
of a black node moves up as long as there is nothing red around. Then a red sibling is lowered
(`Laid.lowerRed`) and the colors are settled by painting or by one or two turns (`Laid.settle`).
That there is a sibling at all follows from the black heights.
-/

namespace CodeEditor

namespace LineTree

/-- The children of a sibling, seen from beside it. -/
theorem fill_sidewise {side : Side} {cell : Cell} {l r near far : LineTree}
    (eq : sidewise side l r = (near, far)) : Step.fill ⟨side, cell, far⟩ near = .node cell l r := by
  cases side <;> cases eq <;> rfl

/-- Lowering a red sibling keeps the lines below it. -/
theorem small_lowered {side : Side} {p q : Cell} {t near far : LineTree} {sub : Summary}
    (small : Addressable (Step.fill ⟨side, p, Step.fill ⟨side, q, far⟩ near⟩ t).toList) :
    Addressable (Step.fill (Step.refresh ⟨side, p.paint .red, near⟩ sub) t).toList := by
  refine @Addressable.below [⟨side, q, far⟩] _ ?_
  cases side <;>
    simpa [Path.fill, Step.fill, Step.refresh, Cell.entry, Cell.paint] using small

/-- The near child of a red sibling beside a missing black node. -/
theorem near_balanced {parent : Step} {rest : Path} {n : Nat} {cell : Cell}
    {l r near far : LineTree}
    (hp : Path.Balanced (parent :: rest) .black (n + 1)) (sib : parent.sibling = .node cell l r)
    (eq : sidewise parent.side l r = (near, far)) (red : cell.color = .red) :
    near.Balanced .black (n + 1) := by
  obtain ⟨a, m, hs, -⟩ := rest_balanced hp
  rw [sib] at hs
  cases hs with
  | black black _ _ => simp [red] at black
  | red _ hl hr => exact (sidewise_balanced hl hr eq).1

/-! ### Settling -/

section

variable {side : Side} {p q : Cell} {t near far : LineTree} {rest : Path}

theorem settle_far (red : far.color = .red) :
    settle t ⟨side, p, Step.fill ⟨side, q, far⟩ near⟩ rest =
      Path.fill rest (joinAt side (q.paint p.color) (joinAt side (p.paint .black) t near)
        (far.paint .black)) := by
  cases side <;> cases near <;> simp [settle, Step.fill, sidewise, red]

theorem settle_near {cell : Cell} {l r inner outer : LineTree} (red : cell.color = .red)
    (black : far.color = .black) (eq : sidewise side l r = (inner, outer)) :
    settle t ⟨side, p, Step.fill ⟨side, q, far⟩ (.node cell l r)⟩ rest =
      Path.fill rest (joinAt side ((cell.paint .black).paint p.color)
        (joinAt side (p.paint .black) t inner)
        ((joinAt side (q.paint .red) outer far).paint .black)) := by
  cases side <;> cases eq <;> simp [settle, Step.fill, sidewise, red, black]

theorem settle_recolor (nearBlack : near.color = .black) (farBlack : far.color = .black)
    (red : p.color = .red) :
    settle t ⟨side, p, Step.fill ⟨side, q, far⟩ near⟩ rest =
      Path.fill (⟨side, p.paint .black, (Step.fill ⟨side, q, far⟩ near).paint .red⟩ :: rest) t := by
  have notRed : near.color ≠ .red := by simp [nearBlack]
  cases side <;> cases near <;>
    simp_all [settle, Step.fill, sidewise, Step.paint, color]

end

end LineTree

namespace LineArena

variable {a base : LineArena} {path rest : Path} {t near far : LineTree} {side : Side} {p q : Cell}
  {i : Nat}

/-- The nephew on the far side. -/
theorem far_nephew {up up' t s n f : Option Nat} (other : s ≠ t) :
    (if (p.slot side up t s).left = t then (q.slot side up' n f).right
      else (q.slot side up' n f).left) = f := by
  cases side with
  | left => exact if_pos rfl
  | right => exact if_neg other

section

variable (laid : Laid base (⟨side, p, Step.fill ⟨side, q, far⟩ near⟩ :: rest) t a)

include laid

/-! ### A node, its sibling and its nephews -/

theorem Laid.sibling_ne_root : some q.id.slot ≠ t.slot? := fun same =>
  laid.sibling_ne same.symm (Step.slot?_fill _ _)

theorem Laid.slot_parent :
    a.slot p.id.slot = some (p.slot side (Path.parent? rest) t.slot? (some q.id.slot)) := by
  have there := laid.parent
  rwa [Step.slot?_fill] at there

theorem Laid.slot_sibling :
    a.slot q.id.slot = some (q.slot side (some p.id.slot) near.slot? far.slot?) :=
  (spells_fill_iff.mp laid.around.2.1).1

theorem Laid.color_near : a.color near.slot? = some near.color :=
  (spells_fill_iff.mp laid.around.2.1).2.2.color

theorem Laid.color_far : a.color far.slot? = some far.color :=
  (spells_fill_iff.mp laid.around.2.1).2.1.color

theorem Laid.sibling : a.sibling t.slot? p.id.slot = some (some q.id.slot) := by
  rw [LineArena.sibling, laid.slot_parent, Option.bind_eq_bind, Option.bind_some,
    far_eq laid.sibling_ne_root]
  rfl

theorem Laid.rotateTo : a.rotateTo t.slot? p.id.slot = a.rotate side p.id.slot := by
  rw [LineArena.rotateTo, laid.slot_parent, Option.bind_eq_bind, Option.bind_some,
    side_eq laid.sibling_ne_root]

/-- The tree of the sibling seen from beside it. -/
theorem Laid.beside :
    Laid base (⟨side, q, far⟩ :: ⟨side.other, p, t⟩ :: rest) near a := by
  refine laid.refocus (congrArg (Path.fill rest) ?_)
  exact fill_swap ⟨side, p, Step.fill ⟨side, q, far⟩ near⟩ t

omit laid in
theorem Laid.of_beside (laid : Laid base (⟨side, q, far⟩ :: ⟨side.other, p, t⟩ :: rest) near a) :
    Laid base (⟨side, p, Step.fill ⟨side, q, far⟩ near⟩ :: rest) t a := by
  refine laid.refocus (congrArg (Path.fill rest) ?_)
  exact (fill_swap ⟨side, p, Step.fill ⟨side, q, far⟩ near⟩ t).symm

theorem Laid.paint_upper (color : Color) :
    Yields (a.paint (some p.id.slot) color) base
      (⟨side, p.paint color, Step.fill ⟨side, q, far⟩ near⟩ :: rest) t :=
  laid.paint_parent color

theorem Laid.paint_beside (color : Color) :
    Yields (a.paint (some q.id.slot) color) base
      (⟨side, p, Step.fill ⟨side, q.paint color, far⟩ near⟩ :: rest) t := by
  obtain ⟨a₁, run, laid₁⟩ := laid.beside.paint_parent color
  exact ⟨a₁, run, Laid.of_beside laid₁⟩

theorem Laid.paint_far (color : Color) :
    Yields (a.paint far.slot? color) base
      (⟨side, p, Step.fill ⟨side, q, far.paint color⟩ near⟩ :: rest) t := by
  obtain ⟨a₁, run, laid₁⟩ := laid.beside.paint_sibling color
  exact ⟨a₁, run, Laid.of_beside laid₁⟩

theorem Laid.paint_near (color : Color) :
    Yields (a.paint near.slot? color) base
      (⟨side, p, Step.fill ⟨side, q, far⟩ (near.paint color)⟩ :: rest) t := by
  obtain ⟨a₁, run, laid₁⟩ := laid.beside.paint color
  exact ⟨a₁, run, Laid.of_beside laid₁⟩

/-- The sibling takes the parent's place. -/
theorem Laid.raiseSibling (ht : t.Summed) (hn : near.Summed) (hf : far.Summed)
    (small : Addressable (Step.fill ⟨side, p, Step.fill ⟨side, q, far⟩ near⟩ t).toList) :
    Yields (a.raiseSibling t.slot? p.id.slot) base rest
      (LineTree.joinAt side (q.paint p.color) (LineTree.joinAt side (p.paint .black) t near)
        (far.paint .black)) := by
  rw [LineArena.raiseSibling, laid.sibling, Option.bind_eq_bind, Option.bind_some]
  dsimp only
  refine .read laid.slot_parent ?_
  rw [Cell.color_slot]
  refine (laid.paint_beside p.color).bind fun a₁ laid₁ => ?_
  refine (laid₁.paint_upper .black).bind fun a₂ laid₂ => ?_
  refine .read laid₂.slot_sibling ?_
  refine .read laid₂.slot_parent ?_
  rw [far_nephew laid₂.sibling_ne_root]
  refine (laid₂.paint_far .black).bind fun a₃ laid₃ => ?_
  rw [show p.id.slot = (p.paint .black).id.slot from rfl, laid₃.rotateTo]
  refine laid₃.rotate ht hn (hf.paint _) ?_
  rw [LineTree.toList_turned]
  cases side <;> simpa [Step.fill] using small

/-- What is read before a near nephew is lowered. -/
theorem Laid.lowerNephew_eq (black : q.color = .black) :
    a.lowerNephew t.slot? p.id.slot q.id.slot =
      (if near.color = .red ∧ far.color = .black then do
        let a ← a.paint (some q.id.slot) .red
        let a ← a.paint near.slot? .black
        a.rotate side.other q.id.slot
      else some a) := by
  have other := laid.sibling_ne_root
  rw [LineArena.lowerNephew, laid.slot_parent, Option.bind_eq_bind, Option.bind_some,
    laid.slot_sibling, Option.bind_some]
  simp only [left_eq_iff other, right_eq_iff other]
  cases side with
  | left =>
      show Option.bind (a.color near.slot?) (fun left => Option.bind (a.color far.slot?) _) = _
      rw [laid.color_near, laid.color_far]
      simp only [Option.bind_some, Cell.color_slot, black, true_and, false_and, reduceCtorEq,
        if_false]
      rfl
  | right =>
      show Option.bind (a.color far.slot?) (fun left => Option.bind (a.color near.slot?) _) = _
      rw [laid.color_far, laid.color_near]
      simp only [Option.bind_some, Cell.color_slot, black, true_and, false_and, reduceCtorEq,
        if_false]
      rfl

omit laid in
/-- A red near nephew takes the sibling's place. -/
theorem Laid.lowerNephew {cell : Cell} {l r inner outer : LineTree}
    (laid : Laid base (⟨side, p, Step.fill ⟨side, q, far⟩ (.node cell l r)⟩ :: rest) t a)
    (black : q.color = .black) (nearRed : cell.color = .red) (farBlack : far.color = .black)
    (eq : LineTree.sidewise side l r = (inner, outer)) (hi : inner.Summed) (ho : outer.Summed)
    (hf : far.Summed)
    (small : Addressable (Step.fill ⟨side, q, far⟩ (.node cell l r)).toList) :
    Yields (a.lowerNephew t.slot? p.id.slot q.id.slot) base
      (⟨side, p, LineTree.joinAt side (cell.paint .black) inner
        (LineTree.joinAt side (q.paint .red) outer far)⟩ :: rest) t := by
  rw [laid.lowerNephew_eq black, if_pos ⟨nearRed, farBlack⟩]
  refine (laid.paint_beside .red).bind fun a₁ laid₁ => ?_
  refine (laid₁.paint_near .black).bind fun a₂ laid₂ => ?_
  have across : Laid base (⟨side.other, q.paint .red,
      Step.fill ⟨side.other, cell.paint .black, inner⟩ outer⟩ :: ⟨side.other, p, t⟩ :: rest) far
        a₂ := by
    refine laid₂.refocus (congrArg (Path.fill rest) ?_)
    cases side <;> cases eq <;> rfl
  have turned := across.rotate hf ho hi
  simp only [LineTree.joinAt_other] at turned
  refine (turned ?_).refocus (congrArg (Path.fill rest) ?_)
  · cases side <;> cases eq <;> simpa [LineTree.joinAt, Step.fill] using small
  · cases side <;> rfl

/-- What is read before the colors are settled. -/
theorem Laid.settle_eq :
    a.settle t.slot? p.id.slot q.id.slot =
      (if p.color = .red ∧ q.color = .black ∧ near.color = .black ∧ far.color = .black then do
        let a ← a.paint (some q.id.slot) .red
        a.paint (some p.id.slot) .black
      else do
        let a ← a.lowerNephew t.slot? p.id.slot q.id.slot
        a.raiseSibling t.slot? p.id.slot) := by
  rw [LineArena.settle, laid.slot_parent, Option.bind_eq_bind, Option.bind_some,
    laid.slot_sibling, Option.bind_some]
  cases side with
  | left =>
      show Option.bind (a.color near.slot?) (fun left => Option.bind (a.color far.slot?) _) = _
      rw [laid.color_near, laid.color_far]
      rfl
  | right =>
      show Option.bind (a.color far.slot?) (fun left => Option.bind (a.color near.slot?) _) = _
      rw [laid.color_far, laid.color_near]
      simp only [Option.bind_some, Cell.color_slot, and_comm]

/-- Beside a black sibling, with something red around, the colors are settled. -/
theorem Laid.settle (black : q.color = .black) (ht : t.Summed) (hn : near.Summed) (hf : far.Summed)
    (small : Addressable (Step.fill ⟨side, p, Step.fill ⟨side, q, far⟩ near⟩ t).toList)
    (someRed : ¬(p.color = .black ∧ near.color = .black ∧ far.color = .black)) :
    Yields (a.settle t.slot? p.id.slot q.id.slot) base []
      (LineTree.settle t ⟨side, p, Step.fill ⟨side, q, far⟩ near⟩ rest) := by
  rw [laid.settle_eq]
  cases farColor : far.color with
  | red =>
      rw [if_neg (by simp), LineTree.settle_far farColor, laid.lowerNephew_eq black,
        if_neg (by simp [farColor])]
      exact (laid.raiseSibling ht hn hf small).refocus rfl
  | black =>
      by_cases nearColor : near.color = .red
      · cases near with
        | empty => cases nearColor
        | node cell l r =>
            obtain ⟨⟨inner, outer⟩, eq⟩ : ∃ children, LineTree.sidewise side l r = children :=
              ⟨_, rfl⟩
            obtain ⟨hi, ho⟩ := LineTree.sidewise_summed hn.2.1 hn.2.2 eq
            have sibling : Addressable (Step.fill ⟨side, q, far⟩ (.node cell l r)).toList := by
              rw [← fill_swap] at small
              exact @Addressable.below [⟨side.other, p, t⟩] _ small
            rw [if_neg (by simp [nearColor]), LineTree.settle_near nearColor farColor eq]
            refine (laid.lowerNephew black nearColor farColor eq hi ho hf sibling).bind
              fun a₁ laid₁ => ?_
            -- The nephew has fresh sums now, and it is the sibling.
            rw [← fill_refresh ⟨side, cell.paint .black, _⟩ inner] at laid₁
            have raised :=
              Laid.raiseSibling (q := (Step.refresh ⟨side, cell.paint .black, _⟩ _).cell)
              laid₁ ht hi (ho.joinAt hf)
            refine (raised ?_).refocus (congrArg (Path.fill rest) ?_)
            · cases side <;> cases eq <;>
                simpa [LineTree.joinAt, Step.fill, Step.refresh, Cell.entry, Cell.paint] using small
            · cases side <;> rfl
      · have nearBlack := Color.eq_black nearColor
        have red : p.color = .red := by
          by_contra notRed
          exact someRed ⟨Color.eq_black notRed, nearBlack, farColor⟩
        rw [if_pos ⟨red, black, nearBlack, rfl⟩, LineTree.settle_recolor nearBlack farColor red]
        refine (laid.paint_beside .red).bind fun a₁ laid₁ => ?_
        refine (laid₁.paint_upper .black).refocus ?_
        rw [← fill_paint]
        rfl

/-! ### Moving the lack up -/

/-- What is read once a red sibling is lowered. -/
theorem Laid.fixAfterRemoveIn_lowered {a₁ : LineArena} {rest₁ : Path} {p₁ q₁ : Cell}
    {near₁ far₁ : LineTree}
    (lowered : a.lowerRed t.slot? p.id.slot q.id.slot = some (some q₁.id.slot, a₁))
    (laid₁ : Laid base (⟨side, p₁, Step.fill ⟨side, q₁, far₁⟩ near₁⟩ :: rest₁) t a₁)
    (same : p₁.id = p.id) (steps : Nat) :
    fixAfterRemoveIn (steps + 1) a t.slot? (some p.id.slot) =
      (if p₁.color = .black ∧ q₁.color = .black ∧ near₁.color = .black ∧ far₁.color = .black then do
        let a ← a₁.paint (some q₁.id.slot) .red
        fixAfterRemoveIn steps a (some p.id.slot) (Path.parent? rest₁)
      else a₁.settle t.slot? p.id.slot q₁.id.slot) := by
  rw [fixAfterRemoveIn, laid.sibling, Option.bind_eq_bind, Option.bind_some]
  dsimp only
  rw [lowered, Option.bind_eq_bind, Option.bind_some, ← same]
  dsimp only
  rw [laid₁.slot_parent, Option.bind_eq_bind, Option.bind_some, laid₁.slot_sibling,
    Option.bind_some]
  cases side with
  | left =>
      show Option.bind (a₁.color near₁.slot?) (fun left => Option.bind (a₁.color far₁.slot?) _) = _
      rw [laid₁.color_near, laid₁.color_far]
      rfl
  | right =>
      show Option.bind (a₁.color far₁.slot?) (fun left => Option.bind (a₁.color near₁.slot?) _) = _
      rw [laid₁.color_far, laid₁.color_near]
      simp only [Option.bind_some, Cell.color_slot, Cell.parent_slot,
        @and_comm (far₁.color = .black)]

theorem Laid.fixAfterRemoveIn_black (black : q.color = .black) (steps : Nat) :
    fixAfterRemoveIn (steps + 1) a t.slot? (some p.id.slot) =
      (if p.color = .black ∧ near.color = .black ∧ far.color = .black then do
        let a ← a.paint (some q.id.slot) .red
        fixAfterRemoveIn steps a (some p.id.slot) (Path.parent? rest)
      else a.settle t.slot? p.id.slot q.id.slot) := by
  have stays : a.lowerRed t.slot? p.id.slot q.id.slot = some (some q.id.slot, a) := by
    rw [LineArena.lowerRed, laid.slot_sibling, Option.bind_eq_bind, Option.bind_some,
      Cell.color_slot, black, if_neg (by decide)]
    rfl
  rw [laid.fixAfterRemoveIn_lowered stays laid rfl]
  simp only [black, true_and]

omit laid in
/-- A red sibling takes the parent's place, and the colors are settled below it. -/
theorem Laid.fixAfterRemoveIn_red {nephew : Cell} {inner outer : LineTree}
    (laid : Laid base
      (⟨side, p, Step.fill ⟨side, q, far⟩ (Step.fill ⟨side, nephew, outer⟩ inner)⟩ :: rest) t a)
    (red : q.color = .red) (ht : t.Summed) (hn : (Step.fill ⟨side, nephew, outer⟩ inner).Summed)
    (hf : far.Summed)
    (small : Addressable (Step.fill
      ⟨side, p, Step.fill ⟨side, q, far⟩ (Step.fill ⟨side, nephew, outer⟩ inner)⟩ t).toList)
    (steps : Nat) :
    ∃ a₁, Laid base
        ((Step.refresh ⟨side, p.paint .red, Step.fill ⟨side, nephew, outer⟩ inner⟩ t.summary) ::
          (Step.refresh ⟨side, q.paint .black, far⟩ (Step.refresh
            ⟨side, p.paint .red, Step.fill ⟨side, nephew, outer⟩ inner⟩ t.summary).cell.summary) ::
          rest) t a₁ ∧
      fixAfterRemoveIn (steps + 1) a t.slot? (some p.id.slot) =
        a₁.settle t.slot? p.id.slot nephew.id.slot := by
  obtain ⟨a₁, run₁, laid₁⟩ := laid.paint_upper .red
  obtain ⟨a₂, run₂, laid₂⟩ := laid₁.paint_beside .black
  obtain ⟨a₃, run₃, laid₃⟩ := laid₂.rotate ht hn hf (by
    cases side <;> simpa [LineTree.joinAt, Step.fill] using small)
  have lowered : Laid base
      ((Step.refresh ⟨side, p.paint .red, Step.fill ⟨side, nephew, outer⟩ inner⟩ t.summary) ::
        (Step.refresh ⟨side, q.paint .black, far⟩ (Step.refresh
          ⟨side, p.paint .red, Step.fill ⟨side, nephew, outer⟩ inner⟩ t.summary).cell.summary) ::
        rest) t a₃ := by
    refine laid₃.refocus (congrArg (Path.fill rest) ?_)
    cases side <;> rfl
  refine ⟨a₃, lowered, ?_⟩
  have found : a₃.sibling t.slot? p.id.slot = some (some nephew.id.slot) := lowered.sibling
  have turn : a₂.rotateTo t.slot? p.id.slot = some a₃ := laid₂.rotateTo.trans run₃
  have run : a.lowerRed t.slot? p.id.slot q.id.slot = some (some nephew.id.slot, a₃) := by
    rw [LineArena.lowerRed, laid.slot_sibling, Option.bind_eq_bind, Option.bind_some,
      Cell.color_slot, red, if_pos rfl]
    simp only [run₁, run₂, turn, found, Option.bind_eq_bind, Option.bind_some]
    rfl
  rw [laid.fixAfterRemoveIn_lowered run lowered rfl, if_neg]
  rintro ⟨black, -⟩
  cases black

end

/-- A step written with the children of its sibling. -/
theorem step_eq {s : Step} {cell : Cell} {l r : LineTree} (sib : s.sibling = .node cell l r)
    (eq : LineTree.sidewise s.side l r = (near, far)) :
    s = ⟨s.side, s.cell, Step.fill ⟨s.side, cell, far⟩ near⟩ := by
  rw [LineTree.fill_sidewise eq, ← sib]

theorem Laid.nephews {s : Step} {cell : Cell} {l r : LineTree} (laid : Laid base (s :: rest) t a)
    (sib : s.sibling = .node cell l r) (eq : LineTree.sidewise s.side l r = (near, far)) :
    Laid base (⟨s.side, s.cell, Step.fill ⟨s.side, cell, far⟩ near⟩ :: rest) t a := by
  rwa [← step_eq sib eq]

/-- Restoring the black heights where a black node is missing, in enough steps. -/
theorem Laid.fixAfterRemoveIn {path : Path} {t : LineTree} {a : LineArena} {n steps : Nat}
    (laid : Laid base path t a) (enough : path.length ≤ steps) (ht : t.Balanced .black n)
    (hp : Path.Balanced path .black (n + 1)) (summed : t.Summed) (above : Path.Summed path t.toList)
    (small : Addressable (Path.fill path t).toList) :
    Yields (fixAfterRemoveIn steps a t.slot? (Path.parent? path)) base []
      (LineTree.afterErase t path) := by
  fun_induction LineTree.afterErase t path generalizing a n steps with
  | case1 t =>
      rw [Path.parent?_nil, LineArena.fixAfterRemoveIn]
      exact laid.yields
  | case2 t parent rest sib =>
      obtain ⟨a, m, hs, -⟩ := LineTree.rest_balanced hp
      rw [sib] at hs
      cases hs
  | case3 t parent rest sibling l r sib near far side red =>
      have hs := above.1.sibling
      rw [sib] at hs
      obtain ⟨hn, hf⟩ := LineTree.sidewise_summed hs.2.1 hs.2.2 side
      have part : Addressable (parent.fill t).toList := @Addressable.below rest _ small
      have nearBlack := LineTree.near_balanced hp sib side red
      -- The black sibling that is left has a node, since there is a black node on its ways.
      cases near with
      | empty => cases nearBlack
      | node nephew l' r' =>
          obtain ⟨⟨inner, outer⟩, eq⟩ : ∃ children,
            LineTree.sidewise parent.side l' r' = children := ⟨_, rfl⟩
          obtain ⟨hi, ho⟩ := LineTree.sidewise_summed hn.2.1 hn.2.2 eq
          have whole := laid.nephews sib side
          have small' : Addressable (Step.fill ⟨parent.side, parent.cell,
              Step.fill ⟨parent.side, sibling, far⟩ (.node nephew l' r')⟩ t).toList := by
            rwa [← step_eq sib side]
          rw [← LineTree.fill_sidewise eq] at whole hn small'
          obtain ⟨steps, rfl⟩ := Nat.exists_eq_add_one_of_ne_zero (Nat.ne_zero_of_lt enough)
          obtain ⟨a₁, lowered, run⟩ := whole.fixAfterRemoveIn_red red summed hn hf small' steps
          rw [Path.parent?_cons, run]
          have settled := lowered.settle nearBlack.color_eq summed hi ho
            (LineTree.small_lowered small') (by rintro ⟨black, -⟩; cases black)
          rw [LineTree.fill_sidewise eq] at settled
          exact settled
  | case4 t parent rest sibling l r sib near far side red black ih =>
      obtain ⟨steps, rfl⟩ := Nat.exists_eq_add_one_of_ne_zero (Nat.ne_zero_of_lt enough)
      have laid := laid.nephews sib side
      have repainted : Step.fill ⟨parent.side, sibling.paint .red, far⟩ near =
          parent.sibling.paint .red := by
        rw [sib, ← LineTree.fill_sidewise side]
        exact fill_paint ⟨parent.side, sibling, far⟩ near .red
      have before := Step.before_sibling (s := parent) (LineTree.toList_paint parent.sibling .red)
      have after := Step.after_sibling (s := parent) (LineTree.toList_paint parent.sibling .red)
      have lines : (Step.fill { parent with sibling := parent.sibling.paint .red } t).toList =
          (parent.fill t).toList := by
        rw [Step.toList_fill, Step.toList_fill, before, after]
      obtain ⟨whole, higher⟩ := LineTree.balanced_repaint ht hp sib side red black
      rw [Path.parent?_cons, laid.fixAfterRemoveIn_black (Color.eq_black red), if_pos black]
      refine (laid.paint_beside .red).bind fun a₁ laid₁ => ?_
      rw [repainted] at laid₁
      rw [← Step.slot?_fill { parent with sibling := parent.sibling.paint .red } t]
      refine ih (laid_cons_iff.mp laid₁) (Nat.le_of_succ_le_succ enough) whole higher
        ((above.1.paint_sibling .red).fill summed) ?_ ?_
      · rw [lines, Step.toList_fill]
        exact above.2
      · rw [Path.toList_fill, lines, ← Path.toList_fill]
        exact small
  | case5 t parent rest sibling l r sib near far side red other =>
      obtain ⟨steps, rfl⟩ := Nat.exists_eq_add_one_of_ne_zero (Nat.ne_zero_of_lt enough)
      have shape := step_eq sib side
      have hs := above.1.sibling
      rw [sib] at hs
      obtain ⟨hn, hf⟩ := LineTree.sidewise_summed hs.2.1 hs.2.2 side
      have laid := laid.nephews sib side
      have part : Addressable (parent.fill t).toList := @Addressable.below rest _ small
      rw [Path.parent?_cons, laid.fixAfterRemoveIn_black (Color.eq_black red), if_neg other]
      have settled := laid.settle (Color.eq_black red) summed hn hf (by rwa [← shape]) other
      rwa [← shape] at settled

theorem Laid.fixAfterRemove {n : Nat} (laid : Laid base path t a) (ht : t.Balanced .black n)
    (hp : Path.Balanced path .black (n + 1)) (summed : t.Summed) (above : Path.Summed path t.toList)
    (small : Addressable (Path.fill path t).toList) :
    Yields (a.fixAfterRemove t.slot? (Path.parent? path)) base [] (LineTree.afterErase t path) :=
  laid.fixAfterRemoveIn (Nat.le_trans (Nat.le_add_left _ _) laid.length_le) ht hp summed above small

end LineArena

end CodeEditor

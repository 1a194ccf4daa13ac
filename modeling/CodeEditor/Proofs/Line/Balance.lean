import CodeEditor.Proofs.Line.Sequence

/-!
The colors of the line tree.

`LineTree.Balanced t color n` is the red-black condition: the root has the given color, no red node
has a red child, and every way down passes `n` black nodes. A path has a condition of its own
(`Path.Balanced`), which says what may fill its hole. Inserting and erasing start with one node that
breaks the condition and move it up until it can be met again (`balanced_afterInsert`,
`balanced_afterErase`). A balanced tree is shallow (`Balanced.depth_le`).
-/

namespace CodeEditor

/-- There are two colors. -/
theorem Color.eq_black {color : Color} (notRed : color ≠ .red) : color = .black := by
  cases color with
  | red => exact absurd rfl notRed
  | black => rfl

namespace LineTree

/-- No red node has a red child, and all ways down pass the same number of black nodes. -/
inductive Balanced : LineTree → Color → Nat → Prop
  | empty : Balanced .empty .black 0
  | red {cell : Cell} {l r : LineTree} {n : Nat} :
      cell.color = .red → Balanced l .black n → Balanced r .black n →
      Balanced (.node cell l r) .red n
  | black {cell : Cell} {l r : LineTree} {a b : Color} {n : Nat} :
      cell.color = .black → Balanced l a n → Balanced r b n →
      Balanced (.node cell l r) .black (n + 1)

/-- The number of nodes on the longest way down. -/
def depth : LineTree → Nat
  | .empty => 0
  | .node _ l r => max l.depth r.depth + 1

theorem Balanced.color_eq {t : LineTree} {color : Color} {n : Nat} (h : t.Balanced color n) :
    t.color = color := by
  cases h with
  | empty => rfl
  | red red _ _ => exact red
  | black black _ _ => exact black

/-- A balanced tree has at least as many lines as a tree of black nodes only. -/
theorem Balanced.pow_le {t : LineTree} {color : Color} {n : Nat} (h : t.Balanced color n) :
    2 ^ n ≤ t.toList.length + 1 := by
  induction h with
  | empty => simp
  | red _ _ _ ihl ihr => simp only [toList_node, List.length_append, List.length_cons]; omega
  | black _ _ _ ihl ihr =>
      simp only [toList_node, List.length_append, List.length_cons, Nat.pow_succ]
      omega

/-- At most every second node on a way down is red. -/
theorem Balanced.depth_le_two_mul {t : LineTree} {color : Color} {n : Nat}
    (h : t.Balanced color n) : t.depth ≤ 2 * n + if color = .red then 1 else 0 := by
  induction h with
  | empty => simp [depth]
  | red _ _ _ ihl ihr => simp [depth] at ihl ihr ⊢; omega
  | @black _ _ _ a b _ _ _ _ ihl ihr =>
      cases a <;> cases b <;> simp [depth] at ihl ihr ⊢ <;> omega

/-- A balanced tree with a black root has a depth of at most twice the logarithm of its size. -/
theorem Balanced.depth_le {t : LineTree} {n : Nat} (h : t.Balanced .black n) :
    t.depth ≤ 2 * (t.toList.length + 1).log2 := by
  have levels : n ≤ (t.toList.length + 1).log2 :=
    (Nat.le_log2 (Nat.succ_ne_zero _)).mpr h.pow_le
  have depth := h.depth_le_two_mul
  simp only [reduceCtorEq, if_false, Nat.add_zero] at depth
  omega

/-- A black root can take the place of a root in any color, one level higher. -/
theorem Balanced.paint_black {t : LineTree} {color : Color} {n : Nat} (h : t.Balanced color n)
    (red : color = .red) : (t.paint .black).Balanced .black (n + 1) := by
  cases h with
  | empty => cases red
  | red _ hl hr => exact .black rfl hl hr
  | black _ _ _ => cases red

theorem Balanced.paint_root {t : LineTree} {color : Color} {n : Nat} (h : t.Balanced color n) :
    ∃ k, (t.paint .black).Balanced .black k := by
  cases h with
  | empty => exact ⟨_, .empty⟩
  | red _ hl hr => exact ⟨_, .black rfl hl hr⟩
  | black _ hl hr => exact ⟨_, .black rfl hl hr⟩

/-- A root that is not red is black. -/
theorem Balanced.black_of_ne {t : LineTree} {color : Color} {n : Nat} (h : t.Balanced color n)
    (notRed : t.color ≠ .red) : t.Balanced .black n := by
  rw [← Color.eq_black (h.color_eq ▸ notRed)]
  exact h

theorem sidewise_balanced {side : Side} {l r near far : LineTree} {color : Color} {n : Nat}
    (hl : l.Balanced color n) (hr : r.Balanced color n) (eq : sidewise side l r = (near, far)) :
    near.Balanced color n ∧ far.Balanced color n := by
  cases side <;> cases eq
  · exact ⟨hl, hr⟩
  · exact ⟨hr, hl⟩

theorem Balanced.paint_red {t : LineTree} {n : Nat} {cell : Cell} {l r : LineTree}
    (h : t.Balanced .black n) (node : t = .node cell l r) (hl : l.color = .black)
    (hr : r.color = .black) : ∃ k, n = k + 1 ∧ (t.paint .red).Balanced .red k := by
  subst node
  cases h with
  | black _ bl br =>
      refine ⟨_, rfl, .red rfl ?_ ?_⟩
      · rw [← bl.color_eq, hl] at bl; exact bl
      · rw [← br.color_eq, hr] at br; exact br

theorem Balanced.joinAt_black {side : Side} {cell : Cell} {near far : LineTree} {a b : Color}
    {n : Nat} (black : cell.color = .black) (hn : near.Balanced a n) (hf : far.Balanced b n) :
    (joinAt side cell near far).Balanced .black (n + 1) := by
  cases side with
  | left => exact .black black hn hf
  | right => exact .black black hf hn

theorem Balanced.joinAt_red {side : Side} {cell : Cell} {near far : LineTree} {n : Nat}
    (red : cell.color = .red) (hn : near.Balanced .black n) (hf : far.Balanced .black n) :
    (joinAt side cell near far).Balanced .red n := by
  cases side with
  | left => exact .red red hn hf
  | right => exact .red red hf hn

end LineTree

namespace Step

open LineTree (Balanced)

theorem balanced_fill_black {s : Step} {t : LineTree} {a b : Color} {n : Nat}
    (black : s.cell.color = .black) (ht : t.Balanced a n) (hs : s.sibling.Balanced b n) :
    (s.fill t).Balanced .black (n + 1) := by
  unfold fill
  cases s.side with
  | left => exact .black black ht hs
  | right => exact .black black hs ht

theorem balanced_fill_red {s : Step} {t : LineTree} {n : Nat} (red : s.cell.color = .red)
    (ht : t.Balanced .black n) (hs : s.sibling.Balanced .black n) : (s.fill t).Balanced .red n := by
  unfold fill
  cases s.side with
  | left => exact .red red ht hs
  | right => exact .red red hs ht

end Step

namespace Path

/-- The tree around the hole is balanced once the hole holds a balanced tree with a root of the
given color and with `n` black nodes on its ways down. A root below a red parent is black. -/
inductive Balanced : Path → Color → Nat → Prop
  | root {n : Nat} : Balanced [] .black n
  | red {s : Step} {rest : Path} {n : Nat} :
      s.cell.color = .red → s.sibling.Balanced .black n → Balanced rest .red n →
      Balanced (s :: rest) .black n
  | black {s : Step} {rest : Path} {a color : Color} {n : Nat} :
      s.cell.color = .black → s.sibling.Balanced a n → Balanced rest .black (n + 1) →
      Balanced (s :: rest) color n

theorem Balanced.fill {path : Path} {color : Color} {n : Nat} (hp : Balanced path color n)
    {t : LineTree} (ht : t.Balanced color n) : ∃ k, (Path.fill path t).Balanced .black k := by
  induction hp generalizing t with
  | root => exact ⟨_, ht⟩
  | red red sibling _ ih => exact ih (Step.balanced_fill_red red ht sibling)
  | black black sibling _ ih => exact ih (Step.balanced_fill_black black ht sibling)

/-- Below a black parent any color will do. -/
theorem Balanced.recolor {s : Step} {rest : Path} {color : Color} {n : Nat}
    (h : Balanced (s :: rest) color n) (black : s.cell.color = .black) (other : Color) :
    Balanced (s :: rest) other n := by
  cases h with
  | red red _ _ => simp [black] at red
  | black black sibling rest => exact .black black sibling rest

/-- A hole that takes a red root takes a black one. -/
theorem Balanced.of_red {path : Path} {n : Nat} (h : Balanced path .red n) :
    Balanced path .black n := by
  cases h with
  | black black sibling rest => exact .black black sibling rest

/-- Fresh sums do not touch the colors. -/
theorem Balanced.refresh {path : Path} {color : Color} {n : Nat} (h : Balanced path color n)
    (sub : Summary) : Balanced (Path.refresh path sub) color n := by
  induction h generalizing sub with
  | root => exact .root
  | red red sibling _ ih => exact .red red sibling (ih _)
  | black black sibling _ ih => exact .black black sibling (ih _)

end Path

namespace LineTree

/-! ### Going down -/

/-- Going down from a balanced tree, what lies below and the path above stay balanced. -/
theorem Balanced.left {cell : Cell} {l r : LineTree} {path : Path} {color : Color} {n : Nat}
    (ht : (LineTree.node cell l r).Balanced color n) (hp : Path.Balanced path color n) :
    ∃ a k, l.Balanced a k ∧ Path.Balanced (⟨.left, cell, r⟩ :: path) a k := by
  cases ht with
  | red red hl hr => exact ⟨_, _, hl, .red red hr hp⟩
  | black black hl hr => exact ⟨_, _, hl, .black black hr hp⟩

theorem Balanced.right {cell : Cell} {l r : LineTree} {path : Path} {color : Color} {n : Nat}
    (ht : (LineTree.node cell l r).Balanced color n) (hp : Path.Balanced path color n) :
    ∃ a k, r.Balanced a k ∧ Path.Balanced (⟨.right, cell, l⟩ :: path) a k := by
  cases ht with
  | red red hl hr => exact ⟨_, _, hr, .red red hl hp⟩
  | black black hl hr => exact ⟨_, _, hr, .black black hl hp⟩

theorem Balanced.locateFrom {id : LineId} {t : LineTree} {path : Path} {color : Color} {n : Nat}
    {place : Place} (ht : t.Balanced color n) (hp : Path.Balanced path color n)
    (found : LineTree.locateFrom id t path = some place) :
    ∃ a k, (LineTree.node place.cell place.left place.right).Balanced a k ∧
      Path.Balanced place.path a k := by
  induction t generalizing path color n with
  | empty => simp [LineTree.locateFrom] at found
  | node cell l r ihl ihr =>
      simp only [LineTree.locateFrom] at found
      split at found
      · cases found; exact ⟨_, _, ht, hp⟩
      · split at found
        · next p left =>
            cases found
            obtain ⟨a, k, hl, hp⟩ := ht.left hp
            exact ihl hl hp left
        · obtain ⟨a, k, hr, hp⟩ := ht.right hp
          exact ihr hr hp found

/-- Where the first line of a tree ends there is an empty subtree, into which a red node fits. -/
theorem Balanced.pathToFirst {t : LineTree} {path : Path} {color : Color} {n : Nat}
    (ht : t.Balanced color n) (hp : Path.Balanced path color n) :
    Path.Balanced (t.pathToFirst path) .black 0 := by
  induction t generalizing path color n with
  | empty => cases ht; exact hp
  | node cell l r ihl ihr =>
      obtain ⟨a, k, hl, hp⟩ := ht.left hp
      exact ihl hl hp

theorem Balanced.firstPlace {t : LineTree} {path path' : Path} {color : Color} {n : Nat}
    {cell : Cell} {r : LineTree} (ht : t.Balanced color n) (hp : Path.Balanced path color n)
    (found : t.firstPlace path = some (cell, r, path')) :
    ∃ a k, (LineTree.node cell .empty r).Balanced a k ∧ Path.Balanced path' a k := by
  fun_induction LineTree.firstPlace t path generalizing color n with
  | case1 => cases found
  | case2 path cell' r' => cases found; exact ⟨_, _, ht, hp⟩
  | case3 path cell' r' l notEmpty ih =>
      obtain ⟨a, k, hl, hp⟩ := ht.left hp
      exact ih hl hp found

/-! ### Inserting -/

/-- The rotation around a black grandparent whose other child is black. -/
theorem Balanced.turnUp {grand : Step} {parent : Cell} {outer inner : LineTree} {n : Nat}
    (ho : outer.Balanced .red n) (hi : inner.Balanced .black n)
    (hs : grand.sibling.Balanced .black n) :
    (LineTree.turnUp grand parent outer inner).Balanced .black (n + 1) :=
  Balanced.joinAt_black rfl ho (Balanced.joinAt_red rfl hi hs)

/-- A red node fits where a black root with the same number of black nodes below did, after
rotating. -/
theorem balanced_afterInsert {t : LineTree} {path : Path} {n : Nat} (ht : t.Balanced .red n)
    (hp : Path.Balanced path .black n) : ∃ k, (afterInsert t path).Balanced .black k := by
  fun_induction afterInsert t path generalizing n with
  | case1 t => exact ⟨_, ht.paint_black rfl⟩
  | case2 t parent black => exact Path.Balanced.fill (hp.recolor black .red) ht
  | case3 t parent red =>
      -- The parent is the root, which is black.
      cases hp with
      | red _ _ root => cases root
      | black black _ _ => exact absurd black red
  | case4 t parent grand rest black => exact (hp.recolor black .red).fill ht
  | case5 t parent grand rest notBlack uncle grand' =>
      rename_i ih
      cases hp with
      | black black _ _ => exact absurd black notBlack
      | red _ sibling above =>
          cases above with
          | black _ uncleBalanced above =>
              have uncleBlack := uncleBalanced.paint_black (uncleBalanced.color_eq.symm.trans uncle)
              have parentBlack : ((parent.paint .black).fill t).Balanced .black (n + 1) :=
                Step.balanced_fill_black rfl ht sibling
              exact ih (Step.balanced_fill_red rfl parentBlack uncleBlack) above
  | case6 t parent grand rest notBlack uncle same =>
      cases hp with
      | black black _ _ => exact absurd black notBlack
      | red _ sibling above =>
          cases above with
          | black _ uncleBalanced above =>
              have uncleBlack := uncleBalanced.black_of_ne uncle
              exact above.fill (ht.turnUp sibling uncleBlack)
  | case7 parent grand rest red uncle other => cases ht
  | case8 parent grand rest notBlack uncle other cell l r near far eq =>
      cases hp with
      | black black _ _ => exact absurd black notBlack
      | red parentRed sibling above =>
          cases above with
          | black _ uncleBalanced above =>
              have uncleBlack := uncleBalanced.black_of_ne uncle
              cases ht with
              | red _ hl hr =>
                  obtain ⟨hn, hf⟩ := sidewise_balanced hl hr eq
                  exact above.fill ((Balanced.joinAt_red parentRed sibling hn).turnUp hf uncleBlack)

/-! ### Erasing -/

/-- What a parent with a black sibling beside a hole says about the path above it. -/
theorem rest_balanced {parent : Step} {rest : Path} {n : Nat}
    (hp : Path.Balanced (parent :: rest) .black (n + 1)) :
    ∃ a m, parent.sibling.Balanced a (n + 1) ∧ Path.Balanced rest parent.cell.color m ∧
      (parent.cell.color = .red → a = .black ∧ m = n + 1) ∧
      (parent.cell.color = .black → m = n + 2) := by
  cases hp with
  | red red sibling above =>
      refine ⟨_, _, sibling, red ▸ above, fun _ => ⟨rfl, rfl⟩, fun black => ?_⟩
      simp [red] at black
  | black black sibling above =>
      refine ⟨_, _, sibling, black ▸ above, fun red => ?_, fun _ => rfl⟩
      simp [black] at red

/-- The rotation that moves the sibling up, where the far nephew is red. -/
theorem balanced_turn {t near far : LineTree} {parent : Step} {sibling : Cell} {rest : Path}
    {a : Color} {n m : Nat} (ht : t.Balanced .black n) (hn : near.Balanced a n)
    (hf : far.Balanced .red n) (above : Path.Balanced rest parent.cell.color m)
    (red : parent.cell.color = .red → m = n + 1) (black : parent.cell.color = .black → m = n + 2) :
    ∃ k, (Path.fill rest (joinAt parent.side (sibling.paint parent.cell.color)
      (joinAt parent.side (parent.cell.paint .black) t near) (far.paint .black))).Balanced
        .black k := by
  have inner : (joinAt parent.side (parent.cell.paint .black) t near).Balanced .black (n + 1) :=
    Balanced.joinAt_black rfl ht hn
  have outer := hf.paint_black rfl
  apply above.fill
  cases color : parent.cell.color with
  | red => rw [red color]; exact Balanced.joinAt_red rfl inner outer
  | black => rw [black color]; exact Balanced.joinAt_black rfl inner outer

/-- The nephews beside a hole, seen from the hole, under a black sibling. -/
theorem nephews_balanced {side : Side} {sibling : Cell} {l r near far : LineTree} {color : Color}
    {n : Nat} (hs : (LineTree.node sibling l r).Balanced color (n + 1))
    (black : sibling.color = .black) (eq : sidewise side l r = (near, far)) :
    (∃ a, near.Balanced a n) ∧ ∃ b, far.Balanced b n := by
  cases hs with
  | red red _ _ => simp [black] at red
  | black _ hl hr =>
      cases side <;> cases eq
      · exact ⟨⟨_, hl⟩, _, hr⟩
      · exact ⟨⟨_, hr⟩, _, hl⟩

/-- A black sibling with black nephews beside a hole under a red parent: sibling and parent exchange
their colors. -/
theorem balanced_recolor {t : LineTree} {parent : Step} {rest : Path} {n : Nat}
    {sibling : Cell} {l r near far : LineTree} (ht : t.Balanced .black n)
    (hp : Path.Balanced (parent :: rest) .black (n + 1)) (red : parent.cell.color = .red)
    (sib : parent.sibling = .node sibling l r) (eq : sidewise parent.side l r = (near, far))
    (nearBlack : near.color = .black) (farBlack : far.color = .black) :
    ∃ k, (Path.fill
      ({ parent.paint .black with sibling := (LineTree.node sibling l r).paint .red } :: rest)
        t).Balanced .black k := by
  rw [← sib]
  cases hp with
  | black black _ _ => simp [red] at black
  | red _ hs above =>
      have nephews : l.color = .black ∧ r.color = .black := by
        cases side : parent.side <;> rw [side] at eq <;> cases eq
        · exact ⟨nearBlack, farBlack⟩
        · exact ⟨farBlack, nearBlack⟩
      obtain ⟨k, height, repainted⟩ := hs.paint_red sib nephews.1 nephews.2
      obtain rfl : n = k := Nat.succ.inj height
      exact above.of_red.fill (Step.balanced_fill_black rfl ht repainted)

/-- With a black sibling and something red around, one rotation or repainting settles the lack. -/
theorem balanced_settle {t : LineTree} {parent : Step} {rest : Path} {n : Nat}
    {sibling : Cell} {l r near far : LineTree} (ht : t.Balanced .black n)
    (hp : Path.Balanced (parent :: rest) .black (n + 1))
    (sib : parent.sibling = .node sibling l r) (eq : sidewise parent.side l r = (near, far))
    (siblingBlack : sibling.color = .black)
    (someRed : ¬(parent.cell.color = .black ∧ near.color = .black ∧ far.color = .black)) :
    ∃ k, (settle t parent rest).Balanced .black k := by
  obtain ⟨a, m, hs, above, red, black⟩ := rest_balanced hp
  obtain ⟨⟨an, hn⟩, af, hf⟩ := nephews_balanced (sib ▸ hs) siblingBlack eq
  unfold settle
  rw [sib]
  simp only [eq]
  split
  · next cell' l' r' farBlack =>
      split
      · next nearRed =>
          -- The near nephew moves up between the parent and the sibling.
          have farBlack' := hf.black_of_ne (by simp [farBlack])
          cases hn with
          | black black' _ _ => simp [nearRed] at black'
          | red _ hl hr =>
              obtain ⟨inner, outer⟩ := @sidewise_balanced parent.side _ _ _ _ _ _ hl hr rfl
              exact balanced_turn ht inner (Balanced.joinAt_red rfl outer farBlack') above
                (fun c => (red c).2) black
      · next nearNotRed =>
          have nearBlack : (LineTree.node cell' l' r').color = .black :=
            Color.eq_black nearNotRed
          split
          · next parentRed => exact balanced_recolor ht hp parentRed sib eq nearBlack farBlack
          · next parentNotRed =>
              exact absurd ⟨Color.eq_black parentNotRed, nearBlack, farBlack⟩ someRed
  · next farBlack =>
      split
      · next parentRed => exact balanced_recolor ht hp parentRed sib eq rfl farBlack
      · next parentNotRed =>
          exact absurd ⟨Color.eq_black parentNotRed, rfl, farBlack⟩ someRed
  · next farRed =>
      rw [← hf.color_eq, farRed] at hf
      exact balanced_turn ht hn hf above (fun c => (red c).2) black

/-- With only black nodes around, a red sibling moves the lack up to the parent. -/
theorem balanced_repaint {t : LineTree} {parent : Step} {rest : Path} {n : Nat} {sibling : Cell}
    {l r near far : LineTree} (ht : t.Balanced .black n)
    (hp : Path.Balanced (parent :: rest) .black (n + 1)) (sib : parent.sibling = .node sibling l r)
    (eq : sidewise parent.side l r = (near, far)) (siblingBlack : sibling.color ≠ .red)
    (black : parent.cell.color = .black ∧ near.color = .black ∧ far.color = .black) :
    (Step.fill { parent with sibling := parent.sibling.paint .red } t).Balanced .black (n + 1) ∧
      Path.Balanced rest .black (n + 2) := by
  cases hp with
  | red parentRed _ _ => simp [black.1] at parentRed
  | black _ hs above =>
      have hs := hs.black_of_ne (by simpa [sib, color] using siblingBlack)
      have nephews : l.color = .black ∧ r.color = .black := by
        cases h : parent.side <;> rw [h] at eq <;> cases eq
        · exact black.2
        · exact black.2.symm
      obtain ⟨k, height, repainted⟩ := hs.paint_red sib nephews.1 nephews.2
      obtain rfl : n = k := Nat.succ.inj height
      exact ⟨Step.balanced_fill_black black.1 ht repainted, above⟩

/-- A subtree that lacks a black node settles by moving the lack up until something red is met. -/
theorem balanced_afterErase {t : LineTree} {path : Path} {n : Nat} (ht : t.Balanced .black n)
    (hp : Path.Balanced path .black (n + 1)) : ∃ k, (afterErase t path).Balanced .black k := by
  fun_induction afterErase t path generalizing n with
  | case1 t => exact ⟨_, ht⟩
  | case2 t parent rest sib =>
      obtain ⟨a, m, hs, -⟩ := rest_balanced hp
      rw [sib] at hs
      cases hs
  | case3 t parent rest sibling l r sib near far side red parent₁ parent₂ above₁ =>
      rename_i above₂
      cases hp with
      | red _ hs _ => simpa [sib, color, red] using hs.color_eq
      | @black _ _ a _ _ parentBlack hs above =>
          rw [sib] at hs
          cases hs with
          | black black' _ _ => simp [red] at black'
          | red _ hl hr =>
              obtain ⟨hn, hf⟩ := sidewise_balanced hl hr side
              have lower : Path.Balanced (parent₂ :: above₂ :: rest) .black (n + 1) :=
                .red rfl hn (.black rfl hf above)
              -- The black sibling that is left has a node, since there is a black node on its ways.
              cases near with
              | empty => cases hn
              | node cell l' r' =>
                  exact balanced_settle ht lower rfl rfl hn.color_eq
                    (by simp [parent₂, parent₁, Step.refresh, Step.paint, Cell.paint])
  | case4 t parent rest sibling l r sib near far side red black ih =>
      obtain ⟨whole, above⟩ := balanced_repaint ht hp sib side red black
      exact ih whole above
  | case5 t parent rest sibling l r sib near far side red other =>
      exact balanced_settle ht hp sib side (Color.eq_black red) other

/-- The only child of a node. -/
theorem balanced_child {cell : Cell} {child : LineTree} {a : Color} {n : Nat}
    (node : (LineTree.node cell .empty child).Balanced a n ∨
      (LineTree.node cell child .empty).Balanced a n) :
    (cell.color = .red ∧ child.Balanced .black n ∧ a = .red) ∨
      (cell.color = .black ∧ a = .black ∧ ∃ b k, n = k + 1 ∧ child.Balanced b k) := by
  rcases node with node | node <;> cases node with
  | red red hl hr => exact .inl ⟨red, by assumption, rfl⟩
  | black black hl hr => exact .inr ⟨black, rfl, _, _, rfl, by assumption⟩

/-- Taking out a node with at most one child leaves a balanced tree. -/
theorem balanced_unlink {cell : Cell} {child : LineTree} {path : Path} {a : Color} {n : Nat}
    (node : (LineTree.node cell .empty child).Balanced a n ∨
      (LineTree.node cell child .empty).Balanced a n)
    (hp : Path.Balanced path a n) : ∃ k, (unlink cell child path).Balanced .black k := by
  unfold unlink
  rcases balanced_child node with ⟨red, hc, rfl⟩ | ⟨black, rfl, b, k, rfl, hc⟩
  · simp only [red]
    exact (hp.of_red.refresh child.summary).fill hc
  · simp only [black]
    have hp := hp.refresh child.summary
    cases color : child.color with
    | red => exact hp.fill (hc.paint_black (hc.color_eq.symm.trans color))
    | black => exact balanced_afterErase (hc.black_of_ne (by simp [color])) hp

/-! ### Operations on a balanced tree -/

/-- A place in a balanced tree: what lies below it fits into the path above. -/
theorem Balanced.locate {id : LineId} {t : LineTree} {n : Nat} {place : Place}
    (ht : t.Balanced .black n) (found : t.locate id = some place) :
    ∃ a k, (LineTree.node place.cell place.left place.right).Balanced a k ∧
      Path.Balanced place.path a k :=
  ht.locateFrom .root found

theorem balanced_insertAfter {place : Place} {a : Color} {n : Nat} (id : LineId) (m : LineMetrics)
    (node : (LineTree.node place.cell place.left place.right).Balanced a n)
    (hp : Path.Balanced place.path a n) : ∃ k, (insertAfter place id m).Balanced .black k := by
  obtain ⟨b, j, right, path⟩ := node.right hp
  have leaf : (LineTree.node ⟨.red, Summary.ofLine m, id, m⟩ .empty .empty).Balanced .red 0 :=
    .red rfl .empty .empty
  exact balanced_afterInsert leaf ((right.pathToFirst path).refresh _)

theorem balanced_exchange {place : Place} {a : Color} {n : Nat} (id : LineId) (m : LineMetrics)
    (node : (LineTree.node place.cell place.left place.right).Balanced a n)
    (hp : Path.Balanced place.path a n) : ∃ k, (exchange place id m).Balanced .black k := by
  apply (hp.refresh _).fill
  cases node with
  | red red hl hr => exact .red red hl hr
  | black black hl hr => exact .black black hl hr

theorem balanced_erase {place : Place} {a : Color} {n : Nat}
    (node : (LineTree.node place.cell place.left place.right).Balanced a n)
    (hp : Path.Balanced place.path a n) : ∃ k, (erase place).Balanced .black k := by
  unfold erase
  split
  · next left => exact balanced_unlink (.inl (left ▸ node)) hp
  · next right _ => exact balanced_unlink (.inr (right ▸ node)) hp
  · next leftSome rightSome =>
      obtain ⟨b, j, right, path⟩ := node.right hp
      split
      · next notFound => exact absurd notFound (firstPlace_ne_none rightSome)
      · next next child path' found =>
          obtain ⟨c, i, first, above⟩ := right.firstPlace path found
          obtain ⟨k, unlinked⟩ := balanced_unlink (.inl first) above
          dsimp only
          cases located : (unlink next child path').locate place.cell.id with
          | none => exact ⟨k, unlinked⟩
          | some moved =>
              obtain ⟨d, l, node, path⟩ := unlinked.locate located
              exact balanced_exchange _ _ node path

/-- A tree of `h` levels that are all full but the lowest has its red nodes on the lowest. -/
theorem balanced_build {h : Nat} {lines : List (LineId × LineMetrics)}
    (fits : lines.length + 1 ≤ 2 ^ h) (full : 2 ^ h ≤ 2 * (lines.length + 1)) :
    ∃ a, (build h lines).Balanced a (h - 1) := by
  induction h generalizing lines with
  | zero => exact ⟨_, .empty⟩
  | succ h ih =>
      have lengths := congrArg List.length (List.take_append_drop (lines.length / 2) lines)
      rw [List.length_append] at lengths
      have half : (lines.take (lines.length / 2)).length = lines.length / 2 := by
        rw [List.length_take]; omega
      rw [Nat.pow_succ] at fits full
      unfold build
      split
      · next rest =>
          simp only [rest, List.length_nil] at lengths
          have low : h = 0 := by
            by_cases positive : h = 0
            · exact positive
            · have := Nat.pow_le_pow_right (n := 2) (by omega) (Nat.one_le_iff_ne_zero.mpr positive)
              omega
          subst low
          exact ⟨_, .empty⟩
      · next id m after rest =>
          simp only [rest, List.length_cons] at lengths
          cases h with
          | zero => exact ⟨_, .red rfl .empty .empty⟩
          | succ h =>
              obtain ⟨a, left⟩ := @ih (lines.take (lines.length / 2)) (by omega) (by omega)
              obtain ⟨b, right⟩ := @ih after (by omega) (by omega)
              exact ⟨_, .black rfl left right⟩

theorem balanced_ofList (lines : List (LineId × LineMetrics)) :
    ∃ k, (ofList lines).Balanced .black k := by
  by_cases empty : lines.length = 0
  · obtain rfl := List.eq_nil_of_length_eq_zero empty
    exact ⟨_, .empty⟩
  · have full : 2 ^ levels lines.length ≤ 2 * (lines.length + 1) := by
      have low := Nat.log2_self_le empty
      simp only [levels, empty, if_false, Nat.pow_succ]
      omega
    obtain ⟨a, h⟩ := balanced_build (lt_two_pow_levels lines.length) full
    exact h.paint_root

end LineTree

end CodeEditor

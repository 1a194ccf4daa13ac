import CodeEditor.Proofs.Line.Sequence

/-!
The sums of the line tree.

Every node carries the length and the number of the lines below it. `LineTree.Summed` says that they
are right at every node, `Path.Summed` that they are right along a path once its hole holds certain
lines. An operation refreshes the sums on its path once; afterwards it only moves subtrees within
the same lines, so that the sums above a rotation stay right without being touched. Sums of heights
are left out: how they round depends on the shape of the tree.
-/

namespace CodeEditor

/-- The total length of some lines. -/
def lengthOf (lines : List (LineId × LineMetrics)) : Nat := (lines.map (·.2.totalLength)).sum

@[simp] theorem lengthOf_nil : lengthOf [] = 0 := rfl

@[simp] theorem lengthOf_cons (line : LineId × LineMetrics) (lines : List (LineId × LineMetrics)) :
    lengthOf (line :: lines) = line.2.totalLength + lengthOf lines := by
  simp [lengthOf]

@[simp] theorem lengthOf_append (xs ys : List (LineId × LineMetrics)) :
    lengthOf (xs ++ ys) = lengthOf xs + lengthOf ys := by
  simp [lengthOf]

/-- A summary holds the length and the number of some lines. -/
structure Summary.Sums (s : Summary) (lines : List (LineId × LineMetrics)) : Prop where
  length : s.length = lengthOf lines
  count : s.count = lines.length

namespace Summary

theorem sums_zero : zero.Sums [] := ⟨rfl, rfl⟩

theorem sums_ofLine (id : LineId) (m : LineMetrics) : (ofLine m).Sums [(id, m)] :=
  ⟨by simp [ofLine], rfl⟩

theorem Sums.combine {l r : Summary} {xs ys : List (LineId × LineMetrics)} (hl : l.Sums xs)
    (hr : r.Sums ys) (id : LineId) (m : LineMetrics) :
    (Summary.combine l r m).Sums (xs ++ (id, m) :: ys) where
  length := by simp only [Summary.combine, hl.length, hr.length, lengthOf_append,
    lengthOf_cons]; omega
  count := by
    simp only [Summary.combine, hl.count, hr.count, List.length_append, List.length_cons]; omega

end Summary

namespace LineTree

/-- The sums at every node are those of the lines in its subtree. -/
def Summed : LineTree → Prop
  | .empty => True
  | .node cell l r =>
      cell.summary.Sums (LineTree.node cell l r).toList ∧ l.Summed ∧ r.Summed

theorem Summed.sums {t : LineTree} (h : t.Summed) : t.summary.Sums t.toList := by
  cases t with
  | empty => exact Summary.sums_zero
  | node cell l r => exact h.1

theorem Summed.paint {t : LineTree} (h : t.Summed) (color : Color) : (t.paint color).Summed := by
  cases t with
  | empty => trivial
  | node cell l r => exact ⟨⟨h.1.length, h.1.count⟩, h.2⟩

theorem Summed.join {cell : Cell} {l r : LineTree} (hl : l.Summed) (hr : r.Summed) :
    (LineTree.join cell l r).Summed :=
  ⟨hl.sums.combine hr.sums cell.id cell.metrics, hl, hr⟩

theorem Summed.joinAt {side : Side} {cell : Cell} {near far : LineTree} (hn : near.Summed)
    (hf : far.Summed) : (LineTree.joinAt side cell near far).Summed := by
  cases side with
  | left => exact hn.join hf
  | right => exact hf.join hn

theorem sidewise_summed {side : Side} {l r near far : LineTree} (hl : l.Summed) (hr : r.Summed)
    (eq : sidewise side l r = (near, far)) : near.Summed ∧ far.Summed := by
  cases side <;> cases eq
  · exact ⟨hl, hr⟩
  · exact ⟨hr, hl⟩

end LineTree

namespace Step

/-- The sums of the parent are right when the subtree holds some lines. -/
structure Summed (s : Step) (lines : List (LineId × LineMetrics)) : Prop where
  sibling : s.sibling.Summed
  sums : s.cell.summary.Sums (s.before ++ lines ++ s.after)

theorem Summed.fill {s : Step} {t : LineTree} (h : s.Summed t.toList) (ht : t.Summed) :
    (s.fill t).Summed := by
  obtain ⟨sibling, sums⟩ := h
  unfold Step.fill before after at *
  cases side : s.side with
  | left => exact ⟨by simpa [side] using sums, ht, sibling⟩
  | right => exact ⟨by simpa [side] using sums, sibling, ht⟩

theorem Summed.paint {s : Step} {lines : List (LineId × LineMetrics)} (h : s.Summed lines)
    (color : Color) : (s.paint color).Summed lines :=
  ⟨h.sibling, h.sums.length, h.sums.count⟩

theorem Summed.paint_sibling {s : Step} {lines : List (LineId × LineMetrics)} (h : s.Summed lines)
    (color : Color) : Summed { s with sibling := s.sibling.paint color } lines where
  sibling := h.sibling.paint color
  sums := by
    rw [before_sibling (LineTree.toList_paint _ _), after_sibling (LineTree.toList_paint _ _)]
    exact h.sums

/-- Refreshing makes the sums right. -/
theorem Summed.refresh {s : Step} (sibling : s.sibling.Summed) {sub : Summary}
    {lines : List (LineId × LineMetrics)} (sums : sub.Sums lines) :
    (s.refresh sub).Summed lines := by
  refine ⟨sibling, ?_⟩
  unfold Step.refresh before after
  cases s.side with
  | left => simpa [Cell.entry] using sums.combine sibling.sums s.cell.id s.cell.metrics
  | right => simpa [Cell.entry] using sibling.sums.combine sums s.cell.id s.cell.metrics

end Step

namespace Path

/-- The trees beside a path have the right sums. -/
def SiblingsSummed (path : Path) : Prop := ∀ s ∈ path, s.sibling.Summed

theorem siblingsSummed_cons_iff {s : Step} {rest : Path} :
    SiblingsSummed (s :: rest) ↔ s.sibling.Summed ∧ SiblingsSummed rest :=
  List.forall_mem_cons

/-- The sums along a path are right when the hole holds some lines. -/
def Summed : Path → List (LineId × LineMetrics) → Prop
  | [], _ => True
  | s :: rest, lines => s.Summed lines ∧ Summed rest (s.before ++ lines ++ s.after)

theorem Summed.siblings {path : Path} {lines : List (LineId × LineMetrics)}
    (h : Summed path lines) : SiblingsSummed path := by
  induction path generalizing lines with
  | nil => intro s mem; cases mem
  | cons s rest ih => exact siblingsSummed_cons_iff.mpr ⟨h.1.sibling, ih h.2⟩

theorem Summed.fill {path : Path} {t : LineTree} (hp : Summed path t.toList) (ht : t.Summed) :
    (Path.fill path t).Summed := by
  induction path generalizing t with
  | nil => exact ht
  | cons s rest ih =>
      refine ih ?_ (hp.1.fill ht)
      rw [Step.toList_fill]
      exact hp.2

/-- Refreshing makes the sums along a path right. -/
theorem SiblingsSummed.refresh {path : Path} (h : SiblingsSummed path) {sub : Summary}
    {lines : List (LineId × LineMetrics)} (sums : sub.Sums lines) :
    Summed (Path.refresh path sub) lines := by
  induction path generalizing sub lines with
  | nil => trivial
  | cons s rest ih =>
      obtain ⟨sibling, above⟩ := siblingsSummed_cons_iff.mp h
      have fresh := Step.Summed.refresh sibling sums
      exact ⟨fresh, ih above fresh.sums⟩

end Path

namespace LineTree

/-! ### Going down -/

theorem Summed.left {cell : Cell} {l r : LineTree} {path : Path}
    (ht : (LineTree.node cell l r).Summed)
    (hp : Path.Summed path (LineTree.node cell l r).toList) :
    Path.Summed (⟨.left, cell, r⟩ :: path) l.toList := by
  refine ⟨⟨ht.2.2, ?_⟩, ?_⟩ <;> simp only [Step.before, Step.after, List.nil_append]
  · exact ht.1
  · exact hp

theorem Summed.right {cell : Cell} {l r : LineTree} {path : Path}
    (ht : (LineTree.node cell l r).Summed)
    (hp : Path.Summed path (LineTree.node cell l r).toList) :
    Path.Summed (⟨.right, cell, l⟩ :: path) r.toList := by
  have same : l.toList ++ [cell.entry] ++ r.toList ++ [] = (LineTree.node cell l r).toList := by
    simp
  refine ⟨⟨ht.2.1, ?_⟩, ?_⟩ <;> simp only [Step.before, Step.after, same]
  · exact ht.1
  · exact hp

theorem Summed.locateFrom {id : LineId} {t : LineTree} {path : Path} {place : Place}
    (ht : t.Summed) (hp : Path.Summed path t.toList)
    (found : LineTree.locateFrom id t path = some place) :
    (LineTree.node place.cell place.left place.right).Summed ∧
      Path.Summed place.path (LineTree.node place.cell place.left place.right).toList := by
  induction t generalizing path with
  | empty => simp [LineTree.locateFrom] at found
  | node cell l r ihl ihr =>
      simp only [LineTree.locateFrom] at found
      split at found
      · cases found; exact ⟨ht, hp⟩
      · split at found
        · next p left => cases found; exact ihl ht.2.1 (ht.left hp) left
        · exact ihr ht.2.2 (ht.right hp) found

theorem Summed.locate {id : LineId} {t : LineTree} {place : Place} (ht : t.Summed)
    (found : t.locate id = some place) :
    (LineTree.node place.cell place.left place.right).Summed ∧
      Path.Summed place.path (LineTree.node place.cell place.left place.right).toList :=
  ht.locateFrom (show Path.Summed [] t.toList from trivial) found

theorem Summed.pathToFirst {t : LineTree} {path : Path} (ht : t.Summed)
    (hp : Path.SiblingsSummed path) : Path.SiblingsSummed (t.pathToFirst path) := by
  induction t generalizing path with
  | empty => exact hp
  | node cell l r ihl ihr => exact ihl ht.2.1 (Path.siblingsSummed_cons_iff.mpr ⟨ht.2.2, hp⟩)

theorem Summed.firstPlace {t : LineTree} {path path' : Path} {cell : Cell} {r : LineTree}
    (ht : t.Summed) (hp : Path.SiblingsSummed path)
    (found : t.firstPlace path = some (cell, r, path')) :
    r.Summed ∧ Path.SiblingsSummed path' := by
  fun_induction LineTree.firstPlace t path with
  | case1 => cases found
  | case2 path cell' r' => cases found; exact ⟨ht.2.2, hp⟩
  | case3 path cell' r' l notEmpty ih =>
      exact ih ht.2.1 (Path.siblingsSummed_cons_iff.mpr ⟨ht.2.2, hp⟩) found

/-! ### Restoring the colors -/

theorem summed_afterInsert {t : LineTree} {path : Path} (ht : t.Summed)
    (hp : Path.Summed path t.toList) : (afterInsert t path).Summed := by
  fun_induction afterInsert t path with
  | case1 t => exact ht.paint _
  | case2 t parent black => exact hp.fill ht
  | case3 t parent red => exact (hp.1.paint .black).fill ht
  | case4 t parent grand rest black => exact hp.fill ht
  | case5 t parent grand rest red uncle grand' =>
      rename_i ih
      have lines := Step.toList_fill (parent.paint .black) t
      have step : grand'.Summed ((parent.paint .black).fill t).toList := by
        rw [lines]
        exact (hp.2.1.paint .red).paint_sibling .black
      apply ih (step.fill ((hp.1.paint .black).fill ht))
      have before : grand'.before = grand.before := Step.before_sibling (toList_paint _ _)
      have after : grand'.after = grand.after := Step.after_sibling (toList_paint _ _)
      rw [Step.toList_fill, lines, before, after]
      exact hp.2.2
  | case6 t parent grand rest red uncle same =>
      have lines := toList_turnUp grand parent t same
      refine Path.Summed.fill ?_ (ht.joinAt (hp.1.sibling.joinAt hp.2.1.sibling))
      rw [lines]
      simpa using hp.2.2
  | case7 parent grand rest red uncle other => exact hp.fill ht
  | case8 parent grand rest red uncle other cell l r near far eq outer =>
      have lines := toList_turnUp_inner grand parent cell l r other
      rw [eq] at lines
      obtain ⟨hn, hf⟩ := sidewise_summed ht.2.1 ht.2.2 eq
      refine Path.Summed.fill ?_ ((hp.1.sibling.joinAt hn).joinAt (hf.joinAt hp.2.1.sibling))
      rw [show (turnUp grand cell outer far).toList = _ from lines]
      simpa using hp.2.2

/-- After a rotation that leaves its lines as they were, the sums above it are right. -/
theorem summed_turn {t near far : LineTree} {parent : Step} {sibling cell : Cell} {rest : Path}
    (ht : t.Summed) (hn : near.Summed) (hf : far.Summed)
    (above : Path.Summed rest (parent.before ++ t.toList ++ parent.after))
    (lines : (joinAt parent.side sibling (joinAt parent.side cell t near) far).toList =
      parent.before ++ t.toList ++ parent.after) :
    (Path.fill rest (joinAt parent.side sibling (joinAt parent.side cell t near) far)).Summed :=
  (lines ▸ above : Path.Summed rest _).fill ((ht.joinAt hn).joinAt hf)

/-- Exchanging the colors of a parent and the sibling beside the hole changes no sum. -/
theorem summed_recolor {t : LineTree} {parent : Step} {rest : Path} (ht : t.Summed)
    (hp : Path.Summed (parent :: rest) t.toList) :
    (Path.fill ({ parent.paint .black with sibling := parent.sibling.paint .red } :: rest)
      t).Summed := by
  have step := (hp.1.paint .black).paint_sibling .red
  refine Path.Summed.fill ⟨step, ?_⟩ ht
  have before := Step.before_sibling (s := parent.paint .black) (toList_paint parent.sibling .red)
  have after := Step.after_sibling (s := parent.paint .black) (toList_paint parent.sibling .red)
  exact before ▸ after ▸ hp.2

theorem summed_settle {t : LineTree} {parent : Step} {rest : Path} (ht : t.Summed)
    (hp : Path.Summed (parent :: rest) t.toList) : (settle t parent rest).Summed := by
  have nephews : ∀ {sibling l r near far}, parent.sibling = .node sibling l r →
      sidewise parent.side l r = (near, far) → near.Summed ∧ far.Summed := by
    intro sibling l r near far sib eq
    have hs := hp.1.sibling
    rw [sib] at hs
    exact sidewise_summed hs.2.1 hs.2.2 eq
  fun_cases settle t parent rest with
  | case1 sib => exact hp.fill ht
  | case2 sibling l r sib far turn cell l' r' farBlack nearRed inner outer inside eq =>
      obtain ⟨hn, hf⟩ := nephews sib eq
      obtain ⟨hi, ho⟩ := sidewise_summed hn.2.1 hn.2.2 inside
      apply summed_turn ht hi ((ho.joinAt hf).paint _) hp.2
      cases side : parent.side <;>
        simp_all [sidewise, joinAt, Step.before, Step.after]
  | case3 => exact summed_recolor ht hp
  | case4 sibling l r sib far turn cell l' r' farBlack _ _ eq =>
      obtain ⟨hn, hf⟩ := nephews sib eq
      exact summed_turn ht hn (hf.paint _) hp.2 (toList_turn sib eq rfl rfl (toList_paint _ _))
  | case5 => exact summed_recolor ht hp
  | case6 sibling l r sib far turn _ _ eq =>
      obtain ⟨hn, hf⟩ := nephews sib eq
      exact summed_turn ht hn (hf.paint _) hp.2 (toList_turn sib eq rfl rfl (toList_paint _ _))
  | case7 sibling l r sib near far eq turn =>
      obtain ⟨hn, hf⟩ := nephews sib eq
      exact summed_turn ht hn (hf.paint _) hp.2 (toList_turn sib eq rfl rfl (toList_paint _ _))

theorem summed_afterErase {t : LineTree} {path : Path} (ht : t.Summed)
    (hp : Path.Summed path t.toList) : (afterErase t path).Summed := by
  fun_induction afterErase t path with
  | case1 t => exact ht
  | case2 t parent rest sib => exact hp.fill ht
  | case3 t parent rest sibling l r sib near far side red parent₁ parent₂ above₁ above₂ =>
      have hs := hp.1.sibling
      rw [sib] at hs
      obtain ⟨hn, hf⟩ := sidewise_summed hs.2.1 hs.2.2 side
      have lower : parent₂.Summed t.toList := Step.Summed.refresh (s := parent₁) hn ht.sums
      have upper := Step.Summed.refresh (s := above₁) hf lower.sums
      refine summed_settle ht ⟨lower, upper, ?_⟩
      have lines : above₂.before ++ (parent₂.before ++ t.toList ++ parent₂.after) ++ above₂.after =
          parent.before ++ t.toList ++ parent.after := by
        rw [← before_turned sib side, ← after_turned sib side]
        simp only [Step.before_refresh, Step.after_refresh, above₂, parent₂, parent₁, above₁,
          List.append_assoc]
      rw [lines]
      exact hp.2
  | case4 t parent rest sibling l r sib near far side red black ih =>
      have before := Step.before_sibling (s := parent) (toList_paint parent.sibling .red)
      have after := Step.after_sibling (s := parent) (toList_paint parent.sibling .red)
      apply ih ((hp.1.paint_sibling .red).fill ht)
      rw [Step.toList_fill, before, after]
      exact hp.2
  | case5 t parent rest sibling l r sib near far side red other => exact summed_settle ht hp

/-! ### Operations on a tree with the right sums -/

theorem summed_unlink {cell : Cell} {child : LineTree} {path : Path} (hc : child.Summed)
    (hp : Path.SiblingsSummed path) : (unlink cell child path).Summed := by
  have fresh := hp.refresh hc.sums
  unfold unlink
  split
  · exact fresh.fill hc
  · exact Path.Summed.fill (by rw [toList_paint]; exact fresh) (hc.paint _)
  · exact summed_afterErase hc fresh

theorem summed_insertAfter {place : Place} (id : LineId) (m : LineMetrics)
    (node : (LineTree.node place.cell place.left place.right).Summed)
    (hp : Path.SiblingsSummed place.path) : (insertAfter place id m).Summed := by
  have leaf : (LineTree.node ⟨.red, Summary.ofLine m, id, m⟩ .empty .empty).Summed :=
    ⟨Summary.sums_ofLine id m, trivial, trivial⟩
  have path : Path.SiblingsSummed (⟨.right, place.cell, place.left⟩ :: place.path) :=
    Path.siblingsSummed_cons_iff.mpr ⟨node.2.1, hp⟩
  exact summed_afterInsert leaf ((node.2.2.pathToFirst path).refresh leaf.sums)

theorem summed_exchange {place : Place} (id : LineId) (m : LineMetrics)
    (node : (LineTree.node place.cell place.left place.right).Summed)
    (hp : Path.SiblingsSummed place.path) : (exchange place id m).Summed := by
  have sums := node.2.1.sums.combine node.2.2.sums id m
  exact (hp.refresh sums).fill ⟨sums, node.2⟩

theorem summed_erase {place : Place}
    (node : (LineTree.node place.cell place.left place.right).Summed)
    (hp : Path.SiblingsSummed place.path) : (erase place).Summed := by
  unfold erase
  split
  · exact summed_unlink node.2.2 hp
  · exact summed_unlink node.2.1 hp
  · next leftSome rightSome =>
      have path : Path.SiblingsSummed (⟨.right, place.cell, place.left⟩ :: place.path) :=
        Path.siblingsSummed_cons_iff.mpr ⟨node.2.1, hp⟩
      split
      · next notFound => exact absurd notFound (firstPlace_ne_none rightSome)
      · next next child path' found =>
          obtain ⟨hc, above⟩ := node.2.2.firstPlace path found
          have unlinked : (unlink next child path').Summed := summed_unlink hc above
          dsimp only
          cases located : (unlink next child path').locate place.cell.id with
          | none => exact unlinked
          | some moved =>
              obtain ⟨node, path⟩ := unlinked.locate located
              exact summed_exchange _ _ node path.siblings

theorem summed_build (h : Nat) (lines : List (LineId × LineMetrics)) : (build h lines).Summed := by
  induction h generalizing lines with
  | zero => trivial
  | succ h ih =>
      unfold build
      split
      · trivial
      · exact (ih _).join (ih _)

theorem summed_ofList (lines : List (LineId × LineMetrics)) : (ofList lines).Summed :=
  (summed_build _ _).paint _

end LineTree

end CodeEditor

import CodeEditor.Line.Tree
import Mathlib.Algebra.Ring.Nat

/-!
The line tree as a sequence.

`LineTree.toList` is all that an operation on the tree is about. A path has the lines in front of
its hole (`Path.before`) and those behind it (`Path.after`), and filling the hole puts a tree's
lines between them (`toList_fill`). Restoring the colors changes none of them, wherever a rotation
happens (`toList_afterInsert`, `toList_afterErase`), so inserting puts one line behind another
(`toList_insertAfter`), exchanging changes one in place (`toList_exchange`), and erasing takes
exactly one out (`toList_erase`).
-/

namespace CodeEditor

/-- The line of a node. -/
def Cell.entry (c : Cell) : LineId × LineMetrics := (c.id, c.metrics)

namespace Step

/-- The lines that the parent puts in front of the subtree. -/
def before (s : Step) : List (LineId × LineMetrics) :=
  match s.side with
  | .left => []
  | .right => s.sibling.toList ++ [s.cell.entry]

/-- The lines that the parent puts behind the subtree. -/
def after (s : Step) : List (LineId × LineMetrics) :=
  match s.side with
  | .left => s.cell.entry :: s.sibling.toList
  | .right => []

end Step

namespace Path

/-- The lines in front of the hole. -/
def before : Path → List (LineId × LineMetrics)
  | [] => []
  | s :: rest => before rest ++ s.before

/-- The lines behind the hole. -/
def after : Path → List (LineId × LineMetrics)
  | [] => []
  | s :: rest => s.after ++ after rest

@[simp] theorem before_nil : before [] = [] := rfl

@[simp] theorem after_nil : after [] = [] := rfl

@[simp] theorem before_cons (s : Step) (rest : Path) :
    before (s :: rest) = before rest ++ s.before := rfl

@[simp] theorem after_cons (s : Step) (rest : Path) :
    after (s :: rest) = s.after ++ after rest := rfl

end Path

/-! ### Painting, joining and filling -/

@[simp] theorem Cell.entry_paint (c : Cell) (color : Color) : (c.paint color).entry = c.entry := rfl

namespace LineTree

@[simp] theorem toList_empty : toList .empty = [] := rfl

@[simp] theorem toList_node (cell : Cell) (l r : LineTree) :
    toList (.node cell l r) = l.toList ++ cell.entry :: r.toList := rfl

@[simp] theorem toList_paint (t : LineTree) (color : Color) :
    (t.paint color).toList = t.toList := by
  cases t <;> rfl

@[simp] theorem toList_join (cell : Cell) (l r : LineTree) :
    (join cell l r).toList = l.toList ++ cell.entry :: r.toList := rfl

end LineTree

namespace Step

@[simp] theorem before_paint (s : Step) (color : Color) : (s.paint color).before = s.before := rfl

@[simp] theorem after_paint (s : Step) (color : Color) : (s.paint color).after = s.after := rfl

@[simp] theorem before_refresh (s : Step) (sub : Summary) : (s.refresh sub).before = s.before := rfl

@[simp] theorem after_refresh (s : Step) (sub : Summary) : (s.refresh sub).after = s.after := rfl

@[simp] theorem toList_fill (s : Step) (t : LineTree) :
    (s.fill t).toList = s.before ++ t.toList ++ s.after := by
  unfold fill before after
  cases s.side <;> simp

/-- Another tree beside the hole with the same lines changes nothing. -/
theorem before_sibling {s : Step} {t : LineTree} (same : t.toList = s.sibling.toList) :
    before { s with sibling := t } = s.before := by
  simp [before, same]

theorem after_sibling {s : Step} {t : LineTree} (same : t.toList = s.sibling.toList) :
    after { s with sibling := t } = s.after := by
  simp [after, same]

end Step

namespace Path

@[simp] theorem toList_fill (path : Path) (t : LineTree) :
    (fill path t).toList = before path ++ t.toList ++ after path := by
  induction path generalizing t with
  | nil => simp [fill]
  | cons s rest ih =>
      have step := ih (s.fill t)
      simp only [fill, List.foldl_cons] at step ⊢
      simp [step]

@[simp] theorem before_refresh (path : Path) (sub : Summary) :
    before (refresh path sub) = before path := by
  induction path generalizing sub with
  | nil => rfl
  | cons s rest ih => simp [refresh, ih]

@[simp] theorem after_refresh (path : Path) (sub : Summary) :
    after (refresh path sub) = after path := by
  induction path generalizing sub with
  | nil => rfl
  | cons s rest ih => simp [refresh, ih]

end Path

namespace LineTree

/-! ### Inserting -/

/-- A line behind the place of a parent, which is on the same side of the grandparent. -/
theorem toList_turnUp (grand parent : Step) (t : LineTree) (same : parent.side = grand.side) :
    (turnUp grand parent.cell t parent.sibling).toList =
      grand.before ++ parent.before ++ t.toList ++ parent.after ++ grand.after := by
  unfold turnUp joinAt Step.before Step.after
  rw [same]
  cases grand.side <;> simp

theorem toList_turnUp_inner (grand parent : Step) (cell : Cell) (l r : LineTree)
    (other : parent.side ≠ grand.side) :
    (turnUp grand cell (joinAt grand.side parent.cell parent.sibling (sidewise grand.side l r).1)
        (sidewise grand.side l r).2).toList =
      grand.before ++ parent.before ++ (LineTree.node cell l r).toList ++ parent.after ++
        grand.after := by
  unfold turnUp joinAt sidewise Step.before Step.after
  cases hg : grand.side <;> cases hp : parent.side <;> simp_all

theorem toList_afterInsert (t : LineTree) (path : Path) :
    (afterInsert t path).toList = Path.before path ++ t.toList ++ Path.after path := by
  fun_induction afterInsert t path with
  | case1 t => simp
  | case2 t parent black => simp
  | case3 t parent red => simp
  | case4 t parent grand rest black => simp
  | case5 t parent grand rest red uncle grand' ih =>
      rw [ih]
      have before : grand'.before = grand.before := Step.before_sibling (by simp [Step.paint])
      have after : grand'.after = grand.after := Step.after_sibling (by simp [Step.paint])
      simp [before, after]
  | case6 t parent grand rest red uncle same =>
      rw [Path.toList_fill, toList_turnUp grand parent t same]
      simp
  | case7 parent grand rest red uncle other => simp
  | case8 parent grand rest red uncle other cell l r near far eq outer =>
      have inner := toList_turnUp_inner grand parent cell l r other
      rw [eq] at inner
      rw [Path.toList_fill, inner]
      simp

theorem before_pathToFirst (t : LineTree) (path : Path) :
    Path.before (t.pathToFirst path) = Path.before path := by
  induction t generalizing path with
  | empty => rfl
  | node cell l r ihl ihr => simp [pathToFirst, ihl, Step.before]

theorem after_pathToFirst (t : LineTree) (path : Path) :
    Path.after (t.pathToFirst path) = t.toList ++ Path.after path := by
  induction t generalizing path with
  | empty => rfl
  | node cell l r ihl ihr => simp [pathToFirst, ihl, Step.after]

end LineTree

/-! ### Places -/

namespace Place

/-- The whole tree around a place. -/
def toTree (p : Place) : LineTree := Path.fill p.path (.node p.cell p.left p.right)

/-- The lines in front of a place. -/
def before (p : Place) : List (LineId × LineMetrics) := Path.before p.path ++ p.left.toList

/-- The lines behind a place. -/
def after (p : Place) : List (LineId × LineMetrics) := p.right.toList ++ Path.after p.path

theorem toList_toTree (p : Place) : p.toTree.toList = p.before ++ p.cell.entry :: p.after := by
  simp [toTree, before, after]

end Place

namespace LineTree

/-- A search ends at a node with the identity searched for, and from there the path leads up to the
whole tree. -/
theorem locateFrom_eq_some {id : LineId} {t : LineTree} {path : Path} {place : Place}
    (found : locateFrom id t path = some place) :
    place.cell.id = id ∧ place.toTree = Path.fill path t := by
  induction t generalizing path with
  | empty => simp [locateFrom] at found
  | node cell l r ihl ihr =>
      simp only [locateFrom] at found
      split at found
      · next here => cases found; exact ⟨here, rfl⟩
      · split at found
        · next p left => cases found; exact ihl left
        · exact ihr found

theorem locateFrom_eq_none_iff {id : LineId} {t : LineTree} {path : Path} :
    locateFrom id t path = none ↔ id ∉ t.toList.map (·.1) := by
  induction t generalizing path with
  | empty => simp [locateFrom]
  | node cell l r ihl ihr =>
      simp only [locateFrom]
      split
      · next here => simp [Cell.entry, here]
      · next other =>
          split
          · next p left =>
              have inLeft : id ∈ l.toList.map (·.1) :=
                Decidable.byContradiction fun absent => by simp [ihl.mpr absent] at left
              simp only [reduceCtorEq, false_iff, toList_node, List.map_append, List.mem_append]
              exact fun absent => absent (Or.inl inLeft)
          · next left =>
              have notLeft := ihl.mp left
              simp only [ihr, toList_node, List.map_append, List.map_cons, List.mem_append,
                List.mem_cons, Cell.entry, not_or]
              exact ⟨fun h => ⟨notLeft, fun e => other e.symm, h⟩, fun h => h.2.2⟩

theorem locate_eq_some {id : LineId} {t : LineTree} {place : Place}
    (found : t.locate id = some place) : place.cell.id = id ∧ place.toTree = t :=
  locateFrom_eq_some found

theorem locate_eq_none_iff {id : LineId} {t : LineTree} :
    t.locate id = none ↔ id ∉ t.toList.map (·.1) :=
  locateFrom_eq_none_iff

/-- The lines of a tree around the place of one of them. -/
theorem toList_of_locate {id : LineId} {t : LineTree} {place : Place}
    (found : t.locate id = some place) :
    t.toList = place.before ++ (id, place.cell.metrics) :: place.after := by
  obtain ⟨rfl, rfl⟩ := locate_eq_some found
  exact place.toList_toTree

theorem toList_insertAfter (place : Place) (id : LineId) (m : LineMetrics) :
    (insertAfter place id m).toList =
      place.before ++ place.cell.entry :: (id, m) :: place.after := by
  simp [insertAfter, toList_afterInsert, before_pathToFirst, after_pathToFirst, Place.before,
    Place.after, Step.before, Step.after, Cell.entry]

theorem toList_exchange (place : Place) (id : LineId) (m : LineMetrics) :
    (exchange place id m).toList = place.before ++ (id, m) :: place.after := by
  simp [exchange, Place.before, Place.after, Cell.entry]

/-! ### Erasing -/

/-- The rotation that moves the sibling up keeps the order of the lines. -/
theorem toList_turn {t near far far' l r : LineTree} {parent : Step} {sibling sibling' cell' : Cell}
    (sib : parent.sibling = .node sibling l r) (eq : sidewise parent.side l r = (near, far))
    (sameSibling : sibling'.entry = sibling.entry) (sameCell : cell'.entry = parent.cell.entry)
    (sameFar : far'.toList = far.toList) :
    (joinAt parent.side sibling' (joinAt parent.side cell' t near) far').toList =
      parent.before ++ t.toList ++ parent.after := by
  cases side : parent.side <;> simp_all [sidewise, joinAt, Step.before, Step.after]

/-- A rotation around the parent keeps the order of the subtree lacking a node, the parent, the
sibling and the two nephews. -/
theorem toList_settle (t : LineTree) (parent : Step) (rest : Path) :
    (settle t parent rest).toList =
      Path.before (parent :: rest) ++ t.toList ++ Path.after (parent :: rest) := by
  unfold settle
  cases sib : parent.sibling with
  | empty => simp
  | node sibling l r =>
      have repaint : (LineTree.node sibling l r).paint .red = .node (sibling.paint .red) l r := rfl
      cases side : parent.side <;> simp only [sidewise]
      all_goals
        split <;> (try split) <;> (try split) <;>
          simp_all [joinAt, Step.before, Step.after, Step.paint]

/-- A red sibling that moves up keeps the order: what stood in front of the hole stands in front of
it still. -/
theorem before_turned {parent : Step} {sibling : Cell} {l r near far : LineTree}
    (sib : parent.sibling = .node sibling l r) (eq : sidewise parent.side l r = (near, far)) :
    Step.before ⟨parent.side, sibling.paint .black, far⟩ ++
      Step.before { parent.paint .red with sibling := near } = parent.before := by
  cases h : parent.side <;> simp_all [sidewise, Step.before, Step.paint]

theorem after_turned {parent : Step} {sibling : Cell} {l r near far : LineTree}
    (sib : parent.sibling = .node sibling l r) (eq : sidewise parent.side l r = (near, far)) :
    Step.after { parent.paint .red with sibling := near } ++
      Step.after ⟨parent.side, sibling.paint .black, far⟩ = parent.after := by
  cases h : parent.side <;> simp_all [sidewise, Step.after, Step.paint]

theorem toList_afterErase (t : LineTree) (path : Path) :
    (afterErase t path).toList = Path.before path ++ t.toList ++ Path.after path := by
  fun_induction afterErase t path with
  | case1 t => simp
  | case2 t parent rest sib => simp
  | case3 t parent rest sibling l r sib near far side red parent₁ parent₂ above₁ above₂ =>
      rw [toList_settle, Path.before_cons, Path.before_cons, Path.after_cons, Path.after_cons,
        Step.before_refresh, Step.after_refresh, Step.before_refresh, Step.after_refresh,
        Path.before_cons, Path.after_cons, ← before_turned sib side, ← after_turned sib side]
      simp only [List.append_assoc, parent₁, above₁]
  | case4 t parent rest sibling l r sib near far side red black ih =>
      have before := Step.before_sibling (s := parent) (toList_paint parent.sibling .red)
      have after := Step.after_sibling (s := parent) (toList_paint parent.sibling .red)
      rw [ih, Step.toList_fill, before, after]
      simp
  | case5 t parent rest sibling l r sib near far side red other =>
      exact toList_settle t parent rest

theorem toList_unlink (cell : Cell) (child : LineTree) (path : Path) :
    (unlink cell child path).toList = Path.before path ++ child.toList ++ Path.after path := by
  unfold unlink
  split <;> simp [toList_afterErase]

/-- The first node of a tree has nothing in front of it within the tree. -/
theorem firstPlace_eq_some {t : LineTree} {path path' : Path} {cell : Cell} {r : LineTree}
    (found : t.firstPlace path = some (cell, r, path')) :
    Path.fill path' (.node cell .empty r) = Path.fill path t ∧
      Path.before path' = Path.before path ∧
      cell.entry :: r.toList ++ Path.after path' = t.toList ++ Path.after path := by
  fun_induction firstPlace t path with
  | case1 => cases found
  | case2 path cell' r' => cases found; simp
  | case3 path cell' r' l notEmpty ih =>
      obtain ⟨tree, before, after⟩ := ih found
      refine ⟨tree, ?_, ?_⟩
      · simpa [Step.before] using before
      · simpa [Step.after] using after

theorem firstPlace_ne_none {t : LineTree} {path : Path} (notEmpty : t ≠ .empty) :
    t.firstPlace path ≠ none := by
  fun_induction firstPlace t path with
  | case1 => exact absurd rfl notEmpty
  | case2 => simp
  | case3 path cell r l left ih => exact ih (by simpa using left)

/-- What stands around an identity is given by the list of lines, if no identity occurs twice. -/
theorem append_cons_inj {xs xs' ys ys' : List (LineId × LineMetrics)} {id : LineId}
    {m m' : LineMetrics} (distinct : ((xs ++ (id, m) :: ys).map (·.1)).Nodup)
    (same : xs ++ (id, m) :: ys = xs' ++ (id, m') :: ys') : xs = xs' ∧ m = m' ∧ ys = ys' := by
  induction xs generalizing xs' with
  | nil =>
      cases xs' with
      | nil => simpa using same
      | cons x xs' =>
          simp only [List.nil_append, List.cons_append, List.cons.injEq] at same
          simp [same.2] at distinct
  | cons x xs ih =>
      cases xs' with
      | nil =>
          simp only [List.nil_append, List.cons_append, List.cons.injEq] at same
          simp [same.1] at distinct
      | cons x' xs' =>
          simp only [List.cons_append, List.cons.injEq] at same
          simp only [List.cons_append, List.map_cons, List.nodup_cons] at distinct
          obtain ⟨rfl, metrics, rest⟩ := ih distinct.2 same.2
          exact ⟨by rw [same.1], metrics, rest⟩

/-- Erasing takes one line out. The line that follows keeps its identity, also where it moves up
into the place of the one erased. -/
theorem toList_erase {place : Place} (distinct : (place.toTree.toList.map (·.1)).Nodup) :
    (erase place).toList = place.before ++ place.after := by
  unfold erase
  split
  · next left => simp [toList_unlink, Place.before, Place.after, left]
  · next right _ => simp [toList_unlink, Place.before, Place.after, right]
  · next leftSome rightSome =>
      split
      · next notFound =>
          exact absurd notFound (firstPlace_ne_none rightSome)
      · next next child path found =>
          obtain ⟨-, before, after⟩ := firstPlace_eq_some found
          -- Once the next line is unlinked, the line to be erased has the rest directly behind it.
          have unlinked : (unlink next child path).toList =
              place.before ++ place.cell.entry :: (child.toList ++ Path.after path) := by
            simp [toList_unlink, before, Place.before, Step.before]
          have whole : place.after = next.entry :: (child.toList ++ Path.after path) := by
            rw [Place.after]
            simpa [Step.after] using after.symm
          have distinct' : ((unlink next child path).toList.map (·.1)).Nodup := by
            rw [Place.toList_toTree, whole] at distinct
            rw [unlinked]
            exact distinct.sublist (by simp)
          dsimp only
          cases located : (unlink next child path).locate place.cell.id with
          | none =>
              have present : place.cell.id ∈ (unlink next child path).toList.map (·.1) := by
                simp [unlinked, Cell.entry]
              exact absurd present (locate_eq_none_iff.mp located)
          | some moved =>
              have there := toList_of_locate located
              obtain ⟨front, -, rest⟩ :=
                append_cons_inj (unlinked ▸ distinct') (unlinked.symm.trans there)
              simp only [toList_exchange]
              rw [← front, ← rest, whole, Cell.entry]

/-! ### Building -/

/-- A tree with enough levels holds all the lines. -/
theorem toList_build {h : Nat} {lines : List (LineId × LineMetrics)} (fits : lines.length < 2 ^ h) :
    (build h lines).toList = lines := by
  induction h generalizing lines with
  | zero =>
      obtain rfl : lines = [] := List.eq_nil_of_length_eq_zero (by omega)
      rfl
  | succ h ih =>
      have whole := List.take_append_drop (lines.length / 2) lines
      have lengths := congrArg List.length whole
      rw [List.length_append] at lengths
      have half : (lines.take (lines.length / 2)).length = lines.length / 2 := by
        rw [List.length_take]; omega
      rw [Nat.pow_succ] at fits
      unfold build
      split
      · next rest =>
          simp only [rest, List.length_nil] at lengths
          exact (List.eq_nil_of_length_eq_zero (by omega)).symm
      · next id m after rest =>
          simp only [rest, List.length_cons] at lengths
          rw [toList_join, ih (by omega), ih (by omega)]
          simpa [rest, Cell.entry] using whole

theorem lt_two_pow_levels (n : Nat) : n < 2 ^ levels n := by
  unfold levels
  split
  · next zero => simp [zero]
  · next pos => exact Nat.lt_log2_self

theorem toList_ofList (lines : List (LineId × LineMetrics)) : (ofList lines).toList = lines := by
  simp [ofList, toList_build (lt_two_pow_levels _)]

end LineTree

end CodeEditor

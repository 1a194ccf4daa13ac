import CodeEditor.Proofs.Arena.Inserting
import CodeEditor.Proofs.Arena.Removing
import Mathlib.Algebra.Order.BigOperators.Group.List
import Mathlib.Algebra.Order.Ring.Nat

/-!
Unlinking a node in memory.

A node with one child is cut out (`Laid.splice`). A node with two is replaced by the one that
follows it, which is cut out first and then takes over all its links (`Laid.substitute`). Both leave
the slot of the node as it was but for its parent, and everything else as `LineTree.erase` has it
(`Laid.unlink`).
-/

namespace CodeEditor

theorem Addressable.sublist {xs ys : List (LineId × LineMetrics)} (small : Addressable ys)
    (sub : xs.Sublist ys) : Addressable xs := by
  obtain ⟨length, count⟩ := small
  have shorter := sub.length_le
  have less : lengthOf xs ≤ lengthOf ys := (sub.map _).sum_le_sum fun _ _ => Nat.zero_le _
  exact ⟨by omega, by omega⟩

/-- Without a node there are fewer lines. -/
theorem Addressable.cut {path : Path} {side : Side} {cell : Cell} {child : LineTree}
    (small : Addressable (Path.fill path (Step.fill ⟨side, cell, .empty⟩ child)).toList) :
    Addressable (Path.before path ++ child.toList ++ Path.after path) := by
  rw [Path.toList_fill, Step.toList_fill] at small
  refine small.sublist ?_
  simp

/-- Erasing a line with two subtrees exchanges it for the next line, which was unlinked. -/
theorem LineTree.erase_eq_exchange (place : Place) {next : Cell} {child : LineTree} {path : Path}
    (leftSome : place.left ≠ .empty) (rightSome : place.right ≠ .empty)
    (found : place.right.firstPlace (⟨.right, place.cell, place.left⟩ :: place.path) =
      some (next, child, path)) :
    ∃ moved, (unlink next child path).locate place.cell.id = some moved ∧
      erase place = exchange moved next.id next.metrics := by
  obtain ⟨-, before, -⟩ := firstPlace_eq_some found
  have present : place.cell.id ∈ (unlink next child path).toList.map (·.1) := by
    rw [toList_unlink, before]
    simp [Step.before, Cell.entry]
  cases located : (unlink next child path).locate place.cell.id with
  | none => exact absurd present (locate_eq_none_iff.mp located)
  | some moved =>
      refine ⟨moved, rfl, ?_⟩
      unfold erase
      split
      · next empty => exact absurd empty leftSome
      · next empty _ => exact absurd empty rightSome
      · next => simp only [found, located]

namespace LineArena

variable {a base : LineArena} {path rest : Path} {t child : LineTree} {side : Side} {cell : Cell}
  {i : Nat}

/-- Writing a slot outside the tree. -/
theorem Laid.rebase {base' : LineArena} (laid : Laid base path t a)
    (same : ∀ i ∉ t.slots ++ Path.slots path, base'.slots[i]? = base.slots[i]?)
    (free : base'.free = base.free) (size : base'.slots.size = base.slots.size) :
    Laid base' path t a :=
  ⟨laid.around, laid.spells, laid.nodup, laid.free.trans free.symm, laid.size.trans size.symm,
    fun i out => (laid.others i out).trans (same i out).symm⟩

/-- Cutting out a node with at most one child. -/
theorem Laid.cut (laid : Laid base (⟨side, cell, .empty⟩ :: path) child a) :
    Yields (a.replaceNode cell.id.slot child.slot?)
      (base.written cell.id.slot fun _ => cell.slot side none child.slot? none) path child := by
  obtain ⟨⟨here, -, above⟩, spells, nodup, free, size, others⟩ := laid
  obtain ⟨childNodup, pathNodup, apart⟩ := List.nodup_append.mp nodup
  obtain ⟨out, pathNodup⟩ := List.nodup_cons.mp pathNodup
  rw [LineTree.slots_empty, List.nil_append] at out pathNodup
  dsimp only at here above out
  rw [show LineTree.empty.slot? = none from rfl] at here
  have outChild : cell.id.slot ∉ child.slots := fun mem => apart _ mem _ List.mem_cons_self rfl
  have apart : ∀ i ∈ child.slots, i ∉ Path.slots path :=
    fun i mem up => apart i mem i (List.mem_cons_of_mem _ up) rfl
  have found : ∀ n, child.slot? = some n → n ∉ Path.slots path ∧ ∃ s, a.slots[n]? = some s := by
    intro n root
    refine ⟨apart n (LineTree.mem_slots_of_slot? root), ?_⟩
    exact ⟨_, Array.getElem?_eq_getElem (spells.slot?_lt root)⟩
  obtain ⟨a₁, around, free₁, size₁, same, replaced⟩ := above.replace pathNodup out here rfl found
  let a₂ := (a₁.writtenAt child.slot? fun s => { s with parent := Path.parent? path }).written
    cell.id.slot fun s => { s with parent := none }
  -- Besides the node itself only the root of the child is written.
  have still : ∀ j, cell.id.slot ≠ j → child.slot? ≠ some j → a₂.slots[j]? = a₁.slots[j]? := by
    intro j node root
    simp [a₂, node, root]
  have childOut : child.slot? ≠ some cell.id.slot :=
    fun root => outChild (LineTree.mem_slots_of_slot? root)
  refine ⟨a₂, replaced, ?_, ?_, ?_, ?_, ?_, ?_⟩
  · refine around.frame (fun j mem => still j (ne_of_mem_of_not_mem mem out).symm ?_)
      (by simp [a₂])
    exact fun root => apart j (LineTree.mem_slots_of_slot? root) mem
  · refine spells.reparent childNodup (fun j root => ?_) fun j mem other => ?_
    · have mem := LineTree.mem_slots_of_slot? root
      have node := (ne_of_mem_of_not_mem mem outChild).symm
      simp [a₂, node, root, same j (apart j mem)]
    · rw [still j (ne_of_mem_of_not_mem mem outChild).symm other, same j (apart j mem)]
  · exact List.nodup_append.mpr ⟨childNodup, pathNodup, fun i mem j up same =>
      apart i mem (same ▸ up)⟩
  · simp [a₂, free₁, free]
  · simp [a₂, size₁, size]
  · intro j outside
    rw [List.mem_append, not_or] at outside
    by_cases node : cell.id.slot = j
    · subst node
      rw [getElem?_written_self (size ▸ lt_size here)]
      simp [a₂, childOut, same _ out, here]
    · rw [still j node fun root => outside.1 (LineTree.mem_slots_of_slot? root),
        same j outside.2, getElem?_written, if_neg node]
      refine others j ?_
      simp [outside.1, outside.2, Ne.symm node]

/-- The only child of a node, whichever it is. -/
theorem or_eq {up link : Option Nat} :
    (cell.slot side up link none).left.or (cell.slot side up link none).right = link := by
  cases side with
  | left => exact Option.or_none
  | right => rfl

theorem parent?_refresh (path : Path) (sub : Summary) :
    Path.parent? (Path.refresh path sub) = Path.parent? path := by
  cases path <;> rfl

/-- Taking a node with at most one child out of the tree. -/
theorem Laid.splice {color : Color} {n : Nat}
    (laid : Laid base (⟨side, cell, .empty⟩ :: path) child a)
    (node : (LineTree.node cell .empty child).Balanced color n ∨
      (LineTree.node cell child .empty).Balanced color n)
    (hp : Path.Balanced path color n) (hc : child.Summed) (siblings : Path.SiblingsSummed path)
    (small : Addressable (Path.before path ++ child.toList ++ Path.after path)) :
    Yields (a.splice cell.id.slot) (base.written cell.id.slot fun _ =>
      cell.slot side none child.slot? none) [] (LineTree.unlink cell child path) := by
  rw [LineArena.splice]
  refine .read laid.parent ?_
  rw [show Step.sibling ⟨side, cell, .empty⟩ = .empty from rfl,
    show LineTree.empty.slot? = none from rfl]
  rw [or_eq]
  refine laid.cut.bind fun a₁ laid₁ => ?_
  refine (laid₁.updateToRoot hc.sums siblings small).bind fun a₂ laid₂ => ?_
  rw [Cell.color_slot]
  unfold LineTree.unlink
  rcases LineTree.balanced_child node with ⟨red, -, -⟩ | ⟨black, rfl, b, k, rfl, balanced⟩
  · rw [if_neg (by simp [red])]
    simp only [red]
    exact laid₂.yields.refocus rfl
  · rw [if_pos black, laid₂.spells.color, Option.bind_eq_bind, Option.bind_some]
    simp only [black]
    cases color : child.color with
    | red =>
        rw [if_pos rfl]
        exact (laid₂.paint .black).refocus rfl
    | black =>
        rw [if_neg (by decide), Cell.parent_slot, ← parent?_refresh path child.summary]
        refine laid₂.fixAfterRemove (balanced.black_of_ne (by simp [color])) (hp.refresh _) hc
          (siblings.refresh hc.sums) ?_
        rw [Path.toList_fill, Path.before_refresh, Path.after_refresh]
        exact small

/-! ### Taking over the links of a node -/

/-- An arena in which a node has the place of another, but for the link from above. -/
def substituted (a : LineArena) (node new : Nat) (up left right : Option Nat) (color : Color) :
    LineArena :=
  ((((((a.writtenAt (some new) fun s => { s with parent := up }).written node
    fun s => { s with parent := none }).written new fun s => { s with left }).writtenAt left
    fun s => { s with parent := some new }).written new fun s => { s with right }).writtenAt right
    fun s => { s with parent := some new }).written new fun s => { s with color }

/-- What is written besides the two nodes. -/
theorem getElem?_substituted {node new j : Nat} {up left right : Option Nat} {color : Color}
    (nodeOut : node ≠ j) (newOut : new ≠ j) :
    (a.substituted node new up left right color).slots[j]? =
      if left = some j ∨ right = some j then
        a.slots[j]?.map fun s => { s with parent := some new }
      else a.slots[j]? := by
  by_cases onLeft : left = some j <;> by_cases onRight : right = some j <;>
    simp [substituted, nodeOut, newOut, onLeft, onRight, Function.comp_def]

/-- All the links are written before the sums are made fresh. -/
theorem substitute_eq {a₁ : LineArena} {node new : Nat} {up : Option Nat} {s : Slot}
    (apart : new ≠ node)
    (replaced : a.replaceNode node (some new) =
      some ((a₁.writtenAt (some new) fun s => { s with parent := up }).written node
        fun s => { s with parent := none }))
    (here : a₁.slots[node]? = some s) (newSize : new < a₁.slots.size)
    (leftSize : ∀ i, s.left = some i → i < a₁.slots.size)
    (rightSize : ∀ i, s.right = some i → i < a₁.slots.size) :
    a.substitute node new =
      (a₁.substituted node new up s.left s.right s.color).updateToRoot (some new) := by
  have read : ((a₁.writtenAt (some new) fun s => { s with parent := up }).written node
      fun s => { s with parent := none }).slot node = some { s with parent := none } := by
    simp [LineArena.slot, here, apart]
  rw [LineArena.substitute, replaced]
  dsimp only [bind, Option.bind]
  rw [read]
  dsimp only
  rw [write_eq (by simpa using newSize)]
  dsimp only
  rw [writeAt_eq (by simpa using leftSize)]
  dsimp only
  rw [write_eq (by simpa using newSize)]
  dsimp only
  rw [writeAt_eq (by simpa using rightSize)]
  dsimp only
  rw [write_eq (by simpa using newSize)]
  rfl

section

variable {l r : LineTree} {new : Cell} {side' : Side} {up' near' far' : Option Nat}

/-- The links that are written when a node takes the place of another. -/
theorem Laid.relinkAll (laid : Laid base path (.node cell l r) a)
    (there : a.slots[new.id.slot]? = some (new.slot side' up' near' far'))
    (out : new.id.slot ∉ (LineTree.node cell l r).slots ++ Path.slots path) :
    ∃ a₁, Laid (base.written cell.id.slot fun _ => cell.slot .left none l.slot? r.slot?) path
        (.node (new.paint cell.color) l r) a₁ ∧
      a.substitute cell.id.slot new.id.slot = a₁.updateToRoot (some new.id.slot) := by
  obtain ⟨around, ⟨here, left, right⟩, nodup, free, size, others⟩ := laid
  have distinct := List.nodup_cons.mpr ⟨out, nodup⟩
  have perm : (new.id.slot :: ((LineTree.node cell l r).slots ++ Path.slots path)).Perm
      (new.id.slot :: cell.id.slot :: (l.slots ++ (r.slots ++ Path.slots path))) := by simp
  have distinct := perm.nodup_iff.mp distinct
  simp only [List.nodup_cons, List.mem_cons, List.mem_append, not_or] at distinct
  obtain ⟨⟨apart, newLeft, newRight, newPath⟩, ⟨nodeLeft, nodeRight, nodePath⟩, trees⟩ := distinct
  obtain ⟨leftNodup, restNodup, leftApart⟩ := List.nodup_append.mp trees
  obtain ⟨rightNodup, pathNodup, rightApart⟩ := List.nodup_append.mp restNodup
  have found : ∀ n, some new.id.slot = some n → n ∉ Path.slots path ∧ ∃ s,
      a.slots[n]? = some s := by
    rintro n ⟨⟩
    exact ⟨newPath, _, there⟩
  obtain ⟨a₁, around₁, free₁, size₁, same, replaced⟩ :=
    around.replace pathNodup nodePath here rfl found
  let a₂ := a₁.substituted cell.id.slot new.id.slot (Path.parent? path) l.slot? r.slot? cell.color
  have newLeft' : l.slot? ≠ some new.id.slot := fun root =>
    newLeft (LineTree.mem_slots_of_slot? root)
  have newRight' : r.slot? ≠ some new.id.slot :=
    fun root => newRight (LineTree.mem_slots_of_slot? root)
  have nodeLeft' : l.slot? ≠ some cell.id.slot :=
    fun root => nodeLeft (LineTree.mem_slots_of_slot? root)
  have nodeRight' : r.slot? ≠ some cell.id.slot :=
    fun root => nodeRight (LineTree.mem_slots_of_slot? root)
  have newSlot : a₂.slots[new.id.slot]? =
      some ((new.paint cell.color).slot .left (Path.parent? path) l.slot? r.slot?) := by
    have there := (same _ newPath).trans there
    simp [a₂, substituted, there, newLeft', newRight', Ne.symm apart]
    rfl
  have nodeSlot : a₂.slots[cell.id.slot]? = some (cell.slot .left none l.slot? r.slot?) := by
    have here := (same _ nodePath).trans here
    simp [a₂, substituted, here, nodeLeft', nodeRight', apart]
  have still {is : List Nat} (newOut : new.id.slot ∉ is) (nodeOut : cell.id.slot ∉ is)
      (leftOut : ∀ i ∈ l.slots, i ∉ is) (rightOut : ∀ i ∈ r.slots, i ∉ is) :
      ∀ j ∈ is, a₂.slots[j]? = a₁.slots[j]? := by
    intro j mem
    rw [getElem?_substituted (ne_of_mem_of_not_mem mem nodeOut).symm
      (ne_of_mem_of_not_mem mem newOut).symm, if_neg]
    rintro (root | root)
    · exact leftOut j (LineTree.mem_slots_of_slot? root) mem
    · exact rightOut j (LineTree.mem_slots_of_slot? root) mem
  have leftPath : ∀ i ∈ l.slots, i ∉ Path.slots path :=
    fun i mem up => leftApart i mem i (List.mem_append_right _ up) rfl
  have rightPath : ∀ i ∈ r.slots, i ∉ Path.slots path :=
    fun i mem up => rightApart i mem i up rfl
  have leftRight : ∀ i ∈ l.slots, i ∉ r.slots :=
    fun i mem other => leftApart i mem i (List.mem_append_left _ other) rfl
  have slots : (LineTree.node (new.paint cell.color) l r).slots =
      l.slots ++ new.id.slot :: r.slots := LineTree.slots_node _ _ _
  refine ⟨a₂, ⟨?_, ⟨?_, ?_, ?_⟩, ?_, ?_, ?_, ?_⟩, ?_⟩
  · exact around₁.frame (still newPath nodePath leftPath rightPath) (by simp [a₂, substituted])
  · exact newSlot
  · refine left.reparent leftNodup (fun j root => ?_) fun j mem other => ?_
    · have mem := LineTree.mem_slots_of_slot? root
      rw [getElem?_substituted (ne_of_mem_of_not_mem mem nodeLeft).symm
        (ne_of_mem_of_not_mem mem newLeft).symm, if_pos (.inl root), same j (leftPath j mem)]
      rfl
    · rw [getElem?_substituted (ne_of_mem_of_not_mem mem nodeLeft).symm
        (ne_of_mem_of_not_mem mem newLeft).symm, if_neg, same j (leftPath j mem)]
      rintro (root | root)
      · exact other root
      · exact leftRight j mem (LineTree.mem_slots_of_slot? root)
  · refine right.reparent rightNodup (fun j root => ?_) fun j mem other => ?_
    · have mem := LineTree.mem_slots_of_slot? root
      rw [getElem?_substituted (ne_of_mem_of_not_mem mem nodeRight).symm
        (ne_of_mem_of_not_mem mem newRight).symm, if_pos (.inr root), same j (rightPath j mem)]
      rfl
    · rw [getElem?_substituted (ne_of_mem_of_not_mem mem nodeRight).symm
        (ne_of_mem_of_not_mem mem newRight).symm, if_neg, same j (rightPath j mem)]
      rintro (root | root)
      · exact leftRight j (LineTree.mem_slots_of_slot? root) mem
      · exact other root
  · rw [slots, List.append_assoc, List.cons_append, List.perm_middle.nodup_iff]
    exact List.nodup_cons.mpr ⟨by simp [newLeft, newRight, newPath], trees⟩
  · simp [a₂, substituted, free₁, free]
  · simp [a₂, substituted, size₁, size]
  · intro j outside
    rw [slots] at outside
    simp only [List.mem_append, List.mem_cons, not_or] at outside
    obtain ⟨⟨outLeft, outNew, outRight⟩, outPath⟩ := outside
    by_cases node : cell.id.slot = j
    · subst node
      rw [getElem?_written_self (size ▸ lt_size here)]
      exact nodeSlot
    · rw [getElem?_written, if_neg node, getElem?_substituted node (Ne.symm outNew), if_neg,
        same j outPath]
      · exact others j (by simp [outLeft, outRight, outPath, Ne.symm node])
      · rintro (root | root)
        · exact outLeft (LineTree.mem_slots_of_slot? root)
        · exact outRight (LineTree.mem_slots_of_slot? root)
  · have run := substitute_eq apart replaced ((same _ nodePath).trans here)
      (lt_size ((same _ newPath).trans there)) (fun i root => size₁ ▸ left.slot?_lt root)
      fun i root => size₁ ▸ right.slot?_lt root
    exact run

/-- A node takes the place of another. -/
theorem Laid.substitute (laid : Laid base path (.node cell l r) a)
    (there : a.slots[new.id.slot]? = some (new.slot side' up' near' far'))
    (out : new.id.slot ∉ (LineTree.node cell l r).slots ++ Path.slots path)
    (hl : l.Summed) (hr : r.Summed) (siblings : Path.SiblingsSummed path)
    (small : Addressable
      (LineTree.exchange ⟨cell, l, r, path⟩ new.id new.metrics).toList) :
    Yields (a.substitute cell.id.slot new.id.slot)
      (base.written cell.id.slot fun _ => cell.slot .left none l.slot? r.slot?) []
      (LineTree.exchange ⟨cell, l, r, path⟩ new.id new.metrics) := by
  obtain ⟨a₁, laid₁, run⟩ := laid.relinkAll there out
  rw [run]
  rcases laid₁.updateFrom_cases hl hr siblings with ⟨-, yields⟩ | ⟨big, -⟩
  · exact yields
  · exact absurd small big

end

/-! ### Unlinking -/

/-- The first node below a node is the leftmost. -/
theorem Laid.leftmostIn_firstPlace {next : Cell} {path' : Path} {steps : Nat}
    (laid : Laid base path t a) (root : t.slot? = some i)
    (found : t.firstPlace path = some (next, child, path')) (enough : t.slots.length ≤ steps) :
    LineArena.leftmostIn steps a i = some next.id.slot := by
  fun_induction LineTree.firstPlace t path generalizing i steps with
  | case1 => cases root
  | case2 path cell r =>
      cases root
      cases found
      rw [LineTree.slots_node, List.length_append, List.length_cons] at enough
      obtain ⟨steps, rfl⟩ := Nat.exists_eq_add_one_of_ne_zero (show steps ≠ 0 by omega)
      rw [LineArena.leftmostIn, laid.slot]
      rfl
  | case3 cell l r path notEmpty ih =>
      cases root
      rw [LineTree.slots_node, List.length_append, List.length_cons] at enough
      obtain ⟨steps, rfl⟩ := Nat.exists_eq_add_one_of_ne_zero (show steps ≠ 0 by omega)
      rw [LineArena.leftmostIn, laid.slot]
      cases l with
      | empty => exact (notEmpty rfl).elim
      | node below l' r' =>
          have inside : Laid base (⟨.left, cell, r⟩ :: path) (.node below l' r') a :=
            laid_cons_iff.mpr laid
          exact ih inside rfl found (by omega)

theorem Laid.leftmost_firstPlace {next : Cell} {path' : Path} (laid : Laid base path t a)
    (root : t.slot? = some i) (found : t.firstPlace path = some (next, child, path')) :
    a.leftmost i = some next.id.slot :=
  laid.leftmostIn_firstPlace root found (Nat.le_trans (Nat.le_add_right _ _) laid.length_le)

/-- The node that is found on the way to the left has no left child. -/
theorem left_of_leftmostIn {i j steps : Nat} (found : leftmostIn steps a i = some j) :
    ∃ s, a.slot j = some s ∧ s.left = none := by
  induction steps generalizing i with
  | zero => cases found
  | succ steps ih =>
      rw [leftmostIn, Option.bind_eq_bind, Option.bind_eq_some_iff] at found
      obtain ⟨s, there, found⟩ := found
      cases left : s.left with
      | none =>
          rw [left] at found
          cases found
          exact ⟨s, there, left⟩
      | some below =>
          rw [left] at found
          exact ih found

/-- Taking out the node that is found on the way to the left needs no other node, so that unlinking
a node with two children is to unlink the next one and to substitute it. -/
theorem unlink_eq (a : LineArena) (node : Nat) :
    a.unlink node = (do
      let s ← a.slot node
      match s.left, s.right with
      | some _, some right =>
          let next ← a.leftmost right
          let a ← a.unlink next
          a.substitute node next
      | _, _ => a.splice node) := by
  rw [unlink]
  refine congrArg (a.slot node >>= ·) (funext fun s => ?_)
  cases s.left with
  | none => rfl
  | some left =>
      cases s.right with
      | none => rfl
      | some right =>
          show (a.leftmost right >>= _) = (a.leftmost right >>= _)
          cases found : a.leftmost right with
          | none => rfl
          | some next =>
              obtain ⟨s, there, left⟩ := left_of_leftmostIn found
              have only : a.unlink next = a.splice next := by
                rw [unlink, there, Option.bind_eq_bind, Option.bind_some, left]
              show (a.splice next >>= _) = (a.unlink next >>= _)
              rw [only]

/-- A node with at most one child is cut out. -/
theorem Laid.unlink_eq_splice (laid : Laid base (⟨side, cell, .empty⟩ :: path) child a) :
    a.unlink cell.id.slot = a.splice cell.id.slot := by
  rw [LineArena.unlink, show a.slot cell.id.slot = _ from laid.parent]
  dsimp only [bind, Option.bind]
  cases side with
  | left => cases child <;> rfl
  | right => rfl

/-- Different slots are those of different lines. -/
theorem Laid.distinct (laid : Laid base path t a) :
    ((Path.fill path t).toList.map (·.1)).Nodup := by
  have slots : (Path.fill path t).slots.Nodup := (slots_fill path t).nodup_iff.mpr laid.nodup
  exact List.Pairwise.of_map (·.slot) (fun a b other same => other (same ▸ rfl)) slots

/-- The slot of a node that is cut out is no longer in the tree. -/
theorem Laid.cut_out (laid : Laid base (⟨side, cell, .empty⟩ :: path) child a) :
    cell.id.slot ∉ (LineTree.unlink cell child path).slots := by
  have same : (LineTree.unlink cell child path).slots = (Path.fill path child).slots :=
    congrArg LineStore.slotsOf
      ((LineTree.toList_unlink cell child path).trans (Path.toList_fill path child).symm)
  have nodup := laid.nodup
  rw [Path.slots_cons, List.perm_middle.nodup_iff] at nodup
  rw [same, (slots_fill path child).mem_iff]
  exact (List.nodup_cons.mp nodup).1

/-- A node with two children is replaced by the one that follows it. -/
theorem Laid.unlink_inner {left right : LineTree} {color : Color} {n : Nat}
    (laid : Laid base path (.node cell left right) a)
    (node : (LineTree.node cell left right).Balanced color n) (hp : Path.Balanced path color n)
    (summed : (LineTree.node cell left right).Summed) (siblings : Path.SiblingsSummed path)
    (small : Addressable (Path.fill path (.node cell left right)).toList)
    (leftSome : left ≠ .empty) (rightSome : right ≠ .empty) :
    ∃ (cell' : Cell) (side : Side) (near far : Option Nat), cell'.id = cell.id ∧
      Yields (a.unlink cell.id.slot)
        (base.written cell.id.slot fun _ => cell'.slot side none near far) []
        (LineTree.erase ⟨cell, left, right, path⟩) := by
  have lines := @LineTree.toList_erase ⟨cell, left, right, path⟩ laid.distinct
  have below : Laid base (⟨.right, cell, left⟩ :: path) right a := laid_cons_iff.mpr laid
  cases found : right.firstPlace (⟨.right, cell, left⟩ :: path) with
  | none => exact absurd found (LineTree.firstPlace_ne_none rightSome)
  | some first =>
      obtain ⟨next, child, path'⟩ := first
      obtain ⟨whole, -, -⟩ := LineTree.firstPlace_eq_some found
      obtain ⟨b, j, rightBalanced, pathBalanced⟩ := node.right hp
      obtain ⟨c, k, first, above⟩ := rightBalanced.firstPlace pathBalanced found
      have beside : Path.SiblingsSummed (⟨.right, cell, left⟩ :: path) :=
        Path.siblingsSummed_cons_iff.mpr ⟨summed.2.1, siblings⟩
      obtain ⟨hc, siblings'⟩ := summed.2.2.firstPlace beside found
      have cutLaid : Laid base (⟨.right, next, .empty⟩ :: path') child a :=
        below.refocus whole
      -- The next node is cut out.
      have cutSmall :
          Addressable (Path.fill path' (Step.fill ⟨.right, next, .empty⟩ child)).toList :=
        whole ▸ small
      obtain ⟨a₁, run₁, laid₁⟩ := cutLaid.splice (.inl first) above hc siblings' cutSmall.cut
      have out : next.id.slot ∉ (LineTree.unlink next child path').slots := cutLaid.cut_out
      have run : a.unlink cell.id.slot = a₁.substitute cell.id.slot next.id.slot := by
        cases left with
        | empty => exact absurd rfl leftSome
        | node lower l r =>
            cases right with
            | empty => exact absurd rfl rightSome
            | node upper l' r' =>
                rw [LineArena.unlink, laid.slot]
                show (a.leftmost upper.id.slot >>= fun next => a.splice next >>= fun a =>
                  a.substitute cell.id.slot next) = _
                rw [below.leftmost_firstPlace rfl found, Option.bind_eq_bind,
                  Option.bind_some, run₁]
                rfl
      have unlinked : (LineTree.unlink next child path').Summed :=
        LineTree.summed_unlink hc siblings'
      obtain ⟨moved, located, erased⟩ :=
        LineTree.erase_eq_exchange ⟨cell, left, right, path⟩ leftSome rightSome found
      obtain ⟨same, there⟩ := LineTree.locate_eq_some located
      obtain ⟨movedSummed, movedPath⟩ := unlinked.locate located
      have movedLaid : Laid _ moved.path (.node moved.cell moved.left moved.right) a₁ :=
        laid₁.refocus there
      have detached : a₁.slots[next.id.slot]? = some (next.slot .right none child.slot? none) := by
        rw [laid₁.others _ (by simpa using out)]
        exact getElem?_written_self (cutLaid.size ▸ lt_size cutLaid.parent)
      have outMoved : next.id.slot ∉ (LineTree.node moved.cell moved.left moved.right).slots ++
          Path.slots moved.path := by
        rw [← (slots_fill moved.path _).mem_iff, show Path.fill moved.path _ = _ from there]
        exact out
      rw [erased] at lines ⊢
      have fewer : Addressable (LineTree.exchange moved next.id next.metrics).toList := by
        rw [lines]
        refine small.sublist ?_
        rw [show Path.fill path (.node cell left right) = Place.toTree
          ⟨cell, left, right, path⟩ from
          rfl, Place.toList_toTree]
        simp
      obtain ⟨a₂, run₂, laid₂⟩ := movedLaid.substitute detached outMoved movedSummed.2.1
        movedSummed.2.2 movedPath.siblings fewer
      rw [same] at run₂
      refine ⟨moved.cell, .left, moved.left.slot?, moved.right.slot?, same, a₂, run.trans run₂,
        laid₂.rebase (fun i outside => ?_) rfl (by simp)⟩
      -- The slot of the next node is in the tree again.
      have other : next.id.slot ≠ i := by
        rintro rfl
        refine outside (List.mem_append_left _ ?_)
        simp [LineTree.slots, LineStore.slotsOf, LineTree.toList_exchange]
      rw [getElem?_written, getElem?_written, getElem?_written, if_neg other, same]

theorem Laid.unlink {place : Place} {color : Color} {n : Nat}
    (laid : Laid base place.path (.node place.cell place.left place.right) a)
    (node : (LineTree.node place.cell place.left place.right).Balanced color n)
    (hp : Path.Balanced place.path color n)
    (summed : (LineTree.node place.cell place.left place.right).Summed)
    (siblings : Path.SiblingsSummed place.path) (small : Addressable place.toTree.toList) :
    ∃ (cell : Cell) (side : Side) (near far : Option Nat), cell.id = place.cell.id ∧
      Yields (a.unlink place.cell.id.slot)
        (base.written place.cell.id.slot fun _ => cell.slot side none near far) []
        (LineTree.erase place) := by
  obtain ⟨cell, left, right, path⟩ := place
  dsimp only at *
  cases left with
  | empty =>
      have only : Laid base (⟨.right, cell, .empty⟩ :: path) right a := laid_cons_iff.mpr laid
      refine ⟨cell, .right, right.slot?, none, rfl, ?_⟩
      rw [only.unlink_eq_splice]
      exact only.splice (.inl node) hp summed.2.2 siblings
        (@Addressable.cut path .right cell right small)
  | node lower l r =>
      cases right with
      | empty =>
          have only : Laid base (⟨.left, cell, .empty⟩ :: path) (.node lower l r) a :=
            laid_cons_iff.mpr laid
          refine ⟨cell, .left, LineTree.slot? (.node lower l r), none, rfl, ?_⟩
          rw [only.unlink_eq_splice]
          exact only.splice (.inr node) hp summed.2.1 siblings
            (@Addressable.cut path .left cell _ small)
      | node upper l' r' => exact laid.unlink_inner node hp summed siblings small nofun nofun

end LineArena

end CodeEditor

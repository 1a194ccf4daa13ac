import CodeEditor.Line.Arena
import CodeEditor.Proofs.Line.Slots
import CodeEditor.Proofs.Line.Sums
import Mathlib.Data.List.Perm.Subperm

/-!
The line tree and the memory it is laid out in.

`LineArena.Spells` says that the links from a slot downwards spell a tree, `LineArena.Around` that
those around it spell a path. `LineArena.Laid` is both together, for a tree whose slots are all
different, and nothing else in the memory counts for it (`Spells.frame`, `Around.frame`). Whatever
part of a tree is looked at, the memory is the same (`Laid.refocus`), so that each operation is
described where it works.
-/

namespace CodeEditor

/-- The total length and the number of some lines are machine words. -/
def Addressable (lines : List (LineId × LineMetrics)) : Prop :=
  lengthOf lines < wordLimit ∧ lines.length < wordLimit

instance (lines : List (LineId × LineMetrics)) : Decidable (Addressable lines) :=
  inferInstanceAs (Decidable (_ ∧ _))

theorem Addressable.part {xs lines ys : List (LineId × LineMetrics)}
    (small : Addressable (xs ++ lines ++ ys)) : Addressable lines := by
  obtain ⟨length, count⟩ := small
  simp only [lengthOf_append, List.length_append] at length count
  exact ⟨by omega, by omega⟩

/-- Below a path there are no more lines than in all. -/
theorem Addressable.below {path : Path} {t : LineTree}
    (small : Addressable (Path.fill path t).toList) : Addressable t.toList := by
  rw [Path.toList_fill] at small
  exact small.part

/-! ### Trees and their slots -/

/-- The slot of a node that has a parent and two children, the one on the given side first. -/
def Cell.slot (c : Cell) (side : Side) (parent near far : Option Nat) : Slot where
  generation := c.id.generation
  live := true
  parent := parent
  left := match side with | .left => near | .right => far
  right := match side with | .left => far | .right => near
  color := c.color
  metrics := c.metrics
  summary := c.summary

namespace Cell

variable {c : Cell} {side : Side} {parent near far : Option Nat}

@[simp] theorem child_slot : (c.slot side parent near far).child side = near := by
  cases side <;> rfl

@[simp] theorem child_other_slot : (c.slot side parent near far).child side.other = far := by
  cases side <;> rfl

@[simp] theorem setChild_slot (link : Option Nat) :
    (c.slot side parent near far).setChild side link = c.slot side parent link far := by
  cases side <;> rfl

@[simp] theorem setChild_other_slot (link : Option Nat) :
    (c.slot side parent near far).setChild side.other link = c.slot side parent near link := by
  cases side <;> rfl

theorem parent_slot : (c.slot side parent near far).parent = parent := rfl

theorem color_slot : (c.slot side parent near far).color = c.color := rfl

@[simp] theorem reparent_slot (up : Option Nat) :
    { c.slot side parent near far with parent := up } = c.slot side up near far := rfl

end Cell

namespace LineTree

/-- The slot of the root. -/
def slot? : LineTree → Option Nat
  | .empty => none
  | .node cell _ _ => some cell.id.slot

/-- The slots of all nodes. -/
def slots (t : LineTree) : List Nat := LineStore.slotsOf t.toList

@[simp] theorem slots_empty : slots .empty = [] := rfl

@[simp] theorem slots_node (cell : Cell) (l r : LineTree) :
    (node cell l r).slots = l.slots ++ cell.id.slot :: r.slots := by
  simp [slots, LineStore.slotsOf, Cell.entry]

/-- Each slot is that of a line. -/
theorem exists_of_mem_slots {t : LineTree} {i : Nat} (mem : i ∈ t.slots) :
    ∃ line ∈ t.toList, line.1.slot = i := by
  rw [slots, LineStore.slotsOf, List.map_map] at mem
  exact List.mem_map.mp mem

theorem mem_slots_of_slot? {t : LineTree} {i : Nat} (root : t.slot? = some i) : i ∈ t.slots := by
  cases t with
  | empty => cases root
  | node cell l r =>
      cases root
      simp

@[simp] theorem slots_paint (t : LineTree) (color : Color) : (t.paint color).slots = t.slots := by
  rw [slots, toList_paint, slots]

end LineTree

@[simp] theorem Step.slot?_fill (s : Step) (t : LineTree) :
    (s.fill t).slot? = some s.cell.id.slot := by
  obtain ⟨side, cell, sibling⟩ := s
  cases side <;> rfl

theorem Step.summary_fill (s : Step) (t : LineTree) : (s.fill t).summary = s.cell.summary := by
  obtain ⟨side, cell, sibling⟩ := s
  cases side <;> rfl

theorem Step.slots_fill (s : Step) (t : LineTree) :
    (s.fill t).slots.Perm (t.slots ++ s.cell.id.slot :: s.sibling.slots) := by
  obtain ⟨side, cell, sibling⟩ := s
  cases side with
  | left => simp [Step.fill]
  | right =>
      rw [Step.fill, LineTree.slots_node]
      exact List.perm_append_comm.trans (by simpa using List.perm_middle.symm)

namespace Path

/-- The slot of the node above. -/
def parent? (path : Path) : Option Nat := path.head?.map (·.cell.id.slot)

@[simp] theorem parent?_nil : parent? [] = none := rfl

@[simp] theorem parent?_cons (s : Step) (rest : Path) :
    parent? (s :: rest) = some s.cell.id.slot := rfl

/-- The slots of the nodes on a path and beside it. -/
def slots : Path → List Nat
  | [] => []
  | s :: rest => s.cell.id.slot :: (s.sibling.slots ++ slots rest)

@[simp] theorem slots_nil : slots [] = [] := rfl

@[simp] theorem slots_cons (s : Step) (rest : Path) :
    slots (s :: rest) = s.cell.id.slot :: (s.sibling.slots ++ slots rest) := rfl

end Path

namespace LineArena

/-! ### What is spelled -/

/-- The links below a parent spell a tree. -/
def Spells (a : LineArena) : Option Nat → LineTree → Prop
  | _, .empty => True
  | parent, .node cell l r =>
      a.slots[cell.id.slot]? = some (cell.slot .left parent l.slot? r.slot?) ∧
        a.Spells (some cell.id.slot) l ∧ a.Spells (some cell.id.slot) r

/-- The links around a place spell a path, and the last of them leads to the place. -/
def Around (a : LineArena) : Path → Option Nat → Prop
  | [], link => a.root = link
  | s :: rest, link =>
      a.slots[s.cell.id.slot]? =
          some (s.cell.slot s.side (Path.parent? rest) link s.sibling.slot?) ∧
        a.Spells (some s.cell.id.slot) s.sibling ∧ a.Around rest (some s.cell.id.slot)

variable {a a' base : LineArena} {path rest : Path} {t : LineTree} {up link : Option Nat}

/-- What is spelled depends on the slots of the nodes only. -/
theorem Spells.frame (spells : a.Spells up t) (same : ∀ i ∈ t.slots, a'.slots[i]? = a.slots[i]?) :
    a'.Spells up t := by
  induction t generalizing up with
  | empty => trivial
  | node cell l r ihl ihr =>
      obtain ⟨here, left, right⟩ := spells
      exact ⟨(same _ (by simp)).trans here, ihl left fun i mem => same i (by simp [mem]),
        ihr right fun i mem => same i (by simp [mem])⟩

theorem Around.frame (around : a.Around path link)
    (same : ∀ i ∈ Path.slots path, a'.slots[i]? = a.slots[i]?) (root : a'.root = a.root) :
    a'.Around path link := by
  induction path generalizing link with
  | nil => exact root.trans around
  | cons s rest ih =>
      obtain ⟨here, sibling, above⟩ := around
      exact ⟨(same _ (by simp)).trans here,
        sibling.frame fun i mem => same i (by simp [mem]),
        ih above fun i mem => same i (by simp [mem])⟩

theorem spells_fill_iff {s : Step} :
    a.Spells up (s.fill t) ↔
      a.slots[s.cell.id.slot]? = some (s.cell.slot s.side up t.slot? s.sibling.slot?) ∧
        a.Spells (some s.cell.id.slot) s.sibling ∧ a.Spells (some s.cell.id.slot) t := by
  obtain ⟨side, cell, sibling⟩ := s
  cases side with
  | left => exact and_congr_right fun _ => and_comm
  | right => exact Iff.rfl

/-- The slot of each line of a tree is that of its node. -/
theorem Spells.slot_of_mem {line : LineId × LineMetrics} (spells : a.Spells up t)
    (mem : line ∈ t.toList) :
    ∃ (cell : Cell) (parent left right : Option Nat), cell.entry = line ∧
      a.slots[line.1.slot]? = some (cell.slot .left parent left right) := by
  induction t generalizing up with
  | empty => cases mem
  | node cell l r ihl ihr =>
      obtain ⟨here, left, right⟩ := spells
      rw [LineTree.toList_node, List.mem_append, List.mem_cons] at mem
      rcases mem with mem | rfl | mem
      · exact ihl left mem
      · exact ⟨cell, _, _, _, rfl, here⟩
      · exact ihr right mem

theorem Spells.live {i : Nat} (spells : a.Spells up t) (mem : i ∈ t.slots) :
    ∃ slot, a.slots[i]? = some slot ∧ slot.live = true := by
  obtain ⟨line, inside, rfl⟩ := LineTree.exists_of_mem_slots mem
  obtain ⟨cell, parent, left, right, rfl, there⟩ := spells.slot_of_mem inside
  exact ⟨_, there, rfl⟩

/-- The color that is read is that of the tree. -/
theorem Spells.color (spells : a.Spells up t) : a.color t.slot? = some t.color := by
  cases t with
  | empty => rfl
  | node cell l r => exact congrArg (Option.map _) spells.1

theorem Spells.summary (spells : a.Spells up t) : a.summary t.slot? = some t.summary := by
  cases t with
  | empty => rfl
  | node cell l r => exact congrArg (Option.map _) spells.1

/-! ### Trees laid out -/

/-- A tree is laid out within a path. The slots of no node are as in another arena. -/
structure Laid (base : LineArena) (path : Path) (t : LineTree) (a : LineArena) : Prop where
  around : a.Around path t.slot?
  spells : a.Spells (Path.parent? path) t
  /-- No slot is that of two nodes. -/
  nodup : (t.slots ++ Path.slots path).Nodup
  free : a.free = base.free
  size : a.slots.size = base.slots.size
  others : ∀ i ∉ t.slots ++ Path.slots path, a.slots[i]? = base.slots[i]?

theorem slots_step (s : Step) (rest : Path) (t : LineTree) :
    ((s.fill t).slots ++ Path.slots rest).Perm (t.slots ++ Path.slots (s :: rest)) := by
  have step := (s.slots_fill t).append_right (Path.slots rest)
  simpa using step

/-- A tree is laid out below a parent exactly when the parent's tree is. -/
theorem laid_cons_iff {s : Step} : Laid base (s :: rest) t a ↔ Laid base rest (s.fill t) a := by
  have perm := slots_step s rest t
  constructor
  · rintro ⟨⟨here, sibling, above⟩, spells, nodup, free, size, others⟩
    exact ⟨by rwa [Step.slot?_fill], spells_fill_iff.mpr ⟨here, sibling, spells⟩,
      perm.nodup_iff.mpr nodup, free, size, fun i out => others i fun mem =>
        out (perm.mem_iff.mpr mem)⟩
  · rintro ⟨above, spells, nodup, free, size, others⟩
    obtain ⟨here, sibling, spells⟩ := spells_fill_iff.mp spells
    rw [Step.slot?_fill] at above
    exact ⟨⟨here, sibling, above⟩, spells, perm.nodup_iff.mp nodup, free, size,
      fun i out => others i fun mem => out (perm.mem_iff.mp mem)⟩

theorem slots_fill (path : Path) (t : LineTree) :
    (Path.fill path t).slots.Perm (t.slots ++ Path.slots path) := by
  induction path generalizing t with
  | nil => exact .of_eq (List.append_nil _).symm
  | cons s rest ih => exact (ih (s.fill t)).trans (slots_step s rest t)

theorem laid_fill_iff : Laid base path t a ↔ Laid base [] (Path.fill path t) a := by
  induction path generalizing t with
  | nil => exact Iff.rfl
  | cons s rest ih => exact laid_cons_iff.trans ih

/-- The same tree may be looked at from anywhere. -/
theorem Laid.refocus {path' : Path} {t' : LineTree} (laid : Laid base path t a)
    (same : Path.fill path' t' = Path.fill path t) : Laid base path' t' a := by
  rw [laid_fill_iff] at laid ⊢
  rwa [same]

/-- A run ends in an arena in which a tree is laid out within a path. -/
def Yields (run : Checked LineArena) (base : LineArena) (path : Path) (t : LineTree) : Prop :=
  ∃ a, run = some a ∧ Laid base path t a

theorem Yields.bind {run : Checked LineArena} {next : LineArena → Checked LineArena} {path' : Path}
    {t' : LineTree} (first : Yields run base path t)
    (follows : ∀ a, Laid base path t a → Yields (next a) base path' t') :
    Yields (run >>= next) base path' t' := by
  obtain ⟨a, rfl, laid⟩ := first
  exact follows a laid

theorem Yields.refocus {run : Checked LineArena} {path' : Path} {t' : LineTree}
    (yields : Yields run base path t) (same : Path.fill path' t' = Path.fill path t) :
    Yields run base path' t' := by
  obtain ⟨a, eq, laid⟩ := yields
  exact ⟨a, eq, laid.refocus same⟩

theorem Yields.read {s : Slot} {i : Nat} {next : Slot → Checked LineArena}
    (there : a.slot i = some s) (follows : Yields (next s) base path t) :
    Yields (a.slot i >>= next) base path t := by
  rw [there]
  exact follows

theorem Laid.yields (laid : Laid base path t a) : Yields (some a) base path t := ⟨a, rfl, laid⟩

/-! ### Writing a slot -/

/-- An arena with one slot changed. -/
def written (a : LineArena) (i : Nat) (f : Slot → Slot) : LineArena :=
  { a with slots := a.slots.modify i f }

/-- An arena with the slot changed that a link leads to. -/
def writtenAt (a : LineArena) : Option Nat → (Slot → Slot) → LineArena
  | none, _ => a
  | some i, f => a.written i f

section

variable {i j : Nat} {f : Slot → Slot} {s : Slot}

@[simp] theorem getElem?_written :
    (a.written i f).slots[j]? = if i = j then a.slots[j]?.map f else a.slots[j]? :=
  Array.getElem?_modify

theorem getElem?_written_self (inside : i < a.slots.size) :
    (a.written i fun _ => s).slots[i]? = some s := by
  rw [getElem?_written, if_pos rfl, Array.getElem?_eq_getElem inside, Option.map_some]

theorem getElem?_written_of_notMem {is : List Nat} (out : i ∉ is) :
    ∀ j ∈ is, (a.written i f).slots[j]? = a.slots[j]? := by
  intro j mem
  rw [getElem?_written, if_neg (ne_of_mem_of_not_mem mem out).symm]

@[simp] theorem size_written : (a.written i f).slots.size = a.slots.size := Array.size_modify

@[simp] theorem free_written : (a.written i f).free = a.free := rfl

@[simp] theorem root_written : (a.written i f).root = a.root := rfl

@[simp] theorem getElem?_writtenAt :
    (a.writtenAt link f).slots[j]? = if link = some j then a.slots[j]?.map f else a.slots[j]? := by
  cases link with
  | none => simp [writtenAt]
  | some i => simp [writtenAt]

@[simp] theorem size_writtenAt : (a.writtenAt link f).slots.size = a.slots.size := by
  cases link <;> simp [writtenAt]

@[simp] theorem free_writtenAt : (a.writtenAt link f).free = a.free := by
  cases link <;> rfl

@[simp] theorem root_writtenAt : (a.writtenAt link f).root = a.root := by
  cases link <;> rfl

theorem lt_size (there : a.slots[i]? = some s) : i < a.slots.size :=
  (Array.getElem?_eq_some_iff.mp there).1

theorem write_eq (inside : i < a.slots.size) : a.write i f = some (a.written i f) := if_pos inside

theorem writeAt_eq (inside : ∀ i, link = some i → i < a.slots.size) :
    a.writeAt link f = some (a.writtenAt link f) := by
  cases link with
  | none => rfl
  | some i => exact write_eq (inside i rfl)

end

theorem Spells.slot?_lt {i : Nat} (spells : a.Spells up t) (root : t.slot? = some i) :
    i < a.slots.size := by
  cases t with
  | empty => cases root
  | node cell l r =>
      cases root
      exact lt_size spells.1

variable {cell cell' : Cell} {l r : LineTree}

theorem Laid.slot (laid : Laid base path (.node cell l r) a) :
    a.slot cell.id.slot = some (cell.slot .left (Path.parent? path) l.slot? r.slot?) :=
  laid.spells.1

theorem Laid.parent {s : Step} (laid : Laid base (s :: rest) t a) :
    a.slot s.cell.id.slot =
      some (s.cell.slot s.side (Path.parent? rest) t.slot? s.sibling.slot?) :=
  laid.around.1

/-- Two subtrees of a node do not have the same root. -/
theorem Laid.sibling_ne {s : Step} (laid : Laid base (s :: rest) t a) (root : t.slot? = some i) :
    s.sibling.slot? ≠ some i := by
  intro same
  have inside := LineTree.mem_slots_of_slot? root
  have beside := LineTree.mem_slots_of_slot? same
  exact (List.nodup_append.mp laid.nodup).2.2 i inside i (by simp [beside]) rfl

/-- What is read of the root of a tree. -/
theorem Laid.root (laid : Laid base path t a) (root : t.slot? = some i) :
    ∃ s, a.slot i = some s ∧ s.parent = Path.parent? path ∧ s.color = t.color := by
  cases t with
  | empty => cases root
  | node cell l r =>
      cases root
      exact ⟨_, laid.slot, rfl, rfl⟩

/-- What is read of the parent of a tree that is not empty. -/
theorem Laid.parent_of_root {s : Step} (laid : Laid base (s :: rest) t a)
    (root : t.slot? = some i) :
    a.slot s.cell.id.slot =
      some (s.cell.slot s.side (Path.parent? rest) (some i) s.sibling.slot?) := by
  rw [laid.parent, root]

/-- Writing a slot changes its node. -/
theorem Spells.written {f : Slot → Slot} (spells : a.Spells up (.node cell l r))
    (nodup : (LineTree.node cell l r).slots.Nodup) (same : cell'.id = cell.id)
    (writes : f (cell.slot .left up l.slot? r.slot?) = cell'.slot .left up l.slot? r.slot?) :
    (a.written cell.id.slot f).Spells up (.node cell' l r) := by
  obtain ⟨here, left, right⟩ := spells
  rw [LineTree.slots_node, List.perm_middle.nodup_iff, List.nodup_cons, List.mem_append,
    not_or] at nodup
  obtain ⟨⟨outLeft, outRight⟩, -⟩ := nodup
  refine ⟨?_, ?_, ?_⟩
  · rw [same, getElem?_written, if_pos rfl, here, Option.map_some, writes]
  · rw [same]
    exact left.frame (getElem?_written_of_notMem outLeft)
  · rw [same]
    exact right.frame (getElem?_written_of_notMem outRight)

theorem Laid.write {f : Slot → Slot} (laid : Laid base path (.node cell l r) a)
    (same : cell'.id = cell.id)
    (writes : f (cell.slot .left (Path.parent? path) l.slot? r.slot?) =
      cell'.slot .left (Path.parent? path) l.slot? r.slot?) :
    Yields (a.write cell.id.slot f) base path (.node cell' l r) := by
  obtain ⟨around, spells, nodup, free, size, others⟩ := laid
  obtain ⟨treeNodup, -, apart⟩ := List.nodup_append.mp nodup
  have inside : cell.id.slot ∈ (LineTree.node cell l r).slots := LineTree.mem_slots_of_slot? rfl
  have outPath : cell.id.slot ∉ Path.slots path := fun up => apart _ inside _ up rfl
  have slots : (LineTree.node cell' l r).slots = (LineTree.node cell l r).slots := by simp [same]
  have root : (LineTree.node cell' l r).slot? = some cell.id.slot := by rw [LineTree.slot?, same]
  refine ⟨_, write_eq (lt_size spells.1), ?_, spells.written treeNodup same writes, ?_,
    free, ?_, ?_⟩
  · rw [root]
    exact around.frame (getElem?_written_of_notMem outPath) rfl
  · rwa [slots]
  · rwa [size_written]
  · intro i out
    rw [slots] at out
    rw [getElem?_written, if_neg, others i out]
    rintro rfl
    exact out (List.mem_append_left _ inside)

/-! ### Painting -/

theorem Laid.paint (laid : Laid base path t a) (color : Color) :
    Yields (a.paint t.slot? color) base path (t.paint color) := by
  cases t with
  | empty => exact laid.yields
  | node cell l r => exact laid.write rfl rfl

theorem fill_paint (s : Step) (t : LineTree) (color : Color) :
    (s.paint color).fill t = (s.fill t).paint color := by
  obtain ⟨side, cell, sibling⟩ := s
  cases side <;> rfl

/-- The tree around a place seen from beside it. -/
theorem fill_swap (s : Step) (t : LineTree) :
    Step.fill ⟨s.side.other, s.cell, t⟩ s.sibling = s.fill t := by
  obtain ⟨side, cell, sibling⟩ := s
  cases side <;> rfl

theorem Laid.paint_parent {s : Step} (laid : Laid base (s :: rest) t a) (color : Color) :
    Yields (a.paint (some s.cell.id.slot) color) base (s.paint color :: rest) t := by
  have painted := (laid_cons_iff.mp laid).paint color
  rw [Step.slot?_fill, ← fill_paint] at painted
  exact painted.refocus rfl

theorem Laid.paint_sibling {s : Step} (laid : Laid base (s :: rest) t a) (color : Color) :
    Yields (a.paint s.sibling.slot? color) base
      ({ s with sibling := s.sibling.paint color } :: rest) t := by
  have beside : Laid base (⟨s.side.other, s.cell, t⟩ :: rest) s.sibling a :=
    laid.refocus (congrArg (Path.fill rest) (fill_swap s t))
  refine (beside.paint color).refocus (congrArg (Path.fill rest) ?_)
  exact (fill_swap { s with sibling := s.sibling.paint color } t).symm

/-! ### Sums -/

/-- The sums of a node are machine words when its lines can be addressed, and only then. -/
theorem combine?_eq {left right : Summary} {xs ys : List (LineId × LineMetrics)} {id : LineId}
    {m : LineMetrics} (hl : left.Sums xs) (hr : right.Sums ys) :
    Summary.combine? left right m =
      if Addressable (xs ++ (id, m) :: ys) then some (Summary.combine left right m) else none := by
  have fits : Addressable (xs ++ (id, m) :: ys) ↔
      left.length + right.length + m.totalLength < wordLimit ∧
        left.count + 1 + right.count < wordLimit := by
    rw [Addressable, lengthOf_append, lengthOf_cons, ← hl.length, ← hr.length, List.length_append,
      List.length_cons, ← hl.count, ← hr.count]
    dsimp only
    omega
  split
  · next small =>
      obtain ⟨length, count⟩ := fits.mp small
      have lengths := Checked.add_eq_some_iff.mpr
        ⟨rfl, (show left.length + right.length < wordLimit by omega)⟩
      simp only [Summary.combine?, lengths, Checked.add_eq_some_iff.mpr ⟨rfl, length⟩,
        Checked.add_eq_some_iff.mpr ⟨rfl, count⟩, Option.bind_eq_bind, Option.bind_some]
      rfl
  · next big =>
      refine Option.eq_none_iff_forall_ne_some.mpr fun s run => big (fits.mpr ?_)
      simp only [Summary.combine?, Option.bind_eq_bind, Option.bind_eq_some_iff,
        Checked.add_eq_some_iff] at run
      obtain ⟨_, ⟨rfl, -⟩, _, ⟨rfl, length⟩, _, ⟨rfl, count⟩, -⟩ := run
      exact ⟨length, count⟩

/-- What making the sums of a node fresh writes. -/
theorem Spells.recompute_eq {xs ys : List (LineId × LineMetrics)}
    (spells : a.Spells up (.node cell l r)) (hl : l.summary.Sums xs) (hr : r.summary.Sums ys) :
    a.recompute cell.id.slot =
      if Addressable (xs ++ cell.entry :: ys) then
        a.write cell.id.slot fun s =>
          { s with summary := Summary.combine l.summary r.summary cell.metrics }
      else none := by
  obtain ⟨here, left, right⟩ := spells
  rw [LineArena.recompute, LineArena.slot, here, Option.bind_eq_bind, Option.bind_some]
  show (a.summary l.slot? >>= _) = _
  rw [left.summary, Option.bind_eq_bind, Option.bind_some]
  show (a.summary r.slot? >>= _) = _
  rw [right.summary, Option.bind_eq_bind, Option.bind_some]
  show (Summary.combine? l.summary r.summary cell.metrics >>= _) = _
  rw [combine?_eq hl hr, ← Cell.entry]
  split <;> rfl

/-- Making the sums of a node fresh. -/
theorem Laid.recompute {xs ys : List (LineId × LineMetrics)}
    (laid : Laid base path (.node cell l r) a) (hl : l.summary.Sums xs) (hr : r.summary.Sums ys)
    (small : Addressable (xs ++ cell.entry :: ys)) :
    Yields (a.recompute cell.id.slot) base path (LineTree.join cell l r) := by
  rw [laid.spells.recompute_eq hl hr, if_pos small]
  exact laid.write rfl rfl

/-- A parent is recomputed when the lines below it can be addressed, and only then. -/
theorem Laid.recompute_parent_cases {s : Step} {lines : List (LineId × LineMetrics)}
    (laid : Laid base (s :: rest) t a) (sums : t.summary.Sums lines) (sibling : s.sibling.Summed) :
    Addressable (s.before ++ lines ++ s.after) ∧
        Yields (a.recompute s.cell.id.slot) base (s.refresh t.summary :: rest) t ∨
      ¬Addressable (s.before ++ lines ++ s.after) ∧ a.recompute s.cell.id.slot = none := by
  obtain ⟨side, cell, other⟩ := s
  have parent := laid_cons_iff.mp laid
  cases side with
  | left =>
      have below : Step.before ⟨.left, cell, other⟩ ++ lines ++ Step.after ⟨.left, cell, other⟩ =
          lines ++ cell.entry :: other.toList := by simp [Step.before, Step.after]
      rw [below]
      by_cases small : Addressable (lines ++ cell.entry :: other.toList)
      · exact .inl ⟨small, (Laid.recompute parent sums sibling.sums small).refocus rfl⟩
      · exact .inr ⟨small, (Spells.recompute_eq parent.spells sums sibling.sums).trans
          (if_neg small)⟩
  | right =>
      have below : Step.before ⟨.right, cell, other⟩ ++ lines ++ Step.after ⟨.right, cell, other⟩ =
          other.toList ++ cell.entry :: lines := by simp [Step.before, Step.after]
      rw [below]
      by_cases small : Addressable (other.toList ++ cell.entry :: lines)
      · exact .inl ⟨small, (Laid.recompute parent sibling.sums sums small).refocus rfl⟩
      · exact .inr ⟨small, (Spells.recompute_eq parent.spells sibling.sums sums).trans
          (if_neg small)⟩

/-- Making the sums of a parent fresh. -/
theorem Laid.recompute_parent {s : Step} {lines : List (LineId × LineMetrics)}
    (laid : Laid base (s :: rest) t a) (sums : t.summary.Sums lines) (sibling : s.sibling.Summed)
    (small : Addressable (s.before ++ lines ++ s.after)) :
    Yields (a.recompute s.cell.id.slot) base (s.refresh t.summary :: rest) t := by
  rcases laid.recompute_parent_cases sums sibling with ⟨-, yields⟩ | ⟨big, -⟩
  · exact yields
  · exact absurd small big

/-! ### How many steps a way takes -/

theorem Path.length_le_slots (path : Path) : path.length ≤ (Path.slots path).length := by
  induction path with
  | nil => exact Nat.le_refl 0
  | cons s rest ih =>
      rw [Path.slots_cons, List.length_cons, List.length_cons, List.length_append]
      omega

theorem Around.slots_lt (around : a.Around path link) :
    ∀ i ∈ Path.slots path, i < a.slots.size := by
  induction path generalizing link with
  | nil => exact fun i mem => absurd mem List.not_mem_nil
  | cons s rest ih =>
      obtain ⟨here, sibling, above⟩ := around
      intro i mem
      rw [Path.slots_cons, List.mem_cons, List.mem_append] at mem
      rcases mem with rfl | mem | mem
      · exact LineArena.lt_size here
      · obtain ⟨_, there, -⟩ := sibling.live mem
        exact LineArena.lt_size there
      · exact ih above i mem

/-- A tree and the path to it have no more nodes than there are slots. -/
theorem Laid.length_le (laid : Laid base path t a) :
    t.slots.length + path.length ≤ a.slots.size := by
  have inside : t.slots ++ Path.slots path ⊆ List.range a.slots.size := by
    intro i mem
    rw [List.mem_range]
    rcases List.mem_append.mp mem with mem | mem
    · obtain ⟨_, there, -⟩ := laid.spells.live mem
      exact lt_size there
    · exact laid.around.slots_lt i mem
  have few := (List.subperm_of_subset laid.nodup inside).length_le
  rw [List.length_append, List.length_range] at few
  have := Path.length_le_slots path
  omega

/-- Making the sums fresh along a path in enough steps goes through when all the lines can be
addressed, and only then. -/
theorem Laid.updateToRootIn_cases {lines : List (LineId × LineMetrics)} {steps : Nat}
    (laid : Laid base path t a) (enough : path.length ≤ steps) (sums : t.summary.Sums lines)
    (siblings : Path.SiblingsSummed path) (start : path = [] → Addressable lines) :
    Addressable (Path.before path ++ lines ++ Path.after path) ∧
        Yields (updateToRootIn steps a (Path.parent? path)) base (Path.refresh path t.summary) t ∨
      ¬Addressable (Path.before path ++ lines ++ Path.after path) ∧
        updateToRootIn steps a (Path.parent? path) = none := by
  induction path generalizing t a lines steps with
  | nil =>
      rw [Path.parent?_nil, LineArena.updateToRootIn]
      exact .inl ⟨by simpa using start rfl, laid.yields⟩
  | cons s rest ih =>
      obtain ⟨steps, rfl⟩ := Nat.exists_eq_add_one_of_ne_zero (Nat.ne_zero_of_lt enough)
      have enough : rest.length ≤ steps := Nat.le_of_succ_le_succ enough
      obtain ⟨sibling, siblings⟩ := Path.siblingsSummed_cons_iff.mp siblings
      have fresh := (Step.Summed.refresh sibling sums).sums
      have whole : Path.before (s :: rest) ++ lines ++ Path.after (s :: rest) =
          Path.before rest ++ (s.before ++ lines ++ s.after) ++ Path.after rest := by
        simp
      rw [whole, Path.parent?_cons, LineArena.updateToRootIn]
      rcases laid.recompute_parent_cases sums sibling with ⟨small, a₁, run, laid₁⟩ | ⟨big, run⟩
      · have up : (a₁.slot s.cell.id.slot).map (·.parent) = some (Path.parent? rest) :=
          congrArg (Option.map _) laid₁.parent
        obtain ⟨there, slot, eq⟩ := Option.map_eq_some_iff.mp up
        have next : (a.recompute s.cell.id.slot >>= fun a => a.slot s.cell.id.slot >>=
            fun s => updateToRootIn steps a s.parent) =
              updateToRootIn steps a₁ (Path.parent? rest) := by
          rw [run, Option.bind_eq_bind, Option.bind_some, slot, Option.bind_eq_bind,
            Option.bind_some, eq]
        rw [next]
        have above := ih (laid_cons_iff.mp laid₁) enough ((Step.summary_fill _ t).symm ▸ fresh)
          siblings fun _ => small
        rw [Step.summary_fill] at above
        exact above.imp_left fun yields => ⟨yields.1, yields.2.refocus rfl⟩
      · refine .inr ⟨fun all => big all.part, ?_⟩
        rw [run]
        rfl

theorem Laid.updateToRoot_cases {lines : List (LineId × LineMetrics)} (laid : Laid base path t a)
    (sums : t.summary.Sums lines) (siblings : Path.SiblingsSummed path)
    (start : path = [] → Addressable lines) :
    Addressable (Path.before path ++ lines ++ Path.after path) ∧
        Yields (a.updateToRoot (Path.parent? path)) base (Path.refresh path t.summary) t ∨
      ¬Addressable (Path.before path ++ lines ++ Path.after path) ∧
        a.updateToRoot (Path.parent? path) = none :=
  laid.updateToRootIn_cases (Nat.le_trans (Nat.le_add_left _ _) laid.length_le) sums siblings start

/-- Making the sums fresh along a path. -/
theorem Laid.updateToRoot {lines : List (LineId × LineMetrics)} (laid : Laid base path t a)
    (sums : t.summary.Sums lines) (siblings : Path.SiblingsSummed path)
    (small : Addressable (Path.before path ++ lines ++ Path.after path)) :
    Yields (a.updateToRoot (Path.parent? path)) base (Path.refresh path t.summary) t := by
  rcases laid.updateToRoot_cases sums siblings fun _ => small.part with ⟨-, yields⟩ | ⟨big, -⟩
  · exact yields
  · exact absurd small big

/-- Making the sums fresh from a node on upwards exchanges the node for itself. -/
theorem Laid.updateFrom_cases (laid : Laid base path (.node cell l r) a) (hl : l.Summed)
    (hr : r.Summed) (siblings : Path.SiblingsSummed path) :
    Addressable (LineTree.exchange ⟨cell, l, r, path⟩ cell.id cell.metrics).toList ∧
        Yields (a.updateToRoot (some cell.id.slot)) base []
          (LineTree.exchange ⟨cell, l, r, path⟩ cell.id cell.metrics) ∨
      ¬Addressable (LineTree.exchange ⟨cell, l, r, path⟩ cell.id cell.metrics).toList ∧
        a.updateToRoot (some cell.id.slot) = none := by
  have below : Laid base (⟨.left, cell, r⟩ :: path) l a := laid_cons_iff.mpr laid
  have beside : Path.SiblingsSummed (⟨.left, cell, r⟩ :: path) :=
    Path.siblingsSummed_cons_iff.mpr ⟨hr, siblings⟩
  have lines : (LineTree.exchange ⟨cell, l, r, path⟩ cell.id cell.metrics).toList =
      Path.before (⟨.left, cell, r⟩ :: path) ++ l.toList ++
        Path.after (⟨.left, cell, r⟩ :: path) := by
    rw [LineTree.toList_exchange]
    simp [Place.before, Place.after, Step.before, Step.after, Cell.entry]
  rw [lines]
  have updated := below.updateToRoot_cases hl.sums beside fun empty =>
    absurd empty (List.cons_ne_nil _ _)
  exact updated.imp_left fun yields => ⟨yields.1, yields.2.refocus rfl⟩

end LineArena

end CodeEditor

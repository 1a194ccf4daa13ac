import CodeEditor.Proofs.Arena.Store
import Mathlib.Logic.Relation

/-!
Every line tree in memory that can be reached.

`Reachable` is every arena that the operations lead to. Of all of them `Reachable.redBlack` says
that colors, depth, links, sums and slots are those of a red-black tree (`WellFormed`), and that the
next operation does to the lines from top to bottom what it would do to a plain list (`ActsAsList`).
Both are said of slots and links alone. The proofs go through the store that an arena represents:
what is read of a node is read at its place in the store's tree (`Represents.place`).

An operation has no value exactly when the number or the total length of the lines would leave the
machine word.
-/

namespace CodeEditor

namespace LineArena

/-! ### What the slots say -/

/-- The links from a link on lead to some lines, from top to bottom. -/
inductive Lists (a : LineArena) : Option Nat → List (LineId × LineMetrics) → Prop
  | none : Lists a none []
  | node {i : Nat} {s : Slot} {xs ys : List (LineId × LineMetrics)} :
      a.slots[i]? = some s → Lists a s.left xs → Lists a s.right ys →
      Lists a (some i) (xs ++ (⟨i, s.generation⟩, s.metrics) :: ys)

/-- A slot is a node. -/
def IsNode (a : LineArena) (i : Nat) (s : Slot) : Prop := a.slots[i]? = some s ∧ s.live = true

/-- A node names another as its parent. -/
def IsParent (a : LineArena) (parent child : Nat) : Prop :=
  ∃ s, a.IsNode child s ∧ s.parent = some parent

/-- A way down along links to where a child is missing, with the numbers of black nodes and of all
nodes on it. -/
inductive Way (a : LineArena) : Option Nat → Nat → Nat → Prop
  | done : Way a none 0 0
  | down {i : Nat} {s : Slot} {side : Side} {blacks length : Nat} :
      a.slots[i]? = some s → Way a (s.child side) blacks length →
      Way a (some i) (blacks + if s.color = .black then 1 else 0) (length + 1)

/-- All ways down from a link, of which there is one, pass the same number of black nodes, and none
has more nodes than a bound says. -/
def Ways (a : LineArena) (link : Option Nat) (k bound : Nat) : Prop :=
  (∃ length, a.Way link k length) ∧
    ∀ blacks length, a.Way link blacks length → blacks = k ∧ length ≤ bound

/-- The nodes of an arena are a red-black tree of some lines. -/
structure WellFormed (a : LineArena) (lines : List (LineId × LineMetrics)) : Prop where
  lists : a.Lists a.root lines
  root_black : ∃ i s, a.root = some i ∧ a.IsNode i s ∧ s.color = .black
  noRedPair : ∀ i s, a.IsNode i s → s.color = .red →
    a.color s.left = some .black ∧ a.color s.right = some .black
  ways : ∃ k, a.Ways a.root k (2 * (lines.length + 1).log2)
  /-- The root is the node without a parent. -/
  orphan : ∀ i s, a.IsNode i s → (s.parent = none ↔ a.root = some i)
  /-- A child names the node as its parent. -/
  child : ∀ i s, a.IsNode i s → ∀ c, s.left = some c ∨ s.right = some c → a.IsParent i c
  /-- A parent names the node as one of its children. -/
  parent : ∀ i s, a.IsNode i s → ∀ p, s.parent = some p →
    ∃ s', a.IsNode p s' ∧ (s'.left = some i ∨ s'.right = some i)
  /-- The two children are different nodes. -/
  children : ∀ i s, a.IsNode i s → ∀ c, s.left = some c → s.right ≠ some c
  /-- No way along parents leads back to where it started. -/
  acyclic : ∀ i, ¬Relation.TransGen a.IsParent i i
  /-- The nodes are those of the lines, each of one line. -/
  nodes : (LineStore.slotsOf lines).Nodup ∧ ∀ i, i ∈ LineStore.slotsOf lines ↔ ∃ s, a.IsNode i s
  /-- The free list has every slot once that is no node. -/
  free : a.free.Nodup ∧ ∀ i, i ∈ a.free ↔ ∃ s, a.slots[i]? = some s ∧ s.live = false
  /-- The identities that are resolved are those of the lines. -/
  resolve : ∀ id i, a.resolve id = some i ↔ id ∈ lines.map (·.1) ∧ i = id.slot
  /-- The sums of a node are those of the lines below it. -/
  summed : ∀ i s, a.IsNode i s → ∃ below, a.Lists (some i) below ∧ s.summary.Sums below

/-- A run answers and ends with some lines. If these cannot be addressed, it has no value. -/
def Becomes {α : Type} (run : Checked (α × LineArena)) (answer : α)
    (lines : List (LineId × LineMetrics)) : Prop :=
  Addressable lines ∧ (∃ a, run = some (answer, a) ∧ a.Lists a.root lines) ∨
    ¬Addressable lines ∧ run = none

/-- The operations act on the lines and on nothing else. -/
structure ActsAsList (a : LineArena) (lines : List (LineId × LineMetrics)) : Prop where
  /-- The new line stands directly behind the other, under an identity that was free. -/
  insertAfter : ∀ front id m rest, lines = front ++ (id, m) :: rest → ∀ m',
    ∃ new, new ∉ lines.map (·.1) ∧
      Becomes (a.insertAfter id m') (some new) (front ++ (id, m) :: (new, m') :: rest)
  insertAfter_gone : ∀ id, id ∉ lines.map (·.1) → ∀ m, a.insertAfter id m = some (none, a)
  remove : ∀ front id m rest, lines = front ++ (id, m) :: rest → front ++ rest ≠ [] →
    ∃ a', a.remove id = some (true, a') ∧ a'.Lists a'.root (front ++ rest)
  remove_only : ∀ id m, lines = [(id, m)] → a.remove id = some (false, a)
  remove_gone : ∀ id, id ∉ lines.map (·.1) → a.remove id = some (false, a)
  update : ∀ front id m rest, lines = front ++ (id, m) :: rest → ∀ f,
    Becomes (a.update id f) true (front ++ (id, f m) :: rest)
  update_gone : ∀ id, id ∉ lines.map (·.1) → ∀ f, a.update id f = some (false, a)
  reset : ∀ m, ∃ id a', a.reset m = some (id, a') ∧ a'.Lists a'.root [(id, m)]
  rebuild : ∀ ms, ms ≠ [] → ∃ new : List (LineId × LineMetrics), new.map (·.2) = ms ∧
    Becomes (a.rebuild ms) (new.map (·.1)) new

/-! ### What an arena that represents a store shows -/

variable {a : LineArena} {s : LineStore} {t : LineTree} {up : Option Nat}

/-- The links lead to the same lines each time. -/
theorem Lists.unique {link : Option Nat} {xs ys : List (LineId × LineMetrics)}
    (hx : a.Lists link xs) (hy : a.Lists link ys) : xs = ys := by
  induction hx generalizing ys with
  | none =>
      cases hy
      rfl
  | node there _ _ ihl ihr =>
      cases hy with
      | node there' left right =>
          cases there.symm.trans there'
          rw [ihl left, ihr right]

theorem Spells.lists (spells : a.Spells up t) : a.Lists t.slot? t.toList := by
  induction t generalizing up with
  | empty => exact .none
  | node cell l r ihl ihr => exact .node spells.1 (ihl spells.2.1) (ihr spells.2.2)

/-- The ways down from a node go on below one of its children. -/
theorem ways_node {i k left right : Nat} {slot : Slot} (there : a.slots[i]? = some slot)
    (hl : a.Ways slot.left k left) (hr : a.Ways slot.right k right) :
    a.Ways (some i) (k + if slot.color = .black then 1 else 0) (max left right + 1) := by
  obtain ⟨⟨length, way⟩, allLeft⟩ := hl
  refine ⟨⟨length + 1, @Way.down _ _ _ .left _ _ there way⟩, fun blacks length way => ?_⟩
  cases way with
  | @down _ _ side blacks length there' way =>
      cases there.symm.trans there'
      cases side with
      | left =>
          obtain ⟨rfl, short⟩ := allLeft _ _ way
          exact ⟨rfl, by omega⟩
      | right =>
          obtain ⟨rfl, short⟩ := hr.2 _ _ way
          exact ⟨rfl, by omega⟩

/-- The ways down are those of the tree. -/
theorem Spells.ways {color : Color} {n : Nat} (spells : a.Spells up t) (h : t.Balanced color n) :
    a.Ways t.slot? n t.depth := by
  induction h generalizing up with
  | empty =>
      refine ⟨⟨0, .done⟩, fun blacks length way => ?_⟩
      cases way
      exact ⟨rfl, Nat.le_refl 0⟩
  | red red _ _ ihl ihr =>
      have ways := ways_node spells.1 (ihl spells.2.1) (ihr spells.2.2)
      rwa [Cell.color_slot, red] at ways
  | black black _ _ ihl ihr =>
      have ways := ways_node spells.1 (ihl spells.2.1) (ihr spells.2.2)
      rwa [Cell.color_slot, black] at ways

/-- The root of a subtree is a node below the parent. -/
theorem Spells.root {i : Nat} (spells : a.Spells up t) (root : t.slot? = some i) :
    ∃ slot, a.IsNode i slot ∧ slot.parent = up := by
  cases t with
  | empty => cases root
  | node cell l r =>
      cases root
      exact ⟨_, ⟨spells.1, rfl⟩, rfl⟩

/-- The root of an arena stands on every path that is not empty. -/
theorem Around.root_mem {step : Step} {rest : Path} {link : Option Nat}
    (around : a.Around (step :: rest) link) :
    ∃ i ∈ Path.slots (step :: rest), a.root = some i := by
  induction rest generalizing step link with
  | nil => exact ⟨step.cell.id.slot, List.mem_cons_self, around.2.2⟩
  | cons above rest ih =>
      obtain ⟨i, mem, root⟩ := ih around.2.2
      exact ⟨i, by simp at mem ⊢; tauto, root⟩

namespace Represents

theorem lists (rep : a.Represents s) : a.Lists a.root s.toList := by
  have root : a.root = s.tree.slot? := rep.laid.around
  rw [root]
  exact rep.laid.spells.lists

/-- The slots of the lines are nodes, and no others. -/
theorem nodes (rep : a.Represents s) (i : Nat) : i ∈ s.tree.slots ↔ ∃ slot, a.IsNode i slot := by
  refine ⟨rep.laid.spells.live, fun ⟨slot, there, live⟩ => ?_⟩
  by_contra out
  simp [rep.tracks.dead i out slot there] at live

/-- A node stands at a place of the tree. -/
theorem place (rep : a.Represents s) (valid : s.Valid) {i : Nat} {slot : Slot}
    (node : a.IsNode i slot) :
    ∃ place : Place, s.locate place.cell.id = some place ∧ place.cell.id.slot = i ∧
      slot = place.cell.slot .left (Path.parent? place.path) place.left.slot? place.right.slot? ∧
      Laid a place.path (.node place.cell place.left place.right) a := by
  obtain ⟨id, mem, rfl⟩ := List.mem_map.mp ((rep.nodes i).mpr ⟨slot, node⟩)
  obtain ⟨front, m, rest, lines⟩ := LineStore.mem_ids_iff.mp mem
  obtain ⟨place, located, whole, entry, -, -⟩ := valid.locate lines
  obtain rfl : place.cell.id = id := congrArg (·.1) entry
  have laid : Laid a place.path (.node place.cell place.left place.right) a :=
    rep.laid.refocus whole
  exact ⟨place, located, rfl, Option.some.inj (node.1.symm.trans laid.slot), laid⟩

/-- A red node has black children. -/
theorem noRedPair (rep : a.Represents s) (valid : s.Valid) {i : Nat} {slot : Slot}
    (node : a.IsNode i slot) (red : slot.color = .red) :
    a.color slot.left = some .black ∧ a.color slot.right = some .black := by
  obtain ⟨place, located, rfl, rfl, laid⟩ := rep.place valid node
  obtain ⟨n, balanced⟩ := valid.balanced
  obtain ⟨color, k, here, -⟩ := balanced.locate located
  rw [Cell.color_slot] at red
  cases here with
  | red _ left right =>
      exact ⟨left.color_eq ▸ laid.spells.2.1.color, right.color_eq ▸ laid.spells.2.2.color⟩
  | black black _ _ => simp [black] at red

/-- The links of a node agree with those of the nodes around it. -/
theorem orphan (rep : a.Represents s) (valid : s.Valid) {i : Nat} {slot : Slot}
    (node : a.IsNode i slot) : slot.parent = none ↔ a.root = some i := by
  obtain ⟨place, -, rfl, rfl, laid⟩ := rep.place valid node
  rw [Cell.parent_slot]
  have around := laid.around
  have nodup := laid.nodup
  cases path : place.path with
  | nil =>
      rw [path] at around
      exact ⟨fun _ => around, fun _ => rfl⟩
  | cons step rest =>
      rw [path] at around nodup
      refine ⟨fun none => absurd none (Option.some_ne_none _), fun root => ?_⟩
      obtain ⟨j, mem, there⟩ := around.root_mem
      obtain rfl := Option.some.inj (root.symm.trans there)
      exact absurd rfl ((List.nodup_append.mp nodup).2.2 _ (LineTree.mem_slots_of_slot? rfl) _ mem)

theorem child (rep : a.Represents s) (valid : s.Valid) {i c : Nat} {slot : Slot}
    (node : a.IsNode i slot) (link : slot.left = some c ∨ slot.right = some c) :
    a.IsParent i c := by
  obtain ⟨place, -, rfl, rfl, laid⟩ := rep.place valid node
  rcases link with left | right
  · exact laid.spells.2.1.root left
  · exact laid.spells.2.2.root right

theorem children (rep : a.Represents s) (valid : s.Valid) {i c : Nat} {slot : Slot}
    (node : a.IsNode i slot) (left : slot.left = some c) : slot.right ≠ some c := by
  obtain ⟨place, -, rfl, rfl, laid⟩ := rep.place valid node
  intro right
  have nodup := (List.nodup_append.mp laid.nodup).1
  rw [LineTree.slots_node] at nodup
  exact (List.nodup_append.mp nodup).2.2 c (LineTree.mem_slots_of_slot? left) c
    (List.mem_cons_of_mem _ (LineTree.mem_slots_of_slot? right)) rfl

/-- The place of a parent is the lowest on the path. -/
theorem parent (rep : a.Represents s) (valid : s.Valid) {i p : Nat} {slot : Slot}
    (node : a.IsNode i slot) (link : slot.parent = some p) :
    ∃ slot', a.IsNode p slot' ∧ (slot'.left = some i ∨ slot'.right = some i) ∧
      slot.summary.count < slot'.summary.count := by
  obtain ⟨place, located, rfl, rfl, laid⟩ := rep.place valid node
  obtain ⟨sums, above⟩ := valid.summed.locate located
  rw [Cell.parent_slot] at link
  obtain ⟨cell, left, right, path⟩ := place
  dsimp only at laid link sums above ⊢
  cases path with
  | nil => cases link
  | cons step rest =>
      obtain rfl : step.cell.id.slot = p := Option.some.inj link
      refine ⟨_, ⟨laid.parent, rfl⟩, ?_, ?_⟩
      · obtain ⟨side, cell, sibling⟩ := step
        cases side with
        | left => exact .inl rfl
        | right => exact .inr rfl
      · show cell.summary.count < step.cell.summary.count
        have here : cell.summary.Sums (LineTree.node cell left right).toList := sums.sums
        have there : step.cell.summary.Sums
            (step.before ++ (LineTree.node cell left right).toList ++ step.after) := above.1.sums
        have more : 0 < step.before.length + step.after.length := by
          obtain ⟨side, cell, sibling⟩ := step
          cases side with
          | left => exact Nat.lt_add_left _ (Nat.succ_pos _)
          | right => exact Nat.lt_add_right _ (by simp [Step.before])
        rw [here.count, there.count, List.length_append, List.length_append]
        omega

/-- A parent has more nodes below it than its child has. -/
theorem acyclic (rep : a.Represents s) (valid : s.Valid) (i : Nat) :
    ¬Relation.TransGen a.IsParent i i := by
  let count (i : Nat) : Nat := (a.slots[i]?.map (·.summary.count)).getD 0
  have step : ∀ p c, a.IsParent p c → count c < count p := by
    rintro p c ⟨slot, node, link⟩
    obtain ⟨slot', node', -, less⟩ := rep.parent valid node link
    simpa [count, node.1, node'.1] using less
  have descends : ∀ j, Relation.TransGen a.IsParent i j → count j < count i := by
    intro j way
    induction way with
    | single first => exact step _ _ first
    | tail _ last ih => exact (step _ _ last).trans ih
  exact fun cycle => Nat.lt_irrefl _ (descends i cycle)

theorem summed (rep : a.Represents s) (valid : s.Valid) {i : Nat} {slot : Slot}
    (node : a.IsNode i slot) :
    ∃ below, a.Lists (some i) below ∧ slot.summary.Sums below := by
  obtain ⟨place, located, rfl, rfl, laid⟩ := rep.place valid node
  exact ⟨_, laid.spells.lists, (valid.summed.locate located).1.sums⟩

/-- The free list has the slots that are no node's. -/
theorem free (rep : a.Represents s) (valid : s.Valid) :
    a.free.Nodup ∧ ∀ i, i ∈ a.free ↔ ∃ slot, a.slots[i]? = some slot ∧ slot.live = false := by
  have nodup := valid.holds.nodup_slots
  obtain ⟨-, once, apart⟩ := List.nodup_append.mp nodup
  rw [rep.tracks.free]
  refine ⟨once, fun i => ⟨fun mem => ?_, fun ⟨slot, there, dead⟩ => ?_⟩⟩
  · have inside : i < a.slots.size :=
      rep.tracks.size ▸ valid.holds.lt_size (List.mem_append_right _ mem)
    exact ⟨a.slots[i], Array.getElem?_eq_getElem inside, rep.tracks.dead i
      (fun used => apart i used i mem rfl) _ (Array.getElem?_eq_getElem inside)⟩
  · have inside : i ∈ List.range s.generations.size :=
      List.mem_range.mpr (rep.tracks.size ▸ lt_size there)
    rcases List.mem_append.mp (valid.holds.slots.mem_iff.mpr inside) with used | free
    · obtain ⟨slot', there', live⟩ := (rep.nodes i).mp used
      cases there.symm.trans there'
      simp [dead] at live
    · exact free

/-- An arena that represents a store is a red-black tree. -/
theorem wellFormed (rep : a.Represents s) (valid : s.Valid) : a.WellFormed s.toList where
  lists := rep.lists
  root_black := by
    obtain ⟨n, balanced⟩ := valid.balanced
    have root : a.root = s.tree.slot? := rep.laid.around
    have spells : a.Spells none s.tree := rep.laid.spells
    have nonempty : s.tree.toList ≠ [] := valid.nonempty
    cases tree : s.tree with
    | empty => simp [tree] at nonempty
    | node cell l r =>
        rw [tree] at root spells balanced
        exact ⟨_, _, root, ⟨spells.1, rfl⟩, balanced.color_eq⟩
  noRedPair _ _ node red := rep.noRedPair valid node red
  ways := by
    obtain ⟨n, balanced⟩ := valid.balanced
    have root : a.root = s.tree.slot? := rep.laid.around
    obtain ⟨some, all⟩ := rep.laid.spells.ways balanced
    rw [← root] at some all
    refine ⟨n, some, fun blacks length way => ?_⟩
    obtain ⟨same, short⟩ := all blacks length way
    exact ⟨same, short.trans balanced.depth_le⟩
  orphan _ _ node := rep.orphan valid node
  child _ _ node _ link := rep.child valid node link
  parent _ _ node _ link := by
    obtain ⟨slot, node', back, -⟩ := rep.parent valid node link
    exact ⟨slot, node', back⟩
  children _ _ node _ left := rep.children valid node left
  acyclic := rep.acyclic valid
  nodes := ⟨valid.holds.nodup_used, rep.nodes⟩
  free := rep.free valid
  resolve id i := by
    rw [rep.resolve]
    split
    · next mem =>
        rw [Option.some.injEq, eq_comm]
        exact ⟨fun same => ⟨mem, same⟩, And.right⟩
    · next out => exact iff_of_false (Option.some_ne_none i).symm fun ⟨mem, _⟩ => out mem
  summed _ _ node := rep.summed valid node

/-- What ends in an arena that represents a store ends with the lines of the store. -/
theorem becomes {α : Type} {run : Checked (α × LineArena)} {answer : α}
    (result : Addressable s.toList ∧ (∃ a, run = some (answer, a) ∧ a.Represents s) ∨
      ¬Addressable s.toList ∧ run = none) : Becomes run answer s.toList :=
  result.imp_left fun fits => ⟨fits.1, fits.2.imp fun _ ends => ⟨ends.1, ends.2.lists⟩⟩

/-- What is done to the arena is done to the lines. -/
theorem actsAsList (rep : a.Represents s) (valid : s.Valid) (small : Addressable s.toList) :
    a.ActsAsList s.toList where
  insertAfter front id m rest lines m' := by
    obtain ⟨new, s', step, -, fresh, lines'⟩ := valid.insertAfter lines m'
    obtain ⟨new', s'', step', result⟩ :=
      rep.insertAfter (m := m') valid (LineStore.mem_ids_iff.mpr ⟨front, m, rest, lines⟩)
    cases step.symm.trans step'
    refine ⟨new, fresh, ?_⟩
    rw [← lines']
    exact becomes result
  insertAfter_gone _ gone _ := rep.insertAfter_gone gone
  remove front id m rest lines other := by
    obtain ⟨s', step, -, lines'⟩ := valid.erase lines other
    obtain ⟨s'', a', step', run, rep'⟩ := rep.remove valid small
      (LineStore.mem_ids_iff.mpr ⟨front, m, rest, lines⟩) (by
        rw [valid.count_eq, lines]
        have := List.length_pos_iff.mpr other
        simp only [List.length_append, List.length_cons] at this ⊢
        omega)
    cases step.symm.trans step'
    exact ⟨a', run, lines' ▸ rep'.lists⟩
  remove_only id m only := rep.remove_gone (.inr (by rw [valid.count_eq, only]; simp))
  remove_gone _ gone := rep.remove_gone (.inl gone)
  update front id m rest lines f := by
    obtain ⟨s', step, -, lines'⟩ := valid.update lines f
    obtain ⟨s'', step', result⟩ :=
      rep.update valid (LineStore.mem_ids_iff.mpr ⟨front, m, rest, lines⟩) f
    cases step.symm.trans step'
    rw [← lines']
    exact becomes result
  update_gone _ gone f := rep.update_gone gone f
  reset m := by
    obtain ⟨id, a', run, lines, rep'⟩ := rep.reset m
    exact ⟨id, a', run, lines ▸ rep'.lists⟩
  rebuild ms notEmpty :=
    ⟨(s.rebuild ms).toList, s.metrics_rebuild notEmpty, becomes (rep.rebuild notEmpty)⟩

end Represents

/-! ### Every arena that can be reached -/

/-- The arenas that operations lead to. -/
inductive Reachable : LineArena → Prop
  | single {m : LineMetrics} {id : LineId} {a : LineArena} :
      m.totalLength < wordLimit → single m = some (id, a) → Reachable a
  | reset {a a' : LineArena} {m : LineMetrics} {id : LineId} :
      Reachable a → m.totalLength < wordLimit → a.reset m = some (id, a') → Reachable a'
  | rebuild {a a' : LineArena} {ms : List LineMetrics} {ids : List LineId} :
      Reachable a → a.rebuild ms = some (ids, a') → Reachable a'
  | insertAfter {a a' : LineArena} {id : LineId} {m : LineMetrics} {answer : Option LineId} :
      Reachable a → a.insertAfter id m = some (answer, a') → Reachable a'
  | remove {a a' : LineArena} {id : LineId} {answer : Bool} :
      Reachable a → a.remove id = some (answer, a') → Reachable a'
  | update {a a' : LineArena} {id : LineId} {f : LineMetrics → LineMetrics} {answer : Bool} :
      Reachable a → a.update id f = some (answer, a') → Reachable a'

/-- An arena represents a store whose lines can be addressed. -/
def Sound (a : LineArena) : Prop := ∃ s, a.Represents s ∧ s.Valid ∧ Addressable s.toList

/-- Whatever an arena represented, it holds a single line once it starts over. -/
theorem Represents.sound_reset (rep : a.Represents s) {a' : LineArena} {m : LineMetrics}
    {id : LineId} (fits : m.totalLength < wordLimit) (run : a.reset m = some (id, a')) :
    a'.Sound := by
  obtain ⟨id', a'', run', lines, rep'⟩ := rep.reset m
  cases run.symm.trans run'
  refine ⟨s.reset m, rep', s.valid_reset m, ?_⟩
  rw [lines]
  exact ⟨by simpa using fits, show 1 < wordLimit by decide⟩

namespace Sound

variable {a' : LineArena} {m : LineMetrics} {id : LineId}

theorem rebuild (sound : a.Sound) {ms : List LineMetrics} {ids : List LineId}
    (run : a.rebuild ms = some (ids, a')) : a'.Sound := by
  obtain ⟨s, rep, valid, -⟩ := sound
  cases ms with
  | nil =>
      obtain ⟨⟨id, a''⟩, reset, same⟩ := Option.bind_eq_some_iff.mp run
      cases same
      exact rep.sound_reset (by decide) reset
  | cons m rest =>
      rcases rep.rebuild (List.cons_ne_nil m rest) with ⟨small, a'', run', rep'⟩ | ⟨-, stops⟩
      · cases run.symm.trans run'
        exact ⟨_, rep', s.valid_rebuild _, small⟩
      · cases run.symm.trans stops

theorem insertAfter (sound : a.Sound) {answer : Option LineId}
    (run : a.insertAfter id m = some (answer, a')) : a'.Sound := by
  obtain ⟨s, rep, valid, small⟩ := sound
  by_cases mem : id ∈ s.ids
  · obtain ⟨new, s', step, ⟨small', a'', run', rep'⟩ | ⟨-, stops⟩⟩ :=
      rep.insertAfter (m := m) valid mem
    · cases run.symm.trans run'
      obtain ⟨_, _, _, -, valid', -⟩ := valid.exists_of_insertAfter? step
      exact ⟨s', rep', valid', small'⟩
    · cases run.symm.trans stops
  · cases run.symm.trans (rep.insertAfter_gone mem)
    exact ⟨s, rep, valid, small⟩

theorem remove (sound : a.Sound) {answer : Bool} (run : a.remove id = some (answer, a')) :
    a'.Sound := by
  obtain ⟨s, rep, valid, small⟩ := sound
  by_cases stays : id ∉ s.ids ∨ s.count ≤ 1
  · cases run.symm.trans (rep.remove_gone stays)
    exact ⟨s, rep, valid, small⟩
  · rw [not_or, not_not] at stays
    obtain ⟨s', a'', step, run', rep'⟩ := rep.remove valid small stays.1 stays.2
    cases run.symm.trans run'
    obtain ⟨front, d, rest, lines, valid', lines'⟩ := valid.exists_of_erase? step
    refine ⟨s', rep', valid', small.sublist ?_⟩
    rw [lines, lines']
    exact (List.Sublist.refl front).append (List.sublist_cons_self _ rest)

theorem update (sound : a.Sound) {f : LineMetrics → LineMetrics} {answer : Bool}
    (run : a.update id f = some (answer, a')) : a'.Sound := by
  obtain ⟨s, rep, valid, small⟩ := sound
  by_cases mem : id ∈ s.ids
  · obtain ⟨s', step, ⟨small', a'', run', rep'⟩ | ⟨-, stops⟩⟩ := rep.update valid mem f
    · cases run.symm.trans run'
      obtain ⟨_, _, _, -, valid', -⟩ := valid.exists_of_update? step
      exact ⟨s', rep', valid', small'⟩
    · cases run.symm.trans stops
  · cases run.symm.trans (rep.update_gone mem f)
    exact ⟨s, rep, valid, small⟩

end Sound

theorem Reachable.sound (h : a.Reachable) : a.Sound := by
  induction h with
  | single fits run => exact represents_empty.sound_reset fits run
  | reset _ fits run ih =>
      obtain ⟨s, rep, -⟩ := ih
      exact rep.sound_reset fits run
  | rebuild _ run ih => exact ih.rebuild run
  | insertAfter _ run ih => exact ih.insertAfter run
  | remove _ run ih => exact ih.remove run
  | update _ run ih => exact ih.update run

/-- Every arena that operations lead to is a red-black tree of its lines, and what is done to it
next is done to these. -/
theorem Reachable.redBlack (h : a.Reachable) : ∃ lines, a.WellFormed lines ∧
    a.ActsAsList lines := by
  obtain ⟨s, rep, valid, small⟩ := h.sound
  exact ⟨s.toList, rep.wellFormed valid, rep.actsAsList valid small⟩

/-- Four lines of which the third, the root, is taken out. -/
theorem redBlack_of_erased_root :
    ∃ first ids lines a₁ a₂ a₃, single (.undelimited 0 0.0) = some (first, a₁) ∧
      a₁.rebuild [.undelimited 1 0.0, .undelimited 2 0.0, .undelimited 3 0.0, .undelimited 4 0.0] =
        some (ids, a₂) ∧
      a₂.remove ⟨2, 0⟩ = some (true, a₃) ∧ lines.map (·.1) = [⟨0, 1⟩, ⟨1, 0⟩, ⟨3, 0⟩] ∧
      a₃.WellFormed lines ∧ a₃.ActsAsList lines := by
  obtain ⟨first, a₁, run₁, -, rep₁⟩ := represents_empty.reset (.undelimited 0 0.0)
  rcases rep₁.rebuild (List.cons_ne_nil (.undelimited 1 0.0)
    [.undelimited 2 0.0, .undelimited 3 0.0, .undelimited 4 0.0]) with
      ⟨small, a₂, run₂, rep₂⟩ | ⟨big, -⟩
  · obtain ⟨s₃, a₃, step, run₃, rep₃⟩ := @Represents.remove _ _ ⟨2, 0⟩ rep₂
      (LineStore.valid_rebuild _ _) small (by decide) (by decide)
    have reachable : a₃.Reachable := .remove (.rebuild (.single (by decide) run₁) run₂) run₃
    obtain ⟨lines, formed, acts⟩ := Reachable.redBlack reachable
    refine ⟨first, _, lines, a₁, a₂, a₃, run₁, run₂, run₃, ?_, formed, acts⟩
    cases step
    cases formed.lists.unique rep₃.lists
    decide
  · exact absurd (by decide) big

end LineArena

end CodeEditor

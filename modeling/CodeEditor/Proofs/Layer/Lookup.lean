import CodeEditor.Proofs.Layer.Captures
import CodeEditor.Proofs.Layer.Orderly
import CodeEditor.Syntax.Mode

/-!
The smallest node at a point over all layers.

`Eligible` are the layers that a search for a point may enter: one layer, and the children of such
layers whose own trees touch the point. `lookUp` is the search itself, with what it leaves open:
which node is found in a single tree, what counts as its size, and the order of the children.
`Smallest` says what the search is for, and does not know the order. The search meets it whatever
the three are (`smallest_lookUp`), and what a mode finds at a position is the search in the order of
the text (`same_hit?`).
-/

namespace CodeEditor.Layer

open Syntax (Node Branch Point Language Registry)
open LayerStore (Watch)

namespace LayerTree

variable {α : Type} {t : LayerTree} {p : Point} {top id a b x child : LayerId} {site : Site}
  {tree : ParsedTree} {find : Node → Option α} {size : α → Nat} {order : LayerId → List LayerId}

/-- The layer is a first one, or a child of such a layer whose own tree touches the point. -/
inductive Eligible (t : LayerTree) (p : Point) (top : LayerId) : LayerId → Prop
  | top : Eligible t p top top
  | child {id child : LayerId} {site : Site} {tree : ParsedTree} :
      Eligible t p top id → t.store.Holds id site child → t.tree? child = some tree →
      tree.root.touches p → Eligible t p top child

namespace Eligible

theorem trans (first : t.Eligible p a b) (second : t.Eligible p b x) : t.Eligible p a x := by
  induction second with
  | top => exact first
  | child _ holds has touches ih => exact ih.child holds has touches

/-- A layer is the first one or is reached through one of its children. -/
theorem eq_or_child (eligible : t.Eligible p top x) : x = top ∨ ∃ site child tree,
    t.store.Holds top site child ∧ t.tree? child = some tree ∧ tree.root.touches p ∧
      t.Eligible p child x := by
  induction eligible with
  | top => exact .inl rfl
  | @child id x site tree _ holds has touches ih =>
      rcases ih with rfl | ⟨site', child, tree', holds', has', touches', below⟩
      · exact .inr ⟨site, x, tree, holds, has, touches, .top⟩
      · exact .inr ⟨site', child, tree', holds', has', touches', below.child holds has touches⟩

/-- An eligible layer below another is eligible from that one on. -/
theorem of_below {w : Watch} (shaped : t.store.Shaped w) (loose : t.store.Loose top)
    (eligible : t.Eligible p top x) (below : t.store.Below a x) : t.Eligible p a x := by
  induction eligible with
  | top =>
      by_cases same : top = a
      · exact same ▸ .top
      · obtain ⟨y, site, -, holds⟩ := below.exists_holder same
        exact absurd holds (loose y site)
  | @child y x site tree _ holds has touches ih =>
      by_cases same : x = a
      · exact same ▸ .top
      · obtain ⟨z, site', below', holds'⟩ := below.exists_holder same
        obtain rfl := shaped.holder_eq holds holds'
        exact (ih below').child holds has touches

end Eligible

/-- The node that is found in the tree of a layer. -/
def nodeIn (t : LayerTree) (find : Node → Option α) (id : LayerId) : Option α :=
  (t.tree? id).bind fun tree => find tree.root

/-- The later one of two nodes found, unless it is larger. -/
def nearer (size : α → Nat) (best found : Option (LayerId × α)) : Option (LayerId × α) :=
  match best, found with
  | some best, some found => if size found.2 ≤ size best.2 then some found else some best
  | none, some found => some found
  | best, none => best

/-- The smallest node in a layer and the layers below it whose trees touch a point, down to a depth
of the amount of fuel. -/
def lookUp (t : LayerTree) (find : Node → Option α) (size : α → Nat)
    (order : LayerId → List LayerId) (p : Point) : Nat → LayerId → Option (LayerId × α)
  | 0, _ => none
  | fuel + 1, id =>
      (t.tree? id).bind fun tree =>
        (order id).foldl (fun best child =>
          if (t.tree? child).any (·.root.touches p) then
            nearer size best (t.lookUp find size order p fuel child)
          else best) ((find tree.root).map (id, ·))

/-! ### What is searched for -/

/-- Of the nodes in some layers one is found that no other is smaller than, and below its layer none
is as small. -/
structure Smallest (t : LayerTree) (find : Node → Option α) (size : α → Nat) (p : Point)
    (among : LayerId → Prop) (found : Option (LayerId × α)) : Prop where
  none_iff : found = none ↔ ∀ x, among x → t.nodeIn find x = none
  attained : ∀ id n, found = some (id, n) → among id ∧ t.nodeIn find id = some n
  least : ∀ id n, found = some (id, n) → ∀ x m, among x → t.nodeIn find x = some m → size n ≤ size m
  innermost : ∀ id n, found = some (id, n) → ∀ x m, among x → t.Eligible p id x → x ≠ id →
    t.nodeIn find x = some m → size m ≠ size n

namespace Smallest

variable {among among' : LayerId → Prop} {best found : Option (LayerId × α)}

theorem congr (smallest : t.Smallest find size p among best) (same : ∀ x, among' x ↔ among x) :
    t.Smallest find size p among' best := by
  obtain rfl : among' = among := funext fun x => propext (same x)
  exact smallest

theorem single (has : t.tree? id = some tree) :
    t.Smallest find size p (· = id) ((find tree.root).map (id, ·)) := by
  have node : t.nodeIn find id = find tree.root := by rw [nodeIn, has, Option.bind_some]
  constructor
  case none_iff =>
    rw [Option.map_eq_none_iff, ← node]
    exact ⟨fun none x same => same ▸ none, fun none => none id rfl⟩
  case attained =>
    intro id' n here
    obtain ⟨n', own, same⟩ := Option.map_eq_some_iff.mp here
    cases same
    exact ⟨rfl, node.trans own⟩
  case least =>
    rintro id' n here x m rfl other
    obtain ⟨n', own, same⟩ := Option.map_eq_some_iff.mp here
    cases same
    obtain rfl := Option.some.inj ((node.trans own).symm.trans other)
    exact Nat.le_refl _
  case innermost =>
    rintro id' n here x m rfl - differs
    obtain ⟨n', -, same⟩ := Option.map_eq_some_iff.mp here
    cases same
    exact absurd rfl differs

/-- A search below a further layer counts unless it has found a larger node. -/
theorem nearer (smallest : t.Smallest find size p among best)
    (further : t.Smallest find size p (t.Eligible p child) found) :
    t.Smallest find size p (fun x => among x ∨ t.Eligible p child x)
      (LayerTree.nearer size best found) := by
  cases found with
  | none =>
      have nothing := further.none_iff.mp rfl
      have same : LayerTree.nearer size best none = best := by cases best <;> rfl
      rw [same]
      constructor
      case none_iff =>
        rw [smallest.none_iff]
        exact ⟨fun none x => Or.rec (none x) (nothing x), fun none x inside => none x (.inl inside)⟩
      case attained => exact fun id n here => (smallest.attained id n here).imp_left .inl
      case least =>
        rintro id n here x m (inside | inside) other
        · exact smallest.least id n here x m inside other
        · cases (nothing x inside).symm.trans other
      case innermost =>
        rintro id n here x m (inside | inside) below differs other
        · exact smallest.innermost id n here x m inside below differs other
        · cases (nothing x inside).symm.trans other
  | some found =>
      obtain ⟨id', n'⟩ := found
      obtain ⟨inside', node'⟩ := further.attained id' n' rfl
      have some' : ¬∀ x, among x ∨ t.Eligible p child x → t.nodeIn find x = none := by
        intro none
        cases (none id' (.inr inside')).symm.trans node'
      -- What is found below the further layer counts, as all nodes so far are at least as large.
      have later (small : ∀ x m, among x → t.nodeIn find x = some m → size n' ≤ size m) :
          t.Smallest find size p (fun x => among x ∨ t.Eligible p child x) (some (id', n')) := by
        constructor
        case none_iff => exact ⟨nofun, fun none => absurd none some'⟩
        case attained =>
          rintro _ _ ⟨⟩
          exact ⟨.inr inside', node'⟩
        case least =>
          rintro _ _ ⟨⟩ x m (inside | inside) other
          · exact small x m inside other
          · exact further.least id' n' rfl x m inside other
        case innermost =>
          rintro _ _ ⟨⟩ x m - below differs other
          exact further.innermost id' n' rfl x m (inside'.trans below) below differs other
      cases best with
      | none =>
          refine later fun x m inside other => ?_
          cases (smallest.none_iff.mp rfl x inside).symm.trans other
      | some best =>
          obtain ⟨id, n⟩ := best
          rw [LayerTree.nearer]
          split
          · next le =>
              exact later fun x m inside other =>
                Nat.le_trans le (smallest.least id n rfl x m inside other)
          · next larger =>
              have lt : size n < size n' := Nat.lt_of_not_le larger
              have all : ∀ x m, t.Eligible p child x → t.nodeIn find x = some m → size n < size m :=
                fun x m inside other => Nat.lt_of_lt_of_le lt
                  (further.least id' n' rfl x m inside other)
              constructor
              case none_iff => exact ⟨nofun, fun none => absurd none some'⟩
              case attained =>
                rintro _ _ ⟨⟩
                exact (smallest.attained id n rfl).imp_left .inl
              case least =>
                rintro _ _ ⟨⟩ x m (inside | inside) other
                · exact smallest.least id n rfl x m inside other
                · exact Nat.le_of_lt (all x m inside other)
              case innermost =>
                rintro _ _ ⟨⟩ x m (inside | inside) below differs other
                · exact smallest.innermost id n rfl x m inside below differs other
                · exact Nat.ne_of_gt (all x m inside other)

end Smallest

/-! ### The search -/

/-- The children of a layer are searched one after another. -/
theorem smallest_foldl {among : LayerId → Prop} {best : Option (LayerId × α)} {fuel : Nat}
    (children : List LayerId) (start : t.Smallest find size p among best)
    (each : ∀ child ∈ children, ∀ tree, t.tree? child = some tree →
      t.Smallest find size p (t.Eligible p child) (t.lookUp find size order p fuel child)) :
    t.Smallest find size p
      (fun x => among x ∨ ∃ child ∈ children, ∃ tree, t.tree? child = some tree ∧
        tree.root.touches p ∧ t.Eligible p child x)
      (children.foldl (fun best child =>
        if (t.tree? child).any (·.root.touches p) then
          nearer size best (t.lookUp find size order p fuel child)
        else best) best) := by
  induction children generalizing among best with
  | nil => exact start.congr fun x => or_iff_left fun ⟨_, mem, _⟩ => nomatch mem
  | cons child children ih =>
      obtain ⟨first, each⟩ := List.forall_mem_cons.mp each
      rw [List.foldl_cons]
      by_cases enters : (t.tree? child).any (·.root.touches p) = true
      · obtain ⟨tree, has, touches⟩ := (Option.any_eq_true _ _).mp enters
        rw [if_pos enters]
        refine (ih (start.nearer (first tree has)) each).congr fun x => ?_
        rw [or_assoc]
        refine or_congr_right ⟨?_, ?_⟩
        · rintro ⟨other, mem, tree', has', touches', inside⟩
          rcases List.mem_cons.mp mem with rfl | mem
          · exact .inl inside
          · exact .inr ⟨other, mem, tree', has', touches', inside⟩
        · rintro (inside | ⟨other, mem, rest⟩)
          · exact ⟨child, List.mem_cons_self, tree, has, touches, inside⟩
          · exact ⟨other, List.mem_cons_of_mem _ mem, rest⟩
      · rw [if_neg enters]
        refine (ih start each).congr fun x => or_congr_right ⟨?_, ?_⟩
        · rintro ⟨other, mem, tree', has', touches', inside⟩
          rcases List.mem_cons.mp mem with rfl | mem
          · exact absurd ((Option.any_eq_true _ _).mpr ⟨tree', has', touches'⟩) enters
          · exact ⟨other, mem, tree', has', touches', inside⟩
        · rintro ⟨other, mem, rest⟩
          exact ⟨other, List.mem_cons_of_mem _ mem, rest⟩

/-- With fuel for all layers below, the search from a layer with a tree finds what it is for. -/
theorem smallest_lookUp_of_tree {root : LayerId} {n fuel : Nat}
    (shaped : t.store.Shaped (.ofRoot root)) (orders : t.store.Orders order)
    (lies : t.store.Lies n root id) (enough : t.store.slots.size ≤ n + fuel)
    (has : t.tree? id = some tree) :
    t.Smallest find size p (t.Eligible p id) (t.lookUp find size order p fuel id) := by
  induction fuel generalizing n id tree with
  | zero => exact absurd (LayerStore.depth_lt shaped lies) (Nat.not_lt.mpr enough)
  | succ fuel ih =>
      obtain ⟨l, there, -⟩ := Option.bind_eq_some_iff.mp has
      rw [lookUp, has, Option.bind_some]
      have each : ∀ child ∈ order id, ∀ tree, t.tree? child = some tree →
          t.Smallest find size p (t.Eligible p child) (t.lookUp find size order p fuel child) := by
        intro child mem tree has
        obtain ⟨site, holds⟩ := orders.holds there mem
        exact ih (.child lies holds) (by omega) has
      refine (smallest_foldl (order id) (.single has) each).congr fun x => ⟨fun inside => ?_, ?_⟩
      · rcases inside.eq_or_child with same | ⟨site, child, tree', holds, has', touches, below⟩
        · exact .inl same
        · obtain ⟨l', there', mem⟩ := holds
          have among := (orders id l' there').mem_iff.mpr (List.mem_map_of_mem (f := (·.2)) mem)
          exact .inr ⟨child, among, tree', has', touches, below⟩
      · rintro (rfl | ⟨child, mem, tree', has', touches, below⟩)
        · exact .top
        · obtain ⟨site, holds⟩ := orders.holds there mem
          exact (Eligible.top.child holds has' touches).trans below

/-- The search from the root finds what it is for. A root without a tree has no children. -/
theorem smallest_lookUp (orderly : t.Orderly) (orders : t.store.Orders order)
    (find : Node → Option α) (size : α → Nat) (p : Point) :
    t.Smallest find size p (t.Eligible p t.root)
      (t.lookUp find size order p t.store.slots.size t.root) := by
  cases has : t.tree? t.root with
  | some tree =>
      exact smallest_lookUp_of_tree orderly.shaped orders (.refl t.root) (Nat.le_add_left _ _) has
  | none =>
      have nothing : t.lookUp find size order p t.store.slots.size t.root = none := by
        cases t.store.slots.size with
        | zero => rfl
        | succ fuel => rw [lookUp, has, Option.bind_none]
      have alone : ∀ x, t.Eligible p t.root x → t.nodeIn find x = none := by
        intro x inside
        rcases inside.eq_or_child with rfl | ⟨site, child, _, ⟨l, there, mem⟩, _⟩
        · rw [nodeIn, has, Option.bind_none]
        · have unparsed : l.tree = none := by rwa [tree?, layer?, there] at has
          rw [orderly.planted l there unparsed] at mem
          cases mem
      rw [nothing]
      refine ⟨⟨fun _ => alone, fun _ => rfl⟩, fun id n found => ?_, fun id n found => ?_,
        fun id n found => ?_⟩ <;> cases found

/-! ### What a mode finds -/

/-- The innermost node at a point in a tree, with the nodes around it, or none. -/
def branchFinder (branchAt : Node → Point → Branch) (p : Point) (x : Node) : Option Branch :=
  if (branchAt x p).isEmpty then none else some (branchAt x p)

/-- The bytes that the innermost node of a branch covers. -/
def branchSize (branch : Branch) : Nat := (branch.head?.map (·.byteRange.length)).getD 0

/-- A branch of a layer with the language of the layer. -/
def hitOf (t : LayerTree) (found : LayerId × Branch) : Option LayerView.Hit :=
  (t.layer? found.1).map fun l => ⟨l.language, found.2⟩

theorem size_of_hitOf {found : LayerId × Branch} {hit : LayerView.Hit}
    (made : t.hitOf found = some hit) : hit.size = branchSize found.2 := by
  obtain ⟨l, -, rfl⟩ := Option.map_eq_some_iff.mp made
  rfl

/-- What is found in a layer is what is found in its view. -/
abbrev Same (t : LayerTree) : Option (LayerId × Branch) → Option LayerView.Hit → Prop :=
  Option.Rel fun found hit => t.hitOf found = some hit

theorem same_nearer {best found : Option (LayerId × Branch)} {hit hit' : Option LayerView.Hit}
    (same : t.Same best hit) (same' : t.Same found hit') :
    t.Same (nearer branchSize best found) (LayerView.Hit.nearer hit hit') := by
  cases same with
  | none =>
      cases same' with
      | none => exact .none
      | some same' => exact .some same'
  | some same =>
      cases same' with
      | none => exact .some same
      | some same' =>
          rw [nearer, LayerView.Hit.nearer, size_of_hitOf same, size_of_hitOf same']
          split
          · exact .some same'
          · exact .some same

theorem lookUp_eq_none {fuel : Nat} (hidden : t.viewWithin fuel id = none) :
    t.lookUp find size order p fuel id = none := by
  cases fuel with
  | zero => rfl
  | succ fuel =>
      cases there : t.layer? id with
      | none => rw [lookUp, tree?, there, Option.bind_none, Option.bind_none]
      | some l =>
          rw [viewWithin, there] at hidden
          cases hidden

theorem tree_of_viewWithin {fuel : Nat} {v : LayerView} (view : t.viewWithin fuel id = some v) :
    v.tree = t.tree? id := by
  cases fuel with
  | zero => cases view
  | succ fuel =>
      obtain ⟨l, there, made⟩ := Option.bind_eq_some_iff.mp view
      cases made
      rw [tree?, there, Option.bind_some]

variable {branchAt : Node → Point → Branch}

theorem same_foldl {fuel : Nat} (children : List LayerId) {best : Option (LayerId × Branch)}
    {hit : Option LayerView.Hit} (same : t.Same best hit)
    (each : ∀ child v, t.viewWithin fuel child = some v →
      t.Same (t.lookUp (branchFinder branchAt p) branchSize order p fuel child)
      (v.hit branchAt p)) :
    t.Same (children.foldl (fun best child =>
        if (t.tree? child).any (·.root.touches p) then
          nearer branchSize best (t.lookUp (branchFinder branchAt p) branchSize order p fuel child)
        else best) best)
      (LayerView.hitBelow branchAt p hit (children.filterMap (t.viewWithin fuel))) := by
  induction children generalizing best hit with
  | nil =>
      rw [List.filterMap_nil, LayerView.hitBelow]
      exact same
  | cons child children ih =>
      rw [List.foldl_cons]
      cases view : t.viewWithin fuel child with
      | none =>
          have kept : nearer branchSize best none = best := by cases best <;> rfl
          rw [List.filterMap_cons_none view, lookUp_eq_none view, kept, ite_self]
          exact ih same
      | some v =>
          rw [List.filterMap_cons_some view, LayerView.hitBelow, tree_of_viewWithin view]
          split
          · exact ih (same_nearer same (each child v view))
          · exact ih same

theorem same_viewWithin {fuel : Nat} {v : LayerView} (view : t.viewWithin fuel id = some v) :
    t.Same (t.lookUp (branchFinder branchAt p) branchSize t.children p fuel id)
      (v.hit branchAt p) := by
  induction fuel generalizing id v with
  | zero => cases view
  | succ fuel ih =>
      obtain ⟨l, there, made⟩ := Option.bind_eq_some_iff.mp view
      cases made
      rw [lookUp, tree?, there, Option.bind_some]
      cases l.tree with
      | none =>
          rw [LayerView.hit]
          exact .none
      | some tree =>
          rw [LayerView.hit]
          refine same_foldl (t.children id) ?_ fun child v => ih
          rw [branchFinder, LayerView.Hit.of?]
          split
          · exact .none
          · exact .some (by rw [hitOf, there]; rfl)

/-- What is found over all layers is what the search in the order of the text finds. -/
theorem same_hit? (t : LayerTree) (branchAt : Node → Point → Branch) (p : Point) :
    t.Same (t.lookUp (branchFinder branchAt p) branchSize t.children p t.store.slots.size t.root)
      (t.hit? branchAt p) := by
  rw [hit?, view]
  cases view : t.viewWithin t.store.slots.size t.root with
  | none =>
      rw [lookUp_eq_none view, Option.bind_none]
      exact .none
  | some v => exact same_viewWithin view

variable {engine : Engine} {language : Language} {registry : Option Registry}

/-- The search over all layers finds nothing exactly when no eligible layer has a node at the point.
What it finds is the node of an eligible layer, no eligible layer has a smaller one, and none below
has one as small, in whatever order the children of a layer come. It is what a mode finds at every
position whose column can be counted in bytes. -/
theorem hitAt_smallest (touched : Touched engine language registry t) :
    (∀ (α : Type) (find : Node → Option α) (size : α → Nat) (order : LayerId → List LayerId)
      (p : Point), t.store.Orders order →
      let found := t.lookUp find size order p t.store.slots.size t.root
      (found = none ↔ ∀ id, t.Eligible p t.root id → t.nodeIn find id = none) ∧
      ∀ id n, found = some (id, n) → t.Eligible p t.root id ∧ t.nodeIn find id = some n ∧
        ∀ x m, t.Eligible p t.root x → t.nodeIn find x = some m → size n ≤ size m ∧
          (t.store.Below id x → x ≠ id → size m ≠ size n)) ∧
    ∀ m : Syntax.Mode, m.layers = t → ∀ q,
      (m.hitAt q = none ↔ wordLimit ≤ q.column * bytesPerUnit) ∧
      ∀ hit, m.hitAt q = some hit → ∃ p, p = ⟨q.row, q.column * bytesPerUnit⟩ ∧
        t.Same (t.lookUp (branchFinder m.engine.branchAt p) branchSize t.children p
          t.store.slots.size t.root) hit := by
  have orderly := touched.orderly
  refine ⟨fun α find size order p orders => ?_, ?_⟩
  · have smallest := smallest_lookUp orderly orders find size p
    refine ⟨smallest.none_iff, fun id n found => ?_⟩
    obtain ⟨eligible, node⟩ := smallest.attained id n found
    refine ⟨eligible, node, fun x m inside other => ⟨smallest.least id n found x m inside other,
      ?_⟩⟩
    intro below differs
    have loose := (LayerStore.loose_root orderly.shaped).2
    exact smallest.innermost id n found x m inside (inside.of_below orderly.shaped loose below)
      differs other
  · rintro m rfl q
    rw [Syntax.Mode.hitAt, Point.ofPosition?, bytesOfUnits, Checked.mul]
    by_cases word : q.column * bytesPerUnit < wordLimit
    · rw [if_pos word]
      refine ⟨⟨fun none => (by cases none), fun long => absurd word (Nat.not_lt.mpr long)⟩, ?_⟩
      intro hit found
      cases found
      exact ⟨_, rfl, same_hit? m.layers m.engine.branchAt _⟩
    · rw [if_neg word]
      exact ⟨⟨fun _ => Nat.le_of_not_lt word, fun _ => rfl⟩, fun hit found => by cases found⟩

/-- The body of a page and the note in it cover the same bytes, and the note is found. -/
theorem note_of_page : ∃ t x, Touched markedEngine page (some pageLanguages) t ∧
    t.lookUp (branchFinder markedEngine.branchAt ⟨0, 2⟩) branchSize t.children ⟨0, 2⟩
      t.store.slots.size t.root = some (x, [leaf "text" 2 4]) ∧
    x ≠ t.root ∧ t.Eligible ⟨0, 2⟩ t.root x ∧
    (t.nodeIn (branchFinder markedEngine.branchAt ⟨0, 2⟩) t.root).map branchSize =
      some (branchSize [leaf "text" 2 4]) ∧
    ∀ m : Syntax.Mode, m.layers = t → m.engine = markedEngine →
      m.hitAt ⟨0, 1⟩ = some (some ⟨note, [leaf "text" 2 4]⟩) := by
  obtain ⟨reports, parsed⟩ := parse_page
  have touched : Touched markedEngine page (some pageLanguages) (pageLayers reports) := by
    have behind := Touched.parse dashText
      (.unparsed {} .oldestFirst : Touched markedEngine page (some pageLanguages) _)
    rwa [parsed] at behind
  have children : (pageLayers reports).children ⟨0, 0⟩ = [⟨1, 0⟩] := List.mergeSort_singleton _
  have childless : (pageLayers reports).children ⟨1, 0⟩ = [] := List.mergeSort_nil
  have below : (pageLayers reports).lookUp (branchFinder markedEngine.branchAt ⟨0, 2⟩) branchSize
      (pageLayers reports).children ⟨0, 2⟩ 1 ⟨1, 0⟩ = some (⟨1, 0⟩, [leaf "text" 2 4]) := by
    rw [lookUp, childless]
    rfl
  have found : (pageLayers reports).lookUp (branchFinder markedEngine.branchAt ⟨0, 2⟩) branchSize
      (pageLayers reports).children ⟨0, 2⟩ 2 ⟨0, 0⟩ = some (⟨1, 0⟩, [leaf "text" 2 4]) := by
    rw [lookUp, children]
    show nearer _ (some (⟨0, 0⟩, _)) (lookUp _ _ _ _ _ 1 ⟨1, 0⟩) = _
    rw [below]
    rfl
  obtain ⟨smallest, finds⟩ := hitAt_smallest touched
  obtain ⟨-, attained⟩ := smallest Branch (branchFinder markedEngine.branchAt ⟨0, 2⟩) branchSize _
    ⟨0, 2⟩ (Reordered.refl (pageLayers reports)).orders_children
  have apart : (⟨1, 0⟩ : LayerId) ≠ ⟨0, 0⟩ := by decide
  refine ⟨_, ⟨1, 0⟩, touched, found, apart, (attained _ _ found).1, rfl, fun m same engine => ?_⟩
  have made : m.hitAt ⟨0, 1⟩ = some (m.layers.hit? m.engine.branchAt ⟨0, 2⟩) := rfl
  obtain ⟨_, rfl, hit⟩ := (finds m same ⟨0, 1⟩).2 _ made
  rw [engine] at hit
  have hit : (pageLayers reports).Same (some (⟨1, 0⟩, [leaf "text" 2 4])) _ := found ▸ hit
  rw [made, engine]
  generalize m.layers.hit? _ ⟨0, 2⟩ = shown at hit ⊢
  cases hit with
  | some same => exact congrArg (some ∘ some) (Option.some.inj same).symm

end LayerTree

end CodeEditor.Layer

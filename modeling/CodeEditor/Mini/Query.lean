import CodeEditor.Pattern.Match
import CodeEditor.Proofs.Syntax.Node
import CodeEditor.Query.Basic

/-!
A small language of queries.

A query is a list of patterns. A pattern describes a node by its kind and, in their order, some of
its children; every way in which nodes of the tree fit it is a match. Nodes can be captured under a
name, and conditions and properties can be added to a pattern.

`NodePattern.findings` lists every way in which a node fits a pattern, where the children are chosen
in order from left to right. The matches of a query on a tree are ordered by the place of the last
node they use, then by that of their first node, then by the number of the pattern; places are in
the order of the text, a node before the nodes in it. Whatever is captured is a node of the tree
(`QueryText.captured_at`).
-/

namespace CodeEditor.Mini

open Syntax (Node Located)
open Query (PatternNotes QueryMatch)

/-- A description of a node. -/
structure NodePattern where
  kind : String
  named : Bool
  /-- The numbers of the captures of the node. -/
  captures : List Nat
  /-- Some of its children, in order. -/
  children : List NodePattern
deriving Inhabited

/-- A condition that a query applies itself. If `every` is set all nodes of a capture must meet it,
else one suffices; it is met if there is no node at all. -/
inductive Constraint where
  /-- Two captures have equal texts, node by node, and no more nodes than each other. -/
  | sameText (left right : Nat) (positive every : Bool)
  | text (capture : Nat) (value : String) (positive every : Bool)
  | pattern (capture : Nat) (isMatch : String → Bool) (positive every : Bool)
  | oneOf (capture : Nat) (values : List String) (positive : Bool)

/-- A pattern of a query with what is said of it. -/
structure QueryPattern where
  root : NodePattern
  constraints : List Constraint
  notes : PatternNotes

/-- A query as it is written. -/
structure QueryText where
  patterns : List QueryPattern
  /-- The names of the captures by number. -/
  captureNames : List String

/-! ### Findings -/

/-- One way in which nodes fit a pattern. -/
structure Finding where
  /-- The captured nodes with the numbers of their captures, in the order of the pattern. -/
  captures : List (Nat × Located)
  /-- The path of the last node used. -/
  last : List Nat

/-- The ways to choose an element of a list, with the elements behind it. -/
def choices {α : Type} : List α → List (α × List α)
  | [] => []
  | a :: rest => (a, rest) :: choices rest

mutual

/-- The ways in which a node fits a pattern. -/
def NodePattern.findings : NodePattern → Located → List Finding
  | ⟨kind, named, captures, children⟩, x =>
      if x.node.kind = kind ∧ x.node.named = named then
        (findingsAmong children x.children x.path).map fun f =>
          { f with captures := captures.map (·, x) ++ f.captures }
      else []

/-- The ways in which some of the given nodes fit some patterns in order. If there are no patterns
left, the last node used is the given one. -/
def findingsAmong : List NodePattern → List Located → List Nat → List Finding
  | [], _, last => [⟨[], last⟩]
  | p :: rest, xs, _ =>
      (choices xs).flatMap fun (x, behind) =>
        (p.findings x).flatMap fun f =>
          (findingsAmong rest behind f.last).map fun g =>
            { g with captures := f.captures ++ g.captures }

end

theorem mem_of_mem_choices {α : Type} {a : α} {rest xs : List α} (mem : (a, rest) ∈ choices xs) :
    a ∈ xs ∧ ∀ b ∈ rest, b ∈ xs := by
  induction xs with
  | nil => cases mem
  | cons x xs ih =>
      rw [choices] at mem
      rcases List.mem_cons.mp mem with first | later
      · cases first
        exact ⟨List.mem_cons_self, fun b mem => List.mem_cons_of_mem _ mem⟩
      · obtain ⟨here, behind⟩ := ih later
        exact ⟨List.mem_cons_of_mem _ here, fun b mem => List.mem_cons_of_mem _ (behind b mem)⟩

/-- The captures of a finding are nodes below one of some nodes. -/
def Finding.In (f : Finding) (xs : List Located) : Prop :=
  ∀ capture ∈ f.captures, ∃ x ∈ xs, x.Within capture.2

mutual

theorem findings_in : ∀ (p : NodePattern) (x : Located), ∀ f ∈ p.findings x, f.In [x]
  | ⟨kind, named, captures, children⟩, x, f, mem => by
      rw [NodePattern.findings] at mem
      split at mem
      · obtain ⟨g, among', rfl⟩ := List.mem_map.mp mem
        intro capture among
        rcases List.mem_append.mp among with own | below
        · obtain ⟨n, -, rfl⟩ := List.mem_map.mp own
          exact ⟨x, List.mem_singleton_self x, .refl x⟩
        · obtain ⟨y, child, within⟩ :=
            findingsAmong_in children x.children x.path g among' capture below
          exact ⟨x, List.mem_singleton_self x, (Located.within_of_mem_children child).trans within⟩
      · cases mem

theorem findingsAmong_in : ∀ (ps : List NodePattern) (xs : List Located) (last : List Nat),
    ∀ f ∈ findingsAmong ps xs last, f.In xs
  | [], xs, last, f, mem => by
      rw [findingsAmong] at mem
      obtain rfl := List.mem_singleton.mp mem
      intro capture among
      cases among
  | p :: ps, xs, last, f, mem => by
      rw [findingsAmong] at mem
      obtain ⟨⟨x, behind⟩, choice, mem⟩ := List.mem_flatMap.mp mem
      obtain ⟨here, rest⟩ := mem_of_mem_choices choice
      obtain ⟨g, first, mem⟩ := List.mem_flatMap.mp mem
      obtain ⟨g', later, rfl⟩ := List.mem_map.mp mem
      intro capture among
      rcases List.mem_append.mp among with own | others
      · obtain ⟨y, single, within⟩ := findings_in p x g first capture own
        obtain rfl := List.mem_singleton.mp single
        exact ⟨y, here, within⟩
      · obtain ⟨y, among, within⟩ := findingsAmong_in ps behind g.last g' later capture others
        exact ⟨y, rest y among, within⟩

end

/-! ### Matches -/

/-- A match of a pattern. -/
structure Hit where
  /-- The number of the pattern. -/
  pattern : Nat
  /-- The path of the node that the pattern starts at. -/
  root : List Nat
  finding : Finding

namespace Hit

/-- The texts of the nodes of a capture. -/
def texts (h : Hit) (buffer : TextBuffer) (capture : Nat) : List String :=
  (h.finding.captures.filter (·.1 = capture)).map (·.2.node.text buffer)

/-- The order of matches. -/
def le (a b : Hit) : Bool :=
  a.finding.last < b.finding.last ||
    (a.finding.last == b.finding.last &&
      (a.root < b.root || (a.root == b.root && a.pattern ≤ b.pattern)))

end Hit

/-- All texts meet a condition, or one does. If there are none, that suffices. -/
def meets (texts : List String) (positive every : Bool) (condition : String → Bool) : Bool :=
  if every then texts.all fun t => condition t == positive
  else texts.isEmpty || texts.any fun t => condition t == positive

/-- The texts of two captures meet a condition in pairs, see `meets`. What is left over of one of
them does not. -/
def meetPairs (positive every : Bool) : List String → List String → Bool
  | a :: as, b :: bs =>
      if (a == b) == positive then if every then meetPairs positive every as bs else true
      else if every then false else meetPairs positive every as bs
  | as, bs => as.isEmpty && bs.isEmpty

/-- A match meets a constraint. -/
def Constraint.holds (buffer : TextBuffer) (h : Hit) : Constraint → Bool
  | .sameText left right positive every =>
      meetPairs positive every (h.texts buffer left) (h.texts buffer right)
  | .text capture value positive every => meets (h.texts buffer capture) positive every (· == value)
  | .pattern capture isMatch positive every => meets (h.texts buffer capture) positive every isMatch
  | .oneOf capture values positive =>
      (h.texts buffer capture).all fun t => values.contains t == positive

/-- A node lies at least partly in a range, if there is one. -/
def intersects (range : Option ByteRange) (x : Node) : Bool :=
  match range with
  | none => true
  | some r => x.start.byte < r.location + r.length && r.location < x.stop.byte

namespace QueryText

/-- The matches of a query that start at a node in a range and meet the constraints. -/
def matchesIn (q : QueryText) (tree : Node) (buffer : TextBuffer) (range : Option ByteRange) :
    List QueryMatch :=
  let roots := (Located.all [] tree).filter fun x => intersects range x.node
  let found := roots.flatMap fun x =>
    q.patterns.zipIdx.flatMap fun (p, i) =>
      (p.root.findings x).map fun finding => (p, (⟨i, x.path, finding⟩ : Hit))
  let kept := found.filter fun (p, h) => p.constraints.all (·.holds buffer h)
  ((kept.map (·.2)).mergeSort Hit.le).map fun h => ⟨h.pattern, h.finding.captures⟩

/-- What is captured are nodes of the tree. -/
theorem captured_at (q : QueryText) (tree : Node) (buffer : TextBuffer) (range : Option ByteRange) :
    ∀ m ∈ q.matchesIn tree buffer range, ∀ capture ∈ m.captures,
      tree.nodeAt? capture.2.path = some capture.2.node := by
  intro m mem capture among
  obtain ⟨h, sorted, rfl⟩ := List.mem_map.mp mem
  obtain ⟨⟨p, h⟩, kept, rfl⟩ := List.mem_map.mp (List.mem_mergeSort.mp sorted)
  obtain ⟨x, root, found⟩ := List.mem_flatMap.mp (List.mem_filter.mp kept).1
  obtain ⟨⟨p', i⟩, -, found⟩ := List.mem_flatMap.mp found
  obtain ⟨f, finding, same⟩ := List.mem_map.mp found
  cases same
  obtain ⟨y, single, within⟩ := findings_in _ x f finding capture among
  obtain rfl := List.mem_singleton.mp single
  obtain ⟨path, here, there⟩ :=
    (Located.within_of_mem_all tree (List.mem_filter.mp root).1).trans within
  rw [here]
  exact there

/-- The query with its matches. -/
def compiled (q : QueryText) : CompiledQuery where
  captureNames := q.captureNames
  patterns := q.patterns.map (·.notes)
  matchesIn := q.matchesIn
  captured_at := q.captured_at

end QueryText

end CodeEditor.Mini

import CodeEditor.Proofs.Layer.Upkeep
import CodeEditor.Proofs.Mini.Tree
import CodeEditor.Syntax.Mode

/-!
Nodes and the rows and columns of the document.

A node is found by the points of its tree, where LF alone ends a row, and it is shown by rows and
columns of the document, where a CR without an LF ends one too. `TextBuffer.Locates` says what this
comes to at one place: each such CR in front of it moves the row of the document down by one, and
where there is none both sides mean the same. `nodes_located` says so for all nodes of all layers,
however the layers came about, as long as the parser counts as parsers do (`Engine.Counts`).
-/

namespace CodeEditor

open Syntax (Node Mark Point Language Registry)

/-- What the index of a text says on a place in a syntax tree of it. -/
structure TextBuffer.Locates (text : TextBuffer) (index : LineIndex) (m : Mark) : Prop where
  /-- The index knows the place, and it has passed more rows by the CRs that no LF follows. -/
  row : ∃ q, (index.positionAt m.offset : Outcome LinePosition) = .ok q ∧
    q.row = m.point.row + text.loneReturns m.offset
  /-- The position of the point is the one that the index has where there are no such CRs. -/
  position : (index.positionAt m.offset : Outcome LinePosition) = .ok m.point.position ↔
    text.loneReturns m.offset = 0
  /-- And then the position that the index has leads back to the point. -/
  point : m.byte < wordLimit → ∀ q, (index.positionAt m.offset : Outcome LinePosition) = .ok q →
    (Point.ofPosition? q = some m.point ↔ text.loneReturns m.offset = 0)

theorem TextBuffer.Holds.locates {text : TextBuffer} {index : LineIndex} {m : Mark}
    (holds : text.Holds m) (fits : index.Fits text.units) : text.Locates index m := by
  obtain ⟨row, column⟩ := holds.beneath
  have found : (index.positionAt m.offset : Outcome LinePosition) = .ok (text.position m.offset) :=
    fits.positionAt_eq holds.offset_le
  constructor
  case row => exact ⟨_, found, row⟩
  case position =>
    rw [found, Except.ok.injEq]
    exact holds.position_eq_iff
  case point =>
    rintro word q here
    obtain rfl := Except.ok.inj (found.symm.trans here)
    rw [Point.ofPosition?, bytesOfUnits, Option.map_eq_some_iff]
    constructor
    · rintro ⟨column', -, same⟩
      rw [← same] at row
      exact Nat.left_eq_add.mp row
    · intro none
      refine ⟨m.point.column, Checked.mul_eq_some_iff.mpr ⟨(column none).symm, ?_⟩, ?_⟩
      · exact Nat.lt_of_le_of_lt holds.column_le word
      · rw [row, none, Nat.add_zero]

namespace Layer

namespace LayerView

variable {branchAt : Node → Point → Syntax.Branch} {p : Point}

theorem Hit.branch_of? {language : Language} {branch : Syntax.Branch} {h : Hit}
    (found : Hit.of? language branch = some h) : h.branch = branch := by
  rw [Hit.of?] at found
  split at found
  · cases found
  · cases found
    rfl

/-- The smaller one of two nodes is one of them. -/
theorem Hit.eq_of_nearer {best found : Option Hit} {h : Hit}
    (chosen : Hit.nearer best found = some h) :
    best = some h ∨ found = some h := by
  cases best with
  | none => exact .inr chosen
  | some best =>
      cases found with
      | none => exact .inl chosen
      | some found =>
          rw [Hit.nearer] at chosen
          split at chosen
          · exact .inr chosen
          · exact .inl chosen

/-- What holds of the nodes found in layers holds of the one that is chosen among them. -/
theorem hitBelow_of_forall {P : Hit → Prop} (vs : List LayerView) {best : Option Hit}
    (each : ∀ v ∈ vs, ∀ h, v.hit branchAt p = some h → P h) (start : ∀ h, best = some h → P h) :
    ∀ h, hitBelow branchAt p best vs = some h → P h := by
  induction vs generalizing best with
  | nil => rwa [hitBelow]
  | cons v vs ih =>
      have rest : ∀ w ∈ vs, ∀ h, w.hit branchAt p = some h → P h :=
        fun w mem => each w (List.mem_cons_of_mem v mem)
      rw [hitBelow]
      split
      · refine ih rest fun h chosen => ?_
        rcases Hit.eq_of_nearer chosen with same | same
        · exact start h same
        · exact each v List.mem_cons_self h same
      · exact ih rest start

end LayerView

namespace LayerTree

variable {t : LayerTree} {id : LayerId} {p : Point}

/-- A node of a layer that is seen. -/
def HasNode (t : LayerTree) (x : Node) : Prop :=
  ∃ id tree, t.Seen id ∧ t.tree? id = some tree ∧ tree.root.Has x

theorem hit_viewWithin (engine : Engine) {v : LayerView} {hit : LayerView.Hit} (fuel : Nat)
    (seen : t.Seen id) (view : t.viewWithin fuel id = some v)
    (found : v.hit engine.branchAt p = some hit) : ∀ x ∈ hit.branch, t.HasNode x := by
  induction fuel generalizing id v hit with
  | zero => cases view
  | succ fuel ih =>
      obtain ⟨l, there, made⟩ := Option.bind_eq_some_iff.mp view
      cases made
      cases has : l.tree with
      | none =>
          rw [has, LayerView.hit] at found
          cases found
      | some tree =>
          rw [has, LayerView.hit] at found
          refine LayerView.hitBelow_of_forall (P := fun hit => ∀ x ∈ hit.branch,
            t.HasNode x) _ ?_ ?_
            hit found
          · intro v mem hit found
            obtain ⟨child, among, view⟩ := List.mem_filterMap.mp mem
            refine ih ?_ view found
            rw [children, List.mem_mergeSort, there] at among
            obtain ⟨⟨site, _⟩, inside, rfl⟩ := List.mem_map.mp among
            exact seen.child there (Option.isSome_iff_exists.mpr ⟨tree, has⟩) inside
          · intro hit found x mem
            have has' : t.tree? id = some tree := by
              rw [tree?, there]
              exact has
            rw [LayerView.Hit.branch_of? found] at mem
            exact ⟨id, tree, seen, has', engine.has_of_mem_branchAt tree.root p x mem⟩

/-- The nodes at a point are nodes of the layers. -/
theorem hasNode_of_hit (engine : Engine) {hit : LayerView.Hit}
    (found : t.hit? engine.branchAt p = some hit) : ∀ x ∈ hit.branch, t.HasNode x := by
  obtain ⟨v, view, found⟩ := Option.bind_eq_some_iff.mp found
  exact hit_viewWithin engine _ .root view found

end LayerTree

end Layer

/-- The node that a mode finds at a position is a node of its layers, with the positions of its
points. -/
theorem Syntax.Mode.hasNode_of_nodeAt {m : Syntax.Mode} {p : LinePosition} {found : SyntaxNode}
    (at? : m.nodeAt p = some (some found)) : ∃ x, m.layers.HasNode x ∧
      found = ⟨x.kind, x.start.point.position, x.stop.point.position⟩ := by
  obtain ⟨hit, here, found⟩ := Option.bind_eq_some_iff.mp at?
  obtain ⟨point, -, here⟩ := Option.bind_eq_some_iff.mp here
  cases here
  obtain ⟨hit, here, found⟩ := Option.bind_eq_some_iff.mp (Option.some.inj found)
  obtain ⟨x, innermost, rfl⟩ := Option.map_eq_some_iff.mp found
  exact ⟨x, Layer.LayerTree.hasNode_of_hit m.engine here x (List.mem_of_head? innermost), rfl⟩

namespace Layer.LayerTree

/-- The nodes of the layers of a text against its rows and columns. -/
structure Located (text : TextBuffer) (index : LineIndex) (t : LayerTree) : Prop where
  nodes : ∀ x, t.HasNode x → text.Locates index x.start ∧ text.Locates index x.stop
  /-- What a mode answers are positions of nodes. -/
  nodeAt : ∀ m : Syntax.Mode, m.layers = t → ∀ p found, m.nodeAt p = some (some found) →
    ∃ x, t.HasNode x ∧ found = ⟨x.kind, x.start.point.position, x.stop.point.position⟩
  /-- The point of a place lies in a node exactly when the byte does. -/
  places : ∀ m, text.Holds m → text.Locates index m ∧
    ∀ x, t.HasNode x → (x.holds m.point ↔ x.start.byte ≤ m.byte ∧ m.byte < x.stop.byte)

variable {engine : Engine} {language : Language} {registry : Option Registry} {t t' : LayerTree}
  {text : TextBuffer} {index : LineIndex}

/-- Nodes have the rows and columns of the document wherever no CR without an LF stands in front,
and nowhere else. -/
theorem nodes_located (counts : engine.Counts) (touched : Touched engine language registry t)
    (run : parse engine text t = .ok () t' ∨ ∃ edit, applyEdit engine edit text t = .ok () t')
    (synced : LineIndex.Synced text index) : t'.Located text index := by
  have fits := synced.fits
  have held : ∀ x, t'.HasNode x → text.Holds x.start ∧ text.Holds x.stop := by
    rintro x ⟨id, tree, seen, has, inside⟩
    obtain ⟨n, language, range, parsed⟩ := gives_of_seen touched run seen has
    exact counts n language text range tree.root parsed x inside
  constructor
  case nodes =>
    intro x node
    obtain ⟨start, stop⟩ := held x node
    exact ⟨start.locates fits, stop.locates fits⟩
  case nodeAt =>
    rintro m rfl p found at?
    exact m.hasNode_of_nodeAt at?
  case places =>
    intro m holds
    refine ⟨holds.locates fits, fun x node => ?_⟩
    obtain ⟨start, stop⟩ := held x node
    rw [Node.holds, Bool.and_eq_true, start.le_iff holds, holds.lt_iff stop]

/-- Two words with a CR in between. -/
def twoWords : TextBuffer := ⟨['a', '\r', 'b']⟩

/-- The second word is in the first row for its tree, and in the second for the document. -/
theorem located_of_twoWords : ∃ t x,
    parse Mini.engine twoWords (unparsed ⟨0, "mini", none, none, none⟩ none {} .oldestFirst) =
      .ok () t ∧
    t.Located twoWords ((LineIndex.empty 12.0).rebuild twoWords) ∧ t.HasNode x ∧ x.kind = "word" ∧
    x.start.point.position = ⟨0, 2⟩ ∧
    (((LineIndex.empty 12.0).rebuild twoWords).positionAt x.start.offset : Outcome LinePosition) ≠
      .ok x.start.point.position := by
  obtain ⟨t, run, has⟩ : ∃ t,
      parse Mini.engine twoWords (unparsed ⟨0, "mini", none, none, none⟩ none {} .oldestFirst) =
        .ok () t ∧
      t.tree? t.root = some ⟨0, Mini.tree twoWords none⟩ := ⟨_, rfl, rfl⟩
  have located := nodes_located Mini.engine_counts (.unparsed {} .oldestFirst) (.inl run)
    (.rebuild (.empty 12.0) twoWords)
  have word : t.HasNode ⟨"word", true, ⟨4, 0, 4⟩, ⟨6, 0, 6⟩, []⟩ :=
    ⟨t.root, _, .root, has, .child (List.mem_of_getElem? (i := 1) rfl) (.self _)⟩
  refine ⟨t, _, run, located, word, rfl, rfl, fun same => ?_⟩
  have none := (located.nodes _ word).1.position.mp same
  exact absurd none (by decide)

end Layer.LayerTree

end CodeEditor

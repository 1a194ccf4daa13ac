import CodeEditor.Layer.Captures
import CodeEditor.Proofs.Highlight.Innermost
import CodeEditor.Proofs.Layer.Agreement
import CodeEditor.Proofs.Layer.Depth
import CodeEditor.Proofs.Layer.Rooted

/-!
The captures of all layers, of the layers themselves and of a snapshot.

Both walk through the layers below the root and sort what they find. They differ in the order in
which the children of a layer are met: a snapshot has them in the order of the text, and the order
in which a layer keeps them is nothing to rely on (`Reordered`). `captures_agree` says that they
find the same captures of the same layers whatever these orders are, and that sorting leaves no
difference but among captures that compare equal, where those of a layer come before those of the
layers below it.
-/

namespace CodeEditor

theorem mapM_eq_some {α β : Type} {f : α → Option β} {g : α → β} {xs : List α}
    (all : ∀ x ∈ xs, f x = some (g x)) : xs.mapM f = some (xs.map g) := by
  induction xs with
  | nil => rfl
  | cons x xs ih =>
      obtain ⟨first, rest⟩ := List.forall_mem_cons.mp all
      rw [List.mapM_cons, first, ih rest]
      rfl

namespace Highlight.Capture

/-- The order in which captures are applied is one by three numbers. -/
theorem transCmp_compare : Std.TransCmp Capture.compare := by
  have lexicographic : Capture.compare = compareLex (compareOn fun c => c.byteRange.location)
      (compareLex (fun a b => compareOn (fun c => c.byteRange.length) b a)
          (compareOn components)) :=
    rfl
  rw [lexicographic]
  have opposite : Std.TransCmp fun a b : Capture => compareOn (fun c => c.byteRange.length) b a :=
    .opposite
  infer_instance

theorem compare_eq_iff {a b : Capture} :
    a.compare b = .eq ↔ a.le b = true ∧ b.le a = true := by
  have oriented := transCmp_compare.toOrientedCmp.eq_swap (a := a) (b := b)
  rw [Capture.le, Capture.le, oriented]
  cases b.compare a <;> decide

theorem sorted_sort (cs : List Capture) : (Capture.sort cs).Pairwise fun a b => a.le b = true :=
  List.pairwise_mergeSort le_trans le_total cs

/-- The numbers by which captures are ordered. -/
def key (c : Capture) : Nat × Nat × Nat := (c.byteRange.location, c.byteRange.length, c.components)

/-- Sorted lists of the same captures tie place by place. -/
theorem forall₂_of_sorted {cs ds : List Capture} (perm : cs.Perm ds)
    (sorted : cs.Pairwise fun a b => a.le b = true)
    (sorted' : ds.Pairwise fun a b => a.le b = true) :
    List.Forall₂ (fun a b => a.compare b = .eq) cs ds := by
  have keys {cs : List Capture} (sorted : cs.Pairwise fun a b => a.le b = true) :
      (cs.map key).Pairwise fun k k' => k.1 < k'.1 ∨ k.1 = k'.1 ∧
        (k'.2.1 < k.2.1 ∨ k'.2.1 = k.2.1 ∧ k.2.2 ≤ k'.2.2) :=
    List.pairwise_map.mpr (sorted.imp le_iff.mp)
  have same : cs.map key = ds.map key := by
    refine (perm.map key).eq_of_pairwise ?_ (keys sorted) (keys sorted')
    rintro ⟨a, b, c⟩ ⟨a', b', c'⟩ - - before behind
    dsimp only at before behind
    rw [Prod.mk.injEq, Prod.mk.injEq]
    omega
  rw [← List.forall₂_eq_eq_eq, List.forall₂_map_left_iff, List.forall₂_map_right_iff] at same
  refine same.imp fun a b same => compare_eq_iff.mpr ?_
  simp only [key, Prod.mk.injEq] at same
  rw [le_iff, le_iff]
  omega

end Highlight.Capture

namespace Layer

open Highlight (Capture)
open Syntax (Language Node Registry)

namespace LayerTree

/-- The same layers with their children kept in other orders. -/
structure Reordered (t t' : LayerTree) : Prop where
  text : t'.text = t.text
  root : t'.root = t.root
  size : t'.store.slots.size = t.store.slots.size
  layers : ∀ id, Option.Rel
    (fun l l' => l' = { l with children := l'.children } ∧ l'.children.Perm l.children)
    (t.layer? id) (t'.layer? id)

/-- Add the captures of the layer with an identity. -/
def addLayer (t : LayerTree) (range : ByteRange) (found : Found) (id : LayerId) : Checked Found :=
  match t.layer? id with
  | none => some found
  | some l => addCaptures t.text range l.language l.tree found

/-- The captures of one layer that overlap a range. -/
def capturesAt (t : LayerTree) (range : ByteRange) (id : LayerId) : Checked (List Capture) :=
  if range.isEmpty then some [] else (t.addLayer range ([], {}) id).map (·.1)

/-- Captures by their layers. -/
structure Traced (t : LayerTree) (range : ByteRange) (traced : List (LayerId × Capture))
    (cs : List Capture) : Prop where
  captures : traced.map (·.2) = cs
  /-- They are the captures of all layers below the root. -/
  layers : ∃ (ids : List LayerId) (own : LayerId → List Capture), ids.Nodup ∧
    (∀ id, id ∈ ids ↔ t.store.Below t.root id) ∧
    (∀ id ∈ ids, t.capturesAt range id = some (own id)) ∧
    traced.Perm (ids.flatMap fun id => (own id).map (id, ·))
  /-- A capture of a layer comes before captures of layers below it that tie with it. -/
  parentsFirst : traced.Pairwise fun a b =>
    a.2.compare b.2 = .eq → t.store.Below b.1 a.1 → a.1 = b.1

/-- Captures in their order that are the same up to the order of those that compare equal. -/
structure Agree (t : LayerTree) (range : ByteRange) (cs ds : List Capture) : Prop where
  perm : cs.Perm ds
  ties : List.Forall₂ (fun a b => a.compare b = .eq) cs ds
  sorted : cs.Pairwise fun a b => a.compare b ≠ .gt
  sorted' : ds.Pairwise fun a b => a.compare b ≠ .gt
  traced : ∃ a b, t.Traced range a cs ∧ t.Traced range b ds ∧ a.Perm b

variable {t t' t₁ t₂ : LayerTree} {range : ByteRange} {ids : List LayerId} {id : LayerId}
  {found : Found} {fuel : Nat}

/-! ### One layer -/

/-- A layer has nothing to offer, or it adds what its query finds in its tree. -/
theorem addCaptures_cases (text : TextBuffer) (range : ByteRange) (language : Language)
    (tree : Option ParsedTree) :
    (∀ found, addCaptures text range language tree found = some found) ∨
      ∃ (q : Query) (p : ParsedTree), tree = some p ∧
        ∀ found, (addCaptures text range language tree found).map (·.1) =
          range.upperBound.bind fun _ =>
            ((q.supportedMatches p.root text (some range) (QueryReports.of [] language.id)).1.mapM
              (capturesOf q range)).map fun new => found.1 ++ new.flatten := by
  cases highlights : language.highlights with
  | none => exact .inl fun found => by rw [addCaptures.eq_def, highlights]
  | some q =>
      cases tree with
      | none => exact .inl fun found => by rw [addCaptures.eq_def, highlights]
      | some p =>
          by_cases empty : p.root.isEmpty = true
          · refine .inl fun found => ?_
            rw [addCaptures.eq_def, highlights]
            exact if_pos empty
          · refine .inr ⟨q, p, rfl, fun found => ?_⟩
            rw [addCaptures.eq_def, highlights]
            dsimp only
            have same := q.supportedMatches_fst p.root text (some range)
              (QueryReports.of found.2.highlights language.id) (QueryReports.of [] language.id)
            rw [if_neg empty, ← same]
            cases range.upperBound with
            | none => rfl
            | some upper =>
                simp only [Option.bind_eq_bind, Option.bind_some]
                cases (q.supportedMatches p.root text (some range)
                  (QueryReports.of found.2.highlights language.id)).1.mapM (capturesOf q range) with
                | none => rfl
                | some new => rfl

/-- What a layer adds does not depend on what has been found. -/
theorem addCaptures_fst (text : TextBuffer) (range : ByteRange) (language : Language)
    (tree : Option ParsedTree) (found : Found) :
    (addCaptures text range language tree found).map (·.1) =
      (addCaptures text range language tree ([], {})).map fun new => found.1 ++ new.1 := by
  rcases addCaptures_cases text range language tree with nothing | ⟨q, p, -, adds⟩
  · rw [nothing, nothing, Option.map_some, Option.map_some, List.append_nil]
  · calc _ = ((addCaptures text range language tree ([], {})).map (·.1)).map (found.1 ++ ·) := by
          rw [adds, adds, Option.map_bind]
          simp [Function.comp_def]
      _ = _ := by
          rw [Option.map_map]
          rfl

theorem addLayer_fst (t : LayerTree) (range : ByteRange) (found : Found) (id : LayerId) :
    (t.addLayer range found id).map (·.1) =
      (t.addLayer range ([], {}) id).map fun new => found.1 ++ new.1 := by
  rw [addLayer, addLayer]
  cases t.layer? id with
  | none => simp
  | some l => exact addCaptures_fst t.text range l.language l.tree found

/-- The captures of some layers are those of each of them. -/
theorem foldlM_addLayer (nonempty : range.isEmpty = false) :
    (ids.foldlM (t.addLayer range) found).map (·.1) =
      (ids.mapM (t.capturesAt range)).map fun own => found.1 ++ own.flatten := by
  induction ids generalizing found with
  | nil => simp
  | cons id ids ih =>
      have first := t.addLayer_fst range found id
      rw [List.foldlM_cons, List.mapM_cons, capturesAt, nonempty, if_neg Bool.false_ne_true]
      cases alone : t.addLayer range ([], {}) id with
      | none =>
          rw [alone] at first
          rw [Option.map_eq_none_iff.mp first]
          rfl
      | some new =>
          rw [alone, Option.map_some] at first
          obtain ⟨found', added, both⟩ := Option.map_eq_some_iff.mp first
          rw [added]
          show (ids.foldlM (t.addLayer range) found').map (·.1) = _
          rw [ih, both]
          cases ids.mapM (t.capturesAt range) with
          | none => rfl
          | some own => simp

/-! ### Walks -/

/-- The walk through the layers themselves follows a listing, if it has enough fuel for it. -/
theorem collect_eq {walk : LayerId → List LayerId} {reached : LayerId → Prop}
    (step : ∀ id, reached id → ∃ l, t.layer? id = some l ∧
      walk id = id :: (l.children.map (·.2)).reverse.flatMap walk ∧
      ∀ child ∈ l.children.map (·.2), reached child)
    {stack : List LayerId} (all : ∀ id ∈ stack, reached id)
    (enough : (stack.flatMap walk).length ≤ fuel) :
    t.collect range fuel stack found = (stack.flatMap walk).foldlM (t.addLayer range) found := by
  induction fuel generalizing stack found with
  | zero =>
      rw [List.eq_nil_of_length_eq_zero (Nat.le_zero.mp enough), collect]
      rfl
  | succ fuel ih =>
      cases stack with
      | nil =>
          rw [collect]
          · rfl
          · exact Nat.succ_ne_zero fuel
      | cons id rest =>
          obtain ⟨reachedId, reachedRest⟩ := List.forall_mem_cons.mp all
          obtain ⟨l, there, layers, below⟩ := step id reachedId
          have next : (id :: rest).flatMap walk =
              id :: ((l.children.map (·.2)).reverse ++ rest).flatMap walk := by
            rw [List.flatMap_cons, layers, List.flatMap_append]
            rfl
          rw [next, List.length_cons] at enough
          rw [collect, there, next, List.foldlM_cons, addLayer, there]
          dsimp only
          congr 1
          funext found'
          refine ih (List.forall_mem_append.mpr ⟨fun child mem => ?_, reachedRest⟩) (by omega)
          exact below child (List.mem_reverse.mp mem)

/-- The walk through a view follows the listing with the children in the order of the text. -/
theorem collect_viewWithin (t : LayerTree) (range : ByteRange) (fuel : Nat) (id : LayerId) :
    match t.viewWithin fuel id with
    | none => t.store.listing t.children fuel id = []
    | some v => ∀ found, Snapshot.collect t.text range v found =
        (t.store.listing t.children fuel id).foldlM (t.addLayer range) found := by
  induction fuel generalizing id with
  | zero => rfl
  | succ fuel ih =>
      have views (ids : List LayerId) (found : Found) :
          Snapshot.collectAll t.text range (ids.filterMap (t.viewWithin fuel)) found =
            (ids.reverse.flatMap (t.store.listing t.children fuel)).foldlM (t.addLayer range)
              found := by
        induction ids generalizing found with
        | nil =>
            rw [List.filterMap_nil, Snapshot.collectAll]
            rfl
        | cons id ids ihs =>
            have spec := ih id
            rw [List.reverse_cons, List.flatMap_append, List.foldlM_append, ← ihs,
              List.flatMap_singleton]
            cases view : t.viewWithin fuel id with
            | none =>
                rw [view] at spec
                dsimp only at spec
                rw [List.filterMap_cons_none view, spec]
                show _ = _ >>= pure
                rw [bind_pure]
            | some v =>
                rw [view] at spec
                rw [List.filterMap_cons_some view, Snapshot.collectAll]
                congr 1
                funext found'
                exact spec found'
      cases there : t.layer? id with
      | none =>
          rw [viewWithin, there]
          exact LayerStore.listing_vacant there
      | some l =>
          rw [viewWithin, there]
          intro found
          rw [Snapshot.collect, LayerStore.listing_cons there, List.foldlM_cons, addLayer, there]
          dsimp only
          congr 1
          funext found'
          exact views (t.children id) found'

/-! ### Orders of children -/

/-- The children of a layer as it keeps them. -/
def stored (t : LayerTree) (id : LayerId) : List LayerId :=
  (((t.layer? id).map (·.children)).getD []).map (·.2)

namespace Reordered

theorem refl (t : LayerTree) : t.Reordered t := by
  refine ⟨rfl, rfl, rfl, fun id => ?_⟩
  cases t.layer? id with
  | none => exact .none
  | some l => exact .some ⟨rfl, .refl _⟩

variable (reordered : t.Reordered t')

include reordered

theorem isSome_layer? (id : LayerId) : (t'.layer? id).isSome = (t.layer? id).isSome := by
  have layers := reordered.layers id
  generalize t.layer? id = layer, t'.layer? id = layer' at layers
  cases layers with
  | none => rfl
  | some _ => rfl

theorem addLayer_eq : t'.addLayer range = t.addLayer range := by
  funext found id
  have layers := reordered.layers id
  rw [addLayer, addLayer, reordered.text]
  generalize t.layer? id = layer, t'.layer? id = layer' at layers
  cases layers with
  | none => rfl
  | some same =>
      rw [same.1]

theorem orders_stored : t.store.Orders t'.stored := by
  intro id l there
  have layers := reordered.layers id
  have there : t.layer? id = some l := there
  rw [there] at layers
  rw [stored]
  generalize t'.layer? id = layer' at layers
  cases layers with
  | some same => exact same.2.map _

theorem orders_children : t.store.Orders t'.children := by
  intro id l there
  exact (List.mergeSort_perm _ _).trans (reordered.orders_stored id l there)

end Reordered

/-! ### All layers -/

/-- The layers below the root, with the children of each in an order. -/
def listed (t : LayerTree) (order : LayerId → List LayerId) : List LayerId :=
  t.store.listing order t.store.slots.size t.root

/-- The captures of some layers in the order in which they are applied. -/
def capturesIn (t : LayerTree) (range : ByteRange) (ids : List LayerId) : Checked (List Capture) :=
  (ids.mapM (t.capturesAt range)).map fun own => Capture.sort own.flatten

theorem capturesIn_eq {own : LayerId → List Capture}
    (all : ∀ id ∈ ids, t.capturesAt range id = some (own id)) :
    t.capturesIn range ids = some (Capture.sort (ids.flatMap own)) := by
  rw [capturesIn, mapM_eq_some all, Option.map_some, List.flatMap_def]

theorem capturesIn_eq_none (mem : id ∈ ids) (none : t.capturesAt range id = none) :
    t.capturesIn range ids = Option.none := by
  have each : ids.mapM (t.capturesAt range) = Option.none := by
    induction ids with
    | nil => cases mem
    | cons first ids ih =>
        rw [List.mapM_cons]
        rcases List.mem_cons.mp mem with rfl | mem
        · rw [none]
          rfl
        · rw [ih mem]
          cases t.capturesAt range first <;> rfl
  rw [capturesIn, each]
  rfl

theorem capturesIn_of_empty (empty : range.isEmpty = true) (ids : List LayerId) :
    t.capturesIn range ids = some [] := by
  have none : ids.flatMap (fun _ => ([] : List Capture)) = [] :=
    List.flatMap_eq_nil_iff.mpr fun _ _ => rfl
  rw [capturesIn_eq fun id _ => by rw [capturesAt, if_pos empty], none, Capture.sort,
    List.mergeSort_nil]

/-- What a walk finds, sorted. -/
theorem sorted_foldlM (nonempty : range.isEmpty = false) (ids : List LayerId)
    (reports : QueryReports) :
    ((ids.foldlM (t.addLayer range) ([], reports)).map fun (captures, reports) =>
      (Capture.sort captures, reports)).map (·.1) = t.capturesIn range ids := by
  have folded : (ids.foldlM (t.addLayer range) ([], reports)).map (·.1) =
      (ids.mapM (t.capturesAt range)).map fun own => [] ++ own.flatten :=
    foldlM_addLayer nonempty
  calc _ = ((ids.foldlM (t.addLayer range) ([], reports)).map (·.1)).map Capture.sort := by
        rw [Option.map_map, Option.map_map]
        rfl
    _ = t.capturesIn range ids := by
        rw [folded, Option.map_map, capturesIn]
        rfl

section Listed

variable (shaped : t.store.Shaped (.ofRoot t.root))

include shaped

/-- A layer is listed in front of its children, and so are they. -/
theorem listing_stored {n : Nat} (reordered : t.Reordered t₁) (lies : t.store.Lies n t.root id) :
    ∃ l, t₁.layer? id = some l ∧
      t.store.listing t₁.stored t.store.slots.size id =
        id :: (l.children.map (·.2)).reverse.flatMap
          (t.store.listing t₁.stored t.store.slots.size) ∧
      ∀ child ∈ l.children.map (·.2), t.store.Lies (n + 1) t.root child := by
  have orders := reordered.orders_stored
  obtain ⟨l, there⟩ := LayerStore.exists_of_lies shaped lies
  have layers := reordered.layers id
  have there' : t.layer? id = some l := there
  rw [there'] at layers
  generalize kept : t₁.layer? id = layer at layers
  cases layers with
  | @some _ l' same =>
      have children : l'.children.map (·.2) = t₁.stored id := by
        rw [stored, kept]
        rfl
      refine ⟨l', rfl, ?_, fun child mem => ?_⟩
      · rw [← LayerStore.listing_succ shaped orders lies (Nat.le_add_left _ _),
          LayerStore.listing_cons there, children]
      · obtain ⟨site, holds⟩ := orders.holds there (children ▸ mem)
        exact .child lies holds

/-- The captures of the layers themselves are those of the layers below the root. -/
theorem captures_fst (reordered : t.Reordered t₁) (range : ByteRange) :
    (t₁.captures range).map (·.1) =
      t.capturesIn range (t.listed t₁.stored) := by
  have orders := reordered.orders_stored
  rw [captures]
  by_cases empty : range.isEmpty = true
  · rw [if_pos empty, capturesIn_of_empty empty]
    rfl
  · have walk := @collect_eq t₁ range ([], t₁.reports) (t₁.store.slots.size + 1)
      (t.store.listing t₁.stored t.store.slots.size) (fun id => ∃ n, t.store.Lies n t.root id) ?step
      [t₁.root] ?root ?enough
    case step =>
      rintro id ⟨n, lies⟩
      obtain ⟨l, there, layers, below⟩ := listing_stored shaped reordered lies
      exact ⟨l, there, layers, fun child mem => ⟨n + 1, below child mem⟩⟩
    case root =>
      intro id mem
      obtain rfl := List.mem_singleton.mp mem
      exact ⟨0, reordered.root ▸ .refl _⟩
    case enough =>
      rw [List.flatMap_singleton, reordered.root, reordered.size]
      exact Nat.le_succ_of_le (LayerStore.length_listing_le shaped orders (.refl _))
    have nonempty := Bool.eq_false_iff.mpr empty
    rw [if_neg empty, walk, List.flatMap_singleton, reordered.root, reordered.addLayer_eq]
    exact sorted_foldlM nonempty _ _

omit shaped in
/-- The captures of a snapshot are those of the layers below the root, in another order of
children. -/
theorem snapshot_captures_fst (reordered : t.Reordered t₂) (range : ByteRange)
    (reports : QueryReports) :
    ((Snapshot.take t₂).captures range reports).map (·.1) =
      t.capturesIn range (t.listed t₂.children) := by
  rw [Snapshot.captures]
  by_cases empty : range.isEmpty = true
  · rw [if_pos empty, capturesIn_of_empty empty]
    rfl
  · have nonempty := Bool.eq_false_iff.mpr empty
    have spec := t₂.collect_viewWithin range t₂.store.slots.size t₂.root
    rw [LayerStore.listing_congr reordered.isSome_layer?, reordered.root, reordered.size,
      reordered.addLayer_eq] at spec
    have view : (Snapshot.take t₂).root = t₂.viewWithin t.store.slots.size t.root := by
      rw [← reordered.root, ← reordered.size]
      rfl
    rw [if_neg empty, view, ← sorted_foldlM nonempty _ reports, listed]
    cases viewed : t₂.viewWithin t.store.slots.size t.root with
    | none =>
        rw [viewed] at spec
        rw [spec]
        show some [] = some (Capture.sort [])
        rw [Capture.sort, List.mergeSort_nil]
    | some v =>
        rw [viewed] at spec
        dsimp only at spec ⊢
        rw [← spec]
        rfl

/-- The captures of all layers, by their layers. -/
theorem traced_listed {order : LayerId → List LayerId} (orders : t.store.Orders order)
    {own : LayerId → List Capture}
    (all : ∀ id ∈ t.listed order, t.capturesAt range id = some (own id)) :
    t.Traced range
      (((t.listed order).flatMap fun id => (own id).map (id, ·)).mergeSort fun a b => a.2.le b.2)
      (Capture.sort ((t.listed order).flatMap own)) := by
  have inOrder : (t.listed order).Pairwise fun a b => ∀ k, ¬t.store.Lies k b a :=
    LayerStore.pairwise_listing shaped orders (.refl _)
  constructor
  case captures =>
    rw [List.map_mergeSort (s := Capture.le) (fun _ _ _ _ => rfl), Capture.sort, List.map_flatMap]
    simp
  case layers =>
    refine ⟨_, own, ?_, fun id => ⟨fun mem => ?_, fun below => ?_⟩, all, List.mergeSort_perm _ _⟩
    · exact LayerStore.nodup_listing shaped orders (.refl _)
    · obtain ⟨⟨k, lies⟩, -⟩ := LayerStore.exists_of_mem_listing orders mem
      exact LayerStore.below_of_lies lies
    · exact LayerStore.mem_listing shaped orders below (.refl _) (Nat.le_add_left _ _)
  case parentsFirst =>
    have parents : ((t.listed order).flatMap fun id => (own id).map (id, ·)).Pairwise fun a b =>
        t.store.Below b.1 a.1 → a.1 = b.1 := by
      refine List.pairwise_flatMap.mpr ⟨fun id _ => ?_, inOrder.imp fun apart => ?_⟩
      · refine List.pairwise_of_forall_mem_list fun a memA b memB _ => ?_
        obtain ⟨c, -, rfl⟩ := List.mem_map.mp memA
        obtain ⟨d, -, rfl⟩ := List.mem_map.mp memB
        rfl
      · intro x memX y memY below
        obtain ⟨c, -, rfl⟩ := List.mem_map.mp memX
        obtain ⟨d, -, rfl⟩ := List.mem_map.mp memY
        obtain ⟨k, lies⟩ := LayerStore.Below.exists_lies below
        exact absurd lies (apart k)
    have sorted := @pairwise_mergeSort _ (fun a b : LayerId × Capture => a.2.le b.2) _ _
      (fun _ _ _ => Highlight.le_trans _ _ _) (fun _ _ => Highlight.le_total _ _) parents
    exact sorted.imp fun ordered tie => ordered.2 (Capture.compare_eq_iff.mp tie).2

/-- Whatever the order of children is, the same captures are found, or none are found because a
bound cannot be counted. -/
theorem agree_listed {order order' : LayerId → List LayerId} (orders : t.store.Orders order)
    (orders' : t.store.Orders order') :
    Option.Rel (t.Agree range) (t.capturesIn range (t.listed order))
      (t.capturesIn range (t.listed order')) := by
  have perm : (t.listed order).Perm (t.listed order') := LayerStore.listing_perm orders orders' _ _
  by_cases found : ∀ id ∈ t.listed order, (t.capturesAt range id).isSome
  · obtain ⟨own, all⟩ : ∃ own : LayerId → List Capture,
        ∀ id ∈ t.listed order, t.capturesAt range id = some (own id) := by
      refine ⟨fun id => (t.capturesAt range id).getD [], fun id mem => ?_⟩
      obtain ⟨own, alone⟩ := Option.isSome_iff_exists.mp (found id mem)
      dsimp only
      rw [alone, Option.getD_some]
    have all' := fun id mem => all id (perm.mem_iff.mpr mem)
    rw [capturesIn_eq all, capturesIn_eq all']
    have same : (Capture.sort ((t.listed order).flatMap own)).Perm
        (Capture.sort ((t.listed order').flatMap own)) :=
      (List.mergeSort_perm _ _).trans ((perm.flatMap_right own).trans
        (List.mergeSort_perm _ _).symm)
    refine .some ⟨same, Capture.forall₂_of_sorted same (Capture.sorted_sort _)
      (Capture.sorted_sort _),
      ?_, ?_, _, _, traced_listed shaped orders all, traced_listed shaped orders' all', ?_⟩
    · exact (Capture.sorted_sort _).imp bne_iff_ne.mp
    · exact (Capture.sorted_sort _).imp bne_iff_ne.mp
    · exact (List.mergeSort_perm _ _).trans
        ((perm.flatMap_right _).trans (List.mergeSort_perm _ _).symm)
  · simp only [not_forall] at found
    obtain ⟨id, mem, none⟩ := found
    have none := Option.not_isSome_iff_eq_none.mp none
    rw [capturesIn_eq_none mem none, capturesIn_eq_none (perm.mem_iff.mp mem) none]
    exact .none

end Listed

/-! ### Bounds -/

/-- The bytes at which nodes start and end can be counted. -/
def Counted (t : LayerTree) : Prop :=
  ∀ id tree, t.tree? id = some tree → ∀ x, tree.root.Has x →
    x.start.byte < wordLimit ∧ x.stop.byte < wordLimit

theorem exists_capturesOf {q : Query} {m : Query.QueryMatch}
    (word : range.location + range.length < wordLimit)
    (counted : ∀ capture ∈ m.captures,
      capture.2.node.start.byte < wordLimit ∧ capture.2.node.stop.byte < wordLimit) :
    ∃ cs, capturesOf q range m = some cs := by
  rw [capturesOf]
  generalize properties _ = settings
  generalize m.captures = captures at counted
  induction captures with
  | nil => exact ⟨[], rfl⟩
  | cons capture captures ih =>
      obtain ⟨name, x⟩ := capture
      obtain ⟨⟨start, stop⟩, rest⟩ := List.forall_mem_cons.mp counted
      obtain ⟨cs, found⟩ := ih rest
      have node : x.node.byteRange.location + x.node.byteRange.length < wordLimit := by
        rw [Node.byteRange, ByteRange.ofBounds]
        dsimp only at start stop ⊢
        omega
      rw [List.foldrM_cons, found, Option.bind_eq_bind, Option.bind_some]
      dsimp only
      cases q.captureNames[name]? with
      | none => exact ⟨cs, rfl⟩
      | some name =>
          dsimp only
          obtain ⟨overlap, ok, -⟩ := ByteRange.exists_overlaps node word
          by_cases hidden : "_".isPrefixOf name = true
          · rw [if_pos hidden]
            exact ⟨cs, rfl⟩
          · rw [if_neg hidden, ok]
            cases overlap with
            | false => exact ⟨cs, rfl⟩
            | true => exact ⟨_, rfl⟩

theorem exists_capturesAt (counted : t.Counted)
    (word : range.location + range.length < wordLimit) (id : LayerId) :
    ∃ own, t.capturesAt range id = some own := by
  rw [capturesAt]
  by_cases empty : range.isEmpty = true
  · rw [if_pos empty]
    exact ⟨[], rfl⟩
  · rw [if_neg empty, addLayer]
    cases there : t.layer? id with
    | none => exact ⟨[], rfl⟩
    | some l =>
        dsimp only
        rcases addCaptures_cases t.text range l.language l.tree with nothing | ⟨q, p, has, adds⟩
        · rw [nothing]
          exact ⟨[], rfl⟩
        · have known : t.tree? id = some p := by rw [tree?, there, Option.bind_some, has]
          have each : ∀ m ∈ (q.supportedMatches p.root t.text (some range)
              (QueryReports.of [] l.language.id)).1,
              capturesOf q range m = some ((capturesOf q range m).getD []) := by
            intro m mem
            obtain ⟨cs, found⟩ := exists_capturesOf word fun capture among => by
              have at? := Query.nodeAt?_of_mem_supportedMatches mem capture among
              exact counted id p known _ (Node.has_of_nodeAt? at?)
            rw [found, Option.getD_some]
          rw [adds, ByteRange.upperBound_eq word, Option.bind_some, mapM_eq_some each]
          exact ⟨_, rfl⟩

variable {engine : Engine} {language : Language} {registry : Option Registry}

/-- The captures of the layers and those of a snapshot agree, in whatever order the children of a
layer are kept. Neither can be had when the end of the range or of a node is no word, and else both
can. -/
theorem captures_agree (touched : Touched engine language registry t) (range : ByteRange) :
    Std.TransCmp Capture.compare ∧
      (∀ a b : Capture, a.compare b ≠ .gt ↔ a.byteRange.location < b.byteRange.location ∨
        a.byteRange.location = b.byteRange.location ∧ (b.byteRange.length < a.byteRange.length ∨
          b.byteRange.length = a.byteRange.length ∧ a.components ≤ b.components)) ∧
      (∀ t₁ t₂ reports, t.Reordered t₁ → t.Reordered t₂ →
        Option.Rel (t.Agree range) ((t₁.captures range).map (·.1))
          (((Snapshot.take t₂).captures range reports).map (·.1))) ∧
      (t.Counted → range.location + range.length < wordLimit →
        ∃ found, t.captures range = some found) := by
  have shaped := touched.shaped
  refine ⟨Capture.transCmp_compare, fun a b => bne_iff_ne.symm.trans Highlight.le_iff,
    fun t₁ t₂ reports first second => ?_, fun counted word => ?_⟩
  · rw [captures_fst shaped first, snapshot_captures_fst second]
    exact agree_listed shaped first.orders_stored second.orders_children
  · obtain ⟨own, all⟩ := Classical.skolem.mp (exists_capturesAt counted word)
    have found := captures_fst shaped (.refl t) range
    rw [capturesIn_eq fun id _ => all id] at found
    obtain ⟨found, captured, -⟩ := Option.map_eq_some_iff.mp found
    exact ⟨found, captured⟩

/-! ### A page with a note -/

def page : Language := { outer with highlights := some (kindQuery "body") }

def note : Language := { plain with highlights := some (kindQuery "text") }

def pageLanguages : Registry := ⟨[("plain", note)]⟩

/-- A page whose body is a note. -/
def pageLayers (reports : QueryReports) : LayerTree where
  store := ⟨#[
    ⟨0, some ⟨page, some ⟨0, markedTree page dashText none⟩, none, [(⟨0, [1]⟩, ⟨1, 0⟩)], none⟩⟩,
    ⟨0, some ⟨note, some ⟨1, leaf "text" 2 4⟩, some ⟨0, 0⟩, [], some ⟨2, 2⟩⟩⟩], []⟩
  root := ⟨0, 0⟩
  registry := some pageLanguages
  text := dashText
  parses := 2
  reports := reports
  order := .oldestFirst

/-- A page whose body has no layer yet. -/
def newPage : LayerTree where
  store := ⟨#[⟨0, some ⟨page, some ⟨0, markedTree page dashText none⟩, none, [], none⟩⟩], []⟩
  root := ⟨0, 0⟩
  registry := some pageLanguages
  text := dashText
  parses := 1
  reports := {}
  order := .oldestFirst

theorem parse_page :
    ∃ reports, parse markedEngine dashText (unparsed page (some pageLanguages) {} .oldestFirst) =
    .ok () (pageLayers reports) := by
  have begun : parse markedEngine dashText (unparsed page (some pageLanguages) {} .oldestFirst) =
      (injections markedEngine ⟨0, 0⟩ >>= fun found =>
        found.forM (createInjected (parseLayer markedEngine 11) ⟨0, 0⟩)) newPage := rfl
  have there : newPage.layer? ⟨0, 0⟩ =
      some ⟨page, some ⟨0, markedTree page dashText none⟩, none, [], none⟩ := rfl
  obtain ⟨reports, run⟩ := injections_eq markedEngine there rfl rfl
  have found : (injectionsOf bodyQuery (markedTree page dashText none) newPage.text {}).1 = _ :=
    dash_injections
  rw [found] at run
  refine ⟨reports, ?_⟩
  rw [begun, bind_ok run]
  rfl

theorem captures_page {reports : QueryReports}
    (shaped : (pageLayers reports).store.Shaped (.ofRoot ⟨0, 0⟩)) :
    ((pageLayers reports).captures ⟨0, 4⟩).map (·.1) =
      some [⟨"body", ⟨2, 2⟩, "body", []⟩, ⟨"text", ⟨2, 2⟩, "text", []⟩] := by
  have ofPage : (pageLayers reports).capturesAt ⟨0, 4⟩ ⟨0, 0⟩ =
      some [⟨"body", ⟨2, 2⟩, "body", []⟩] := by
    show (addCaptures dashText ⟨0, 4⟩ page (some ⟨0, markedTree page dashText none⟩) ([], {})).map
      (·.1) = _
    rw [addCaptures.eq_def, show page.highlights = some (kindQuery "body") from rfl]
    dsimp only
    decide +kernel
  have ofNote : (pageLayers reports).capturesAt ⟨0, 4⟩ ⟨1, 0⟩ =
      some [⟨"text", ⟨2, 2⟩, "text", []⟩] := by
    show (addCaptures dashText ⟨0, 4⟩ note (some ⟨1, leaf "text" 2 4⟩) ([], {})).map (·.1) = _
    rw [addCaptures.eq_def, show note.highlights = some (kindQuery "text") from rfl]
    dsimp only
    decide +kernel
  have listed : (pageLayers reports).listed (pageLayers reports).stored = [⟨0, 0⟩, ⟨1, 0⟩] := rfl
  rw [captures_fst shaped (.refl _), listed, capturesIn, List.mapM_cons, List.mapM_cons,
    ofPage, ofNote]
  exact congrArg some (List.mergeSort_of_pairwise (by decide))

/-- The body of a page has the same place as the note in it, whose layer is below. -/
theorem agree_of_page : ∃ t live copied,
    Touched markedEngine page (some pageLanguages) t ∧ (t.captures ⟨0, 4⟩).map (·.1) = some live ∧
      ((Snapshot.take t).captures ⟨0, 4⟩ {}).map (·.1) = some copied ∧ t.Agree ⟨0, 4⟩ live copied ∧
      live.map (·.name) = ["body", "text"] := by
  obtain ⟨reports, parsed⟩ := parse_page
  have touched : Touched markedEngine page (some pageLanguages) (pageLayers reports) := by
    have behind := Touched.parse dashText
      (.unparsed {} .oldestFirst : Touched markedEngine page (some pageLanguages) _)
    rwa [parsed] at behind
  have live := captures_page touched.shaped
  obtain ⟨-, -, agree, -⟩ := captures_agree touched ⟨0, 4⟩
  have agrees := agree _ _ {} (.refl _) (.refl _)
  generalize captured : ((Snapshot.take (pageLayers reports)).captures ⟨0, 4⟩ {}).map (·.1) = copied
    at agrees
  rw [live] at agrees
  cases agrees with
  | some agree => exact ⟨_, _, _, touched, live, captured, agree, rfl⟩

end LayerTree

end Layer

end CodeEditor

import CodeEditor.Proofs.Layer.Shape
import Mathlib.Data.List.Nodup
import Mathlib.Data.List.Perm.Subperm

/-!
Layers listed from the root on.

In slots that hold a tree of layers every layer stands at one depth below the root (`depth_unique`),
and no deeper than there are slots (`depth_lt`). `listing` lists the layers below one, each in front
of those below it, with the children of each layer in a given order. Enough fuel lists every layer
once (`pairwise_listing`, `listing_succ`), and another order of the children only rearranges the
list (`listing_perm`).
-/

namespace CodeEditor.Layer.LayerStore

variable {s s' : LayerStore} {root id x y a b : LayerId} {l : SyntaxLayer} {site : Site}
    {n m k : Nat}
  {order order' : LayerId → List LayerId} {fuel : Nat}

/-- A layer is reached from another by a number of steps from a layer to a child. -/
inductive Lies (s : LayerStore) : Nat → LayerId → LayerId → Prop
  | refl (id : LayerId) : Lies s 0 id id
  | child {k : Nat} {id y x : LayerId} {site : Site} :
      Lies s k id y → s.Holds y site x → Lies s (k + 1) id x

theorem Lies.trans (first : s.Lies n a b) (second : s.Lies k b x) : s.Lies (n + k) a x := by
  induction second with
  | refl => exact first
  | child _ holds ih => exact .child (ih first) holds

theorem Below.exists_lies (below : s.Below id x) : ∃ k, s.Lies k id x := by
  induction below with
  | refl id => exact ⟨0, .refl id⟩
  | child there mem _ ih =>
      obtain ⟨k, lies⟩ := ih
      exact ⟨_, (Lies.child (.refl _) ⟨_, there, mem⟩).trans lies⟩

theorem Below.trans (first : s.Below a b) (second : s.Below b x) : s.Below a x := by
  induction first with
  | refl => exact second
  | child there mem _ ih => exact .child there mem (ih second)

theorem below_of_lies (lies : s.Lies k id x) : s.Below id x := by
  induction lies with
  | refl id => exact .refl id
  | child _ holds ih =>
      obtain ⟨l, there, mem⟩ := holds
      exact ih.trans (.child there mem (.refl _))

/-- Layers that are there have slots of their own. -/
theorem length_le_of_live {ids : List LayerId} (once : ids.Nodup)
    (live : ∀ x ∈ ids, ∃ l, s.layer? x = some l) : ids.length ≤ s.slots.size := by
  have slots : (ids.map (·.slot)).Nodup := by
    refine once.map_on fun x memX y memY same => ?_
    obtain ⟨l, thereX⟩ := live x memX
    obtain ⟨l', thereY⟩ := live y memY
    rw [layer?_eq_some_iff] at thereX thereY
    rw [same, thereY] at thereX
    obtain ⟨generation, -⟩ := LayerSlot.mk.inj (Option.some.inj thereX)
    obtain ⟨slot, _⟩ := x
    obtain ⟨slot', _⟩ := y
    dsimp only at same generation
    rw [same, generation]
  have inside : ids.map (·.slot) ⊆ List.range s.slots.size := by
    intro slot mem
    obtain ⟨x, among, rfl⟩ := List.mem_map.mp mem
    obtain ⟨l, there⟩ := live x among
    rw [layer?_eq_some_iff] at there
    exact List.mem_range.mpr (Array.getElem?_eq_some_iff.mp there).1
  have count := (List.subperm_of_subset slots inside).length_le
  rwa [List.length_map, List.length_range] at count

/-! ### Depths -/

section Depth

variable (shaped : s.Shaped (.ofRoot root))

include shaped

theorem loose_root : s.HasParent root none ∧ s.Loose root := shaped.loose ⟨rfl, rfl⟩

theorem exists_of_lies (lies : s.Lies n root x) : ∃ l, s.layer? x = some l := by
  cases lies with
  | refl =>
      obtain ⟨l, there, -⟩ := (loose_root shaped).1
      exact ⟨l, there⟩
  | child _ holds =>
      obtain ⟨l, there, -⟩ := shaped.parent holds
      exact ⟨l, there⟩

/-- A layer stands at one depth. -/
theorem depth_unique (lies : s.Lies n root x) (lies' : s.Lies m root x) : n = m := by
  induction lies generalizing m with
  | refl =>
      cases lies' with
      | refl => rfl
      | child _ holds => exact absurd holds ((loose_root shaped).2 _ _)
  | child _ holds ih =>
      cases lies' with
      | refl => exact absurd holds ((loose_root shaped).2 _ _)
      | child below holds' =>
          obtain rfl := shaped.holder_eq holds holds'
          rw [ih shaped below]

/-- From a layer one comes to one layer only by a number of steps to parents. -/
theorem Lies.eq_of_lies (lies : s.Lies k a x) (lies' : s.Lies k b x) : a = b := by
  induction k generalizing x with
  | zero =>
      cases lies
      cases lies'
      rfl
  | succ k ih =>
      cases lies with
      | child below holds =>
          cases lies' with
          | child below' holds' =>
              obtain rfl := shaped.holder_eq holds holds'
              exact ih below below'

/-- The layers on the way to a layer. -/
theorem exists_path (lies : s.Lies n root x) : ∃ ids : List LayerId, ids.length = n + 1 ∧
    ids.Nodup ∧
    ∀ y ∈ ids, ∃ m, m ≤ n ∧ s.Lies m root y := by
  induction n generalizing x with
  | zero =>
      refine ⟨[x], rfl, by simp, fun y mem => ?_⟩
      obtain rfl := List.mem_singleton.mp mem
      exact ⟨0, Nat.le_refl 0, lies⟩
  | succ n ih =>
      cases lies with
      | @child _ _ y _ _ below holds =>
          obtain ⟨ids, length, once, path⟩ := ih below
          refine ⟨x :: ids, by rw [List.length_cons, length], List.nodup_cons.mpr ⟨?_, once⟩, ?_⟩
          · intro mem
            obtain ⟨m, above, lies⟩ := path x mem
            have same := depth_unique shaped lies (.child below holds)
            omega
          · refine List.forall_mem_cons.mpr ⟨⟨_, Nat.le_refl _, .child below holds⟩,
              fun y mem => ?_⟩
            obtain ⟨m, above, lies⟩ := path y mem
            exact ⟨m, Nat.le_succ_of_le above, lies⟩

theorem depth_lt (lies : s.Lies n root x) : n < s.slots.size := by
  obtain ⟨ids, length, once, path⟩ := exists_path shaped lies
  have count := length_le_of_live once fun y mem => by
    obtain ⟨m, -, lies⟩ := path y mem
    exact exists_of_lies shaped lies
  omega

end Depth

/-! ### Listings -/

/-- The layers below a layer, the children of each in an order, from the last to the first. -/
def listing (s : LayerStore) (order : LayerId → List LayerId) : Nat → LayerId → List LayerId
  | 0, _ => []
  | fuel + 1, id =>
      if (s.layer? id).isSome then id :: (order id).reverse.flatMap (s.listing order fuel) else []

/-- The children of every layer in some order. -/
def Orders (s : LayerStore) (order : LayerId → List LayerId) : Prop :=
  ∀ id l, s.layer? id = some l → (order id).Perm (l.children.map (·.2))

theorem listing_cons (there : s.layer? id = some l) :
    s.listing order (fuel + 1) id = id :: (order id).reverse.flatMap (s.listing order fuel) := by
  rw [listing, there, Option.isSome_some, if_pos rfl]

theorem listing_vacant (vacant : s.layer? id = none) : s.listing order fuel id = [] := by
  cases fuel with
  | zero => rfl
  | succ fuel => rw [listing, vacant, Option.isSome_none, if_neg Bool.false_ne_true]

theorem Orders.holds (orders : s.Orders order) (there : s.layer? id = some l) (mem : x ∈ order id) :
    ∃ site, s.Holds id site x := by
  obtain ⟨⟨site, child⟩, among, rfl⟩ := List.mem_map.mp ((orders id l there).mem_iff.mp mem)
  exact ⟨site, l, there, among⟩

theorem exists_of_mem_listing (orders : s.Orders order) (mem : x ∈ s.listing order fuel id) :
    (∃ k, s.Lies k id x) ∧ ∃ l, s.layer? x = some l := by
  induction fuel generalizing id with
  | zero => cases mem
  | succ fuel ih =>
      cases there : s.layer? id with
      | none =>
          rw [listing_vacant there] at mem
          cases mem
      | some l =>
          rw [listing_cons there] at mem
          rcases List.mem_cons.mp mem with rfl | mem
          · exact ⟨⟨0, .refl x⟩, l, there⟩
          · obtain ⟨child, among, mem⟩ := List.mem_flatMap.mp mem
            obtain ⟨site, holds⟩ := orders.holds there (List.mem_reverse.mp among)
            obtain ⟨⟨k, lies⟩, live⟩ := ih mem
            exact ⟨⟨_, (Lies.child (.refl id) holds).trans lies⟩, live⟩

/-- Another order of the children rearranges the layers. -/
theorem listing_perm (orders : s.Orders order) (orders' : s.Orders order') (fuel : Nat)
    (id : LayerId) : (s.listing order fuel id).Perm (s.listing order' fuel id) := by
  induction fuel generalizing id with
  | zero => exact .refl _
  | succ fuel ih =>
      cases there : s.layer? id with
      | none => rw [listing_vacant there, listing_vacant there]
      | some l =>
          rw [listing_cons there, listing_cons there]
          have children := (orders id l there).trans (orders' id l there).symm
          have reversed := ((order id).reverse_perm.trans children).trans
            (order' id).reverse_perm.symm
          exact (reversed.flatMap fun child _ => ih child).cons id

theorem listing_congr (same : ∀ x, (s'.layer? x).isSome = (s.layer? x).isSome) (fuel : Nat)
    (id : LayerId) : s'.listing order fuel id = s.listing order fuel id := by
  induction fuel generalizing id with
  | zero => rfl
  | succ fuel ih => rw [listing, listing, same, funext ih]

section Tree

variable (shaped : s.Shaped (.ofRoot root)) (orders : s.Orders order)

include shaped orders

/-- No layer is listed behind one that is below it or is itself. -/
theorem pairwise_listing (lies : s.Lies n root id) :
    (s.listing order fuel id).Pairwise fun a b => ∀ k, ¬s.Lies k b a := by
  induction fuel generalizing n id with
  | zero => exact .nil
  | succ fuel ih =>
      obtain ⟨l, there⟩ := exists_of_lies shaped lies
      rw [listing_cons there]
      have once : (order id).reverse.Nodup :=
        List.nodup_reverse.mpr ((orders id l there).nodup_iff.mpr (shaped.once there))
      have deeper : ∀ child ∈ (order id).reverse, s.Lies (n + 1) root child := by
        intro child mem
        obtain ⟨site, holds⟩ := orders.holds there (List.mem_reverse.mp mem)
        exact .child lies holds
      refine List.pairwise_cons.mpr ⟨?_, List.pairwise_flatMap.mpr ⟨?_, ?_⟩⟩
      · intro b mem k below
        obtain ⟨child, among, mem⟩ := List.mem_flatMap.mp mem
        obtain ⟨⟨j, lies'⟩, -⟩ := exists_of_mem_listing orders mem
        have same := depth_unique shaped lies (((deeper child among).trans lies').trans below)
        omega
      · exact fun child mem => ih (deeper child mem)
      · refine once.imp_of_mem fun {c d} memC memD differ a memA b memB k below => differ ?_
        obtain ⟨⟨i, liesA⟩, -⟩ := exists_of_mem_listing orders memA
        obtain ⟨⟨j, liesB⟩, -⟩ := exists_of_mem_listing orders memB
        have same := depth_unique shaped ((deeper c memC).trans liesA)
          (((deeper d memD).trans liesB).trans below)
        obtain rfl : i = j + k := by omega
        exact liesA.eq_of_lies shaped (liesB.trans below)

theorem nodup_listing (lies : s.Lies n root id) : (s.listing order fuel id).Nodup := by
  refine (pairwise_listing shaped orders lies).imp ?_
  rintro a _ apart rfl
  exact apart 0 (.refl a)

theorem length_listing_le (lies : s.Lies n root id) :
    (s.listing order fuel id).length ≤ s.slots.size :=
  length_le_of_live (nodup_listing shaped orders lies) fun _ mem =>
    (exists_of_mem_listing orders mem).2

/-- With enough fuel more of it lists no more. -/
theorem listing_succ (lies : s.Lies n root id) (enough : s.slots.size ≤ n + fuel) :
    s.listing order (fuel + 1) id = s.listing order fuel id := by
  induction fuel generalizing n id with
  | zero => exact absurd (depth_lt shaped lies) (Nat.not_lt.mpr enough)
  | succ fuel ih =>
      obtain ⟨l, there⟩ := exists_of_lies shaped lies
      rw [listing_cons there, listing_cons there]
      congr 1
      refine List.flatMap_congr fun child mem => ?_
      obtain ⟨site, holds⟩ := orders.holds there (List.mem_reverse.mp mem)
      exact ih (.child lies holds) (by omega)

/-- With enough fuel all layers below are listed. -/
theorem mem_listing (below : s.Below id x) (lies : s.Lies n root id)
    (enough : s.slots.size ≤ n + fuel) : x ∈ s.listing order fuel id := by
  induction below generalizing n fuel with
  | refl id =>
      have depth := depth_lt shaped lies
      obtain ⟨l, there⟩ := exists_of_lies shaped lies
      obtain ⟨fuel, rfl⟩ := Nat.exists_eq_succ_of_ne_zero (n := fuel) (by omega)
      rw [Nat.succ_eq_add_one, listing_cons there]
      exact List.mem_cons_self
  | @child id child x l site there mem _ ih =>
      have depth := depth_lt shaped lies
      obtain ⟨fuel, rfl⟩ := Nat.exists_eq_succ_of_ne_zero (n := fuel) (by omega)
      rw [Nat.succ_eq_add_one, listing_cons there]
      have among : child ∈ order id :=
        (orders id l there).mem_iff.mpr (List.mem_map_of_mem (f := (·.2)) mem)
      exact List.mem_cons_of_mem _ (List.mem_flatMap.mpr ⟨child, List.mem_reverse.mpr among,
        ih (.child lies ⟨l, there, mem⟩) (by omega)⟩)

end Tree

end CodeEditor.Layer.LayerStore

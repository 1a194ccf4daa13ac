import CodeEditor.Proofs.Layer.Layers
import CodeEditor.Proofs.Layer.Store

/-!
The layers that slots hold.

`Shows` says that the layers below a layer in some slots are given ones; no layer is reached in two
ways then. What is done at one layer leaves the layers apart from it alone: `Local` says that a
change touches only some layers, and `Forest.frame` that all others show what they showed before.
-/

namespace CodeEditor.Layer

open Syntax (Node Language)

section Lookup

variable {α β : Type} [DecidableEq α] {xs : List (α × β)} {k other : α} {x : β}

theorem mem_of_lookup (found : xs.lookup k = some x) : (k, x) ∈ xs := by
  obtain ⟨front, rest, split, -⟩ := List.lookup_eq_some_iff.mp found
  rw [split]
  simp

theorem ne_of_lookup_eq_none (vacant : xs.lookup k = none) (mem : (other, x) ∈ xs) : other ≠ k := by
  have differ : k ≠ other := by simpa using List.lookup_eq_none_iff.mp vacant (other, x) mem
  exact differ.symm

end Lookup

namespace SyntaxLayer

variable {l : SyntaxLayer} {k : Site} {child : LayerId}

theorem child?_of_mem (distinct : l.children.Pairwise fun a b => a.1 ≠ b.1)
    (mem : (k, child) ∈ l.children) : l.child? k = some child := by
  obtain ⟨front, rest, split⟩ := List.append_of_mem mem
  refine List.lookup_eq_some_iff.mpr ⟨front, rest, split, ?_⟩
  intro other among
  rw [split] at distinct
  have differ := (List.pairwise_append.mp distinct).2.2 other among (k, child) List.mem_cons_self
  simpa using Ne.symm differ

/-- The order of the children does not matter where their places differ. -/
theorem child?_perm {children : List (Site × LayerId)} (perm : children.Perm l.children)
    (distinct : l.children.Pairwise fun a b => a.1 ≠ b.1) (k : Site) :
    { l with children }.child? k = l.child? k := by
  cases found : l.child? k with
  | none =>
      refine List.lookup_eq_none_iff.mpr fun entry mem => ?_
      exact List.lookup_eq_none_iff.mp found entry (perm.mem_iff.mp mem)
  | some child =>
      refine child?_of_mem (l := { l with children }) ?_ (perm.mem_iff.mpr (mem_of_lookup found))
      exact distinct.perm perm.symm Ne.symm

/-- A child at a free place changes no other place. -/
theorem child?_append (vacant : l.child? k = none) (child : LayerId) (k' : Site) :
    { l with children := l.children ++ [(k, child)] }.child? k' =
      if k' = k then some child else l.child? k' := by
  rw [child?, List.lookup_append]
  by_cases here : k' = k
  · subst here
    have absent : l.children.lookup k' = none := vacant
    rw [if_pos rfl, absent, Option.none_or, List.lookup_cons, beq_self_eq_true]
  · rw [if_neg here, List.lookup_cons, beq_eq_false_iff_ne.mpr here, List.lookup_nil,
      Option.or_none]
    rfl

theorem filter_children (vacant : l.child? k = none) :
    l.children.filter (·.1 ≠ k) = l.children := by
  apply List.filter_eq_self.mpr
  rintro ⟨other, child⟩ mem
  simpa using ne_of_lookup_eq_none vacant mem

/-- A child at a free place is taken away again. -/
theorem filter_append (vacant : l.child? k = none) (child : LayerId) :
    (l.children ++ [(k, child)]).filter (·.1 ≠ k) = l.children := by
  rw [List.filter_append, filter_children vacant]
  simp

end SyntaxLayer

namespace LayerStore

variable {site : Nat → List Nat → Site} {s s' : LayerStore} {id a b x : LayerId} {n : Nat}
  {v : Layers} {l : SyntaxLayer}

/-- No layer is below both. -/
def Apart (s : LayerStore) (a b : LayerId) : Prop := ∀ x, s.Below a x → ¬s.Below b x

theorem Apart.symm (apart : s.Apart a b) : s.Apart b a :=
  fun x below below' => apart x below' below

/-- Children stay apart where the layers below each stay the same. -/
theorem pairwise_apart_congr {children : List (Site × LayerId)}
    (pairwise : children.Pairwise fun a b => a.1 ≠ b.1 ∧ s.Apart a.2 b.2)
    (same : ∀ k child, (k, child) ∈ children → ∀ x, s'.Below child x ↔ s.Below child x) :
    children.Pairwise fun a b => a.1 ≠ b.1 ∧ s'.Apart a.2 b.2 := by
  apply pairwise.imp_of_mem
  intro a b memA memB both
  refine ⟨both.1, ?_⟩
  intro x
  rw [same a.1 a.2 memA, same b.1 b.2 memB]
  exact both.2 x

/-- The layers below a layer, whose tree came out of the parse with a number, are given ones. -/
inductive Shows (site : Nat → List Nat → Site) (s : LayerStore) : Nat → LayerId → Layers → Prop
  | layer {n : Nat} {id : LayerId} {l : SyntaxLayer} {v : Layers} {number : LayerId → Nat}
      {shown : LayerId → Layers} :
      s.layer? id = some l → l.tree = some ⟨n, v.root⟩ → l.language = v.language →
      l.range = v.range →
      (∀ k child, (k, child) ∈ l.children → Shows site s (number child) child (shown child)) →
      (∀ k child, (k, child) ∈ l.children → ¬s.Below child id) →
      (l.children.Pairwise fun a b => a.1 ≠ b.1 ∧ s.Apart a.2 b.2) →
      (∀ k child, (k, child) ∈ l.children → ∃ path, k = site n path) →
      (∀ path, v.inner path = (l.child? (site n path)).map shown) →
      Shows site s n id v

namespace Shows

theorem exists_layer (shows : s.Shows site n id v) :
    ∃ l, s.layer? id = some l ∧ l.tree = some ⟨n, v.root⟩ ∧ l.language = v.language ∧
      l.range = v.range := by
  cases shows with
  | layer there tree language range _ _ _ _ _ => exact ⟨_, there, tree, language, range⟩

/-- All layers below are there. -/
theorem live (shows : s.Shows site n id v) (below : s.Below id x) : ∃ l, s.layer? x = some l := by
  induction shows with
  | @layer n id l v _ _ there _ _ _ _ _ _ _ _ ih =>
      rcases (below_iff there).mp below with rfl | ⟨k, child, mem, below⟩
      · exact ⟨l, there⟩
      · exact ih k child mem below

/-- Where all layers below are as they were, they show what they showed. -/
theorem congr (shows : s.Shows site n id v)
    (same : ∀ x, s.Below id x → s'.layer? x = s.layer? x) :
    s'.Shows site n id v ∧ ∀ x, s'.Below id x ↔ s.Below id x := by
  induction shows with
  | @layer n id l v number shown there tree language range _ apart pairwise keys inner ih =>
      have there' : s'.layer? id = some l := (same id (.refl id)).trans there
      have children : ∀ k child, (k, child) ∈ l.children →
          s'.Shows site (number child) child (shown child) ∧
            ∀ x, s'.Below child x ↔ s.Below child x := by
        intro k child mem
        exact ih k child mem fun x below => same x (.child there mem below)
      have pairwise' := pairwise_apart_congr pairwise fun k child mem => (children k child mem).2
      refine ⟨.layer there' tree language range (fun k child mem => (children k child mem).1) ?_
        pairwise' keys inner, ?_⟩
      · intro k child mem
        rw [(children k child mem).2]
        exact apart k child mem
      · intro x
        rw [below_iff there', below_iff there]
        constructor
        · rintro (rfl | ⟨k, child, mem, below⟩)
          · exact .inl rfl
          · exact .inr ⟨k, child, mem, ((children k child mem).2 x).mp below⟩
        · rintro (rfl | ⟨k, child, mem, below⟩)
          · exact .inl rfl
          · exact .inr ⟨k, child, mem, ((children k child mem).2 x).mpr below⟩

/-- The order of the children does not show. -/
theorem rearranged {children : List (Site × LayerId)} (shows : s.Shows site n id v)
    (there : s.layer? id = some l) (there' : s'.layer? id = some { l with children })
    (perm : children.Perm l.children)
    (same : ∀ x, s.Below id x → x ≠ id → s'.layer? x = s.layer? x) :
    s'.Shows site n id v ∧ ∀ x, s'.Below id x ↔ s.Below id x := by
  cases shows with
  | @layer _ _ l₀ _ number shown here tree language range below apart pairwise keys inner =>
      obtain rfl : l = l₀ := Option.some.inj (there.symm.trans here)
      have kept : ∀ k child, (k, child) ∈ l.children →
          s'.Shows site (number child) child (shown child) ∧
            ∀ x, s'.Below child x ↔ s.Below child x := by
        intro k child mem
        refine (below k child mem).congr fun x under => same x (.child there mem under) ?_
        rintro rfl
        exact apart k child mem under
      have pairwise' := pairwise_apart_congr pairwise fun k child mem => (kept k child mem).2
      refine ⟨.layer there' tree language range
        (fun k child mem => (kept k child (perm.mem_iff.mp mem)).1) ?_ ?_
        (fun k child mem => keys k child (perm.mem_iff.mp mem)) fun path => ?_, fun x => ?_⟩
      · intro k child mem
        rw [(kept k child (perm.mem_iff.mp mem)).2]
        exact apart k child (perm.mem_iff.mp mem)
      · exact pairwise'.perm perm.symm fun both => ⟨both.1.symm, both.2.symm⟩
      · rw [inner path, SyntaxLayer.child?_perm perm (pairwise.imp And.left)]
      · rw [below_iff there', below_iff there]
        refine or_congr_right ⟨?_, ?_⟩
        · rintro ⟨k, child, mem, under⟩
          have mem := perm.mem_iff.mp mem
          exact ⟨k, child, mem, ((kept k child mem).2 x).mp under⟩
        · rintro ⟨k, child, mem, under⟩
          exact ⟨k, child, perm.mem_iff.mpr mem, ((kept k child mem).2 x).mpr under⟩

/-- A child shows a layer at its place. -/
theorem child (shows : s.Shows site n id v) (there : s.layer? id = some l) {k : Site}
    {child : LayerId} (mem : (k, child) ∈ l.children) :
    ¬s.Below child id ∧ ∃ path m u, k = site n path ∧ v.inner path = some u ∧
      s.Shows site m child u := by
  cases shows with
  | @layer _ _ l' _ number shown there' _ _ _ children apart pairwise keys inner =>
      obtain rfl : l = l' := Option.some.inj (there.symm.trans there')
      obtain ⟨path, rfl⟩ := keys k child mem
      refine ⟨apart _ child mem, path, number child, shown child, rfl, ?_, children _ child mem⟩
      rw [inner path, SyntaxLayer.child?_of_mem (pairwise.imp fun both => both.1) mem]
      rfl

/-- The children are apart from each other and have places of their own. -/
theorem pairwise (shows : s.Shows site n id v) (there : s.layer? id = some l) :
    l.children.Pairwise fun a b => a.1 ≠ b.1 ∧ s.Apart a.2 b.2 := by
  cases shows with
  | layer there' _ _ _ _ _ pairwise _ _ =>
      obtain rfl := Option.some.inj (there.symm.trans there')
      exact pairwise

/-- A place is empty when no child is there. -/
theorem inner_eq_none (shows : s.Shows site n id v) (there : s.layer? id = some l)
    {path : List Nat} : v.inner path = none ↔ l.child? (site n path) = none := by
  cases shows with
  | layer there' _ _ _ _ _ _ _ inner =>
      obtain rfl := Option.some.inj (there.symm.trans there')
      rw [inner path, Option.map_eq_none_iff]

/-- A layer shows one thing. -/
theorem unique {n' : Nat} {v' : Layers} (shows : s.Shows site n id v)
    (shows' : s.Shows site n' id v') : v = v' := by
  induction shows generalizing n' v' with
  | @layer n id l v number shown there tree language range _ _ _ _ inner ih =>
      cases shows' with
      | @layer _ _ l' _ number' shown' there' tree' language' range' children' _ _ _ inner' =>
          obtain rfl : l = l' := Option.some.inj (there.symm.trans there')
          obtain ⟨lang, r, root, inside⟩ := v
          obtain ⟨lang', r', root', inside'⟩ := v'
          rw [tree] at tree'
          obtain ⟨rfl, rfl⟩ := ParsedTree.mk.inj (Option.some.inj tree')
          obtain rfl : lang = lang' := language.symm.trans language'
          obtain rfl : r = r' := range.symm.trans range'
          congr 1
          funext path
          dsimp only at inner inner'
          rw [inner path, inner' path]
          cases found : l.child? (site n path) with
          | none => rfl
          | some child =>
              have mem : (site n path, child) ∈ l.children := mem_of_lookup found
              rw [Option.map_some, Option.map_some, ih _ child mem (children' _ child mem)]

end Shows

/-! ### Changes at some layers -/

/-- A change touches only some layers. Those it is left with are among them, or they are new. -/
structure Local (s s' : LayerStore) (before after : LayerId → Prop) : Prop where
  keep : ∀ x l, s.layer? x = some l → ¬before x → s'.layer? x = some l
  stay : ∀ x, after x → before x ∨ s.layer? x = none

namespace Local

variable {s'' : LayerStore} {before between after : LayerId → Prop}

theorem refl (s : LayerStore) (before : LayerId → Prop) : s.Local s before before :=
  ⟨fun _ _ there _ => there, fun _ inside => .inl inside⟩

theorem trans (first : s.Local s' before between) (second : s'.Local s'' between after) :
    s.Local s'' before after := by
  constructor
  · intro x l there outside
    refine second.keep x l (first.keep x l there outside) fun inside => ?_
    rcases first.stay x inside with inside | gone
    · exact outside inside
    · rw [there] at gone
      cases gone
  · intro x inside
    rcases second.stay x inside with inside | gone
    · exact first.stay x inside
    · by_cases outside : before x
      · exact .inl outside
      · cases there : s.layer? x with
        | none => exact .inr rfl
        | some l =>
            rw [first.keep x l there outside] at gone
            cases gone

/-- What is apart from the layers touched shows what it showed. -/
theorem shows (change : s.Local s' before after) (shows : s.Shows site n a v)
    (apart : ∀ x, s.Below a x → ¬before x) :
    s'.Shows site n a v ∧ (∀ x, s'.Below a x ↔ s.Below a x) ∧ ∀ x, s'.Below a x → ¬after x := by
  have same : ∀ x, s.Below a x → s'.layer? x = s.layer? x := by
    intro x below
    obtain ⟨l, there⟩ := shows.live below
    rw [there]
    exact change.keep x l there (apart x below)
  obtain ⟨shows', below_iff⟩ := shows.congr same
  refine ⟨shows', below_iff, ?_⟩
  intro x below inside
  have below' := (below_iff x).mp below
  rcases change.stay x inside with inside | gone
  · exact apart x below' inside
  · obtain ⟨l, there⟩ := shows.live below'
    rw [there] at gone
    cases gone

end Local

/-- A layer is below one of some layers. -/
def Under (s : LayerStore) (ids : List LayerId) (x : LayerId) : Prop := ∃ a ∈ ids, s.Below a x

theorem under_append {ids others : List LayerId} :
    s.Under (ids ++ others) x ↔ s.Under ids x ∨ s.Under others x := by
  constructor
  · rintro ⟨a, mem, below⟩
    rcases List.mem_append.mp mem with mem | mem
    · exact .inl ⟨a, mem, below⟩
    · exact .inr ⟨a, mem, below⟩
  · rintro (⟨a, mem, below⟩ | ⟨a, mem, below⟩)
    · exact ⟨a, List.mem_append_left _ mem, below⟩
    · exact ⟨a, List.mem_append_right _ mem, below⟩

theorem under_singleton : s.Under [a] x ↔ s.Below a x := by
  constructor
  · rintro ⟨b, mem, below⟩
    obtain rfl := List.mem_singleton.mp mem
    exact below
  · exact fun below => ⟨a, List.mem_singleton_self a, below⟩

theorem under_perm {ids ids' : List LayerId} (perm : ids.Perm ids') :
    s.Under ids = s.Under ids' := by
  funext x
  refine propext ⟨?_, ?_⟩
  · rintro ⟨a, mem, below⟩
    exact ⟨a, perm.mem_iff.mp mem, below⟩
  · rintro ⟨a, mem, below⟩
    exact ⟨a, perm.mem_iff.mpr mem, below⟩

/-- Layers that show something and are apart from each other. -/
structure Forest (site : Nat → List Nat → Site) (s : LayerStore) (ids : List LayerId) : Prop where
  shows : ∀ a ∈ ids, ∃ n v, s.Shows site n a v
  apart : ids.Pairwise s.Apart

namespace Forest

variable {ids ids' others : List LayerId}

theorem perm (forest : s.Forest site ids) (perm : ids.Perm ids') : s.Forest site ids' where
  shows := fun a mem => forest.shows a (perm.mem_iff.mpr mem)
  apart := forest.apart.perm perm Apart.symm

/-- A change at some layers leaves the others of a forest alone. -/
theorem frame (forest : s.Forest site (ids ++ others))
    (change : s.Local s' (s.Under ids) (s'.Under ids')) (forest' : s'.Forest site ids') :
    s'.Forest site (ids' ++ others) ∧
      s.Local s' (s.Under (ids ++ others)) (s'.Under (ids' ++ others)) ∧
      ∀ b ∈ others, ∀ n v, s.Shows site n b v → s'.Shows site n b v := by
  obtain ⟨-, apart, between⟩ := List.pairwise_append.mp forest.apart
  have untouched : ∀ b ∈ others, ∀ n v, s.Shows site n b v → s'.Shows site n b v ∧
      (∀ x, s'.Below b x ↔ s.Below b x) ∧ ∀ x, s'.Below b x → ¬s'.Under ids' x := by
    intro b mem n v shows
    apply change.shows shows
    rintro x below ⟨a, mem', below'⟩
    exact between a mem' b mem x below' below
  have same : ∀ b ∈ others, ∀ x, s'.Below b x ↔ s.Below b x := by
    intro b mem
    obtain ⟨n, v, shows⟩ := forest.shows b (List.mem_append_right _ mem)
    exact (untouched b mem n v shows).2.1
  refine ⟨⟨?_, List.pairwise_append.mpr ⟨forest'.apart, ?_, ?_⟩⟩, ⟨?_, ?_⟩, ?_⟩
  · intro a mem
    rcases List.mem_append.mp mem with mem | mem
    · exact forest'.shows a mem
    · obtain ⟨n, v, shows⟩ := forest.shows a (List.mem_append_right _ mem)
      exact ⟨n, v, (untouched a mem n v shows).1⟩
  · apply apart.imp_of_mem
    intro a b memA memB apart x
    rw [same a memA, same b memB]
    exact apart x
  · intro a memA b memB x below below'
    obtain ⟨n, v, shows⟩ := forest.shows b (List.mem_append_right _ memB)
    exact (untouched b memB n v shows).2.2 x below' ⟨a, memA, below⟩
  · intro x l there outside
    exact change.keep x l there fun inside => outside (under_append.mpr (.inl inside))
  · intro x inside
    rcases under_append.mp inside with inside | ⟨b, mem, below⟩
    · rcases change.stay x inside with inside | gone
      · exact .inl (under_append.mpr (.inl inside))
      · exact .inr gone
    · exact .inl (under_append.mpr (.inr ⟨b, mem, (same b mem x).mp below⟩))
  · exact fun b mem n v shows => (untouched b mem n v shows).1

end Forest

end LayerStore

end CodeEditor.Layer

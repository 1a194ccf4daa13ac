import CodeEditor.Proofs.Layer.Agreement
import CodeEditor.Proofs.Layer.Orderly
import Mathlib.Data.List.Induction
import Mathlib.Data.List.Sigma

/-!
The slots of layers and the layers that are reached.

A layer is reached from the root by the places of children on the way to it (`follow?`). `Linked` is
what holds of slots after all parses and edits, wherever they stopped, and `Whole` that moreover
every layer that is there is reached.

Layers stay whole wherever a parse stops. An update has taken the children that it keeps from their
places and puts each back once it has been updated. An edit that stops in between leaves behind
those that have no place yet: they are `Stray`, and what is done later passes them over
(`Later.stray`). `arena_of_touched` says all of this, and that a layer that is gone does not come
back under its identity.
-/

namespace CodeEditor.Layer

open Syntax (Language Node Registry)
open LayerStore (Watch Few)

namespace LayerStore

variable {s : LayerStore} {root id x : LayerId} {path path' : List Site} {site : Site}

/-! ### Paths -/

/-- The layer that is reached from another by the places of children. -/
def follow? (s : LayerStore) : LayerId → List Site → Option LayerId
  | id, [] => some id
  | id, site :: path => ((s.layer? id).bind (·.child? site)).bind (s.follow? · path)

theorem follow?_append (path path' : List Site) :
    s.follow? id (path ++ path') = (s.follow? id path).bind (s.follow? · path') := by
  induction path generalizing id with
  | nil => rfl
  | cons site path ih =>
      rw [List.cons_append, follow?, follow?]
      cases (s.layer? id).bind (·.child? site) with
      | none => rfl
      | some child => exact ih

/-- The last step of a path leads to a child. -/
theorem follow?_concat (reached : s.follow? id (path ++ [site]) = some x) :
    ∃ y, s.follow? id path = some y ∧ s.Holds y site x := by
  rw [follow?_append] at reached
  obtain ⟨y, reached, last⟩ := Option.bind_eq_some_iff.mp reached
  obtain ⟨x', last, same⟩ := Option.bind_eq_some_iff.mp last
  cases same
  obtain ⟨l, there, child⟩ := Option.bind_eq_some_iff.mp last
  exact ⟨y, reached, l, there, mem_of_lookup child⟩

theorem below_of_follow? (reached : s.follow? id path = some x) : s.Below id x := by
  induction path using List.reverseRecOn generalizing x with
  | nil =>
      cases reached
      exact .refl _
  | append_singleton path site ih =>
      obtain ⟨y, reached, l, there, mem⟩ := follow?_concat reached
      exact (ih reached).trans (.child there mem (.refl _))

/-- Where children have places of their own, every layer below another is reached from it. -/
theorem Below.exists_follow? (below : s.Below id x)
    (places : ∀ {id l}, s.layer? id = some l → (l.children.map (·.1)).Nodup) :
    ∃ path, s.follow? id path = some x := by
  induction below with
  | refl id => exact ⟨[], rfl⟩
  | @child id child x l site there mem _ ih =>
      obtain ⟨path, reached⟩ := ih
      refine ⟨site :: path, ?_⟩
      rw [follow?, there, Option.bind_some,
        SyntaxLayer.child?_of_mem (List.pairwise_map.mp (places there)) mem, Option.bind_some,
          reached]

/-- A layer is reached from the root along one path. -/
theorem path_unique (shaped : s.Shaped (.ofRoot root)) (reached : s.follow? root path = some x)
    (reached' : s.follow? root path' = some x) : path = path' := by
  have loose := (loose_root shaped).2
  induction path using List.reverseRecOn generalizing x path' with
  | nil =>
      cases reached
      rcases List.eq_nil_or_concat' path' with rfl | ⟨path', site, rfl⟩
      · rfl
      · obtain ⟨y, -, holds⟩ := follow?_concat reached'
        exact absurd holds (loose y site)
  | append_singleton path site ih =>
      obtain ⟨y, above, holds⟩ := follow?_concat reached
      rcases List.eq_nil_or_concat' path' with rfl | ⟨path', site', rfl⟩
      · cases reached'
        exact absurd holds (loose y site)
      · obtain ⟨y', above', holds'⟩ := follow?_concat reached'
        obtain rfl := shaped.holder_eq holds holds'
        obtain ⟨l, there, mem⟩ := holds
        obtain ⟨l', there', mem'⟩ := holds'
        obtain rfl := Option.some.inj (there.symm.trans there')
        have same := List.inj_on_of_nodup_map (shaped.once there) mem mem' rfl
        rw [ih above above', (Prod.mk.inj same).1]

/-! ### Counting -/

/-- The identities of all layers. -/
def ids (s : LayerStore) : List LayerId :=
  s.slots.toList.zipIdx.filterMap fun slot => slot.1.layer.map fun _ => ⟨slot.2, slot.1.generation⟩

theorem mem_ids : x ∈ s.ids ↔ ∃ l, s.layer? x = some l := by
  rw [ids, List.mem_filterMap]
  constructor
  · rintro ⟨⟨⟨generation, layer⟩, i⟩, mem, made⟩
    obtain ⟨l, is, rfl⟩ := Option.map_eq_some_iff.mp made
    dsimp only at is
    subst is
    rw [List.mem_zipIdx_iff_getElem?, Array.getElem?_toList] at mem
    exact ⟨l, layer?_eq_some_iff.mpr mem⟩
  · rintro ⟨l, there⟩
    refine ⟨(⟨x.generation, some l⟩, x.slot), ?_, rfl⟩
    rw [List.mem_zipIdx_iff_getElem?, Array.getElem?_toList]
    exact layer?_eq_some_iff.mp there

theorem nodup_ids (s : LayerStore) : s.ids.Nodup := by
  have slots := List.pairwise_map.mp (List.nodup_zipIdx_map_snd s.slots.toList)
  refine List.pairwise_filterMap.mpr (slots.imp ?_)
  rintro ⟨slot, i⟩ ⟨slot', j⟩ differ x made _ made' rfl
  obtain ⟨-, -, rfl⟩ := Option.map_eq_some_iff.mp made
  obtain ⟨-, -, same⟩ := Option.map_eq_some_iff.mp made'
  exact differ (congrArg LayerId.slot same).symm

theorem length_ids (s : LayerStore) : s.ids.length = s.count := by
  have slots : s.slots.toList.zipIdx.map (·.1) = s.slots.toList := List.zipIdx_map_fst 0 _
  have used : s.slots.toList.countP (·.layer.isSome) =
      s.slots.toList.zipIdx.countP (·.1.layer.isSome) := by
    rw [← slots, List.countP_map, slots]
    rfl
  rw [ids, List.length_filterMap_eq_countP, count, ← Array.countP_eq_size_filter,
    ← Array.countP_toList, used]
  exact List.countP_congr fun slot _ => by rw [Option.isSome_map]

end LayerStore

namespace LayerTree

variable {t t' t₁ t₂ : LayerTree} {engine : Engine} {language : Language}
  {registry : Option Registry} {id : LayerId}

/-! ### Between parses and edits -/

/-- Every child is there, has the layer that holds it as its parent and a tree that covers
something, and no layer is reached along two paths. -/
structure Linked (t : LayerTree) : Prop where
  held : ∀ id l site child, t.layer? id = some l → (site, child) ∈ l.children →
    ∃ c, t.layer? child = some c ∧ c.parent = some id ∧ c.hasEmptyTree = false
  once : ∀ id path path', t.store.follow? t.root path = some id →
    t.store.follow? t.root path' = some id → path = path'

/-- Every layer that is there is reached from the root along one path, the number of layers is the
number of those that are reached, and all but the root have trees that cover something. -/
structure Whole (t : LayerTree) : Prop where
  reached : ∀ id, (∃ l, t.layer? id = some l) ↔ ∃! path, t.store.follow? t.root path = some id
  counted : ∃ ids : List LayerId, ids.Nodup ∧
    (∀ id, id ∈ ids ↔ ∃ path, t.store.follow? t.root path = some id) ∧ t.count = ids.length
  filled : ∀ id l, t.layer? id = some l → id ≠ t.root → l.hasEmptyTree = false

theorem Orderly.linked (orderly : t.Orderly) : t.Linked where
  held := by
    intro id l site child there mem
    have held : t.store.Holds id site child := ⟨l, there, mem⟩
    obtain ⟨c, here, parent⟩ := orderly.shaped.parent held
    refine ⟨c, here, parent, Bool.eq_false_iff.mpr fun empty => ?_⟩
    obtain ⟨_, _, pinned⟩ := orderly.tidy.filled held here empty
    exact pinned
  once := fun id path path' => LayerStore.path_unique orderly.shaped

theorem Orderly.whole (orderly : t.Orderly) (grown : t.store.Grown (.ofRoot t.root)) : t.Whole := by
  have live : ∀ id, (∃ l, t.layer? id = some l) ↔ ∃ path,
      t.store.follow? t.root path = some id := by
    intro id
    constructor
    · rintro ⟨l, there⟩
      obtain ⟨a, p, ⟨rfl, -⟩, below⟩ := grown id l there
      exact below.exists_follow? orderly.tidy.places
    · rintro ⟨path, reached⟩
      obtain ⟨k, lies⟩ := (LayerStore.below_of_follow? reached).exists_lies
      exact LayerStore.exists_of_lies orderly.shaped lies
  refine ⟨fun id => (live id).trans ⟨?_, ExistsUnique.exists⟩, ⟨t.store.ids, t.store.nodup_ids,
    fun id => LayerStore.mem_ids.trans (live id), t.store.length_ids.symm⟩, ?_⟩
  · rintro ⟨path, reached⟩
    exact ⟨path, reached, fun path' reached' =>
      LayerStore.path_unique orderly.shaped reached' reached⟩
  · intro id l there ne
    obtain ⟨a, p, ⟨rfl, -⟩, below⟩ := grown id l there
    obtain ⟨y, site, -, lₚ, above, mem⟩ := below.exists_holder ne
    obtain ⟨c, here, -, full⟩ := orderly.linked.held y lₚ site id above mem
    obtain rfl := Option.some.inj (there.symm.trans here)
    exact full

/-! ### Layers left behind -/

/-- A layer is there that is not the root and is child of none. -/
structure Stray (t : LayerTree) (id : LayerId) : Prop where
  live : ∃ l, t.layer? id = some l
  ne : id ≠ t.root
  loose : t.store.Loose id

theorem Stray.not_whole (stray : t.Stray id) : ¬t.Whole := by
  intro whole
  obtain ⟨path, reached, -⟩ := (whole.reached id).mp stray.live
  rcases List.eq_nil_or_concat' path with rfl | ⟨path, site, rfl⟩
  · cases reached
    exact stray.ne rfl
  · obtain ⟨y, -, holds⟩ := LayerStore.follow?_concat reached
    exact stray.loose y site holds

/-- Every layer that is there is reached unless one has been left behind. -/
theorem Orderly.whole_iff (orderly : t.Orderly) : t.Whole ↔ ∀ id, ¬t.Stray id := by
  refine ⟨fun whole id stray => stray.not_whole whole,
    fun none => orderly.whole fun x l there => ?_⟩
  obtain ⟨a, live, loose, below⟩ := orderly.founded.exists_head there
  by_cases root : a = t.root
  · exact ⟨a, _, ⟨root, rfl⟩, below⟩
  · exact absurd ⟨live, root, loose⟩ (none a)

/-- While a run is at work below the root nothing is done to a layer left behind. -/
theorem Stray.watched (orderly : t.Orderly) (stray : t.Stray id) :
    ∃ w : Watch, Kept False False w t.root t.root t t ∧ w.Ready t.root ∧ w.loose t.root none ∧
      ∃ p, w.loose id p := by
  obtain ⟨l, there⟩ := stray.live
  have known : t.store.Shaped ((Watch.ofRoot t.root).add l.parent [id]) :=
    orderly.shaped.add fun x mem => by
      rw [List.mem_singleton.mp mem]
      exact ⟨⟨l, there, rfl⟩, stray.loose⟩
  have tidy : t.store.Tidy ((Watch.ofRoot t.root).add l.parent [id]) :=
    orderly.tidy.mono fun _ _ _ => False.elim
  refine ⟨_, .start ⟨rfl, known⟩ tidy orderly.founded False.elim, ⟨fun _ _ _ => False.elim, ?_, ?_⟩,
    .inl ⟨rfl, rfl⟩, l.parent, .inr ⟨List.mem_singleton_self id, rfl⟩⟩
  · exact Watch.has_add.mpr (.inl (Watch.ready_ofRoot t.root).has)
  · exact fun _ _ => False.elim

theorem Kept.stray {grown parsed : Prop} {w : Watch} {p : Option LayerId}
    (kept : Kept grown parsed w t.root t.root t t') (stray : t.Stray id) (known : w.loose id p) :
    t'.Stray id ∧ t'.layer? id = t.layer? id := by
  have same := kept.still id (.inl ⟨p, known⟩) stray.ne
  refine ⟨⟨?_, ?_, (kept.rooted.shaped.loose known).2⟩, same⟩
  · rw [same]
    exact stray.live
  · rw [kept.rooted.root]
    exact stray.ne

/-! ### Runs -/

/-- Layers that parses and edits lead to. A parse may stop anywhere, and so may an edit of layers
that have not been parsed, but an edit of others has come to its end. -/
inductive Unbroken (engine : Engine) (language : Language) (registry : Option Registry) :
    LayerTree → Prop
  | unparsed (reports : QueryReports) (order : MapOrder) :
      Unbroken engine language registry (unparsed language registry reports order)
  | report {t : LayerTree} (reports : QueryReports) :
      Unbroken engine language registry t → Unbroken engine language registry { t with reports }
  | parse {t : LayerTree} (text : TextBuffer) :
      Unbroken engine language registry t →
      Unbroken engine language registry (stateOf (parse engine text t))
  | edit {t : LayerTree} (edit : TextEdit) (text : TextBuffer) :
      Unbroken engine language registry t →
      (t.isParsed = true → ∃ t', applyEdit engine edit text t = .ok () t') →
      Unbroken engine language registry (stateOf (applyEdit engine edit text t))

theorem Unbroken.touched (unbroken : Unbroken engine language registry t) :
    Touched engine language registry t := by
  induction unbroken with
  | unparsed reports order => exact .unparsed reports order
  | report reports _ ih => exact .report reports ih
  | parse text _ ih => exact .parse text ih
  | edit edit text _ _ ih => exact .edit edit text ih

theorem grown_unparsed (language : Language) (registry : Option Registry) (reports : QueryReports)
    (order : MapOrder) : (unparsed language registry reports order).store.Grown
      (.ofRoot (unparsed language registry reports order).root) := by
  have empty : ({} : LayerStore).Sound := ⟨.nil, fun slot mem => absurd mem List.not_mem_nil⟩
  have nothing : ({} : LayerStore).Grown ⟨fun _ _ => False, fun _ _ _ => False⟩ :=
    fun x l there => nomatch there
  refine (nothing.insert empty (.unparsed language none none) none).mono ?_
  rintro a p (known | ⟨mem, rfl⟩)
  · exact known.elim
  · exact ⟨List.mem_singleton.mp mem, rfl⟩

theorem Unbroken.grown (unbroken : Unbroken engine language registry t) :
    t.store.Grown (.ofRoot t.root) := by
  have behind {t t' : LayerTree} {grown parsed : Prop} (is : grown)
      (kept : Kept grown parsed (.ofRoot t.root) t.root t.root t t') :
      t'.store.Grown (.ofRoot t'.root) := by
    rw [kept.rooted.root]
    exact kept.grown is
  induction unbroken with
  | unparsed reports order => exact grown_unparsed language registry reports order
  | report reports _ ih => exact ih
  | @parse t text unbroken ih =>
      have start := unbroken.touched.orderly.start fun _ : True => ih
      exact (parse_kept start (Watch.ready_ofRoot t.root) engine text).stateOf
        (fun _ _ => behind trivial) fun _ kept => behind trivial kept.1
  | @edit t edit text unbroken ends ih =>
      have start := unbroken.touched.orderly.start fun _ : True => ih
      have kept := applyEdit_kept start (Watch.ready_ofRoot t.root) ⟨rfl, rfl⟩ engine edit text
      cases run : applyEdit engine edit text t with
      | ok _ t' =>
          rw [run] at kept
          exact behind trivial kept
      | error e t' =>
          rw [run] at kept
          have unparsed : t.isParsed = false := by
            refine Bool.eq_false_iff.mpr fun isParsed => ?_
            obtain ⟨t'', ended⟩ := ends isParsed
            cases run.symm.trans ended
          exact behind ⟨trivial, unparsed⟩ kept.1

/-- Layers that further parses and edits lead to, wherever these stop. -/
inductive Later (engine : Engine) (t : LayerTree) : LayerTree → Prop
  | refl : Later engine t t
  | report {t' : LayerTree} (reports : QueryReports) :
      Later engine t t' → Later engine t { t' with reports }
  | parse {t' : LayerTree} (text : TextBuffer) :
      Later engine t t' → Later engine t (stateOf (parse engine text t'))
  | edit {t' : LayerTree} (edit : TextEdit) (text : TextBuffer) :
      Later engine t t' → Later engine t (stateOf (applyEdit engine edit text t'))

theorem Later.touched (touched : Touched engine language registry t) (later : Later engine t t') :
    Touched engine language registry t' := by
  induction later with
  | refl => exact touched
  | report reports _ ih => exact .report reports ih
  | parse text _ ih => exact .parse text ih
  | edit edit text _ ih => exact .edit edit text ih

/-- The slots that further parses and edits freed are accounted for. -/
theorem Later.accounted (touched : Touched engine language registry t) (later : Later engine t t') :
    t.store.Accounted t'.store := by
  have start {t : LayerTree} (touched : Touched engine language registry t) :
      Kept False False (.ofRoot t.root) t.root t.root t t := touched.orderly.start False.elim
  induction later with
  | refl => exact .refl t.store
  | report reports _ ih => exact ih
  | @parse t₁ text later ih =>
      have kept := parse_kept (start (later.touched touched)) (Watch.ready_ofRoot t₁.root) engine text
      exact ih.trans (kept.stateOf (fun _ _ kept => kept.accounted) fun _ kept => kept.1.accounted)
  | @edit t₁ edit text later ih =>
      have kept := applyEdit_kept (start (later.touched touched)) (Watch.ready_ofRoot t₁.root)
        ⟨rfl, rfl⟩ engine edit text
      exact ih.trans (kept.stateOf (fun _ _ kept => kept.accounted) fun _ kept => kept.1.accounted)

/-- A layer that has been left behind stays as it is, whatever is done. -/
theorem Later.stray (touched : Touched engine language registry t) (stray : t.Stray id)
    (later : Later engine t t') : t'.Stray id ∧ t'.layer? id = t.layer? id := by
  have behind {w : Watch} {p : Option LayerId} {grown parsed : Prop} {t₁ t₂ : LayerTree}
      (before : t₁.Stray id ∧ t₁.layer? id = t.layer? id) (known : w.loose id p)
      (kept : Kept grown parsed w t₁.root t₁.root t₁ t₂) :
      t₂.Stray id ∧ t₂.layer? id = t.layer? id :=
    (kept.stray before.1 known).imp_right (·.trans before.2)
  induction later with
  | refl => exact ⟨stray, rfl⟩
  | report reports _ ih => exact ⟨⟨ih.1.live, ih.1.ne, ih.1.loose⟩, ih.2⟩
  | parse text later ih =>
      obtain ⟨w, start, ready, -, p, known⟩ := ih.1.watched (later.touched touched).orderly
      exact (parse_kept start ready engine text).stateOf (fun _ _ => behind ih known)
        fun _ kept => behind ih known kept.1
  | edit edit text later ih =>
      obtain ⟨w, start, ready, root, p, known⟩ := ih.1.watched (later.touched touched).orderly
      exact (applyEdit_kept start ready root engine edit text).stateOf (fun _ _ => behind ih known)
        fun _ kept => behind ih known kept.1

/-- After all parses and edits, also those that stopped, children are there and know their parents,
and their trees cover something. All layers that are there are reached unless one has been left
behind, which happens only where an edit of layers that have been parsed stops; such a layer stays
for good. A layer that has gone does not come back under its identity, by any account of what was
done that frees no slot as often as there are generations. -/
theorem arena_of_touched (touched : Touched engine language registry t) :
    t.Linked ∧ (t.Whole ↔ ∀ id, ¬t.Stray id) ∧ (Unbroken engine language registry t → t.Whole) ∧
      (∀ id t', t.Stray id → Later engine t t' → t'.Stray id ∧ t'.layer? id = t.layer? id) ∧
      ∀ t₁ t₂, Later engine t t₁ → Later engine t₁ t₂ →
        t.store.Accounted t₁.store ∧ t₁.store.Accounted t₂.store ∧
        ∀ freed freed', t.store.Account freed t₁.store → t₁.store.Account freed' t₂.store →
          Few (freed ++ freed') →
          ∀ id l, t.layer? id = some l → t₁.layer? id = none → t₂.layer? id = none := by
  have orderly := touched.orderly
  refine ⟨orderly.linked, orderly.whole_iff, fun unbroken => orderly.whole unbroken.grown,
    fun id t' stray later => later.stray touched stray, fun t₁ t₂ first second => ?_⟩
  refine ⟨first.accounted touched, second.accounted (first.touched touched), ?_⟩
  intro freed freed' account account' few id l there gone
  exact account.gone_for_good account' few there gone

/-! ### An edit that stops on the way -/

/-- A new layer is parsed at its place, and taken away where it cannot be parsed or covers
nothing. -/
theorem createChild_eq {parse : LayerId → LayerM Unit} {p : InjectedPart} {l : SyntaxLayer}
    {made : LayerId × LayerStore} (there : t.layer? id = some l) (vacant : l.child? p.site = none)
    (inserted : t.store.insert (.unparsed p.language (some id)
      (some p.injection.byteRange)) = made) :
    createChild parse id p t =
      match parse made.1 { t with
          store := (made.2.modify id fun l =>
            { l with children := l.children ++ [(p.site, made.1)] }).modify id fun l =>
            { l with children := t.order.arrange t.parses l.children } } with
      | .ok () t =>
          if (t.layer? made.1).all (·.hasEmptyTree) then
            .ok () { t with store := t.store.detach id p.site made.1 }
          else .ok () t
      | .error e t => .error e { t with store := t.store.detach id p.site made.1 } := by
  rw [createChild, get_bind, there]
  dsimp only
  rw [vacant, Option.isSome_none, if_neg Bool.false_ne_true, onStore_bind, modifyLayer_bind,
    rearrange_bind, inserted]
  dsimp only
  generalize ({ t with store := _ } : LayerTree) = s
  cases run : parse made.1 s with
  | ok _ t' =>
      refine (bind_ok (by rw [run])).trans ?_
      rw [get_bind]
      dsimp only
      by_cases empty : (t'.layer? made.1).all (·.hasEmptyTree) = true
      · rw [if_pos empty, if_pos empty]
        rfl
      · rw [if_neg empty, if_neg empty]
        rfl
  | error e t' => exact bind_error (by rw [run])

/-- A document whose body is in a language named after it. -/
def host : Language := ⟨0, "host", none, some (kindQuery "body"), none⟩

/-- What is odd in a body is in a language of its own. -/
def guest : Language := ⟨1, "body", none, some (kindQuery "odd"), none⟩

def odd : Language := ⟨2, "odd", none, none, none⟩

def guestLanguages : Registry := ⟨[("body", guest), ("odd", odd)]⟩

/-- The tree of a document or of a part of it, which is odd behind a sharp sign. -/
def oddTree (language : Language) (text : TextBuffer) (range : Option ByteRange) : Node :=
  match range, text.chars with
  | some r, '#' :: _ => leaf "odd" r.location (r.location + r.length)
  | _, _ => markedTree language text range

/-- A parser that cannot be set to the language of what is odd. -/
def strictEngine : Engine where
  parse := fun _ language text range =>
    if language.id = odd.id then .error (.language "incompatible version")
    else .ok (oddTree language text range)
  shift := fun _ root => root
  branchAt := fun _ _ => []
  has_of_mem_branchAt := fun _ _ _ mem => nomatch mem
  depth := 12

/-- Where one node is of a kind, it is the part that is named after the kind. -/
theorem kind_injections {kind : String} {tree x : Node} {path : List Nat} (text : TextBuffer)
    (found : kindMatches kind tree = [⟨0, [(0, ⟨path, x⟩)]⟩]) :
    (injectionsOf (kindQuery kind) tree text {}).1 =
      InjectionCapture.injections (·.text text) [⟨kind, path, x, none, 0⟩] := by
  have matched : (kindQuery kind).matchesIn tree text none = [⟨0, [(0, ⟨path, x⟩)]⟩] := found
  rw [injectionsOf, Query.supportedMatches, matched]
  exact congrArg (InjectionCapture.injections (·.text text)) (List.mergeSort_singleton _)

theorem no_injections {kind : String} {tree : Node} (text : TextBuffer)
    (found : kindMatches kind tree = []) : (injectionsOf (kindQuery kind) tree text {}).1 = [] := by
  have matched : (kindQuery kind).matchesIn tree text none = [] := found
  rw [injectionsOf, Query.supportedMatches, matched]
  exact congrArg (InjectionCapture.injections (·.text text)) List.mergeSort_nil

/-- A document, whose tree came out of the parse with a number, and what is in the slots behind its
own. The body is a child at its places in the trees of some parses. -/
def hostLayers (text : TextBuffer) (n : Nat) (places : List Nat) (slots : List LayerSlot)
    (free : List Nat) (parses : Nat) (reports : QueryReports) : LayerTree where
  store := ⟨(⟨0, some ⟨host, some ⟨n, markedTree host text none⟩, none,
    places.map fun k => (⟨k, [1]⟩, ⟨1, 0⟩), none⟩⟩ :: slots).toArray, free⟩
  root := ⟨0, 0⟩
  registry := some guestLanguages
  text := text
  parses := parses
  reports := reports
  order := .oldestFirst

/-- The layer of a body with its tree. -/
def guestSlot (n : Nat) (tree : Node) : LayerSlot :=
  ⟨0, some ⟨guest, some ⟨n, tree⟩, some ⟨0, 0⟩, [], some ⟨2, 2⟩⟩⟩

/-- A body that has just been given a layer. -/
def newGuest : LayerSlot := ⟨0, some (.unparsed guest (some ⟨0, 0⟩) (some ⟨2, 2⟩))⟩

theorem parse_guest (reports : QueryReports) : ∃ reports',
    parseLayer strictEngine 11 ⟨1, 0⟩ (hostLayers dashText 0 [0] [newGuest] [] 1 reports) =
      .ok () (hostLayers dashText 0 [0] [guestSlot 1 (leaf "text" 2 4)] [] 2 reports') := by
  have begun :
      parseLayer strictEngine 11 ⟨1, 0⟩ (hostLayers dashText 0 [0] [newGuest] [] 1 reports) =
        (injections strictEngine ⟨1, 0⟩ >>= fun found =>
          found.forM (createInjected (parseLayer strictEngine 10) ⟨1, 0⟩))
          (hostLayers dashText 0 [0] [guestSlot 1 (leaf "text" 2 4)] [] 2 reports) := rfl
  have there :
      (hostLayers dashText 0 [0] [guestSlot 1 (leaf "text" 2 4)] [] 2 reports).layer? ⟨1, 0⟩ =
        some ⟨guest, some ⟨1, leaf "text" 2 4⟩, some ⟨0, 0⟩, [], some ⟨2, 2⟩⟩ := rfl
  obtain ⟨reports', run⟩ := injections_eq strictEngine there rfl rfl
  rw [no_injections _ rfl] at run
  refine ⟨reports', ?_⟩
  rw [begun, bind_ok run]
  rfl

theorem parse_host : ∃ reports,
    parse strictEngine dashText (unparsed host (some guestLanguages) {} .oldestFirst) =
      .ok () (hostLayers dashText 0 [0] [guestSlot 1 (leaf "text" 2 4)] [] 2 reports) := by
  have begun : parse strictEngine dashText (unparsed host (some guestLanguages) {} .oldestFirst) =
      (injections strictEngine ⟨0, 0⟩ >>= fun found =>
        found.forM (createInjected (parseLayer strictEngine 11) ⟨0, 0⟩))
        (hostLayers dashText 0 [] [] [] 1 {}) := rfl
  have there : (hostLayers dashText 0 [] [] [] 1 {}).layer? ⟨0, 0⟩ =
      some ⟨host, some ⟨0, markedTree host dashText none⟩, none, [], none⟩ := rfl
  obtain ⟨reports, run⟩ := injections_eq strictEngine there rfl rfl
  rw [kind_injections _ rfl] at run
  obtain ⟨reports', parsed⟩ := parse_guest reports
  have created :
      createInjected (parseLayer strictEngine 11) ⟨0, 0⟩ (⟨0, [1]⟩, ⟨[1], "body", ⟨2, 2⟩⟩)
          (hostLayers dashText 0 [] [] [] 1 reports) =
        .ok () (hostLayers dashText 0 [0] [guestSlot 1 (leaf "text" 2 4)] [] 2 reports') := by
    have known : (hostLayers dashText 0 [] [] [] 1 reports).language? "body" = some guest := rfl
    rw [createInjected, get_bind, known]
    dsimp only
    rw [createChild_eq rfl rfl rfl]
    show (match parseLayer strictEngine 11 ⟨1, 0⟩
        (hostLayers dashText 0 [0] [newGuest] [] 1 reports) with
      | .ok () t => _
      | .error e t => _) = _
    rw [parsed]
    rfl
  refine ⟨reports', ?_⟩
  rw [begun, bind_ok run]
  exact bind_ok created

/-- What is odd in a body cannot be parsed, and the layer made for it is taken away again. -/
theorem updateLayer_halts (reports : QueryReports) : ∃ reports',
    updateLayer strictEngine toSharp 11 ⟨1, 0⟩
        (hostLayers sharpText 2 [] [guestSlot 1 (leaf "text" 2 4)] [] 3 reports) =
      .error (.failed (.language "incompatible version"))
        (hostLayers sharpText 2 [] [guestSlot 3 (leaf "odd" 2 4), ⟨1, none⟩] [2] 5 reports') := by
  have parsed : updateLayer strictEngine toSharp 11 ⟨1, 0⟩
        (hostLayers sharpText 2 [] [guestSlot 1 (leaf "text" 2 4)] [] 3 reports) =
      updateChildren strictEngine (updateLayer strictEngine toSharp 10) (parseLayer strictEngine 10)
        toSharp ⟨1, 0⟩ (hostLayers sharpText 2 [] [guestSlot 3 (leaf "odd" 2 4)] [] 4 reports) :=
          rfl
  have there (r : QueryReports) :
      (hostLayers sharpText 2 [] [guestSlot 3 (leaf "odd" 2 4)] [] 4 r).layer? ⟨1, 0⟩ =
        some ⟨guest, some ⟨3, leaf "odd" 2 4⟩, some ⟨0, 0⟩, [], some ⟨2, 2⟩⟩ := rfl
  obtain ⟨reports', run⟩ : ∃ reports',
      injections strictEngine ⟨1, 0⟩
          (hostLayers sharpText 2 [] [guestSlot 3 (leaf "odd" 2 4)] [] 4 reports) =
        .ok [(⟨3, []⟩, ⟨[], "odd", ⟨2, 2⟩⟩)]
          (hostLayers sharpText 2 [] [guestSlot 3 (leaf "odd" 2 4)] [] 4 reports') := by
    obtain ⟨reports', run⟩ := injections_eq strictEngine (there reports) rfl rfl
    rw [kind_injections _ rfl] at run
    exact ⟨reports', run⟩
  have assigned : [((⟨3, []⟩ : Site), (⟨[], "odd", ⟨2, 2⟩⟩ : Injection))].foldlM (assign toSharp)
        { orphans := [] } (hostLayers sharpText 2 [] [guestSlot 3 (leaf "odd" 2 4)] [] 4 reports') =
      .ok ⟨[], [], [⟨⟨3, []⟩, ⟨[], "odd", ⟨2, 2⟩⟩, odd⟩]⟩
        (hostLayers sharpText 2 [] [guestSlot 3 (leaf "odd" 2 4)] [] 4 reports') := rfl
  have settled : settle (updateLayer strictEngine toSharp 10) (parseLayer strictEngine 10) ⟨1, 0⟩
        ⟨[], [], [⟨⟨3, []⟩, ⟨[], "odd", ⟨2, 2⟩⟩, odd⟩]⟩
        (hostLayers sharpText 2 [] [guestSlot 3 (leaf "odd" 2 4)] [] 4 reports') =
      .error (.failed (.language "incompatible version"))
        (hostLayers sharpText 2 [] [guestSlot 3 (leaf "odd" 2 4), ⟨1, none⟩] [2] 5 reports') := rfl
  refine ⟨reports', ?_⟩
  rw [parsed, updateChildren, bind_ok run, get_bind, there reports']
  dsimp only
  rw [modifyLayer_bind]
  exact (bind_ok assigned).trans settled

/-- The edit makes the body odd. While its layer is updated it has no place. -/
theorem applyEdit_halts (reports : QueryReports) : ∃ reports',
    applyEdit strictEngine toSharp sharpText
        (hostLayers dashText 0 [0] [guestSlot 1 (leaf "text" 2 4)] [] 2 reports) =
      .error (.failed (.language "incompatible version"))
        (hostLayers sharpText 2 [] [guestSlot 3 (leaf "odd" 2 4), ⟨1, none⟩] [2] 5 reports') := by
  have parsed : applyEdit strictEngine toSharp sharpText
        (hostLayers dashText 0 [0] [guestSlot 1 (leaf "text" 2 4)] [] 2 reports) =
      updateChildren strictEngine (updateLayer strictEngine toSharp 11) (parseLayer strictEngine 11)
        toSharp ⟨0, 0⟩ (hostLayers sharpText 2 [0] [guestSlot 1 (leaf "text" 2 4)] [] 3 reports) :=
          rfl
  have there (r : QueryReports) :
      (hostLayers sharpText 2 [0] [guestSlot 1 (leaf "text" 2 4)] [] 3 r).layer? ⟨0, 0⟩ =
        some ⟨host, some ⟨2, markedTree host sharpText none⟩, none, [(⟨0, [1]⟩, ⟨1, 0⟩)], none⟩ :=
          rfl
  obtain ⟨reports₁, run⟩ : ∃ reports₁,
      injections strictEngine ⟨0, 0⟩
          (hostLayers sharpText 2 [0] [guestSlot 1 (leaf "text" 2 4)] [] 3 reports) =
        .ok [(⟨2, [1]⟩, ⟨[1], "body", ⟨2, 2⟩⟩)]
          (hostLayers sharpText 2 [0] [guestSlot 1 (leaf "text" 2 4)] [] 3 reports₁) := by
    obtain ⟨reports₁, run⟩ := injections_eq strictEngine (there reports) rfl rfl
    rw [kind_injections _ rfl] at run
    exact ⟨reports₁, run⟩
  have assigned : [((⟨2, [1]⟩ : Site), (⟨[1], "body", ⟨2, 2⟩⟩ : Injection))].foldlM (assign toSharp)
        { orphans := [(⟨0, [1]⟩, ⟨1, 0⟩)] }
        (hostLayers sharpText 2 [] [guestSlot 1 (leaf "text" 2 4)] [] 3 reports₁) =
      .ok ⟨[], [(⟨2, [1]⟩, ⟨1, 0⟩)], []⟩
        (hostLayers sharpText 2 [] [guestSlot 1 (leaf "text" 2 4)] [] 3 reports₁) := rfl
  obtain ⟨reports', halted⟩ := updateLayer_halts reports₁
  refine ⟨reports', ?_⟩
  rw [parsed, updateChildren, bind_ok run, get_bind, there reports₁]
  dsimp only
  rw [modifyLayer_bind]
  refine (bind_ok assigned).trans ?_
  rw [settle, onStore_bind, get_bind]
  exact bind_error (bind_error (bind_error halted))

/-- A layer that an edit was to keep is left behind for good when a part of it is in a language that
the parser refuses. -/
theorem stray_of_stopped_edit : ∃ t id, Touched strictEngine host (some guestLanguages) t ∧
    t.Linked ∧ t.Stray id ∧ ¬t.Whole ∧ ¬Unbroken strictEngine host (some guestLanguages) t ∧
    ∀ t', Later strictEngine t t' → t'.Stray id ∧ t'.layer? id = t.layer? id := by
  obtain ⟨reports, before⟩ := parse_host
  obtain ⟨reports', halted⟩ := applyEdit_halts reports
  have touched : Touched strictEngine host (some guestLanguages)
      (hostLayers sharpText 2 [] [guestSlot 3 (leaf "odd" 2 4), ⟨1, none⟩] [2] 5 reports') := by
    have parsed := Touched.parse dashText
      (.unparsed {} .oldestFirst : Touched strictEngine host (some guestLanguages) _)
    rw [before] at parsed
    have behind := Touched.edit toSharp sharpText parsed
    rw [stateOf, halted] at behind
    exact behind
  obtain ⟨linked, whole, unbroken, stays, -⟩ := arena_of_touched touched
  have stray :
      Stray (hostLayers sharpText 2 [] [guestSlot 3 (leaf "odd" 2 4), ⟨1, none⟩] [2] 5 reports')
        ⟨1, 0⟩ := by
    refine ⟨⟨_, rfl⟩, (by decide : (⟨1, 0⟩ : LayerId) ≠ ⟨0, 0⟩), ?_⟩
    rintro ⟨slot, generation⟩ site ⟨l, there, mem⟩
    have among := Array.mem_of_getElem? (LayerStore.layer?_eq_some_iff.mp there)
    rcases List.mem_cons.mp (Array.mem_toList_iff.mpr among) with same | among
    · cases same
      cases mem
    · simp only [guestSlot, List.mem_cons, List.not_mem_nil, or_false] at among
      rcases among with same | same
      · cases same
        cases mem
      · cases same
  have lost : ¬Whole _ := fun is => whole.mp is _ stray
  exact ⟨_, _, touched, linked, stray, lost, fun is => lost (unbroken is),
    fun t' => stays _ t' stray⟩

end LayerTree

end CodeEditor.Layer

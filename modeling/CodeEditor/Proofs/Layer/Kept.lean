import CodeEditor.Proofs.Layer.Account
import CodeEditor.Proofs.Layer.Growth

/-!
What is kept while layers are parsed.

`Tidy` says that the children of a layer have places of their own and that a child has a tree that
covers something, unless it is still being parsed. `Kept` is what holds while work is done at one
layer: the layers are a tree and tidy, no other known layer is touched, the slots that were freed
are accounted for, and every layer is below a known one. A new layer is `Hosted` by its parent until
it is known whether it keeps its place. A parse keeps all of this wherever it stops
(`parseLayer_kept`), for nothing is taken from a place that is not removed at once.
-/

namespace CodeEditor.Layer

open Syntax (Language Registry)
open LayerStore (Watch)

namespace LayerStore

variable {s s' : LayerStore} {id x : LayerId} {l : SyntaxLayer} {site : Site} {w w' : Watch}
  {p : LayerId}

/-! ### Tidy layers -/

/-- Children have places of their own, and their trees cover something unless they are pinned. -/
structure Tidy (w : Watch) (s : LayerStore) : Prop where
  places : ∀ {id l}, s.layer? id = some l → (l.children.map (·.1)).Nodup
  filled : ∀ {id site x l}, s.Holds id site x → s.layer? x = some l → l.hasEmptyTree = true →
    ∃ p site', w.pinned x p site'

namespace Tidy

/-- Layers have fewer children, and those that are not known keep their trees. -/
theorem less (tidy : s.Tidy w) (shaped : s.Shaped w)
    (fewer : ∀ x l', s'.layer? x = some l' → ∃ l, s.layer? x = some l ∧
      l'.children.Subperm l.children ∧ (l'.tree = l.tree ∨ w.Has x)) : s'.Tidy w where
  places := by
    intro id l' there'
    obtain ⟨l, there, ⟨_, perm, sublist⟩, -⟩ := fewer id l' there'
    exact (perm.map _).nodup_iff.mp ((tidy.places there).sublist (sublist.map _))
  filled := by
    rintro id site x l' ⟨lₚ', above', mem'⟩ there' empty
    obtain ⟨lₚ, above, some, -⟩ := fewer id lₚ' above'
    obtain ⟨l, there, -, tree | known⟩ := fewer x l' there'
    · refine tidy.filled ⟨lₚ, above, some.subset mem'⟩ there ?_
      rwa [SyntaxLayer.hasEmptyTree, ← tree]
    · obtain ⟨site', pinned⟩ := shaped.exists_pinned ⟨lₚ, above, some.subset mem'⟩ known
      exact ⟨id, site', pinned⟩

theorem modify (tidy : s.Tidy w) (shaped : s.Shaped w) (id : LayerId)
    (change : SyntaxLayer → SyntaxLayer) (fewer : ∀ l, (change l).children.Subperm l.children)
    (tree : (∀ l, (change l).tree = l.tree) ∨ w.Has id) : (s.modify id change).Tidy w := by
  refine tidy.less shaped fun x l' there' => ?_
  rw [layer?_modify] at there'
  split at there'
  · next same =>
      subst same
      obtain ⟨l, there, rfl⟩ := Option.map_eq_some_iff.mp there'
      exact ⟨l, there, fewer l, tree.imp_left fun tree => tree l⟩
  · exact ⟨l', there', .refl _, .inl rfl⟩

theorem of_shrinks (tidy : s.Tidy w) (shaped : s.Shaped w)
    (shrinks : ∀ x l, s'.layer? x = some l → s.layer? x = some l) : s'.Tidy w :=
  tidy.less shaped fun x l there => ⟨l, shrinks x l there, .refl _, .inl rfl⟩

theorem insert (tidy : s.Tidy w) (shaped : s.Shaped w) (childless : l.children = []) :
    (s.insert l).2.Tidy w := by
  obtain ⟨vacant, -, layers⟩ := layer?_insert shaped.sound l
  generalize s.insert l = made at vacant layers ⊢
  have old : ∀ {id l' child}, made.2.layer? id = some l' → child ∈ l'.children →
      s.layer? id = some l' := by
    intro id l' child there mem
    rw [layers] at there
    split at there
    · obtain rfl := Option.some.inj there
      rw [childless] at mem
      cases mem
    · exact there
  constructor
  case places =>
    intro id l' there
    rw [layers] at there
    split at there
    · obtain rfl := Option.some.inj there
      rw [childless]
      exact List.nodup_nil
    · exact tidy.places there
  case filled =>
    rintro id site x l' ⟨lₚ, above, mem⟩ there empty
    have held : s.Holds id site x := ⟨lₚ, old above mem, mem⟩
    refine tidy.filled held ?_ empty
    obtain ⟨l₀, there₀, -⟩ := shaped.parent held
    rwa [layers, if_neg] at there
    rintro rfl
    cases vacant.symm.trans there₀

/-- A layer becomes a child at a free place. It is pinned there, or its tree covers something. -/
theorem attach {change : SyntaxLayer → SyntaxLayer} (tidy : s.Tidy w)
    (more : ∀ l, s.layer? id = some l → ∃ front, front.Sublist l.children ∧
      (change l).children = front ++ [(site, x)] ∧ ∀ child ∈ front, child.1 ≠ site)
    (tree : ∀ l, (change l).tree = l.tree)
    (full : ∀ l, s.layer? x = some l → l.hasEmptyTree = true → ∃ p site', w'.pinned x p site')
    (known : ∀ x p site, w.pinned x p site → w'.pinned x p site) :
    (s.modify id change).Tidy w' := by
  have before : ∀ {x l'}, (s.modify id change).layer? x = some l' →
      ∃ l, s.layer? x = some l ∧ l'.tree = l.tree := by
    intro x l' there'
    rw [layer?_modify] at there'
    split at there'
    · next same =>
        obtain ⟨l, there, rfl⟩ := Option.map_eq_some_iff.mp there'
        exact ⟨l, same ▸ there, tree l⟩
    · exact ⟨l', there', rfl⟩
  constructor
  case places =>
    intro id' l' there'
    rw [layer?_modify] at there'
    split at there'
    · obtain ⟨l, there, rfl⟩ := Option.map_eq_some_iff.mp there'
      obtain ⟨front, sublist, children, free⟩ := more l there
      rw [children, List.map_append, List.map_singleton, List.nodup_append]
      refine ⟨(tidy.places there).sublist (sublist.map _), by simp, ?_⟩
      rintro k mem _ new rfl
      obtain rfl := List.mem_singleton.mp new
      obtain ⟨child, among, same⟩ := List.mem_map.mp mem
      exact free child among same
    · exact tidy.places there'
  case filled =>
    intro id' site' y l' held there' empty
    obtain ⟨l, there, tree⟩ := before there'
    rw [SyntaxLayer.hasEmptyTree, tree] at empty
    rcases holds_modify.mp held with ⟨rfl, lₚ, above, mem⟩ | ⟨-, held⟩
    · obtain ⟨front, sublist, children, -⟩ := more lₚ above
      rw [children] at mem
      rcases List.mem_append.mp mem with mem | mem
      · obtain ⟨p, site'', pinned⟩ := tidy.filled ⟨lₚ, above, sublist.subset mem⟩ there empty
        exact ⟨p, site'', known _ _ _ pinned⟩
      · obtain ⟨rfl, rfl⟩ := Prod.mk.inj (List.mem_singleton.mp mem)
        exact full l there empty
    · obtain ⟨p, site'', pinned⟩ := tidy.filled held there empty
      exact ⟨p, site'', known _ _ _ pinned⟩

/-- A layer that covers something, or is gone, need not be pinned. -/
theorem of_pin (tidy : s.Tidy (w.pin x p site))
    (full : ∀ l, s.layer? x = some l → l.hasEmptyTree = false) : s.Tidy w where
  places := tidy.places
  filled := by
    intro id site' y l held there empty
    obtain ⟨p', site'', pinned | ⟨rfl, -⟩⟩ := tidy.filled held there empty
    · exact ⟨p', site'', pinned⟩
    · cases (full l there).symm.trans empty

theorem mono (tidy : s.Tidy w) (known : ∀ x p site, w.pinned x p site → w'.pinned x p site) :
    s.Tidy w' where
  places := tidy.places
  filled := by
    intro id site x l held there empty
    obtain ⟨p, site', pinned⟩ := tidy.filled held there empty
    exact ⟨p, site', known _ _ _ pinned⟩

end Tidy

end LayerStore

namespace LayerTree

variable {w w' : Watch} {root id parent child : LayerId} {t₀ t₁ t t' : LayerTree} {engine : Engine}
  {grown grown' parsed parsed' : Prop} {l : SyntaxLayer} {site : Site} {ids : List LayerId}
  {p : Option LayerId}

/-- What holds while work is done at a layer: since a time nothing that is known of other layers has
changed. The two properties say whether every layer is below a known one, and whether the layer has
a tree. -/
structure Kept (grown parsed : Prop) (w : Watch) (root id : LayerId) (t₀ t : LayerTree) : Prop where
  rooted : Rooted w root t
  tidy : t.store.Tidy w
  founded : t.store.Founded
  still : ∀ x, w.Has x → x ≠ id → t.layer? x = t₀.layer? x
  parsed : parsed → (t.tree? id).isSome
  accounted : t₀.store.Accounted t.store
  grown : grown → t.store.Grown w

namespace Kept

/-- Work begins at a layer. -/
theorem start (rooted : Rooted w root t) (tidy : t.store.Tidy w) (founded : t.store.Founded)
    (grows : grown → t.store.Grown w) : Kept grown False w root id t t :=
  ⟨rooted, tidy, founded, fun _ _ _ => rfl, False.elim, .refl _, grows⟩

theorem mono (kept : Kept grown parsed w root id t₀ t) (grows : grown' → grown)
    (parses : parsed' → parsed) : Kept grown' parsed' w root id t₀ t :=
  { kept with
    parsed := fun is => kept.parsed (parses is)
    grown := fun is => kept.grown (grows is) }

theorem congr (kept : Kept grown parsed w root id t₀ t) (store : t'.store = t.store)
    (same : t'.root = t.root) : Kept grown parsed w root id t₀ t' where
  rooted := ⟨same.trans kept.rooted.root, store ▸ kept.rooted.shaped⟩
  tidy := store ▸ kept.tidy
  founded := store ▸ kept.founded
  still := by
    simp only [layer?, store]
    exact kept.still
  parsed := by
    simp only [tree?, layer?, store]
    exact kept.parsed
  accounted := store ▸ kept.accounted
  grown := store ▸ kept.grown

theorem exists_layer (kept : Kept grown parsed w root id t₀ t) {x : LayerId} (has : w.Has x) :
    ∃ l, t.layer? x = some l :=
  kept.rooted.shaped.exists_of_has has

theorem tree_isSome (kept : Kept grown parsed w root id t₀ t) (there : t.layer? id = some l)
    (is : parsed) : l.tree.isSome := by
  have some := kept.parsed is
  rwa [tree?, there] at some

/-- The layer itself changes. -/
theorem modify {change : SyntaxLayer → SyntaxLayer} (kept : Kept grown parsed w root id t₀ t)
    (there : t.layer? id = some l) (shaped : (t.store.modify id change).Shaped w)
    (tidy : (t.store.modify id change).Tidy w) (founded : (t.store.modify id change).Founded)
    (tree : parsed' → (change l).tree.isSome)
    (grows : grown' → (t.store.modify id change).Grown w) :
    Kept grown' parsed' w root id t₀ { t with store := t.store.modify id change } where
  rooted := kept.rooted.store shaped
  tidy := tidy
  founded := founded
  still := by
    intro x known other
    rw [← kept.still x known other]
    exact LayerStore.layer?_modify_of_ne other _
  parsed := fun is => by
    rw [tree?, layer?, LayerStore.layer?_modify_self there]
    exact tree is
  accounted := kept.accounted.modify id _
  grown := grows

/-- Layers are removed, none of which is known. -/
theorem shrink {s : LayerStore} (kept : Kept grown' parsed w root id t₀ t) (has : w.Has id)
    (shaped : s.Shaped w) (shrinks : ∀ x l, s.layer? x = some l → t.store.layer? x = some l)
    (accounted : t.store.Accounted s) (grows : grown → s.Grown w) :
    Kept grown parsed w root id t₀ { t with store := s } := by
  have same : ∀ {x}, w.Has x → s.layer? x = t.layer? x := by
    intro x has
    obtain ⟨l, there⟩ := shaped.exists_of_has has
    rw [there, layer?, shrinks x l there]
  constructor
  case rooted => exact kept.rooted.store shaped
  case tidy => exact kept.tidy.of_shrinks kept.rooted.shaped shrinks
  case founded => exact kept.founded.of_shrinks shrinks
  case still => exact fun x has other => (same has).trans (kept.still x has other)
  case parsed =>
    rw [tree?, layer?]
    dsimp only
    rw [same has]
    exact kept.parsed
  case accounted => exact kept.accounted.trans accounted
  case grown => exact grows

end Kept

/-- A parse of a layer keeps what is known, also where it stops. Where it has changed anything the
layer has a tree. -/
def KeepsParsing (step : LayerId → LayerM Unit) : Prop :=
  ∀ grown parsed w root id t₀ t, Kept grown parsed w root id t₀ t → w.Ready id →
    Keeps (fun _ => Kept grown True w root id t₀)
      (fun t' => Kept grown parsed w root id t₀ t' ∧ (t'.store = t.store ∨ (t'.tree? id).isSome))
      (step id t)

/-! ### New layers -/

/-- A new layer has got a place and is worked on. Its parent has changed in nothing else but the
order of its children. -/
structure Hosted (grown parsed : Prop) (w : Watch) (root parent child : LayerId) (site : Site)
    (l : SyntaxLayer) (t₀ t : LayerTree) : Prop where
  rooted : Rooted (w.pin child parent site) root t
  tidy : t.store.Tidy (w.pin child parent site)
  founded : t.store.Founded
  unwatched : ¬w.Has child
  vacant : l.child? site = none
  there : ∃ children, children.Perm (l.children ++ [(site, child)]) ∧
    t.layer? parent = some { l with children }
  still : ∀ x, w.Has x → x ≠ parent → t.layer? x = t₀.layer? x
  parsed : parsed → l.tree.isSome
  accounted : t₀.store.Accounted t.store
  grown : grown → t.store.Grown w

/-- A new layer is given a place. -/
theorem Kept.host (kept : Kept grown parsed w root parent t₀ t) (ready : w.Ready parent)
    (there : t.layer? parent = some l) (vacant : l.child? site = none) {new : SyntaxLayer}
    (childless : new.children = []) (parented : new.parent = some parent)
    {made : LayerId × LayerStore} (inserted : t.store.insert new = made) :
    Hosted grown parsed w root parent made.1 site l t₀ { t with
      store := made.2.modify parent fun l =>
        { l with children := l.children ++ [(site, made.1)] } } := by
  obtain ⟨unused, sound, layers⟩ := LayerStore.layer?_insert kept.rooted.shaped.sound new
  have shaped := kept.rooted.shaped.insert childless
  have tidy := kept.tidy.insert kept.rooted.shaped childless
  have founded := kept.founded.insert kept.rooted.shaped.sound childless
  have accounted := (kept.accounted.insert new).modify parent
    fun l => { l with children := l.children ++ [(site, made.1)] }
  have grew : grown → _ := fun is =>
    (kept.grown is).insert kept.rooted.shaped.sound new (some parent)
  rw [inserted] at unused layers shaped tidy founded accounted grew
  obtain ⟨shaped, unwatched⟩ := shaped
  rw [parented] at shaped
  obtain ⟨has, loose⟩ := shaped.loose (.inr ⟨List.mem_singleton_self made.1, rfl⟩)
  have ne : parent ≠ made.1 := fun same => unwatched (same ▸ ready.has)
  have there' : made.2.layer? parent = some l := by
    rw [layers, if_neg ne]
    exact there
  have alone : made.2.layer? made.1 = some new := by rw [layers, if_pos rfl]
  have apart : ¬made.2.Below made.1 parent :=
    fun below => ne ((LayerStore.below_of_childless alone childless).mp below)
  constructor
  case rooted =>
    exact kept.rooted.store (shaped.of_add.attach _ site has loose unwatched (fun _ => rfl)
      fun l => ⟨_, .refl _, rfl⟩)
  case tidy =>
    refine tidy.attach (fun l' here => ⟨_, .refl _, rfl, fun child mem => ?_⟩) (fun _ => rfl)
      (fun _ _ _ => ⟨parent, site, .inr ⟨rfl, rfl, rfl⟩⟩) fun _ _ _ => .inl
    obtain rfl := Option.some.inj (there'.symm.trans here)
    exact ne_of_lookup_eq_none vacant mem
  case founded =>
    refine founded.attach apart fun l' _ kid mem => (List.mem_append.mp mem).imp_right fun new => ?_
    rw [List.mem_singleton.mp new]
  case unwatched => exact unwatched
  case vacant => exact vacant
  case there => exact ⟨_, .refl _, LayerStore.layer?_modify_self there' _⟩
  case still =>
    intro x known other
    rw [← kept.still x known other, layer?, LayerStore.layer?_modify_of_ne other, layers, if_neg]
    · rfl
    · rintro rfl
      exact unwatched known
  case parsed => exact kept.tree_isSome there
  case accounted => exact accounted
  case grown =>
    refine fun is => (grew is).attach ?_ there' apart (fun _ => List.mem_append_left _)
      (List.mem_append_right _ (List.mem_singleton_self _))
    rintro a p (known | ⟨mem, -⟩)
    · exact .inl known
    · exact .inr (List.mem_singleton.mp mem)

namespace Hosted

variable (hosted : Hosted grown parsed w root parent child site l t₀ t)

include hosted

/-- The children of the parent come in another order. -/
theorem rearranged : Hosted grown parsed w root parent child site l t₀
    { t with
      store := t.store.modify parent fun l =>
        { l with children := t.order.arrange t.parses l.children } } := by
  obtain ⟨children, perm, there⟩ := hosted.there
  have order := t.order.arrange_perm t.parses
  exact { hosted with
    rooted := hosted.rooted.rearranged parent
    tidy := hosted.tidy.modify hosted.rooted.shaped parent _ (fun l => (order l.children).subperm)
      (.inl fun _ => rfl)
    founded := hosted.founded.modify parent _ fun l => (order l.children).subset
    there := ⟨_, (order children).trans perm, LayerStore.layer?_modify_self there _⟩
    still := fun x known other =>
      (LayerStore.layer?_modify_of_ne other _).trans (hosted.still x known other)
    accounted := hosted.accounted.modify parent _
    grown := fun is => (hosted.grown is).same parent fun l _ mem =>
      (order l.children).mem_iff.mpr mem }

/-- Work at the new layer begins. -/
theorem start : Kept grown False (w.pin child parent site) root child t t :=
  .start hosted.rooted hosted.tidy hosted.founded hosted.grown

/-- Work at the new layer has been done. -/
theorem work (ready : w.Ready parent)
    (kept : Kept grown parsed' (w.pin child parent site) root child t t') :
    Hosted grown parsed w root parent child site l t₀ t' := by
  have same : ∀ x, w.Has x → t'.layer? x = t.layer? x := by
    intro x known
    refine kept.still x (Watch.has_pin.mpr (.inl known)) ?_
    rintro rfl
    exact hosted.unwatched known
  exact { hosted with
    rooted := kept.rooted
    tidy := kept.tidy
    founded := kept.founded
    there := by
      rw [same parent ready.has]
      exact hosted.there
    still := fun x known other => (same x known).trans (hosted.still x known other)
    accounted := hosted.accounted.trans kept.accounted
    grown := kept.grown }

/-- The new layer keeps its place. -/
theorem stays (full : ∀ l, t.layer? child = some l → l.hasEmptyTree = false) :
    Kept grown parsed w root parent t₀ t where
  rooted := ⟨hosted.rooted.root, hosted.rooted.shaped.of_pin⟩
  tidy := hosted.tidy.of_pin full
  founded := hosted.founded
  still := hosted.still
  parsed := fun is => by
    obtain ⟨_, -, there⟩ := hosted.there
    rw [tree?, there]
    exact hosted.parsed is
  accounted := hosted.accounted
  grown := hosted.grown

/-- The new layer is removed again. -/
theorem leaves (ready : w.Ready parent) :
    Kept grown parsed w root parent t₀
      { t with store := t.store.detach parent site child } := by
  have sound := hosted.rooted.shaped.sound
  obtain ⟨children, perm, there⟩ := hosted.there
  have filtered := LayerStore.layer?_modify_self there
    fun l => { l with children := l.children.filter (·.1 ≠ site) }
  have others : ∀ x, x ≠ parent → (t.store.modify parent fun l =>
      { l with children := l.children.filter (·.1 ≠ site) }).layer? x = t.layer? x :=
    fun x other => LayerStore.layer?_modify_of_ne other _
  have grew : grown → (t.store.modify parent fun l =>
      { l with children := l.children.filter (·.1 ≠ site) }).Grown (w.add none [child]) := by
    intro is
    refine (hosted.grown is).modify parent _ fun l' here kid mem => ?_
    obtain rfl := Option.some.inj (there.symm.trans here)
    rcases List.mem_append.mp (perm.mem_iff.mp mem) with old | new
    · have other := ne_of_lookup_eq_none hosted.vacant old
      exact .inl (List.mem_filter.mpr ⟨mem, decide_eq_true other⟩)
    · rw [List.mem_singleton.mp new]
      exact .inr (List.mem_singleton_self child)
  have accounted : t.store.Accounted (t.store.detach parent site child) :=
    (LayerStore.Accounted.refl t.store).detach parent site child
  have shaped := hosted.rooted.shaped.detach ready.closed hosted.unwatched
  have tidy := hosted.tidy.modify hosted.rooted.shaped parent
    (fun l => { l with children := l.children.filter (·.1 ≠ site) })
    (fun _ => List.filter_sublist.subperm) (.inl fun _ => rfl)
  have founded := hosted.founded.modify parent
    (fun l => { l with children := l.children.filter (·.1 ≠ site) })
    fun _ => List.filter_subset_self _
  have pinned : (t.store.modify parent fun l => { l with
      children := l.children.filter (·.1 ≠ site) }).Shaped (w.pin child parent site) :=
    hosted.rooted.shaped.modify (fun _ => rfl) fun _ => List.filter_sublist.subperm
  have sound' := sound.modify parent fun l => { l with children := l.children.filter (·.1 ≠ site) }
  rw [LayerStore.detach] at accounted shaped ⊢
  generalize t.store.modify parent _ = s
    at filtered others grew accounted shaped tidy founded pinned sound' ⊢
  have shrinks := (LayerStore.shrinks_remove sound' child).2
  have same : ∀ x, w.Has x → (s.remove child).layer? x = s.layer? x := by
    intro x known
    obtain ⟨l', here⟩ := shaped.exists_of_has known
    rw [here, shrinks x l' here]
  constructor
  case rooted => exact hosted.rooted.store shaped
  case tidy =>
    refine (tidy.of_shrinks pinned shrinks).of_pin fun l' here => ?_
    cases (LayerStore.layer?_remove_of_below sound' (.refl child)).symm.trans here
  case founded => exact founded.of_shrinks shrinks
  case still =>
    intro x known other
    exact (same x known).trans ((others x other).trans (hosted.still x known other))
  case parsed =>
    intro is
    rw [tree?, layer?]
    dsimp only
    rw [same parent ready.has, filtered]
    exact hosted.parsed is
  case accounted => exact hosted.accounted.trans accounted
  case grown =>
    refine fun is => (grew is).remove sound' ?_
    rintro a p (known | ⟨mem, -⟩)
    · exact .inl known
    · exact .inr (List.mem_singleton.mp mem)

end Hosted

/-! ### Parsing -/

/-- A part of a text is parsed, and no layer changes. -/
theorem parsePart_store (engine : Engine) (l : SyntaxLayer) (t : LayerTree) :
    Keeps (fun _ t' => t'.store = t.store ∧ t'.root = t.root)
      (fun t' => t'.store = t.store ∧ t'.root = t.root) (parsePart engine l t) := by
  rw [parsePart, get_bind, set_bind]
  cases engine.parse t.parses l.language t.text l.range with
  | error e => exact ⟨rfl, rfl⟩
  | ok tree => exact ⟨rfl, rfl⟩

/-- The layers are as they were when the parts in other languages have been found. -/
theorem keeps_injections_bind {f : List (Site × Injection) → LayerM Unit}
    {after : Unit → LayerTree → Prop} {stopped : LayerTree → Prop}
    (rest : ∀ found t', t.Alike t' → Keeps after stopped (f found t')) :
    Keeps after stopped ((injections engine id >>= f) t) := by
  obtain ⟨found, t', run, alike⟩ := injections_keeps engine id t
  rw [bind_ok run]
  exact rest found t' alike

theorem createChild_kept {parse : LayerId → LayerM Unit} (parses : KeepsParsing parse)
    (kept : Kept grown parsed w root parent t₀ t) (ready : w.Ready parent) (p : InjectedPart) :
    Keeps (fun _ => Kept grown parsed w root parent t₀) (Kept grown parsed w root parent t₀)
      (createChild parse parent p t) := by
  rw [createChild, get_bind]
  cases there : t.layer? parent with
  | none => exact kept
  | some l =>
      dsimp only
      cases vacant : l.child? p.site with
      | some child => exact kept
      | none =>
          rw [Option.isSome_none, if_neg Bool.false_ne_true, onStore_bind, modifyLayer_bind,
            rearrange_bind]
          generalize inserted : t.store.insert _ = made
          have hosted := (kept.host ready there vacant rfl rfl inserted).rearranged
          have work := parses _ _ _ _ _ _ _ hosted.start (ready.pin hosted.unwatched p.site)
          refine Keeps.bind (?work :
            Keeps (fun _ => Hosted grown parsed w root parent made.1 p.site l t₀) _ _) ?decide
          case work =>
            dsimp only at work ⊢
            generalize parse made.1 _ = result at work ⊢
            cases result with
            | ok _ t' => exact hosted.work ready work
            | error e t' => exact (hosted.work ready work.1).leaves ready
          case decide =>
            intro _ t₂ hosted
            rw [get_bind]
            split
            · exact hosted.leaves ready
            · next full =>
                refine hosted.stays fun l' here => ?_
                rw [here] at full
                simpa using full

theorem createInjected_kept {parse : LayerId → LayerM Unit} (parses : KeepsParsing parse)
    (kept : Kept grown parsed w root parent t₀ t) (ready : w.Ready parent)
    (part : Site × Injection) :
    Keeps (fun _ => Kept grown parsed w root parent t₀) (Kept grown parsed w root parent t₀)
      (createInjected parse parent part t) := by
  obtain ⟨site, injection⟩ := part
  rw [createInjected, get_bind]
  cases t.language? injection.languageName with
  | none => exact kept
  | some language => exact createChild_kept parses kept ready _

/-- A layer is given a tree and loses its children. -/
theorem Kept.clear (kept : Kept grown parsed w root id t₀ t) (ready : w.Ready id)
    (there : t.layer? id = some l) (tree : ParsedTree) :
    Kept grown True w root id t₀ { t with
      store := (t.store.modify id fun l =>
        { l with tree := some tree, children := [] }).removeAll l.children } := by
  have shaped := kept.rooted.shaped
  have drained := shaped.drain (fun l => { l with tree := some tree, children := [] }) there
    (fun _ => rfl) fun _ => rfl
  have grew : grown → (t.store.modify id fun l => { l with
      tree := some tree, children := [] }).Grown (w.add (some id) (l.children.map (·.2))) :=
    fun is => (kept.grown is).modify id _ fun l' here child mem => by
      obtain rfl := Option.some.inj (there.symm.trans here)
      exact .inr (List.mem_map_of_mem (f := (·.2)) mem)
  have tidy := kept.tidy.modify shaped id (fun l => { l with tree := some tree, children := [] })
    (fun _ => List.nil_subperm) (.inr ready.has)
  have middle : Kept False True w root id t₀ _ :=
    kept.modify there drained.of_add tidy (kept.founded.modify id _ fun _ => List.nil_subset _)
      (fun _ => rfl) False.elim
  exact middle.shrink ready.has
    (drained.removeAll ready.closed (shaped.once there) (shaped.unwatched ready there))
    (LayerStore.shrinks_removeAll drained.sound l.children).2
      ((LayerStore.Accounted.refl _).removeAll _)
    fun is => (grew is).removeAll drained.sound

theorem parseLayer_kept (engine : Engine) (depth : Nat) :
    KeepsParsing (parseLayer engine depth) := by
  induction depth with
  | zero => exact fun _ _ _ _ _ _ _ kept _ => ⟨kept, .inl rfl⟩
  | succ depth ih =>
      intro grown parsed w root id t₀ t kept ready
      obtain ⟨l, there⟩ := kept.exists_layer ready.has
      rw [parseLayer, get_bind, there]
      refine Keeps.bind ((parsePart_store engine l t).mono (fun _ _ same => same)
        fun t' same => ⟨kept.congr same.1 same.2, .inl same.1⟩) ?_
      rintro tree t₁ ⟨store, same⟩
      rw [get_bind]
      have there₁ : t₁.layer? id = some l := by rw [layer?, store, ← layer?, there]
      rw [there₁]
      dsimp only
      rw [modifyLayer_bind, onStore_bind]
      have cleared := (kept.congr store same).clear ready there₁ tree
      refine keeps_injections_bind fun found t₂ alike => ?_
      refine (Keeps.forM found (fun part t kept => createInjected_kept ih kept ready part)
        (cleared.congr alike.store alike.root)).mono (fun _ _ kept => kept) fun t' kept => ?_
      exact ⟨kept.mono (fun is => is) fun _ => trivial, .inr (kept.parsed trivial)⟩

end LayerTree

end CodeEditor.Layer

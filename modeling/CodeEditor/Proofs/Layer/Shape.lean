import CodeEditor.Proofs.Layer.Store
import Mathlib.Data.List.Perm.Subperm

/-!
Layers as the nodes of a tree.

`Shaped` says of slots that a child of a layer is there and has the layer as its parent, and that a
layer has no child twice. A layer has one place at most then (`Shaped.holder_eq`), and removing a
layer that has none takes nothing from the children of those that stay (`Shaped.remove`).

Children are taken from a layer before it is decided what becomes of them. A `Watch` says of some
layers what is known of them meanwhile: a loose one is there and child of none, a pinned one has no
place but the one it has been given.
-/

namespace CodeEditor.Layer.LayerStore

variable {s s' : LayerStore} {id id' x y : LayerId} {l : SyntaxLayer} {site site' : Site}
  {ids : List LayerId} {p : Option LayerId}

/-- A layer has another as its child at a place. -/
def Holds (s : LayerStore) (id : LayerId) (site : Site) (child : LayerId) : Prop :=
  ∃ l, s.layer? id = some l ∧ (site, child) ∈ l.children

/-- No layer has it as a child. -/
def Loose (s : LayerStore) (x : LayerId) : Prop := ∀ id site, ¬s.Holds id site x

/-- A layer is there and has a parent, or is known to have none. -/
def HasParent (s : LayerStore) (x : LayerId) (parent : Option LayerId) : Prop :=
  ∃ l, s.layer? x = some l ∧ l.parent = parent

theorem holds_modify {change : SyntaxLayer → SyntaxLayer} :
    (s.modify id change).Holds id' site x ↔
      (id' = id ∧ ∃ l, s.layer? id = some l ∧ (site, x) ∈ (change l).children) ∨
        id' ≠ id ∧ s.Holds id' site x := by
  rw [Holds, layer?_modify]
  by_cases same : id' = id
  · subst same
    rw [if_pos rfl]
    constructor
    · rintro ⟨_, changed, mem⟩
      obtain ⟨l, there, rfl⟩ := Option.map_eq_some_iff.mp changed
      exact .inl ⟨rfl, l, there, mem⟩
    · rintro (⟨-, l, there, mem⟩ | ⟨other, -⟩)
      · exact ⟨change l, by rw [there]; rfl, mem⟩
      · exact absurd rfl other
  · rw [if_neg same]
    exact ⟨fun held => .inr ⟨same, held⟩, fun either => (either.resolve_left (same ·.1)).2⟩

theorem Pruned.loose (pruned : s.Pruned s' id) (loose : s.Loose x) : s'.Loose x :=
  fun id' site ⟨l, there, mem⟩ => loose id' site ⟨l, pruned.layer?_eq there, mem⟩

theorem HasParent.modify {change : SyntaxLayer → SyntaxLayer} (has : s.HasParent x p)
    (parent : ∀ l, (change l).parent = l.parent) (id : LayerId) :
    (s.modify id change).HasParent x p := by
  obtain ⟨l, there, rfl⟩ := has
  rw [HasParent, layer?_modify]
  split
  · next same => exact ⟨change l, by rw [← same, there]; rfl, parent l⟩
  · exact ⟨l, there, rfl⟩

/-- What is known of some layers while others change. -/
structure Watch where
  /-- The layers that are no children, with their parents. -/
  loose : LayerId → Option LayerId → Prop
  /-- The layers that can be children of their parents at one place only. -/
  pinned : LayerId → LayerId → Site → Prop

namespace Watch

/-- Something is known of a layer. -/
def Has (w : Watch) (x : LayerId) : Prop := (∃ p, w.loose x p) ∨ ∃ p site, w.pinned x p site

/-- Something is known of the parents of all pinned layers. -/
def Closed (w : Watch) : Prop := ∀ x p site, w.pinned x p site → w.Has p

/-- The root is a layer without a parent. -/
def ofRoot (root : LayerId) : Watch := ⟨fun x p => x = root ∧ p = none, fun _ _ _ => False⟩

/-- Some more layers of one parent are loose. -/
def add (w : Watch) (parent : Option LayerId) (ids : List LayerId) : Watch :=
  { w with loose := fun x p => w.loose x p ∨ x ∈ ids ∧ p = parent }

/-- One more layer is pinned. -/
def pin (w : Watch) (x p : LayerId) (site : Site) : Watch :=
  { w with pinned := fun x' p' site' => w.pinned x' p' site' ∨ x' = x ∧ p' = p ∧ site' = site }

variable {w : Watch}

theorem has_add : (w.add p ids).Has x ↔ w.Has x ∨ x ∈ ids := by
  constructor
  · rintro (⟨p', loose | ⟨mem, -⟩⟩ | pinned)
    · exact .inl (.inl ⟨p', loose⟩)
    · exact .inr mem
    · exact .inl (.inr pinned)
  · rintro ((⟨p', loose⟩ | pinned) | mem)
    · exact .inl ⟨p', .inl loose⟩
    · exact .inr pinned
    · exact .inl ⟨p, .inr ⟨mem, rfl⟩⟩

theorem has_pin : (w.pin x id site).Has y ↔ w.Has y ∨ y = x := by
  constructor
  · rintro (loose | ⟨p', site', pinned | ⟨rfl, -⟩⟩)
    · exact .inl (.inl loose)
    · exact .inl (.inr ⟨p', site', pinned⟩)
    · exact .inr rfl
  · rintro ((loose | ⟨p', site', pinned⟩) | rfl)
    · exact .inl loose
    · exact .inr ⟨p', site', .inl pinned⟩
    · exact .inr ⟨id, site, .inr ⟨rfl, rfl, rfl⟩⟩

theorem Closed.add (closed : w.Closed) (p : Option LayerId) (ids : List LayerId) :
    (w.add p ids).Closed :=
  fun x p' site pinned => has_add.mpr (.inl (closed x p' site pinned))

theorem Closed.pin (closed : w.Closed) (has : w.Has id) (x : LayerId) (site : Site) :
    (w.pin x id site).Closed := by
  rintro y p' site' (pinned | ⟨-, rfl, -⟩)
  · exact has_pin.mpr (.inl (closed y p' site' pinned))
  · exact has_pin.mpr (.inl has)

end Watch

/-- The layers are nodes of a tree, as far as they are children of others. -/
structure Shaped (w : Watch) (s : LayerStore) : Prop where
  sound : s.Sound
  parent : ∀ {id site x}, s.Holds id site x → s.HasParent x (some id)
  once : ∀ {id l}, s.layer? id = some l → (l.children.map (·.2)).Nodup
  loose : ∀ {x p}, w.loose x p → s.HasParent x p ∧ s.Loose x
  pinned : ∀ {x p site}, w.pinned x p site →
    s.HasParent x (some p) ∧ ∀ site', s.Holds p site' x → site' = site

namespace Shaped

variable {w w' : Watch}

/-- A layer is child of one layer at most. -/
theorem holder_eq (shaped : s.Shaped w) (holds : s.Holds id site x) (holds' : s.Holds id' site' x) :
    id = id' := by
  obtain ⟨l, there, parent⟩ := shaped.parent holds
  obtain ⟨l', there', parent'⟩ := shaped.parent holds'
  obtain rfl := Option.some.inj (there.symm.trans there')
  exact Option.some.inj (parent.symm.trans parent')

theorem exists_of_has (shaped : s.Shaped w) (has : w.Has x) : ∃ l, s.layer? x = some l := by
  rcases has with ⟨p, loose⟩ | ⟨p, site, pinned⟩
  · obtain ⟨⟨l, there, -⟩, -⟩ := shaped.loose loose
    exact ⟨l, there⟩
  · obtain ⟨⟨l, there, -⟩, -⟩ := shaped.pinned pinned
    exact ⟨l, there⟩

/-- A watched child of a layer is pinned there. -/
theorem exists_pinned (shaped : s.Shaped w) (holds : s.Holds id site x) (has : w.Has x) :
    ∃ site', w.pinned x id site' := by
  rcases has with ⟨p, loose⟩ | ⟨p, site', pinned⟩
  · exact absurd holds ((shaped.loose loose).2 id site)
  · obtain ⟨⟨l, there, parent⟩, -⟩ := shaped.pinned pinned
    obtain ⟨l', there', parent'⟩ := shaped.parent holds
    obtain rfl := Option.some.inj (there.symm.trans there')
    obtain rfl := Option.some.inj (parent.symm.trans parent')
    exact ⟨site', pinned⟩

theorem mono (shaped : s.Shaped w) (loose : ∀ x p, w'.loose x p → w.loose x p)
    (pinned : ∀ x p site, w'.pinned x p site → w.pinned x p site) : s.Shaped w' :=
  { shaped with
    loose := fun known => shaped.loose (loose _ _ known)
    pinned := fun known => shaped.pinned (pinned _ _ _ known) }

theorem of_add (shaped : s.Shaped (w.add p ids)) : s.Shaped w :=
  shaped.mono (fun _ _ => .inl) fun _ _ _ => id

theorem of_pin (shaped : s.Shaped (w.pin x id site)) : s.Shaped w :=
  shaped.mono (fun _ _ known => known) fun _ _ _ => .inl

theorem add (shaped : s.Shaped w) (known : ∀ x ∈ ids, s.HasParent x p ∧ s.Loose x) :
    s.Shaped (w.add p ids) :=
  { shaped with
    loose := by
      rintro x p' (loose | ⟨mem, rfl⟩)
      · exact shaped.loose loose
      · exact known x mem }

/-- Layers change so that there are no new children, and all that are children or watched keep their
parents. -/
theorem transfer (shaped : s.Shaped w) (sound : s'.Sound)
    (holds : ∀ {id site x}, s'.Holds id site x → s.Holds id site x)
    (once : ∀ {id l}, s'.layer? id = some l → (l.children.map (·.2)).Nodup)
    (parent : ∀ {x p}, s.HasParent x p → (w.Has x ∨ ∃ id site, s'.Holds id site x) →
      s'.HasParent x p) :
    s'.Shaped w where
  sound := sound
  parent := fun held => parent (shaped.parent (holds held)) (.inr ⟨_, _, held⟩)
  once := once
  loose := by
    intro x p known
    obtain ⟨has, loose⟩ := shaped.loose known
    exact ⟨parent has (.inl (.inl ⟨p, known⟩)), fun id site held => loose id site (holds held)⟩
  pinned := by
    intro x p site known
    obtain ⟨has, only⟩ := shaped.pinned known
    exact ⟨parent has (.inl (.inr ⟨p, site, known⟩)), fun site' held => only site' (holds held)⟩

/-! ### Fewer children -/

/-- Layers have fewer children, and layers are gone that are neither children nor watched. -/
theorem less (shaped : s.Shaped w) (sound : s'.Sound)
    (fewer : ∀ x l', s'.layer? x = some l' →
      ∃ l, s.layer? x = some l ∧ l'.parent = l.parent ∧ l'.children.Subperm l.children)
    (stay : ∀ x l, s.layer? x = some l → (w.Has x ∨ ∃ id site, s'.Holds id site x) →
      ∃ l', s'.layer? x = some l') :
    s'.Shaped w := by
  refine shaped.transfer sound ?holds ?once ?parent
  case holds =>
    rintro id site x ⟨l', there', mem⟩
    obtain ⟨l, there, -, some⟩ := fewer id l' there'
    exact ⟨l, there, some.subset mem⟩
  case once =>
    intro id l' there'
    obtain ⟨l, there, -, _, perm, sublist⟩ := fewer id l' there'
    exact (perm.map _).nodup_iff.mp ((shaped.once there).sublist (sublist.map _))
  case parent =>
    rintro x p ⟨l, there, parent⟩ either
    obtain ⟨l', there'⟩ := stay x l there either
    obtain ⟨l₀, there₀, same, -⟩ := fewer x l' there'
    obtain rfl := Option.some.inj (there.symm.trans there₀)
    exact ⟨l', there', same.trans parent⟩

/-- A layer may lose children, and those that it keeps may come in another order. -/
theorem modify (shaped : s.Shaped w) {change : SyntaxLayer → SyntaxLayer}
    (parent : ∀ l, (change l).parent = l.parent)
    (fewer : ∀ l, (change l).children.Subperm l.children) : (s.modify id change).Shaped w := by
  refine shaped.less (shaped.sound.modify id change) (fun x l' there' => ?_) fun x l there _ => ?_
  · rw [layer?_modify] at there'
    split at there'
    · next same =>
      subst same
      obtain ⟨l, there, rfl⟩ := Option.map_eq_some_iff.mp there'
      exact ⟨l, there, parent l, fewer l⟩
    · exact ⟨l', there', rfl, .refl _⟩
  · rw [layer?_modify]
    split
    · next same => exact ⟨change l, by rw [← same, there]; rfl⟩
    · exact ⟨l, there⟩

/-- The children that a layer gives up are loose. -/
theorem drain (shaped : s.Shaped w) (change : SyntaxLayer → SyntaxLayer)
    (there : s.layer? id = some l) (parent : ∀ l, (change l).parent = l.parent)
    (empty : ∀ l, (change l).children = []) :
    (s.modify id change).Shaped (w.add (some id) (l.children.map (·.2))) := by
  have shaped' : (s.modify id change).Shaped w :=
    shaped.modify parent fun l => by rw [empty]; exact (List.nil_sublist _).subperm
  refine shaped'.add fun x mem => ?_
  obtain ⟨⟨site, child⟩, among, rfl⟩ := List.mem_map.mp mem
  have held : s.Holds id site child := ⟨l, there, among⟩
  refine ⟨(shaped.parent held).modify parent id, fun id' site' held' => ?_⟩
  rcases holds_modify.mp held' with ⟨rfl, l', -, mem'⟩ | ⟨other, held'⟩
  · rw [empty] at mem'
    cases mem'
  · exact other (shaped.holder_eq held' held)

/-! ### More children -/

/-- A new layer is loose. -/
theorem insert (shaped : s.Shaped w) (childless : l.children = []) :
    (s.insert l).2.Shaped (w.add l.parent [(s.insert l).1]) ∧ ¬w.Has (s.insert l).1 := by
  obtain ⟨vacant, sound, layers⟩ := layer?_insert shaped.sound l
  generalize s.insert l = made at vacant sound layers ⊢
  have holds {id : LayerId} {site : Site} {x : LayerId} (held : made.2.Holds id site x) :
      s.Holds id site x := by
    obtain ⟨l', there, mem⟩ := held
    rw [layers] at there
    split at there
    · obtain rfl := Option.some.inj there
      rw [childless] at mem
      cases mem
    · exact ⟨l', there, mem⟩
  have shaped' : made.2.Shaped w := by
    refine shaped.transfer sound holds ?once ?parent
    case once =>
      intro id l' there
      rw [layers] at there
      split at there
      · obtain rfl := Option.some.inj there
        rw [childless]
        exact List.nodup_nil
      · exact shaped.once there
    case parent =>
      rintro x p ⟨l', there, parent⟩ -
      refine ⟨l', ?_, parent⟩
      rw [layers, if_neg, there]
      rintro rfl
      rw [vacant] at there
      cases there
  have unknown : ¬w.Has made.1 := by
    intro has
    obtain ⟨l', there⟩ := shaped.exists_of_has has
    rw [vacant] at there
    cases there
  refine ⟨shaped'.add fun x mem => ?_, unknown⟩
  obtain rfl := List.mem_singleton.mp mem
  refine ⟨⟨l, by rw [layers, if_pos rfl], rfl⟩, fun id site held => ?_⟩
  obtain ⟨l', there, -⟩ := shaped.parent (holds held)
  rw [vacant] at there
  cases there

/-- A loose layer becomes a child of its parent. -/
theorem attach (shaped : s.Shaped w) (change : SyntaxLayer → SyntaxLayer) (site : Site)
    (has : s.HasParent x (some id)) (loose : s.Loose x) (unwatched : ¬w.Has x)
    (parent : ∀ l, (change l).parent = l.parent)
    (more : ∀ l, ∃ front, front.Sublist l.children ∧ (change l).children = front ++ [(site, x)]) :
    (s.modify id change).Shaped (w.pin x id site) := by
  have holds {id' : LayerId} {site' : Site} {y : LayerId}
      (held : (s.modify id change).Holds id' site' y) :
      s.Holds id' site' y ∨ id' = id ∧ site' = site ∧ y = x := by
    rcases holds_modify.mp held with ⟨rfl, l, there, mem⟩ | ⟨-, held⟩
    · obtain ⟨front, sublist, children⟩ := more l
      rw [children] at mem
      rcases List.mem_append.mp mem with mem | mem
      · exact .inl ⟨l, there, sublist.subset mem⟩
      · obtain ⟨rfl, rfl⟩ := Prod.mk.inj (List.mem_singleton.mp mem)
        exact .inr ⟨rfl, rfl, rfl⟩
    · exact .inl held
  constructor
  case sound => exact shaped.sound.modify id change
  case parent =>
    intro id' site' y held
    rcases holds held with held | ⟨rfl, -, rfl⟩
    · exact (shaped.parent held).modify parent id
    · exact has.modify parent _
  case once =>
    intro id' l' there
    rw [layer?_modify] at there
    split at there
    · next same =>
      subst same
      obtain ⟨l, here, rfl⟩ := Option.map_eq_some_iff.mp there
      obtain ⟨front, sublist, children⟩ := more l
      rw [children, List.map_append, List.map_singleton, List.nodup_append]
      refine ⟨(shaped.once here).sublist (sublist.map _), by simp, ?_⟩
      rintro y mem _ new rfl
      obtain rfl := List.mem_singleton.mp new
      obtain ⟨⟨site', y⟩, among, rfl⟩ := List.mem_map.mp mem
      exact loose id' site' ⟨l, here, sublist.subset among⟩
    · exact shaped.once there
  case loose =>
    intro y p known
    obtain ⟨has', loose'⟩ := shaped.loose known
    refine ⟨has'.modify parent id, fun id' site' held => ?_⟩
    rcases holds held with held | ⟨-, -, rfl⟩
    · exact loose' id' site' held
    · exact unwatched (.inl ⟨p, known⟩)
  case pinned =>
    rintro y p site' (known | ⟨rfl, rfl, rfl⟩)
    · obtain ⟨has', only⟩ := shaped.pinned known
      refine ⟨has'.modify parent id, fun site'' held => ?_⟩
      rcases holds held with held | ⟨-, -, rfl⟩
      · exact only site'' held
      · exact absurd (.inr ⟨p, site', known⟩) unwatched
    · refine ⟨has.modify parent _, fun site'' held => ?_⟩
      rcases holds held with held | ⟨-, same, -⟩
      · exact absurd held (loose _ site'')
      · exact same

/-! ### Fewer layers -/

theorem release (shaped : s.Shaped w) (there : s.layer? x = some l) (loose : s.Loose x)
    (unwatched : ¬w.Has x) : (s.release x).Shaped w := by
  refine shaped.less (shaped.sound.release there) (fun y l' there' => ?_) fun y l' there' either =>
    ?_
  · rw [layer?_release there] at there'
    split at there'
    · cases there'
    · exact ⟨l', there', rfl, .refl _⟩
  · rw [layer?_release there, if_neg]
    · exact ⟨l', there'⟩
    rintro rfl
    rcases either with has | ⟨id, site, l₀, held, mem⟩
    · exact unwatched has
    · rw [layer?_release there] at held
      split at held
      · cases held
      · exact loose id site ⟨l₀, held, mem⟩

/-- Removing a loose layer takes no child from a layer that stays. -/
theorem removeWithin (shaped : s.Shaped w) (closed : w.Closed) (fuel : Nat) (loose : s.Loose x)
    (unwatched : ¬w.Has x) : (LayerStore.removeWithin fuel s x).Shaped w := by
  induction fuel generalizing s x with
  | zero =>
      rw [LayerStore.removeWithin]
      cases there : s.layer? x with
      | none => exact shaped
      | some l => exact shaped.release there loose unwatched
  | succ fuel ih =>
      rw [LayerStore.removeWithin]
      cases there : s.layer? x with
      | none => exact shaped
      | some l =>
          dsimp only
          -- The children of the layer were in no other place, and the layer is gone.
          have freed : ∀ child ∈ l.children, (s.release x).Loose child.2 ∧ ¬w.Has child.2 := by
            rintro ⟨site, child⟩ mem
            have held : s.Holds x site child := ⟨l, there, mem⟩
            constructor
            · rintro id site' ⟨l', there', mem'⟩
              rw [layer?_release there] at there'
              split at there'
              · cases there'
              · next other => exact other (shaped.holder_eq ⟨l', there', mem'⟩ held)
            · intro has
              obtain ⟨site', pinned⟩ := shaped.exists_pinned held has
              exact unwatched (closed _ _ _ pinned)
          have released := shaped.release there loose unwatched
          generalize s.release x = s' at freed released
          generalize l.children = children at freed
          clear there
          induction children generalizing s' with
          | nil => exact released
          | cons child children ihc =>
              obtain ⟨⟨looseChild, unwatchedChild⟩, freed⟩ := List.forall_mem_cons.mp freed
              have pruned := (pruned_removeWithin released.sound fuel child.2).2
              exact ihc _ (ih released looseChild unwatchedChild) fun other mem =>
                (freed other mem).imp_left pruned.loose

theorem remove (shaped : s.Shaped w) (closed : w.Closed) (loose : s.Loose x)
    (unwatched : ¬w.Has x) : (s.remove x).Shaped w :=
  shaped.removeWithin closed s.slots.size loose unwatched

/-- Loose layers of one parent are removed. -/
theorem removeAll {children : List (Site × LayerId)}
    (shaped : s.Shaped (w.add p (children.map (·.2)))) (closed : w.Closed)
    (once : (children.map (·.2)).Nodup) (unwatched : ∀ x ∈ children.map (·.2), ¬w.Has x) :
    (s.removeAll children).Shaped w := by
  induction children generalizing s with
  | nil => exact shaped.of_add
  | cons child children ih =>
      rw [List.map_cons] at shaped once unwatched
      obtain ⟨absent, once⟩ := List.nodup_cons.mp once
      obtain ⟨unwatchedChild, unwatched⟩ := List.forall_mem_cons.mp unwatched
      have loose := (shaped.loose (.inr ⟨List.mem_cons_self, rfl⟩)).2
      have rest : s.Shaped (w.add p (children.map (·.2))) :=
        shaped.mono (fun x p => Or.imp_right (And.imp_left (List.mem_cons_of_mem _)))
          fun _ _ _ => id
      refine ih (rest.remove (closed.add _ _) loose ?_) once unwatched
      exact fun has => (Watch.has_add.mp has).elim unwatchedChild absent

/-- A pinned layer is removed from its place. -/
theorem detach (shaped : s.Shaped (w.pin x id site)) (closed : w.Closed) (unwatched : ¬w.Has x) :
    (s.detach id site x).Shaped w := by
  obtain ⟨has, only⟩ := shaped.pinned (.inr ⟨rfl, rfl, rfl⟩)
  have filtered : (s.modify id fun l =>
      { l with children := l.children.filter (·.1 ≠ site) }).Shaped w :=
    shaped.of_pin.modify (fun _ => rfl) fun _ => List.filter_sublist.subperm
  refine filtered.remove closed ?_ unwatched
  intro id' site' held
  rcases holds_modify.mp held with ⟨rfl, l, there, mem⟩ | ⟨other, held⟩
  · obtain ⟨mem, differ⟩ := List.mem_filter.mp mem
    exact absurd (only site' ⟨l, there, mem⟩) (of_decide_eq_true differ)
  · obtain ⟨l, there, parent⟩ := shaped.parent held
    obtain ⟨l', there', parent'⟩ := has
    obtain rfl := Option.some.inj (there.symm.trans there')
    exact other (Option.some.inj (parent.symm.trans parent'))

end Shaped

end CodeEditor.Layer.LayerStore

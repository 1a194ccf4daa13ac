import CodeEditor.Proofs.Layer.Shown

/-!
Taking children from layers and giving them back.

A layer that lets go of its children leaves a forest of itself and them (`forest_release`), a layer
of a forest can become a child of another (`forest_adopt`), and removing some leaves the others
(`forest_removeAll`). A new layer is attached to its parent before it shows anything; it is a child
(`Attached.shows`) or is taken away again (`Attached.shows_of_detached`).
-/

namespace CodeEditor.Layer.LayerStore

open Syntax (Node Language)

variable {site : Nat → List Nat → Site} {s s' : LayerStore} {id a x : LayerId} {n m : Nat}
  {v u : Layers} {l l' : SyntaxLayer}

/-- A change of one layer alone does not touch what is not below it. -/
theorem Shows.of_others (shows : s.Shows site n a v) (apart : ¬s.Below a id)
    (others : ∀ x, x ≠ id → s'.layer? x = s.layer? x) :
    s'.Shows site n a v ∧ ∀ x, s'.Below a x ↔ s.Below a x := by
  refine shows.congr fun x below => others x ?_
  rintro rfl
  exact apart below

/-- A change of one layer alone leaves what is not under it. -/
theorem keep_of_others {ids : List LayerId} (mem : id ∈ ids)
    (others : ∀ x, x ≠ id → s'.layer? x = s.layer? x) (x : LayerId) (l : SyntaxLayer)
    (there : s.layer? x = some l) (outside : ¬s.Under ids x) : s'.layer? x = some l := by
  have other : x ≠ id := by
    rintro rfl
    exact outside ⟨x, mem, .refl x⟩
  rw [others x other, there]

/-- A layer without children shows its tree. -/
theorem shows_of_childless (there : s.layer? id = some l) (childless : l.children = [])
    (tree : l.tree = some ⟨n, v.root⟩) (language : l.language = v.language)
    (range : l.range = v.range) (inner : ∀ path, v.inner path = none) : s.Shows site n id v := by
  refine @Shows.layer site s n id l v (fun _ => n)
    (fun _ => v) there tree language range ?_ ?_ ?_ ?_ ?_
  · intro k child mem
    rw [childless] at mem
    cases mem
  · intro k child mem
    rw [childless] at mem
    cases mem
  · rw [childless]
    exact .nil
  · intro k child mem
    rw [childless] at mem
    cases mem
  · intro path
    rw [inner path, SyntaxLayer.child?, childless]
    rfl

/-- A layer lets go of its children. -/
theorem forest_release {root : Node} (shows : s.Shows site n id v) (there : s.layer? id = some l)
    (there' : s'.layer? id = some l') (others : ∀ x, x ≠ id → s'.layer? x = s.layer? x)
    (childless : l'.children = []) (tree : l'.tree = some ⟨m, root⟩) :
    s'.Shows site m id ⟨l'.language, l'.range, root, fun _ => none⟩ ∧
      s'.Forest site (id :: l.children.map (·.2)) ∧
      s.Local s' (s.Under [id]) (s'.Under (id :: l.children.map (·.2))) ∧
      ∀ k child, (k, child) ∈ l.children → ∀ m u, s.Shows site m child u →
      s'.Shows site m child u := by
  have kept : ∀ k child, (k, child) ∈ l.children → ∀ m u, s.Shows site m child u →
      s'.Shows site m child u ∧ ∀ x, s'.Below child x ↔ s.Below child x := by
    intro k child mem m u shown
    exact shown.of_others (shows.child there mem).1 others
  have same : ∀ k child, (k, child) ∈ l.children → ∀ x, s'.Below child x ↔ s.Below child x := by
    intro k child mem
    obtain ⟨-, _, m, u, -, -, shown⟩ := shows.child there mem
    exact (kept k child mem m u shown).2
  have alone : s'.Shows site m id ⟨l'.language, l'.range, root, fun _ => none⟩ :=
    shows_of_childless there' childless tree rfl rfl fun _ => rfl
  refine ⟨alone, ⟨?_, ?_⟩, ⟨keep_of_others (List.mem_singleton_self id) others, ?_⟩,
    fun k child mem m u shown => (kept k child mem m u shown).1⟩
  · intro a mem
    rcases List.mem_cons.mp mem with rfl | mem
    · exact ⟨m, _, alone⟩
    · obtain ⟨⟨k, child⟩, among, rfl⟩ := List.mem_map.mp mem
      obtain ⟨-, _, m, u, -, -, shown⟩ := shows.child there among
      exact ⟨m, u, (kept k child among m u shown).1⟩
  · refine List.pairwise_cons.mpr ⟨?_, ?_⟩
    · intro a mem x below below'
      obtain ⟨⟨k, child⟩, among, rfl⟩ := List.mem_map.mp mem
      obtain rfl := (below_of_childless there' childless).mp below
      exact (shows.child there among).1 ((same k child among x).mp below')
    · have pairwise := pairwise_apart_congr (shows.pairwise there) same
      exact List.pairwise_map.mpr (pairwise.imp fun both => both.2)
  · rintro x ⟨a, mem, below⟩
    refine .inl (under_singleton.mpr ?_)
    rcases List.mem_cons.mp mem with rfl | mem
    · obtain rfl := (below_of_childless there' childless).mp below
      exact .refl x
    · obtain ⟨⟨k, child⟩, among, rfl⟩ := List.mem_map.mp mem
      exact .child there among ((same k child among x).mp below)

/-- The child that a layer is given, at a free place. -/
theorem shows_adopt {path : List Nat} {children : List (Site × LayerId)}
    (distinct : ∀ path path', site n path = site n path' → path = path')
    (shows : s.Shows site n id v) (there : s.layer? id = some l) (free : v.inner path = none)
    (there' : s'.layer? id = some { l with children })
    (perm : children.Perm (l.children ++ [(site n path, a)]))
    (kept : ∀ k child, (k, child) ∈ l.children → ∀ m u, s.Shows site m child u →
      s'.Shows site m child u ∧ (∀ x, s'.Below child x ↔ s.Below child x) ∧ s'.Apart child a)
    (shown : s'.Shows site m a u) (apart : ¬s'.Below a id) :
    s'.Shows site n id { v with inner := fun p => if p = path then some u else v.inner p } := by
  have pairwise := shows.pairwise there
  have vacant := (shows.inner_eq_none there).mp free
  have notIn : ∀ k child, (k, child) ∈ l.children → k ≠ site n path := by
    rintro k child mem rfl
    rw [SyntaxLayer.child?_of_mem (pairwise.imp fun both => both.1) mem] at vacant
    cases vacant
  have apart' : ∀ k child, (k, child) ∈ l.children →
      (∀ x, s'.Below child x ↔ s.Below child x) ∧ s'.Apart child a := by
    intro k child mem
    obtain ⟨-, _, m, u, -, -, shown⟩ := shows.child there mem
    exact (kept k child mem m u shown).2
  cases shows with
  | @layer _ _ l₀ _ number below here tree language range shownBelow away _ keys inner =>
      obtain rfl : l = l₀ := Option.some.inj (there.symm.trans here)
      have other : ∀ k child, (k, child) ∈ l.children → child ≠ a := by
        rintro k child mem rfl
        exact (apart' k child mem).2 child (.refl child) (.refl child)
      have old := pairwise_apart_congr pairwise fun k child mem => (apart' k child mem).1
      have apartAll : (l.children ++ [(site n path, a)]).Pairwise
          fun b c => b.1 ≠ c.1 ∧ s'.Apart b.2 c.2 := by
        refine List.pairwise_append.mpr ⟨old, List.pairwise_singleton _ _, ?_⟩
        intro b memB c memC
        cases List.mem_singleton.mp memC
        exact ⟨notIn b.1 b.2 memB, (apart' b.1 b.2 memB).2⟩
      refine @Shows.layer site s' n id _ _ (fun c => if c = a then m else number c)
        (fun c => if c = a then u else below c) there' tree language range ?_ ?_
        (apartAll.perm perm.symm fun both => ⟨both.1.symm, both.2.symm⟩) ?_ ?_
      · intro k child mem
        rcases List.mem_append.mp (perm.mem_iff.mp mem) with mem | mem
        · rw [if_neg (other k child mem), if_neg (other k child mem)]
          exact (kept k child mem _ _ (shownBelow k child mem)).1
        · cases List.mem_singleton.mp mem
          rw [if_pos rfl, if_pos rfl]
          exact shown
      · intro k child mem
        rcases List.mem_append.mp (perm.mem_iff.mp mem) with mem | mem
        · rw [(apart' k child mem).1]
          exact away k child mem
        · cases List.mem_singleton.mp mem
          exact apart
      · intro k child mem
        rcases List.mem_append.mp (perm.mem_iff.mp mem) with mem | mem
        · exact keys k child mem
        · cases List.mem_singleton.mp mem
          exact ⟨path, rfl⟩
      · intro p
        have same := SyntaxLayer.child?_perm
          (l := { l with children := l.children ++ [(site n path, a)] }) perm
          (apartAll.imp And.left) (site n p)
        rw [same, SyntaxLayer.child?_append vacant]
        dsimp only
        by_cases here : p = path
        · rw [if_pos here, if_pos (congrArg (site n) here), Option.map_some, if_pos rfl]
        · rw [if_neg here, if_neg (fun same => here (distinct p path same)), inner p]
          cases found : l.child? (site n p) with
          | none => rfl
          | some child =>
              have mem : (site n p, child) ∈ l.children := mem_of_lookup found
              simp [other _ child mem]

theorem forest_singleton (shows : s.Shows site n id v) : s.Forest site [id] where
  shows := by
    intro a mem
    obtain rfl := List.mem_singleton.mp mem
    exact ⟨n, v, shows⟩
  apart := List.pairwise_singleton _ _

/-- A layer of a forest becomes the child of another at a free place. -/
theorem forest_adopt {path : List Nat} {children : List (Site × LayerId)}
    (distinct : ∀ path path', site n path = site n path' → path = path') (apart : s.Apart id a)
    (shows : s.Shows site n id v) (there : s.layer? id = some l) (free : v.inner path = none)
    (shown : s.Shows site m a u)
    (there' : s'.layer? id = some { l with children })
    (perm : children.Perm (l.children ++ [(site n path, a)]))
    (others : ∀ x, x ≠ id → s'.layer? x = s.layer? x) :
    s'.Shows site n id { v with inner := fun p => if p = path then some u else v.inner p } ∧
      s.Local s' (s.Under [id, a]) (s'.Under [id]) := by
  have away : ¬s.Below a id := apart id (.refl id)
  obtain ⟨shown', same⟩ := shown.of_others away others
  have kept : ∀ k child, (k, child) ∈ l.children → ∀ m u, s.Shows site m child u →
      s'.Shows site m child u ∧ (∀ x, s'.Below child x ↔ s.Below child x) ∧ s'.Apart child a := by
    intro k child mem m u shown
    obtain ⟨shown', same'⟩ := shown.of_others (shows.child there mem).1 others
    refine ⟨shown', same', ?_⟩
    intro x below below'
    exact apart x (.child there mem ((same' x).mp below)) ((same x).mp below')
  have away' : ¬s'.Below a id := by
    rw [same]
    exact away
  refine ⟨shows_adopt distinct shows there free there' perm kept shown' away',
    keep_of_others List.mem_cons_self others, ?_⟩
  intro x inside
  apply Or.inl
  rcases (below_iff there').mp (under_singleton.mp inside) with rfl | ⟨k, child, mem, below⟩
  · exact ⟨x, List.mem_cons_self, .refl x⟩
  · rcases List.mem_append.mp (perm.mem_iff.mp mem) with mem | mem
    · obtain ⟨-, _, m, u, -, -, shown⟩ := shows.child there mem
      exact ⟨id, List.mem_cons_self,
        .child there mem (((kept k child mem m u shown).2.1 x).mp below)⟩
    · cases List.mem_singleton.mp mem
      exact ⟨a, List.mem_cons_of_mem _ List.mem_cons_self, (same x).mp below⟩

/-- A layer is given another range. -/
theorem shows_range (shows : s.Shows site n id v) (range : Option ByteRange) :
    (s.modify id fun l => { l with range }).Shows site n id { v with range } ∧
      s.Local (s.modify id fun l => { l with range }) (s.Under [id])
        ((s.modify id fun l => { l with range }).Under [id]) := by
  have others : ∀ x, x ≠ id → (s.modify id fun l => { l with range }).layer? x = s.layer? x := by
    intro x other
    exact layer?_modify_of_ne other _
  cases shows with
  | @layer _ _ l _ number below there tree language _ children away pairwise keys inner =>
      have there' := layer?_modify_self there fun l => { l with range }
      have kept : ∀ k child, (k, child) ∈ l.children →
          (s.modify id fun l => { l with range }).Shows site (number child) child (below child) ∧
            ∀ x, (s.modify id fun l => { l with range }).Below child x ↔ s.Below child x := by
        intro k child mem
        exact (children k child mem).of_others (away k child mem) others
      have pairwise' := pairwise_apart_congr pairwise fun k child mem => (kept k child mem).2
      refine ⟨.layer there' tree language rfl
        (fun k child mem => (kept k child mem).1) ?_ pairwise' keys
        inner, keep_of_others (List.mem_singleton_self id) others, ?_⟩
      · intro k child mem
        rw [(kept k child mem).2]
        exact away k child mem
      · intro x inside
        refine .inl (under_singleton.mpr ?_)
        rcases (below_iff there').mp (under_singleton.mp inside) with rfl | ⟨k, child, mem, below⟩
        · exact .refl x
        · exact .child there mem (((kept k child mem).2 x).mp below)

/-- Removing a layer touches what is below it alone. -/
theorem local_remove (sound : s.Sound) (id : LayerId) :
    (s.remove id).Sound ∧ s.Local (s.remove id) (s.Under [id]) ((s.remove id).Under []) := by
  obtain ⟨sound', pruned⟩ := layer?_remove sound id
  refine ⟨sound', ?_, ?_⟩
  · intro x l there outside
    rcases pruned x with same | ⟨-, below⟩
    · rw [same, there]
    · exact absurd (under_singleton.mpr below) outside
  · rintro x ⟨a, mem, -⟩
    cases mem

/-- Removing some layers of a forest leaves the others. -/
theorem forest_removeAll {others : List LayerId} (children : List (Site × LayerId))
    (sound : s.Sound)
    (forest : s.Forest site (children.map (·.2) ++ others)) :
    (s.removeAll children).Sound ∧ (s.removeAll children).Forest site others ∧
      s.Local (s.removeAll children) (s.Under (children.map (·.2) ++ others))
        ((s.removeAll children).Under others) ∧
      ∀ b ∈ others, ∀ n v, s.Shows site n b v → (s.removeAll children).Shows site n b v := by
  induction children generalizing s with
  | nil => exact ⟨sound, forest, .refl s _, fun b mem n v shows => shows⟩
  | cons first children ih =>
      obtain ⟨sound', removed⟩ := local_remove sound first.2
      obtain ⟨forest', change, kept⟩ :=
        @Forest.frame site s _ [first.2] [] (children.map (·.2) ++ others) forest removed
          ⟨fun a mem => absurd mem List.not_mem_nil, .nil⟩
      obtain ⟨sound'', forest'', change', kept'⟩ := ih sound' forest'
      refine ⟨sound'', forest'', change.trans change', ?_⟩
      intro b mem n v shows
      exact kept' b mem n v (kept b (List.mem_append_right _ mem) n v shows)

/-- A layer is given a tree and its children are removed. -/
theorem shows_cleared {root : Node} (sound : s.Sound) (there : s.layer? id = some l)
    (owned : l.children = [] ∨ ∃ n v, s.Shows site n id v)
    (made : s' = s.modify id fun l => { l with tree := some ⟨m, root⟩, children := [] }) :
    (s'.removeAll l.children).Sound ∧
      (s'.removeAll l.children).Shows site m id ⟨l.language, l.range, root, fun _ => none⟩ ∧
      s.Local (s'.removeAll l.children) (s.Under [id]) ((s'.removeAll l.children).Under [id]) := by
  subst made
  have there' := layer?_modify_self there fun l => { l with tree := some ⟨m, root⟩, children := [] }
  have others : ∀ x, x ≠ id → (s.modify id fun l =>
      { l with tree := some ⟨m, root⟩, children := [] }).layer? x = s.layer? x := by
    intro x other
    exact layer?_modify_of_ne other _
  have sound' := sound.modify id fun l => { l with tree := some ⟨m, root⟩, children := [] }
  rcases owned with childless | ⟨n, v, shows⟩
  · rw [childless]
    refine ⟨sound', shows_of_childless there' rfl rfl rfl rfl fun _ => rfl,
      keep_of_others (List.mem_singleton_self id) others, ?_⟩
    intro x inside
    obtain rfl := (below_of_childless there' rfl).mp (under_singleton.mp inside)
    exact .inl (under_singleton.mpr (.refl x))
  · obtain ⟨alone, forest, released, -⟩ := forest_release shows there there' others rfl rfl
    have swap : (id :: l.children.map (·.2)).Perm (l.children.map (·.2) ++ [id]) :=
      (List.perm_append_singleton id _).symm
    obtain ⟨sound'', -, removed, kept⟩ := forest_removeAll l.children sound' (forest.perm swap)
    rw [under_perm swap] at released
    exact ⟨sound'', kept id (List.mem_singleton_self id) m _ alone, released.trans removed⟩

/-! ### New children -/

/-- A layer that was not there is attached to another, and what is below it changes then. -/
structure Attached (s s' s'' : LayerStore) (id a : LayerId) (l l' : SyntaxLayer) : Prop where
  there : s.layer? id = some l
  there' : s'.layer? id = some l'
  new : s.layer? a = none
  alone : ∀ x, s'.Below a x → x = a
  others : ∀ x, x ≠ id → x ≠ a → s'.layer? x = s.layer? x
  change : s'.Local s'' (s'.Under [a]) (s''.Under [a])

namespace Attached

variable {s'' : LayerStore} {l₀ : SyntaxLayer}

theorem ne (attached : s.Attached s' s'' id a l l') (there : s.layer? x = some l₀) : x ≠ a := by
  rintro rfl
  rw [attached.new] at there
  cases there

/-- The new layer touches none that was there. -/
theorem keep (attached : s.Attached s' s'' id a l l') (there' : s'.layer? x = some l₀)
    (ne : x ≠ a) :
    s''.layer? x = some l₀ ∧ ¬s''.Below a x := by
  refine ⟨attached.change.keep x l₀ there' fun inside => ne ?_, ?_⟩
  · exact attached.alone x (under_singleton.mp inside)
  · intro below
    rcases attached.change.stay x (under_singleton.mpr below) with inside | gone
    · exact ne (attached.alone x (under_singleton.mp inside))
    · rw [there'] at gone
      cases gone

theorem keep_other (attached : s.Attached s' s'' id a l l') (there : s.layer? x = some l₀)
    (other : x ≠ id) : s''.layer? x = some l₀ ∧ ¬s''.Below a x := by
  have ne := attached.ne there
  refine attached.keep ?_ ne
  rw [attached.others x other ne, there]

theorem keep_parent (attached : s.Attached s' s'' id a l l') :
    s''.layer? id = some l' ∧ ¬s''.Below a id :=
  attached.keep attached.there' (attached.ne attached.there)

/-- The layers below the new one were not there. -/
theorem gone_of_below (attached : s.Attached s' s'' id a l l') (below : s''.Below a x) :
    s.layer? x = none := by
  cases there : s.layer? x with
  | none => rfl
  | some l₀ =>
      apply absurd below
      by_cases same : x = id
      · rw [same]
        exact attached.keep_parent.2
      · exact (attached.keep_other there same).2

/-- The new layer is a child. -/
theorem shows {path : List Nat} {children : List (Site × LayerId)}
    (attached : s.Attached s' s'' id a l { l with children })
    (perm : children.Perm (l.children ++ [(site n path, a)]))
    (distinct : ∀ path path', site n path = site n path' → path = path')
    (shows : s.Shows site n id v) (free : v.inner path = none) (shown : s''.Shows site m a u) :
    s''.Shows site n id { v with inner := fun p => if p = path then some u else v.inner p } ∧
      s.Local s'' (s.Under [id]) (s''.Under [id]) := by
  have there := attached.there
  obtain ⟨there'', away⟩ := attached.keep_parent
  have kept : ∀ k child, (k, child) ∈ l.children → ∀ m u, s.Shows site m child u →
      s''.Shows site m child u ∧ (∀ x, s''.Below child x ↔ s.Below child x) ∧
          s''.Apart child a := by
    intro k child mem m u shown
    have outside := (shows.child there mem).1
    have untouched : ∀ x, s.Below child x → s''.layer? x = s.layer? x ∧ ¬s''.Below a x := by
      intro x below
      obtain ⟨l₀, here⟩ := shown.live below
      obtain ⟨here', apart⟩ := attached.keep_other here fun same => outside (same ▸ below)
      exact ⟨here'.trans here.symm, apart⟩
    obtain ⟨shown', same⟩ := shown.congr fun x below => (untouched x below).1
    exact ⟨shown', same, fun x below => (untouched x ((same x).mp below)).2⟩
  refine ⟨shows_adopt distinct shows there free there'' perm kept shown away, ?_, ?_⟩
  · intro x l₀ here outside
    exact (attached.keep_other here fun same => outside (under_singleton.mpr (same ▸ .refl x))).1
  · intro x inside
    rcases (below_iff there'').mp (under_singleton.mp inside) with rfl | ⟨k, child, mem, below⟩
    · exact .inl (under_singleton.mpr (.refl x))
    · rcases List.mem_append.mp (perm.mem_iff.mp mem) with mem | mem
      · obtain ⟨-, _, m, u, -, -, shown⟩ := shows.child there mem
        exact .inl (under_singleton.mpr (.child there mem
          (((kept k child mem m u shown).2.1 x).mp below)))
      · cases List.mem_singleton.mp mem
        exact .inr (attached.gone_of_below below)

/-- Without the new layer all is as before, up to the order of the children. -/
theorem shows_of_detached {s₃ : LayerStore} {children : List (Site × LayerId)}
    (attached : s.Attached s' s'' id a l l') (shows : s.Shows site n id v)
    (there₃ : s₃.layer? id = some { l with children }) (perm : children.Perm l.children)
    (others : ∀ x, x ≠ id → s₃.layer? x = s''.layer? x) (shown : s''.Shows site m a u)
    (sound : s₃.Sound) :
    (s₃.remove a).Sound ∧ (s₃.remove a).Shows site n id v ∧
      s.Local (s₃.remove a) (s.Under [id]) ((s₃.remove a).Under [id]) := by
  obtain ⟨sound', pruned⟩ := layer?_remove sound a
  obtain ⟨-, same⟩ := shown.of_others attached.keep_parent.2 others
  have untouched : ∀ x l₀, s.layer? x = some l₀ → x ≠ id → (s₃.remove a).layer? x = some l₀ := by
    intro x l₀ here other
    obtain ⟨here', apart⟩ := attached.keep_other here other
    rcases pruned x with same' | ⟨-, below⟩
    · rw [same', others x other, here']
    · exact absurd ((same x).mp below) apart
  have parent : (s₃.remove a).layer? id = some { l with children } := by
    rcases pruned id with same' | ⟨-, below⟩
    · rw [same', there₃]
    · exact absurd ((same id).mp below) attached.keep_parent.2
  obtain ⟨shows', same'⟩ := shows.rearranged attached.there parent perm fun x below other => by
    obtain ⟨l₀, here⟩ := shows.live below
    rw [here]
    exact untouched x l₀ here other
  refine ⟨sound', shows', fun x l₀ here outside => untouched x l₀ here ?_, ?_⟩
  · rintro rfl
    exact outside (under_singleton.mpr (.refl x))
  · intro x inside
    exact .inl (under_singleton.mpr ((same' x).mp (under_singleton.mp inside)))

end Attached

/-- A layer is put into the slots and attached to another, whose children come in some order
then. -/
theorem attached_insert (sound : s.Sound) (there : s.layer? id = some l) (new : SyntaxLayer)
    (k : Site)
    (arrange : List (Site × LayerId) → List (Site × LayerId)) (s' : LayerStore)
    (made : s' = ((s.insert new).2.modify id fun l =>
      { l with children := l.children ++ [(k, (s.insert new).1)] }).modify id fun l =>
        { l with children := arrange l.children }) :
    s'.Sound ∧ s'.layer? (s.insert new).1 = some new ∧ (new.children = [] →
      ∀ s'', s'.Local s'' (s'.Under [(s.insert new).1]) (s''.Under [(s.insert new).1]) →
        s.Attached s' s'' id (s.insert new).1 l
          { l with children := arrange (l.children ++ [(k, (s.insert new).1)]) }) := by
  obtain ⟨unused, sound', inserted⟩ := layer?_insert sound new
  subst made
  have ne : id ≠ (s.insert new).1 := by
    intro same
    rw [← same, there] at unused
    cases unused
  have there' : (s.insert new).2.layer? id = some l := by rw [inserted, if_neg ne, there]
  have self : (s.insert new).2.layer? (s.insert new).1 = some new := by rw [inserted, if_pos rfl]
  refine ⟨(sound'.modify _ _).modify _ _, ?_, ?_⟩
  · rw [layer?_modify_of_ne (Ne.symm ne), layer?_modify_of_ne (Ne.symm ne), self]
  · intro childless s'' change
    refine ⟨there, layer?_modify_self (layer?_modify_self there' _) _, unused, ?_, ?_, change⟩
    · intro x below
      refine (below_of_childless ?_ childless).mp below
      rw [layer?_modify_of_ne (Ne.symm ne), layer?_modify_of_ne (Ne.symm ne), self]
    · intro x other elsewhere
      rw [layer?_modify_of_ne other, layer?_modify_of_ne other, inserted, if_neg elsewhere]

end CodeEditor.Layer.LayerStore

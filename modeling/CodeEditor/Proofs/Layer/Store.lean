import CodeEditor.Layer.Store

/-!
The slots of layers as a map from identities to layers.

All that is said on slots is said by `layer?`: changing a layer changes it alone (`layer?_modify`),
a new layer gets an identity that named none (`layer?_insert`), and a layer whose slot is freed is
gone (`layer?_release`). `Below` is every layer that is reached from one through its children.
Removing a layer removes no others than those below it (`layer?_remove`).
-/

namespace CodeEditor.Layer.LayerStore

variable {s s' : LayerStore} {id x : LayerId} {l : SyntaxLayer}

/-- The free slots are empty and listed once. -/
structure Sound (s : LayerStore) : Prop where
  nodup : s.free.Nodup
  empty : ∀ slot ∈ s.free, ∃ generation, s.slots[slot]? = some ⟨generation, none⟩

theorem layer?_eq_some_iff :
    s.layer? x = some l ↔ s.slots[x.slot]? = some ⟨x.generation, some l⟩ := by
  rw [layer?]
  cases at? : s.slots[x.slot]? with
  | none => simp
  | some slot =>
      obtain ⟨generation, layer⟩ := slot
      by_cases same : generation = x.generation
      · simp [same]
      · simp [same]

/-! ### Single slots -/

theorem layer?_modify (s : LayerStore) (id : LayerId) (change : SyntaxLayer → SyntaxLayer)
    (x : LayerId) :
    (s.modify id change).layer? x = if x = id then (s.layer? id).map change else s.layer? x := by
  obtain ⟨slot, generation⟩ := id
  obtain ⟨slot', generation'⟩ := x
  rw [layer?, modify]
  dsimp only
  rw [Array.getElem?_modify]
  by_cases sameSlot : slot = slot'
  · subst sameSlot
    rw [if_pos rfl]
    cases at? : s.slots[slot]? with
    | none => simp [layer?, at?]
    | some held =>
        by_cases current : held.generation = generation
        · by_cases sameGeneration : generation = generation'
          · simp [layer?, at?, current, sameGeneration]
          · simp [layer?, at?, current, sameGeneration, Ne.symm sameGeneration]
        · by_cases sameGeneration : generation = generation'
          · subst sameGeneration
            simp [layer?, at?, current]
          · simp [layer?, at?, current, Ne.symm sameGeneration]
  · rw [if_neg sameSlot, if_neg (fun same => sameSlot (congrArg LayerId.slot same).symm), layer?]

theorem layer?_modify_self (there : s.layer? id = some l) (change : SyntaxLayer → SyntaxLayer) :
    (s.modify id change).layer? id = some (change l) := by
  rw [layer?_modify, if_pos rfl, there]
  rfl

theorem layer?_modify_of_ne (other : x ≠ id) (change : SyntaxLayer → SyntaxLayer) :
    (s.modify id change).layer? x = s.layer? x := by
  rw [layer?_modify, if_neg other]

theorem Sound.modify (sound : s.Sound) (id : LayerId) (change : SyntaxLayer → SyntaxLayer) :
    (s.modify id change).Sound := by
  refine ⟨sound.nodup, ?_⟩
  intro slot free
  obtain ⟨generation, at?⟩ := sound.empty slot free
  rw [LayerStore.modify]
  dsimp only
  rw [Array.getElem?_modify, at?]
  split
  · by_cases current : generation = id.generation
    · exact ⟨generation, by simp [current]⟩
    · exact ⟨generation, by simp [current]⟩
  · exact ⟨generation, rfl⟩

/-- A new layer gets an identity that named no layer. -/
theorem layer?_insert (sound : s.Sound) (l : SyntaxLayer) :
    s.layer? (s.insert l).1 = none ∧ (s.insert l).2.Sound ∧
      ∀ x, (s.insert l).2.layer? x = if x = (s.insert l).1 then some l else s.layer? x := by
  cases unused : s.free with
  | nil =>
      have taken :
          s.insert l = (⟨s.slots.size, 0⟩, { s with slots := s.slots.push ⟨0, some l⟩ }) := by
        rw [insert, unused]
      rw [taken]
      refine ⟨by simp [layer?], ⟨by simp [unused], by simp [unused]⟩, ?_⟩
      rintro ⟨slot, generation⟩
      rw [layer?]
      dsimp only
      rw [Array.getElem?_push]
      by_cases last : slot = s.slots.size
      · subst last
        by_cases first : generation = 0
        · simp [first]
        · simp [first, Ne.symm first, layer?]
      · simp [last, layer?]
  | cons slot free =>
      have nodup := sound.nodup
      rw [unused, List.nodup_cons] at nodup
      obtain ⟨generation, at?⟩ := sound.empty slot (unused ▸ List.mem_cons_self)
      have taken : s.insert l = (⟨slot, generation⟩,
          { slots := s.slots.modify slot fun x => { x with layer := some l }, free }) := by
        rw [insert, unused]
        dsimp only
        rw [at?]
        rfl
      rw [taken]
      refine ⟨by simp [layer?, at?], ⟨nodup.2, ?_⟩, ?_⟩
      · intro other mem
        have differs : slot ≠ other := by
          intro same
          exact nodup.1 (same ▸ mem)
        dsimp only
        rw [Array.getElem?_modify, if_neg differs]
        exact sound.empty other (unused ▸ List.mem_cons_of_mem _ mem)
      · rintro ⟨slot', generation'⟩
        rw [layer?]
        dsimp only
        rw [Array.getElem?_modify]
        by_cases sameSlot : slot = slot'
        · subst sameSlot
          by_cases same : generation = generation'
          · simp [at?, same]
          · simp [at?, same, Ne.symm same, layer?]
        · simp [sameSlot, Ne.symm sameSlot, layer?]

theorem layer?_release (there : s.layer? id = some l) (x : LayerId) :
    (s.release id).layer? x = if x = id then none else s.layer? x := by
  obtain ⟨slot, generation⟩ := id
  obtain ⟨slot', generation'⟩ := x
  have at? := layer?_eq_some_iff.mp there
  dsimp only at at?
  rw [layer?, release]
  dsimp only
  rw [Array.getElem?_modify]
  by_cases sameSlot : slot = slot'
  · subst sameSlot
    rw [if_pos rfl, at?]
    by_cases same : generation' = generation
    · simp [same]
    · simp [same, layer?, at?, Ne.symm same]
  · simp [sameSlot, Ne.symm sameSlot, layer?]

theorem Sound.release (sound : s.Sound) (there : s.layer? id = some l) : (s.release id).Sound := by
  have at? := layer?_eq_some_iff.mp there
  have used : id.slot ∉ s.free := by
    intro free
    obtain ⟨generation, empty⟩ := sound.empty id.slot free
    rw [at?] at empty
    cases empty
  refine ⟨List.nodup_cons.mpr ⟨used, sound.nodup⟩, ?_⟩
  intro slot free
  rw [LayerStore.release]
  dsimp only
  rw [Array.getElem?_modify]
  rcases List.mem_cons.mp free with rfl | free
  · rw [if_pos rfl, at?]
    exact ⟨_, rfl⟩
  · have other : id.slot ≠ slot := fun same => used (same ▸ free)
    rw [if_neg other]
    exact sound.empty slot free

/-! ### Layers below layers -/

/-- A layer is another or is reached from it through children. -/
inductive Below (s : LayerStore) : LayerId → LayerId → Prop
  | refl (id : LayerId) : Below s id id
  | child {id child x : LayerId} {l : SyntaxLayer} {site : Site} :
      s.layer? id = some l → (site, child) ∈ l.children → Below s child x → Below s id x

/-- The layers below a layer are itself and those below its children. -/
theorem below_iff (there : s.layer? id = some l) :
    s.Below id x ↔ x = id ∨ ∃ site child, (site, child) ∈ l.children ∧ s.Below child x := by
  constructor
  · intro below
    cases below with
    | refl => exact .inl rfl
    | @child _ child _ l' site there' mem below =>
        obtain rfl : l = l' := Option.some.inj (there.symm.trans there')
        exact .inr ⟨site, child, mem, below⟩
  · rintro (rfl | ⟨site, child, mem, below⟩)
    · exact .refl x
    · exact .child there mem below

theorem below_of_childless (there : s.layer? id = some l) (childless : l.children = []) :
    s.Below id x ↔ x = id := by
  rw [below_iff there, childless]
  constructor
  · rintro (same | ⟨_, _, mem, _⟩)
    · exact same
    · cases mem
  · exact .inl

/-- Every layer is as it was, or it is gone and was below a layer. -/
def Pruned (s s' : LayerStore) (id : LayerId) : Prop :=
  ∀ x, s'.layer? x = s.layer? x ∨ s'.layer? x = none ∧ s.Below id x

namespace Pruned

theorem refl (s : LayerStore) (id : LayerId) : s.Pruned s id := fun _ => .inl rfl

/-- What is left was there before. -/
theorem layer?_eq (pruned : s.Pruned s' id) (there : s'.layer? x = some l) :
    s.layer? x = some l := by
  rcases pruned x with same | ⟨gone, -⟩
  · rw [← same, there]
  · rw [gone] at there
    cases there

theorem below (pruned : s.Pruned s' id) {y : LayerId} (below : s'.Below x y) : s.Below x y := by
  induction below with
  | refl x => exact .refl x
  | child there mem _ ih => exact .child (pruned.layer?_eq there) mem ih

/-- More layers may go that are below the same layer. -/
theorem trans {s'' : LayerStore} (first : s.Pruned s' id)
    (second : ∀ x, s''.layer? x = s'.layer? x ∨ s''.layer? x = none ∧ s.Below id x) :
    s.Pruned s'' id := by
  intro x
  rcases second x with same | gone
  · rw [same]
    exact first x
  · exact .inr gone

end Pruned

theorem pruned_release (there : s.layer? id = some l) : s.Pruned (s.release id) id := by
  intro x
  rw [layer?_release there]
  split
  · next same =>
      rw [same]
      exact .inr ⟨rfl, .refl id⟩
  · exact .inl rfl

theorem pruned_removeWithin (sound : s.Sound) (fuel : Nat) (id : LayerId) :
    (removeWithin fuel s id).Sound ∧ s.Pruned (removeWithin fuel s id) id := by
  induction fuel generalizing s id with
  | zero =>
      rw [removeWithin]
      cases there : s.layer? id with
      | none => exact ⟨sound, .refl s id⟩
      | some l => exact ⟨sound.release there, pruned_release there⟩
  | succ fuel ih =>
      rw [removeWithin]
      cases there : s.layer? id with
      | none => exact ⟨sound, .refl s id⟩
      | some l =>
          dsimp only
          -- The children that are still to be removed were below the layer from the start.
          suffices rest : ∀ (children : List (Site × LayerId)) (s' : LayerStore), s'.Sound →
              s.Pruned s' id → (∀ child ∈ children, child ∈ l.children) →
              (children.foldl (fun s child => removeWithin fuel s child.2) s').Sound ∧
                s.Pruned (children.foldl (fun s child => removeWithin fuel s child.2) s') id from
            rest l.children (s.release id) (sound.release there) (pruned_release there) fun _ mem =>
              mem
          intro children
          induction children with
          | nil => exact fun s' sound' pruned _ => ⟨sound', pruned⟩
          | cons first children ihc =>
              intro s' sound' pruned among
              obtain ⟨sound'', pruned'⟩ := ih sound' first.2
              refine ihc _ sound'' (pruned.trans fun x => ?_) fun child mem =>
                among child (List.mem_cons_of_mem _ mem)
              rcases pruned' x with same | ⟨gone, below⟩
              · exact .inl same
              · exact .inr ⟨gone, .child there (among first List.mem_cons_self)
                  (pruned.below below)⟩

/-- Removing a layer leaves all that is not below it. -/
theorem layer?_remove (sound : s.Sound) (id : LayerId) :
    (s.remove id).Sound ∧ s.Pruned (s.remove id) id :=
  pruned_removeWithin sound _ id

end CodeEditor.Layer.LayerStore

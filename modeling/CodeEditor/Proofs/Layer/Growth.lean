import CodeEditor.Proofs.Layer.Depth
import CodeEditor.Proofs.Layer.Rooted

/-!
Layers that hang together.

Removing a layer takes away it and all layers below it (`layer?_remove_of_below`), so nothing stays
behind that no layer leads to. `Grown` says that every layer is below one that is known to be no
child. Whoever lets go of a layer has to watch it (`Grown.modify`), and may forget it once it is
removed (`Grown.remove`) or has a place again (`Grown.attach`). Without such a watch a layer is
still below one that is no child, known or not (`Founded.exists_head`).
-/

namespace CodeEditor.Layer.LayerStore

variable {s s' : LayerStore} {id a x y : LayerId} {l : SyntaxLayer} {site : Site} {k : Nat}
  {w w' : Watch} {p : Option LayerId} {ids : List LayerId}

/-! ### Layers below layers -/

/-- What is reached is still reached where no layer lost a child. -/
theorem Below.of_holds (below : s.Below a x)
    (more : ∀ id site child, s.Holds id site child → s'.Holds id site child) : s'.Below a x := by
  induction below with
  | refl id => exact .refl id
  | @child id child x l site there mem _ ih =>
      obtain ⟨l', there', mem'⟩ := more id site child ⟨l, there, mem⟩
      exact .child there' mem' ih

/-- The last step to a layer is one from its parent. -/
theorem Below.exists_holder (below : s.Below a x) (ne : x ≠ a) :
    ∃ y site, s.Below a y ∧ s.Holds y site x := by
  obtain ⟨k, lies⟩ := below.exists_lies
  cases lies with
  | refl => exact absurd rfl ne
  | child lies holds => exact ⟨_, _, below_of_lies lies, holds⟩

/-! ### Removing layers -/

/-- Where a layer has gone its children have gone too. -/
def Cleared (s s' : LayerStore) : Prop :=
  ∀ x l, s.layer? x = some l → s'.layer? x = none → ∀ child ∈ l.children, s'.layer? child.2 = none

/-- What is gone stays gone while layers are removed. -/
theorem gone_of_shrinks (shrinks : ∀ x l, s'.layer? x = some l → s.layer? x = some l)
    (gone : s.layer? x = none) : s'.layer? x = none := by
  cases there : s'.layer? x with
  | none => rfl
  | some l => cases gone.symm.trans (shrinks x l there)

theorem Cleared.refl (s : LayerStore) : s.Cleared s :=
  fun x l there gone => by cases there.symm.trans gone

theorem Cleared.trans {s'' : LayerStore} (first : s.Cleared s') (second : s'.Cleared s'')
    (pruned : s'.Pruned s'' id) (shrinks : ∀ x l, s'.layer? x = some l → s.layer? x = some l) :
    s.Cleared s'' := by
  intro x l there gone child mem
  cases between : s'.layer? x with
  | none => exact gone_of_shrinks (fun _ _ => pruned.layer?_eq) (first x l there between child mem)
  | some l' =>
      obtain rfl := Option.some.inj (there.symm.trans (shrinks x l' between))
      exact second x l between gone child mem

/-- There is fuel for all layers that are there. -/
def Enough (s : LayerStore) (fuel : Nat) : Prop :=
  ∀ ids : List LayerId, ids.Nodup → (∀ x ∈ ids, ∃ l, s.layer? x = some l) → ids.length ≤ fuel

theorem Enough.of_shrinks {fuel : Nat} (enough : s.Enough fuel)
    (shrinks : ∀ x l, s'.layer? x = some l → s.layer? x = some l) : s'.Enough fuel :=
  fun ids once live => enough ids once fun x mem => (live x mem).imp fun l => shrinks x l

/-- Freeing the slot of a layer leaves one layer less. -/
theorem Enough.release {fuel : Nat} (enough : s.Enough (fuel + 1)) (there : s.layer? id = some l) :
    (s.release id).Enough fuel := by
  intro ids once live
  have lives : ∀ x ∈ ids, x ≠ id ∧ ∃ l, s.layer? x = some l := by
    intro x mem
    obtain ⟨l', here⟩ := live x mem
    rw [layer?_release there] at here
    split at here
    · cases here
    · next other => exact ⟨other, l', here⟩
  have count := enough (id :: ids) (List.nodup_cons.mpr ⟨fun mem => (lives id mem).1 rfl, once⟩)
    (List.forall_mem_cons.mpr ⟨⟨l, there⟩, fun x mem => (lives x mem).2⟩)
  exact Nat.le_of_succ_le_succ count

/-- Children are removed one by one. -/
theorem cleared_foldl {fuel : Nat} (children : List (Site × LayerId)) (sound : s'.Sound)
    (clears : ∀ s' id, s'.Sound → (∀ x l, s'.layer? x = some l → s.layer? x = some l) →
      (removeWithin fuel s' id).layer? id = none ∧ s'.Cleared (removeWithin fuel s' id))
    (shrinks : ∀ x l, s'.layer? x = some l → s.layer? x = some l) (cleared : s.Cleared s') :
    let s'' := children.foldl (fun s child => removeWithin fuel s child.2) s'
    (∀ x l, s''.layer? x = some l → s'.layer? x = some l) ∧ s.Cleared s'' ∧
      ∀ child ∈ children, s''.layer? child.2 = none := by
  induction children generalizing s' with
  | nil => exact ⟨fun _ _ here => here, cleared, nofun⟩
  | cons first children ih =>
      obtain ⟨gone, cleared'⟩ := clears s' first.2 sound shrinks
      obtain ⟨sound', pruned⟩ := pruned_removeWithin sound fuel first.2
      obtain ⟨shrinks', cleared'', gone'⟩ := ih sound'
        (fun x l here => shrinks x l (pruned.layer?_eq here))
          (cleared.trans cleared' pruned shrinks)
      refine ⟨fun x l here => pruned.layer?_eq (shrinks' x l here), cleared'',
        List.forall_mem_cons.mpr ⟨?_, gone'⟩⟩
      exact gone_of_shrinks shrinks' gone

/-- With enough fuel the children of what is removed are removed as well. -/
theorem cleared_removeWithin (sound : s.Sound) {fuel : Nat} (enough : s.Enough fuel)
    (id : LayerId) :
    (removeWithin fuel s id).layer? id = none ∧ s.Cleared (removeWithin fuel s id) := by
  induction fuel generalizing s id with
  | zero =>
      cases there : s.layer? id with
      | none =>
          rw [removeWithin, there]
          exact ⟨there, .refl s⟩
      | some l =>
          have count := enough [id] (List.nodup_singleton id) fun x mem =>
            ⟨l, List.mem_singleton.mp mem ▸ there⟩
          exact absurd count (Nat.not_succ_le_zero 0)
  | succ fuel ih =>
      rw [removeWithin]
      cases there : s.layer? id with
      | none => exact ⟨there, .refl s⟩
      | some l =>
          dsimp only
          have released := layer?_release there
          obtain ⟨shrinks, cleared, gone⟩ := cleared_foldl l.children (sound.release there)
            (fun s' id sound' shrinks => ih sound' ((enough.release there).of_shrinks shrinks) id)
            (fun _ _ here => here) (.refl _)
          refine ⟨gone_of_shrinks shrinks (by rw [released, if_pos rfl]), ?_⟩
          intro x l' there' gone' child mem
          by_cases same : x = id
          · subst same
            obtain rfl := Option.some.inj (there.symm.trans there')
            exact gone child mem
          · exact cleared x l' (by rw [released, if_neg same, there']) gone' child mem

/-- Removing a layer takes all layers below it. -/
theorem layer?_remove_of_below (sound : s.Sound) (below : s.Below id x) :
    (s.remove id).layer? x = none := by
  obtain ⟨gone, cleared⟩ := cleared_removeWithin sound (fun _ => length_le_of_live) id
  obtain ⟨k, lies⟩ := below.exists_lies
  clear below
  induction lies with
  | refl => exact gone
  | child _ holds ih =>
      obtain ⟨l, there, mem⟩ := holds
      exact cleared _ l there (ih gone cleared) _ mem

/-- A layer that is not below the one removed is reached as before. -/
theorem below_remove (sound : s.Sound) (below : s.Below a x) (apart : ¬s.Below id x) :
    (s.remove id).Below a x := by
  obtain ⟨-, pruned⟩ := layer?_remove sound id
  obtain ⟨k, lies⟩ := below.exists_lies
  clear below
  induction lies with
  | refl => exact .refl _
  | child _ holds ih =>
      obtain ⟨l, there, mem⟩ := holds
      have apart' := fun below => apart (Below.trans below (.child there mem (.refl _)))
      have there' := (pruned _).resolve_right fun gone => apart' gone.2
      exact (ih apart').trans (.child (there'.trans there) mem (.refl _))

/-! ### Layers that are no children -/

/-- The way from children to the layers that hold them ends. -/
def Founded (s : LayerStore) : Prop := WellFounded fun y x => ∃ site, s.Holds y site x

namespace Founded

theorem mono (founded : s.Founded)
    (holds : ∀ id site child, s'.Holds id site child → s.Holds id site child) : s'.Founded :=
  Subrelation.wf (fun ⟨site, held⟩ => ⟨site, holds _ site _ held⟩) founded

/-- A layer changes and has no new children. -/
theorem modify (founded : s.Founded) (id : LayerId) (change : SyntaxLayer → SyntaxLayer)
    (fewer : ∀ l, (change l).children ⊆ l.children) : (s.modify id change).Founded := by
  refine founded.mono fun id' site child held => ?_
  rcases holds_modify.mp held with ⟨rfl, l, there, mem⟩ | ⟨-, held⟩
  · exact ⟨l, there, fewer l mem⟩
  · exact held

theorem of_shrinks (founded : s.Founded)
    (shrinks : ∀ x l, s'.layer? x = some l → s.layer? x = some l) : s'.Founded :=
  founded.mono fun id _ _ ⟨l, there, mem⟩ => ⟨l, shrinks id l there, mem⟩

/-- A new layer has no children. -/
theorem insert (founded : s.Founded) (sound : s.Sound) (childless : l.children = []) :
    (s.insert l).2.Founded := by
  obtain ⟨-, -, layers⟩ := layer?_insert sound l
  refine founded.mono fun id site child ⟨l', there, mem⟩ => ?_
  rw [layers] at there
  split at there
  · cases there
    rw [childless] at mem
    cases mem
  · exact ⟨l', there, mem⟩

/-- A layer becomes a child of one that is not below it. -/
theorem attach {change : SyntaxLayer → SyntaxLayer} (founded : s.Founded) (apart : ¬s.Below x id)
    (more : ∀ l, s.layer? id = some l → ∀ child ∈ (change l).children,
      child ∈ l.children ∨ child.2 = x) : (s.modify id change).Founded := by
  have holds : ∀ {y site z}, (s.modify id change).Holds y site z →
      s.Holds y site z ∨ y = id ∧ z = x := by
    intro y site z held
    rcases holds_modify.mp held with ⟨rfl, l, there, mem⟩ | ⟨-, held⟩
    · exact (more l there _ mem).imp (fun mem => ⟨l, there, mem⟩) fun same => ⟨rfl, same⟩
    · exact .inl held
  -- The child is not among the layers that lead to its new parent, so the way up from there is as
  -- before.
  have above : ∀ z, s.Below z id →
      Acc (fun y x => ∃ site, (s.modify id change).Holds y site x) z := by
    intro z below
    induction z using founded.induction with
    | h z ih =>
        refine ⟨z, fun y ⟨site, held⟩ => ?_⟩
        rcases holds held with ⟨l, there, mem⟩ | ⟨-, rfl⟩
        · exact ih y ⟨site, l, there, mem⟩ (.child there mem below)
        · exact absurd below apart
  refine ⟨fun z => ?_⟩
  induction z using founded.induction with
  | h z ih =>
      refine ⟨z, fun y ⟨site, held⟩ => ?_⟩
      rcases holds held with held | ⟨rfl, -⟩
      · exact ih y ⟨site, held⟩
      · exact above y (.refl y)

/-- Every layer is below one that is no child. -/
theorem exists_head (founded : s.Founded) (there : s.layer? x = some l) :
    ∃ a, (∃ l, s.layer? a = some l) ∧ s.Loose a ∧ s.Below a x := by
  induction x using founded.induction generalizing l with
  | h x ih =>
      by_cases held : ∃ y site, s.Holds y site x
      · obtain ⟨y, site, l', above, mem⟩ := held
        obtain ⟨a, live, loose, below⟩ := ih y ⟨site, l', above, mem⟩ above
        exact ⟨a, live, loose, below.trans (.child above mem (.refl x))⟩
      · exact ⟨x, ⟨l, there⟩, fun y site holds => held ⟨y, site, holds⟩, .refl x⟩

end Founded

/-! ### Layers below known ones -/

/-- Every layer is below one that is known to be no child. -/
def Grown (w : Watch) (s : LayerStore) : Prop :=
  ∀ x l, s.layer? x = some l → ∃ a p, w.loose a p ∧ s.Below a x

namespace Grown

theorem mono (grown : s.Grown w) (more : ∀ a p, w.loose a p → w'.loose a p) : s.Grown w' := by
  intro x l there
  obtain ⟨a, p, known, below⟩ := grown x l there
  exact ⟨a, p, more a p known, below⟩

/-- A layer changes, and the children that it lets go of are watched. -/
theorem modify (grown : s.Grown w) (id : LayerId) (change : SyntaxLayer → SyntaxLayer)
    (kept : ∀ l, s.layer? id = some l → ∀ child ∈ l.children,
      child ∈ (change l).children ∨ child.2 ∈ ids) :
    (s.modify id change).Grown (w.add p ids) := by
  have reached : ∀ {k a x}, s.Lies k a x → (s.modify id change).Below a x ∨
      ∃ b ∈ ids, (s.modify id change).Below b x := by
    intro k a x lies
    induction lies with
    | refl a => exact .inl (.refl a)
    | @child k a y x site _ holds ih =>
        have step : (s.modify id change).Holds y site x ∨ x ∈ ids := by
          by_cases same : y = id
          · subst same
            obtain ⟨l, there, mem⟩ := holds
            exact (kept l there _ mem).imp
              (fun mem => holds_modify.mpr (.inl ⟨rfl, l, there, mem⟩)) fun mem => mem
          · exact .inl (holds_modify.mpr (.inr ⟨same, holds⟩))
        rcases step with ⟨l, there, mem⟩ | mem
        · have further {b : LayerId} (below : (s.modify id change).Below b y) :=
            below.trans (.child there mem (.refl x))
          exact ih.imp further fun ⟨b, mem, below⟩ => ⟨b, mem, further below⟩
        · exact .inr ⟨x, mem, .refl x⟩
  intro x l' there'
  have live : ∃ l, s.layer? x = some l := by
    rw [layer?_modify] at there'
    split at there'
    · next same =>
        obtain ⟨l, there, -⟩ := Option.map_eq_some_iff.mp there'
        exact ⟨l, same ▸ there⟩
    · exact ⟨l', there'⟩
  obtain ⟨l, there⟩ := live
  obtain ⟨a, p', known, below⟩ := grown x l there
  obtain ⟨k, lies⟩ := below.exists_lies
  rcases reached lies with below' | ⟨b, mem, below'⟩
  · exact ⟨a, p', .inl known, below'⟩
  · exact ⟨b, p, .inr ⟨mem, rfl⟩, below'⟩

/-- A layer changes and keeps its children. -/
theorem same {change : SyntaxLayer → SyntaxLayer} (grown : s.Grown w) (id : LayerId)
    (kept : ∀ l, ∀ child ∈ l.children, child ∈ (change l).children) :
    (s.modify id change).Grown w := by
  have modified : (s.modify id change).Grown (w.add none []) :=
    grown.modify id change fun l _ child mem => .inl (kept l child mem)
  refine modified.mono ?_
  rintro a p (known | ⟨mem, -⟩)
  · exact known
  · cases mem

/-- A new layer is watched. -/
theorem insert (grown : s.Grown w) (sound : s.Sound) (l : SyntaxLayer) (p : Option LayerId) :
    (s.insert l).2.Grown (w.add p [(s.insert l).1]) := by
  obtain ⟨vacant, -, layers⟩ := layer?_insert sound l
  generalize s.insert l = made at vacant layers ⊢
  intro x l' there
  rw [layers] at there
  split at there
  · next new => exact ⟨x, p, .inr ⟨List.mem_singleton.mpr new, rfl⟩, .refl x⟩
  · obtain ⟨a, p', known, below⟩ := grown x l' there
    refine ⟨a, p', .inl known, below.of_holds fun id site child ⟨l₀, there₀, mem⟩ => ⟨l₀, ?_, mem⟩⟩
    rw [layers, if_neg, there₀]
    rintro rfl
    cases vacant.symm.trans there₀

/-- A layer that gets a place need not be watched. -/
theorem attach {change : SyntaxLayer → SyntaxLayer} (grown : s.Grown w')
    (fewer : ∀ a p, w'.loose a p → w.loose a p ∨ a = x) (there : s.layer? id = some l)
    (apart : ¬s.Below x id) (kept : ∀ child ∈ l.children, child ∈ (change l).children)
    (new : (site, x) ∈ (change l).children) : (s.modify id change).Grown w := by
  have there' := layer?_modify_self there change
  have more : ∀ {a y}, s.Below a y → (s.modify id change).Below a y := by
    intro a y below
    refine below.of_holds fun id' site' child holds => ?_
    by_cases same : id' = id
    · subst same
      obtain ⟨l', here, mem⟩ := holds
      obtain rfl := Option.some.inj (there.symm.trans here)
      exact ⟨_, there', kept _ mem⟩
    · exact holds_modify.mpr (.inr ⟨same, holds⟩)
  intro y l' here
  have live : ∃ l, s.layer? y = some l := by
    by_cases same : y = id
    · exact ⟨l, same ▸ there⟩
    · rw [layer?_modify_of_ne same] at here
      exact ⟨l', here⟩
  obtain ⟨l₀, here₀⟩ := live
  obtain ⟨a, p, known, below⟩ := grown y l₀ here₀
  rcases fewer a p known with known | rfl
  · exact ⟨a, p, known, more below⟩
  · obtain ⟨b, p', known', above⟩ := grown id l there
    rcases fewer b p' known' with known' | rfl
    · exact ⟨b, p', known', (more above).trans (.child there' new (more below))⟩
    · exact absurd above apart

/-- A layer that is removed need not be watched. -/
theorem remove (grown : s.Grown w') (sound : s.Sound)
    (fewer : ∀ a p, w'.loose a p → w.loose a p ∨ a = x) : (s.remove x).Grown w := by
  intro y l there
  have apart : ¬s.Below x y := fun below => by
    cases (layer?_remove_of_below sound below).symm.trans there
  obtain ⟨a, p, known, below⟩ := grown y l ((layer?_remove sound x).2.layer?_eq there)
  rcases fewer a p known with known | rfl
  · exact ⟨a, p, known, below_remove sound below apart⟩
  · exact absurd below apart

theorem removeAll {children : List (Site × LayerId)} (sound : s.Sound)
    (grown : s.Grown (w.add p (children.map (·.2)))) : (s.removeAll children).Grown w := by
  induction children generalizing s with
  | nil =>
      refine grown.mono ?_
      rintro a p (known | ⟨mem, -⟩)
      · exact known
      · cases mem
  | cons child children ih =>
      refine ih (layer?_remove sound child.2).1 (grown.remove sound ?_)
      rintro a p (known | ⟨mem, rfl⟩)
      · exact .inl (.inl known)
      · rcases List.mem_cons.mp mem with rfl | mem
        · exact .inr rfl
        · exact .inl (.inr ⟨mem, rfl⟩)

end Grown

end CodeEditor.Layer.LayerStore

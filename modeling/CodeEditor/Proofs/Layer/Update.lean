import CodeEditor.Proofs.Layer.Assignment

/-!
Updating a layer and those below it.

After an edit a layer is parsed again, and its children are brought in line with the new tree. Each
layer that is kept becomes a child again or is removed (`keepChild_ok`), then the new ones are made
(`settle_ok`). So an update leaves parsed layers in the same language (`updateLayer_ok`). It does
not say that the layers prefer the first candidate: a layer that is kept takes its place before new
ones are made.
-/

namespace CodeEditor.Layer.LayerTree

open Syntax (Node Language)

variable {t t' : LayerTree} {engine : Engine}
    {tree : Language → TextBuffer → Option ByteRange → Node}
  {id child : LayerId} {n : Nat} {w : Setting} {v : Layers} {depth : Nat}
  {update parse : LayerId → LayerM Unit}

/-- Updating a layer leaves parsed layers, unless parts in parts go down to a depth. -/
def Updates (engine : Engine) (tree : Language → TextBuffer → Option ByteRange → Node)
    (w : Setting) (depth : Nat) (update : LayerId → LayerM Unit) : Prop :=
  ∀ (t : LayerTree) (id : LayerId) (n : Nat) (v : Layers), t.store.Sound → t.setting tree = w →
    t.store.Shows engine.site n id v → Setting.Known w.known v →
    Ends (¬w.Bounded depth v.language v.range)
      (fun t' => ∃ n' v', t'.store.Shows engine.site n' id v' ∧ v'.language = v.language ∧
        v'.range = v.range ∧ w.Parsed v' ∧ t.Carries t' [id] [id])
      (update id t)

/-- A layer that is kept is a child of its parent again, or it is removed as its tree covers
nothing. -/
theorem keepChild_ok {others : List LayerId} {c : Candidate} {u : Layers}
    (distinct : ∀ n path path', engine.site n path = engine.site n path' → path = path')
    (updates : Updates engine tree w depth update) (sound : t.store.Sound)
    (same : t.setting tree = w) (forest : t.store.Forest engine.site (id :: child :: others))
    (shows : t.store.Shows engine.site n id v) (free : v.inner c.path = none)
    (shown : ShowsKnown engine w t.store child u) (language : u.language = c.language)
    (range : u.range = some c.range) :
    Ends (¬w.Bounded depth c.language (some c.range))
      (fun t' => ∃ inner, t'.store.Shows engine.site n id { v with inner } ∧
        w.Added [c] v.inner inner ∧ (∀ path, path ≠ c.path → inner path = v.inner path) ∧
        t'.store.Forest engine.site (id :: others) ∧
        t.Carries t' (id :: child :: others) (id :: others) ∧
        ∀ b ∈ others, ∀ m u, t.store.Shows engine.site m b u → t'.store.Shows engine.site m b u)
      (keepChild update id (engine.site n c.path, child) t) := by
  obtain ⟨m, showsChild, -, known⟩ := shown
  have updated := updates t child m u sound same showsChild known
  rw [language, range] at updated
  rw [keepChild]
  refine .bind updated ?_
  rintro t₁ ⟨m', u', shows₁, language₁, range₁, parsed, carries⟩
  have swap : (id :: child :: others).Perm ([child] ++ id :: others) := .swap child id others
  obtain ⟨forest₁, carries₁, kept₁⟩ :=
    LayerTree.Carries.frame (forest.perm swap) carries (LayerStore.forest_singleton shows₁)
  have showsParent := kept₁ id List.mem_cons_self n v shows
  have isEmpty := hasEmptyTree_iff shows₁ parsed (c := c) language₁ range₁
  rw [get_bind, LayerTree.layer?]
  by_cases covers : w.Covers c
  · rw [if_neg (fun empty => isEmpty.mp empty covers)]
    obtain ⟨l, there, -⟩ := showsParent.exists_layer
    have vacant : l.child? (engine.site n c.path) = none :=
      (showsParent.inner_eq_none there).mp free
    have apart : t₁.store.Apart id child :=
      LayerStore.Apart.symm ((List.pairwise_cons.mp forest₁.apart).1 id List.mem_cons_self)
    have there' := LayerStore.layer?_modify_self (LayerStore.layer?_modify_self there fun l =>
      { l with children := l.children.filter (·.1 ≠ engine.site n c.path) ++
        [(engine.site n c.path, child)] }) fun l =>
          { l with children := t₁.order.arrange t₁.parses l.children }
    rw [SyntaxLayer.filter_children vacant] at there'
    obtain ⟨shows', change'⟩ :=
      LayerStore.forest_adopt (distinct n) apart showsParent there free shows₁
      there' (t₁.order.arrange_perm t₁.parses _) fun x other =>
        (LayerStore.layer?_modify_of_ne other _).trans (LayerStore.layer?_modify_of_ne other _)
    have forest₁' : t₁.store.Forest engine.site ([id, child] ++ others) := forest₁.perm swap.symm
    obtain ⟨forest', carries', kept'⟩ := LayerTree.Carries.frame forest₁'
      (.onStore ((carries.sound.modify id _).modify id _) change')
        (LayerStore.forest_singleton shows')
    refine ⟨_, shows', .put free covers language₁ range₁ parsed, fun path other => if_neg other,
      forest', (carries₁.perm swap.symm swap.symm).trans carries', ?_⟩
    intro b mem m u shows
    exact kept' b mem m u (kept₁ b (List.mem_cons_of_mem _ mem) m u shows)
  · rw [if_pos (isEmpty.mpr covers)]
    obtain ⟨sound', change'⟩ := LayerStore.local_remove carries.sound child
    obtain ⟨forest', carries', kept'⟩ := LayerTree.Carries.frame forest₁ (.onStore sound' change')
      ⟨fun a mem => absurd mem List.not_mem_nil, .nil⟩
    refine ⟨v.inner, ?_, .skip covers, fun path _ => rfl, forest',
      (carries₁.perm swap.symm (.refl _)).trans carries', ?_⟩
    · rw [v.eta]
      exact kept' id List.mem_cons_self n v showsParent
    · intro b mem m u shows
      have mem' := List.mem_cons_of_mem id mem
      exact kept' b mem' m u (kept₁ b mem' m u shows)

/-- All layers that are kept are children again or removed. -/
theorem forM_keepChild_ok {cs : List Candidate}
    (distinct : ∀ n path path', engine.site n path = engine.site n path' → path = path')
    (updates : Updates engine tree w depth update) (kept : List (Site × LayerId))
    (sound : t.store.Sound) (same : t.setting tree = w)
    (forest : t.store.Forest engine.site (id :: kept.map (·.2)))
    (shows : t.store.Shows engine.site n id v) (differ : kept.Pairwise fun x y => x.1 ≠ y.1)
    (each : ∀ k child, (k, child) ∈ kept → ∃ c ∈ cs, k = engine.site n c.path ∧
      v.inner c.path = none ∧
      ∃ u, ShowsKnown engine w t.store child u ∧ u.language = c.language ∧ u.range = some c.range) :
    Ends (∃ c ∈ cs, ¬w.Bounded depth c.language (some c.range))
      (fun t' => ∃ inner chosen, t'.store.Shows engine.site n id { v with inner } ∧
        w.Added chosen v.inner inner ∧ (∀ c ∈ chosen, c ∈ cs) ∧
        (∀ k child, (k, child) ∈ kept → ∃ c ∈ chosen, k = engine.site n c.path) ∧
        t.Carries t' (id :: kept.map (·.2)) [id])
      (forM kept (keepChild update id) t) := by
  induction kept generalizing t v with
  | nil =>
      refine ⟨v.inner, [], by rwa [v.eta], .nil w v.inner, ?_, ?_, .refl sound [id]⟩
      · exact fun c mem => absurd mem List.not_mem_nil
      · exact fun k child mem => absurd mem List.not_mem_nil
  | cons first kept ih =>
      obtain ⟨k, child⟩ := first
      obtain ⟨c, among, rfl, free, u, shown, language, range⟩ := each k child List.mem_cons_self
      obtain ⟨differ₁, differ'⟩ := List.pairwise_cons.mp differ
      rw [List.forM_cons]
      have kept_ok :=
        keepChild_ok distinct updates sound same forest shows free shown language range
      refine .bind (kept_ok.mono (fun endless => ⟨c, among, endless⟩) fun _ result => result) ?_
      rintro t₁ ⟨inner₁, shows₁, added₁, elsewhere, forest₁, carries₁, kept₁⟩
      have each₁ : ∀ k' child', (k', child') ∈ kept → ∃ c' ∈ cs, k' = engine.site n c'.path ∧
          inner₁ c'.path = none ∧ ∃ u, ShowsKnown engine w t₁.store child' u ∧
            u.language = c'.language ∧ u.range = some c'.range := by
        intro k' child' mem
        obtain ⟨c', among', rfl, free', u', ⟨m, shows', known⟩, holds⟩ :=
          each k' child' (List.mem_cons_of_mem _ mem)
        have other : c'.path ≠ c.path := by
          intro same
          exact differ₁ _ mem (by rw [same])
        refine ⟨c', among', rfl, by rw [elsewhere _ other, free'], u', ⟨m, ?_, known⟩, holds⟩
        exact kept₁ child' (List.mem_map_of_mem mem) m u' shows'
      have rest := ih carries₁.sound ((carries₁.setting_eq tree).trans same) forest₁ shows₁ differ'
        each₁
      apply rest.mono (fun endless => endless)
      rintro t' ⟨inner, chosen, shows', added, chosen_mem, places, carries⟩
      refine ⟨inner, c :: chosen, shows', added₁.append added, ?_, ?_, carries₁.trans carries⟩
      · intro c' mem
        rcases List.mem_cons.mp mem with rfl | mem
        · exact among
        · exact chosen_mem c' mem
      · intro k' child' mem
        rcases List.mem_cons.mp mem with same | mem
        · cases same
          exact ⟨c, List.mem_cons_self, rfl⟩
        · obtain ⟨c', mem', here⟩ := places k' child' mem
          exact ⟨c', List.mem_cons_of_mem _ mem', here⟩

/-- New layers are made one by one, where the place is free and the tree covers something. -/
theorem forM_createChild_ok {ps : List InjectedPart} (steady : engine.Steady tree)
    (parses : ParsesNew engine tree w depth parse)
    (places : ∀ p ∈ ps, p.site = engine.site n p.injection.path) (sound : t.store.Sound)
    (same : t.setting tree = w) (shows : t.store.Shows engine.site n id v) :
    Ends (∃ p ∈ ps, ¬w.Bounded depth p.language (some p.injection.byteRange))
      (fun t' => ∃ inner, t'.store.Shows engine.site n id { v with inner } ∧
        w.Filled (ps.map (·.candidate)) v.inner inner ∧ t.Carries t' [id] [id])
      (forM ps (createChild parse id) t) := by
  have each : ∀ p ∈ ps, ∀ (t : LayerTree) (v : Layers), t.store.Sound → t.setting tree = w →
      t.store.Shows engine.site n id v →
      Ends (∃ c, some p.candidate = some c ∧ ¬w.Bounded depth c.language (some c.range))
        (fun t' => ∃ inner, t'.store.Shows engine.site n id { v with inner } ∧
          w.Filled [p.candidate] v.inner inner ∧ t.Carries t' [id] [id])
        (createChild parse id p t) := by
    intro p mem t v sound same shows
    have created := createChild_ok steady.site parses sound same shows p (places p mem)
    exact created.mono (fun endless => ⟨_, rfl, endless⟩) fun _ result => result
  have loop := forM_fills depth (fun p : InjectedPart => some p.candidate) ps each sound same shows
  rw [List.filterMap_eq_map'] at loop
  refine loop.mono ?_ fun _ result => result
  rintro ⟨c, mem, endless⟩
  obtain ⟨p, among, rfl⟩ := List.mem_map.mp mem
  exact ⟨p, among, endless⟩

/-- What has been decided on the children of a layer leads to parsed layers. -/
theorem settle_ok {a : Assignment} (steady : engine.Steady tree)
    (updates : Updates engine tree w depth update) (parses : ParsesNew engine tree w depth parse)
    (sound : t.store.Sound) (same : t.setting tree = w)
    (assigned : Assigned engine w n t.store (w.candidates v.language v.range) a)
    (forest : t.store.Forest engine.site (a.ids ++ [id]))
    (shows : t.store.Shows engine.site n id v) (childless : v.inner = fun _ => none)
    (root : v.root = w.parsed v.language v.range) :
    Ends (¬w.Bounded (depth + 1) v.language v.range)
      (fun t' => ∃ v', t'.store.Shows engine.site n id v' ∧ v'.language = v.language ∧
        v'.range = v.range ∧ w.Parsed v' ∧ t.Carries t' (a.ids ++ [id]) [id])
      (settle update parse id a t) := by
  rw [Assignment.ids, List.map_append, List.append_assoc] at forest ⊢
  obtain ⟨sound₁, forest₁, removed, kept₁⟩ := LayerStore.forest_removeAll a.orphans sound forest
  have carries₁ := Carries.onStore sound₁ removed
  rw [settle, onStore_bind, get_bind, arranged]
  dsimp only
  have arranged := t.order.arrange_perm t.parses a.kept
  generalize t.order.arrange t.parses a.kept = kept at arranged ⊢
  have turned : (a.kept.map (·.2) ++ [id]).Perm (id :: kept.map (·.2)) :=
    (List.perm_append_singleton id _).trans ((arranged.map _).symm.cons id)
  have each : ∀ k child, (k, child) ∈ kept →
      ∃ c ∈ w.candidates v.language v.range, k = engine.site n c.path ∧ v.inner c.path = none ∧
        ∃ u, ShowsKnown engine w (t.store.removeAll a.orphans) child u ∧
          u.language = c.language ∧ u.range = some c.range := by
    intro k child mem
    rw [arranged.mem_iff] at mem
    obtain ⟨c, among, here, u, ⟨m, shows, known⟩, holds⟩ := assigned.kept k child mem
    refine ⟨c, among, here, by rw [childless], u, ⟨m, ?_, known⟩, holds⟩
    exact kept₁ child (List.mem_append_left _ (List.mem_map_of_mem mem)) m u shows
  have loop := forM_keepChild_ok (t := { t with store := t.store.removeAll a.orphans }) steady.site
    updates kept sound₁ same (forest₁.perm turned)
    (kept₁ id (List.mem_append_right _ (List.mem_singleton_self id)) n v shows)
    (assigned.distinct.perm arranged.symm Ne.symm) each
  refine .bind (loop.mono ?_ fun _ result => result) ?_
  · rintro ⟨c, mem, endless⟩ bounded
    exact endless (bounded c mem)
  rintro t₂ ⟨inner₁, chosen, shows₂, added, chosen_mem, places, carries₂⟩
  have places' : ∀ p ∈ a.fresh.reverse, p.site = engine.site n p.injection.path := by
    intro p mem
    exact (assigned.fresh p (List.mem_reverse.mp mem)).2
  refine (forM_createChild_ok steady parses places' carries₂.sound
    ((carries₂.setting_eq tree).trans same) shows₂).mono ?_ ?_
  · rintro ⟨p, mem, endless⟩ bounded
    exact endless (bounded _ (assigned.fresh p (List.mem_reverse.mp mem)).1)
  · rintro t' ⟨inner, shows', filled, carries'⟩
    refine ⟨_, shows', rfl, rfl, ?_,
      (carries₁.trans (carries₂.perm turned.symm (.refl _))).trans carries'⟩
    have all := added.append filled.added
    rw [childless] at all
    refine Setting.Added.complete root all ?_ ?_
    · intro c mem
      rcases List.mem_append.mp mem with mem | mem
      · exact chosen_mem c mem
      · obtain ⟨p, among, rfl⟩ := List.mem_map.mp mem
        exact (assigned.fresh p (List.mem_reverse.mp among)).1
    · intro c mem
      rcases assigned.every c mem with ⟨child, here⟩ | ⟨p, among, rfl⟩
      · obtain ⟨c', mem', place⟩ := places _ child (arranged.mem_iff.mpr here)
        exact ⟨c', List.mem_append_left _ mem', steady.site n _ _ place.symm⟩
      · have new := List.mem_map_of_mem (f := InjectedPart.candidate) (List.mem_reverse.mpr among)
        exact ⟨p.candidate, List.mem_append_right _ new, rfl⟩

/-- The children of a layer with a new tree are brought in line with it. -/
theorem updateChildren_ok {l : SyntaxLayer} {m : Nat} (steady : engine.Steady tree)
    (numbered : Numbered w.known) (edit : TextEdit)
    (updates : Updates engine tree w depth update) (parses : ParsesNew engine tree w depth parse)
    (sound : t.store.Sound) (same : t.setting tree = w) (shows : t.store.Shows engine.site m id v)
    (known : Setting.Known w.known v) (there : t.store.layer? id = some l) :
    Ends (¬w.Bounded (depth + 1) l.language l.range)
      (fun t' => ∃ n' v', t'.store.Shows engine.site n' id v' ∧ v'.language = l.language ∧
        v'.range = l.range ∧ w.Parsed v' ∧ t.Carries t' [id] [id])
      (updateChildren engine update parse edit id
        { t with
          parses := t.parses + 1
          store := t.store.modify id fun x =>
            { x with tree := some ⟨t.parses, tree l.language t.text l.range⟩ } }) := by
  have there₁ := LayerStore.layer?_modify_self there fun x =>
    { x with tree := some ⟨t.parses, tree l.language t.text l.range⟩ }
  have others₁ : ∀ x, x ≠ id → (t.store.modify id fun x =>
      { x with tree := some ⟨t.parses, tree l.language t.text l.range⟩ }).layer? x =
        t.store.layer? x := fun x other => LayerStore.layer?_modify_of_ne other _
  have sound₁ := sound.modify id fun x =>
    { x with tree := some ⟨t.parses, tree l.language t.text l.range⟩ }
  generalize t.store.modify id _ = s₁ at there₁ others₁ sound₁ ⊢
  obtain ⟨t₂, found, store₂, carries₂⟩ := injections_ok
    (t := { t with parses := t.parses + 1, store := s₁ }) engine tree sound₁ there₁ rfl rfl
  have here : LayerTree.setting { t with parses := t.parses + 1, store := s₁ } tree = w := same
  rw [updateChildren, bind_ok found, get_bind, LayerTree.layer?, store₂, there₁, here]
  dsimp only
  rw [modifyLayer_bind]
  have there₃ := LayerStore.layer?_modify_self there₁ fun x => { x with children := [] }
  have others₃ : ∀ x, x ≠ id → (s₁.modify id fun x => { x with children := [] }).layer? x =
      t.store.layer? x := by
    intro x other
    exact (LayerStore.layer?_modify_of_ne other _).trans (others₁ x other)
  have sound₃ := sound₁.modify id fun x => { x with children := [] }
  obtain ⟨alone, forest, released, kept⟩ :=
    LayerStore.forest_release shows there there₃ others₃ rfl rfl
  generalize stepped : LayerTree.mk _ _ _ _ _ _ _ = t₃
  have store₃ : t₃.store = s₁.modify id fun x => { x with children := [] } := by
    rw [← stepped, store₂]
  rw [← store₃] at sound₃ alone forest released kept
  have task : t₃.registry = t.registry ∧ t₃.text = t.text ∧ t₃.root = t.root := by
    rw [← stepped]
    exact ⟨(carries₂ []).registry, (carries₂ []).text, (carries₂ []).root⟩
  have carries₃ : t.Carries t₃ [id] (id :: l.children.map (·.2)) :=
    ⟨task.1, task.2.1, task.2.2, sound₃, released⟩
  have same₃ := (carries₃.setting_eq tree).trans same
  have assigned : Assigned engine w t.parses t₃.store [] { orphans := l.children } := by
    refine .start ?_
    intro k child mem
    obtain ⟨-, path, m, u, -, inner, shown⟩ := shows.child there mem
    exact ⟨u, m, kept k child mem m u shown, known.inner inner⟩
  have turned : (id :: l.children.map (·.2)).Perm
      (({ orphans := l.children } : Assignment).ids ++ [id]) := by
    rw [Assignment.ids, List.append_nil]
    exact (List.perm_append_singleton id _).symm
  obtain ⟨a, t₄, run, assigned₄, forest₄, carries₄, still⟩ :=
    foldlM_assign_ok edit numbered sound₃ same₃
    assigned (forest.perm turned) (w.injections l.language l.range)
  rw [bind_ok run]
  have settled := settle_ok (v := ⟨l.language, l.range, tree l.language t.text l.range,
    fun _ => none⟩)
    steady updates parses carries₄.sound ((carries₄.setting_eq tree).trans same₃) assigned₄ forest₄
    (still t.parses _ alone) rfl (by rw [← same, setting])
  apply settled.mono (fun endless => endless)
  rintro t' ⟨v', shows', language, range, parsed, carries⟩
  exact ⟨t.parses, v', shows', language, range, parsed,
    (carries₃.perm (.refl _) turned).trans (carries₄.trans carries)⟩

/-- An update leaves parsed layers in the same language and for the same part. -/
theorem updateLayer_ok (steady : engine.Steady tree) (numbered : Numbered w.known) (edit : TextEdit)
    (depth : Nat) (sound : t.store.Sound) (same : t.setting tree = w)
    (shows : t.store.Shows engine.site n id v) (known : Setting.Known w.known v) :
    Ends (¬w.Bounded depth v.language v.range)
      (fun t' => ∃ n' v', t'.store.Shows engine.site n' id v' ∧ v'.language = v.language ∧
        v'.range = v.range ∧ w.Parsed v' ∧ t.Carries t' [id] [id])
      (updateLayer engine edit depth id t) := by
  induction depth generalizing t id n v with
  | zero => exact fun bounded => bounded
  | succ depth ih =>
      have updates : Updates engine tree w depth (updateLayer engine edit depth) := by
        intro t id n v sound same shows known
        exact ih sound same shows known
      have parses : ParsesNew engine tree w depth (parseLayer engine depth) :=
        fun t id l sound same there childless =>
          parseLayer_ok steady depth sound same there (.inl childless)
      obtain ⟨l, there, has, language, range⟩ := shows.exists_layer
      rw [updateLayer, get_bind, LayerTree.layer?, there]
      dsimp only
      rw [has]
      dsimp only
      rw [bind_ok (parseAgain_eq steady edit id l _ t), modifyLayer_bind, ← language, ← range]
      exact updateChildren_ok steady numbered edit updates parses sound same shows known there

end CodeEditor.Layer.LayerTree

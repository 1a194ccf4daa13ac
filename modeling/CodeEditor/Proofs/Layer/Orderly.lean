import CodeEditor.Proofs.Layer.Kept

/-!
Layers in order, whatever is done.

An update takes the children of a layer from their places, updates those that are kept one by one
and puts each back. `Loosened` says what holds meanwhile: the children that have no place are known,
and every layer is below a known one. An update that comes to its end keeps all that a parse keeps
(`updateLayer_kept`); where it stops, the children that it has not put back are below none.

`Orderly` is what holds between parses and edits, also behind those that stopped
(`Touched.orderly`).
-/

namespace CodeEditor.Layer

open Syntax (Language Registry)
open LayerStore (Watch)

namespace LayerTree

variable {w : Watch} {root id child : LayerId} {t₀ t₁ t t' : LayerTree} {engine : Engine}
  {grown grown' parsed : Prop} {l : SyntaxLayer} {site : Site} {ids : List LayerId}

/-! ### Updates -/

/-- An update of a layer that is no child keeps what is known. Where it stops layers may be below no
known one. -/
def KeepsUpdating (step : LayerId → LayerM Unit) : Prop :=
  ∀ grown parsed w root id p t₀ t, Kept grown parsed w root id t₀ t → w.Ready id → w.loose id p →
    Keeps (fun _ => Kept grown parsed w root id t₀) (Kept False parsed w root id t₀) (step id t)

/-- What an assignment does: it may change the part of a layer that it has chosen, and gives no two
layers one place. -/
structure Assigns (a a' : Assignment) (t t' : LayerTree) : Prop where
  root : t'.root = t.root
  parses : t'.parses = t.parses
  store : t'.store = t.store ∨ ∃ child range, child ∈ a.orphans.map (·.2) ∧
    t'.store = t.store.modify child fun l => { l with range }
  orphans : a'.orphans.map (·.2) ⊆ a.orphans.map (·.2)
  places : (a.kept.map (·.1)).Nodup → (a'.kept.map (·.1)).Nodup

theorem assign_assigns (edit : TextEdit) (a : Assignment) (part : Site × Injection)
    (t : LayerTree) :
    ∃ a' t', assign edit a part t = .ok a' t' ∧ Assigns a a' t t' := by
  obtain ⟨site, injection⟩ := part
  rw [assign]
  cases vacant : a.kept.lookup site with
  | some child => exact ⟨a, t, rfl, rfl, rfl, .inl rfl, fun _ mem => mem, id⟩
  | none =>
      rw [Option.isSome_none, if_neg Bool.false_ne_true, get_bind]
      cases t.language? injection.languageName with
      | none => exact ⟨a, t, rfl, rfl, rfl, .inl rfl, fun _ mem => mem, id⟩
      | some language =>
          dsimp only
          rw [get_bind]
          cases chosen : t.adopt? edit a.orphans ⟨site, injection, language⟩ with
          | none => exact ⟨_, t, rfl, rfl, rfl, .inl rfl, fun _ mem => mem, id⟩
          | some choice =>
              obtain ⟨child, rest⟩ := choice
              obtain ⟨k, l, perm, -, -⟩ := of_adopt? chosen
              have perm := perm.map (·.2)
              dsimp only
              rw [modifyLayer_bind]
              refine ⟨_, _, rfl, rfl, rfl, .inr ⟨child, _,
                perm.mem_iff.mpr List.mem_cons_self, rfl⟩,
                fun x mem => perm.mem_iff.mpr (List.mem_cons_of_mem _ mem), fun once => ?_⟩
              refine List.nodup_cons.mpr ⟨fun mem => ?_, once⟩
              obtain ⟨⟨site', child'⟩, among, same⟩ := List.mem_map.mp mem
              exact ne_of_lookup_eq_none vacant among same

/-- The children of a layer have been taken from their places while work is done at it. -/
structure Loosened (grown parsed : Prop) (w : Watch) (root id : LayerId) (ids : List LayerId)
    (t₀ t : LayerTree) : Prop where
  kept : Kept False parsed w root id t₀ t
  rooted : Rooted (w.add (some id) ids) root t
  grown : grown → t.store.Grown (w.add (some id) ids)

/-- The layer has no child at some places. -/
def Free (t : LayerTree) (id : LayerId) (sites : List Site) : Prop :=
  ∀ l, t.layer? id = some l → ∀ child ∈ l.children, child.1 ∉ sites

/-- A layer lets go of its children. -/
theorem Kept.loosen (kept : Kept grown parsed w root id t₀ t) (there : t.layer? id = some l) :
    let t' := { t with store := t.store.modify id fun l => { l with children := [] } }
    Loosened grown parsed w root id (l.children.map (·.2)) t₀ t' ∧ ∀ sites, Free t' id sites := by
  have shaped := kept.rooted.shaped.drain (fun l => { l with children := [] }) there (fun _ => rfl)
    fun _ => rfl
  have there' := LayerStore.layer?_modify_self there fun l => { l with children := [] }
  have tidy := kept.tidy.modify kept.rooted.shaped id (fun l => { l with children := [] })
    (fun _ => List.nil_subperm) (.inl fun _ => rfl)
  have some := kept.tree_isSome there
  have founded := kept.founded.modify id (fun l => { l with children := [] })
    fun _ => List.nil_subset _
  refine ⟨⟨kept.modify there shaped.of_add tidy founded some False.elim,
    kept.rooted.store shaped, fun is => ?_⟩, fun sites l' here child mem => ?_⟩
  · refine (kept.grown is).modify id _ fun l' here child mem => .inr ?_
    obtain rfl := Option.some.inj (there.symm.trans here)
    exact List.mem_map_of_mem (f := (·.2)) mem
  · obtain rfl := Option.some.inj (there'.symm.trans here)
    cases mem

namespace Loosened

theorem perm {ids' : List LayerId} (loosened : Loosened grown parsed w root id ids t₀ t)
    (perm : ids.Perm ids') : Loosened grown parsed w root id ids' t₀ t where
  kept := loosened.kept
  rooted := ⟨loosened.rooted.root, loosened.rooted.shaped.mono
    (fun _ _ => Or.imp_right (And.imp_left perm.mem_iff.mpr)) fun _ _ _ known => known⟩
  grown := fun is => (loosened.grown is).mono fun _ _ =>
    Or.imp_right (And.imp_left perm.mem_iff.mp)

/-- All children have found a place again or are gone. -/
theorem done (loosened : Loosened grown parsed w root id [] t₀ t) :
    Kept grown parsed w root id t₀ t where
  rooted := loosened.kept.rooted
  tidy := loosened.kept.tidy
  founded := loosened.kept.founded
  still := loosened.kept.still
  parsed := loosened.kept.parsed
  accounted := loosened.kept.accounted
  grown := fun is => (loosened.grown is).mono fun _ _ =>
    Or.rec (fun known => known) fun mem => absurd mem.1 List.not_mem_nil

/-- A part is assigned one of the children. -/
theorem assign {a a' : Assignment} (loosened : Loosened grown parsed w root id ids t₀ t)
    (assigns : Assigns a a' t t₁) (unwatched : ∀ x ∈ a.orphans.map (·.2), ¬w.Has x)
    (has : w.Has id) :
    Loosened grown parsed w root id ids t₀ t₁ ∧ t₁.layer? id = t.layer? id := by
  rcases assigns.store with store | ⟨child, range, mem, store⟩
  · refine ⟨⟨loosened.kept.congr store assigns.root, ⟨assigns.root.trans loosened.rooted.root, ?_⟩,
      ?_⟩, by rw [layer?, layer?, store]⟩
    · exact store ▸ loosened.rooted.shaped
    · exact store ▸ loosened.grown
  · have other : ∀ x, w.Has x → t₁.layer? x = t.layer? x := by
      intro x known
      rw [layer?, store, LayerStore.layer?_modify_of_ne, ← layer?]
      rintro rfl
      exact unwatched x mem known
    have shaped : (t.store.modify child fun l => { l with range }).Shaped (w.add (some id) ids) :=
      loosened.rooted.shaped.modify (fun _ => rfl) fun _ => .refl _
    have kept := loosened.kept
    refine ⟨⟨?_, ⟨assigns.root.trans loosened.rooted.root, store ▸ shaped⟩, fun is => ?_⟩,
      other id has⟩
    · constructor
      case rooted => exact ⟨assigns.root.trans kept.rooted.root, store ▸ shaped.of_add⟩
      case tidy =>
        rw [store]
        exact kept.tidy.modify kept.rooted.shaped child _ (fun _ => .refl _) (.inl fun _ => rfl)
      case founded =>
        rw [store]
        exact kept.founded.modify child _ fun _ => List.Subset.refl _
      case still => exact fun x known ne => (other x known).trans (kept.still x known ne)
      case parsed =>
        rw [tree?, other id has, ← tree?]
        exact kept.parsed
      case accounted =>
        rw [store]
        exact kept.accounted.modify child _
      case grown => exact False.elim
    · rw [store]
      exact (loosened.grown is).same child fun _ _ mem => mem

/-- The children that have places come in another order. -/
theorem rearranged (loosened : Loosened grown parsed w root id ids t₀ t) (has : w.Has id) :
    Loosened grown parsed w root id ids t₀
      { t with
        store := t.store.modify id fun l =>
          { l with children := t.order.arrange t.parses l.children } } := by
  obtain ⟨l, there⟩ := loosened.kept.exists_layer has
  have rooted := loosened.rooted.rearranged id
  have order := t.order.arrange_perm t.parses
  have tidy := loosened.kept.tidy.modify loosened.kept.rooted.shaped id
    (fun l => { l with children := t.order.arrange t.parses l.children })
    (fun l => (order l.children).subperm) (.inl fun _ => rfl)
  have founded := loosened.kept.founded.modify id
    (fun l => { l with children := t.order.arrange t.parses l.children })
    fun l => (order l.children).subset
  have some := loosened.kept.tree_isSome there
  refine ⟨loosened.kept.modify there rooted.shaped.of_add tidy founded some False.elim, rooted,
    fun is => ?_⟩
  exact (loosened.grown is).same id fun l _ => (order l.children).mem_iff.mpr

/-- Some of the children are removed. -/
theorem removeAll {children : List (Site × LayerId)}
    (loosened : Loosened grown parsed w root id (children.map (·.2) ++ ids) t₀ t)
    (ready : w.Ready id) (once : (children.map (·.2)).Nodup)
    (unwatched : ∀ x ∈ children.map (·.2), ¬w.Has x ∧ x ∉ ids) :
    Loosened grown parsed w root id ids t₀ { t with store := t.store.removeAll children } ∧
      (t.store.removeAll children).layer? id = t.layer? id := by
  have more : ∀ a p, (w.add (some id) (children.map (·.2) ++ ids)).loose a p ↔
      ((w.add (some id) ids).add (some id) (children.map (·.2))).loose a p := by
    intro a p
    simp only [Watch.add, List.mem_append, or_and_right, or_assoc]
    exact or_congr_right or_comm
  have shaped : t.store.Shaped ((w.add (some id) ids).add (some id) (children.map (·.2))) :=
    loosened.rooted.shaped.mono (fun a p => (more a p).mpr) fun _ _ _ known => known
  have removed := shaped.removeAll (ready.closed.add _ _) once fun x mem has =>
    (Watch.has_add.mp has).elim (unwatched x mem).1 (unwatched x mem).2
  have shrinks := (LayerStore.shrinks_removeAll shaped.sound children).2
  have accounted := (LayerStore.Accounted.refl t.store).removeAll children
  refine ⟨⟨loosened.kept.shrink ready.has removed.of_add shrinks accounted False.elim,
    loosened.rooted.store removed, fun is => ?_⟩, ?_⟩
  · exact ((loosened.grown is).mono fun a p => (more a p).mp).removeAll shaped.sound
  · obtain ⟨l, there⟩ := removed.of_add.exists_of_has ready.has
    rw [there, layer?, shrinks id l there]

variable {child : LayerId} (loosened : Loosened grown parsed w root id (child :: ids) t₀ t)
  (ready : w.Ready id) (unwatched : ¬w.Has child) (absent : child ∉ ids)

include loosened unwatched

/-- Work at one of the children has been done. -/
theorem work (has : w.Has id)
    (kept : Kept grown' False (w.add (some id) (child :: ids)) root child t t₁) :
    Loosened grown' parsed w root id (child :: ids) t₀ t₁ ∧ t₁.layer? id = t.layer? id := by
  have same : ∀ x, w.Has x → t₁.layer? x = t.layer? x := by
    intro x known
    refine kept.still x (Watch.has_add.mpr (.inl known)) ?_
    rintro rfl
    exact unwatched known
  refine ⟨⟨?_, kept.rooted, kept.grown⟩, same id has⟩
  constructor
  case rooted => exact ⟨kept.rooted.root, kept.rooted.shaped.of_add⟩
  case tidy => exact kept.tidy.mono fun _ _ _ known => known
  case founded => exact kept.founded
  case still => exact fun x known ne => (same x known).trans (loosened.kept.still x known ne)
  case parsed =>
    rw [tree?, same id has, ← tree?]
    exact loosened.kept.parsed
  case accounted => exact loosened.kept.accounted.trans kept.accounted
  case grown => exact False.elim

include ready absent

/-- One of the children is given a place, and its tree covers something. -/
theorem place {p : Option LayerId} (known : w.loose id p) (free : Free t id [site])
    (full : ∀ l, t.layer? child = some l → l.hasEmptyTree = false) :
    Loosened grown parsed w root id ids t₀ { t with store := t.store.modify id fun l =>
      { l with children := l.children.filter (·.1 ≠ site) ++ [(site, child)] } } := by
  have shaped := loosened.rooted.shaped
  obtain ⟨has, loose⟩ := shaped.loose (.inr ⟨List.mem_cons_self, rfl⟩)
  obtain ⟨l, there⟩ := loosened.kept.exists_layer ready.has
  have unwatched' : ¬(w.add (some id) ids).Has child :=
    fun has => (Watch.has_add.mp has).elim unwatched absent
  have fewer : t.store.Shaped (w.add (some id) ids) := shaped.mono
    (fun _ _ => Or.imp_right (And.imp_left (List.mem_cons_of_mem _))) fun _ _ _ known => known
  have attached := (fewer.attach
    (fun l => { l with children := l.children.filter (·.1 ≠ site) ++ [(site, child)] }) site
    has loose unwatched' (fun _ => rfl) fun l => ⟨_, List.filter_sublist, rfl⟩).of_pin
  have tidy : (t.store.modify id fun l =>
      { l with children := l.children.filter (·.1 ≠ site) ++ [(site, child)] }).Tidy w := by
    refine loosened.kept.tidy.attach (fun l' _ => ⟨_, List.filter_sublist, rfl,
      fun other mem => ?_⟩)
      (fun _ => rfl) (fun l' here empty => ?_) fun _ _ _ known => known
    · exact of_decide_eq_true (List.mem_filter.mp mem).2
    · cases (full l' here).symm.trans empty
  have some := loosened.kept.tree_isSome there
  -- The layer is no child, so none of its children leads to it.
  have apart : ¬t.store.Below child id := by
    intro below
    have ne : id ≠ child := by
      rintro rfl
      exact unwatched ready.has
    obtain ⟨y, site', -, holds⟩ := below.exists_holder ne
    exact (shaped.loose (.inl known)).2 y site' holds
  have founded : (t.store.modify id fun l =>
      { l with children := l.children.filter (·.1 ≠ site) ++ [(site, child)] }).Founded := by
    refine loosened.kept.founded.attach apart fun l' _ kid mem => ?_
    refine (List.mem_append.mp mem).imp (fun old => (List.mem_filter.mp old).1) fun new => ?_
    rw [List.mem_singleton.mp new]
  refine ⟨loosened.kept.modify there attached.of_add tidy founded some False.elim,
    loosened.rooted.store attached, fun is => ?_⟩
  refine (loosened.grown is).attach ?_ there apart (fun other mem => ?_)
    (List.mem_append_right _ (List.mem_singleton_self _))
  · rintro a p (known | ⟨mem, rfl⟩)
    · exact .inl (.inl known)
    · rcases List.mem_cons.mp mem with rfl | mem
      · exact .inr rfl
      · exact .inl (.inr ⟨mem, rfl⟩)
  · have differs : other.1 ≠ site := by
      simpa using free l there other mem
    exact List.mem_append_left _ (List.mem_filter.mpr ⟨mem, decide_eq_true differs⟩)

end Loosened

theorem foldlM_assign_kept (edit : TextEdit) (found : List (Site × Injection)) (a : Assignment)
    (loosened : Loosened grown parsed w root id ids t₀ t) (has : w.Has id)
    (unwatched : ∀ x ∈ a.orphans.map (·.2), ¬w.Has x) (places : (a.kept.map (·.1)).Nodup) :
    ∃ a' t', found.foldlM (assign edit) a t = .ok a' t' ∧
      Loosened grown parsed w root id ids t₀ t' ∧ t'.layer? id = t.layer? id ∧
      (a'.kept.map (·.1)).Nodup := by
  induction found generalizing a t with
  | nil => exact ⟨a, t, rfl, loosened, rfl, places⟩
  | cons part found ih =>
      obtain ⟨a₁, t₁, run, assigns⟩ := assign_assigns edit a part t
      obtain ⟨loosened₁, same₁⟩ := loosened.assign assigns unwatched has
      obtain ⟨a', t', run', loosened', same', places'⟩ := ih a₁ loosened₁
        (fun x mem => unwatched x (assigns.orphans mem)) (assigns.places places)
      refine ⟨a', t', ?_, loosened', same'.trans same₁, places'⟩
      rw [List.foldlM_cons, bind_ok run]
      exact run'

/-- A layer that is kept has a place again when it has been updated, or it is removed. -/
theorem keepChild_kept {update : LayerId → LayerM Unit} {sites : List Site}
    {p : Option LayerId} (updates : KeepsUpdating update)
    (loosened : Loosened grown parsed w root id (child :: ids) t₀ t) (ready : w.Ready id)
    (known : w.loose id p) (unwatched : ¬w.Has child) (absent : child ∉ ids)
    (free : Free t id (site :: sites)) (new : site ∉ sites) :
    Keeps (fun _ t' => Loosened grown parsed w root id ids t₀ t' ∧ Free t' id sites)
      (Kept False parsed w root id t₀) (keepChild update id (site, child) t) := by
  have start : Kept grown False (w.add (some id) (child :: ids)) root child t t :=
    .start loosened.rooted (loosened.kept.tidy.mono fun _ _ _ known => known) loosened.kept.founded
      loosened.grown
  have updated := updates _ _ _ _ _ _ _ _ start (ready.add unwatched List.mem_cons_self _)
    (.inr ⟨List.mem_cons_self, rfl⟩)
  rw [keepChild]
  refine Keeps.bind (updated.mono (fun _ _ kept => kept) fun t' kept =>
    (loosened.work unwatched ready.has kept).1.kept) ?_
  intro _ t₁ kept₁
  obtain ⟨loosened₁, same⟩ := loosened.work unwatched ready.has kept₁
  have free₁ : Free t₁ id (site :: sites) := by
    rw [Free, same]
    exact free
  rw [get_bind]
  split
  · have removed : Loosened grown parsed w root id ids t₀
        { t₁ with store := t₁.store.removeAll [(site, child)] } ∧ _ :=
      Loosened.removeAll loosened₁ ready (List.nodup_singleton child) fun x mem => by
        rw [List.mem_singleton.mp mem]
        exact ⟨unwatched, absent⟩
    refine ⟨removed.1, fun l there child mem held => ?_⟩
    exact free₁ l (removed.2.symm.trans there) child mem (List.mem_cons_of_mem _ held)
  · next full =>
      have placed := loosened₁.place ready unwatched absent known
        (fun l there child mem held => free₁ l there child mem
          (List.mem_singleton.mp held ▸ List.mem_cons_self))
        fun l there => by
          rw [there] at full
          simpa using full
      refine ⟨placed.rearranged ready.has, fun l' there other mem held => ?_⟩
      obtain ⟨l, before⟩ := loosened₁.kept.exists_layer ready.has
      have after := LayerStore.layer?_modify_self (LayerStore.layer?_modify_self before fun l =>
        { l with children := l.children.filter (·.1 ≠ site) ++ [(site, child)] }) fun l =>
        { l with children := t₁.order.arrange t₁.parses l.children }
      obtain rfl := Option.some.inj (after.symm.trans there)
      rcases List.mem_append.mp ((t₁.order.arrange_perm _ _).mem_iff.mp mem) with mem | mem
      · exact free₁ l before other (List.mem_filter.mp mem).1 (List.mem_cons_of_mem _ held)
      · rw [List.mem_singleton.mp mem] at held
        exact new held

theorem keepChildren_kept {update : LayerId → LayerM Unit} {children : List (Site × LayerId)}
    {p : Option LayerId} (updates : KeepsUpdating update)
    (loosened : Loosened grown parsed w root id (children.map (·.2)) t₀ t) (ready : w.Ready id)
    (known : w.loose id p) (unwatched : ∀ x ∈ children.map (·.2), ¬w.Has x)
    (once : (children.map (·.2)).Nodup) (places : (children.map (·.1)).Nodup)
    (free : Free t id (children.map (·.1))) :
    Keeps (fun _ => Kept grown parsed w root id t₀) (Kept False parsed w root id t₀)
      (children.forM (keepChild update id) t) := by
  induction children generalizing t with
  | nil => exact loosened.done
  | cons child children ih =>
      rw [List.map_cons] at loosened unwatched once places free
      obtain ⟨unwatchedChild, unwatched⟩ := List.forall_mem_cons.mp unwatched
      obtain ⟨absent, once⟩ := List.nodup_cons.mp once
      obtain ⟨new, places⟩ := List.nodup_cons.mp places
      rw [List.forM_eq_forM, List.forM_cons]
      refine Keeps.bind
        (keepChild_kept updates loosened ready known unwatchedChild absent free new) ?_
      exact fun _ t₁ ⟨loosened₁, free₁⟩ => ih loosened₁ unwatched once places free₁

theorem settle_kept {update parse : LayerId → LayerM Unit} {a : Assignment} {p : Option LayerId}
    (updates : KeepsUpdating update) (parses : KeepsParsing parse)
    (loosened : Loosened grown parsed w root id a.ids t₀ t) (ready : w.Ready id)
    (known : w.loose id p) (unwatched : ∀ x ∈ a.ids, ¬w.Has x) (once : a.ids.Nodup)
    (places : (a.kept.map (·.1)).Nodup) (free : Free t id (a.kept.map (·.1))) :
    Keeps (fun _ => Kept grown parsed w root id t₀) (Kept False parsed w root id t₀)
      (settle update parse id a t) := by
  rw [Assignment.ids, List.map_append] at loosened unwatched once
  obtain ⟨onceOrphans, onceKept, apart⟩ := List.nodup_append.mp once
  obtain ⟨unwatchedOrphans, unwatchedKept⟩ := List.forall_mem_append.mp unwatched
  rw [settle, onStore_bind, get_bind]
  obtain ⟨removed, same⟩ := loosened.removeAll ready onceOrphans fun x mem =>
    ⟨unwatchedOrphans x mem, fun kept => apart x mem x kept rfl⟩
  have order {β : Type} (f : Site × LayerId → β) :
      ((t.order.arrange t.parses a.kept).map f).Perm (a.kept.map f) :=
    (t.order.arrange_perm t.parses a.kept).map f
  have kept := keepChildren_kept updates (removed.perm (order (·.2)).symm) ready known
    (fun x mem => unwatchedKept x ((order (·.2)).mem_iff.mp mem))
    ((order (·.2)).nodup_iff.mpr onceKept) ((order (·.1)).nodup_iff.mpr places)
    fun l there child mem held => free l (same.symm.trans there) child mem
      ((order (·.1)).mem_iff.mp held)
  refine Keeps.bind kept fun _ t₁ kept₁ => ?_
  refine (Keeps.forM _ (fun p t kept => createChild_kept parses kept ready p) kept₁).mono
    (fun _ _ kept => kept) fun _ kept => kept.mono False.elim fun is => is

theorem updateChildren_kept {update parse : LayerId → LayerM Unit} {p : Option LayerId}
    (engine : Engine) (edit : TextEdit) (updates : KeepsUpdating update)
    (parses : KeepsParsing parse) (kept : Kept grown parsed w root id t₀ t) (ready : w.Ready id)
    (known : w.loose id p) :
    Keeps (fun _ => Kept grown parsed w root id t₀) (Kept False parsed w root id t₀)
      (updateChildren engine update parse edit id t) := by
  rw [updateChildren]
  refine keeps_injections_bind fun found t₁ alike => ?_
  have kept₁ := kept.congr alike.store alike.root
  rw [get_bind]
  obtain ⟨l, there⟩ := kept₁.exists_layer ready.has
  rw [there]
  dsimp only
  rw [modifyLayer_bind]
  obtain ⟨loosened, free⟩ := kept₁.loosen there
  have shaped := kept₁.rooted.shaped
  have unwatched := shaped.unwatched ready there
  obtain ⟨a, t₃, run₃, loosened₃, same, places⟩ :=
    foldlM_assign_kept edit found { orphans := l.children } loosened ready.has unwatched
      List.nodup_nil
  obtain ⟨a', t₃', run₃', -, perm⟩ :=
    foldlM_assign_rooted edit found { orphans := l.children } loosened.rooted
  obtain ⟨rfl, rfl⟩ := EStateM.Result.ok.inj (run₃.symm.trans run₃')
  rw [bind_ok run₃]
  have all : (Assignment.ids { orphans := l.children }) = l.children.map (·.2) := by
    rw [Assignment.ids, List.append_nil]
  rw [all] at perm
  refine settle_kept updates parses (loosened₃.perm perm.symm) ready known
    (fun x mem => unwatched x (perm.mem_iff.mp mem))
      (perm.nodup_iff.mpr (shaped.once there)) places ?_
  rw [Free, same]
  exact free _

/-- A layer is given a tree and keeps its children. -/
theorem Kept.withTree (kept : Kept grown parsed w root id t₀ t) (there : t.layer? id = some l)
    (has : w.Has id) (tree : ParsedTree) :
    Kept grown parsed w root id t₀ { t with
      store := t.store.modify id fun l => { l with tree := some tree } } :=
  kept.modify there (kept.rooted.shaped.modify (fun _ => rfl) fun _ => .refl _)
    (kept.tidy.modify kept.rooted.shaped id _ (fun _ => .refl _) (.inr has))
    (kept.founded.modify id _ fun _ => List.Subset.refl _) (fun _ => rfl)
    fun is => (kept.grown is).same id fun _ _ mem => mem

/-- Where a layer cannot be parsed again it has its tree, and nothing else has changed. -/
theorem parseAgain_kept (kept : Kept grown parsed w root id t₀ t) (has : w.Has id) (edit : TextEdit)
    (there : t.layer? id = some l) (old : ParsedTree) :
    Keeps (fun _ t' => t'.store = t.store ∧ t'.root = t.root) (Kept grown parsed w root id t₀)
      (parseAgain engine edit id l old t) := by
  have parsed := parsePart_store engine l t
  rw [parseAgain]
  cases run : parsePart engine l t with
  | ok tree t' =>
      rw [run] at parsed
      exact parsed
  | error e t' =>
      rw [run] at parsed
      obtain ⟨store, same⟩ := parsed
      have there' : t'.layer? id = some l := by rw [layer?, store, ← layer?, there]
      exact (kept.congr store same).withTree there' has _

theorem updateLayer_kept (engine : Engine) (edit : TextEdit) (depth : Nat) :
    KeepsUpdating (updateLayer engine edit depth) := by
  induction depth with
  | zero => exact fun _ _ _ _ _ _ _ _ kept _ _ => kept.mono False.elim fun is => is
  | succ depth ih =>
      intro grown parsed w root id p t₀ t kept ready known
      obtain ⟨l, there⟩ := kept.exists_layer ready.has
      rw [updateLayer, get_bind, there]
      dsimp only
      cases l.tree with
      | none => exact kept
      | some old =>
          refine Keeps.bind ((parseAgain_kept kept ready.has edit there old).mono
            (fun _ _ same => same) fun t' kept => kept.mono False.elim fun is => is) ?_
          rintro tree t₁ ⟨store, same⟩
          rw [modifyLayer_bind]
          have there₁ : t₁.layer? id = some l := by rw [layer?, store, ← layer?, there]
          exact updateChildren_kept engine edit ih (parseLayer_kept engine depth)
            ((kept.congr store same).withTree there₁ ready.has tree) ready known

/-! ### Runs -/

/-- The layers are a tidy tree, and a root without a tree has no children. -/
structure Orderly (t : LayerTree) : Prop where
  shaped : t.store.Shaped (.ofRoot t.root)
  tidy : t.store.Tidy (.ofRoot t.root)
  founded : t.store.Founded
  planted : ∀ l, t.layer? t.root = some l → l.tree = none → l.children = []

variable {text : TextBuffer} {edit : TextEdit} {language : Language} {registry : Option Registry}

/-- What is kept by a run that has left all layers as they were or has given the root a tree. -/
theorem Kept.orderly (orderly : t.Orderly)
    (kept : Kept grown parsed (.ofRoot t.root) t.root t.root t t')
    (either : t'.store = t.store ∨ (t'.tree? t.root).isSome) : t'.Orderly := by
  have root := kept.rooted.root
  refine ⟨?_, ?_, kept.founded, fun l there none => ?_⟩
  · rw [root]
    exact kept.rooted.shaped
  · rw [root]
    exact kept.tidy
  · rw [root] at there
    rcases either with store | some
    · rw [layer?, store] at there
      exact orderly.planted l there none
    · rw [tree?, there, Option.bind_some, none] at some
      cases some

/-- A run begins when layers are in order. -/
theorem Orderly.start (orderly : t.Orderly) (grows : grown → t.store.Grown (.ofRoot t.root)) :
    Kept grown False (.ofRoot t.root) t.root t.root t t :=
  .start ⟨rfl, orderly.shaped⟩ orderly.tidy orderly.founded grows

theorem parse_kept (start : Kept grown False w t.root t.root t t) (ready : w.Ready t.root)
    (engine : Engine) (text : TextBuffer) :
    Keeps (fun _ => Kept grown True w t.root t.root t)
      (fun t' => Kept grown False w t.root t.root t t' ∧
        (t'.store = t.store ∨ (t'.tree? t.root).isSome)) (parse engine text t) := by
  rw [parse, modify_bind, get_bind]
  exact parseLayer_kept engine _ _ _ _ _ _ _ _ (start.congr rfl rfl) ready

theorem applyEdit_kept {p : Option LayerId} (start : Kept grown False w t.root t.root t t)
    (ready : w.Ready t.root) (known : w.loose t.root p) (engine : Engine) (edit : TextEdit)
    (text : TextBuffer) :
    Keeps (fun _ => Kept grown True w t.root t.root t)
      (fun t' => Kept (grown ∧ t.isParsed = false) False w t.root t.root t t' ∧
        (t'.store = t.store ∨ (t'.tree? t.root).isSome)) (applyEdit engine edit text t) := by
  rw [applyEdit, get_bind]
  by_cases isParsed : t.isParsed = true
  · rw [if_pos isParsed, modify_bind, get_bind]
    have planted : Kept grown True w t.root t.root t t := { start with parsed := fun _ => isParsed }
    have begun : Kept grown True w t.root t.root t { t with text } := planted.congr rfl rfl
    have updated := updateLayer_kept engine edit engine.depth _ _ _ _ _ _ _ _ begun ready known
    refine updated.mono (fun _ _ kept => kept) fun t' kept =>
      ⟨kept.mono (fun both => ?_) False.elim, .inr (kept.parsed trivial)⟩
    cases isParsed.symm.trans both.2
  · rw [if_neg isParsed]
    exact (parse_kept start ready engine text).mono (fun _ _ kept => kept) fun t' kept =>
      ⟨kept.1.mono (fun both => both.1) fun is => is, kept.2⟩

theorem orderly_unparsed (language : Language) (registry : Option Registry) (reports : QueryReports)
    (order : MapOrder) : (unparsed language registry reports order).Orderly := by
  have empty : ({} : LayerStore).Sound := ⟨.nil, fun slot mem => absurd mem List.not_mem_nil⟩
  obtain ⟨-, -, layers⟩ := LayerStore.layer?_insert empty (.unparsed language none none)
  have childless : ∀ {id l}, (unparsed language registry reports order).store.layer? id = some l →
      l.children = [] := by
    intro id l there
    replace there := (layers id).symm.trans there
    split at there
    · cases there
      rfl
    · cases there
  refine ⟨shaped_unparsed language registry reports order, ⟨fun there => ?_, ?_⟩,
    ⟨fun x => ⟨x, ?_⟩⟩, fun l there _ => ?_⟩
  · rw [childless there]
    exact List.nodup_nil
  · rintro id site x l ⟨lₚ, above, mem⟩ -
    rw [childless above] at mem
    cases mem
  · rintro y ⟨site, l, above, mem⟩
    rw [childless above] at mem
    cases mem
  · exact childless there

/-- Layers are always in order. -/
theorem Touched.orderly (touched : Touched engine language registry t) : t.Orderly := by
  induction touched with
  | unparsed reports order => exact orderly_unparsed language registry reports order
  | report reports _ ih => exact ⟨ih.shaped, ih.tidy, ih.founded, ih.planted⟩
  | @parse t text _ ih =>
      exact (parse_kept (ih.start False.elim) (Watch.ready_ofRoot t.root) engine text).stateOf
        (fun _ _ kept => kept.orderly ih (.inr (kept.parsed trivial)))
        fun _ kept => kept.1.orderly ih kept.2
  | @edit t edit text _ ih =>
      exact (applyEdit_kept (ih.start False.elim) (Watch.ready_ofRoot t.root)
        ⟨rfl, rfl⟩ engine edit text).stateOf
        (fun _ _ kept => kept.orderly ih (.inr (kept.parsed trivial)))
        fun _ kept => kept.1.orderly ih kept.2

end LayerTree

end CodeEditor.Layer

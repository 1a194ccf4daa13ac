import CodeEditor.Proofs.Layer.Assignment
import CodeEditor.Proofs.Layer.Shape
import CodeEditor.Proofs.Layer.Upkeep

/-!
The layers of a document as one tree.

Whatever parses and edits are done, and also where they stop, the layers below the root are the
nodes of a tree with it (`Touched.shaped`). Nothing is said of the parser, which may give any trees
and the same site to different nodes. A step of a run may be done to a layer while others are worked
on: `Ready` says that the layer is there and that no child of it is being worked on, and
`KeepsRooted` that the step forgets nothing that is known of the others.
-/

namespace CodeEditor.Layer

open Syntax (Language Registry)
open LayerStore (Watch)

namespace LayerStore

/-- The layer is known to be there, and none of its children is pinned. -/
structure Watch.Ready (w : Watch) (id : LayerId) : Prop where
  closed : w.Closed
  has : w.Has id
  free : ∀ x site, ¬w.pinned x id site

theorem Watch.ready_ofRoot (root : LayerId) : (Watch.ofRoot root).Ready root :=
  ⟨fun _ _ _ => False.elim, .inl ⟨none, rfl, rfl⟩, fun _ _ => id⟩

/-- Nothing is known of the children of a layer that is ready. -/
theorem Shaped.unwatched {s : LayerStore} {w : Watch} {id : LayerId} {l : SyntaxLayer}
    (shaped : s.Shaped w) (ready : w.Ready id) (there : s.layer? id = some l) :
    ∀ x ∈ l.children.map (·.2), ¬w.Has x := by
  intro x mem has
  obtain ⟨⟨site, child⟩, among, rfl⟩ := List.mem_map.mp mem
  obtain ⟨site', pinned⟩ := shaped.exists_pinned ⟨l, there, among⟩ has
  exact ready.free child site' pinned

/-- A layer can be worked on while its parent is. -/
theorem Watch.Ready.pin {w : Watch} {parent child : LayerId} (ready : w.Ready parent)
    (unwatched : ¬w.Has child) (site : Site) : (w.pin child parent site).Ready child := by
  refine ⟨ready.closed.pin ready.has child site, Watch.has_pin.mpr (.inr rfl), ?_⟩
  rintro x site' (pinned | ⟨-, rfl, -⟩)
  · exact unwatched (ready.closed x child site' pinned)
  · exact unwatched ready.has

/-- A loose layer can be worked on. -/
theorem Watch.Ready.add {w : Watch} {parent child : LayerId} {ids : List LayerId}
    (ready : w.Ready parent) (unwatched : ¬w.Has child) (mem : child ∈ ids) (p : Option LayerId) :
    (w.add p ids).Ready child :=
  ⟨ready.closed.add p ids, Watch.has_add.mpr (.inr mem),
    fun x site pinned => unwatched (ready.closed x child site pinned)⟩

end LayerStore

namespace LayerTree

/-- The layers are the nodes of a tree, with a given root. -/
structure Rooted (w : Watch) (root : LayerId) (t : LayerTree) : Prop where
  root : t.root = root
  shaped : t.store.Shaped w

/-- A step at a layer keeps the layers a tree and all that is known of others. -/
def KeepsRooted (step : LayerId → LayerM Unit) : Prop :=
  ∀ w root t id, Rooted w root t → w.Ready id →
    Keeps (fun _ => Rooted w root) (Rooted w root) (step id t)

variable {w : Watch} {root id parent : LayerId} {t t' : LayerTree} {engine : Engine}

theorem Rooted.congr (rooted : Rooted w root t) (same : t.Alike t') : Rooted w root t' :=
  ⟨same.root.trans rooted.root, same.store ▸ rooted.shaped⟩

theorem Rooted.store {w' : Watch} {s : LayerStore} (rooted : Rooted w root t)
    (shaped : s.Shaped w') :
    Rooted w' root { t with store := s } :=
  ⟨rooted.root, shaped⟩

/-- The children of a layer come in another order. -/
theorem Rooted.rearranged (rooted : Rooted w root t) (id : LayerId) : Rooted w root
    { t with
      store := t.store.modify id fun l =>
        { l with children := t.order.arrange t.parses l.children } } :=
  rooted.store (rooted.shaped.modify (fun _ => rfl) fun _ => (t.order.arrange_perm _ _).subperm)

/-! ### Parsing -/

theorem parsePart_rooted (rooted : Rooted w root t) (engine : Engine) (l : SyntaxLayer) :
    Keeps (fun _ => Rooted w root) (Rooted w root) (parsePart engine l t) := by
  rw [parsePart, get_bind, set_bind]
  cases engine.parse t.parses l.language t.text l.range with
  | error e => exact ⟨rooted.root, rooted.shaped⟩
  | ok tree => exact ⟨rooted.root, rooted.shaped⟩

/-- Where a layer cannot be parsed again it keeps its children. -/
theorem parseAgain_rooted (rooted : Rooted w root t) (edit : TextEdit) (l : SyntaxLayer)
    (old : ParsedTree) :
    Keeps (fun _ => Rooted w root) (Rooted w root) (parseAgain engine edit id l old t) := by
  have parsed := parsePart_rooted rooted engine l
  rw [parseAgain]
  cases run : parsePart engine l t with
  | ok tree t' =>
      rw [run] at parsed
      exact parsed
  | error e t' =>
      rw [run] at parsed
      exact Rooted.store parsed ((Rooted.shaped parsed).modify (fun _ => rfl) fun _ => .refl _)

theorem createChild_rooted {parse : LayerId → LayerM Unit} (parses : KeepsRooted parse)
    (rooted : Rooted w root t) (ready : w.Ready parent) (p : InjectedPart) :
    Keeps (fun _ => Rooted w root) (Rooted w root) (createChild parse parent p t) := by
  rw [createChild, get_bind]
  cases t.layer? parent with
  | none => exact rooted
  | some l =>
      dsimp only
      by_cases taken : (l.child? p.site).isSome = true
      · rw [if_pos taken]
        exact rooted
      · rw [if_neg taken, onStore_bind, modifyLayer_bind, rearrange_bind]
        obtain ⟨inserted, unwatched⟩ := rooted.shaped.insert
          (l := .unparsed p.language (some parent) (some p.injection.byteRange)) rfl
        dsimp only
        generalize t.store.insert _ = made at inserted unwatched ⊢
        obtain ⟨has, loose⟩ := inserted.loose (.inr ⟨List.mem_singleton_self made.1, rfl⟩)
        have attached := inserted.of_add.attach
          (fun l => { l with children := l.children ++ [(p.site, made.1)] }) p.site has loose
            unwatched
          (fun _ => rfl) fun l => ⟨_, .refl _, rfl⟩
        have detach : ∀ t', Rooted (w.pin made.1 parent p.site) root t' →
            Rooted w root { t' with store := t'.store.detach parent p.site made.1 } :=
          fun t' rooted' => rooted'.store (rooted'.shaped.detach ready.closed unwatched)
        have parsed := parses _ root _ made.1 ((rooted.store attached).rearranged parent)
          (ready.pin unwatched p.site)
        refine Keeps.bind (?parsed :
          Keeps (fun _ => Rooted (w.pin made.1 parent p.site) root) (Rooted w root) _) ?_
        case parsed =>
          dsimp only at parsed ⊢
          generalize parse made.1 _ = result at parsed ⊢
          cases result with
          | ok _ t' => exact parsed
          | error e t' => exact detach t' parsed
        · intro _ t' rooted'
          rw [get_bind]
          split
          · exact detach t' rooted'
          · exact ⟨rooted'.root, rooted'.shaped.of_pin⟩

theorem createInjected_rooted {parse : LayerId → LayerM Unit} (parses : KeepsRooted parse)
    (rooted : Rooted w root t) (ready : w.Ready parent) (part : Site × Injection) :
    Keeps (fun _ => Rooted w root) (Rooted w root) (createInjected parse parent part t) := by
  obtain ⟨site, injection⟩ := part
  rw [createInjected, get_bind]
  cases t.language? injection.languageName with
  | none => exact rooted
  | some language => exact createChild_rooted parses rooted ready _

theorem parseLayer_rooted (engine : Engine) (depth : Nat) :
    KeepsRooted (parseLayer engine depth) := by
  induction depth with
  | zero => exact fun w root t id rooted _ => rooted
  | succ depth ih =>
      intro w root t id rooted ready
      rw [parseLayer, get_bind]
      cases t.layer? id with
      | none => exact rooted
      | some l =>
          refine Keeps.bind (parsePart_rooted rooted engine l) ?_
          intro tree t₁ rooted₁
          rw [get_bind]
          cases there : t₁.layer? id with
          | none => exact rooted₁
          | some l₁ =>
              dsimp only
              rw [modifyLayer_bind, onStore_bind]
              have shaped := rooted₁.shaped
              have drained := shaped.drain (fun l => { l with tree := some tree, children := [] })
                there (fun _ => rfl) fun _ => rfl
              have removed := drained.removeAll ready.closed (shaped.once there)
                (shaped.unwatched ready there)
              obtain ⟨found, t₂, run, same⟩ := injections_keeps engine id _
              rw [bind_ok run]
              exact Keeps.forM found
                (fun part t rooted => createInjected_rooted ih rooted ready part)
                ((rooted₁.store removed).congr same)

/-! ### Updates -/

/-- A part is assigned a layer or needs a new one. The layers are the same as before. -/
theorem assign_rooted (edit : TextEdit) (a : Assignment) (part : Site × Injection)
    (rooted : Rooted w root t) :
    ∃ a' t', assign edit a part t = .ok a' t' ∧ Rooted w root t' ∧ a'.ids.Perm a.ids := by
  obtain ⟨site, injection⟩ := part
  rw [assign]
  by_cases taken : (a.kept.lookup site).isSome = true
  · rw [if_pos taken]
    exact ⟨a, t, rfl, rooted, .refl _⟩
  · rw [if_neg taken, get_bind]
    cases t.language? injection.languageName with
    | none => exact ⟨a, t, rfl, rooted, .refl _⟩
    | some language =>
        dsimp only
        rw [get_bind]
        cases chosen : t.adopt? edit a.orphans ⟨site, injection, language⟩ with
        | none => exact ⟨_, t, rfl, rooted, .refl _⟩
        | some choice =>
            obtain ⟨child, rest⟩ := choice
            obtain ⟨k, l, perm, -, -⟩ := of_adopt? chosen
            dsimp only
            rw [modifyLayer_bind]
            refine ⟨_, _, rfl, rooted.store
              (rooted.shaped.modify (fun _ => rfl) fun _ => .refl _), ?_⟩
            have moved := (perm.map (·.2)).append_right (a.kept.map (·.2))
            rw [Assignment.ids, Assignment.ids, List.map_append, List.map_append]
            exact List.perm_middle.trans moved.symm

theorem foldlM_assign_rooted (edit : TextEdit) (found : List (Site × Injection)) (a : Assignment)
    (rooted : Rooted w root t) :
    ∃ a' t', found.foldlM (assign edit) a t = .ok a' t' ∧ Rooted w root t' ∧ a'.ids.Perm a.ids := by
  induction found generalizing a t with
  | nil => exact ⟨a, t, rfl, rooted, .refl _⟩
  | cons part found ih =>
      obtain ⟨a₁, t₁, run, rooted₁, perm₁⟩ := assign_rooted edit a part rooted
      obtain ⟨a', t', run', rooted', perm'⟩ := ih a₁ rooted₁
      refine ⟨a', t', ?_, rooted', perm'.trans perm₁⟩
      rw [List.foldlM_cons, bind_ok run]
      exact run'

/-- A layer that is kept is a child again, or it is removed. -/
theorem keepChild_rooted {update : LayerId → LayerM Unit} {ids : List LayerId} {child : LayerId}
    (site : Site) (updates : KeepsRooted update)
    (rooted : Rooted (w.add (some id) (child :: ids)) root t) (ready : w.Ready id)
    (unwatched : ¬w.Has child) (absent : child ∉ ids) :
    Keeps (fun _ => Rooted (w.add (some id) ids) root) (Rooted (w.add (some id) ids) root)
      (keepChild update id (site, child) t) := by
  have fewer {t : LayerTree} (rooted : Rooted (w.add (some id) (child :: ids)) root t) :
      Rooted (w.add (some id) ids) root t :=
    ⟨rooted.root, rooted.shaped.mono
      (fun _ _ => Or.imp_right (And.imp_left (List.mem_cons_of_mem _))) fun _ _ _ known => known⟩
  have updated := updates _ root t child rooted (ready.add unwatched List.mem_cons_self _)
  rw [keepChild]
  refine Keeps.bind (updated.mono (fun _ _ rooted => rooted) fun _ => fewer) ?_
  intro _ t₁ rooted₁
  obtain ⟨has, loose⟩ := rooted₁.shaped.loose (.inr ⟨List.mem_cons_self, rfl⟩)
  have unwatched' : ¬(w.add (some id) ids).Has child :=
    fun has => (Watch.has_add.mp has).elim unwatched absent
  rw [get_bind]
  split
  · exact rooted₁.store ((fewer rooted₁).shaped.remove (ready.closed.add _ _) loose unwatched')
  · have attached := (fewer rooted₁).shaped.attach
      (fun l => { l with children := l.children.filter (·.1 ≠ site) ++ [(site, child)] }) site
      has loose unwatched' (fun _ => rfl) fun l => ⟨_, List.filter_sublist, rfl⟩
    exact Rooted.rearranged (rooted₁.store attached.of_pin) id

theorem keepChildren_rooted {update : LayerId → LayerM Unit} {children : List (Site × LayerId)}
    (updates : KeepsRooted update)
    (rooted : Rooted (w.add (some id) (children.map (·.2))) root t) (ready : w.Ready id)
    (unwatched : ∀ x ∈ children.map (·.2), ¬w.Has x) (once : (children.map (·.2)).Nodup) :
    Keeps (fun _ => Rooted w root) (Rooted w root) (children.forM (keepChild update id) t) := by
  induction children generalizing t with
  | nil => exact ⟨rooted.root, rooted.shaped.of_add⟩
  | cons child children ih =>
      rw [List.map_cons] at rooted unwatched once
      obtain ⟨unwatchedChild, unwatched⟩ := List.forall_mem_cons.mp unwatched
      obtain ⟨absent, once⟩ := List.nodup_cons.mp once
      rw [List.forM_eq_forM, List.forM_cons]
      have kept := keepChild_rooted child.1 updates rooted ready unwatchedChild absent
      refine Keeps.bind (kept.mono (fun _ _ rooted => rooted) fun _ rooted =>
        ⟨rooted.root, rooted.shaped.of_add⟩) ?_
      exact fun _ t₁ rooted₁ => ih rooted₁ unwatched once

theorem settle_rooted {update parse : LayerId → LayerM Unit} {a : Assignment}
    (updates : KeepsRooted update) (parses : KeepsRooted parse)
    (rooted : Rooted (w.add (some id) a.ids) root t) (ready : w.Ready id)
    (unwatched : ∀ x ∈ a.ids, ¬w.Has x) (once : a.ids.Nodup) :
    Keeps (fun _ => Rooted w root) (Rooted w root) (settle update parse id a t) := by
  rw [Assignment.ids, List.map_append] at rooted unwatched once
  obtain ⟨onceOrphans, onceKept, apart⟩ := List.nodup_append.mp once
  obtain ⟨unwatchedOrphans, unwatchedKept⟩ := List.forall_mem_append.mp unwatched
  rw [settle, onStore_bind, get_bind]
  have both : t.store.Shaped ((w.add (some id) (a.kept.map (·.2))).add (some id)
      (a.orphans.map (·.2))) := by
    refine rooted.shaped.mono ?_ fun _ _ _ known => known
    rintro x p ((known | ⟨mem, rfl⟩) | ⟨mem, rfl⟩)
    · exact .inl known
    · exact .inr ⟨List.mem_append_right _ mem, rfl⟩
    · exact .inr ⟨List.mem_append_left _ mem, rfl⟩
  have removed := both.removeAll (ready.closed.add _ _) onceOrphans fun x mem has => by
    rcases Watch.has_add.mp has with has | kept
    · exact unwatchedOrphans x mem has
    · exact apart x mem x kept rfl
  have order := (t.order.arrange_perm t.parses a.kept).map (·.2)
  have watched : Rooted (w.add (some id) ((t.order.arrange t.parses a.kept).map (·.2))) root
      { t with store := t.store.removeAll a.orphans } :=
    rooted.store (removed.mono (fun _ _ => Or.imp_right (And.imp_left order.mem_iff.mp))
      fun _ _ _ known => known)
  have kept := keepChildren_rooted updates watched ready
    (fun x mem => unwatchedKept x (order.mem_iff.mp mem)) (order.nodup_iff.mpr onceKept)
  refine Keeps.bind kept ?_
  intro _ t₁ rooted₁
  exact Keeps.forM _ (fun p t rooted => createChild_rooted parses rooted ready p) rooted₁

theorem updateChildren_rooted {update parse : LayerId → LayerM Unit} (engine : Engine)
    (edit : TextEdit) (updates : KeepsRooted update) (parses : KeepsRooted parse)
    (rooted : Rooted w root t) (ready : w.Ready id) :
    Keeps (fun _ => Rooted w root) (Rooted w root)
      (updateChildren engine update parse edit id t) := by
  obtain ⟨found, t₁, run, same⟩ := injections_keeps engine id t
  have rooted₁ := rooted.congr same
  rw [updateChildren, bind_ok run, get_bind]
  cases there : t₁.layer? id with
  | none => exact rooted₁
  | some l =>
      dsimp only
      rw [modifyLayer_bind]
      have shaped := rooted₁.shaped
      have drained := shaped.drain (fun l => { l with children := [] }) there (fun _ => rfl)
        fun _ => rfl
      obtain ⟨a, t₂, run₂, rooted₂, perm⟩ :=
        foldlM_assign_rooted edit found { orphans := l.children } (rooted₁.store drained)
      rw [bind_ok run₂]
      have all : (Assignment.ids { orphans := l.children }) = l.children.map (·.2) := by
        rw [Assignment.ids, List.append_nil]
      rw [all] at perm
      refine settle_rooted updates parses
        ⟨rooted₂.root, rooted₂.shaped.mono ?_ fun _ _ _ known => known⟩ ready
        (fun x mem => shaped.unwatched ready there x (perm.mem_iff.mp mem))
        (perm.nodup_iff.mpr (shaped.once there))
      exact fun x p => Or.imp_right (And.imp_left perm.mem_iff.mp)

theorem updateLayer_rooted (engine : Engine) (edit : TextEdit) (depth : Nat) :
    KeepsRooted (updateLayer engine edit depth) := by
  induction depth with
  | zero => exact fun w root t id rooted _ => rooted
  | succ depth ih =>
      intro w root t id rooted ready
      rw [updateLayer, get_bind]
      cases t.layer? id with
      | none => exact rooted
      | some l =>
          dsimp only
          cases l.tree with
          | none => exact rooted
          | some old =>
              refine Keeps.bind (parseAgain_rooted rooted edit l old) ?_
              intro tree t₁ rooted₁
              rw [modifyLayer_bind]
              exact updateChildren_rooted engine edit ih (parseLayer_rooted engine depth)
                (rooted₁.store (rooted₁.shaped.modify (fun _ => rfl) fun _ => .refl _)) ready

/-! ### Runs -/

variable {language : Language} {registry : Option Registry}

theorem shaped_unparsed (language : Language) (registry : Option Registry) (reports : QueryReports)
    (order : MapOrder) : (unparsed language registry reports order).store.Shaped
      (.ofRoot (unparsed language registry reports order).root) := by
  have vacant {id : LayerId} : ({} : LayerStore).layer? id = none := rfl
  have empty : ({} : LayerStore).Shaped ⟨fun _ _ => False, fun _ _ _ => False⟩ := by
    constructor
    case sound => exact ⟨.nil, fun slot mem => absurd mem List.not_mem_nil⟩
    case parent =>
      rintro id site x ⟨l, there, -⟩
      cases vacant.symm.trans there
    case once =>
      intro id l there
      cases vacant.symm.trans there
    case loose => exact False.elim
    case pinned => exact False.elim
  obtain ⟨inserted, -⟩ := empty.insert (l := .unparsed language none none) rfl
  refine inserted.mono (fun x p => ?_) fun _ _ _ => False.elim
  rintro ⟨rfl, rfl⟩
  exact .inr ⟨List.mem_singleton_self _, rfl⟩

theorem parse_rooted (shaped : t.store.Shaped (.ofRoot t.root)) (engine : Engine)
    (text : TextBuffer) :
    Keeps (fun _ => Rooted (.ofRoot t.root) t.root) (Rooted (.ofRoot t.root) t.root)
      (parse engine text t) := by
  rw [parse, modify_bind, get_bind]
  exact parseLayer_rooted engine _ _ _ _ _ ⟨rfl, shaped⟩ (Watch.ready_ofRoot t.root)

theorem applyEdit_rooted (shaped : t.store.Shaped (.ofRoot t.root)) (engine : Engine)
    (edit : TextEdit) (text : TextBuffer) :
    Keeps (fun _ => Rooted (.ofRoot t.root) t.root) (Rooted (.ofRoot t.root) t.root)
      (applyEdit engine edit text t) := by
  rw [applyEdit, get_bind]
  split
  · rw [modify_bind, get_bind]
    exact updateLayer_rooted engine edit _ _ _ _ _ ⟨rfl, shaped⟩ (Watch.ready_ofRoot t.root)
  · exact parse_rooted shaped engine text

/-- The layers below the root are always the nodes of a tree with it. -/
theorem Touched.shaped (touched : Touched engine language registry t) :
    t.store.Shaped (.ofRoot t.root) := by
  have behind {t : LayerTree} {r : EStateM.Result Stop LayerTree Unit}
      (keeps : Keeps (fun _ => Rooted (.ofRoot t.root) t.root) (Rooted (.ofRoot t.root) t.root) r) :
      (stateOf r).store.Shaped (.ofRoot (stateOf r).root) := by
    have rooted : Rooted (.ofRoot t.root) t.root (stateOf r) :=
      keeps.stateOf (fun _ _ rooted => rooted) fun _ rooted => rooted
    rw [rooted.root]
    exact rooted.shaped
  induction touched with
  | unparsed reports order => exact shaped_unparsed language registry reports order
  | report reports _ ih => exact ih
  | parse text _ ih => exact behind (parse_rooted ih engine text)
  | edit edit text _ ih => exact behind (applyEdit_rooted ih engine edit text)

end LayerTree

end CodeEditor.Layer

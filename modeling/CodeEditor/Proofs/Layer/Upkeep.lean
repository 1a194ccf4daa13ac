import CodeEditor.Proofs.Failure
import CodeEditor.Proofs.Layer.Parse
import CodeEditor.Proofs.Syntax.Mark
import CodeEditor.Proofs.Syntax.Node

/-!
Layers of the text at hand.

A parser may fail at any layer, and what was done so far stays. `Ordered` is what holds of all
layers, also where a run has stopped. `Upkept` is what holds while a text is parsed or an edit is
taken over: a tree that came out of a parse of this run is one that the parser gave for the text,
and below a layer with such a tree there are none from before. A run that comes to its end has
parsed the root, so all layers that are seen from it have trees of the text, whatever failed before
(`gives_of_seen`).
-/

namespace CodeEditor.Layer

open Syntax (Node Language Registry)

/-- The tree is one that a parser gave for a text or a part of it. -/
def Engine.Gives (engine : Engine) (text : TextBuffer) (root : Node) : Prop :=
  ∃ n language range, engine.parse n language text range = .ok root

/-- A parser says of every node where it starts and ends, by the characters in front. -/
def Engine.Counts (engine : Engine) : Prop :=
  ∀ n language text range root, engine.parse n language text range = .ok root →
    ∀ x, root.Has x → text.Holds x.start ∧ text.Holds x.stop

namespace LayerStore

/-- A layer has no tree from before a parse. -/
def Current (s : LayerStore) (since : Nat) (id : LayerId) : Prop :=
  ∀ l tree, s.layer? id = some l → l.tree = some tree → since ≤ tree.parse

variable {s s' : LayerStore} {since : Nat} {id : LayerId}

theorem Current.of_shrinks (shrinks : ∀ x l, s'.layer? x = some l → s.layer? x = some l)
    (current : s.Current since id) : s'.Current since id :=
  fun l tree there => current l tree (shrinks id l there)

theorem layer?_modify_modify (s : LayerStore) (id : LayerId) (f g : SyntaxLayer → SyntaxLayer)
    (x : LayerId) : ((s.modify id f).modify id g).layer? x = (s.modify id (g ∘ f)).layer? x := by
  rw [layer?_modify, layer?_modify, layer?_modify, layer?_modify, if_pos rfl, Option.map_map]
  split <;> rfl

theorem shrinks_remove (sound : s.Sound) (id : LayerId) :
    (s.remove id).Sound ∧ ∀ x l, (s.remove id).layer? x = some l → s.layer? x = some l := by
  obtain ⟨sound', pruned⟩ := layer?_remove sound id
  exact ⟨sound', fun x l => pruned.layer?_eq⟩

theorem shrinks_removeAll (sound : s.Sound) (children : List (Site × LayerId)) :
    (s.removeAll children).Sound ∧
      ∀ x l, (s.removeAll children).layer? x = some l → s.layer? x = some l := by
  induction children generalizing s with
  | nil => exact ⟨sound, fun _ _ there => there⟩
  | cons child children ih =>
      obtain ⟨sound', shrinks⟩ := shrinks_remove sound child.2
      obtain ⟨sound'', shrinks'⟩ := ih sound'
      exact ⟨sound'', fun x l there => shrinks x l (shrinks' x l there)⟩

end LayerStore

namespace LayerTree

/-- What a run does: it gives layers the trees of a text, and their parses have the numbers from one
on. -/
structure Upkeep where
  engine : Engine
  text : TextBuffer
  root : LayerId
  since : Nat

/-- What holds of every layer during a run. -/
structure Fine (w : Upkeep) (s : LayerStore) (parses : Nat) (l : SyntaxLayer) : Prop where
  numbered : ∀ tree, l.tree = some tree → tree.parse < parses
  ofText : ∀ tree, l.tree = some tree → w.since ≤ tree.parse → w.engine.Gives w.text tree.root
  children : ∀ tree, l.tree = some tree → w.since ≤ tree.parse → ∀ child ∈ l.children,
    s.Current w.since child.2

/-- What holds all the time during a run. Some layers are known to have no tree from before. -/
structure Upkept (w : Upkeep) (ids : LayerId → Prop) (t : LayerTree) : Prop where
  sound : t.store.Sound
  text : t.text = w.text
  root : t.root = w.root
  begun : w.since ≤ t.parses
  layers : ∀ id l, t.store.layer? id = some l → Fine w t.store t.parses l
  current : ∀ id, ids id → t.store.Current w.since id

/-- The trees of a text come out of the parses so far. -/
structure Ordered (t : LayerTree) : Prop where
  sound : t.store.Sound
  numbered : ∀ id l tree, t.store.layer? id = some l → l.tree = some tree → tree.parse < t.parses

/-- Two trees differ at most in what was met in queries. -/
structure Alike (t t' : LayerTree) : Prop where
  store : t'.store = t.store
  text : t'.text = t.text
  root : t'.root = t.root
  parses : t'.parses = t.parses

variable {w : Upkeep} {parses : Nat} {ids : LayerId → Prop} {t t' : LayerTree} {s s' : LayerStore}
  {l : SyntaxLayer} {id : LayerId}

/-! ### Single changes -/

theorem Fine.unparsed (language : Language) (parent : Option LayerId) (range : Option ByteRange) :
    Fine w s parses (.unparsed language parent range) :=
  ⟨nofun, nofun, nofun⟩

theorem Fine.mono {parses' : Nat} (fine : Fine w s parses l)
    (current : ∀ x, s.Current w.since x → s'.Current w.since x) (le : parses ≤ parses') :
    Fine w s' parses' l where
  numbered tree has := Nat.lt_of_lt_of_le (fine.numbered tree has) le
  ofText := fine.ofText
  children tree has new child mem := current child.2 (fine.children tree has new child mem)

/-- A layer gets other children. -/
theorem Fine.withChildren (fine : Fine w s parses l) (children : List (Site × LayerId))
    (known : ∀ child ∈ children, child ∈ l.children ∨ s.Current w.since child.2) :
    Fine w s parses { l with children } where
  numbered := fine.numbered
  ofText := fine.ofText
  children tree has new child mem :=
    (known child mem).elim (fine.children tree has new child) id

namespace Upkept

theorem mono {ids' : LayerId → Prop} (up : Upkept w ids t) (fewer : ∀ x, ids' x → ids x) :
    Upkept w ids' t :=
  { up with current := fun x mem => up.current x (fewer x mem) }

theorem congr (up : Upkept w ids t) (same : t.Alike t') : Upkept w ids t' where
  sound := same.store ▸ up.sound
  text := same.text.trans up.text
  root := same.root.trans up.root
  begun := same.parses ▸ up.begun
  layers := by
    rw [same.store, same.parses]
    exact up.layers
  current := same.store ▸ up.current

/-- One more layer is known to have no tree from before. -/
theorem add (up : Upkept w ids t) (current : t.store.Current w.since id) :
    Upkept w (fun x => ids x ∨ x = id) t :=
  { up with
    current := by
      rintro x (mem | rfl)
      · exact up.current x mem
      · exact current }

theorem shrink (up : Upkept w ids t) (sound : s'.Sound)
    (shrinks : ∀ x l, s'.layer? x = some l → t.store.layer? x = some l) :
    Upkept w ids { t with store := s' } where
  sound := sound
  text := up.text
  root := up.root
  begun := up.begun
  layers x l there := (up.layers x l (shrinks x l there)).mono
    (fun _ current => current.of_shrinks shrinks) (Nat.le_refl _)
  current x mem := (up.current x mem).of_shrinks shrinks

theorem remove (up : Upkept w ids t) (id : LayerId) :
    Upkept w ids { t with store := t.store.remove id } := by
  obtain ⟨sound, shrinks⟩ := LayerStore.shrinks_remove up.sound id
  exact up.shrink sound shrinks

theorem removeAll (up : Upkept w ids t) (children : List (Site × LayerId)) :
    Upkept w ids { t with store := t.store.removeAll children } := by
  obtain ⟨sound, shrinks⟩ := LayerStore.shrinks_removeAll up.sound children
  exact up.shrink sound shrinks

theorem modify {change : SyntaxLayer → SyntaxLayer} (up : Upkept w ids t)
    (tree : ∀ l tree, (change l).tree = some tree → l.tree = some tree ∨ w.since ≤ tree.parse)
    (fine : ∀ l, t.store.layer? id = some l → Fine w t.store t.parses (change l)) :
    Upkept w ids { t with store := t.store.modify id change } := by
  have current : ∀ x, t.store.Current w.since x → (t.store.modify id change).Current w.since x := by
    intro x current l' tree' there has
    rw [LayerStore.layer?_modify] at there
    split at there
    · next same =>
        subst same
        obtain ⟨l, here, rfl⟩ := Option.map_eq_some_iff.mp there
        exact (tree l tree' has).elim (current l tree' here) (fun has => has)
    · exact current l' tree' there has
  constructor
  case sound => exact up.sound.modify id change
  case text => exact up.text
  case root => exact up.root
  case begun => exact up.begun
  case layers =>
    intro x l' there
    dsimp only at there
    rw [LayerStore.layer?_modify] at there
    split at there
    · obtain ⟨l, here, rfl⟩ := Option.map_eq_some_iff.mp there
      exact (fine l here).mono current (Nat.le_refl _)
    · exact (up.layers x l' there).mono current (Nat.le_refl _)
  case current => exact fun x mem => current x (up.current x mem)

/-- A layer gets other children. -/
theorem withChildren (up : Upkept w ids t) (id : LayerId)
    (children : SyntaxLayer → List (Site × LayerId))
    (known : ∀ l, ∀ child ∈ children l, child ∈ l.children ∨ t.store.Current w.since child.2) :
    Upkept w ids
      { t with store := t.store.modify id fun l => { l with children := children l } } :=
  up.modify (fun _ _ has => .inl has) fun l there =>
    (up.layers id l there).withChildren (children l) (known l)

/-- The children of a layer come in another order. -/
theorem rearranged (up : Upkept w ids t) (id : LayerId) : Upkept w ids
    { t with
      store := t.store.modify id fun l =>
        { l with children := t.order.arrange t.parses l.children } } :=
  up.withChildren id _ fun _ _ mem => .inl ((t.order.arrange_perm _ _).mem_iff.mp mem)

/-- A layer gets a tree of the text and loses its children. -/
theorem withTree {tree : ParsedTree} (up : Upkept w ids t) (id : LayerId)
    (new : w.since ≤ tree.parse) (numbered : tree.parse < t.parses)
    (ofText : w.engine.Gives w.text tree.root) :
    Upkept w (fun x => ids x ∨ x = id) { t with
      store := t.store.modify id fun l => { l with tree := some tree, children := [] } } := by
  have up' : Upkept w ids { t with
      store := t.store.modify id fun l => { l with tree := some tree, children := [] } } := by
    refine up.modify ?_ fun l there => ⟨?_, ?_, ?_⟩
    · rintro l tree' same
      cases same
      exact .inr new
    · rintro tree' same
      cases same
      exact numbered
    · rintro tree' same -
      cases same
      exact ofText
    · intro tree' same _ child mem
      cases mem
  refine up'.add fun l' tree' there has => ?_
  dsimp only at there
  rw [LayerStore.layer?_modify, if_pos rfl] at there
  obtain ⟨l, -, rfl⟩ := Option.map_eq_some_iff.mp there
  cases has
  exact new

theorem insert (up : Upkept w ids t) (language : Language) (parent : Option LayerId)
    (range : Option ByteRange) {made : LayerId × LayerStore}
    (inserted : t.store.insert (.unparsed language parent range) = made) :
    Upkept w (fun x => ids x ∨ x = made.1) { t with store := made.2 } := by
  subst inserted
  obtain ⟨-, sound, layers⟩ := LayerStore.layer?_insert up.sound (.unparsed language parent range)
  generalize t.store.insert (.unparsed language parent range) = made at sound layers
  have current : ∀ x, t.store.Current w.since x ∨ x = made.1 → made.2.Current w.since x := by
    intro x either l tree there has
    rw [layers] at there
    split at there
    · cases there
      cases has
    · next other => exact (either.resolve_right other) l tree there has
  constructor
  case sound => exact sound
  case text => exact up.text
  case root => exact up.root
  case begun => exact up.begun
  case layers =>
    intro x l there
    dsimp only at there
    rw [layers] at there
    split at there
    · cases there
      exact .unparsed language parent range
    · exact (up.layers x l there).mono (fun x is => current x (.inl is)) (Nat.le_refl _)
  case current => exact fun x mem => current x (mem.imp_left (up.current x))

end Upkept

/-! ### Layers where a run has stopped -/

theorem Upkept.ordered (up : Upkept w ids t) : t.Ordered :=
  ⟨up.sound, fun id l tree there has => (up.layers id l there).numbered tree has⟩

namespace Ordered

/-- A layer gets a tree of the same parse, or keeps the one it has. -/
theorem modify (ordered : t.Ordered) (id : LayerId) (change : SyntaxLayer → SyntaxLayer)
    (tree : ∀ l tree, t.store.layer? id = some l → (change l).tree = some tree →
      tree.parse < t.parses) :
    Ordered { t with store := t.store.modify id change } := by
  refine ⟨ordered.sound.modify id change, fun x l' tree' there has => ?_⟩
  dsimp only at there
  rw [LayerStore.layer?_modify] at there
  split at there
  · obtain ⟨l, here, rfl⟩ := Option.map_eq_some_iff.mp there
    exact tree l tree' here has
  · exact ordered.numbered x l' tree' there has

theorem detach (ordered : t.Ordered) (parent child : LayerId) (site : Site) :
    Ordered { t with store := t.store.detach parent site child } := by
  have without := ordered.modify parent
    (fun l => { l with children := l.children.filter (·.1 ≠ site) })
    fun l tree there has => ordered.numbered parent l tree there has
  obtain ⟨sound, shrinks⟩ := LayerStore.shrinks_remove without.sound child
  exact ⟨sound, fun x l tree there => without.numbered x l tree (shrinks x l there)⟩

end Ordered

/-! ### Steps -/

/-- A step that is done to a layer keeps up, and where it comes to its end the layer has no tree
from before. -/
def KeepsUp (w : Upkeep) (step : LayerId → LayerM Unit) : Prop :=
  ∀ ids t id, Upkept w ids t →
    Keeps (fun _ => Upkept w fun x => ids x ∨ x = id) Ordered (step id t)

theorem parsePart_keeps (up : Upkept w ids t) (l : SyntaxLayer) :
    Keeps (fun tree t' => Upkept w ids t' ∧ w.since ≤ tree.parse ∧ tree.parse < t'.parses ∧
        w.engine.Gives w.text tree.root)
      (fun t' => t'.Ordered ∧ t.parses ≤ t'.parses) (parsePart w.engine l t) := by
  have counted : Upkept w ids { t with parses := t.parses + 1 } :=
    { up with
      begun := Nat.le_succ_of_le up.begun
      layers := fun id l there => (up.layers id l there).mono (fun _ is => is) (Nat.le_succ _) }
  rw [parsePart, get_bind, set_bind]
  cases parsed : w.engine.parse t.parses l.language t.text l.range with
  | error e => exact ⟨counted.ordered, Nat.le_succ _⟩
  | ok root =>
      rw [up.text] at parsed
      exact ⟨counted, up.begun, Nat.lt_succ_self _, _, _, _, parsed⟩

/-- Where a layer cannot be parsed again, its tree is moved and has the number that it had. -/
theorem parseAgain_keeps (up : Upkept w ids t) (edit : TextEdit) {l : SyntaxLayer}
    {old : ParsedTree}
    (there : t.layer? id = some l) (has : l.tree = some old) :
    Keeps (fun tree t' => Upkept w ids t' ∧ w.since ≤ tree.parse ∧ tree.parse < t'.parses ∧
        w.engine.Gives w.text tree.root)
      Ordered (parseAgain w.engine edit id l old t) := by
  have parsed := parsePart_keeps up l
  rw [parseAgain]
  cases run : parsePart w.engine l t with
  | ok tree t' =>
      rw [run] at parsed
      exact parsed
  | error e t' =>
      rw [run] at parsed
      obtain ⟨ordered, later⟩ := parsed
      refine ordered.modify id _ fun l' tree there' moved => ?_
      cases moved
      exact Nat.lt_of_lt_of_le ((up.layers id l there).numbered old has) later

theorem injections_keeps (engine : Engine) (id : LayerId) (t : LayerTree) :
    ∃ found t', injections engine id t = .ok found t' ∧ t.Alike t' := by
  rw [injections, modifyGet_eq]
  split
  · next language tree _ _ _ _ =>
      cases language.injections with
      | none => exact ⟨_, _, rfl, ⟨rfl, rfl, rfl, rfl⟩⟩
      | some q => exact ⟨_, _, rfl, ⟨rfl, rfl, rfl, rfl⟩⟩
  · exact ⟨_, _, rfl, ⟨rfl, rfl, rfl, rfl⟩⟩

theorem createChild_keeps {parse : LayerId → LayerM Unit} (parses : KeepsUp w parse)
    (up : Upkept w ids t) (parent : LayerId) (p : InjectedPart) :
    Keeps (fun _ => Upkept w ids) Ordered (createChild parse parent p t) := by
  rw [createChild, get_bind]
  cases t.layer? parent with
  | none => exact up
  | some l =>
      dsimp only
      by_cases taken : (l.child? p.site).isSome = true
      · rw [if_pos taken]
        exact up
      · rw [if_neg taken, onStore_bind, modifyLayer_bind, rearrange_bind]
        generalize inserted : t.store.insert _ = made
        have made_up := up.insert _ _ _ inserted
        have attached := made_up.withChildren parent (fun l => l.children ++ [(p.site, made.1)])
          fun l child mem => (List.mem_append.mp mem).imp id fun new => by
            rw [List.mem_singleton.mp new]
            exact made_up.current _ (.inr rfl)
        have detach : ∀ t', Upkept w ids t' →
            Upkept w ids { t' with store := t'.store.detach parent p.site made.1 } := by
          intro t' up'
          exact (up'.withChildren parent _ fun l child mem => .inl
            (List.mem_filter.mp mem).1).remove _
        have parsed := parses ids _ made.1 ((attached.mono fun x mem => .inl mem).rearranged parent)
        refine Keeps.bind (?parsed : Keeps (fun _ => Upkept w ids) _ _) ?_
        case parsed =>
          dsimp only
          generalize parse made.1 _ = result at parsed ⊢
          cases result with
          | ok _ t' => exact Upkept.mono parsed fun x mem => .inl mem
          | error e t' => exact Ordered.detach parsed parent made.1 p.site
        · intro _ t' up'
          rw [get_bind]
          split
          · exact detach t' up'
          · exact up'

theorem createInjected_keeps {parse : LayerId → LayerM Unit} (parses : KeepsUp w parse)
    (up : Upkept w ids t) (parent : LayerId) (a : Site × Injection) :
    Keeps (fun _ => Upkept w ids) Ordered (createInjected parse parent a t) := by
  obtain ⟨site, injection⟩ := a
  rw [createInjected, get_bind]
  cases t.language? injection.languageName with
  | none => exact up
  | some language => exact createChild_keeps parses up parent _

theorem Upkept.add_of_none (up : Upkept w ids t) (none : t.layer? id = none) :
    Upkept w (fun x => ids x ∨ x = id) t := by
  refine up.add fun l tree there => ?_
  rw [layer?, there] at none
  cases none

theorem parseLayer_keeps (depth : Nat) : KeepsUp w (parseLayer w.engine depth) := by
  induction depth with
  | zero => exact fun ids t id up => up.ordered
  | succ depth ih =>
      intro ids t id up
      rw [parseLayer, get_bind]
      cases there : t.layer? id with
      | none => exact up.add_of_none there
      | some l =>
          refine Keeps.bind ((parsePart_keeps up l).mono (fun _ _ held => held) fun _ =>
            And.left) ?_
          rintro tree t₁ ⟨up₁, new, numbered, ofText⟩
          rw [get_bind]
          cases there₁ : t₁.layer? id with
          | none => exact up₁.add_of_none there₁
          | some l₁ =>
              dsimp only
              rw [modifyLayer_bind, onStore_bind]
              have up₂ := (up₁.withTree id new numbered ofText).removeAll l₁.children
              obtain ⟨found, t₃, run, same⟩ := injections_keeps w.engine id _
              rw [bind_ok run]
              exact (Keeps.forM found (fun a t up => createInjected_keeps ih up id a)
                (up₂.congr same))

/-! ### Updates -/

theorem assign_keeps (edit : TextEdit) (a : Assignment) (part : Site × Injection)
    (up : Upkept w ids t) :
    Keeps (fun _ => Upkept w ids) Ordered (assign edit a part t) := by
  obtain ⟨site, injection⟩ := part
  rw [assign]
  by_cases taken : (a.kept.lookup site).isSome = true
  · rw [if_pos taken]
    exact up
  · rw [if_neg taken, get_bind]
    cases t.language? injection.languageName with
    | none => exact up
    | some language =>
        dsimp only
        rw [get_bind]
        cases t.adopt? edit a.orphans ⟨site, injection, language⟩ with
        | none => exact up
        | some chosen =>
            dsimp only
            rw [modifyLayer_bind]
            exact up.modify (fun _ _ has => .inl has) fun l there =>
              have fine := up.layers _ l there
              ⟨fine.numbered, fine.ofText, fine.children⟩

theorem keepChild_keeps {update : LayerId → LayerM Unit} (updates : KeepsUp w update)
    (up : Upkept w ids t) (parent : LayerId) (a : Site × LayerId) :
    Keeps (fun _ => Upkept w ids) Ordered (keepChild update parent a t) := by
  obtain ⟨site, child⟩ := a
  rw [keepChild]
  refine Keeps.bind (updates ids t child up) ?_
  intro _ t₁ up₁
  have before := up₁.mono fun x mem => .inl mem
  rw [get_bind]
  split
  · exact before.remove child
  · rw [modifyLayer_bind]
    refine Upkept.rearranged (before.withChildren parent _ fun l other mem => ?_) parent
    rcases List.mem_append.mp mem with old | new
    · exact .inl (List.mem_filter.mp old).1
    · rw [List.mem_singleton.mp new]
      exact .inr (up₁.current child (.inr rfl))

theorem settle_keeps {update parse : LayerId → LayerM Unit} (updates : KeepsUp w update)
    (parses : KeepsUp w parse) (up : Upkept w ids t) (id : LayerId) (a : Assignment) :
    Keeps (fun _ => Upkept w ids) Ordered (settle update parse id a t) := by
  rw [settle, onStore_bind, get_bind]
  refine Keeps.bind (Keeps.forM _ (fun child t up => keepChild_keeps updates up id child)
    (up.removeAll a.orphans)) ?_
  intro _ t₁ up₁
  exact Keeps.forM _ (fun p t up => createChild_keeps parses up id p) up₁

/-- The children of a layer with a new tree are taken from it before they are brought in line. -/
theorem updateChildren_keeps {update parse : LayerId → LayerM Unit} {tree : ParsedTree}
    (updates : KeepsUp w update) (parses : KeepsUp w parse) (edit : TextEdit) (id : LayerId)
    (up : Upkept w ids t) (new : w.since ≤ tree.parse) (numbered : tree.parse < t.parses)
    (ofText : w.engine.Gives w.text tree.root) :
    Keeps (fun _ => Upkept w fun x => ids x ∨ x = id) Ordered
      (updateChildren w.engine update parse edit id
        { t with store := t.store.modify id fun l => { l with tree := some tree } }) := by
  obtain ⟨found, t₁, run, same⟩ := injections_keeps w.engine id
    { t with store := t.store.modify id fun l => { l with tree := some tree } }
  have store := same.store
  dsimp only at store
  rw [updateChildren, bind_ok run, get_bind]
  cases there : t₁.layer? id with
  | none =>
      have still : t.store.layer? id = none := by
        rw [layer?, store, LayerStore.layer?_modify, if_pos rfl] at there
        exact Option.map_eq_none_iff.mp there
      have up₁ : Upkept w ids
          { t with store := t.store.modify id fun l => { l with tree := some tree } } := by
        refine up.modify (fun l tree' has => .inr ?_) fun l there => ?_
        · cases has
          exact new
        · rw [still] at there
          cases there
      exact (up₁.congr same).add_of_none there
  | some l =>
      dsimp only
      rw [modifyLayer_bind]
      have up₁ := up.withTree id new numbered ofText
      have up₂ : Upkept w (fun x => ids x ∨ x = id)
          { t₁ with store := t₁.store.modify id fun l => { l with children := [] } } := by
        rw [store]
        refine (up₁.shrink ((up.sound.modify _ _).modify _ _) fun x l' there' => ?_).congr
          ⟨rfl, same.text, same.root, same.parses⟩
        rw [LayerStore.layer?_modify_modify] at there'
        exact there'
      have each := fun a part t (up : Upkept w (fun x => ids x ∨ x = id) t) =>
        assign_keeps edit a part up
      refine Keeps.bind ((Keeps.foldlM found each up₂)) ?_
      intro a t₃ up₃
      exact (settle_keeps updates parses up₃ id a)

theorem updateLayer_keeps (edit : TextEdit) (depth : Nat) :
    KeepsUp w (updateLayer w.engine edit depth) := by
  induction depth with
  | zero => exact fun ids t id up => up.ordered
  | succ depth ih =>
      intro ids t id up
      rw [updateLayer, get_bind]
      cases there : t.layer? id with
      | none => exact up.add_of_none there
      | some l =>
          dsimp only
          cases has : l.tree with
          | none =>
              refine up.add fun l' tree there' has' => ?_
              obtain rfl := Option.some.inj (there.symm.trans there')
              rw [has] at has'
              cases has'
          | some old =>
              refine Keeps.bind (parseAgain_keeps up edit there has) ?_
              rintro tree t₁ ⟨up₁, new, numbered, ofText⟩
              rw [modifyLayer_bind]
              exact updateChildren_keeps ih (parseLayer_keeps depth) edit id up₁ new numbered ofText

/-! ### Runs -/

/-- What a run on a text does that begins now. -/
def upkeep (t : LayerTree) (engine : Engine) (text : TextBuffer) : Upkeep :=
  ⟨engine, text, t.root, t.parses⟩

variable {engine : Engine} {text : TextBuffer} {language : Language} {registry : Option Registry}

theorem ordered_unparsed (language : Language) (registry : Option Registry) (reports : QueryReports)
    (order : MapOrder) : (unparsed language registry reports order).Ordered := by
  have empty : ({} : LayerStore).Sound := ⟨.nil, fun slot mem => absurd mem List.not_mem_nil⟩
  obtain ⟨-, sound, layers⟩ := LayerStore.layer?_insert empty (.unparsed language none none)
  refine ⟨sound, fun id l tree there has => ?_⟩
  replace there := (layers id).symm.trans there
  split at there
  · cases there
    cases has
  · cases there

/-- When a run begins no layer has a tree of it. -/
theorem Ordered.upkept (ordered : t.Ordered) (engine : Engine) (text : TextBuffer) :
    Upkept (t.upkeep engine text) (fun _ => False) { t with text } where
  sound := ordered.sound
  text := rfl
  root := rfl
  begun := Nat.le_refl _
  layers id l there := by
    have old := ordered.numbered id l
    refine ⟨fun tree => old tree there, fun tree has new => ?_, fun tree has new => ?_⟩
    · exact absurd (old tree there has) (Nat.not_lt.mpr new)
    · exact absurd (old tree there has) (Nat.not_lt.mpr new)
  current _ none := none.elim

theorem parse_keeps (ordered : t.Ordered) (engine : Engine) (text : TextBuffer) :
    Keeps (fun _ => Upkept (t.upkeep engine text) (· = t.root)) Ordered (parse engine text t) := by
  rw [parse, modify_bind, get_bind]
  have parsed := parseLayer_keeps (w := t.upkeep engine text) engine.depth _ _ t.root
    (ordered.upkept engine text)
  exact parsed.mono (fun _ _ up => up.mono fun _ => .inr) fun _ ordered => ordered

theorem applyEdit_keeps (ordered : t.Ordered) (engine : Engine) (edit : TextEdit)
    (text : TextBuffer) :
    Keeps (fun _ => Upkept (t.upkeep engine text) (· = t.root)) Ordered
      (applyEdit engine edit text t) := by
  rw [applyEdit, get_bind]
  by_cases isParsed : t.isParsed = true
  · rw [if_pos isParsed, modify_bind, get_bind]
    have updated := updateLayer_keeps (w := t.upkeep engine text) edit engine.depth _ _
      t.root (ordered.upkept engine text)
    exact updated.mono (fun _ _ up => up.mono fun _ => .inr) fun _ ordered => ordered
  · rw [if_neg isParsed]
    exact parse_keeps ordered engine text

/-- Layers that parses and edits lead to, also those that stopped. What was met in queries may
change in between. -/
inductive Touched (engine : Engine) (language : Language) (registry : Option Registry) :
    LayerTree → Prop
  | unparsed (reports : QueryReports) (order : MapOrder) :
      Touched engine language registry (unparsed language registry reports order)
  | report {t : LayerTree} (reports : QueryReports) :
      Touched engine language registry t → Touched engine language registry { t with reports }
  | parse {t : LayerTree} (text : TextBuffer) :
      Touched engine language registry t →
      Touched engine language registry (stateOf (parse engine text t))
  | edit {t : LayerTree} (edit : TextEdit) (text : TextBuffer) :
      Touched engine language registry t →
      Touched engine language registry (stateOf (applyEdit engine edit text t))

theorem Touched.ordered (touched : Touched engine language registry t) : t.Ordered := by
  induction touched with
  | unparsed reports order => exact ordered_unparsed language registry reports order
  | report reports _ ih => exact ⟨ih.sound, ih.numbered⟩
  | parse text _ ih =>
      exact (parse_keeps ih engine text).stateOf (fun _ _ up => up.ordered) fun _ => id
  | edit edit text _ ih =>
      exact (applyEdit_keeps ih engine edit text).stateOf (fun _ _ up => up.ordered) fun _ => id

/-! ### Layers that are seen -/

/-- The layer is the root or is reached from it through layers with trees. -/
inductive Seen (t : LayerTree) : LayerId → Prop
  | root : Seen t t.root
  | child {id child : LayerId} {l : SyntaxLayer} {site : Site} :
      Seen t id → t.layer? id = some l → l.tree.isSome → (site, child) ∈ l.children → Seen t child

theorem Upkept.current_of_seen (up : Upkept w (· = t.root) t) (seen : t.Seen id) :
    t.store.Current w.since id := by
  induction seen with
  | root => exact up.current t.root rfl
  | child _ there has mem ih =>
      obtain ⟨tree, has⟩ := Option.isSome_iff_exists.mp has
      exact (up.layers _ _ there).children tree has (ih _ tree there has) _ mem

/-- A run that comes to its end leaves trees of its text in all layers that are seen, whatever was
done before and may have failed. -/
theorem gives_of_seen (touched : Touched engine language registry t)
    (run : parse engine text t = .ok () t' ∨ ∃ edit, applyEdit engine edit text t = .ok () t')
    {tree : ParsedTree} (seen : t'.Seen id) (has : t'.tree? id = some tree) :
    engine.Gives text tree.root := by
  have up : Upkept (t.upkeep engine text) (· = t.root) t' := by
    rcases run with run | ⟨edit, run⟩
    · have keeps := parse_keeps touched.ordered engine text
      rwa [run] at keeps
    · have keeps := applyEdit_keeps touched.ordered engine edit text
      rwa [run] at keeps
  have same : t'.root = t.root := up.root
  rw [← same] at up
  obtain ⟨l, there, has⟩ := Option.bind_eq_some_iff.mp has
  exact (up.layers id l there).ofText tree has (up.current_of_seen seen l tree there has)

end LayerTree

end CodeEditor.Layer

import CodeEditor.Proofs.Failure
import CodeEditor.Proofs.Layer.Grafting

/-!
Parsing a layer and those below it.

A parser that is a function gives each layer the tree of its part, and the parts of that tree their
layers in the order of the query: `parseLayer_ok` says that the layers are parsed and that every
place prefers the first candidate. The only way to fail is that parts in parts do not end.
-/

namespace CodeEditor.Layer

open Syntax (Node Language)

/-- The parser is a function of a language, a text and a part of it, and nodes of one tree have
identities of their own. -/
structure Engine.Steady (engine : Engine)
    (tree : Language → TextBuffer → Option ByteRange → Node) : Prop where
  parse : ∀ n language text range, engine.parse n language text range = .ok
    (tree language text range)
  site : ∀ n path path', engine.site n path = engine.site n path' → path = path'

namespace LayerTree

/-- What the layers depend on. -/
def setting (t : LayerTree) (tree : Language → TextBuffer → Option ByteRange → Node) : Setting where
  known := t.language?
  parsed := fun language range => tree language t.text range
  text := t.text

/-- A change at some layers, which leaves the task as it is. -/
structure Carries (t t' : LayerTree) (before after : List LayerId) : Prop where
  registry : t'.registry = t.registry
  text : t'.text = t.text
  root : t'.root = t.root
  sound : t'.store.Sound
  change : t.store.Local t'.store (t.store.Under before) (t'.store.Under after)

variable {t t' : LayerTree} {before between after : List LayerId}

namespace Carries

theorem refl (sound : t.store.Sound) (before : List LayerId) : t.Carries t before before :=
  ⟨rfl, rfl, rfl, sound, .refl t.store _⟩

theorem trans {t'' : LayerTree} (first : t.Carries t' before between)
    (second : t'.Carries t'' between after) : t.Carries t'' before after where
  registry := second.registry.trans first.registry
  text := second.text.trans first.text
  root := second.root.trans first.root
  sound := second.sound
  change := first.change.trans second.change

theorem setting_eq (carries : t.Carries t' before after)
    (tree : Language → TextBuffer → Option ByteRange → Node) :
    t'.setting tree = t.setting tree := by
  have known : t'.language? = t.language? := by
    funext name
    rw [language?, language?, carries.registry]
  rw [setting, setting, known, carries.text]

/-- A change of the slots. -/
theorem onStore {s' : LayerStore} (sound : s'.Sound)
    (change : t.store.Local s' (t.store.Under before) (s'.Under after)) :
    t.Carries { t with store := s' } before after :=
  ⟨rfl, rfl, rfl, sound, change⟩

theorem perm {before' after' : List LayerId} (carries : t.Carries t' before after)
    (permBefore : before.Perm before') (permAfter : after.Perm after') :
    t.Carries t' before' after' where
  registry := carries.registry
  text := carries.text
  root := carries.root
  sound := carries.sound
  change := by
    rw [← LayerStore.under_perm permBefore, ← LayerStore.under_perm permAfter]
    exact carries.change

/-- A change at some layers leaves the others of a forest alone. -/
theorem frame {site : Nat → List Nat → Site} {others : List LayerId}
    (forest : t.store.Forest site (before ++ others)) (carries : t.Carries t' before after)
    (forest' : t'.store.Forest site after) :
    t'.store.Forest site (after ++ others) ∧ t.Carries t' (before ++ others) (after ++ others) ∧
      ∀ b ∈ others, ∀ n v, t.store.Shows site n b v → t'.store.Shows site n b v := by
  obtain ⟨framed, change, kept⟩ := forest.frame carries.change forest'
  exact ⟨framed, ⟨carries.registry, carries.text, carries.root, carries.sound, change⟩, kept⟩

end Carries

/-! ### Steps -/

variable {engine : Engine} {tree : Language → TextBuffer → Option ByteRange → Node} {id : LayerId}
  {l : SyntaxLayer} {n : Nat}

theorem parsePart_eq (steady : engine.Steady tree) (l : SyntaxLayer) (t : LayerTree) :
    parsePart engine l t = .ok ⟨t.parses, tree l.language t.text l.range⟩
      { t with parses := t.parses + 1 } := by
  rw [parsePart, get_bind, set_bind, steady.parse]
  rfl

theorem parseAgain_eq (steady : engine.Steady tree) (edit : TextEdit) (id : LayerId)
    (l : SyntaxLayer)
    (old : ParsedTree) (t : LayerTree) :
    parseAgain engine edit id l old t = .ok ⟨t.parses, tree l.language t.text l.range⟩
      { t with parses := t.parses + 1 } := by
  rw [parseAgain, parsePart_eq steady]

theorem injections_eq (engine : Engine) {root : Node} {q : Query} (there : t.layer? id = some l)
    (has : l.tree = some ⟨n, root⟩) (query : l.language.injections = some q) :
    ∃ reports, injections engine id t =
      .ok ((injectionsOf q root t.text {}).1.map fun i => (engine.site n i.path, i))
        { t with reports } := by
  obtain ⟨language, _, _, _, _⟩ := l
  dsimp only at has query
  subst has
  rw [injections, modifyGet_eq, there]
  dsimp only
  rw [query]
  dsimp only
  rw [injectionsOf_fst q root t.text _ {}]
  exact ⟨_, rfl⟩

/-- The injections of a layer that has the tree of its part. -/
theorem injections_ok (engine : Engine) (tree : Language → TextBuffer → Option ByteRange → Node)
    {root : Node} (sound : t.store.Sound) (there : t.layer? id = some l)
    (has : l.tree = some ⟨n, root⟩) (parsed : root = tree l.language t.text l.range) :
    ∃ t', injections engine id t =
        .ok (((t.setting tree).injections l.language l.range).map fun i =>
          (engine.site n i.path, i))
          t' ∧
      t'.store = t.store ∧ ∀ ids, t.Carries t' ids ids := by
  subst parsed
  cases query : l.language.injections with
  | none =>
      refine ⟨t, ?_, rfl, .refl sound⟩
      obtain ⟨language, _, _, _, _⟩ := l
      dsimp only at has query
      subst has
      rw [injections, Setting.injections, query, modifyGet_eq, there]
      dsimp only
      rw [query]
      rfl
  | some q =>
      obtain ⟨reports, run⟩ := injections_eq engine there has query
      refine ⟨{ t with reports }, ?_, rfl, fun _ => ⟨rfl, rfl, rfl, sound, .refl _ _⟩⟩
      rw [run, Setting.injections, query]
      rfl

theorem modifyLayer_bind {α : Type} (id : LayerId) (change : SyntaxLayer → SyntaxLayer)
    (f : Unit → LayerM α) (t : LayerTree) :
    (modifyLayer id change >>= f) t = f () { t with store := t.store.modify id change } := rfl

theorem rearrange_bind {α : Type} (id : LayerId) (f : Unit → LayerM α) (t : LayerTree) :
    (rearrange id >>= f) t = f ()
      { t with
        store := t.store.modify id fun l =>
          { l with children := t.order.arrange t.parses l.children } } := rfl

theorem onStore_bind {α β : Type} (change : LayerStore → α × LayerStore) (f : α → LayerM β)
    (t : LayerTree) :
    (onStore change >>= f) t = f (change t.store).1 { t with store := (change t.store).2 } := rfl

/-! ### New layers -/

/-- The candidate that a part with a language is. -/
def InjectedPart.candidate (p : InjectedPart) : Candidate :=
  ⟨p.injection.path, p.language, p.injection.byteRange⟩

/-- New layers are given the layers of a fresh parse, unless parts in parts go down to a depth. -/
def ParsesNew (engine : Engine) (tree : Language → TextBuffer → Option ByteRange → Node)
    (w : Setting) (depth : Nat) (parse : LayerId → LayerM Unit) : Prop :=
  ∀ (t : LayerTree) (id : LayerId) (l : SyntaxLayer), t.store.Sound → t.setting tree = w →
    t.layer? id = some l → l.children = [] →
    Ends (¬w.Bounded depth l.language l.range)
      (fun t' => ∃ n v, t'.store.Shows engine.site n id v ∧ v.language = l.language ∧
        v.range = l.range ∧ w.Parsed v ∧ w.Prefers v ∧ t.Carries t' [id] [id])
      (parse id t)

theorem hasEmptyTree_iff {w : Setting} {s : LayerStore} {site : Nat → List Nat → Site} {v : Layers}
    {c : Candidate} (shows : s.Shows site n id v) (parsed : w.Parsed v)
    (language : v.language = c.language) (range : v.range = some c.range) :
    (s.layer? id).all (·.hasEmptyTree) = true ↔ ¬w.Covers c := by
  obtain ⟨l, there, has, -, -⟩ := shows.exists_layer
  cases parsed with
  | layer root _ _ _ =>
      rw [there, Option.all_some, SyntaxLayer.hasEmptyTree, has, Option.all_some, root,
        language, range, Setting.Covers, Bool.not_eq_false]

theorem createChild_ok {w : Setting} {depth : Nat} {parse : LayerId → LayerM Unit} {v : Layers}
    (distinct : ∀ n path path', engine.site n path = engine.site n path' → path = path')
    (parses : ParsesNew engine tree w depth parse) (sound : t.store.Sound)
    (same : t.setting tree = w) (shows : t.store.Shows engine.site n id v) (p : InjectedPart)
    (place : p.site = engine.site n p.injection.path) :
    Ends (¬w.Bounded depth p.language (some p.injection.byteRange))
      (fun t' => ∃ inner, t'.store.Shows engine.site n id { v with inner } ∧
        w.Filled [p.candidate] v.inner inner ∧ t.Carries t' [id] [id])
      (createChild parse id p t) := by
  obtain ⟨l, there, -⟩ := shows.exists_layer
  have vacant : v.inner p.injection.path = none ↔
      l.child? (engine.site n p.injection.path) = none := shows.inner_eq_none there
  rw [createChild, get_bind, LayerTree.layer?, there]
  dsimp only
  rw [place]
  cases taken : l.child? (engine.site n p.injection.path) with
  | some child =>
      rw [Option.isSome_some, if_pos rfl]
      refine ⟨v.inner, by rwa [v.eta], .skip fun free => ?_, .refl sound [id]⟩
      have absent := vacant.mp free
      rw [taken] at absent
      cases absent
  | none =>
      have free := vacant.mpr taken
      rw [Option.isSome_none, if_neg Bool.false_ne_true, onStore_bind, modifyLayer_bind,
        rearrange_bind]
      dsimp only
      have grown (child : LayerId) := t.order.arrange_perm t.parses
        (l.children ++ [(engine.site n p.injection.path, child)])
      generalize t.order.arrange t.parses = arrange at grown ⊢
      generalize made : ((t.store.insert _).2.modify id _).modify id _ = s'
      obtain ⟨sound', new, attached⟩ :=
        LayerStore.attached_insert sound there _ _ arrange s' made.symm
      generalize (t.store.insert _).1 = child at new attached ⊢
      refine .bind (?child : Ends _ (fun t₁ => ∃ m u, t₁.store.Shows engine.site m child u ∧
        u.language = p.language ∧ u.range = some p.injection.byteRange ∧ w.Parsed u ∧ w.Prefers u ∧
        { t with store := s' }.Carries t₁ [child] [child]) _) ?_
      case child =>
        have parsed := parses { t with store := s' } child _ sound' same new rfl
        cases run : parse child { t with store := s' } with
        | ok _ t₁ =>
            rw [run] at parsed
            exact parsed
        | error e t₁ =>
            rw [run] at parsed
            exact parsed
      · rintro t₁ ⟨m, u, shown, language, range, parsed, prefers, carries⟩
        have attached := attached rfl t₁.store carries.change
        have isEmpty := hasEmptyTree_iff shown parsed (c := p.candidate) language range
        rw [get_bind, LayerTree.layer?]
        by_cases covers : w.Covers p.candidate
        · rw [if_neg (fun empty => isEmpty.mp empty covers)]
          obtain ⟨shows', change⟩ := attached.shows (grown child) (distinct n) shows free shown
          exact ⟨_, shows', .put free covers language range parsed prefers,
            carries.registry, carries.text, carries.root, carries.sound, change⟩
        · rw [if_pos (isEmpty.mpr covers)]
          obtain ⟨there', -⟩ := attached.keep_parent
          have there₃ := LayerStore.layer?_modify_self there' fun l =>
            { l with children := l.children.filter (·.1 ≠ engine.site n p.injection.path) }
          have without := (grown child).filter (·.1 ≠ engine.site n p.injection.path)
          rw [SyntaxLayer.filter_append taken] at without
          obtain ⟨sound₃, shows', change⟩ := attached.shows_of_detached shows there₃ without
            (fun x other => LayerStore.layer?_modify_of_ne other _) shown (carries.sound.modify _ _)
          refine ⟨v.inner, by rwa [v.eta], .skip fun _ => covers, ?_⟩
          exact ⟨carries.registry, carries.text, carries.root, sound₃, change⟩

theorem filterMap_cons_toList {α β : Type} (f : α → Option β) (a : α) (xs : List α) :
    (a :: xs).filterMap f = (f a).toList ++ xs.filterMap f := by
  cases here : f a with
  | none => rw [List.filterMap_cons_none here, Option.toList_none, List.nil_append]
  | some b => rw [List.filterMap_cons_some here, Option.toList_some, List.singleton_append]

/-- Steps that give layers to the candidates of a list one by one do so in the order of the list. -/
theorem forM_fills {α : Type} {w : Setting} {step : α → LayerM Unit} (depth : Nat)
    (candidate? : α → Option Candidate) (xs : List α) {v : Layers}
    (each : ∀ a ∈ xs, ∀ (t : LayerTree) (v : Layers), t.store.Sound → t.setting tree = w →
      t.store.Shows engine.site n id v →
      Ends (∃ c, candidate? a = some c ∧ ¬w.Bounded depth c.language (some c.range))
        (fun t' => ∃ inner, t'.store.Shows engine.site n id { v with inner } ∧
          w.Filled (candidate? a).toList v.inner inner ∧ t.Carries t' [id] [id])
        (step a t))
    (sound : t.store.Sound) (same : t.setting tree = w) (shows : t.store.Shows engine.site n id v) :
    Ends (∃ c ∈ xs.filterMap candidate?, ¬w.Bounded depth c.language (some c.range))
      (fun t' => ∃ inner, t'.store.Shows engine.site n id { v with inner } ∧
        w.Filled (xs.filterMap candidate?) v.inner inner ∧ t.Carries t' [id] [id])
      (forM xs step t) := by
  induction xs generalizing t v with
  | nil => exact ⟨v.inner, by rwa [v.eta], .nil w v.inner, .refl sound [id]⟩
  | cons a xs ih =>
      rw [List.forM_cons, filterMap_cons_toList]
      have first := each a List.mem_cons_self t v sound same shows
      refine .bind (first.mono ?_ fun t₁ result => result) ?_
      · rintro ⟨c, here, endless⟩
        exact ⟨c, List.mem_append_left _ (by simp [here]), endless⟩
      · rintro t₁ ⟨inner₁, shows₁, filled₁, carries₁⟩
        have rest := ih (fun b mem => each b (List.mem_cons_of_mem _ mem)) carries₁.sound
          ((carries₁.setting_eq tree).trans same) shows₁
        refine rest.mono ?_ ?_
        · rintro ⟨c, mem, endless⟩
          exact ⟨c, List.mem_append_right _ mem, endless⟩
        · rintro t' ⟨inner, shows', filled, carries⟩
          exact ⟨inner, shows', filled₁.append filled, carries₁.trans carries⟩

/-! ### The parse -/

theorem createInjected_ok {w : Setting} {depth : Nat} {parse : LayerId → LayerM Unit} {v : Layers}
    (distinct : ∀ n path path', engine.site n path = engine.site n path' → path = path')
    (parses : ParsesNew engine tree w depth parse) (sound : t.store.Sound)
    (same : t.setting tree = w) (shows : t.store.Shows engine.site n id v) (i : Injection) :
    Ends (∃ c, w.candidate? i = some c ∧ ¬w.Bounded depth c.language (some c.range))
      (fun t' => ∃ inner, t'.store.Shows engine.site n id { v with inner } ∧
        w.Filled (w.candidate? i).toList v.inner inner ∧ t.Carries t' [id] [id])
      (createInjected parse id (engine.site n i.path, i) t) := by
  have known : t.language? i.languageName = w.known i.languageName := by rw [← same, setting]
  rw [createInjected, get_bind, known, Setting.candidate?]
  cases w.known i.languageName with
  | none => exact ⟨v.inner, by rwa [v.eta], .nil w v.inner, .refl sound [id]⟩
  | some language =>
      have created := createChild_ok distinct parses sound same shows
        ⟨engine.site n i.path, i, language⟩ rfl
      exact created.mono (fun endless => ⟨_, rfl, endless⟩) fun _ result => result

/-- The parts of a layer with a new tree are given theirs, in the order of the query. -/
theorem createAll_ok {w : Setting} {depth : Nat} {parse : LayerId → LayerM Unit} {v : Layers}
    (distinct : ∀ n path path', engine.site n path = engine.site n path' → path = path')
    (parses : ParsesNew engine tree w depth parse) (sound : t.store.Sound)
    (same : t.setting tree = w) (shows : t.store.Shows engine.site n id v)
    (childless : v.inner = fun _ => none) (root : v.root = w.parsed v.language v.range) :
    Ends (¬w.Bounded (depth + 1) v.language v.range)
      (fun t' => ∃ inner, t'.store.Shows engine.site n id { v with inner } ∧
        w.Parsed { v with inner } ∧ w.Prefers { v with inner } ∧ t.Carries t' [id] [id])
      ((injections engine id >>= fun found => found.forM (createInjected parse id)) t) := by
  obtain ⟨l, there, has, language, range⟩ := shows.exists_layer
  obtain ⟨t₁, found, store, carries⟩ := injections_ok engine tree sound there has (by
    rw [root, language, range, ← same, setting])
  rw [← store] at shows
  rw [bind_ok found, language, range, same, List.forM_eq_forM]
  refine (forM_fills depth (fun a : Site × Injection => w.candidate? a.2) _ ?_ (carries [id]).sound
    (((carries [id]).setting_eq tree).trans same) shows).mono ?_ ?_
  · intro a mem t v sound same shows
    obtain ⟨i, -, rfl⟩ := List.mem_map.mp mem
    exact createInjected_ok distinct parses sound same shows i
  · rintro ⟨c, mem, endless⟩ bounded
    rw [List.filterMap_map] at mem
    exact endless (bounded c mem)
  · rintro t' ⟨inner, shows', filled, carries'⟩
    rw [List.filterMap_map, childless] at filled
    obtain ⟨parsed, prefers⟩ := filled.complete (v := { v with inner }) root
    exact ⟨inner, shows', parsed, prefers, (carries [id]).trans carries'⟩

/-- A parse gives a layer those of a fresh parse. -/
theorem parseLayer_ok (steady : engine.Steady tree) {w : Setting} (depth : Nat)
    (sound : t.store.Sound) (same : t.setting tree = w) (there : t.layer? id = some l)
    (owned : l.children = [] ∨ ∃ n v, t.store.Shows engine.site n id v) :
    Ends (¬w.Bounded depth l.language l.range)
      (fun t' => ∃ n v, t'.store.Shows engine.site n id v ∧ v.language = l.language ∧
        v.range = l.range ∧ w.Parsed v ∧ w.Prefers v ∧ t.Carries t' [id] [id])
      (parseLayer engine depth id t) := by
  induction depth generalizing t id l with
  | zero => exact fun bounded => bounded
  | succ depth ih =>
      have parses : ParsesNew engine tree w depth (parseLayer engine depth) := by
        intro t id l sound same there childless
        exact ih sound same there (.inl childless)
      rw [parseLayer, get_bind, there]
      dsimp only
      rw [bind_ok (parsePart_eq steady l t), get_bind]
      have still : ({ t with parses := t.parses + 1 } : LayerTree).layer? id = some l := there
      rw [still]
      dsimp only
      rw [modifyLayer_bind, onStore_bind]
      dsimp only
      generalize made : t.store.modify id _ = s'
      obtain ⟨sound', shows, change⟩ := LayerStore.shows_cleared sound there owned made.symm
      generalize cleared : LayerTree.mk (s'.removeAll l.children) _ _ _ _ _ _ = t₁
      have carries : t.Carries t₁ [id] [id] := by
        rw [← cleared]
        exact ⟨rfl, rfl, rfl, sound', change⟩
      have shows₁ : t₁.store.Shows engine.site t.parses id
          ⟨l.language, l.range, tree l.language t.text l.range, fun _ => none⟩ := by
        rw [← cleared]
        exact shows
      have root : tree l.language t.text l.range = w.parsed l.language l.range := by
        rw [← same, setting]
      have made := createAll_ok steady.site parses carries.sound
        ((carries.setting_eq tree).trans same) shows₁ rfl root
      apply made.mono (fun endless => endless)
      rintro t' ⟨inner, shows', parsed, prefers, carries'⟩
      exact ⟨_, _, shows', rfl, rfl, parsed, prefers, carries.trans carries'⟩

end LayerTree

end CodeEditor.Layer

import CodeEditor.Proofs.Layer.Update

/-!
The layers that edits lead to, against those of a fresh parse.

`Reached` is all layers that parsing texts and taking over edits lead to. They are parsed at all
times (`Reached.standing`). Behind an edit they are those of a fresh parse of the text exactly when
every place prefers the first candidate, and where candidates at one place are in one language they
are so whatever came before (`edited_eq_parsed_iff`). Where candidates at a place are in several
languages, a layer that was kept for a later one stays.
-/

namespace CodeEditor.Layer.LayerTree

open Syntax (Node Language Registry)

variable {engine : Engine} {tree : Language → TextBuffer → Option ByteRange → Node}
  {language : Language} {registry : Option Registry} {t t' : LayerTree} {text : TextBuffer}
  {edit : TextEdit}

/-- What the layers of a text depend on. -/
def settingOf (tree : Language → TextBuffer → Option ByteRange → Node) (registry : Option Registry)
    (text : TextBuffer) : Setting where
  known := fun name => registry.bind (·.language? name)
  parsed := fun language range => tree language text range
  text := text

/-- The layers of a tree. -/
def HasLayers (engine : Engine) (t : LayerTree) (v : Layers) : Prop :=
  ∃ n, t.store.Shows engine.site n t.root v

/-- A tree has one kind of layers. -/
theorem HasLayers.unique {v v' : Layers} (has : t.HasLayers engine v)
    (has' : t.HasLayers engine v') :
    v = v' := by
  obtain ⟨n, shows⟩ := has
  obtain ⟨n', shows'⟩ := has'
  exact shows.unique shows'

/-- The layers of a tree are parsed, and they are those of a language for the whole text. -/
structure HasParsed (engine : Engine) (tree : Language → TextBuffer → Option ByteRange → Node)
    (language : Language) (t : LayerTree) (v : Layers) : Prop where
  has : t.HasLayers engine v
  language : v.language = language
  range : v.range = none
  parsed : (settingOf tree t.registry t.text).Parsed v

/-- What holds of all layers that are reached: they have not been parsed, or they are parsed. -/
structure Standing (engine : Engine) (tree : Language → TextBuffer → Option ByteRange → Node)
    (language : Language) (t : LayerTree) : Prop where
  sound : t.store.Sound
  layers : t.layer? t.root = some (.unparsed language none none) ∨
    ∃ v, t.HasParsed engine tree language v

theorem standing_unparsed (engine : Engine)
    (tree : Language → TextBuffer → Option ByteRange → Node) (language : Language)
    (registry : Option Registry) (reports : QueryReports) (order : MapOrder) :
    (unparsed language registry reports order).Standing engine tree language := by
  have empty : ({} : LayerStore).Sound :=
    ⟨.nil, fun slot mem => absurd mem List.not_mem_nil⟩
  obtain ⟨-, sound, inserted⟩ := LayerStore.layer?_insert empty (.unparsed language none none)
  exact ⟨sound, .inl ((inserted _).trans (if_pos rfl))⟩

/-- A run that changes no more than the layers leads to parsed layers of the text. -/
theorem HasParsed.of_carries {v : Layers} {n : Nat} {before after : List LayerId}
    (carries : LayerTree.Carries { t with text } t' before after)
    (shows : t'.store.Shows engine.site n t.root v) (isLanguage : v.language = language)
    (isRange : v.range = none) (parsed : (settingOf tree t.registry text).Parsed v) :
    t'.HasParsed engine tree language v where
  has := by
    refine ⟨n, ?_⟩
    rw [carries.root]
    exact shows
  language := isLanguage
  range := isRange
  parsed := by
    rw [carries.registry, carries.text]
    exact parsed

/-- A parse leads to layers that prefer the first candidate. -/
theorem parse_ok (steady : engine.Steady tree) (standing : t.Standing engine tree language)
    (text : TextBuffer) :
    Ends (¬(settingOf tree t.registry text).Bounded engine.depth language none)
      (fun t' => t'.store.Sound ∧ t'.registry = t.registry ∧ t'.text = text ∧
        ∃ v, t'.HasParsed engine tree language v ∧ (settingOf tree t.registry text).Prefers v)
      (parse engine text t) := by
  obtain ⟨l, there, owned, isLanguage, isRange⟩ : ∃ l, t.store.layer? t.root = some l ∧
      (l.children = [] ∨ ∃ n v, t.store.Shows engine.site n t.root v) ∧ l.language = language ∧
      l.range = none := by
    rcases standing.layers with unparsed | ⟨v, ⟨n, shows⟩, isLanguage, isRange, -⟩
    · exact ⟨_, unparsed, .inl rfl, rfl, rfl⟩
    · obtain ⟨l, there, -, language', range'⟩ := shows.exists_layer
      exact ⟨l, there, .inr ⟨n, v, shows⟩, language'.trans isLanguage, range'.trans isRange⟩
  have parsed :=
    parseLayer_ok (t := { t with text }) steady engine.depth standing.sound rfl there owned
  rw [isLanguage, isRange] at parsed
  rw [parse, modify_bind, get_bind]
  apply parsed.mono (fun endless => endless)
  rintro t' ⟨n, v, shows, language', range', parsed, prefers, carries⟩
  exact ⟨carries.sound, carries.registry, carries.text, v,
    .of_carries carries shows language' range' parsed, prefers⟩

/-- An edit leads to parsed layers. -/
theorem applyEdit_ok (steady : engine.Steady tree) (edit : TextEdit) (text : TextBuffer)
    (numbered : Numbered (settingOf tree t.registry text).known)
    (standing : t.Standing engine tree language) :
    Ends (¬(settingOf tree t.registry text).Bounded engine.depth language none)
      (fun t' => t'.store.Sound ∧ t'.registry = t.registry ∧ t'.text = text ∧
        ∃ v, t'.HasParsed engine tree language v)
      (applyEdit engine edit text t) := by
  rw [applyEdit, get_bind]
  rcases standing.layers with unparsed | ⟨v, ⟨n, shows⟩, isLanguage, isRange, parsed⟩
  · have isParsed : t.isParsed = false := by
      rw [isParsed, tree?, unparsed]
      rfl
    rw [isParsed, if_neg Bool.false_ne_true]
    apply (parse_ok steady standing text).mono (fun endless => endless)
    rintro t' ⟨sound, same, sameText, v, has, -⟩
    exact ⟨sound, same, sameText, v, has⟩
  · obtain ⟨l, there, has, -, -⟩ := shows.exists_layer
    have isParsed : t.isParsed = true := by
      rw [isParsed, tree?, layer?, there, Option.bind_some, has]
      rfl
    rw [isParsed, if_pos rfl, modify_bind, get_bind]
    have updated := updateLayer_ok (t := { t with text }) steady numbered edit engine.depth
      standing.sound rfl shows parsed.known
    rw [isLanguage, isRange] at updated
    apply updated.mono (fun endless => endless)
    rintro t' ⟨n', v', shows', language', range', parsed', carries⟩
    exact ⟨carries.sound, carries.registry, carries.text, v',
      .of_carries carries shows' language' range' parsed'⟩

/-! ### Runs -/

/-- Layers that parsing texts and taking over edits lead to. -/
inductive Reached (engine : Engine) (language : Language) (registry : Option Registry) :
    LayerTree → Prop
  | unparsed (reports : QueryReports) (order : MapOrder) :
      Reached engine language registry (unparsed language registry reports order)
  | parse {t t' : LayerTree} {text : TextBuffer} :
      Reached engine language registry t → parse engine text t = .ok () t' →
      Reached engine language registry t'
  | edit {t t' : LayerTree} {text : TextBuffer} {edit : TextEdit} :
      Reached engine language registry t → applyEdit engine edit text t = .ok () t' →
      Reached engine language registry t'

/-- Layers that are reached are parsed, unless nothing has been parsed. -/
theorem Reached.standing (steady : engine.Steady tree)
    (numbered : Numbered fun name => registry.bind (·.language? name))
    (reached : Reached engine language registry t) :
    t.registry = registry ∧ t.Standing engine tree language := by
  induction reached with
  | unparsed reports order =>
      exact ⟨rfl, standing_unparsed engine tree language registry reports order⟩
  | @parse t t' text _ run ih =>
      obtain ⟨same, standing⟩ := ih
      have parsed := parse_ok steady standing text
      rw [run] at parsed
      obtain ⟨sound, same', -, v, has, -⟩ := parsed
      exact ⟨same'.trans same, sound, .inr ⟨v, has⟩⟩
  | @edit t t' text edit _ run ih =>
      obtain ⟨same, standing⟩ := ih
      have edited := applyEdit_ok steady edit text (by rwa [same]) standing
      rw [run] at edited
      obtain ⟨sound, same', -, v, has⟩ := edited
      exact ⟨same'.trans same, sound, .inr ⟨v, has⟩⟩

/-- The layers behind an edit against those of a fresh parse of the text, whatever the orders of
their maps. They are the same exactly when every place prefers its first candidate, and always where
candidates at one place are in one language. Both end unless parts in parts go deeper than there is
room for. -/
theorem edited_eq_parsed_iff (steady : engine.Steady tree)
    (numbered : Numbered fun name => registry.bind (·.language? name))
    (reached : Reached engine language registry t) (edit : TextEdit) (text : TextBuffer)
    (reports : QueryReports) (order : MapOrder) :
    ((settingOf tree registry text).Bounded engine.depth language none →
      (∃ t', applyEdit engine edit text t = .ok () t') ∧
        ∃ t₀, parse engine text (unparsed language registry reports order) = .ok () t₀) ∧
    ∀ t' t₀, applyEdit engine edit text t = .ok () t' →
      parse engine text (unparsed language registry reports order) = .ok () t₀ →
      ∃ v v₀, t'.HasLayers engine v ∧ t₀.HasLayers engine v₀ ∧
        (v = v₀ ↔ (settingOf tree registry text).Prefers v) ∧
        ((settingOf tree registry text).Unambiguous v₀ → v = v₀) := by
  obtain ⟨rfl, standing⟩ := reached.standing steady numbered
  have edited := applyEdit_ok steady edit text numbered standing
  have parsed := parse_ok steady
    (standing_unparsed engine tree language t.registry reports order) text
  refine ⟨fun bounded => ⟨?_, ?_⟩, ?_⟩
  · obtain ⟨t', run, -⟩ := edited.exists_ok fun endless => endless bounded
    exact ⟨t', run⟩
  · obtain ⟨t₀, run, -⟩ := parsed.exists_ok fun endless => endless bounded
    exact ⟨t₀, run⟩
  · intro t' t₀ run run₀
    rw [run] at edited
    rw [run₀] at parsed
    obtain ⟨-, same, sameText, v, has⟩ := edited
    obtain ⟨-, same₀, sameText₀, v₀, has₀, prefers₀⟩ := parsed
    have here : (settingOf tree t.registry text).Parsed v := by
      rw [← same, ← sameText]
      exact has.parsed
    have there : (settingOf tree t.registry text).Parsed v₀ := by
      have parsed₀ := has₀.parsed
      rwa [same₀, sameText₀] at parsed₀
    have sameLanguage := has.language.trans has₀.language.symm
    have sameRange := has.range.trans has₀.range.symm
    have iff := Setting.prefers_iff_eq here there prefers₀ sameLanguage sameRange
    refine ⟨v, v₀, has.has, has₀.has, iff.symm, fun unambiguous => iff.mp ?_⟩
    exact here.prefers prefers₀ unambiguous sameLanguage sameRange

/-! ### A layer that is kept for a later candidate -/

/-- A tree or the nodes right below it, those of a kind. -/
def kindMatches (kind : String) (tree : Node) : List Query.QueryMatch :=
  if tree.kind = kind then [⟨0, [(0, ⟨[], tree⟩)]⟩]
  else (tree.children.zipIdx.filter (·.1.kind = kind)).map fun child =>
    ⟨0, [(0, ⟨[child.2], child.1⟩)]⟩

theorem kindMatches_at (kind : String) (tree : Node) : ∀ m ∈ kindMatches kind tree,
    ∀ capture ∈ m.captures, tree.nodeAt? capture.2.path = some capture.2.node := by
  intro m mem capture among
  rw [kindMatches] at mem
  split at mem
  · obtain rfl := List.mem_singleton.mp mem
    obtain rfl := List.mem_singleton.mp among
    rw [Node.nodeAt?]
  · obtain ⟨⟨x, i⟩, child, rfl⟩ := List.mem_map.mp mem
    obtain rfl := List.mem_singleton.mp among
    have there := List.mem_zipIdx_iff_getElem?.mp (List.mem_filter.mp child).1
    rw [Node.nodeAt?, there, Option.bind_some, Node.nodeAt?]

/-- A query that captures the nodes of a kind under its name. -/
def kindQuery (kind : String) : Query := .ofCompiled (fun _ => none) {
  captureNames := [kind]
  patterns := [⟨[], []⟩]
  matchesIn := fun tree _ _ => kindMatches kind tree
  captured_at := fun tree _ _ => kindMatches_at kind tree }

/-- The matches of a document of a mark and a body. The first pattern wants a tag in front of the
body, the second captures the body alone. -/
def bodyMatches (tree : Node) : List Query.QueryMatch :=
  match tree.children with
  | [mark, body] =>
      let whole (pattern : Nat) : Query.QueryMatch := ⟨pattern, [(0, ⟨[1], body⟩)]⟩
      if mark.kind = "tag" then [whole 0, whole 1] else [whole 1]
  | _ => []

theorem bodyMatches_at (tree : Node) : ∀ m ∈ bodyMatches tree, ∀ capture ∈ m.captures,
    tree.nodeAt? capture.2.path = some capture.2.node := by
  intro m mem capture among
  rw [bodyMatches] at mem
  split at mem
  · next mark body children =>
      have same : capture = (0, ⟨[1], body⟩) := by
        dsimp only at mem
        split at mem <;> simp only [List.mem_cons, List.not_mem_nil, or_false] at mem <;>
          rcases mem with rfl | rfl <;> exact List.mem_singleton.mp among
      rw [same, Node.nodeAt?, children, List.getElem?_cons_succ, List.getElem?_cons_zero,
        Option.bind_some, Node.nodeAt?]
  · cases mem

/-- The parts of a document of a mark and a body. Behind a tag the body is tagged, else it is
plain. -/
def bodyQuery : Query := .ofCompiled (fun _ => none) {
  captureNames := ["content"]
  patterns := [⟨[], [(languageKey, some "tagged")]⟩, ⟨[], [(languageKey, some "plain")]⟩]
  matchesIn := fun tree _ _ => bodyMatches tree
  captured_at := fun tree _ _ => bodyMatches_at tree }

def outer : Language := ⟨0, "outer", none, some bodyQuery, none⟩

def plain : Language := ⟨1, "plain", none, none, none⟩

def tagged : Language := ⟨2, "tagged", none, none, none⟩

def bodyLanguages : Registry := ⟨[("plain", plain), ("tagged", tagged)]⟩

def leaf (kind : String) (start stop : Nat) : Node :=
  ⟨kind, true, ⟨start, 0, start⟩, ⟨stop, 0, stop⟩, []⟩

/-- The tree of a document, where a sharp sign is a tag, or of a part of it. -/
def markedTree (_ : Language) (text : TextBuffer) (range : Option ByteRange) : Node :=
  match range, text.chars with
  | none, '#' :: _ => ⟨"document", true, ⟨0, 0, 0⟩, ⟨4, 0, 4⟩, [leaf "tag" 0 2, leaf "body" 2 4]⟩
  | none, _ => ⟨"document", true, ⟨0, 0, 0⟩, ⟨4, 0, 4⟩, [leaf "mark" 0 2, leaf "body" 2 4]⟩
  | some r, _ => leaf "text" r.location (r.location + r.length)

def markedEngine : Engine where
  parse := fun _ language text range => .ok (markedTree language text range)
  shift := fun _ root => root
  branchAt := fun root p => (root.children.find? (·.holds p)).toList ++ [root]
  has_of_mem_branchAt := fun root p x mem => by
    rcases List.mem_append.mp mem with child | itself
    · exact .child (List.mem_of_find?_eq_some (Option.mem_toList.mp child)) (.self x)
    · exact List.mem_singleton.mp itself ▸ .self root
  depth := 12

theorem markedEngine_steady : markedEngine.Steady markedTree where
  parse := fun _ _ _ _ => rfl
  site := fun _ _ _ same => (Site.mk.inj same).2

theorem bodyLanguages_numbered :
    Numbered fun name => (some bodyLanguages).bind (·.language? name) := by
  have either : ∀ name l, bodyLanguages.language? name = some l → l = plain ∨ l = tagged := by
    intro name l known
    have mem := mem_of_lookup known
    rcases List.mem_cons.mp mem with same | mem
    · exact .inl (Prod.mk.inj same).2
    · exact .inr (Prod.mk.inj (List.mem_singleton.mp mem)).2
  intro name name' a b known known' same
  rcases either name a known with rfl | rfl
  · rcases either name' b known' with rfl | rfl
    · rfl
    · cases same
  · rcases either name' b known' with rfl | rfl
    · cases same
    · rfl

/-- A document without a tag. -/
def dashText : TextBuffer := ⟨['-', 'x']⟩

/-- The document with a tag in place of the dash. -/
def sharpText : TextBuffer := ⟨['#', 'x']⟩

def toSharp : TextEdit := ⟨⟨0, 2⟩, 2, ⟨0, 0⟩, ⟨0, 1⟩, ⟨0, 1⟩⟩

theorem dash_injections :
    (injectionsOf bodyQuery (markedTree outer dashText none) dashText {}).1 =
      [⟨[1], "plain", ⟨2, 2⟩⟩] := by
  rw [injectionsOf, Query.supportedMatches]
  have sorted : [(⟨"content", [1], leaf "body" 2 4, some "plain", 0⟩ : InjectionCapture)].mergeSort
      InjectionCapture.le = _ := List.mergeSort_of_pairwise (by decide)
  exact congrArg (InjectionCapture.injections (Node.text dashText)) sorted

theorem sharp_injections :
    (injectionsOf bodyQuery (markedTree outer sharpText none) sharpText {}).1 =
      [⟨[1], "tagged", ⟨2, 2⟩⟩, ⟨[1], "plain", ⟨2, 2⟩⟩] := by
  rw [injectionsOf, Query.supportedMatches]
  have sorted : [(⟨"content", [1], leaf "body" 2 4, some "tagged", 0⟩ : InjectionCapture),
      ⟨"content", [1], leaf "body" 2 4, some "plain", 1⟩].mergeSort InjectionCapture.le = _ :=
    List.mergeSort_of_pairwise (by decide)
  exact congrArg (InjectionCapture.injections (Node.text sharpText)) sorted

/-- The layer of a document, whose tree came out of the parse with a number, and a layer of its
body. The body is a child at its places in the trees of some parses. -/
def bodyLayers (text : TextBuffer) (n : Nat) (places : List Nat) (language : Language)
    (inner parses : Nat) (reports : QueryReports) : LayerTree where
  store := ⟨#[⟨0, some ⟨outer, some ⟨n, markedTree outer text none⟩, none,
      places.map fun k => (⟨k, [1]⟩, ⟨1, 0⟩), none⟩⟩,
    ⟨0, some ⟨language, some ⟨inner, leaf "text" 2 4⟩, some ⟨0, 0⟩, [], some ⟨2, 2⟩⟩⟩], []⟩
  root := ⟨0, 0⟩
  registry := some bodyLanguages
  text := text
  parses := parses
  reports := reports
  order := .oldestFirst

/-- A document whose parts have no layers yet. -/
def newDocument (text : TextBuffer) : LayerTree where
  store := ⟨#[⟨0, some ⟨outer, some ⟨0, markedTree outer text none⟩, none, [], none⟩⟩], []⟩
  root := ⟨0, 0⟩
  registry := some bodyLanguages
  text := text
  parses := 1
  reports := {}
  order := .oldestFirst

theorem parse_outer (text : TextBuffer) :
    parse markedEngine text (unparsed outer (some bodyLanguages) {} .oldestFirst) =
      (injections markedEngine ⟨0, 0⟩ >>= fun found =>
        found.forM (createInjected (parseLayer markedEngine 11) ⟨0, 0⟩))
        (newDocument text) := rfl

theorem parse_dash : ∃ reports,
    parse markedEngine dashText (unparsed outer (some bodyLanguages) {} .oldestFirst) =
      .ok () (bodyLayers dashText 0 [0] plain 1 2 reports) := by
  have there : (newDocument dashText).layer? ⟨0, 0⟩ =
      some ⟨outer, some ⟨0, markedTree outer dashText none⟩, none, [], none⟩ := rfl
  obtain ⟨reports, run⟩ := injections_eq markedEngine there rfl rfl
  have text : (newDocument dashText).text = dashText := rfl
  rw [text, dash_injections] at run
  refine ⟨reports, ?_⟩
  rw [parse_outer, bind_ok run]
  rfl

theorem parse_sharp : ∃ reports,
    parse markedEngine sharpText (unparsed outer (some bodyLanguages) {} .oldestFirst) =
      .ok () (bodyLayers sharpText 0 [0] tagged 1 2 reports) := by
  have there : (newDocument sharpText).layer? ⟨0, 0⟩ =
      some ⟨outer, some ⟨0, markedTree outer sharpText none⟩, none, [], none⟩ := rfl
  obtain ⟨reports, run⟩ := injections_eq markedEngine there rfl rfl
  have text : (newDocument sharpText).text = sharpText := rfl
  rw [text, sharp_injections] at run
  refine ⟨reports, ?_⟩
  rw [parse_outer, bind_ok run]
  rfl

/-- The plain layer is kept, and the tagged body finds its place taken. -/
theorem applyEdit_toSharp (reports : QueryReports) : ∃ reports',
    applyEdit markedEngine toSharp sharpText (bodyLayers dashText 0 [0] plain 1 2 reports) =
      .ok () (bodyLayers sharpText 2 [2] plain 3 4 reports') := by
  have parsed :
      applyEdit markedEngine toSharp sharpText (bodyLayers dashText 0 [0] plain 1 2 reports) =
        updateChildren markedEngine (updateLayer markedEngine toSharp 11)
          (parseLayer markedEngine 11) toSharp ⟨0, 0⟩
          (bodyLayers sharpText 2 [0] plain 1 3 reports) := rfl
  have there (r : QueryReports) : (bodyLayers sharpText 2 [0] plain 1 3 r).layer? ⟨0, 0⟩ =
      some ⟨outer, some ⟨2, markedTree outer sharpText none⟩, none, [(⟨0, [1]⟩, ⟨1, 0⟩)], none⟩ :=
        rfl
  obtain ⟨reports', run⟩ : ∃ reports',
      injections markedEngine ⟨0, 0⟩ (bodyLayers sharpText 2 [0] plain 1 3 reports) =
        .ok [(⟨2, [1]⟩, ⟨[1], "tagged", ⟨2, 2⟩⟩), (⟨2, [1]⟩, ⟨[1], "plain", ⟨2, 2⟩⟩)]
          (bodyLayers sharpText 2 [0] plain 1 3 reports') := by
    obtain ⟨reports', run⟩ := injections_eq markedEngine (there reports) rfl rfl
    have text : (bodyLayers sharpText 2 [0] plain 1 3 reports).text = sharpText := rfl
    rw [text, sharp_injections] at run
    exact ⟨reports', run⟩
  have assigned : [((⟨2, [1]⟩ : Site), (⟨[1], "tagged", ⟨2, 2⟩⟩ : Injection)),
        (⟨2, [1]⟩, ⟨[1], "plain", ⟨2, 2⟩⟩)].foldlM (assign toSharp)
        { orphans := [(⟨0, [1]⟩, ⟨1, 0⟩)] } (bodyLayers sharpText 2 [] plain 1 3 reports') =
      .ok ⟨[], [(⟨2, [1]⟩, ⟨1, 0⟩)], [⟨⟨2, [1]⟩, ⟨[1], "tagged", ⟨2, 2⟩⟩, tagged⟩]⟩
        (bodyLayers sharpText 2 [] plain 1 3 reports') := rfl
  have settled : settle (updateLayer markedEngine toSharp 11) (parseLayer markedEngine 11) ⟨0, 0⟩
        ⟨[], [(⟨2, [1]⟩, ⟨1, 0⟩)], [⟨⟨2, [1]⟩, ⟨[1], "tagged", ⟨2, 2⟩⟩, tagged⟩]⟩
        (bodyLayers sharpText 2 [] plain 1 3 reports') =
      .ok () (bodyLayers sharpText 2 [2] plain 3 4 reports') := by
    have kept : keepChild (updateLayer markedEngine toSharp 11) ⟨0, 0⟩ (⟨2, [1]⟩, ⟨1, 0⟩)
        (bodyLayers sharpText 2 [] plain 1 3 reports') =
      .ok () (bodyLayers sharpText 2 [2] plain 3 4 reports') := rfl
    have passed : createChild (parseLayer markedEngine 11) ⟨0, 0⟩
        ⟨⟨2, [1]⟩, ⟨[1], "tagged", ⟨2, 2⟩⟩, tagged⟩
          (bodyLayers sharpText 2 [2] plain 3 4 reports') =
      .ok () (bodyLayers sharpText 2 [2] plain 3 4 reports') := rfl
    rw [settle, onStore_bind, get_bind]
    exact (bind_ok (bind_ok kept)).trans (bind_ok passed)
  refine ⟨reports', ?_⟩
  rw [parsed, updateChildren, bind_ok run, get_bind, there reports']
  dsimp only
  rw [modifyLayer_bind]
  exact (bind_ok assigned).trans settled

/-- The layer in a document, by its language. -/
theorem HasLayers.language_eq {l : Language} {n inner parses : Nat} {reports : QueryReports}
    {v : Layers}
    (has : (bodyLayers text n [n] l inner parses reports).HasLayers markedEngine v) :
    (v.inner [1]).map (·.language) = some l := by
  obtain ⟨m, shows⟩ := has
  obtain ⟨-, path, k, u, here, there, shown⟩ := shows.child rfl (List.mem_singleton_self _)
  obtain ⟨rfl, rfl⟩ := Site.mk.inj here
  obtain ⟨l', there', -, language, -⟩ := shown.exists_layer
  obtain rfl := Option.some.inj there'
  rw [there, Option.map_some, ← language]

/-- An edit that puts a tag in front of a body keeps its plain layer, where a fresh parse of the
text has a tagged one. -/
theorem edited_ne_parsed : ∃ t t' t₀ v v₀, Reached markedEngine outer (some bodyLanguages) t ∧
    applyEdit markedEngine toSharp sharpText t = .ok () t' ∧
    parse markedEngine sharpText (unparsed outer (some bodyLanguages) {} .oldestFirst) = .ok () t₀ ∧
    t'.HasLayers markedEngine v ∧ t₀.HasLayers markedEngine v₀ ∧ v ≠ v₀ ∧
    ¬(settingOf markedTree (some bodyLanguages) sharpText).Prefers v := by
  obtain ⟨_, before⟩ := parse_dash
  obtain ⟨_, edited⟩ := applyEdit_toSharp _
  obtain ⟨_, fresh⟩ := parse_sharp
  have reached := (Reached.unparsed {} .oldestFirst).parse before
  obtain ⟨v, v₀, has, has₀, iff, -⟩ := (edited_eq_parsed_iff markedEngine_steady
    bodyLanguages_numbered reached toSharp sharpText {} .oldestFirst).2 _ _ edited fresh
  have differ : v ≠ v₀ := by
    rintro rfl
    have same := has.language_eq.symm.trans has₀.language_eq
    cases same
  exact ⟨_, _, _, v, v₀, reached, edited, fresh, has, has₀, differ, fun prefers =>
    differ (iff.mpr prefers)⟩

end CodeEditor.Layer.LayerTree

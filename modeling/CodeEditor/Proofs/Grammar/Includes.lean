import CodeEditor.Pattern.Match
import CodeEditor.Proofs.Grammar.Numbering

/-!
The candidates of a compiled grammar and the references in the written one.

References and groups of a grammar only stand for rules, and `Definition.standsFor` says for which.
A grammar is `Circular` when following them from its patterns, or from the members of any of its
regions, comes back to where it was; phrases and regions end every way down, so what a region holds
may well lead back to the region. `Ready` says what a compiled grammar is to the written one: the
same rules under numbers, and as candidates the expansion of its patterns and of the members of each
region.

`compile_ready` says that a grammar whose patterns and references can be resolved is refused exactly
when it is circular, and is ready in that sense otherwise.
-/

namespace CodeEditor.Grammar

namespace Definition

/-- The rules that a written rule stands for, by one step. -/
def standsFor (d : Definition) : Rule → Option (List Rule)
  | .phrase .. => none
  | .region .. => none
  | .reference target => do
      let place ← d.place? target
      let entry ← d.repository[place]?
      return [entry.2]
  | .group members => some members

/-- The rules from which candidates are looked for. -/
inductive Starts (d : Definition) : Rule → Prop
  | pattern {rule : Rule} : rule ∈ d.patterns → Starts d rule
  | inRegion {scope : Option String} {opening closing : String} {members : List Rule}
      {openingCaptures closingCaptures : CaptureScopes} {rule : Rule} :
      d.Occurs (.region scope opening closing members openingCaptures closingCaptures) →
      rule ∈ members → Starts d rule

/-- References and groups lead around a circle. -/
def Circular (d : Definition) : Prop := ∃ rule, d.Starts rule ∧ Grammar.Circular d.standsFor rule

end Definition

/-- Some rules of a grammar under their numbers, and the numbers of all that they stand for. -/
structure Expanded (d : Definition) (g : Compiled) (sources written : List Rule)
    (ids out : List RuleId) : Prop where
  numbers : List.Forall₂ (Numbers sources) ids written
  expands : Expands (standsFor g.rules) ids out
  /-- The numbers are those of the rules that are found in the written grammar. -/
  found : ∃ rules, Expands d.standsFor written rules ∧ List.Forall₂ (Numbers sources) out rules
  /-- Only phrases and regions are found. -/
  leaves : ∀ id ∈ out, ∃ rule, g.rule? id = some rule ∧ rule.standsFor = none

/-- A compiled grammar does what the written one says. The rules have their numbers in the order of
`sources`, and `tops` are the numbers of the patterns. -/
structure Ready (engine : PatternEngine) (d : Definition) (g : Compiled) (sources : List Rule)
    (tops : List RuleId) : Prop where
  name : g.name = d.name
  scopeName : g.scopeName = d.scopeName
  rules : Numbered engine d g.rules sources tops
  complete : ∀ rule, d.Occurs rule → ∃ id, Numbers sources id rule
  root : Expanded d g sources d.patterns tops g.root
  regions : ∀ id r, g.region? id = some r → ∃ scope opening closing members openingCaptures
    closingCaptures,
      Numbers sources id (.region scope opening closing members openingCaptures closingCaptures) ∧
        Expanded d g sources members r.members r.candidates
  /-- Every number that occurs is that of a rule. -/
  bounded : (∀ id ∈ g.root, id < g.rules.size) ∧ ∀ id, ∀ m ∈ g.mentions id, m < g.rules.size

variable {engine : PatternEngine} {d : Definition} {rules rules' : Array CompiledRule}
    {sources written : List Rule}
  {ids out tops : List RuleId} {id : RuleId} {rule : Rule}

theorem Definition.exists_of_place {target : String} (place : d.place? target = some id) :
    ∃ entry, d.repository[id]? = some entry := by
  rw [Definition.place?] at place
  split at place
  · obtain ⟨inside, -⟩ := List.findIdx?_eq_some_iff_getElem.mp place
    exact ⟨_, List.getElem?_eq_getElem inside⟩
  · cases place

namespace Numbered

/-- A rule stands for as much as its number. -/
theorem related (numbered : Numbered engine d rules sources tops) :
    ∀ id rule, Numbers sources id rule →
      Option.Rel (List.Forall₂ (Numbers sources)) (standsFor rules id) (d.standsFor rule) := by
  intro id rule numbers
  obtain ⟨compiled, there, compiles⟩ := numbered.exists_compiled numbers
  rw [standsFor, there, Option.bind_some]
  cases compiles with
  | phrase => exact .none
  | region => exact .none
  | group members => exact .some members
  | @reference target id' place =>
      obtain ⟨⟨name, rule⟩, entry⟩ := Definition.exists_of_place place
      have stands : d.standsFor (.reference target) = some [rule] := by
        rw [Definition.standsFor, place, Option.bind_eq_bind, Option.bind_some, entry]
        rfl
      rw [stands]
      exact .some (.cons (numbered.repository id' name rule entry) .nil)

theorem lt_size (numbered : Numbered engine d rules sources tops)
    (numbers : Numbers sources id rule) :
    id < rules.size := by
  obtain ⟨inside, -⟩ := List.getElem?_eq_some_iff.mp numbers
  rwa [numbered.size] at inside

/-- A circle of numbers is one of rules. -/
theorem circular (numbered : Numbered engine d rules sources tops)
    (numbers : Numbers sources id rule)
    (circular : Circular (standsFor rules) id) : Circular d.standsFor rule := by
  refine circular.related numbered.related ?_ numbers
  intro id rule rule' here here'
  exact Option.some.inj (here.symm.trans here')

/-- What the numbers of some rules stand for is what the rules stand for. -/
theorem expanded {g : Compiled} (numbered : Numbered engine d g.rules sources tops)
    (numbers : List.Forall₂ (Numbers sources) ids written)
    (expands : Expands (standsFor g.rules) ids out) : Expanded d g sources written ids out where
  numbers := numbers
  expands := expands
  found := expands.related numbered.related numbers
  leaves := by
    intro id mem
    obtain ⟨rules', -, found⟩ := expands.related numbered.related numbers
    obtain ⟨rule, -, numbers'⟩ := exists_of_mem_left found mem
    obtain ⟨compiled, there, -⟩ := numbered.exists_compiled numbers'
    refine ⟨compiled, there, ?_⟩
    have leaf := expands.stands_eq_none id mem
    rwa [standsFor, there, Option.bind_some] at leaf

/-- Every numbered rule is compiled from one that is written. -/
theorem exists_source (numbered : Numbered engine d rules sources tops) {compiled : CompiledRule}
    (there : rules[id]? = some compiled) :
    ∃ rule, Numbers sources id rule ∧ Compiles engine d sources rule compiled := by
  obtain ⟨inside, -⟩ := Array.getElem?_eq_some_iff.mp there
  rw [← numbered.size] at inside
  have numbers := List.getElem?_eq_getElem inside
  exact ⟨_, numbers, numbered.compiles id _ _ numbers there⟩

theorem exists_region (numbered : Numbered engine d rules sources tops) {r : Region}
    (there : rules[id]? = some (.region r)) :
    ∃ scope opening closing members openingCaptures closingCaptures,
      Numbers sources id (.region scope opening closing members openingCaptures closingCaptures) ∧
        List.Forall₂ (Numbers sources) r.members members := by
  obtain ⟨rule, numbers, compiles⟩ := numbered.exists_source there
  cases compiles with
  | region _ _ members => exact ⟨_, _, _, _, _, _, numbers, members⟩

end Numbered

/-! ### Filling in candidates -/

theorem getElem?_of_forall₂ {α β : Type} {r : α → β → Prop} {as : List α} {bs : List β}
    (rel : List.Forall₂ r as bs) (i : Nat) : Option.Rel r as[i]? bs[i]? := by
  induction rel generalizing i with
  | nil => exact .none
  | cons first _ ih =>
      cases i with
      | zero => exact .some first
      | succ i => exact ih i

/-- Only regions are changed when candidates are filled in. -/
theorem expanded_cases {compiled compiled' : CompiledRule}
    (ok : compiled.expanded rules = .ok compiled') :
    compiled' = compiled ∧ (∀ r, compiled ≠ .region r) ∨
      ∃ r out, compiled = .region r ∧ candidates rules r.members = .ok out ∧
        compiled' = .region { r with candidates := out } := by
  cases compiled with
  | region r =>
      obtain ⟨out, here, same⟩ := bind_eq_ok_iff.mp ok
      cases same
      exact .inr ⟨r, out, rfl, here, rfl⟩
  | phrase | reference | group =>
      cases ok
      exact .inl ⟨rfl, fun r same => by cases same⟩

/-- The rules of a grammar, and the same rules with their candidates. -/
def Filled (rules rules' : Array CompiledRule) : Prop :=
  List.Forall₂ (fun compiled compiled' => compiled.expanded rules = .ok compiled') rules.toList
    rules'.toList

theorem filled_of_mapM (ok : rules.mapM (CompiledRule.expanded rules) = .ok rules') :
    Filled rules rules' := by
  apply forall₂_of_mapM_ok
  rw [← Array.toList_mapM, ok]
  rfl

namespace Filled

theorem size_eq (filled : Filled rules rules') : rules'.size = rules.size := filled.length_eq.symm

theorem rel_getElem? (filled : Filled rules rules') (id : RuleId) :
    Option.Rel (fun compiled compiled' => compiled.expanded rules = .ok compiled') rules[id]?
      rules'[id]? := by
  rw [← Array.getElem?_toList, ← Array.getElem?_toList]
  exact getElem?_of_forall₂ filled id

/-- What a rule was before its candidates were filled in. -/
theorem exists_before (filled : Filled rules rules') {compiled' : CompiledRule}
    (there : rules'[id]? = some compiled') :
    ∃ compiled, rules[id]? = some compiled ∧ compiled.expanded rules = .ok compiled' := by
  have here := filled.rel_getElem? id
  rw [there] at here
  generalize rules[id]? = before at here
  cases here with
  | some ok => exact ⟨_, rfl, ok⟩

theorem exists_after (filled : Filled rules rules') {compiled : CompiledRule}
    (there : rules[id]? = some compiled) :
    ∃ compiled', rules'[id]? = some compiled' ∧ compiled.expanded rules = .ok compiled' := by
  have here := filled.rel_getElem? id
  rw [there] at here
  generalize rules'[id]? = behind at here
  cases here with
  | some ok => exact ⟨_, rfl, ok⟩

/-- Candidates do not change what a rule stands for. -/
theorem standsFor_eq (filled : Filled rules rules') : standsFor rules' = standsFor rules := by
  funext id
  rw [standsFor, standsFor]
  cases there : rules'[id]? with
  | none =>
      cases before : rules[id]? with
      | none => rfl
      | some compiled =>
          obtain ⟨compiled', there', -⟩ := filled.exists_after before
          cases there.symm.trans there'
  | some compiled' =>
      obtain ⟨compiled, before, ok⟩ := filled.exists_before there
      rw [before]
      rcases expanded_cases ok with ⟨rfl, -⟩ | ⟨r, out, rfl, -, rfl⟩
      · rfl
      · rfl

theorem numbered (filled : Filled rules rules') (numbered : Numbered engine d rules sources tops) :
    Numbered engine d rules' sources tops where
  size := numbered.size.trans filled.size_eq.symm
  compiles := by
    intro id rule compiled' numbers there
    obtain ⟨compiled, before, ok⟩ := filled.exists_before there
    have compiles := numbered.compiles id rule compiled numbers before
    rcases expanded_cases ok with ⟨rfl, -⟩ | ⟨r, out, rfl, -, rfl⟩
    · exact compiles
    · cases compiles with
      | region opening closing members => exact .region opening closing members
  repository := numbered.repository
  tops := numbered.tops
  occurs := numbered.occurs

end Filled

/-! ### Compiling a grammar -/

/-- Compiling a grammar whose rules can be numbered is a matter of filling in the candidates. -/
theorem compile_of_numbered
    (numbered : (do
      numberRepository engine d.places (d.repository.zipIdx.map fun ((_, rule), id) => (id, rule))
      numberAll engine d.places d.patterns : Numbering (List RuleId))
        (Array.replicate d.repository.zipIdx.length (.group [])) = .ok (tops, rules)) :
    d.compile engine = (do
      let root ← candidates rules tops
      let rules ← rules.mapM (CompiledRule.expanded rules)
      return { name := d.name, scopeName := d.scopeName, rules, root }) := by
  rw [Definition.compile]
  exact (congrArg (· >>= _) numbered).trans rfl

theorem Compiled.region?_eq_some_iff {g : Compiled} {r : Region} :
    g.region? id = some r ↔ g.rule? id = some (.region r) := by
  constructor
  · intro there
    rw [region?] at there
    split at there
    · next r' here =>
        cases there
        exact here
    · cases there
  · intro there
    rw [region?, there]

variable {g : Compiled}

theorem Numbered.lt_size_of_mem (numbered : Numbered engine d g.rules sources tops)
    (numbers : List.Forall₂ (Numbers sources) ids written) : ∀ id ∈ ids, id < g.rules.size := by
  intro id mem
  obtain ⟨rule, -, here⟩ := exists_of_mem_left numbers mem
  exact numbered.lt_size here

namespace Filled

/-- The candidates of a region are what its members stand for. -/
theorem regions (filled : Filled rules g.rules) (numbered : Numbered engine d g.rules sources tops)
    {r : Region}
    (there : g.region? id = some r) :
    ∃ scope opening closing members openingCaptures closingCaptures,
      Numbers sources id (.region scope opening closing members openingCaptures closingCaptures) ∧
        Expanded d g sources members r.members r.candidates := by
  have here := Compiled.region?_eq_some_iff.mp there
  obtain ⟨scope, opening, closing, members, openingCaptures, closingCaptures, numbers, inside⟩ :=
    numbered.exists_region here
  refine ⟨scope, opening, closing, members, openingCaptures, closingCaptures, numbers, ?_⟩
  obtain ⟨compiled, -, ok⟩ := filled.exists_before here
  rcases expanded_cases ok with ⟨rfl, other⟩ | ⟨r', out, rfl, found, same⟩
  · exact absurd rfl (other r)
  · cases same
    exact numbered.expanded inside (filled.standsFor_eq ▸ candidates_ok found)

/-- The numbers that a rule speaks of are those of rules. -/
theorem mentions_lt (filled : Filled rules g.rules)
    (numbered : Numbered engine d g.rules sources tops) :
    ∀ m ∈ g.mentions id, m < g.rules.size := by
  intro m mem
  rw [Compiled.mentions] at mem
  split at mem
  · next r there =>
      obtain ⟨_, _, _, _, _, _, -, expanded⟩ :=
        filled.regions numbered (Compiled.region?_eq_some_iff.mpr there)
      obtain ⟨_, -, found⟩ := expanded.found
      rcases List.mem_append.mp mem with member | candidate
      · exact numbered.lt_size_of_mem expanded.numbers m member
      · exact numbered.lt_size_of_mem found m candidate
  · next target there =>
      obtain rfl := List.mem_singleton.mp mem
      obtain ⟨rule, -, compiles⟩ := numbered.exists_source there
      cases compiles with
      | reference place =>
          obtain ⟨⟨name, rule⟩, entry⟩ := Definition.exists_of_place place
          exact numbered.lt_size (numbered.repository _ name rule entry)
  · next members there =>
      obtain ⟨rule, -, compiles⟩ := numbered.exists_source there
      cases compiles with
      | group numbers => exact numbered.lt_size_of_mem numbers m mem
  · cases mem

/-- A grammar whose rules are numbered and whose candidates are filled in is ready. -/
theorem ready (filled : Filled rules g.rules) (numbered : Numbered engine d rules sources tops)
    (found : candidates rules tops = .ok g.root) (name : g.name = d.name)
    (scopeName : g.scopeName = d.scopeName) : Ready engine d g sources tops := by
  have numbered' := filled.numbered numbered
  have root := numbered'.expanded numbered'.tops (filled.standsFor_eq ▸ candidates_ok found)
  refine ⟨name, scopeName, numbered', fun _ occurs => numbered'.exists_number occurs, root,
    fun _ _ there => filled.regions numbered' there, ?_, fun _ => filled.mentions_lt numbered'⟩
  obtain ⟨_, -, found⟩ := root.found
  exact numbered'.lt_size_of_mem found

end Filled

/-- A grammar that is ready is not circular. -/
theorem Ready.not_circular (ready : Ready engine d g sources tops) : ¬d.Circular := by
  rintro ⟨rule, starts, circular⟩
  cases starts with
  | pattern mem =>
      obtain ⟨_, expands, -⟩ := ready.root.found
      exact expands.not_circular rule mem circular
  | inRegion occurs mem =>
      obtain ⟨id, numbers⟩ := ready.complete _ occurs
      obtain ⟨compiled, there, compiles⟩ := ready.rules.exists_compiled numbers
      cases compiles with
      | region =>
          obtain ⟨_, _, _, _, _, _, numbers', expanded⟩ :=
            ready.regions id _ (Compiled.region?_eq_some_iff.mpr there)
          cases Option.some.inj (numbers.symm.trans numbers')
          obtain ⟨_, expands, -⟩ := expanded.found
          exact expands.not_circular rule mem circular

/-- A grammar that has no candidates is circular. -/
theorem circular_of_error {e : Error} (numbered : Numbered engine d rules sources tops)
    (stops : (do
      let root ← candidates rules tops
      let rules ← rules.mapM (CompiledRule.expanded rules)
      return { name := d.name, scopeName := d.scopeName, rules, root } : Except Error Compiled) =
        .error e) : e = .cyclicReference ∧ d.Circular := by
  rcases bind_eq_error_iff.mp stops with root | ⟨root, -, rest⟩
  · obtain ⟨reason, m, mem, circular⟩ := candidates_error root
    obtain ⟨rule, mem', numbers⟩ := exists_of_mem_left numbered.tops mem
    exact ⟨reason, rule, .pattern mem', numbered.circular numbers circular⟩
  · rcases bind_eq_error_iff.mp rest with each | ⟨rules', -, same⟩
    · have each : rules.toList.mapM (CompiledRule.expanded rules) = .error e := by
        rw [← Array.toList_mapM, each]
        rfl
      obtain ⟨compiled, mem, here⟩ := exists_of_mapM_error each
      obtain ⟨id, there⟩ := List.getElem?_of_mem mem
      rw [Array.getElem?_toList] at there
      cases compiled with
      | region r =>
          rcases bind_eq_error_iff.mp here with inside | ⟨_, -, same⟩
          · obtain ⟨reason, m, mem, circular⟩ := candidates_error inside
            obtain ⟨_, _, _, members, _, _, numbers, members'⟩ := numbered.exists_region there
            obtain ⟨rule, mem', numbers'⟩ := exists_of_mem_left members' mem
            have occurs := numbered.occurs _ (List.mem_of_getElem? numbers)
            exact ⟨reason, rule, .inRegion occurs mem', numbered.circular numbers' circular⟩
          · cases same
      | phrase | reference | group => cases here
    · cases same

/-- A grammar that can be resolved is refused exactly when its references and groups lead around a
circle that starts at its patterns or in a region. Otherwise it is made ready. -/
theorem compile_ready (resolvable : d.Resolvable engine) :
    (d.compile engine = .error .cyclicReference ↔ d.Circular) ∧
      (¬d.Circular → ∃ g sources tops, d.compile engine = .ok g ∧
        Ready engine d g sources tops) := by
  obtain ⟨tops, rules, sources, run, numbered⟩ := numbered_of_resolvable resolvable
  have compile := compile_of_numbered run
  cases result : d.compile engine with
  | error e =>
      obtain ⟨rfl, circular⟩ := circular_of_error numbered (compile.symm.trans result)
      exact ⟨⟨fun _ => circular, fun _ => rfl⟩, fun other => absurd circular other⟩
  | ok g =>
      obtain ⟨root, found, rest⟩ := bind_eq_ok_iff.mp (compile.symm.trans result)
      obtain ⟨rules', each, same⟩ := bind_eq_ok_iff.mp rest
      cases same
      have filled := filled_of_mapM each
      have ready : Ready engine d ⟨d.name, d.scopeName, rules', root⟩ sources tops :=
        filled.ready numbered found rfl rfl
      refine ⟨⟨?_, fun circular => absurd circular ready.not_circular⟩,
        fun _ => ⟨_, sources, tops, rfl, ready⟩⟩
      intro same
      cases same

/-- A group that refers to itself is refused. -/
example : (match Definition.compile (Pattern.engine Pattern.grammarDialect)
    ⟨"", "", [.reference "#a"], [("a", .group [.reference "#a"])]⟩ with
    | .error e => some e
    | .ok _ => none) = some .cyclicReference := by decide +kernel

/-- A list of words and of lists in parentheses, and two such lists in a row. The reference back to
the list stands inside a region. -/
def nestedLists : Definition where
  name := "lists"
  scopeName := "source.lists"
  patterns := [.reference "#list", .reference "#list"]
  repository := [("list", .group
    [.phrase "word" "[a-z]+" .empty, .region none "[(]" "[)]" [.reference "#list"] .empty .empty])]

theorem cases_of_occurs (occurs : nestedLists.Occurs rule) : rule = .reference "#list" ∨
    rule = .phrase "word" "[a-z]+" .empty ∨
    rule = .region none "[(]" "[)]" [.reference "#list"] .empty .empty ∨
    rule = .group [.phrase "word" "[a-z]+" .empty,
      .region none "[(]" "[)]" [.reference "#list"] .empty .empty] := by
  induction occurs with
  | pattern mem =>
      left
      simpa [nestedLists] using mem
  | repository mem =>
      obtain ⟨-, rfl⟩ := Prod.mk.inj (List.mem_singleton.mp mem)
      exact .inr (.inr (.inr rfl))
  | inRegion _ mem ih =>
      simp only [reduceCtorEq, Rule.region.injEq, false_or, or_false] at ih
      obtain ⟨-, -, -, rfl, -, -⟩ := ih
      exact .inl (List.mem_singleton.mp mem)
  | inGroup _ mem ih =>
      simp only [reduceCtorEq, Rule.group.injEq, false_or] at ih
      subst ih
      rcases List.mem_cons.mp mem with rfl | mem
      · exact .inr (.inl rfl)
      · exact .inr (.inr (.inl (List.mem_singleton.mp mem)))

theorem exists_searcher_of_pattern {d : Dialect} {text : String}
    (read : (Pattern.ofString? d text).isSome = true) :
    ∃ pattern, Pattern.engine d text = .ok pattern := by
  obtain ⟨pattern, read⟩ := Option.isSome_iff_exists.mp read
  exact ⟨pattern.search, by rw [Pattern.engine, read]⟩

theorem resolvable_nestedLists :
    nestedLists.Resolvable (Pattern.engine Pattern.grammarDialect) := by
  constructor
  case phrase =>
    intro scope text captures occurs
    have here := cases_of_occurs occurs
    simp only [reduceCtorEq, Rule.phrase.injEq, false_or, or_false] at here
    obtain ⟨-, rfl, -⟩ := here
    exact exists_searcher_of_pattern (by decide +kernel)
  case region =>
    intro scope opening closing members openingCaptures closingCaptures occurs
    have here := cases_of_occurs occurs
    simp only [reduceCtorEq, Rule.region.injEq, false_or, or_false] at here
    obtain ⟨-, rfl, rfl, -, -, -⟩ := here
    exact ⟨exists_searcher_of_pattern (by decide +kernel),
      exists_searcher_of_pattern (by decide +kernel)⟩
  case reference =>
    intro target occurs
    have here := cases_of_occurs occurs
    simp only [reduceCtorEq, Rule.reference.injEq, or_false] at here
    subst here
    exact ⟨0, by decide +kernel⟩

/-- The list stands among its own candidates inside the parentheses, and twice at the root. -/
theorem ready_nestedLists : ∃ g sources tops,
    nestedLists.compile (Pattern.engine Pattern.grammarDialect) = .ok g ∧
    Ready (Pattern.engine Pattern.grammarDialect) nestedLists g sources tops ∧
    g.root = [1, 3, 1, 3] ∧ (g.region? 3).map (·.candidates) = some [1, 3] := by
  have compiled :
      (nestedLists.compile (Pattern.engine Pattern.grammarDialect)).toOption.map
        (fun g => (g.root, (g.region? 3).map (·.candidates))) =
      some ([1, 3, 1, 3], some [1, 3]) := by decide +kernel
  obtain ⟨refused, accepted⟩ := compile_ready resolvable_nestedLists
  have other : ¬nestedLists.Circular := by
    intro circular
    rw [refused.mpr circular] at compiled
    cases compiled
  obtain ⟨g, sources, tops, ok, ready⟩ := accepted other
  rw [ok] at compiled
  obtain ⟨root, region⟩ := Prod.mk.inj (Option.some.inj compiled)
  exact ⟨g, sources, tops, ok, ready, root, region⟩

end CodeEditor.Grammar

import CodeEditor.Proofs.Grammar.Expansion

/-!
Numbering the rules of a grammar.

Rules that hold others are numbered behind them, and the rules of the repository have their numbers
from the start, so that they can be referred to before they are resolved. What each number stands
for is kept in a list of the rules as they are written, the *sources*: `Compiles` says that a
numbered rule is a written one with its parts replaced by their numbers.

`Extends` is what numbering does to the rules numbered so far: they stay, and those added are
compiled from rules of the grammar. `compile_ok` and `numberAll_ok` say so of one rule and of
several, for grammars in which every pattern can be read and every reference leads somewhere
(`Resolvable`), and `numbered_of_resolvable` of all rules of a grammar (`Numbered`).
-/

namespace CodeEditor.Grammar

namespace Definition

/-- The place in the repository of the rule that a text refers to. -/
def place? (d : Definition) (target : String) : Option RuleId :=
  match target.toList with
  | '#' :: name => d.repository.findIdx? (·.1 = String.ofList name)
  | _ => none

/-- The names in the repository with the numbers that their rules get. -/
def places (d : Definition) : List (String × RuleId) :=
  d.repository.zipIdx.map fun ((name, _), id) => (name, id)

/-- The rule is written somewhere in the grammar. -/
inductive Occurs (d : Definition) : Rule → Prop
  | pattern {rule : Rule} : rule ∈ d.patterns → Occurs d rule
  | repository {name : String} {rule : Rule} : (name, rule) ∈ d.repository → Occurs d rule
  | inRegion {scope : Option String} {opening closing : String} {members : List Rule}
      {openingCaptures closingCaptures : CaptureScopes} {rule : Rule} :
      Occurs d (.region scope opening closing members openingCaptures closingCaptures) →
      rule ∈ members → Occurs d rule
  | inGroup {members : List Rule} {rule : Rule} :
      Occurs d (.group members) → rule ∈ members → Occurs d rule

/-- Every pattern can be read and every reference leads somewhere. -/
structure Resolvable (engine : PatternEngine) (d : Definition) : Prop where
  phrase : ∀ scope text captures, d.Occurs (.phrase scope text captures) →
    ∃ pattern, engine text = .ok pattern
  region : ∀ scope opening closing members openingCaptures closingCaptures,
    d.Occurs (.region scope opening closing members openingCaptures closingCaptures) →
      (∃ pattern, engine opening = .ok pattern) ∧ ∃ pattern, engine closing = .ok pattern
  reference : ∀ target, d.Occurs (.reference target) → ∃ id, d.place? target = some id

end Definition

variable {engine : PatternEngine} {d : Definition} {rules rules' rules₁ rules₂ : Array CompiledRule}
  {sources sources' sources₁ sources₂ : List Rule} {id : RuleId} {rule : Rule}
  {compiled : CompiledRule}

/-- The number of a rule, in a list of rules in the order of their numbers. -/
def Numbers (sources : List Rule) (id : RuleId) (rule : Rule) : Prop := sources[id]? = some rule

/-- A rule is compiled when its patterns are read, its members numbered and its reference
resolved. -/
inductive Compiles (engine : PatternEngine) (d : Definition) (sources : List Rule) :
    Rule → CompiledRule → Prop
  | phrase {scope text : String} {captures : CaptureScopes} {pattern : Searcher} :
      engine text = .ok pattern →
      Compiles engine d sources (.phrase scope text captures) (.phrase ⟨scope, pattern, captures⟩)
  | region {scope : Option String} {opening closing : String} {members : List Rule}
      {openingCaptures closingCaptures : CaptureScopes} {openingPattern closingPattern : Searcher}
      {ids candidates : List RuleId} :
      engine opening = .ok openingPattern →
      engine closing = .ok closingPattern →
      List.Forall₂ (Numbers sources) ids members →
      Compiles engine d sources
        (.region scope opening closing members openingCaptures closingCaptures)
        (.region ⟨scope, openingPattern, closingPattern, openingCaptures, closingCaptures, ids,
          candidates⟩)
  | reference {target : String} {id : RuleId} :
      d.place? target = some id → Compiles engine d sources (.reference target) (.reference id)
  | group {members : List Rule} {ids : List RuleId} :
      List.Forall₂ (Numbers sources) ids members → Compiles engine d sources (.group members)
      (.group ids)

theorem Numbers.mono (numbers : Numbers sources id rule) (more : sources <+: sources') :
    Numbers sources' id rule := by
  obtain ⟨added, rfl⟩ := more
  obtain ⟨inside, -⟩ := List.getElem?_eq_some_iff.mp numbers
  rw [Numbers, List.getElem?_append_left inside]
  exact numbers

theorem Compiles.mono (compiles : Compiles engine d sources rule compiled)
    (more : sources <+: sources') :
    Compiles engine d sources' rule compiled := by
  cases compiles with
  | phrase read => exact .phrase read
  | region opening closing members =>
      exact .region opening closing (members.imp fun _ _ numbers => numbers.mono more)
  | reference place => exact .reference place
  | group members => exact .group (members.imp fun _ _ numbers => numbers.mono more)

/-! ### What numbering adds -/

/-- Rules were added to those numbered so far, each compiled from a rule of the grammar. -/
structure Extends (engine : PatternEngine) (d : Definition) (sources sources' : List Rule)
    (rules rules' : Array CompiledRule) : Prop where
  more : sources <+: sources'
  size : sources'.length = rules'.size
  kept : ∀ id < rules.size, rules'[id]? = rules[id]?
  compiles : ∀ id rule compiled, rules.size ≤ id → Numbers sources' id rule →
    rules'[id]? = some compiled → Compiles engine d sources' rule compiled
  occurs : ∀ rule ∈ sources', rule ∈ sources ∨ d.Occurs rule

namespace Extends

theorem refl (size : sources.length = rules.size) :
    Extends engine d sources sources rules rules where
  more := List.prefix_refl sources
  size := size
  kept := fun _ _ => rfl
  compiles := by
    intro id rule compiled behind _ there
    obtain ⟨inside, -⟩ := Array.getElem?_eq_some_iff.mp there
    omega
  occurs := fun _ mem => .inl mem

theorem size_le (extends' : Extends engine d sources sources' rules rules')
    (size : sources.length = rules.size) : rules.size ≤ rules'.size := by
  rw [← size, ← extends'.size]
  exact extends'.more.length_le

/-- What was compiled before still is. -/
theorem compiles_all (added : Extends engine d sources sources' rules rules')
    (size : sources.length = rules.size)
    (old : Numbers sources id rule → rules[id]? = some compiled →
      Compiles engine d sources rule compiled)
    (numbers : Numbers sources' id rule) (there : rules'[id]? = some compiled) :
    Compiles engine d sources' rule compiled := by
  by_cases early : id < rules.size
  · obtain ⟨more, whole⟩ := added.more
    rw [added.kept id early] at there
    rw [← whole, Numbers, List.getElem?_append_left (by rw [size]; exact early)] at numbers
    exact (old numbers there).mono added.more
  · exact added.compiles id rule compiled (Nat.le_of_not_lt early) numbers there

theorem trans (first : Extends engine d sources sources₁ rules rules₁)
    (second : Extends engine d sources₁ sources₂ rules₁ rules₂)
    (size : sources.length = rules.size) :
    Extends engine d sources sources₂ rules rules₂ where
  more := first.more.trans second.more
  size := second.size
  kept := by
    intro id inside
    have le := first.size_le size
    rw [second.kept id (by omega), first.kept id inside]
  compiles := by
    intro id rule compiled behind numbers there
    exact second.compiles_all first.size (first.compiles id rule compiled behind) numbers there
  occurs := by
    intro rule mem
    rcases second.occurs rule mem with old | occurs
    · exact first.occurs rule old
    · exact .inr occurs

/-- A compiled rule gets the next number. -/
theorem push (size : sources.length = rules.size)
    (compiles : Compiles engine d sources rule compiled)
    (occurs : d.Occurs rule) :
    Extends engine d sources (sources ++ [rule]) rules (rules.push compiled) where
  more := List.prefix_append sources [rule]
  size := by rw [List.length_append, List.length_singleton, size, Array.size_push]
  kept := by
    intro id inside
    rw [Array.getElem?_push_lt inside, Array.getElem?_eq_getElem inside]
  compiles := by
    intro id rule' compiled' behind numbers there
    obtain ⟨inside, -⟩ := Array.getElem?_eq_some_iff.mp there
    rw [Array.size_push] at inside
    obtain rfl : id = rules.size := by omega
    rw [Array.getElem?_push_size] at there
    rw [← size, Numbers, List.getElem?_concat_length] at numbers
    cases there
    cases numbers
    exact compiles.mono (List.prefix_append sources [rule])
  occurs := by
    intro rule' mem
    rcases List.mem_append.mp mem with old | new
    · exact .inl old
    · rw [List.mem_singleton.mp new]
      exact .inr occurs

end Extends

/-! ### Numbering rules -/

/-- What follows a step of numbering. -/
theorem numbering_bind {α β : Type} {x : Numbering α} {f : α → Numbering β} {a : α}
    (ok : x rules = .ok (a, rules')) : (x >>= f) rules = f a rules' := by
  show StateT.bind x f rules = _
  rw [StateT.bind, ok]
  rfl

theorem readPattern_ok {text : String} {pattern : Searcher}
    (read : engine text = .ok pattern) (rules : Array CompiledRule) :
    readPattern engine text rules = .ok (pattern, rules) := by
  rw [readPattern, read]
  rfl

theorem lookup_zipIdx (repository : List (String × Rule)) (name : String) (start : Nat) :
    ((repository.zipIdx start).map fun ((name, _), id) => (name, id)).lookup name =
      (repository.findIdx? (·.1 = name)).map (· + start) := by
  induction repository generalizing start with
  | nil => rfl
  | cons entry rest ih =>
      rw [List.zipIdx_cons, List.map_cons, List.lookup_cons, List.findIdx?_cons]
      by_cases here : entry.1 = name
      · simp [here]
      · have other : (name == entry.1) = false := by
          rw [beq_eq_false_iff_ne]
          exact fun same => here same.symm
        rw [if_neg (by simpa using here)]
        dsimp only
        rw [other]
        dsimp only
        rw [ih, Option.map_map]
        congr 1
        funext n
        exact (Nat.add_right_comm n 1 start).symm

/-- A reference is resolved to the place of its rule. -/
theorem resolve_ok {target : String} (place : d.place? target = some id) :
    resolve d.places target = .ok id := by
  rw [Definition.place?] at place
  split at place
  · next name written =>
      have found : d.places.lookup (String.ofList name) = some id := by
        rw [Definition.places, lookup_zipIdx, place]
        rfl
      have other : target ≠ "$self" := by
        rintro rfl
        cases written
      rw [resolve, if_neg other]
      simp only [written, found]
  · cases place

mutual

/-- A rule is resolved, and what it holds is numbered. -/
theorem compile_ok (resolvable : d.Resolvable engine) : ∀ (rule : Rule), d.Occurs rule →
    ∀ (rules : Array CompiledRule) (sources : List Rule), sources.length = rules.size →
      ∃ compiled sources' rules', rule.compile engine d.places rules = .ok (compiled, rules') ∧
        Extends engine d sources sources' rules rules' ∧ Compiles engine d sources' rule compiled
  | .phrase scope text captures, occurs, rules, sources, size => by
      obtain ⟨pattern, read⟩ := resolvable.phrase _ _ _ occurs
      refine ⟨_, sources, rules, ?_, .refl size, .phrase read⟩
      rw [Rule.compile, numbering_bind (readPattern_ok read rules)]
      rfl
  | .region scope opening closing members openingCaptures closingCaptures, occurs, rules, sources,
      size => by
      obtain ⟨⟨openingPattern, opens⟩, closingPattern, closes⟩ :=
        resolvable.region _ _ _ _ _ _ occurs
      obtain ⟨ids, sources', rules', numbered, extends', numbers⟩ :=
        numberAll_ok resolvable members (fun _ mem => .inRegion occurs mem) rules sources size
      refine ⟨.region ⟨scope, openingPattern, closingPattern, openingCaptures, closingCaptures,
        ids, []⟩, sources', rules', ?_, extends', .region opens closes numbers⟩
      rw [Rule.compile, numbering_bind numbered, numbering_bind (readPattern_ok opens rules'),
        numbering_bind (readPattern_ok closes rules')]
      rfl
  | .reference target, occurs, rules, sources, size => by
      obtain ⟨id, place⟩ := resolvable.reference _ occurs
      refine ⟨_, sources, rules, ?_, .refl size, .reference place⟩
      rw [Rule.compile, resolve_ok place]
      rfl
  | .group members, occurs, rules, sources, size => by
      obtain ⟨ids, sources', rules', numbered, extends', numbers⟩ :=
        numberAll_ok resolvable members (fun _ mem => .inGroup occurs mem) rules sources size
      refine ⟨_, sources', rules', ?_, extends', .group numbers⟩
      rw [Rule.compile, numbering_bind numbered]
      rfl

/-- Some rules are numbered. -/
theorem numberAll_ok (resolvable : d.Resolvable engine) : ∀ (members : List Rule),
    (∀ rule ∈ members, d.Occurs rule) →
    ∀ (rules : Array CompiledRule) (sources : List Rule), sources.length = rules.size →
      ∃ ids sources' rules', numberAll engine d.places members rules = .ok (ids, rules') ∧
        Extends engine d sources sources' rules rules' ∧ List.Forall₂ (Numbers sources') ids members
  | [], _, rules, sources, size => ⟨[], sources, rules, rfl, .refl size, .nil⟩
  | rule :: rest, occurs, rules, sources, size => by
      have here := occurs rule List.mem_cons_self
      obtain ⟨compiled, sources₁, rules₁, resolved, first, compiles⟩ :=
        compile_ok resolvable rule here rules sources size
      have second := Extends.push first.size compiles here
      obtain ⟨ids, sources₂, rules₂, numbered, third, numbers⟩ :=
        numberAll_ok resolvable rest (fun _ mem => occurs _ (List.mem_cons_of_mem _ mem))
          (rules₁.push compiled) (sources₁ ++ [rule]) second.size
      refine ⟨rules₁.size :: ids, sources₂, rules₂, ?_, (first.trans second size).trans third size,
        .cons ?_ numbers⟩
      · have pushed : number compiled rules₁ = .ok (rules₁.size, rules₁.push compiled) := rfl
        rw [numberAll, numbering_bind resolved, numbering_bind pushed, numbering_bind numbered]
        rfl
      · have last : Numbers (sources₁ ++ [rule]) rules₁.size rule := by
          rw [← first.size]
          exact List.getElem?_concat_length
        exact last.mono third.more

end

/-! ### Numbering a grammar -/

/-- The rules of the repository are resolved in the places kept for them. What is not on the list of
those to be resolved has been before. -/
theorem numberRepository_ok (resolvable : d.Resolvable engine) (todo : List (RuleId × Rule))
    (size : sources.length = rules.size)
    (listed : ∀ entry ∈ todo, Numbers sources entry.1 entry.2 ∧ d.Occurs entry.2)
    (done : ∀ id rule compiled, id ∉ todo.map (·.1) → Numbers sources id rule →
      rules[id]? = some compiled → Compiles engine d sources rule compiled) :
    ∃ sources' rules', numberRepository engine d.places todo rules = .ok ((), rules') ∧
      sources <+: sources' ∧ sources'.length = rules'.size ∧
      (∀ id rule compiled, Numbers sources' id rule → rules'[id]? = some compiled →
        Compiles engine d sources' rule compiled) ∧
      ∀ rule ∈ sources', rule ∈ sources ∨ d.Occurs rule := by
  induction todo generalizing rules sources with
  | nil =>
      exact ⟨sources, rules, rfl, List.prefix_refl sources, size,
        fun id rule compiled => done id rule compiled List.not_mem_nil, fun _ mem => .inl mem⟩
  | cons entry todo ih =>
      obtain ⟨id, rule⟩ := entry
      obtain ⟨numbers, occurs⟩ := listed _ List.mem_cons_self
      obtain ⟨compiled, sources₁, rules₁, resolved, added, compiles⟩ :=
        compile_ok resolvable rule occurs rules sources size
      have size₁ : sources₁.length = (rules₁.setIfInBounds id compiled).size := by
        rw [Array.size_setIfInBounds, added.size]
      have listed₁ : ∀ entry ∈ todo, Numbers sources₁ entry.1 entry.2 ∧ d.Occurs entry.2 := by
        intro entry mem
        obtain ⟨numbers, occurs⟩ := listed entry (List.mem_cons_of_mem _ mem)
        exact ⟨numbers.mono added.more, occurs⟩
      have done₁ : ∀ id' rule' compiled', id' ∉ todo.map (·.1) → Numbers sources₁ id' rule' →
          (rules₁.setIfInBounds id compiled)[id']? = some compiled' →
          Compiles engine d sources₁ rule' compiled' := by
        intro id' rule' compiled' unlisted numbers' there
        rw [Array.getElem?_setIfInBounds] at there
        split at there
        · next here =>
            subst here
            have same : rule = rule' :=
              Option.some.inj ((numbers.mono added.more).symm.trans numbers')
            subst same
            split at there
            · cases there
              exact compiles
            · cases there
        · next other =>
            have unlisted' : id' ∉ ((id, rule) :: todo).map (·.1) := by
              rw [List.map_cons, List.mem_cons, not_or]
              exact ⟨fun same => other same.symm, unlisted⟩
            exact added.compiles_all size (done id' rule' compiled' unlisted') numbers' there
      obtain ⟨sources₂, rules₂, numbered, more, size₂, compiles₂, occurs₂⟩ := ih size₁ listed₁ done₁
      refine ⟨sources₂, rules₂, ?_, added.more.trans more, size₂, compiles₂, ?_⟩
      · have set : (modify (·.setIfInBounds id compiled) : Numbering PUnit) rules₁ =
          .ok (⟨⟩, rules₁.setIfInBounds id compiled) := rfl
        rw [numberRepository, numbering_bind resolved, numbering_bind set, numbered]
      · intro rule' mem
        rcases occurs₂ rule' mem with old | occurs'
        · exact added.occurs rule' old
        · exact .inr occurs'

/-- All rules of a grammar are numbered, those of the repository by their places, and `tops` are the
numbers of its patterns. -/
structure Numbered (engine : PatternEngine) (d : Definition) (rules : Array CompiledRule)
    (sources : List Rule) (tops : List RuleId) : Prop where
  size : sources.length = rules.size
  compiles : ∀ id rule compiled, Numbers sources id rule → rules[id]? = some compiled →
    Compiles engine d sources rule compiled
  repository : ∀ id name rule, d.repository[id]? = some (name, rule) → Numbers sources id rule
  tops : List.Forall₂ (Numbers sources) tops d.patterns
  occurs : ∀ rule ∈ sources, d.Occurs rule

namespace Numbered

variable {tops : List RuleId}

/-- The rule with the number of a source. -/
theorem exists_compiled (numbered : Numbered engine d rules sources tops)
    (numbers : Numbers sources id rule) :
    ∃ compiled, rules[id]? = some compiled ∧ Compiles engine d sources rule compiled := by
  obtain ⟨inside, -⟩ := List.getElem?_eq_some_iff.mp numbers
  rw [numbered.size] at inside
  have there := Array.getElem?_eq_getElem inside
  exact ⟨_, there, numbered.compiles id rule _ numbers there⟩

/-- No rule of the grammar is left out. -/
theorem exists_number (numbered : Numbered engine d rules sources tops) (occurs : d.Occurs rule) :
    ∃ id, Numbers sources id rule := by
  induction occurs with
  | pattern mem =>
      obtain ⟨id, -, numbers⟩ := exists_of_mem_right numbered.tops mem
      exact ⟨id, numbers⟩
  | repository mem =>
      obtain ⟨id, there⟩ := List.getElem?_of_mem mem
      exact ⟨id, numbered.repository id _ _ there⟩
  | inRegion _ mem ih =>
      obtain ⟨id, numbers⟩ := ih
      obtain ⟨compiled, -, compiles⟩ := numbered.exists_compiled numbers
      cases compiles with
      | region _ _ members =>
          obtain ⟨id', -, numbers'⟩ := exists_of_mem_right members mem
          exact ⟨id', numbers'⟩
  | inGroup _ mem ih =>
      obtain ⟨id, numbers⟩ := ih
      obtain ⟨compiled, -, compiles⟩ := numbered.exists_compiled numbers
      cases compiles with
      | group members =>
          obtain ⟨id', -, numbers'⟩ := exists_of_mem_right members mem
          exact ⟨id', numbers'⟩

end Numbered

/-- The rules of a grammar can be numbered when all of them can be resolved. -/
theorem numbered_of_resolvable (resolvable : d.Resolvable engine) :
    ∃ tops rules sources,
      (do
        numberRepository engine d.places (d.repository.zipIdx.map fun ((_, rule), id) => (id, rule))
        numberAll engine d.places d.patterns : Numbering (List RuleId))
          (Array.replicate d.repository.zipIdx.length (.group [])) = .ok (tops, rules) ∧
      Numbered engine d rules sources tops := by
  have size : (d.repository.map (·.2)).length =
      (Array.replicate d.repository.zipIdx.length (CompiledRule.group [])).size := by
    rw [List.length_map, Array.size_replicate, List.length_zipIdx]
  have places : ∀ {id name rule}, d.repository[id]? = some (name, rule) →
      Numbers (d.repository.map (·.2)) id rule := by
    intro id name rule there
    rw [Numbers, List.getElem?_map, there]
    rfl
  obtain ⟨sources₁, rules₁, first, more, size₁, compiles₁, occurs₁⟩ :=
    numberRepository_ok resolvable (d.repository.zipIdx.map fun ((_, rule), id) => (id, rule)) size
      (by
        intro entry mem
        obtain ⟨⟨⟨name, rule⟩, id⟩, inside, rfl⟩ := List.mem_map.mp mem
        have there := List.mem_zipIdx_iff_getElem?.mp inside
        exact ⟨places there, .repository (List.mem_of_getElem? there)⟩)
      (by
        intro id rule compiled unlisted numbers
        obtain ⟨inside, -⟩ := List.getElem?_eq_some_iff.mp numbers
        rw [List.length_map] at inside
        have ids : (d.repository.zipIdx.map fun ((_, rule), id) => (id, rule)).map (·.1) =
            List.range' 0 d.repository.length := by
          rw [List.map_map, ← List.zipIdx_map_snd]
          rfl
        rw [ids] at unlisted
        exact absurd (List.mem_range'_1.mpr (by omega)) unlisted)
  obtain ⟨tops, sources, rules, second, added, tops'⟩ :=
    numberAll_ok resolvable d.patterns (fun _ mem => .pattern mem) rules₁ sources₁ size₁
  refine ⟨tops, rules, sources, ?_, added.size, ?_, ?_, tops', ?_⟩
  · rw [numbering_bind first, second]
  · intro id rule compiled numbers there
    exact added.compiles_all size₁ (compiles₁ id rule compiled) numbers there
  · intro id name rule there
    exact (places there).mono (more.trans added.more)
  · intro rule mem
    rcases added.occurs rule mem with old | occurs
    · rcases occurs₁ rule old with first | occurs
      · obtain ⟨⟨name, rule'⟩, inside, rfl⟩ := List.mem_map.mp first
        exact .repository inside
      · exact occurs
    · exact occurs

end CodeEditor.Grammar

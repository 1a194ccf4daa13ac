import CodeEditor.Proofs.Grammar.Includes
import CodeEditor.Proofs.Grammar.Walk

/-!
What is known of a grammar that was compiled.

Compiling goes through all rules that are written and stops at the first that it cannot resolve. So
a grammar that was compiled can be resolved (`resolvable_of_compile`), and what was made of it is
ready (`ready_of_compile`). All its searches are those of the engine that read the patterns, so they
stay inside the line where those of the engine do (`staysInside_of_compile`).
-/

namespace CodeEditor.Grammar

variable {engine : PatternEngine} {d : Definition} {rules : Array CompiledRule} {rule : Rule}
  {id : RuleId}

/-- A step of numbering that has a result, and what follows it. -/
theorem exists_of_numbering_bind {α β : Type} {x : Numbering α} {f : α → Numbering β}
    {b : β × Array CompiledRule} (ok : (x >>= f) rules = .ok b) :
    ∃ a rules', x rules = .ok (a, rules') ∧ f a rules' = .ok b := by
  obtain ⟨⟨a, rules'⟩, first, rest⟩ :=
    bind_eq_ok_iff.mp (show x rules >>= (fun s => f s.1 s.2) = _ from ok)
  exact ⟨a, rules', first, rest⟩

theorem exists_of_readPattern {text : String} {out : Searcher × Array CompiledRule}
    (ok : readPattern engine text rules = .ok out) : ∃ pattern, engine text = .ok pattern := by
  rw [readPattern] at ok
  cases read : engine text with
  | ok pattern => exact ⟨pattern, rfl⟩
  | error message =>
      rw [read] at ok
      cases ok

theorem exists_place_of_resolve {target : String} (ok : resolve d.places target = .ok id) :
    ∃ id, d.place? target = some id := by
  rw [resolve] at ok
  split at ok
  · cases ok
  · split at ok
    · next name written =>
        rw [Definition.places, lookup_zipIdx] at ok
        simp only [Definition.place?, written]
        cases there : d.repository.findIdx? fun entry => entry.1 = String.ofList name with
        | none =>
            rw [there] at ok
            cases ok
        | some place => exact ⟨place, rfl⟩
    · cases ok

namespace Definition

/-- The rule can be resolved where it stands. -/
def Resolved (engine : PatternEngine) (d : Definition) (rule : Rule) : Prop :=
  ∃ rules out, rule.compile engine d.places rules = .ok out

theorem resolved_of_numberAll {members : List Rule} {out : List RuleId × Array CompiledRule}
    (ok : numberAll engine d.places members rules = .ok out) :
    ∀ rule ∈ members, d.Resolved engine rule := by
  induction members generalizing rules out with
  | nil => exact fun rule mem => by cases mem
  | cons rule rest ih =>
      rw [numberAll] at ok
      obtain ⟨compiled, rules₁, first, later⟩ := exists_of_numbering_bind ok
      obtain ⟨id, rules₂, -, later⟩ := exists_of_numbering_bind later
      obtain ⟨ids, rules₃, numbered, -⟩ := exists_of_numbering_bind later
      exact List.forall_mem_cons.mpr ⟨⟨rules, _, first⟩, ih numbered⟩

theorem resolved_of_numberRepository {todo : List (RuleId × Rule)}
    {out : Unit × Array CompiledRule} (ok : numberRepository engine d.places todo rules = .ok out) :
    ∀ entry ∈ todo, d.Resolved engine entry.2 := by
  induction todo generalizing rules out with
  | nil => exact fun entry mem => by cases mem
  | cons entry rest ih =>
      rw [numberRepository] at ok
      obtain ⟨compiled, rules₁, first, later⟩ := exists_of_numbering_bind ok
      obtain ⟨_, rules₂, -, numbered⟩ := exists_of_numbering_bind later
      exact List.forall_mem_cons.mpr ⟨⟨rules, _, first⟩, ih numbered⟩

variable {g : Compiled}

/-- All rules of a grammar that was compiled have been resolved. -/
theorem resolved_of_occurs (compiled : d.compile engine = .ok g) (occurs : d.Occurs rule) :
    d.Resolved engine rule := by
  rw [Definition.compile] at compiled
  obtain ⟨⟨tops, rules⟩, run, -⟩ := bind_eq_ok_iff.mp compiled
  obtain ⟨_, rules', first, second⟩ := exists_of_numbering_bind run
  induction occurs with
  | pattern mem => exact resolved_of_numberAll second _ mem
  | @repository name rule mem =>
      obtain ⟨id, there⟩ := List.getElem?_of_mem mem
      refine resolved_of_numberRepository first (id, rule) (List.mem_map.mpr ?_)
      exact ⟨((name, rule), id), List.mem_zipIdx_iff_getElem?.mpr there, rfl⟩
  | inRegion _ mem ih =>
      obtain ⟨rules, out, ok⟩ := ih
      rw [Rule.compile] at ok
      obtain ⟨ids, rules', members, -⟩ := exists_of_numbering_bind ok
      exact resolved_of_numberAll members _ mem
  | inGroup _ mem ih =>
      obtain ⟨rules, out, ok⟩ := ih
      rw [Rule.compile] at ok
      obtain ⟨ids, rules', members, -⟩ := exists_of_numbering_bind ok
      exact resolved_of_numberAll members _ mem

/-- In a grammar that was compiled every pattern can be read and every reference leads somewhere. -/
theorem resolvable_of_compile (compiled : d.compile engine = .ok g) : d.Resolvable engine := by
  constructor
  case phrase =>
    intro scope text captures occurs
    obtain ⟨rules, out, ok⟩ := resolved_of_occurs compiled occurs
    rw [Rule.compile] at ok
    obtain ⟨pattern, rules', read, -⟩ := exists_of_numbering_bind ok
    exact exists_of_readPattern read
  case region =>
    intro scope opening closing members openingCaptures closingCaptures occurs
    obtain ⟨rules, out, ok⟩ := resolved_of_occurs compiled occurs
    rw [Rule.compile] at ok
    obtain ⟨ids, rules₁, -, later⟩ := exists_of_numbering_bind ok
    obtain ⟨first, rules₂, opens, later⟩ := exists_of_numbering_bind later
    obtain ⟨second, rules₃, closes, -⟩ := exists_of_numbering_bind later
    exact ⟨exists_of_readPattern opens, exists_of_readPattern closes⟩
  case reference =>
    intro target occurs
    obtain ⟨rules, out, ok⟩ := resolved_of_occurs compiled occurs
    rw [Rule.compile] at ok
    obtain ⟨id, rules', resolves, -⟩ := exists_of_numbering_bind ok
    cases found : resolve d.places target with
    | error e =>
        rw [found] at resolves
        cases resolves
    | ok id => exact exists_place_of_resolve found

end Definition

/-- A compiled grammar does what the written one says. -/
theorem ready_of_compile {g : Compiled} (compiled : d.compile engine = .ok g) :
    ∃ sources tops, Ready engine d g sources tops := by
  obtain ⟨tops, rules, sources, run, numbered⟩ :=
    numbered_of_resolvable (Definition.resolvable_of_compile compiled)
  obtain ⟨root, found, rest⟩ := bind_eq_ok_iff.mp ((compile_of_numbered run).symm.trans compiled)
  obtain ⟨rules', each, same⟩ := bind_eq_ok_iff.mp rest
  cases same
  exact ⟨sources, tops, (filled_of_mapM each).ready numbered found rfl rfl⟩

/-- A compiled grammar searches by what the engine made of its patterns. -/
theorem staysInside_of_compile {g : Compiled} (inside : engine.StaysInside)
    (compiled : d.compile engine = .ok g) : g.StaysInside := by
  obtain ⟨sources, tops, ready⟩ := ready_of_compile compiled
  constructor
  case phrase =>
    intro id p there
    obtain ⟨rule, -, compiles⟩ := ready.rules.exists_source there
    cases compiles with
    | phrase read => exact inside read
  case opening =>
    intro id r there
    obtain ⟨rule, -, compiles⟩ := ready.rules.exists_source (Compiled.region?_eq_some_iff.mp there)
    cases compiles with
    | region opens closes => exact inside opens
  case closing =>
    intro id r there
    obtain ⟨rule, -, compiles⟩ := ready.rules.exists_source (Compiled.region?_eq_some_iff.mp there)
    cases compiles with
    | region opens closes => exact inside closes

end CodeEditor.Grammar

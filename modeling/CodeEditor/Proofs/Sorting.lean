import Mathlib.Data.List.Basic

/-!
What a stable sort keeps.

Of two elements of a sorted list the first is not greater. Where neither is, the two stood in this
order before (`pairwise_mergeSort`), so whatever held of all pairs in the order of the list still
holds of the elements that tie.
-/

namespace CodeEditor

variable {α : Type} {le : α → α → Bool} {r : α → α → Prop} {xs : List α}

/-- The elements that tie with one stay in their order. -/
theorem filter_mergeSort (trans : ∀ a b c, le a b = true → le b c = true → le a c = true)
    (total : ∀ a b, (le a b || le b a) = true) (a : α) :
    (xs.mergeSort le).filter (fun b => le a b && le b a) =
      xs.filter fun b => le a b && le b a := by
  have sorted : (xs.filter fun b => le a b && le b a).Pairwise fun b c => le b c = true := by
    refine List.pairwise_of_forall_mem_list fun b memB c memC => ?_
    have tieB := (List.mem_filter.mp memB).2
    have tieC := (List.mem_filter.mp memC).2
    rw [Bool.and_eq_true] at tieB tieC
    exact trans b a c tieB.2 tieC.1
  have inside := (List.sublist_mergeSort trans total sorted List.filter_sublist).filter
    fun b => le a b && le b a
  rw [List.filter_filter] at inside
  simp only [Bool.and_self] at inside
  have length := ((List.mergeSort_perm xs le).filter fun b => le a b && le b a).length_eq
  exact (inside.eq_of_length length.symm).symm

/-- Elements in a sorted list are in order, and those that tie are in their old order. -/
theorem pairwise_mergeSort (trans : ∀ a b c, le a b = true → le b c = true → le a c = true)
    (total : ∀ a b, (le a b || le b a) = true) (before : xs.Pairwise r) :
    (xs.mergeSort le).Pairwise fun a b => le a b = true ∧ (le b a = true → r a b) := by
  rw [List.pairwise_iff_forall_sublist]
  intro a b inside
  have ordered :=
    List.pairwise_iff_forall_sublist.mp (List.pairwise_mergeSort trans total xs) inside
  refine ⟨ordered, fun tie => ?_⟩
  have same : le a a = true := by simpa using total a a
  have ties := inside.filter fun b => le a b && le b a
  rw [filter_mergeSort trans total] at ties
  simp only [List.filter_cons, List.filter_nil, same, ordered, tie, Bool.and_self, if_true] at ties
  exact List.pairwise_iff_forall_sublist.mp before (ties.trans List.filter_sublist)

end CodeEditor

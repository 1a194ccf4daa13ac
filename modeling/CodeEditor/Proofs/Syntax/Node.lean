import CodeEditor.Syntax.Node

/-!
Nodes of a tree.

Every node that a walk through a tree meets is the one that its path leads to
(`Located.within_of_mem_all`), and it stands in the tree (`Node.has_of_nodeAt?`).
-/

namespace CodeEditor.Syntax

theorem Node.nodeAt?_append (x : Node) (path path' : List Nat) :
    x.nodeAt? (path ++ path') = (x.nodeAt? path).bind (·.nodeAt? path') := by
  induction path generalizing x with
  | nil => rw [List.nil_append, nodeAt?, Option.bind_some]
  | cons i path ih =>
      rw [List.cons_append, nodeAt?, nodeAt?]
      cases x.children[i]? with
      | none => rfl
      | some c => exact ih c

/-- A node lies in the tree of another, with its path. -/
def Located.Within (x y : Located) : Prop :=
  ∃ path, y.path = x.path ++ path ∧ x.node.nodeAt? path = some y.node

namespace Located.Within

theorem refl (x : Located) : x.Within x := ⟨[], by simp, by rw [Node.nodeAt?]⟩

theorem child {x y : Located} {i : Nat} {c : Node} (there : x.node.children[i]? = some c)
    (within : Within ⟨x.path ++ [i], c⟩ y) : x.Within y := by
  obtain ⟨path, here, found⟩ := within
  refine ⟨i :: path, by simp [here], ?_⟩
  rw [Node.nodeAt?, there]
  exact found

theorem trans {x y z : Located} (first : x.Within y) (second : y.Within z) : x.Within z := by
  obtain ⟨path, here, found⟩ := first
  obtain ⟨path', here', found'⟩ := second
  exact ⟨path ++ path', by rw [here', here, List.append_assoc],
    by rw [Node.nodeAt?_append, found, Option.bind_some, found']⟩

end Located.Within

namespace Located

theorem within_of_mem_children {x y : Located} (mem : y ∈ x.children) : x.Within y := by
  obtain ⟨⟨c, i⟩, at?, rfl⟩ := List.mem_map.mp mem
  have there : x.node.children[i]? = some c := by
    simpa using List.mem_zipIdx_iff_getElem?.mp at?
  exact .child there (.refl _)

mutual

theorem within_of_mem_all {path : List Nat} {y : Located} :
    ∀ x : Node, y ∈ all path x → Within ⟨path, x⟩ y
  | ⟨kind, named, start, stop, children⟩, mem => by
      rw [all] at mem
      rcases List.mem_cons.mp mem with rfl | mem
      · exact .refl _
      · obtain ⟨j, c, there, within⟩ := within_of_mem_allOf 0 children mem
        rw [Nat.zero_add] at within
        exact .child there within

theorem within_of_mem_allOf {path : List Nat} {y : Located} (i : Nat) :
    ∀ children : List Node, y ∈ allOf path i children →
      ∃ j c, children[j]? = some c ∧ Within ⟨path ++ [i + j], c⟩ y
  | [], mem => by
      rw [allOf] at mem
      cases mem
  | x :: rest, mem => by
      rw [allOf] at mem
      rcases List.mem_append.mp mem with mem | mem
      · exact ⟨0, x, rfl, within_of_mem_all x mem⟩
      · obtain ⟨j, c, there, within⟩ := within_of_mem_allOf (i + 1) rest mem
        refine ⟨j + 1, c, there, ?_⟩
        rwa [show i + (j + 1) = i + 1 + j by omega]

end

end Located

namespace Node

theorem has_of_nodeAt? {x y : Node} {path : List Nat} (at? : x.nodeAt? path = some y) :
    x.Has y := by
  induction path generalizing x with
  | nil =>
      rw [nodeAt?] at at?
      obtain rfl := Option.some.inj at?
      exact .self x
  | cons i path ih =>
      rw [nodeAt?] at at?
      obtain ⟨c, child, at?⟩ := Option.bind_eq_some_iff.mp at?
      exact .child (List.mem_of_getElem? child) (ih at?)

end Node

end CodeEditor.Syntax

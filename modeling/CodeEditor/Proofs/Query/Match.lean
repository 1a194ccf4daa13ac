import CodeEditor.Proofs.Query.Predicate
import CodeEditor.Query.Match

/-!
What a query finds in a tree.

Every match is a question to the predicates of its pattern, and those are kept for which the answer
is yes (`supportedMatches_eq`). So the matches do not depend on what has been reported before
(`supportedMatches_fst`), and whatever they capture is a node of the tree
(`nodeAt?_of_mem_supportedMatches`).
-/

namespace CodeEditor.Query

open Syntax (Node)

/-- What a match asks. -/
def QueryMatch.question (m : QueryMatch) (buffer : TextBuffer) :
    Question := ⟨m.pattern, m.text? buffer⟩

variable {q : Query} {tree : Node} {buffer : TextBuffer} {range : Option ByteRange}
  {reported : Reported}

theorem keepSupported_eq (kept : List QueryMatch) (m : QueryMatch) :
    q.keepSupported buffer (kept, reported) m =
      (if (q.failing (m.question buffer)).isNone then m :: kept else kept,
        reported.add (q.failing (m.question buffer))) := by
  have same : firstFailing (m.text? buffer) (q.predicatesOf m.pattern) =
      q.failing (m.question buffer) := rfl
  rw [keepSupported, evaluateAll_eq, same]
  cases q.failing (m.question buffer) <;> rfl

theorem foldl_keepSupported (found kept : List QueryMatch) :
    found.foldl (q.keepSupported buffer) (kept, reported) =
      ((found.filter fun m => (q.failing (m.question buffer)).isNone).reverse ++ kept,
        q.ask reported (found.map (·.question buffer))) := by
  induction found generalizing kept reported with
  | nil => rfl
  | cons m found ih =>
      rw [List.foldl_cons, keepSupported_eq, ih, List.map_cons, ask_cons, List.filter_cons]
      split <;> simp

/-- The matches whose predicates hold are kept in their order, and each match is a question. -/
theorem supportedMatches_eq (q : Query) (tree : Node) (buffer : TextBuffer)
    (range : Option ByteRange)
    (reported : Reported) : q.supportedMatches tree buffer range reported =
      ((q.matchesIn tree buffer range).filter fun m => (q.failing (m.question buffer)).isNone,
        q.ask reported ((q.matchesIn tree buffer range).map (·.question buffer))) := by
  simp [supportedMatches, foldl_keepSupported]

/-- What is reported does not change what is found. -/
theorem supportedMatches_fst (q : Query) (tree : Node) (buffer : TextBuffer)
    (range : Option ByteRange) (reported reported' : Reported) :
    (q.supportedMatches tree buffer range reported).1 =
      (q.supportedMatches tree buffer range reported').1 := by
  rw [supportedMatches_eq, supportedMatches_eq]

/-- The captures of a match whose predicates hold are nodes of the tree. -/
theorem nodeAt?_of_mem_supportedMatches {m : QueryMatch}
    (mem : m ∈ (q.supportedMatches tree buffer range reported).1) :
    ∀ capture ∈ m.captures, tree.nodeAt? capture.2.path = some capture.2.node := by
  rw [supportedMatches_eq] at mem
  exact q.captured_at tree buffer range m (List.mem_filter.mp mem).1

end CodeEditor.Query

import CodeEditor.Layer.Tree
import CodeEditor.Mini.QueryReader
import CodeEditor.Mini.Tree

/-!
The mini language for queries and layers: its kinds of nodes, its queries and its parser.
-/

namespace CodeEditor.Mini

open Syntax (NodeKind ChildPlace Vocabulary)

/-- The kind of a bracket character. -/
def bracketKind (c : Char) : NodeKind := ⟨String.singleton c, false⟩

/-- The leaves that stand for themselves. -/
def leaves : List NodeKind :=
  ["comment", "string", "number", "word", "op", "stray"].map (NodeKind.mk · true)

/-- The nodes that can stand anywhere. -/
def items : List NodeKind :=
  leaves ++ ["block", "list", "embed"].map (NodeKind.mk · true)

/-- Any number of items. -/
def anyItems : ChildPlace := ⟨items, true⟩

/-- A place for a node of one kind. -/
def once (kind : NodeKind) : ChildPlace := ⟨[kind], false⟩

/-- The kinds of nodes of the mini language. -/
def vocabulary : Vocabulary where
  shapes :=
    (⟨"lang", true⟩ :: leaves).map (fun kind => (kind, [])) ++
    (Bracket.all.flatMap fun b => [b.opening, b.closing]).map (fun c => (bracketKind c, [])) ++
    [(⟨"source", true⟩, [anyItems]), (⟨"body", true⟩, [anyItems]),
      (⟨"block", true⟩, [once (bracketKind '\x7b'), anyItems, once (bracketKind '\x7d')]),
      (⟨"list", true⟩, [once (bracketKind '('), anyItems, once (bracketKind ')')]),
      (⟨"embed", true⟩, [once (bracketKind '['), once ⟨"lang", true⟩, once ⟨"body", true⟩,
        once (bracketKind ']')])]

/-- What compiles queries for the mini language. -/
def compiler : QueryCompiler := queryCompiler vocabulary (Pattern.recognizer Pattern.queryDialect)

/-- The parser of the mini language. It reads every text, and an edit leaves its trees as they are
until they are made anew. -/
def engine : Layer.Engine where
  parse _ _ text range := .ok (tree text range)
  shift _ root := root
  branchAt root p := branchAt p root []
  has_of_mem_branchAt root _ _ mem := (has_of_mem_branchAt root mem).resolve_right List.not_mem_nil
  depth := 10000

end CodeEditor.Mini

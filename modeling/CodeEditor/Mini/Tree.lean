import CodeEditor.Mini.Lexeme

/-!
The trees of the mini language.

Every text has a tree. Lexemes are added one after the other to the innermost open bracket; what is
open at the end is closed there. A closing bracket that does not fit the innermost open one is a
leaf. At a point a tree is searched from the root down.
-/

namespace CodeEditor.Mini

open Syntax (Branch Mark Node Point)

/-- A bracket that is open. -/
structure OpenBracket where
  bracket : Bracket
  start : Mark
  stop : Mark
  /-- The name of the language behind it. -/
  lang : Option Node
  /-- The items behind it, the latest first. -/
  items : List Node

/-- A node without children. -/
def leaf (kind : String) (named : Bool) (start stop : Mark) : Node :=
  ⟨kind, named, start, stop, []⟩

/-- The node of a bracket character. -/
def bracketLeaf (c : Char) (start stop : Mark) : Node := leaf (String.singleton c) false start stop

namespace OpenBracket

/-- The items as children. Those of square brackets are held by a node of their own, if there are
any. -/
def contents (o : OpenBracket) : List Node :=
  let items := o.items.reverse
  match o.bracket, items.head?, o.items.head? with
  | .square, some first, some last =>
      o.lang.toList ++ [⟨"body", true, first.start, last.stop, items⟩]
  | .square, _, _ => o.lang.toList
  | _, _, _ => items

/-- The kind of node that the brackets make. -/
def kind (o : OpenBracket) : String :=
  match o.bracket with
  | .brace => "block"
  | .paren => "list"
  | .square => "embed"

/-- The node of the brackets, which ends at a place and has a closing bracket or not. -/
def close (o : OpenBracket) (stop : Mark) (closing : Option Node) : Node :=
  { kind := o.kind
    named := true
    start := o.start
    stop
    children := bracketLeaf o.bracket.opening o.start o.stop :: o.contents ++ closing.toList }

end OpenBracket

/-- What has been read of a text. -/
structure Reading where
  /-- The open brackets, the innermost first. -/
  opened : List OpenBracket := []
  /-- The items outside of all brackets, the latest first. -/
  items : List Node := []

namespace Reading

/-- Add an item to the innermost open bracket. -/
def add (r : Reading) (x : Node) : Reading :=
  match r.opened with
  | [] => { r with items := x :: r.items }
  | o :: rest => { r with opened := { o with items := x :: o.items } :: rest }

/-- Add a lexeme. -/
def take (r : Reading) (x : Lexeme) : Reading :=
  match x.kind with
  | .leaf kind => r.add (leaf kind true x.start x.stop)
  | .opening bracket => { r with opened := ⟨bracket, x.start, x.stop, none, []⟩ :: r.opened }
  | .lang =>
      match r.opened with
      | [] => r
      | o :: rest =>
          { r with opened := { o with lang := some (leaf "lang" true x.start x.stop) } :: rest }
  | .closing bracket =>
      match r.opened with
      | [] => r.add (leaf "stray" true x.start x.stop)
      | o :: rest =>
          if o.bracket = bracket then
            { r with opened := rest }.add
              (o.close x.stop (some (bracketLeaf bracket.closing x.start x.stop)))
          else r.add (leaf "stray" true x.start x.stop)

/-- Close the open brackets at the end of the text. -/
def closeAll (stop : Mark) : List OpenBracket → Reading → Reading
  | [], r => r
  | o :: rest, r =>
      let x := ({ o with items := r.items ++ o.items }).close stop none
      closeAll stop rest { items := [x] }

/-- The items of the whole text, which ends at a place. -/
def finish (r : Reading) (stop : Mark) : List Node :=
  let inner := (closeAll stop r.opened {}).items
  (inner ++ r.items).reverse

end Reading

/-- The tree of some characters that start at a place. It starts at their first item and ends where
they end. -/
def treeOf (start : Mark) (cs : List Char) : Node :=
  let stop := start.afterAll cs
  let items := (((Lexeme.readFrom cs.length start cs).foldl Reading.take {})).finish stop
  { kind := "source"
    named := true
    start := (items.head?.map (·.start)).getD stop
    stop
    children := items }

/-- The characters of a part of a text, with the place where they start. A character belongs to the
part if it starts in it. -/
def part (start : Mark) (r : ByteRange) : List Char → Mark × List Char
  | [] => (start, [])
  | c :: rest =>
      if start.byte < r.location then part (start.after c) r rest
      else (start, within start (c :: rest))
where
  within (m : Mark) : List Char → List Char
    | [] => []
    | c :: rest =>
        if m.byte < r.location + r.length then c :: within (m.after c) rest else []

/-- The tree of a text, or of a part of it as if there were nothing else. -/
def tree (text : TextBuffer) (range : Option ByteRange) : Node :=
  match range with
  | none => treeOf .start text.chars
  | some r =>
      let (start, cs) := part .start r text.chars
      treeOf start cs

/-! ### Search -/

mutual

/-- The innermost node at a point below a node, with the nodes around it. Of several children the
first that holds the point is followed. -/
def branchAt (p : Point) : Node → Branch → Branch
  | ⟨kind, named, start, stop, children⟩, above =>
      branchAmong p children (⟨kind, named, start, stop, children⟩ :: above)

/-- The innermost node at a point among some children, or the node they belong to. -/
def branchAmong (p : Point) : List Node → Branch → Branch
  | [], above => above
  | x :: rest, above => if x.holds p then branchAt p x above else branchAmong p rest above

end

variable {p : Point} {y : Node}

mutual

theorem has_of_mem_branchAt :
    ∀ x : Node, ∀ {above : Branch}, y ∈ branchAt p x above → x.Has y ∨ y ∈ above
  | ⟨kind, named, start, stop, children⟩, above, mem => by
      rw [branchAt] at mem
      rcases has_of_mem_branchAmong children mem with ⟨c, inside, has⟩ | mem
      · exact .inl (.child inside has)
      · rcases List.mem_cons.mp mem with rfl | mem
        · exact .inl (.self _)
        · exact .inr mem

theorem has_of_mem_branchAmong :
    ∀ xs : List Node, ∀ {above : Branch}, y ∈ branchAmong p xs above →
      (∃ x ∈ xs, x.Has y) ∨ y ∈ above
  | [], above, mem => .inr (by rwa [branchAmong] at mem)
  | x :: rest, above, mem => by
      rw [branchAmong] at mem
      split at mem
      · exact (has_of_mem_branchAt x mem).imp_left fun has => ⟨x, List.mem_cons_self, has⟩
      · refine (has_of_mem_branchAmong rest mem).imp_left ?_
        rintro ⟨c, inside, has⟩
        exact ⟨c, List.mem_cons_of_mem x inside, has⟩

end

end CodeEditor.Mini

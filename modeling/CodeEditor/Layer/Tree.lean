import CodeEditor.Document.Edit
import CodeEditor.Layer.Store

/-!
The layers of a document.

The root layer is the syntax of the whole text in the document's language. The injections query of a
layer's language names the parts that are written in other languages, and each of them has a layer
below it. After an edit every layer is parsed again, from the root down; layers of parts that are
still there in the same language are kept, all others are removed or made anew. Layers whose tree
covers nothing are not kept.

How a text is parsed is left to an `Engine`, and the order in which the children of a layer come to
a `MapOrder`.
-/

namespace CodeEditor.Layer

open Syntax (Node Branch Point Language Registry)

/-- A parser and what it does to its trees. The number of the parse is new each time, so that
nothing is assumed on two parses of the same text. -/
structure Engine where
  parse : Nat → Language → TextBuffer → Option ByteRange → Except Syntax.Error Node
  /-- A tree whose nodes an edit has moved. -/
  shift : TextEdit → Node → Node
  /-- The innermost node of a tree at a point with the nodes around it. There may be none. -/
  branchAt : Node → Point → Branch
  /-- What is found at a point are nodes of the tree. -/
  has_of_mem_branchAt : ∀ root p, ∀ x ∈ branchAt root p, root.Has x
  /-- The identity of the node at a path in the tree of a parse. -/
  site : Nat → List Nat → Site := Site.mk
  /-- How deep layers can be nested before there is no room for more. -/
  depth : Nat

/-- The order in which a map of children has its entries. There is none to rely on: it may be
another one each time a map has grown. -/
structure MapOrder where
  arrange : Nat → List (Site × LayerId) → List (Site × LayerId)
  arrange_perm : ∀ n entries, (arrange n entries).Perm entries

/-- The oldest entry comes first. -/
def MapOrder.oldestFirst : MapOrder where
  arrange _ entries := entries
  arrange_perm _ entries := .refl entries

/-- The unsupported directives of each query that were met: by the number of the language, and
whether it is the query for highlighting or for injections. -/
structure QueryReports where
  highlights : List (Nat × Query.Reported) := []
  injections : List (Nat × Query.Reported) := []

namespace QueryReports

/-- What was met in a query. -/
def of (reports : List (Nat × Query.Reported)) (language : Nat) : Query.Reported :=
  (reports.lookup language).getD {}

/-- Say anew what was met in a query. -/
def put (reports : List (Nat × Query.Reported)) (language : Nat) (reported : Query.Reported) :
    List (Nat × Query.Reported) :=
  (language, reported) :: reports.filter (·.1 ≠ language)

/-- What was met in the queries of both. -/
def union (a b : QueryReports) : QueryReports where
  highlights := merge a.highlights b.highlights
  injections := merge a.injections b.injections
where
  merge (xs ys : List (Nat × Query.Reported)) : List (Nat × Query.Reported) :=
    ys.foldl (fun xs (language, reported) => put xs language ((of xs language).union reported)) xs

end QueryReports

/-- The layers of a document. -/
structure LayerTree where
  store : LayerStore
  root : LayerId
  /-- The languages of injected parts. Without them injections are passed over. -/
  registry : Option Registry
  /-- The text that was parsed last. -/
  text : TextBuffer
  /-- The number of parses so far. -/
  parses : Nat
  reports : QueryReports
  order : MapOrder

/-- Why a change of the layers does not come to its end. -/
inductive Stop where
  /-- It fails. -/
  | failed (error : Syntax.Error)
  /-- The layers are nested too deep. There is no answer then. -/
  | exhausted
deriving DecidableEq

/-- A change of the layers. Where it stops, what was done so far stays. -/
abbrev LayerM (α : Type) : Type := EStateM Stop LayerTree α

namespace LayerTree

/-- Layers that have not been parsed. -/
def unparsed (language : Language) (registry : Option Registry) (reports : QueryReports)
    (order : MapOrder) : LayerTree :=
  let (root, store) := ({} : LayerStore).insert (.unparsed language none none)
  { store, root, registry, text := ⟨[]⟩, parses := 0, reports, order }

/-- The layer with an identity. -/
def layer? (t : LayerTree) (id : LayerId) : Option SyntaxLayer := t.store.layer? id

/-- The tree of a layer. -/
def tree? (t : LayerTree) (id : LayerId) : Option ParsedTree := (t.layer? id).bind (·.tree)

/-- The root layer has a tree. -/
def isParsed (t : LayerTree) : Bool := (t.tree? t.root).isSome

/-- The number of layers. -/
def count (t : LayerTree) : Nat := t.store.count

/-- Some entries in the order in which a map has them now. -/
def arranged (t : LayerTree) (entries : List (Site × LayerId)) : List (Site × LayerId) :=
  t.order.arrange t.parses entries

/-! ### Steps -/

/-- Change the layers' slots. -/
def onStore {α : Type} (change : LayerStore → α × LayerStore) : LayerM α :=
  modifyGet fun t =>
    let (a, store) := change t.store
    (a, { t with store })

/-- Change a layer, if it is there. -/
def modifyLayer (id : LayerId) (change : SyntaxLayer → SyntaxLayer) : LayerM Unit :=
  onStore fun s => ((), s.modify id change)

/-- The map of the children of a layer has grown. -/
def rearrange (id : LayerId) : LayerM Unit := do
  let t ← get
  modifyLayer id fun l => { l with children := t.arranged l.children }

/-- Parse the part of the text that belongs to a layer. -/
def parsePart (engine : Engine) (layer : SyntaxLayer) : LayerM ParsedTree := do
  let t ← get
  set { t with parses := t.parses + 1 }
  match engine.parse t.parses layer.language t.text layer.range with
  | .ok root => return ⟨t.parses, root⟩
  | .error e => throw (.failed e)

/-- Parse the part of a layer that has a tree. If that fails, the layer keeps its tree as an edit
has moved it. -/
def parseAgain (engine : Engine) (edit : TextEdit) (id : LayerId) (layer : SyntaxLayer)
    (tree : ParsedTree) : LayerM ParsedTree := fun t =>
  match parsePart engine layer t with
  | .ok new t => .ok new t
  | .error e t =>
      let moved : ParsedTree := { tree with root := engine.shift edit tree.root }
      .error e { t with store := t.store.modify id fun l => { l with tree := some moved } }

/-- The parts of a layer's text that are written in other languages, each with the identity of its
node. -/
def injections (engine : Engine) (id : LayerId) : LayerM (List (Site × Injection)) :=
  modifyGet fun t =>
    match t.layer? id with
    | some ⟨language, some tree, _, _, _⟩ =>
        match language.injections with
        | some q =>
            let (found, reported) := injectionsOf q tree.root t.text
              (QueryReports.of t.reports.injections language.id)
            (found.map fun injection => (engine.site tree.parse injection.path, injection), { t with
              reports.injections := QueryReports.put t.reports.injections language.id reported })
        | none => ([], t)
    | _ => ([], t)

/-- The language with a name. -/
def language? (t : LayerTree) (name : String) : Option Language :=
  t.registry.bind (·.language? name)

/-- An injected part at its place, with its language. -/
structure InjectedPart where
  site : Site
  injection : Injection
  language : Language

/-- Make a layer for an injected part, unless its place has one. `parse` parses the new layer. A
layer that cannot be parsed or covers nothing is removed again. -/
def createChild (parse : LayerId → LayerM Unit) (parent : LayerId) (p : InjectedPart) :
    LayerM Unit := do
  let some layer := (← get).layer? parent | return
  if (layer.child? p.site).isSome then return
  let child ← onStore (·.insert (.unparsed p.language (some parent) (some p.injection.byteRange)))
  modifyLayer parent fun l => { l with children := l.children ++ [(p.site, child)] }
  rearrange parent
  let detach (t : LayerTree) : LayerTree := { t with store := t.store.detach parent p.site child }
  (fun t => match parse child t with
    | .ok () t => .ok () t
    | .error e t => .error e (detach t) : LayerM Unit)
  if ((← get).layer? child).all (·.hasEmptyTree) then modify detach

/-- Make a layer for an injection in a known language. -/
def createInjected (parse : LayerId → LayerM Unit) (parent : LayerId) :
    Site × Injection → LayerM Unit
  | (site, injection) => do
      match (← get).language? injection.languageName with
      | some language => createChild parse parent ⟨site, injection, language⟩
      | none => return

/-- Parse a layer and make its children anew, down to a depth of the amount of fuel. -/
def parseLayer (engine : Engine) : Nat → LayerId → LayerM Unit
  | 0, _ => throw .exhausted
  | fuel + 1, id => do
      let some layer := (← get).layer? id | return
      let tree ← parsePart engine layer
      let some layer := (← get).layer? id | return
      modifyLayer id fun l => { l with tree := some tree, children := [] }
      onStore fun s => ((), s.removeAll layer.children)
      (← injections engine id).forM (createInjected (parseLayer engine fuel) id)

/-- Take the element with a number out of a list. The last element takes its place. -/
def swapRemove {α : Type} (xs : List α) (i : Nat) : List α :=
  match xs.getLast? with
  | none => []
  | some last => (xs.set i last).dropLast

/-- Choose the layer for an injected part among those of the tree before: one of the same language
at the same place, else one of the same language whose part the edit moved onto this one. -/
def adopt? (t : LayerTree) (edit : TextEdit) (orphans : List (Site × LayerId)) (p : InjectedPart) :
    Option (LayerId × List (Site × LayerId)) := do
  let isSame (id : LayerId) : Bool := (t.layer? id).any (·.language.id = p.language.id)
  let isMoved (id : LayerId) : Bool :=
    (((t.layer? id).bind (·.range)).bind edit.mapRange) = some p.injection.byteRange
  let i ← (orphans.findIdx? fun (site, id) => site = p.site && isSame id).or
    (orphans.findIdx? fun (_, id) => isSame id && isMoved id)
  let (_, id) ← orphans[i]?
  return (id, swapRemove orphans i)

/-- What becomes of the children of a layer. -/
structure Assignment where
  /-- The layers of the tree before that no part has been given. -/
  orphans : List (Site × LayerId)
  /-- The layers that are kept, the latest first. -/
  kept : List (Site × LayerId) := []
  /-- The parts that need a new layer, the latest first. -/
  fresh : List InjectedPart := []

/-- Assign a layer of the tree before to an injected part, or find that it needs a new one. A place
that has a layer is passed over, and so is a part in an unknown language. -/
def assign (edit : TextEdit) (a : Assignment) : Site × Injection → LayerM Assignment
  | (site, injection) => do
      if (a.kept.lookup site).isSome then return a
      match (← get).language? injection.languageName with
      | none => return a
      | some language =>
          let p : InjectedPart := ⟨site, injection, language⟩
          match (← get).adopt? edit a.orphans p with
          | some (child, orphans) =>
              modifyLayer child fun l => { l with range := some injection.byteRange }
              return { a with orphans, kept := (site, child) :: a.kept }
          | none => return { a with fresh := p :: a.fresh }

/-- Update a layer that is kept and make it a child of a layer, unless it covers nothing. -/
def keepChild (update : LayerId → LayerM Unit) (parent : LayerId) : Site × LayerId → LayerM Unit
  | (site, child) => do
      update child
      if ((← get).layer? child).all (·.hasEmptyTree) then onStore fun s => ((), s.remove child)
      else
        modifyLayer parent fun l =>
          { l with children := l.children.filter (·.1 ≠ site) ++ [(site, child)] }
        rearrange parent

/-- Do to the children of a layer what has been decided on. -/
def settle (update parse : LayerId → LayerM Unit) (id : LayerId) (a : Assignment) :
    LayerM Unit := do
  onStore fun s => ((), s.removeAll a.orphans)
  ((← get).arranged a.kept).forM (keepChild update id)
  a.fresh.reverse.forM (createChild parse id)

/-- Bring the children of a layer in line with its new tree. `update` updates a layer that is kept,
`parse` parses a new one. -/
def updateChildren (engine : Engine) (update parse : LayerId → LayerM Unit) (edit : TextEdit)
    (id : LayerId) : LayerM Unit := do
  let found ← injections engine id
  let some layer := (← get).layer? id | return
  modifyLayer id fun l => { l with children := [] }
  let a ← found.foldlM (assign edit) { orphans := layer.children }
  settle update parse id a

/-- Parse a layer again after an edit and bring its children in line, down to a depth of the amount
of fuel. -/
def updateLayer (engine : Engine) (edit : TextEdit) : Nat → LayerId → LayerM Unit
  | 0, _ => throw .exhausted
  | fuel + 1, id => do
      let some layer := (← get).layer? id | return
      let some old := layer.tree | return
      let tree ← parseAgain engine edit id layer old
      modifyLayer id fun l => { l with tree := some tree }
      updateChildren engine (updateLayer engine edit fuel) (parseLayer engine fuel) edit id

/-! ### Parsing and editing -/

/-- Parse a text. All layers but the root are made anew. -/
def parse (engine : Engine) (text : TextBuffer) : LayerM Unit := do
  modify fun t => { t with text }
  parseLayer engine engine.depth (← get).root

/-- Take over an edit that led to a text. Layers that have not been parsed are parsed. -/
def applyEdit (engine : Engine) (edit : TextEdit) (text : TextBuffer) : LayerM Unit := do
  if (← get).isParsed then
    modify fun t => { t with text }
    updateLayer engine edit engine.depth (← get).root
  else parse engine text

end LayerTree

end CodeEditor.Layer

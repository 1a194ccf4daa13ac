import CodeEditor.Layer.Injection
import CodeEditor.Syntax.Language

/-!
The layers of a document with their identities.

A layer is the syntax of a part of a text in one language. Layers live in numbered slots, and a slot
is used again once its layer is gone; each use has a generation of its own, so an identity names one
layer for ever. A layer knows its children by their places in its tree, and its parent by its
identity. Removing a layer removes all layers below it.
-/

namespace CodeEditor.Layer

open Syntax (Node Language)

/-- The identity of a node that holds an injected part. It is good for one tree: nodes of the trees
of other parses may have it too. -/
structure Site where
  parse : Nat
  path : List Nat
deriving DecidableEq

/-- The identity of a layer: a slot and the generation of the slot's use. -/
structure LayerId where
  slot : Nat
  generation : UInt32
deriving DecidableEq

/-- A tree and the number of the parse that it came out of. -/
structure ParsedTree where
  parse : Nat
  root : Node

/-- The syntax of a part of a text in one language. -/
structure SyntaxLayer where
  language : Language
  tree : Option ParsedTree
  parent : Option LayerId
  /-- The layers of the injected parts, in the order of the map that holds them. -/
  children : List (Site × LayerId)
  /-- The part of the text. The root layer sees all of it. -/
  range : Option ByteRange

namespace SyntaxLayer

/-- A layer that has not been parsed. -/
def unparsed (language : Language) (parent : Option LayerId) (range : Option ByteRange) :
    SyntaxLayer :=
  ⟨language, none, parent, [], range⟩

/-- The layer has no tree, or one that covers nothing. -/
def hasEmptyTree (l : SyntaxLayer) : Bool := l.tree.all (·.root.isEmpty)

/-- The child at a place. -/
def child? (l : SyntaxLayer) (site : Site) : Option LayerId := l.children.lookup site

end SyntaxLayer

/-- A slot for layers. -/
structure LayerSlot where
  generation : UInt32
  layer : Option SyntaxLayer

/-- The slots and those that are free. The next layer takes the free slot that was given back
last. -/
structure LayerStore where
  slots : Array LayerSlot := #[]
  free : List Nat := []

namespace LayerStore

/-- The layer with an identity. -/
def layer? (s : LayerStore) (id : LayerId) : Option SyntaxLayer :=
  match s.slots[id.slot]? with
  | some slot => if slot.generation = id.generation then slot.layer else none
  | none => none

/-- The number of layers. -/
def count (s : LayerStore) : Nat := (s.slots.filter (·.layer.isSome)).size

/-- Change the layer with an identity, if there is one. -/
def modify (s : LayerStore) (id : LayerId) (change : SyntaxLayer → SyntaxLayer) : LayerStore :=
  { s with
    slots := s.slots.modify id.slot fun slot =>
      if slot.generation = id.generation then { slot with layer := slot.layer.map change }
      else slot }

/-- Give a layer a slot. -/
def insert (s : LayerStore) (layer : SyntaxLayer) : LayerId × LayerStore :=
  match s.free with
  | slot :: free =>
      (⟨slot, ((s.slots[slot]?).map (·.generation)).getD 0⟩,
        { slots := s.slots.modify slot fun x => { x with layer := some layer }, free })
  | [] => (⟨s.slots.size, 0⟩, { s with slots := s.slots.push ⟨0, some layer⟩ })

/-- Free the slot of a layer. The identities of its former uses name no layer any more. -/
def release (s : LayerStore) (id : LayerId) : LayerStore where
  slots := s.slots.modify id.slot fun slot => ⟨slot.generation + 1, none⟩
  free := id.slot :: s.free

/-- Remove a layer and the layers below it, down to a depth of the amount of fuel. -/
def removeWithin : Nat → LayerStore → LayerId → LayerStore
  | fuel, s, id =>
      match s.layer? id with
      | none => s
      | some layer =>
          let s := s.release id
          match fuel with
          | 0 => s
          | fuel + 1 => layer.children.foldl (fun s (_, child) => removeWithin fuel s child) s

/-- Remove a layer and all layers below it. A chain of layers is no longer than there are slots. -/
def remove (s : LayerStore) (id : LayerId) : LayerStore := removeWithin s.slots.size s id

/-- Remove some layers and all layers below them. -/
def removeAll (s : LayerStore) (children : List (Site × LayerId)) : LayerStore :=
  children.foldl (fun s (_, child) => s.remove child) s

/-- Remove a child of a layer, which forgets it. -/
def detach (s : LayerStore) (parent : LayerId) (site : Site) (child : LayerId) : LayerStore :=
  (s.modify parent fun l => { l with children := l.children.filter (·.1 ≠ site) }).remove child

end LayerStore

end CodeEditor.Layer

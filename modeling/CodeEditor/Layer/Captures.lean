import CodeEditor.Highlight.Capture
import CodeEditor.Layer.View

/-!
The captures of all layers.

Every layer adds the captures of its language's highlights query that overlap a range. They can be
asked of the layers themselves or of a `Snapshot`, which stays as it is while the layers change;
both give the same captures. Unsupported directives that are met are reported.
-/

namespace CodeEditor.Layer

open Highlight (Capture)
open Syntax (Language Node)

/-- The properties of a pattern that have a value. Of properties set twice the last counts. -/
def properties (settings : List (String × Option String)) : List (String × String) :=
  let valued := settings.filterMap fun (key, value) => value.map fun v => (key, v)
  valued.foldl (fun kept (key, value) => kept.filter (·.1 ≠ key) ++ [(key, value)]) []

/-- The captures of a match that overlap a range. Those whose name starts with an underscore are for
the query's own use. -/
def capturesOf (q : Query) (range : ByteRange) (m : Query.QueryMatch) : Checked (List Capture) :=
  let settings := properties (q.propertiesOf m.pattern)
  m.captures.foldrM (fun (capture, x) rest => do
    match q.captureNames[capture]? with
    | none => return rest
    | some name =>
        if "_".isPrefixOf name then return rest
        else if ← x.node.byteRange.overlaps range then
          return ⟨name, x.node.byteRange, x.node.kind, settings⟩ :: rest
        else return rest) []

/-- Captures found, and the unsupported directives met. -/
abbrev Found : Type := List Capture × QueryReports

/-- Add the captures of one layer. A layer that has captures to offer needs the end of the range. -/
def addCaptures (text : TextBuffer) (range : ByteRange) (language : Language)
    (tree : Option ParsedTree) (found : Found) : Checked Found :=
  match language.highlights, tree with
  | some q, some tree =>
      if tree.root.isEmpty then some found
      else do
        let _ ← range.upperBound
        let (captures, reports) := found
        let (ms, reported) := q.supportedMatches tree.root text (some range)
          (QueryReports.of reports.highlights language.id)
        let new ← ms.mapM (capturesOf q range)
        return (captures ++ new.flatten,
          { reports with highlights := QueryReports.put reports.highlights language.id reported })
  | _, _ => some found

namespace LayerTree

/-- Add the captures of the layers on a stack and of those below them, for as many layers as the
amount of fuel. -/
def collect (t : LayerTree) (range : ByteRange) : Nat → List LayerId → Found → Checked Found
  | 0, _, found | _, [], found => some found
  | fuel + 1, id :: rest, found =>
      match t.layer? id with
      | none => t.collect range fuel rest found
      | some l => do
          let found ← addCaptures t.text range l.language l.tree found
          t.collect range fuel ((l.children.map (·.2)).reverse ++ rest) found

/-- The captures that overlap a range, in the order in which they are applied. An empty range has
none. -/
def captures (t : LayerTree) (range : ByteRange) : Checked Found :=
  if range.isEmpty then some ([], t.reports)
  else (t.collect range (t.store.slots.size + 1) [t.root] ([], t.reports)).map
    fun (captures, reports) => (Capture.sort captures, reports)

end LayerTree

/-- The layers as they were at one time. -/
structure Snapshot where
  text : TextBuffer
  root : Option LayerView

namespace Snapshot

/-- The layers as they are. -/
def take (t : LayerTree) : Snapshot := ⟨t.text, t.view⟩

mutual

/-- Add the captures of a layer, then those of the layers below it, the last one first. -/
def collect (text : TextBuffer) (range : ByteRange) : LayerView → Found → Checked Found
  | ⟨_, language, tree, _, _, children⟩, found => do
      collectAll text range children (← addCaptures text range language tree found)

def collectAll (text : TextBuffer) (range : ByteRange) : List LayerView → Found → Checked Found
  | [], found => some found
  | v :: rest, found => do collect text range v (← collectAll text range rest found)

end

/-- The captures that overlap a range, in the order in which they are applied. -/
def captures (s : Snapshot) (range : ByteRange) (reports : QueryReports) : Checked Found :=
  if range.isEmpty then some ([], reports)
  else match s.root with
    | none => some ([], reports)
    | some root => (collect s.text range root ([], reports)).map
        fun (captures, reports) => (Capture.sort captures, reports)

end Snapshot

end CodeEditor.Layer

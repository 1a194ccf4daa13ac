import CodeEditor.Highlight.Token
import CodeEditor.Layer.Captures
import CodeEditor.Syntax.Indent
import CodeEditor.Text.Quoted

/-!
The language mode with syntax.

It keeps the layers of a document in line with its text. Every parse and every edit begins a new
generation. Where a parse stops, the layers stay as far as they have come.
-/

namespace CodeEditor.Syntax

open Layer (LayerTree Snapshot)
open Highlight (Capture)

/-- The syntax of a document. -/
structure Mode where
  engine : Layer.Engine
  language : Language
  layers : LayerTree
  /-- The number of parses and edits so far. -/
  generation : Nat

namespace Mode

/-- The syntax of a document in a language, which has not been parsed. -/
def start (engine : Layer.Engine) (language : Language) (registry : Option Registry)
    (order : Layer.MapOrder) : Mode :=
  ⟨engine, language, .unparsed language registry {} order, 0⟩

/-- Change the layers. -/
def onLayers (m : Mode) (change : Layer.LayerM Unit) : Mode :=
  match change m.layers with
  | .ok _ layers | .error _ layers => { m with layers }

/-- Begin a new generation. -/
def next (m : Mode) : Mode := { m with generation := m.generation + 1 }

/-- Parse a text. -/
def parse (m : Mode) (text : TextBuffer) : Mode := m.next.onLayers (LayerTree.parse m.engine text)

/-- Parse a text apart from the layers there are, and put the new layers in their place if it can be
parsed. Says whether it can. The new layers have maps of their own. -/
def parseApart (m : Mode) (text : TextBuffer) (order : Layer.MapOrder) : Mode × Bool :=
  let m := m.next
  let fresh := LayerTree.unparsed m.language m.layers.registry m.layers.reports order
  match LayerTree.parse m.engine text fresh with
  | .ok _ layers => ({ m with layers }, true)
  | .error _ stopped => ({ m with layers := { m.layers with reports := stopped.reports } }, false)

/-- Take over what was met in queries. -/
def report (m : Mode) (reports : Layer.QueryReports) : Mode :=
  { m with layers := { m.layers with reports := m.layers.reports.union reports } }

/-- The directives met so far in the queries for highlighting and for other languages that are not
known, if the language of the document has such queries. -/
def unsupported (m : Mode) : List (Option (List String)) :=
  let names (q : Option Query) (reports : List (Nat × Query.Reported)) : Option (List String) :=
    q.map fun _ => (Layer.QueryReports.of reports m.language.id).sorted
  [names m.language.highlights m.layers.reports.highlights,
    names m.language.injections m.layers.reports.injections]

/-- The captures that overlap a range, in the order in which they are applied. -/
def captures (m : Mode) (range : ByteRange) : Checked (List Capture × Mode) := do
  let (cs, reports) ← m.layers.captures range
  return (cs, m.report reports)

/-- The captures of a snapshot that overlap a range. -/
def snapshotCaptures (m : Mode) (s : Snapshot) (range : ByteRange) :
    Checked (List Capture × Mode) := do
  let (cs, reports) ← s.captures range m.layers.reports
  return (cs, m.report reports)

/-- The smallest node at a position. -/
def hitAt (m : Mode) (p : LinePosition) : Checked (Option Layer.LayerView.Hit) :=
  return m.layers.hit? m.engine.branchAt (← Point.ofPosition? p)

/-- How to go on after a line break in place of the text between two positions. The layer at the
start says which nodes indent, or else the one at the end. -/
def lineBreak (m : Mode) (text : TextBuffer) (index : LineIndex) (start stop : LinePosition)
    (strategy : IndentStrategy) : Checked LineBreakIndent := do
  let first ← m.hitAt start
  let last ← m.hitAt stop
  let branch (hit : Option Layer.LayerView.Hit) : Branch := (hit.map (·.branch)).getD []
  match (first.bind (·.language.scopes)).or (last.bind (·.language.scopes)) with
  | none => return ⟨0, false⟩
  | some scopes =>
      LineBreak.indent scopes text index strategy.tabLength (branch first) (branch last) start stop

/-- The smallest node at a position, by rows and columns. -/
def nodeAt (m : Mode) (p : LinePosition) : Checked (Option SyntaxNode) :=
  return (← m.hitAt p).bind fun hit => hit.node?.map fun x =>
    ⟨x.kind, x.start.point.position, x.stop.point.position⟩

/-- The language and the generation in one line. -/
def describe (m : Mode) : String :=
  s!"TreeSitterLanguageMode \x7b language: {quoted m.language.name}, " ++
    s!"generation: {m.generation}, .. \x7d"

end Mode

instance : LanguageMode Mode where
  parse := Mode.parse
  applyEdit m edit text _ :=
    (.none, m.next.onLayers (LayerTree.applyEdit m.engine edit text))
  canHighlight m := m.layers.isParsed
  lineBreak := Mode.lineBreak
  nodeAt := Mode.nodeAt
  detectIndent m text index :=
    match m.layers.tree? m.layers.root with
    | some tree => detectIndent m.engine.branchAt text index tree.root
    | none => .unknown

end CodeEditor.Syntax

namespace CodeEditor.Layer.Snapshot

/-- The length of the text and the language in one line. -/
def describe (s : Snapshot) : String :=
  let language := match s.root with
    | some root => s!"Some({quoted root.language.name})"
    | none => "None"
  s!"SyntaxSnapshot \x7b length: {s.text.length}, language: {language}, .. \x7d"

end CodeEditor.Layer.Snapshot

import CodeEditor.Checked
import CodeEditor.Grammar.Rule
import CodeEditor.Yaml.Reader

/-!
Grammars in structured data.

A grammar is a record with a name, a scope name, patterns and a repository, a rule a record whose
`type` says which kind it is. A record is a mapping from the names of its fields, or the list of
its fields in order. Unknown fields are passed over. The fields of a grammar itself take any scalar
for a text and nothing for an empty collection; inside rules every scalar has the type it is written
with.
-/

namespace CodeEditor.Yaml

/-- A scalar as it is written. -/
def Value.written? : Value → Option String
  | .plain t | .string t => some t
  | _ => none

/-- A scalar that is a text by itself. -/
def Value.string? (v : Value) : Option String :=
  match v.typed with
  | .string t => some t
  | _ => none

/-- The fields of a record that has the given names, if none is given twice. A key gives the name of
the field it stands for, where one of no field is passed over. -/
def Value.fields? (key : Value → Option String) (names : List String) :
    Value → Option (String → Option Value)
  | .mapping entries => do
      let named ← entries.mapM fun (k, v) => (key k).map fun name => (name, v)
      if names.any fun name => 1 < (named.filter (·.1 = name)).length then none
      else some fun name => named.lookup name
  | .sequence items =>
      if items.length ≤ names.length then some fun name => (names.zip items).lookup name else none
  | _ => none

/-- The field that a key inside a rule stands for: by its name, or by its place. -/
def Value.fieldName? (names : List String) (k : Value) : Option String :=
  match k.typed with
  | .string name => some name
  | .integer (.ofNat n) => some (names.getD n "")
  | _ => none

/-- How deep a value is nested. -/
def Value.depth : Value → Nat
  | .sequence items => depthOfItems items + 1
  | .mapping entries => depthOfEntries entries + 1
  | _ => 1
where
  depthOfItems : List Value → Nat
    | [] => 0
    | v :: rest => max v.depth (depthOfItems rest)
  depthOfEntries : List (Value × Value) → Nat
    | [] => 0
    | (_, v) :: rest => max v.depth (depthOfEntries rest)

end CodeEditor.Yaml

namespace CodeEditor.Grammar

open Yaml (Value)

/-- The scopes of remembered pieces. -/
def CaptureScopes.ofValue? (v : Value) : Option CaptureScopes :=
  match v.typed with
  | .mapping entries => entries.foldlM (fun (scopes : CaptureScopes) (k, v) => do
      let names := ["name"]
      let number ← match k.typed with
        | .integer (.ofNat n) => if n < wordLimit then some n else none
        | _ => none
      let scope ← ((← v.typed.fields? (Value.fieldName? names) names) "name").bind Value.string?
      return scopes.insert number scope) .empty
  | _ => none

namespace Rule

/-- The names of the fields of each kind of rule. -/
def fieldNames : String → Option (List String)
  | "match" => some ["name", "match", "captures"]
  | "begin_end" =>
      some ["name", "begin", "end", "patterns", "captures", "begin_captures", "end_captures"]
  | "include" => some ["include"]
  | "patterns" => some ["patterns"]
  | _ => none

/-- The kind of a rule and its fields. -/
def tagged? : Value → Option (String × Value)
  | .mapping entries => do
      let isTag (k : Value) : Bool := k.string? = some "type"
      match entries.filter (isTag ·.1) with
      | [(_, tag)] => return (← tag.string?, .mapping (entries.filter (!isTag ·.1)))
      | _ => none
  | .sequence (tag :: fields) => do return (← tag.string?, .sequence fields)
  | _ => none

/-- A rule in a value that is nested no deeper than the amount of fuel. -/
def decode? : Nat → Value → Option Rule
  | 0, _ => none
  | fuel + 1, v => do
      let (kind, record) ← tagged? v
      let names ← fieldNames kind
      let field ← record.fields? (Value.fieldName? names) names
      let text (name : String) : Option String := (field name).bind Value.string?
      let captures (name : String) : Option CaptureScopes :=
        match field name with
        | none => some .empty
        | some v => CaptureScopes.ofValue? v
      let members (v : Value) : Option (List Rule) :=
        match v.typed with
        | .sequence items => items.mapM (decode? fuel)
        | _ => none
      match kind with
      | "match" => return .phrase (← text "name") (← text "match") (← captures "captures")
      | "begin_end" =>
          let scope ← match (field "name").map Value.typed with
            | none | some .null => some none
            | some v => v.string?.map some
          let members ← match field "patterns" with
            | none => some []
            | some v => members v
          let shared ← captures "captures"
          return .region scope (← text "begin") (← text "end") members
            (shared.override (← captures "begin_captures"))
            (shared.override (← captures "end_captures"))
      | "include" => return .reference (← text "include")
      | _ => return .group (← (field "patterns").bind members)

/-- The rule in a value. -/
def ofValue? (v : Value) : Option Rule := decode? v.depth v

end Rule

namespace Definition

/-- The items of a list, which may be left out. -/
def rules? : Option Value → Option (List Rule)
  | none | some .null | some (.plain "") => some []
  | some (.sequence items) => items.mapM Rule.ofValue?
  | some _ => none

/-- The rules of a repository by name, which may be left out. The last of equal names counts. -/
def repository? : Option Value → Option (List (String × Rule))
  | none | some .null | some (.plain "") => some []
  | some (.mapping entries) => do
      let rules ← entries.mapM fun (k, v) => do return (← k.written?, ← Rule.ofValue? v)
      let latest := rules.foldl (fun kept rule => rule :: kept.filter (·.1 ≠ rule.1)) []
      return latest.mergeSort (·.1 ≤ ·.1)
  | some _ => none

/-- The grammar in a value. -/
def ofValue? (v : Value) : Option Definition := do
  let names := ["name", "scope_name", "patterns", "repository"]
  let field ← v.fields? Value.written? names
  return {
    name := ← (field "name").bind Value.written?
    scopeName := ← (field "scope_name").bind Value.written?
    patterns := ← rules? (field "patterns")
    repository := ← repository? (field "repository") }

/-- The grammar in a document. -/
def ofDocument? (text : String) : Option Definition := (Value.ofDocument? text).bind ofValue?

end Definition

end CodeEditor.Grammar

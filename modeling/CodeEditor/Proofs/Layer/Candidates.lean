import CodeEditor.Layer.Tree
import CodeEditor.Proofs.Query.Match

/-!
The parts of a text that can have layers.

A `Setting` is all that the layers of a text depend on: the text, the parser as a function and the
known languages. `Setting.candidates` are the parts of a layer that are written in known languages,
in the order of the query. Several of them may be at one place; they have the same range then
(`range_eq_of_path`).
-/

namespace CodeEditor.Layer

open Syntax (Node Language)

/-! ### Injections -/

theorem injectionsOf_fst (q : Query) (tree : Node) (text : TextBuffer)
    (reported reported' : Query.Reported) :
    (injectionsOf q tree text reported).1 = (injectionsOf q tree text reported').1 := by
  rw [injectionsOf, injectionsOf]
  dsimp only
  rw [q.supportedMatches_fst tree text none reported reported']

theorem InjectionCapture.exists_of_mem {textOf : Node → String} {i : Injection}
    {kept : Option String} {current : Option Nat} {cs : List InjectionCapture}
    (mem : i ∈ injectionsFrom textOf kept current cs) :
    ∃ c ∈ cs, i.path = c.path ∧ i.byteRange = c.node.byteRange := by
  induction cs generalizing kept current with
  | nil => cases mem
  | cons c cs ih =>
      have later {kept' : Option String} {current' : Option Nat}
          (mem : i ∈ injectionsFrom textOf kept' current' cs) :
          ∃ c' ∈ c :: cs, i.path = c'.path ∧ i.byteRange = c'.node.byteRange := by
        obtain ⟨c', among, same⟩ := ih mem
        exact ⟨c', List.mem_cons_of_mem _ among, same⟩
      rw [injectionsFrom] at mem
      split at mem
      · exact later mem
      · dsimp only at mem
        split at mem
        · split at mem
          · exact later mem
          · rcases List.mem_cons.mp mem with rfl | mem
            · exact ⟨c, List.mem_cons_self, rfl, rfl⟩
            · exact later mem
        · exact later mem

/-- An injection is a node of the tree. -/
theorem exists_nodeAt_of_mem {q : Query} {tree : Node} {text : TextBuffer}
    {reported : Query.Reported} {i : Injection} (mem : i ∈ (injectionsOf q tree text reported).1) :
    ∃ x, tree.nodeAt? i.path = some x ∧ i.byteRange = x.byteRange := by
  rw [injectionsOf] at mem
  dsimp only at mem
  obtain ⟨c, sorted, path, range⟩ := InjectionCapture.exists_of_mem mem
  rw [List.mem_mergeSort] at sorted
  obtain ⟨⟨m, i'⟩, numbered, among⟩ := List.mem_flatMap.mp sorted
  obtain ⟨⟨capture, x⟩, captured, made⟩ := List.mem_filterMap.mp among
  obtain ⟨name, -, rfl⟩ := Option.map_eq_some_iff.mp made
  have found := List.fst_mem_of_mem_zipIdx numbered
  refine ⟨x.node, ?_, range⟩
  rw [path]
  exact Query.nodeAt?_of_mem_supportedMatches found _ captured

/-! ### Candidates -/

/-- All that the layers of a text depend on. -/
structure Setting where
  /-- The known languages. -/
  known : String → Option Language
  /-- The tree of a part of the text. -/
  parsed : Language → Option ByteRange → Node
  text : TextBuffer

/-- A part of a text that can have a layer. -/
structure Candidate where
  path : List Nat
  language : Language
  range : ByteRange

namespace Setting

variable {w : Setting} {language : Language} {range : Option ByteRange} {c c' : Candidate}

/-- The injections of a layer. -/
def injections (w : Setting) (language : Language) (range : Option ByteRange) : List Injection :=
  match language.injections with
  | some q => (injectionsOf q (w.parsed language range) w.text {}).1
  | none => []

/-- The candidate that an injection in a known language is. -/
def candidate? (w : Setting) (i : Injection) : Option Candidate :=
  (w.known i.languageName).map fun language => ⟨i.path, language, i.byteRange⟩

/-- The parts of a layer that can have layers. -/
def candidates (w : Setting) (language : Language) (range : Option ByteRange) : List Candidate :=
  (w.injections language range).filterMap w.candidate?

/-- The tree of a candidate covers something. -/
def Covers (w : Setting) (c : Candidate) : Prop :=
  (w.parsed c.language (some c.range)).isEmpty = false

instance (w : Setting) (c : Candidate) : Decidable (w.Covers c) :=
  inferInstanceAs (Decidable (_ = _))

/-- The first candidate at a place whose tree covers something. -/
def first? (w : Setting) (language : Language) (range : Option ByteRange) (path : List Nat) :
    Option Candidate :=
  (w.candidates language range).find? fun c => c.path = path ∧ w.Covers c

/-- Parts in parts in parts end before a depth. -/
def Bounded (w : Setting) : Nat → Language → Option ByteRange → Prop
  | 0, _, _ => False
  | depth + 1, language, range =>
      ∀ c ∈ w.candidates language range, w.Bounded depth c.language (some c.range)

theorem known_of_mem (mem : c ∈ w.candidates language range) :
    ∃ name, w.known name = some c.language := by
  obtain ⟨i, -, made⟩ := List.mem_filterMap.mp mem
  obtain ⟨l, known, rfl⟩ := Option.map_eq_some_iff.mp made
  exact ⟨i.languageName, known⟩

theorem of_first? {path : List Nat} (found : w.first? language range path = some c) :
    c ∈ w.candidates language range ∧ c.path = path ∧ w.Covers c := by
  have holds := List.find?_some found
  simp only [decide_eq_true_eq] at holds
  exact ⟨List.mem_of_find?_eq_some found, holds⟩

theorem exists_first? (mem : c ∈ w.candidates language range) (covers : w.Covers c) :
    ∃ c', w.first? language range c.path = some c' := by
  cases found : w.first? language range c.path with
  | some c' => exact ⟨c', rfl⟩
  | none =>
      have missed := List.find?_eq_none.mp found c mem
      simp [covers] at missed

/-- Candidates at one place have the same range. -/
theorem range_eq_of_path (mem : c ∈ w.candidates language range)
    (mem' : c' ∈ w.candidates language range) (same : c.path = c'.path) : c.range = c'.range := by
  obtain ⟨i, among, made⟩ := List.mem_filterMap.mp mem
  obtain ⟨i', among', made'⟩ := List.mem_filterMap.mp mem'
  obtain ⟨_, -, rfl⟩ := Option.map_eq_some_iff.mp made
  obtain ⟨_, -, rfl⟩ := Option.map_eq_some_iff.mp made'
  rw [injections] at among among'
  split at among
  · next q has =>
      rw [has] at among'
      obtain ⟨x, there, range⟩ := exists_nodeAt_of_mem among
      obtain ⟨x', there', range'⟩ := exists_nodeAt_of_mem among'
      dsimp only at same
      rw [same, there'] at there
      obtain rfl := Option.some.inj there
      exact range.trans range'.symm
  · cases among

end Setting

end CodeEditor.Layer

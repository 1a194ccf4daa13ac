import CodeEditor.Proofs.Style.Styled

/-!
Attributes laid over a text one after the other.

At every offset the result is what is laid there, one over the other (`Layered`): in the parts that
replace each other the last that is set (`part_foldl_overlay`), in the traits whatever is set at all
(`flag_foldl_overlay`).
-/

namespace CodeEditor

namespace TextAttributes

variable {a b : TextAttributes} {layers : List TextAttributes}

/-- What is laid over attributes does not look at the signs of zeros in them. -/
theorem unsigned_foldl_overlay (same : a.unsigned = b.unsigned) (layers : List TextAttributes) :
    (layers.foldl overlay a).unsigned = (layers.foldl overlay b).unsigned := by
  induction layers generalizing a b with
  | nil => exact same
  | cons layer layers ih =>
      refine ih ?_
      rw [unsigned_overlay, unsigned_overlay, same]

/-- Without negative zeros in what is laid there are none in the result. -/
theorem unsigned_foldl_overlay_eq (unsigned : ∀ layer ∈ layers, layer.unsigned = layer)
    (same : a.unsigned = a) : (layers.foldl overlay a).unsigned = layers.foldl overlay a := by
  induction layers generalizing a with
  | nil => exact same
  | cons layer layers ih =>
      obtain ⟨here, unsigned⟩ := List.forall_mem_cons.mp unsigned
      refine ih unsigned ?_
      rw [unsigned_overlay, same, here]

/-- Of a part in which the upper attributes replace the lower the last that is set shows. -/
theorem part_foldl_overlay {α : Type} {part : TextAttributes → Option α}
    (replaces : ∀ a b, part (a.overlay b) = (part b).or (part a)) (layers : List TextAttributes)
    (a : TextAttributes) :
    part (layers.foldl overlay a) = (layers.reverse.findSome? part).or (part a) := by
  induction layers generalizing a with
  | nil => rfl
  | cons layer layers ih =>
      rw [List.foldl_cons, ih, replaces, List.reverse_cons, List.findSome?_append, Option.or_assoc]
      congr 1
      cases here : part layer with
      | none => simp [here]
      | some value => simp [here]

/-- A flag that adds up is set when it is set anywhere. -/
theorem flag_foldl_overlay {flag : TextAttributes → Bool}
    (adds : ∀ a b, flag (a.overlay b) = (flag a || flag b)) (layers : List TextAttributes)
    (a : TextAttributes) :
    flag (layers.foldl overlay a) = true ↔ flag a = true ∨ ∃ layer ∈ layers, flag layer = true := by
  induction layers generalizing a with
  | nil => simp
  | cons layer layers ih =>
      rw [List.foldl_cons, ih, adds, Bool.or_eq_true, List.exists_mem_cons_iff, or_assoc]

end TextAttributes

namespace StyledText

/-- What is laid over an offset, the lowest first. -/
def layersAt (layers : List (TextRange × TextAttributes)) (offset : Nat) : List TextAttributes :=
  (layers.filter fun layer =>
    decide (layer.1.location ≤ offset ∧ offset < layer.1.location + layer.1.length)).map (·.2)

/-- Attributes were laid over ranges of a text in order, up to signs of zero. -/
structure Layered (layers : List (TextRange × TextAttributes)) (s s' : StyledText) : Prop where
  text : s'.text = s.text
  attributesAt : ∀ offset, (s'.attributesAt offset).map (·.unsigned) =
    (s.attributesAt offset).map fun a =>
      ((layersAt layers offset).foldl TextAttributes.overlay a).unsigned
  /-- No negative zeros come up where there are none. -/
  keeps : (∀ layer ∈ layers, layer.2.unsigned = layer.2) →
    AllAttributes (fun a => a.unsigned = a) s.runs → AllAttributes (fun a => a.unsigned = a) s'.runs

variable {layers : List (TextRange × TextAttributes)} {s s₁ s' : StyledText} {r : TextRange}
  {attributes : TextAttributes} {offset : Nat}

theorem layersAt_cons (layer : TextRange × TextAttributes)
    (layers : List (TextRange × TextAttributes)) (offset : Nat) (a : TextAttributes) :
    (layersAt (layer :: layers) offset).foldl TextAttributes.overlay a =
      (layersAt layers offset).foldl TextAttributes.overlay
        (if layer.1.location ≤ offset ∧ offset < layer.1.location + layer.1.length then
          a.overlay layer.2
        else a) := by
  rw [layersAt, List.filter_cons]
  split
  · next there =>
      rw [if_pos (of_decide_eq_true there)]
      rfl
  · next elsewhere =>
      rw [if_neg (fun there => elsewhere (decide_eq_true there))]
      rfl

theorem layersAt_append (layers layers' : List (TextRange × TextAttributes)) (offset : Nat) :
    layersAt (layers ++ layers') offset = layersAt layers offset ++ layersAt layers' offset := by
  rw [layersAt, List.filter_append, List.map_append]
  rfl

namespace Layered

theorem nil (s : StyledText) : Layered [] s s := ⟨rfl, fun _ => rfl, fun _ all => all⟩

/-- One layer more below the others. -/
theorem cons (overlaid : Overlaid r attributes s s₁) (layered : Layered layers s₁ s') :
    Layered ((r, attributes) :: layers) s s' := by
  constructor
  case text => exact layered.text.trans overlaid.text
  case attributesAt =>
    intro offset
    have below := overlaid.attributesAt offset
    rw [layered.attributesAt offset]
    simp only [layersAt_cons]
    cases here : s₁.attributesAt offset with
    | none =>
        rw [here] at below
        rw [Option.map_eq_none_iff.mp below.symm]
        rfl
    | some a =>
        rw [here] at below
        obtain ⟨b, there, same⟩ := Option.map_eq_some_iff.mp below.symm
        rw [there]
        exact congrArg some (TextAttributes.unsigned_foldl_overlay same.symm _)
  case keeps =>
    intro unsigned all
    obtain ⟨here, unsigned⟩ := List.forall_mem_cons.mp unsigned
    refine layered.keeps unsigned (overlaid.keeps _ (fun a same => ?_) all)
    rw [TextAttributes.unsigned_overlay, same, here]

/-- What is drawn at an offset of a text that had no attributes. -/
theorem exists_attributesAt {text : String} (layered : Layered layers (plain text) s)
    (inside : offset < Utf16.length text.toList) : ∃ a, s.attributesAt offset = some a ∧
      a.unsigned = ((layersAt layers offset).foldl TextAttributes.overlay {}).unsigned ∧
      ((∀ layer ∈ layers, layer.2.unsigned = layer.2) →
        a = (layersAt layers offset).foldl TextAttributes.overlay {}) := by
  have here := layered.attributesAt offset
  rw [attributesAt_plain, if_pos inside, Option.map_some] at here
  obtain ⟨a, found, same⟩ := Option.map_eq_some_iff.mp here
  refine ⟨a, found, same, fun unsigned => ?_⟩
  have all := layered.keeps unsigned (@allAttributes_plain (fun a => a.unsigned = a) rfl text)
  have drawn : ∀ layer ∈ layersAt layers offset, layer.unsigned = layer := by
    intro layer mem
    obtain ⟨layer, there, rfl⟩ := List.mem_map.mp mem
    exact unsigned layer (List.mem_filter.mp there).1
  rw [← all.at found, same, TextAttributes.unsigned_foldl_overlay_eq drawn rfl]

/-- Nothing is drawn behind the text. -/
theorem attributesAt_eq_none {text : String} (layered : Layered layers (plain text) s)
    (outside : Utf16.length text.toList ≤ offset) : s.attributesAt offset = none := by
  have here := layered.attributesAt offset
  rw [attributesAt_plain, if_neg (Nat.not_lt.mpr outside)] at here
  exact Option.map_eq_none_iff.mp here

end Layered

end StyledText

end CodeEditor

import CodeEditor.Style.Attributes

/-!
Themes.

A theme styles the names that a highlighter gives to pieces of text. Names are made of components
divided by dots, and a style for a name also holds for the names below it: the name itself is looked
up first, then the name cut at its last dot, and so on.
-/

namespace CodeEditor

/-- What a theme says about a name. -/
structure Theme where
  color : String → Option TextColor
  font : String → Option Font := fun _ => none
  shadow : String → Option Shadow := fun _ => none
  traits : String → FontTraits := fun _ => {}

/-- The attributes that a theme gives to a name. -/
def Theme.attributes (theme : Theme) (name : String) : TextAttributes where
  color := theme.color name
  font := theme.font name
  shadow := theme.shadow name
  traits := theme.traits name

/-- Styles by name. The style added last stands first. -/
structure StyleSheet where
  styles : List (String × TextAttributes) := []

namespace StyleSheet

/-- Add a style. It hides an earlier one of the same name. -/
def withStyle (s : StyleSheet) (name : String) (style : TextAttributes) : StyleSheet :=
  ⟨(name, style) :: s.styles⟩

/-- The name without its last component, if it has more than one. -/
def parent? (name : List Char) : Option (List Char) :=
  match name.reverse.dropWhile (· ≠ '.') with
  | [] => none
  | _ :: rest => some rest.reverse

/-- The name and the names above it, the longest first. -/
def lineage (name : List Char) : List (List Char) :=
  name :: go name.length name
where
  go : Nat → List Char → List (List Char)
    | 0, _ => []
    | fuel + 1, name =>
        match parent? name with
        | none => []
        | some parent => parent :: go fuel parent

/-- The style of the longest name above or equal to `name` that has one. -/
def style? (s : StyleSheet) (name : String) : Option TextAttributes :=
  (lineage name.toList).findSome? fun name => s.styles.lookup (String.ofList name)

/-- The theme of the styles. -/
def theme (s : StyleSheet) : Theme where
  color name := (s.style? name).bind (·.color)
  font name := (s.style? name).bind (·.font)
  shadow name := (s.style? name).bind (·.shadow)
  traits name := ((s.style? name).map (·.traits)).getD {}

end StyleSheet

end CodeEditor

import CodeEditor.Style.Theme
import Mathlib.Data.List.Chain
import Mathlib.Data.List.TakeWhile

/-!
Which style a name has.

A name is cut at its last dot again and again. The cuts are the names that stand above it, all of
them and the longest first (`mem_lineage_iff`, `pairwise_lineage`), also where components are empty,
and they end with a name that has no dot (`lineage_eq`). The first of them that has a style is
therefore the longest that has one, and `style_of_longest` says that every attribute of the name is
read from the style that was added last for it.
-/

namespace CodeEditor.StyleSheet

variable {name parent key rest last : List Char}

/-! ### Cutting at the last dot -/

theorem parent?_append (plain : '.' ∉ last) (front : List Char) :
    parent? (front ++ '.' :: last) = some front := by
  have passed : ∀ c ∈ last.reverse, decide (c ≠ '.') = true := fun c mem =>
    decide_eq_true fun same => plain (same ▸ List.mem_reverse.mp mem)
  rw [parent?, List.reverse_append, List.reverse_cons, List.append_assoc,
    List.dropWhile_append_of_pos passed]
  simp

theorem parent?_eq_none_iff : parent? name = none ↔ '.' ∉ name := by
  constructor
  · intro uncut mem
    obtain ⟨back, front, whole, plain⟩ := List.eq_append_cons_of_mem (List.mem_reverse.mpr mem)
    have cut := @parent?_append back.reverse (by simpa using plain) front.reverse
    rw [List.reverse_eq_iff.mp whole] at uncut
    simp [cut] at uncut
  · intro plain
    have passed : name.reverse.dropWhile (· ≠ '.') = [] := by
      refine List.dropWhile_eq_nil_iff.mpr fun c mem => ?_
      exact decide_eq_true fun same => plain (same ▸ List.mem_reverse.mp mem)
    rw [parent?, passed]

/-- What is cut off is the last component, which has no dot. -/
theorem parent?_eq_some_iff :
    parent? name = some parent ↔ ∃ last, '.' ∉ last ∧ name = parent ++ '.' :: last := by
  constructor
  · intro cut
    have dotted : '.' ∈ name := by
      by_contra plain
      rw [parent?_eq_none_iff.mpr plain] at cut
      cases cut
    obtain ⟨back, front, whole, plain⟩ := List.eq_append_cons_of_mem (List.mem_reverse.mpr dotted)
    have name_eq : name = front.reverse ++ '.' :: back.reverse := by
      simpa using List.reverse_eq_iff.mp whole
    have noDot : '.' ∉ back.reverse := by simpa using plain
    rw [name_eq, parent?_append noDot] at cut
    exact ⟨back.reverse, noDot, Option.some.inj cut ▸ name_eq⟩
  · rintro ⟨last, plain, rfl⟩
    exact parent?_append plain parent

theorem length_lt_of_parent? (cut : parent? name = some parent) : parent.length < name.length := by
  obtain ⟨last, -, rfl⟩ := parent?_eq_some_iff.mp cut
  simp

/-! ### The names above a name -/

/-- There are no more cuts than characters. -/
theorem go_eq_go {n k : Nat} (le : name.length ≤ n) (le' : name.length ≤ k) :
    lineage.go n name = lineage.go k name := by
  induction n generalizing name k with
  | zero =>
      obtain rfl := List.length_eq_zero_iff.mp (Nat.le_zero.mp le)
      cases k <;> rfl
  | succ n ih =>
      cases k with
      | zero =>
          obtain rfl := List.length_eq_zero_iff.mp (Nat.le_zero.mp le')
          rfl
      | succ k =>
          rw [lineage.go, lineage.go]
          cases cut : parent? name with
          | none => rfl
          | some parent =>
              have shorter := length_lt_of_parent? cut
              exact congrArg (parent :: ·) (ih (by omega) (by omega))

/-- A name is followed by the names above what is left of it, as long as there is a dot to cut
at. -/
theorem lineage_eq (name : List Char) : lineage name = name :: (parent? name).elim [] lineage := by
  have enough := @go_eq_go name name.length (name.length + 1) (Nat.le_refl _) (Nat.le_succ _)
  rw [lineage, enough, lineage.go]
  cases cut : parent? name with
  | none => rfl
  | some parent =>
      have shorter := length_lt_of_parent? cut
      rw [Option.elim_some, lineage, go_eq_go (Nat.le_refl _) (Nat.le_of_lt shorter)]

theorem lineage_of_uncut (uncut : parent? name = none) : lineage name = [name] := by
  rw [lineage_eq, uncut, Option.elim_none]

theorem lineage_of_cut (cut : parent? name = some parent) :
    lineage name = name :: lineage parent := by
  rw [lineage_eq, cut, Option.elim_some]

/-- What holds of names without a dot, and of a name when it holds of what is left of it, holds of
all. -/
theorem lineage_induction {motive : List Char → Prop}
    (uncut : ∀ name, parent? name = none → motive name)
    (cut : ∀ name parent, parent? name = some parent → motive parent → motive name)
    (name : List Char) : motive name := by
  induction len : name.length using Nat.strongRecOn generalizing name with
  | ind n ih =>
      cases here : parent? name with
      | none => exact uncut name here
      | some parent =>
          exact cut name parent here (ih _ (len ▸ length_lt_of_parent? here) parent rfl)

/-- A name cut at its last dot until there is no dot left. -/
structure Cuts (name : List Char) (cuts : List (List Char)) : Prop where
  first : cuts.head? = some name
  next : cuts.IsChain fun a b => ∃ component, '.' ∉ component ∧ a = b ++ '.' :: component
  ends : ∃ last, cuts.getLast? = some last ∧ '.' ∉ last

theorem cuts_lineage (name : List Char) : Cuts name (lineage name) := by
  induction name using lineage_induction with
  | uncut name here =>
      rw [lineage_of_uncut here]
      exact ⟨rfl, .singleton name, name, rfl, parent?_eq_none_iff.mp here⟩
  | cut name parent here ih =>
      obtain ⟨first, next, last, ends, plain⟩ := ih
      rw [lineage_of_cut here]
      refine ⟨rfl, List.isChain_cons.mpr ⟨?_, next⟩, last, ?_, plain⟩
      · rw [first]
        rintro _ ⟨⟩
        exact parent?_eq_some_iff.mp here
      · rw [List.getLast?_cons, ends]
        rfl

/-- The cuts of a name are the name and the fronts of it that a dot follows. -/
theorem mem_lineage_iff : key ∈ lineage name ↔ key = name ∨ ∃ rest, key ++ '.' :: rest = name := by
  induction name using lineage_induction with
  | uncut name here =>
      have plain := parent?_eq_none_iff.mp here
      rw [lineage_of_uncut here, List.mem_singleton]
      refine ⟨.inl, Or.rec id ?_⟩
      rintro ⟨rest, rfl⟩
      exact absurd (List.mem_append_right key List.mem_cons_self) plain
  | cut name parent here ih =>
      obtain ⟨last, plain, whole⟩ := parent?_eq_some_iff.mp here
      rw [lineage_of_cut here, List.mem_cons, ih]
      refine or_congr_right ⟨?_, ?_⟩
      · rintro (rfl | ⟨rest, rfl⟩)
        · exact ⟨last, whole.symm⟩
        · exact ⟨rest ++ '.' :: last, by simp [whole]⟩
      · rintro ⟨rest, same⟩
        -- A dot behind the last one would stand in the last component.
        rcases List.append_eq_append_iff.mp (same.trans whole) with ⟨between, above, behind⟩ |
          ⟨between, below, behind⟩
        · cases between with
          | nil => exact .inl (by simpa using above.symm)
          | cons c between =>
              obtain ⟨rfl, -⟩ := List.cons.inj behind
              exact .inr ⟨between, above.symm⟩
        · cases between with
          | nil => exact .inl (by simpa using below)
          | cons c between =>
              obtain ⟨rfl, rfl⟩ := List.cons.inj behind
              simp at plain

theorem length_le_of_mem_lineage (mem : key ∈ lineage name) : key.length ≤ name.length := by
  rcases mem_lineage_iff.mp mem with rfl | ⟨rest, rfl⟩ <;> simp

/-- Longer cuts come first. -/
theorem pairwise_lineage (name : List Char) :
    (lineage name).Pairwise fun a b => b.length < a.length := by
  induction name using lineage_induction with
  | uncut name here =>
      rw [lineage_of_uncut here]
      exact List.pairwise_singleton _ _
  | cut name parent here ih =>
      rw [lineage_of_cut here]
      refine List.pairwise_cons.mpr ⟨fun key mem => ?_, ih⟩
      exact Nat.lt_of_le_of_lt (length_le_of_mem_lineage mem) (length_lt_of_parent? here)

/-! ### The style of a name -/

/-- A style for one name holds for another: they are the same, or the other goes on with a dot. -/
def Covers (key name : String) : Prop := key = name ∨ ∃ rest, key ++ "." ++ rest = name

/-- The sheet that some styles are added to one after the other. -/
def ofStyles (added : List (String × TextAttributes)) : StyleSheet :=
  added.foldl (fun s style => s.withStyle style.1 style.2) {}

/-- Of the styles added for a key this is the last, and no longer key covers the name. -/
structure Governs (added : List (String × TextAttributes)) (name key : String)
    (style : TextAttributes) : Prop where
  covers : Covers key name
  latest : ∃ front back, added = front ++ (key, style) :: back ∧ ∀ later ∈ back, later.1 ≠ key
  longest : ∀ other ∈ added, Covers other.1 name → other.1.length ≤ key.length

variable {added : List (String × TextAttributes)} {style : TextAttributes}

theorem styles_ofStyles (added : List (String × TextAttributes)) :
    (ofStyles added).styles = added.reverse := by
  have more (s : StyleSheet) :
      (added.foldl (fun s style => s.withStyle style.1 style.2) s).styles = added.reverse ++
          s.styles := by
    induction added generalizing s with
    | nil => rfl
    | cons first added ih => rw [List.foldl_cons, ih, withStyle]; simp
  exact (more {}).trans (List.append_nil _)

theorem covers_iff_mem {key name : String} :
    Covers key name ↔ key.toList ∈ lineage name.toList := by
  rw [mem_lineage_iff, String.toList_inj, Covers]
  refine or_congr_right ⟨?_, ?_⟩
  · rintro ⟨rest, rfl⟩
    exact ⟨rest.toList, by simp⟩
  · rintro ⟨rest, same⟩
    exact ⟨.ofList rest, String.toList_inj.mp (by simpa using same)⟩

instance (key name : String) : Decidable (Covers key name) :=
  decidable_of_iff ((lineage name.toList).contains key.toList)
    (List.contains_iff_mem.trans covers_iff_mem.symm)

theorem lookup_eq_some_iff {key : String} : added.reverse.lookup key = some style ↔
    ∃ front back, added = front ++ (key, style) :: back ∧ ∀ later ∈ back, later.1 ≠ key := by
  rw [List.lookup_eq_some_iff]
  constructor
  · rintro ⟨back, front, whole, later⟩
    refine ⟨front.reverse, back.reverse, by simpa using List.reverse_eq_iff.mp whole, ?_⟩
    intro other mem same
    simpa [same] using later other (List.mem_reverse.mp mem)
  · rintro ⟨front, back, rfl, later⟩
    refine ⟨back.reverse, front.reverse, by simp, fun other mem => ?_⟩
    simpa using (later other (List.mem_reverse.mp mem)).symm

theorem lookup_eq_none_iff {key : String} :
    added.reverse.lookup key = none ↔ ∀ other ∈ added, other.1 ≠ key := by
  simp [List.lookup_eq_none_iff, @eq_comm _ key]

/-- The style of a name is the one that governs it. -/
theorem style?_eq_some_iff {name : String} :
    (ofStyles added).style? name = some style ↔ ∃ key, Governs added name key style := by
  rw [style?, styles_ofStyles, List.findSome?_eq_some_iff]
  have sorted := pairwise_lineage name.toList
  constructor
  · rintro ⟨longer, key, shorter, cuts, found, unset⟩
    rw [cuts, List.pairwise_append, List.pairwise_cons] at sorted
    obtain ⟨-, ⟨below, -⟩, -⟩ := sorted
    refine ⟨.ofList key, ?_, lookup_eq_some_iff.mp found, fun other mem covers => ?_⟩
    · rw [covers_iff_mem, cuts]
      simp
    · rw [covers_iff_mem, cuts, List.mem_append, List.mem_cons] at covers
      rw [String.length_ofList, ← String.length_toList]
      rcases covers with above | same | behind
      · have none := unset _ above
        rw [String.ofList_toList] at none
        exact absurd rfl (lookup_eq_none_iff.mp none other mem)
      · exact Nat.le_of_eq (congrArg _ same)
      · exact Nat.le_of_lt (below _ behind)
  · rintro ⟨key, covers, latest, longest⟩
    obtain ⟨longer, shorter, cuts⟩ := List.append_of_mem (covers_iff_mem.mp covers)
    refine ⟨longer, key.toList, shorter, cuts, ?_, fun cut above => ?_⟩
    · rw [String.ofList_toList]
      exact lookup_eq_some_iff.mpr latest
    · rw [lookup_eq_none_iff]
      intro other mem same
      rw [cuts, List.pairwise_append] at sorted
      have longer := sorted.2.2 cut above _ List.mem_cons_self
      have atMost := longest other mem (covers_iff_mem.mpr (by simp [cuts, same, above]))
      rw [same, String.length_ofList, ← String.length_toList] at atMost
      exact absurd longer (Nat.not_lt.mpr atMost)

/-- A name has no style when none was added for a name that covers it. -/
theorem style?_eq_none_iff {name : String} :
    (ofStyles added).style? name = none ↔ ∀ other ∈ added, ¬Covers other.1 name := by
  simp only [style?, styles_ofStyles, List.findSome?_eq_none_iff, lookup_eq_none_iff]
  constructor
  · intro unset other mem covers
    exact unset _ (covers_iff_mem.mp covers) other mem String.ofList_toList.symm
  · intro uncovered cut mem other mem' same
    refine uncovered other mem' (covers_iff_mem.mpr ?_)
    rwa [same, String.toList_ofList]

/-- A name has the style that was added last for the longest name that covers it, if there is one.
All its attributes are those of that style, whether it sets them or not. The search for it cuts the
name until there is no dot left. -/
theorem style_of_longest (added : List (String × TextAttributes)) (name : String) :
    Cuts name.toList (lineage name.toList) ∧
      (∀ style, (ofStyles added).style? name = some style ↔ ∃ key, Governs added name key style) ∧
      ((ofStyles added).style? name = none ↔ ∀ other ∈ added, ¬Covers other.1 name) ∧
      (∀ key style, Governs added name key style →
        (ofStyles added).theme.color name = style.color ∧
          (ofStyles added).theme.font name = style.font ∧
          (ofStyles added).theme.shadow name = style.shadow ∧
          (ofStyles added).theme.traits name = style.traits ∧
          (ofStyles added).theme.attributes name = style) ∧
      ((∀ other ∈ added, ¬Covers other.1 name) → (ofStyles added).theme.attributes name = {}) := by
  refine ⟨cuts_lineage _, fun style => style?_eq_some_iff, style?_eq_none_iff, ?_, ?_⟩
  · intro key style governs
    have found := style?_eq_some_iff.mpr ⟨key, governs⟩
    simp [theme, Theme.attributes, found]
  · intro uncovered
    have none := style?_eq_none_iff.mpr uncovered
    simp [theme, Theme.attributes, none]

/-- The name starts with a dot, so the empty key covers it, but a longer one does too. That one was
given a second style, which hides the colors of the others although it has none. -/
theorem style_of_longest_dotted :
    ∃ (added : List (String × TextAttributes)) (bold : TextAttributes),
      added = [("", { color := some (.opaqueRgb 0 0 0) }),
        (".é.", { color := some (.opaqueRgb 9 9 9) }),
        (".é.", bold), (".é..x.y", {})] ∧ Governs added ".é..x" ".é." bold ∧
      (ofStyles added).theme.color ".é..x" = none ∧
        (ofStyles added).theme.attributes ".é..x" = bold := by
  refine ⟨_, { traits := { bold := true } }, rfl, ?_⟩
  have governs : Governs [("", { color := some (.opaqueRgb 0 0 0) }),
      (".é.", { color := some (.opaqueRgb 9 9 9) }), (".é.", { traits := { bold := true } }),
      (".é..x.y", {})] ".é..x" ".é." { traits := { bold := true } } := by
    constructor
    case covers => exact .inr ⟨"x", rfl⟩
    case latest => exact ⟨[_, _], [(".é..x.y", {})], rfl, by decide⟩
    case longest => decide
  obtain ⟨-, -, -, attributes, -⟩ := style_of_longest _ ".é..x"
  obtain ⟨color, -, -, -, all⟩ := attributes _ _ governs
  exact ⟨governs, color, all⟩

end CodeEditor.StyleSheet

import CodeEditor.Style.Styled
import CodeEditor.Proofs.Style.Attributes

/-!
What the runs of a styled text say about each offset.

Runs are `Tiles` of a piece of text when they cover it without gaps. `attributesIn` reads the
attributes of an offset off a list of runs. Parting runs changes none of them
(`attributesIn_splitAt`), and behind it no run has a bound of the range inside (`Cut`), so that
overlaying whole runs overlays exactly the offsets of the range (`attributesIn_overlay`). Joining
equal neighbours changes nothing but signs of zero (`attributesIn_coalesce`). Since no attributes
come up that were not there (`AllAttributes.coalesce`), it changes nothing at all where no zero has
one.
-/

namespace CodeEditor

namespace StyledText

/-- Runs cover a text from one offset up to another, one behind the other. -/
inductive Tiles : Nat → List StyledRun → Nat → Prop
  | nil (offset : Nat) : Tiles offset [] offset
  | cons {start length stop : Nat} {attributes : TextAttributes} {rest : List StyledRun} :
      0 < length → Tiles (start + length) rest stop →
      Tiles start (⟨⟨start, length⟩, attributes⟩ :: rest) stop

/-- No run has an offset inside. -/
def Cut (offset : Nat) (runs : List StyledRun) : Prop :=
  ∀ run ∈ runs, run.upperBound ≤ offset ∨ offset ≤ run.range.location

/-- The attributes of all runs satisfy something. -/
def AllAttributes (p : TextAttributes → Prop) (runs : List StyledRun) : Prop :=
  ∀ run ∈ runs, p run.attributes

/-- The attributes that runs give to an offset. -/
def attributesIn (runs : List StyledRun) (offset : Nat) : Option TextAttributes :=
  (runs.find? fun run => run.range.location ≤ offset && offset < run.upperBound).map (·.attributes)

variable {start stop offset : Nat} {run : StyledRun} {runs : List StyledRun}

theorem attributesAt_eq (s : StyledText) (offset : Nat) :
    s.attributesAt offset = attributesIn s.runs offset := rfl

@[simp] theorem attributesIn_nil (offset : Nat) : attributesIn [] offset = none := rfl

theorem attributesIn_cons (run : StyledRun) (rest : List StyledRun) (offset : Nat) :
    attributesIn (run :: rest) offset =
      if run.range.location ≤ offset ∧ offset < run.upperBound then some run.attributes
      else attributesIn rest offset := by
  rw [attributesIn, List.find?_cons]
  split
  · next inside =>
      rw [if_pos (by simpa using inside)]
      rfl
  · next outside =>
      rw [if_neg (by simpa using outside)]
      rfl

theorem attributesIn_run (start length : Nat) (attributes : TextAttributes) (rest : List StyledRun)
    (offset : Nat) : attributesIn (⟨⟨start, length⟩, attributes⟩ :: rest) offset =
      if start ≤ offset ∧ offset < start + length then some attributes
      else attributesIn rest offset := attributesIn_cons _ _ _

/-- What holds of all attributes holds of those of an offset. -/
theorem AllAttributes.at {p : TextAttributes → Prop} (all : AllAttributes p runs)
    {attributes : TextAttributes} (here : attributesIn runs offset = some attributes) :
    p attributes := by
  obtain ⟨run, found, rfl⟩ := Option.map_eq_some_iff.mp here
  exact all run (List.mem_of_find?_eq_some found)

namespace Tiles

theorem le (tiles : Tiles start runs stop) : start ≤ stop := by
  induction tiles with
  | nil offset => exact Nat.le_refl offset
  | cons _ _ ih => omega

/-- The runs lie in what they cover, and none is empty. -/
theorem bounds (tiles : Tiles start runs stop) (mem : run ∈ runs) :
    start ≤ run.range.location ∧ run.range.location < run.upperBound ∧ run.upperBound ≤ stop := by
  induction tiles with
  | nil => cases mem
  | @cons start length stop attributes rest filled below ih =>
      rcases List.mem_cons.mp mem with rfl | mem
      · have le := below.le
        exact ⟨Nat.le_refl start, Nat.lt_add_of_pos_right filled, le⟩
      · obtain ⟨low, inside, high⟩ := ih mem
        exact ⟨by omega, inside, high⟩

theorem attributesIn_eq_none (tiles : Tiles start runs stop)
    (outside : offset < start ∨ stop ≤ offset) : attributesIn runs offset = none := by
  rw [attributesIn, Option.map_eq_none_iff, List.find?_eq_none]
  intro run mem
  obtain ⟨low, -, high⟩ := tiles.bounds mem
  simp only [Bool.and_eq_true, decide_eq_true_eq, not_and, Nat.not_lt]
  omega

/-- Every offset that is covered has attributes. -/
theorem exists_attributesIn (tiles : Tiles start runs stop) (low : start ≤ offset)
    (high : offset < stop) : ∃ attributes, attributesIn runs offset = some attributes := by
  induction tiles with
  | nil => omega
  | @cons start length stop attributes rest _ _ ih =>
      rw [attributesIn_run]
      by_cases inside : start ≤ offset ∧ offset < start + length
      · exact ⟨attributes, if_pos inside⟩
      · rw [if_neg inside]
        exact ih (by omega) high

/-- A change of attributes leaves the ranges. -/
theorem map (tiles : Tiles start runs stop) {f : StyledRun → StyledRun}
    (same : ∀ run, (f run).range = run.range) : Tiles start (runs.map f) stop := by
  induction tiles with
  | nil offset => exact .nil offset
  | @cons start length stop attributes rest filled _ ih =>
      have range := same ⟨⟨start, length⟩, attributes⟩
      rw [List.map_cons]
      generalize f ⟨⟨start, length⟩, attributes⟩ = run at range
      obtain ⟨_, attributes'⟩ := run
      cases range
      exact .cons filled ih

end Tiles

/-! ### Parting runs -/

theorem Tiles.splitAt (tiles : Tiles start runs stop) (offset : Nat) :
    Tiles start (splitAt offset runs) stop := by
  induction tiles with
  | nil other => exact .nil other
  | @cons start length stop attributes rest filled below ih =>
      rw [StyledText.splitAt]
      split
      · exact .cons filled ih
      · next notAbove =>
          split
          · exact .cons filled below
          · next inside =>
              simp only [StyledRun.upperBound, TextRange.ofBounds] at notAbove inside ⊢
              refine .cons (by omega) ?_
              rw [Nat.add_sub_cancel' (by omega)]
              refine .cons (by omega) ?_
              rwa [Nat.add_sub_cancel' (by omega)]

theorem attributesIn_splitAt (runs : List StyledRun) (place offset : Nat) :
    attributesIn (splitAt place runs) offset = attributesIn runs offset := by
  fun_induction splitAt place runs with
  | case1 => rfl
  | case2 run rest _ ih => rw [attributesIn_cons, ih, attributesIn_cons]
  | case3 => rfl
  | case4 run rest notAbove notBelow =>
      rw [attributesIn_cons, attributesIn_cons, attributesIn_cons]
      simp only [StyledRun.upperBound, TextRange.ofBounds] at notAbove notBelow ⊢
      grind

theorem cut_splitAt (tiles : Tiles start runs stop) (offset : Nat) :
    Cut offset (splitAt offset runs) := by
  induction tiles with
  | nil => exact fun run mem => by cases mem
  | @cons start length stop attributes rest filled below ih =>
      intro run mem
      rw [StyledText.splitAt] at mem
      split at mem
      · next above =>
          rcases List.mem_cons.mp mem with rfl | mem
          · exact .inl above
          · exact ih run mem
      · split at mem
        · next le =>
            rcases List.mem_cons.mp mem with rfl | mem
            · exact .inr le
            · have low := (below.bounds mem).1
              exact .inr (Nat.le_trans le (Nat.le_trans (Nat.le_add_right start length) low))
        · next notAbove notBelow =>
            simp only [StyledRun.upperBound, TextRange.ofBounds] at notAbove notBelow mem
            rcases List.mem_cons.mp mem with rfl | mem
            · left
              simp only [StyledRun.upperBound]
              omega
            · rcases List.mem_cons.mp mem with rfl | mem
              · exact .inr (Nat.le_refl offset)
              · have low := (below.bounds mem).1
                right
                omega

/-- Parting runs keeps them parted elsewhere. -/
theorem Cut.splitAt {place : Nat} (cut : Cut place runs) (offset : Nat) :
    Cut place (splitAt offset runs) := by
  fun_induction StyledText.splitAt offset runs with
  | case1 => exact cut
  | case2 run rest _ ih =>
      obtain ⟨here, below⟩ := List.forall_mem_cons.mp cut
      exact List.forall_mem_cons.mpr ⟨here, ih below⟩
  | case3 => exact cut
  | case4 run rest notAbove notBelow =>
      obtain ⟨here, below⟩ := List.forall_mem_cons.mp cut
      refine List.forall_mem_cons.mpr ⟨?_, List.forall_mem_cons.mpr ⟨?_, below⟩⟩
      all_goals
        simp only [StyledRun.upperBound, TextRange.ofBounds] at notAbove notBelow here ⊢
        omega

theorem AllAttributes.splitAt {p : TextAttributes → Prop} (all : AllAttributes p runs)
    (offset : Nat) : AllAttributes p (splitAt offset runs) := by
  fun_induction StyledText.splitAt offset runs with
  | case1 => exact all
  | case2 run rest _ ih =>
      obtain ⟨here, below⟩ := List.forall_mem_cons.mp all
      exact List.forall_mem_cons.mpr ⟨here, ih below⟩
  | case3 => exact all
  | case4 run rest =>
      obtain ⟨here, below⟩ := List.forall_mem_cons.mp all
      exact List.forall_mem_cons.mpr ⟨here, List.forall_mem_cons.mpr ⟨here, below⟩⟩

/-! ### Overlaying runs -/

/-- Overlay a run if it lies between two offsets. -/
def overlayWithin (start stop : Nat) (attributes : TextAttributes) (run : StyledRun) : StyledRun :=
  if start ≤ run.range.location ∧ run.upperBound ≤ stop then
    { run with attributes := run.attributes.overlay attributes }
  else run

theorem range_overlayWithin (start stop : Nat) (attributes : TextAttributes) (run : StyledRun) :
    (overlayWithin start stop attributes run).range = run.range := by
  rw [overlayWithin]
  split <;> rfl

/-- Where runs are cut at both ends of a range, overlaying those inside overlays the range. -/
theorem attributesIn_overlay (attributes : TextAttributes) (cutStart : Cut start runs)
    (cutStop : Cut stop runs) (offset : Nat) :
    attributesIn (runs.map (overlayWithin start stop attributes)) offset =
      (attributesIn runs offset).map fun a =>
        if start ≤ offset ∧ offset < stop then a.overlay attributes else a := by
  induction runs with
  | nil => simp
  | cons run rest ih =>
      obtain ⟨here, below⟩ := List.forall_mem_cons.mp cutStart
      obtain ⟨here', below'⟩ := List.forall_mem_cons.mp cutStop
      have range := range_overlayWithin start stop attributes run
      have bound : (overlayWithin start stop attributes run).upperBound = run.upperBound := by
        rw [StyledRun.upperBound, range, StyledRun.upperBound]
      rw [List.map_cons, attributesIn_cons, attributesIn_cons, range, bound, ih below below']
      by_cases inside : run.range.location ≤ offset ∧ offset < run.upperBound
      · rw [if_pos inside, if_pos inside, Option.map_some, overlayWithin]
        by_cases within : start ≤ offset ∧ offset < stop
        · rw [if_pos within, if_pos (by omega)]
        · rw [if_neg within, if_neg (by omega)]
      · rw [if_neg inside, if_neg inside]

theorem AllAttributes.overlay {p : TextAttributes → Prop} {attributes : TextAttributes}
    (all : AllAttributes p runs) (keeps : ∀ a, p a → p (a.overlay attributes)) (start stop : Nat) :
    AllAttributes p (runs.map (overlayWithin start stop attributes)) := by
  intro run mem
  obtain ⟨old, there, rfl⟩ := List.mem_map.mp mem
  rw [overlayWithin]
  split
  · exact keeps _ (all old there)
  · exact all old there

/-! ### Joining runs -/

/-- A first run that takes over the next one. -/
theorem Tiles.join {next : StyledRun} {rest : List StyledRun}
    (tiles : Tiles start (run :: next :: rest) stop) :
    Tiles start
      ({ run with range := ⟨run.range.location, run.range.length + next.range.length⟩ } :: rest)
      stop := by
  cases tiles with
  | cons filled below =>
      cases below with
      | cons filled' below' =>
          refine .cons (Nat.add_pos_left filled _) ?_
          rwa [← Nat.add_assoc]

theorem Tiles.coalesce (tiles : Tiles start runs stop) : Tiles start (coalesce runs) stop := by
  cases runs with
  | nil => exact tiles
  | cons run rest =>
      rw [StyledText.coalesce]
      fun_induction StyledText.coalesce.go run rest generalizing start with
      | case1 run => exact tiles
      | case2 run next rest _ ih => exact ih tiles.join
      | case3 run next rest _ ih =>
          cases tiles with
          | cons filled below => exact .cons filled (ih below)

theorem attributesIn_coalesce (tiles : Tiles start runs stop) (offset : Nat) :
    (attributesIn (coalesce runs) offset).map (·.unsigned) =
      (attributesIn runs offset).map (·.unsigned) := by
  cases runs with
  | nil => rfl
  | cons run rest =>
      rw [StyledText.coalesce]
      fun_induction StyledText.coalesce.go run rest generalizing start with
      | case1 run => rfl
      | case2 run next rest same ih =>
          rw [ih tiles.join]
          cases tiles with
          | @cons start length _ attributes _ filled below =>
              cases below with
              | @cons _ length' _ attributes' _ filled' below' =>
                  have equal := TextAttributes.unsigned_eq_of_beq same
                  dsimp only at equal ⊢
                  rw [attributesIn_run, attributesIn_run, attributesIn_run]
                  by_cases first : start ≤ offset ∧ offset < start + length
                  · rw [if_pos (by omega), if_pos first]
                  · rw [if_neg first]
                    by_cases second : start + length ≤ offset ∧ offset < start + length + length'
                    · rw [if_pos (by omega), if_pos second, Option.map_some, Option.map_some, equal]
                    · rw [if_neg (by omega), if_neg second]
      | case3 run next rest _ ih =>
          cases tiles with
          | cons filled below =>
              rw [attributesIn_cons, attributesIn_cons]
              split
              · rfl
              · exact ih below

theorem AllAttributes.coalesce {p : TextAttributes → Prop} (all : AllAttributes p runs) :
    AllAttributes p (coalesce runs) := by
  cases runs with
  | nil => exact all
  | cons run rest =>
      rw [StyledText.coalesce]
      fun_induction StyledText.coalesce.go run rest with
      | case1 run => exact all
      | case2 run next rest _ ih =>
          obtain ⟨here, below⟩ := List.forall_mem_cons.mp all
          exact ih (List.forall_mem_cons.mpr ⟨here, (List.forall_mem_cons.mp below).2⟩)
      | case3 run next rest _ ih =>
          obtain ⟨here, below⟩ := List.forall_mem_cons.mp all
          exact List.forall_mem_cons.mpr ⟨here, ih below⟩

/-! ### Setting attributes -/

/-- The runs cover the text. -/
def Covered (s : StyledText) : Prop := Tiles 0 s.runs s.length

theorem covered_plain (text : String) : (plain text).Covered := by
  rw [Covered, length, plain]
  dsimp only
  split
  · next empty => exact empty ▸ .nil 0
  · next filled => exact .cons (by omega) (by rw [Nat.zero_add]; exact .nil _)

theorem attributesAt_plain (text : String) (offset : Nat) : (plain text).attributesAt offset =
    if offset < Utf16.length text.toList then some {} else none := by
  rw [attributesAt_eq, plain]
  dsimp only
  split
  · next empty => rw [if_neg (by omega)]; rfl
  · rw [attributesIn_cons, StyledRun.upperBound, attributesIn_nil]
    simp

theorem allAttributes_plain {p : TextAttributes → Prop} (unset : p {}) (text : String) :
    AllAttributes p (plain text).runs := by
  intro run mem
  rw [plain] at mem
  dsimp only at mem
  split at mem
  · cases mem
  · rw [List.mem_singleton.mp mem]
    exact unset

/-- Attributes were laid over a range of a text, up to signs of zero. -/
structure Overlaid (r : TextRange) (attributes : TextAttributes) (s s' : StyledText) : Prop where
  text : s'.text = s.text
  covered : s'.Covered
  /-- The offsets of the range are overlaid, and all others are as they were. -/
  attributesAt : ∀ offset, (s'.attributesAt offset).map (·.unsigned) =
    (s.attributesAt offset).map fun a =>
      (if r.location ≤ offset ∧ offset < r.location + r.length then a.overlay attributes
      else a).unsigned
  /-- No other attributes come up. -/
  keeps : ∀ p : TextAttributes → Prop, (∀ a, p a → p (a.overlay attributes)) →
    AllAttributes p s.runs → AllAttributes p s'.runs

/-- A text that is left as it is has nothing laid over a range outside of it. -/
theorem overlaid_of_outside {s : StyledText} {r : TextRange} (covered : s.Covered)
    (outside : min (r.location + r.length) s.length ≤ min r.location s.length)
    (attributes : TextAttributes) : Overlaid r attributes s s := by
  refine ⟨rfl, covered, fun offset => ?_, fun _ _ all => all⟩
  by_cases inside : offset < s.length
  · have notThere : ¬(r.location ≤ offset ∧ offset < r.location + r.length) := by omega
    simp only [if_neg notThere]
  · rw [attributesAt_eq, covered.attributesIn_eq_none (.inr (Nat.not_lt.mp inside))]
    rfl

/-- A text that is left as it is has attributes that set nothing laid over any range. -/
theorem overlaid_of_isEmpty {s : StyledText} {attributes : TextAttributes} (covered : s.Covered)
    (empty : attributes.isEmpty = true) (r : TextRange) : Overlaid r attributes s s := by
  refine ⟨rfl, covered, fun offset => ?_, fun _ _ all => all⟩
  simp only [TextAttributes.overlay_of_isEmpty empty, ite_self]

/-- Setting attributes overlays exactly the offsets of the range that lie in the text. -/
theorem setAttributes_ok {s : StyledText} {r : TextRange} (covered : s.Covered)
    (word : r.location + r.length < wordLimit) (attributes : TextAttributes) :
    ∃ s', s.setAttributes r attributes = some s' ∧ Overlaid r attributes s s' := by
  rw [setAttributes, TextRange.upperBound_eq word]
  dsimp only [Option.bind_eq_bind, Option.bind_some]
  split
  · next nothing => exact ⟨s, rfl, overlaid_of_outside covered nothing attributes⟩
  · next inText =>
      generalize lower : min r.location s.length = start
      generalize higher : min (r.location + r.length) s.length = stop
      have cutStart := (cut_splitAt covered start).splitAt stop
      have cutStop := cut_splitAt (covered.splitAt start) stop
      have tiles := ((covered.splitAt start).splitAt stop).map
        (range_overlayWithin start stop attributes)
      refine ⟨_, rfl, rfl, tiles.coalesce, fun offset => ?_, fun p keeps all => ?_⟩
      · refine (attributesIn_coalesce tiles offset).trans ?_
        rw [attributesIn_overlay attributes cutStart cutStop, attributesIn_splitAt,
          attributesIn_splitAt, ← attributesAt_eq, Option.map_map]
        by_cases inside : offset < s.length
        · have same : (start ≤ offset ∧ offset < stop) ↔
              (r.location ≤ offset ∧ offset < r.location + r.length) := by omega
          simp only [same]
          rfl
        · rw [attributesAt_eq, covered.attributesIn_eq_none (.inr (Nat.not_lt.mp inside))]
          rfl
      · have parted := (all.splitAt start).splitAt stop
        exact (parted.overlay keeps start stop).coalesce

end StyledText

end CodeEditor

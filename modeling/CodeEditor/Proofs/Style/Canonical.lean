import CodeEditor.Proofs.Style.Styled

/-!
Runs say nothing but the attributes at each offset.

The runs of a text tile it, and behind every setting no two neighbours have equal attributes
(`isChain_coalesce`). Such runs are determined by what they say about each offset
(`sameRuns_of_sameAttributes`), so laws about setting attributes need only be shown offset by offset
(`WellStyled.beq_of_attributesAt`). `Styled.canonical` collects them for all texts that setting and
clearing attributes lead to.

Attributes are equal here when they compare as equal, which is also when neighbours are joined. Two
zeros are equal whatever their signs, and what is not a number equals nothing, so none may be set.
-/

namespace CodeEditor

namespace StyledText

variable {start stop : Nat} {runs runs' : List StyledRun} {r r' : TextRange}
  {attributes attributes' : TextAttributes} {s s' : StyledText}

/-! ### Neighbours -/

/-- The attributes of two runs compare as different. -/
def Differ (run next : StyledRun) : Prop := (run.attributes == next.attributes) = false

/-- Joining a run with what follows leaves its attributes in front. -/
theorem exists_go_eq (run : StyledRun) (rest : List StyledRun) :
    ∃ first behind, coalesce.go run rest = first :: behind ∧ first.attributes = run.attributes := by
  fun_induction coalesce.go run rest with
  | case1 run => exact ⟨run, [], rfl, rfl⟩
  | case2 run next rest _ ih => exact ih
  | case3 run next rest => exact ⟨run, _, rfl, rfl⟩

/-- No two neighbours have equal attributes once they are joined. -/
theorem isChain_coalesce (runs : List StyledRun) : (coalesce runs).IsChain Differ := by
  cases runs with
  | nil => exact .nil
  | cons run rest =>
      rw [coalesce]
      fun_induction coalesce.go run rest with
      | case1 run => exact .singleton run
      | case2 run next rest _ ih => exact ih
      | case3 run next rest unequal ih =>
          obtain ⟨first, behind, whole, same⟩ := exists_go_eq next rest
          rw [whole] at ih ⊢
          refine .cons_cons ?_ ih
          rw [Differ, same]
          exact Bool.eq_false_iff.mpr unequal

theorem isChain_setAttributes (parted : s.runs.IsChain Differ)
    (set : s.setAttributes r attributes = some s') : s'.runs.IsChain Differ := by
  cases upper : r.upperBound with
  | none =>
      rw [setAttributes, upper] at set
      cases set
  | some bound =>
      rw [setAttributes, upper] at set
      dsimp only [Option.bind_eq_bind, Option.bind_some] at set
      split at set
      · cases set
        exact parted
      · cases set
        exact isChain_coalesce _

/-! ### Runs and what they say -/

/-- Runs say the same about each offset, but for the signs of zeros. -/
def SameAttributes (runs runs' : List StyledRun) : Prop :=
  ∀ offset, (attributesIn runs offset).map (·.unsigned) = (attributesIn runs' offset).map
    (·.unsigned)

/-- Two runs cover the same text and have the same attributes, but for the signs of zeros. -/
def SameRun (run run' : StyledRun) : Prop :=
  run.range = run'.range ∧ run.attributes.unsigned = run'.attributes.unsigned

/-- The first run ends where the attributes change, so no first run of others that say the same can
be longer. -/
theorem length_le_of_sameAttributes {length length' : Nat} {rest rest' : List StyledRun}
    (tiles : Tiles start (⟨⟨start, length⟩, attributes⟩ :: rest) stop)
    (tiles' : Tiles start (⟨⟨start, length'⟩, attributes'⟩ :: rest') stop)
    (parted : (⟨⟨start, length⟩, attributes⟩ :: rest).IsChain Differ)
    (numeric : attributes.IsNumeric)
    (same : SameAttributes (⟨⟨start, length⟩, attributes⟩ :: rest)
      (⟨⟨start, length'⟩, attributes'⟩ :: rest')) : length' ≤ length := by
  by_contra longer
  cases tiles with
  | cons filled below =>
      cases tiles' with
      | cons filled' below' =>
          have bound := below'.le
          cases below with
          | nil => omega
          | @cons _ length₂ _ attributes₂ rest filled₂ below =>
              -- The longer run has the attributes of the shorter one and of its neighbour.
              have here := same start
              have behind := same (start + length)
              simp only [attributesIn_run] at here behind
              rw [if_pos (by omega), if_pos (by omega), Option.map_some, Option.map_some,
                Option.some.injEq] at here
              rw [if_neg (by omega), if_pos (by omega), if_pos (by omega), Option.map_some,
                Option.map_some, Option.some.injEq] at behind
              have equal := (TextAttributes.beq_iff_unsigned_eq numeric).mpr
                (here.trans behind.symm)
              have unequal : Differ _ _ := (List.isChain_cons_cons.mp parted).1
              rw [Differ, equal] at unequal
              cases unequal

/-- Runs that tile a text and differ from their neighbours are determined by what they say. -/
theorem sameRuns_of_sameAttributes (tiles : Tiles start runs stop) (tiles' : Tiles start runs' stop)
    (parted : runs.IsChain Differ) (parted' : runs'.IsChain Differ)
    (numeric : AllAttributes (·.IsNumeric) runs) (numeric' : AllAttributes (·.IsNumeric) runs')
    (same : SameAttributes runs runs') : List.Forall₂ SameRun runs runs' := by
  induction tiles generalizing runs' with
  | nil =>
      cases tiles' with
      | nil => exact .nil
      | cons filled below =>
          have bound := below.le
          omega
  | @cons start length stop attributes rest filled below ih =>
      cases tiles' with
      | nil =>
          have bound := below.le
          omega
      | @cons _ length' _ attributes' rest' filled' below' =>
          obtain ⟨here, numbers⟩ := List.forall_mem_cons.mp numeric
          obtain ⟨here', numbers'⟩ := List.forall_mem_cons.mp numeric'
          obtain rfl : length = length' := Nat.le_antisymm
            (length_le_of_sameAttributes (.cons filled' below') (.cons filled below) parted' here'
              fun offset => (same offset).symm)
            (length_le_of_sameAttributes (.cons filled below)
              (.cons filled' below') parted here same)
          have first := same start
          simp only [attributesIn_run] at first
          rw [if_pos (by omega), if_pos (by omega), Option.map_some, Option.map_some,
            Option.some.injEq] at first
          refine .cons ⟨rfl, first⟩
            (ih below' parted.of_cons parted'.of_cons numbers numbers' fun offset => ?_)
          by_cases inside : offset < start + length
          · rw [below.attributesIn_eq_none (.inl inside), below'.attributesIn_eq_none (.inl inside)]
          · have there := same offset
            simp only [attributesIn_run] at there
            rwa [if_neg (by omega), if_neg (by omega)] at there

theorem beq_of_sameRuns (numeric : AllAttributes (·.IsNumeric) runs)
    (same : List.Forall₂ SameRun runs runs') : (runs == runs') = true := by
  induction same with
  | nil => rfl
  | @cons run run' rest rest' first _ ih =>
      obtain ⟨here, numbers⟩ := List.forall_mem_cons.mp numeric
      obtain ⟨range, attributes⟩ := run
      obtain ⟨range', attributes'⟩ := run'
      obtain ⟨rfl, equal⟩ := first
      have equal := (TextAttributes.beq_iff_unsigned_eq here).mpr equal
      rw [List.cons_beq_cons, ih numbers]
      simpa [BEq.beq, instBEqStyledRun.beq] using equal

/-! ### Texts -/

/-- The texts that setting and clearing attributes lead to. -/
inductive Styled : StyledText → Prop
  | plain (text : String) : Styled (plain text)
  | clear {s : StyledText} : Styled s → Styled s.clear
  | set {s s' : StyledText} {r : TextRange} {attributes : TextAttributes} :
      Styled s → r.location + r.length < wordLimit → attributes.IsNumeric →
      s.setAttributes r attributes = some s' → Styled s'

/-- Runs that cover a text, as long as they can be, and without anything that is not a number. -/
structure WellStyled (s : StyledText) : Prop where
  covered : s.Covered
  parted : s.runs.IsChain Differ
  numeric : AllAttributes (·.IsNumeric) s.runs

theorem wellStyled_plain (text : String) : (plain text).WellStyled := by
  refine ⟨covered_plain text, ?_, allAttributes_plain TextAttributes.isNumeric_unset text⟩
  rw [plain]
  dsimp only
  split
  · exact .nil
  · exact .singleton _

namespace WellStyled

/-- What one setting preserves. -/
theorem set (well : s.WellStyled) (word : r.location + r.length < wordLimit)
    (numeric : attributes.IsNumeric) :
    ∃ s', s.setAttributes r attributes = some s' ∧ Overlaid r attributes s s' ∧ s'.WellStyled := by
  obtain ⟨s', set, overlaid⟩ := setAttributes_ok well.covered word attributes
  refine ⟨s', set, overlaid, overlaid.covered, isChain_setAttributes well.parted set, ?_⟩
  exact overlaid.keeps _ (fun a here => here.overlay numeric) well.numeric

theorem attributesAt_eq_none_iff (well : s.WellStyled) {offset : Nat} :
    s.attributesAt offset = none ↔ s.length ≤ offset := by
  rw [attributesAt_eq]
  constructor
  · intro nothing
    by_contra inside
    obtain ⟨attributes, found⟩ :=
      well.covered.exists_attributesIn (Nat.zero_le offset) (Nat.not_le.mp inside)
    rw [found] at nothing
    cases nothing
  · intro outside
    exact well.covered.attributesIn_eq_none (.inr outside)

/-- What is said about an offset compares as equal when it is the same but for the signs of
zeros. -/
theorem attributesAt_beq (well : s.WellStyled) {offset : Nat} {here : Option TextAttributes}
    (same : (s.attributesAt offset).map (·.unsigned) = here.map (·.unsigned)) :
    (s.attributesAt offset == here) = true :=
  TextAttributes.beq_of_map_eq
    (fun _ _ numeric => (TextAttributes.beq_iff_unsigned_eq numeric).mpr)
    (fun _ found => well.numeric.at found) same

/-- Texts with the same attributes at each offset are equal. -/
theorem beq_of_attributesAt (well : s.WellStyled) (well' : s'.WellStyled) (text : s.text = s'.text)
    (same : ∀ offset,
      (s.attributesAt offset).map (·.unsigned) = (s'.attributesAt offset).map (·.unsigned)) :
    (s == s') = true := by
  have covered := well'.covered
  rw [Covered, length, ← text] at covered
  have runs := beq_of_sameRuns well.numeric
    (sameRuns_of_sameAttributes well.covered covered well.parted well'.parted well.numeric
      well'.numeric same)
  obtain ⟨_, _⟩ := s
  obtain ⟨_, _⟩ := s'
  simpa [BEq.beq, instBEqStyledText.beq] using ⟨text, runs⟩

end WellStyled

/-- What a whole run of settings preserves. -/
theorem Styled.wellStyled (styled : Styled s) : s.WellStyled := by
  induction styled with
  | plain text => exact wellStyled_plain text
  | clear _ _ => exact wellStyled_plain _
  | set _ word numeric set ih =>
      obtain ⟨s', set', -, well⟩ := ih.set word numeric
      rw [set] at set'
      rwa [Option.some.inj set']

/-! ### Laws of setting -/

/-- What a setting lays over an offset, but for the signs of zeros, depends on nothing more of what
was there before. -/
theorem Overlaid.unsigned_attributesAt (overlaid : Overlaid r attributes s s') (offset : Nat) :
    (s'.attributesAt offset).map (·.unsigned) =
      ((s.attributesAt offset).map (·.unsigned)).map fun a =>
        if r.location ≤ offset ∧ offset < r.location + r.length then a.overlay attributes.unsigned
        else a := by
  rw [overlaid.attributesAt, Option.map_map]
  congr 1
  funext a
  dsimp only [Function.comp]
  split
  · exact TextAttributes.unsigned_overlay a attributes
  · rfl

/-- Setting the same attributes on the same range again changes nothing. -/
theorem WellStyled.set_again {s₁ s₂ : StyledText} (well : s₁.WellStyled) (well' : s₂.WellStyled)
    (first : Overlaid r attributes s s₁) (again : Overlaid r attributes s₁ s₂) :
    (s₂ == s₁) = true := by
  refine well'.beq_of_attributesAt well again.text fun offset => ?_
  rw [again.unsigned_attributesAt, first.unsigned_attributesAt]
  cases (s.attributesAt offset).map (·.unsigned) with
  | none => rfl
  | some a =>
      refine congrArg some ?_
      dsimp only
      split
      · exact TextAttributes.overlay_overlay a attributes.unsigned
      · rfl

/-- Settings on ranges that share no offset lead to the same text in either order. -/
theorem WellStyled.set_comm {s₁ s₂ t₁ t₂ : StyledText} (well : s₂.WellStyled)
    (well' : t₂.WellStyled)
    (apart : ∀ offset, ¬((r.location ≤ offset ∧ offset < r.location + r.length) ∧
      r'.location ≤ offset ∧ offset < r'.location + r'.length))
    (one : Overlaid r attributes s s₁) (other : Overlaid r' attributes' s₁ s₂)
    (other' : Overlaid r' attributes' s t₁) (one' : Overlaid r attributes t₁ t₂) :
    (s₂ == t₂) = true := by
  have text : s₂.text = t₂.text := by rw [other.text, one.text, one'.text, other'.text]
  refine well.beq_of_attributesAt well' text fun offset => ?_
  rw [other.unsigned_attributesAt, one.unsigned_attributesAt, one'.unsigned_attributesAt,
    other'.unsigned_attributesAt]
  cases (s.attributesAt offset).map (·.unsigned) with
  | none => rfl
  | some a =>
      refine congrArg some ?_
      dsimp only
      by_cases here : r.location ≤ offset ∧ offset < r.location + r.length
      · have notThere := fun there => apart offset ⟨here, there⟩
        rw [if_pos here, if_pos here, if_neg notThere, if_neg notThere]
      · rw [if_neg here, if_neg here]

/-- The runs of a text encode a map from offsets to attributes, each map in one way, and setting
attributes is an overlay in the map. -/
structure Canonical (s : StyledText) : Prop where
  /-- The runs are not empty and lie one behind the other, from the start of the text to its end. -/
  covered : Tiles 0 s.runs s.length
  parted : s.runs.IsChain fun run next => (run.attributes == next.attributes) = false
  attributesAt_eq_none_iff : ∀ offset, s.attributesAt offset = none ↔ s.length ≤ offset
  /-- Attributes are laid over the offsets of a range, and all others are as they were. -/
  set : ∀ (r : TextRange) (attributes : TextAttributes), r.location + r.length < wordLimit →
    attributes.IsNumeric → ∃ s', s.setAttributes r attributes = some s' ∧ s'.text = s.text ∧
      ∀ offset, (s'.attributesAt offset == (s.attributesAt offset).map fun a =>
        if r.location ≤ offset ∧ offset < r.location + r.length then a.overlay attributes
        else a) = true
  unique : ∀ s', Styled s' → s'.text = s.text →
    (∀ offset, (s.attributesAt offset == s'.attributesAt offset) = true) →
      (s.runs == s'.runs) = true
  set_again : ∀ (r : TextRange) (attributes : TextAttributes), r.location + r.length < wordLimit →
    attributes.IsNumeric → ∃ s₁ s₂, s.setAttributes r attributes = some s₁ ∧
      s₁.setAttributes r attributes = some s₂ ∧ (s₂ == s₁) = true
  set_comm : ∀ (r r' : TextRange) (attributes attributes' : TextAttributes),
    r.location + r.length < wordLimit → r'.location + r'.length < wordLimit →
    attributes.IsNumeric → attributes'.IsNumeric →
    (∀ offset, ¬((r.location ≤ offset ∧ offset < r.location + r.length) ∧
      r'.location ≤ offset ∧ offset < r'.location + r'.length)) →
    ∃ s₁ s₂ t₁ t₂, s.setAttributes r attributes = some s₁ ∧
      s₁.setAttributes r' attributes' = some s₂ ∧ s.setAttributes r' attributes' = some t₁ ∧
      t₁.setAttributes r attributes = some t₂ ∧ (s₂ == t₂) = true

/-- Whatever is set, on whatever ranges and in whatever order, the runs stay canonical. -/
theorem Styled.canonical (styled : Styled s) : s.Canonical := by
  have well := styled.wellStyled
  constructor
  case covered => exact well.covered
  case parted => exact well.parted
  case attributesAt_eq_none_iff => exact fun offset => well.attributesAt_eq_none_iff
  case set =>
    intro r attributes word numeric
    obtain ⟨s', set, overlaid, well'⟩ := well.set word numeric
    refine ⟨s', set, overlaid.text, fun offset => well'.attributesAt_beq ?_⟩
    rw [overlaid.attributesAt, Option.map_map]
    rfl
  case unique =>
    intro s' styled' text same
    have well' := styled'.wellStyled
    have covered := well'.covered
    rw [Covered, length, text] at covered
    refine beq_of_sameRuns well.numeric (sameRuns_of_sameAttributes well.covered covered well.parted
      well'.parted well.numeric well'.numeric fun offset => ?_)
    exact TextAttributes.map_eq_of_beq (fun _ _ => TextAttributes.unsigned_eq_of_beq) (same offset)
  case set_again =>
    intro r attributes word numeric
    obtain ⟨s₁, set₁, first, well₁⟩ := well.set word numeric
    obtain ⟨s₂, set₂, again, well₂⟩ := well₁.set word numeric
    exact ⟨s₁, s₂, set₁, set₂, well₁.set_again well₂ first again⟩
  case set_comm =>
    intro r r' attributes attributes' word word' numeric numeric' apart
    obtain ⟨s₁, set₁, one, well₁⟩ := well.set word numeric
    obtain ⟨s₂, set₂, other, well₂⟩ := well₁.set word' numeric'
    obtain ⟨t₁, set₁', other', well₁'⟩ := well.set word' numeric'
    obtain ⟨t₂, set₂', one', well₂'⟩ := well₁'.set word numeric
    exact ⟨s₁, s₂, t₁, t₂, set₁, set₂, set₁', set₂',
      well₂.set_comm well₂' apart one other other' one'⟩

/-- A zero of the other sign is set behind one, on a range that goes on behind the text. -/
theorem canonical_of_zero_signs :
    ∃ s s' : StyledText, Styled s ∧ s.setAttributes ⟨2, 9⟩ { font := some ⟨"mono", -0⟩ } = some s' ∧
      s.runs.map (·.range) = [⟨0, 1⟩, ⟨1, 1⟩, ⟨2, 2⟩] ∧ s'.runs.map (·.range) = [⟨0, 1⟩, ⟨1, 3⟩] ∧
      s'.Canonical := by
  have positive : TextAttributes.IsNumeric { font := some ⟨"mono", 0⟩ } :=
    ⟨fun _ set => by cases set; exact (by decide : (0 : Float32).isNaN = false), nofun⟩
  have negative : TextAttributes.IsNumeric { font := some ⟨"mono", -0⟩ } :=
    ⟨fun _ set => by cases set; exact (by decide : (-0 : Float32).isNaN = false), nofun⟩
  have first : Styled _ := .set (.plain "a😀b") (r := ⟨1, 1⟩) (by decide) positive rfl
  have second : Styled _ := .set first (r := ⟨2, 9⟩) (by decide) negative rfl
  exact ⟨_, _, first, rfl, rfl, rfl, second.canonical⟩

end StyledText

end CodeEditor

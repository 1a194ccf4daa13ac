import CodeEditor.Pattern.Match

/-!
Where a pattern finds pieces.

Trying a pattern only goes forward and never leaves the text (`run_forward`), also in what it looks
ahead at. So a piece that is found from a place on lies between this place and the end of the text,
and so do the pieces remembered on the way (`search_staysInside`): the small engine keeps what the
tokenizer relies on in any engine.
-/

namespace CodeEditor

namespace Pattern

variable {text : Array Char} {position : Nat}

/-- Trying has not left the text. -/
structure Progress.Within (text : Array Char) (p : Progress) : Prop where
  position : p.position ≤ text.size
  groups : ∀ entry ∈ p.groups, entry.2.Within text.size

/-- A step succeeds by handing progress to what follows, and this progress lies not before the one
it was given. -/
def Forward (text : Array Char) (s : Step) : Prop :=
  ∀ ⦃p : Progress⦄ ⦃rest : Trial⦄ ⦃q : Progress⦄, p.Within text → s p rest = some q →
    ∃ p' : Progress, p'.Within text ∧ p.position ≤ p'.position ∧ rest p' = some q

theorem times_forward {body : Step} (forward : Forward text body) (n : Nat) :
    Forward text (times body n) := by
  induction n with
  | zero => exact fun p rest q within found => ⟨p, within, Nat.le_refl _, found⟩
  | succ n ih =>
      intro p rest q within found
      obtain ⟨p₁, within₁, le₁, found₁⟩ := forward within found
      obtain ⟨p₂, within₂, le₂, found₂⟩ := ih within₁ found₁
      exact ⟨p₂, within₂, Nat.le_trans le₁ le₂, found₂⟩

/-- What one of two trials finds. -/
theorem eq_some_of_orElse {first : Option Progress} {second : Unit → Option Progress} {q : Progress}
    (found : first.orElse second = some q) : first = some q ∨ second () = some q := by
  cases first with
  | none => exact .inr found
  | some _ => exact .inl found

theorem upTo_forward {body : Step} (forward : Forward text body) (greedy : Bool) (n : Nat) :
    Forward text (upTo body greedy n) := by
  induction n with
  | zero => exact fun p rest q within found => ⟨p, within, Nat.le_refl _, found⟩
  | succ n ih =>
      intro p rest q within found
      have more : (body p fun q =>
          if q.position = p.position then rest q else upTo body greedy n q rest) = some q →
          ∃ p' : Progress, p'.Within text ∧ p.position ≤ p'.position ∧ rest p' = some q := by
        intro found
        obtain ⟨p₁, within₁, le₁, found₁⟩ := forward within found
        split at found₁
        · exact ⟨p₁, within₁, le₁, found₁⟩
        · obtain ⟨p₂, within₂, le₂, found₂⟩ := ih within₁ found₁
          exact ⟨p₂, within₂, Nat.le_trans le₁ le₂, found₂⟩
      rw [upTo] at found
      dsimp only at found
      split at found
      · rcases eq_some_of_orElse found with found | found
        · exact more found
        · exact ⟨p, within, Nat.le_refl _, found⟩
      · rcases eq_some_of_orElse found with found | found
        · exact ⟨p, within, Nat.le_refl _, found⟩
        · exact more found

/-- Trying a pattern goes forward in the text. -/
theorem run_forward (text : Array Char) (pattern : Pattern) : Forward text (run text pattern) := by
  induction pattern with
  | empty => exact fun p rest q within found => ⟨p, within, Nat.le_refl _, found⟩
  | char set =>
      intro p rest q within found
      rw [run] at found
      split at found
      · next c here =>
          split at found
          · obtain ⟨inside, -⟩ := Array.getElem?_eq_some_iff.mp here
            exact ⟨{ p with position := p.position + 1 }, ⟨inside, within.groups⟩,
              Nat.le_succ _, found⟩
          · cases found
      · cases found
  | anchor a =>
      intro p rest q within found
      rw [run] at found
      split at found
      · exact ⟨p, within, Nat.le_refl _, found⟩
      · cases found
  | seq first second ih ih' =>
      intro p rest q within found
      obtain ⟨p₁, within₁, le₁, found₁⟩ := ih within found
      obtain ⟨p₂, within₂, le₂, found₂⟩ := ih' within₁ found₁
      exact ⟨p₂, within₂, Nat.le_trans le₁ le₂, found₂⟩
  | either first second ih ih' =>
      intro p rest q within found
      rcases eq_some_of_orElse found with found | found
      · exact ih within found
      · exact ih' within found
  | repeated body least most greedy ih =>
      intro p rest q within found
      obtain ⟨p₁, within₁, le₁, found₁⟩ := times_forward ih least within found
      obtain ⟨p₂, within₂, le₂, found₂⟩ := upTo_forward ih greedy _ within₁ found₁
      exact ⟨p₂, within₂, Nat.le_trans le₁ le₂, found₂⟩
  | group number body ih =>
      intro p rest q within found
      obtain ⟨p₁, within₁, le₁, found₁⟩ := ih within found
      have here : Span.Within text.size ⟨p.position, p₁.position⟩ := ⟨le₁, within₁.position⟩
      exact ⟨⟨p₁.position, (number, ⟨p.position, p₁.position⟩) :: p₁.groups⟩,
        ⟨within₁.position, List.forall_mem_cons.mpr ⟨here, within₁.groups⟩⟩, le₁, found₁⟩
  | ahead negated body ih =>
      intro p rest q within found
      unfold run at found
      split at found
      · next q' seen =>
          -- What was looked ahead at is remembered, but the position stays.
          obtain ⟨p₁, within₁, -, same⟩ := ih within seen
          cases same
          exact ⟨{ p with groups := q'.groups }, ⟨within.position, within₁.groups⟩, Nat.le_refl _,
            found⟩
      · exact ⟨p, within, Nat.le_refl _, found⟩
      · cases found

/-- A piece found at a place starts there. -/
theorem matchAt_within {pattern : Pattern} {m : Match} (inside : position ≤ text.size)
    (found : matchAt pattern text position = some m) :
    m.span.start = position ∧ m.Within text.size := by
  obtain ⟨p, tried, rfl⟩ := Option.map_eq_some_iff.mp found
  have start : Progress.Within text ⟨position, []⟩ := ⟨inside, fun _ mem => by cases mem⟩
  obtain ⟨p', within, le, same⟩ := run_forward text pattern start tried
  cases same
  exact ⟨rfl, ⟨le, within.position⟩, within.groups⟩

/-- A piece found from a place on is one found at a place that is not before. -/
theorem exists_matchAt_of_search {pattern : Pattern} {m : Match}
    (found : search pattern text position = some m) :
    ∃ place, position ≤ place ∧ place ≤ text.size ∧ matchAt pattern text place = some m := by
  obtain ⟨place, mem, here⟩ := List.exists_of_findSome?_eq_some found
  have bounds := List.mem_range'_1.mp mem
  exact ⟨place, bounds.1, by omega, here⟩

/-- A piece found from a place on lies between the place and the end of the text. -/
theorem search_staysInside (pattern : Pattern) : Searcher.StaysInside pattern.search := by
  intro text position m found
  obtain ⟨place, le, inside, here⟩ := exists_matchAt_of_search found
  obtain ⟨start, within⟩ := matchAt_within inside here
  exact ⟨start ▸ le, within⟩

/-- So do the searches of all patterns of a dialect. -/
theorem engine_staysInside (d : Dialect) : (engine d).StaysInside := by
  intro written s read
  rw [engine] at read
  split at read
  · cases read
    exact search_staysInside _
  · cases read

/-- A pattern for one character is found where there is one. -/
theorem search_char_consumes (set : CharSet) : Searcher.Consumes (Pattern.char set).search := by
  intro text position m found
  obtain ⟨place, -, -, here⟩ := exists_matchAt_of_search found
  rw [matchAt, run] at here
  obtain ⟨q, inside, rfl⟩ := Option.map_eq_some_iff.mp here
  split at inside
  · split at inside
    · cases inside
      exact Nat.lt_succ_self place
    · cases inside
  · cases inside

end Pattern

end CodeEditor

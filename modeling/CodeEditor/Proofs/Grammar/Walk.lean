import CodeEditor.Grammar.Tokenizer
import CodeEditor.Proofs.Failure

/-!
What a step of the walk of a line does.

A step looks for the `Event` that comes first and applies it: it finds a rule or closes the
innermost region (`step_eq`). `Applies` is what is known of the event, from which all invariants of
the walk are drawn: its rule is one of the grammar, and its match lies in the rest of the line,
where the engine of the patterns `StaysInside`.
-/

namespace CodeEditor.Grammar

/-- What a step of the walk applies. -/
inductive Event where
  | rule (found : Found)
  /-- The innermost region is closed. -/
  | closing (frame : Frame) (region : Region) (m : Match)

/-- The match by which an event comes about. -/
def Event.match : Event → Match
  | .rule found => found.match
  | .closing _ _ m => m

/-- The walk behind an event, and whether there may be more. -/
def Event.apply (line : Array Char) (w : Walk) : Event → Walk × Bool
  | .rule found => Compiled.apply line w found
  | .closing f r m => (Compiled.close w f w.frames.tail r m, true)

namespace Compiled

variable {g : Compiled} {line : Array Char} {w : Walk} {position : Nat}

/-- The event that comes first, if there is one. -/
def event? (g : Compiled) (line : Array Char) (w : Walk) : Except Error (Option Event) :=
  match w.frames with
  | [] => return (← g.findFirst line w.position g.root).map .rule
  | f :: _ => do
      let r ← g.frameRegion f
      let found ← g.findFirst line w.position r.candidates
      match r.closing line w.position, found with
      | some m, some found =>
          if m.span.start ≤ found.match.span.start then return some (.closing f r m)
          else return some (.rule found)
      | some m, none => return some (.closing f r m)
      | none, found => return found.map .rule

/-- A step applies the event that comes first. -/
theorem step_eq (g : Compiled) (line : Array Char) (w : Walk) :
    g.step line w = (g.event? line w).map fun
      | none => (w, false)
      | some e => e.apply line w := by
  rw [step, event?]
  cases frames : w.frames with
  | nil =>
      dsimp only
      cases g.findFirst line w.position g.root with
      | error e => rfl
      | ok found => cases found <;> rfl
  | cons f frames' =>
      have tail : w.frames.tail = frames' := by rw [frames, List.tail_cons]
      dsimp only
      cases g.frameRegion f with
      | error e => rfl
      | ok r =>
          dsimp only [bind, Except.bind]
          cases g.findFirst line w.position r.candidates with
          | error e => rfl
          | ok found =>
              dsimp only
              cases r.closing line w.position with
              | none => cases found <;> rfl
              | some m =>
                  cases found with
                  | none => exact tail ▸ rfl
                  | some found =>
                      dsimp only
                      split
                      · exact tail ▸ rfl
                      · rfl

/-- An event that may come first: one of the rules of the grammar is found in the rest of the line,
or what closes the innermost region. -/
inductive Applies (g : Compiled) (line : Array Char) (w : Walk) : Event → Prop
  | phrase {id : RuleId} {p : Phrase} {m : Match} :
      g.rule? id = some (.phrase p) → p.pattern line w.position = some m →
      Applies g line w (.rule (.phrase p m))
  | opening {id : RuleId} {r : Region} {m : Match} :
      g.region? id = some r → r.opening line w.position = some m →
      Applies g line w (.rule (.region id r m))
  | closing {f : Frame} {frames : List Frame} {r : Region} {m : Match} :
      w.frames = f :: frames → g.region? f.id = some r →
      r.closing line w.position = some m → Applies g line w (.closing f r m)

/-- The earlier of two finds is one of them. -/
theorem eq_of_earlier_eq_some {a b : Option Found} {found : Found}
    (first : earlier a b = some found) : a = some found ∨ b = some found := by
  cases a with
  | none => exact .inr first
  | some a =>
      cases b with
      | none => exact .inl first
      | some b =>
          rw [earlier] at first
          split at first
          · exact .inr first
          · exact .inl first

/-- What is found first is found by one of the rules, unless it was known before. -/
theorem exists_find_of_foldlM {ids : List RuleId} {best : Option Found} {found : Found}
    (ok : ids.foldlM (fun best id => return earlier best (← g.find line position id)) best =
      .ok (some found)) :
    best = some found ∨ ∃ id ∈ ids, g.find line position id = .ok (some found) := by
  induction ids generalizing best with
  | nil =>
      cases ok
      exact .inl rfl
  | cons id ids ih =>
      rw [List.foldlM_cons] at ok
      obtain ⟨best', both, rest⟩ := bind_eq_ok_iff.mp ok
      obtain ⟨next, here, same⟩ := bind_eq_ok_iff.mp both
      cases same
      rcases ih rest with known | ⟨id', mem, there⟩
      · rcases eq_of_earlier_eq_some known with rfl | rfl
        · exact .inl rfl
        · exact .inr ⟨id, List.mem_cons_self, here⟩
      · exact .inr ⟨id', List.mem_cons_of_mem id mem, there⟩

theorem region?_of_rule? {id : RuleId} {r : Region} (there : g.rule? id = some (.region r)) :
    g.region? id = some r := by
  rw [region?, there]

/-- What is found is one of the rules of the grammar. -/
theorem applies_of_find {id : RuleId} {found : Found}
    (ok : g.find line w.position id = .ok (some found)) : g.Applies line w (.rule found) := by
  rw [find] at ok
  split at ok
  · cases ok
  · next p there =>
      obtain ⟨m, here, rfl⟩ := Option.map_eq_some_iff.mp (Except.ok.inj ok)
      exact .phrase there here
  · next r there =>
      obtain ⟨m, here, rfl⟩ := Option.map_eq_some_iff.mp (Except.ok.inj ok)
      exact .opening (region?_of_rule? there) here
  · cases ok

theorem applies_of_findFirst {ids : List RuleId} {found : Found}
    (ok : g.findFirst line w.position ids = .ok (some found)) :
    g.Applies line w (.rule found) := by
  rcases exists_find_of_foldlM ok with nothing | ⟨id, -, here⟩
  · cases nothing
  · exact applies_of_find here

theorem frameRegion_eq_ok_iff {f : Frame} {r : Region} :
    g.frameRegion f = .ok r ↔ g.region? f.id = some r := by
  rw [frameRegion]
  cases g.region? f.id with
  | none => simp
  | some r' => simp

/-- The event that comes first is one that may. -/
theorem applies_of_event? {e : Event} (ok : g.event? line w = .ok (some e)) :
    g.Applies line w e := by
  rw [event?] at ok
  split at ok
  · obtain ⟨found, here, same⟩ := bind_eq_ok_iff.mp ok
    obtain ⟨found, rfl, rfl⟩ := Option.map_eq_some_iff.mp (Except.ok.inj same)
    exact applies_of_findFirst here
  · next f frames split =>
      obtain ⟨r, region, rest⟩ := bind_eq_ok_iff.mp ok
      obtain ⟨found, here, same⟩ := bind_eq_ok_iff.mp rest
      have region := frameRegion_eq_ok_iff.mp region
      split at same
      · next m found closes =>
          split at same
          · cases same
            exact .closing split region closes
          · cases same
            exact applies_of_findFirst here
      · next m closes =>
          cases same
          exact .closing split region closes
      · obtain ⟨found, rfl, rfl⟩ := Option.map_eq_some_iff.mp (Except.ok.inj same)
        exact applies_of_findFirst here

/-- What the engine of the patterns is relied on for: all searches of the grammar stay inside the
line. -/
structure StaysInside (g : Compiled) : Prop where
  phrase : ∀ id p, g.rule? id = some (.phrase p) → p.pattern.StaysInside
  opening : ∀ id r, g.region? id = some r → r.opening.StaysInside
  closing : ∀ id r, g.region? id = some r → r.closing.StaysInside

/-- The match of an event lies in the rest of the line. -/
theorem Applies.within {e : Event} (applies : g.Applies line w e) (inside : g.StaysInside) :
    w.position ≤ e.match.span.start ∧ e.match.Within line.size := by
  cases applies with
  | phrase there found => exact inside.phrase _ _ there found
  | opening there found => exact inside.opening _ _ there found
  | closing _ there found => exact inside.closing _ _ there found

end Compiled

end CodeEditor.Grammar

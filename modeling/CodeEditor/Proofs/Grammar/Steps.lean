import CodeEditor.Proofs.Grammar.Accepted
import CodeEditor.Proofs.Grammar.Outline
import CodeEditor.Proofs.Pattern.Match
import Mathlib

/-!
How many steps the walk of a line takes.

In a grammar that is `Consuming` no region opens without taking a character. A step then moves on,
closes a region or ends the walk, so the walk of a line has an end, and it takes no more steps than
there are open regions and twice the characters (`exists_finishes`). The limit on the steps, though,
is told from the line alone: a line in many regions of the lines before it may be given up on while
it closes them. `tokenize_error_iff` says that a text is refused for this reason and no other.
-/

namespace CodeEditor

namespace Grammar

/-- How much there is to do before the end of a line: every open region can be closed, and at every
character one can be opened and closed again. -/
def Walk.ahead (chars : Array Char) (w : Walk) : Nat :=
  w.frames.length + 2 * (chars.size - w.position)

namespace Compiled

variable {engine : PatternEngine} {g : Compiled} {d : Definition} {chars : Array Char} {w w' : Walk}
    {e : Event} {n : Nat}
  {line : String} {lines : List String} {stack stack' : RuleStack}

/-- Every region opens by taking a character. -/
def Consuming (g : Compiled) : Prop := ∀ id r, g.region? id = some r → r.opening.Consumes

/-- All candidates are rules of the grammar. -/
structure Closed (g : Compiled) : Prop where
  root : ∀ id ∈ g.root, ∃ rule, g.rule? id = some rule
  candidates : ∀ id r, g.region? id = some r → ∀ id' ∈ r.candidates, ∃ rule, g.rule? id' = some rule

/-- The regions on a stack are regions of the grammar. -/
def Knows (g : Compiled) (stack : RuleStack) : Prop := ∀ id ∈ stack.frames, ∃ r,
    g.region? id = some r

theorem closed_of_compile (compiled : d.compile engine = .ok g) : g.Closed := by
  obtain ⟨sources, tops, ready⟩ := ready_of_compile compiled
  have there : ∀ id < g.rules.size, ∃ rule, g.rule? id = some rule :=
    fun id inside => ⟨_, Array.getElem?_eq_getElem inside⟩
  constructor
  case root => exact fun id mem => there id (ready.bounded.1 id mem)
  case candidates =>
    intro id r region id' mem
    refine there id' (ready.bounded.2 id id' ?_)
    rw [mentions, region?_eq_some_iff.mp region]
    exact List.mem_append_right _ mem

/-! ### A step -/

theorem find_ok {id : RuleId} (chars : Array Char) (position : Nat)
    (there : ∃ rule, g.rule? id = some rule) : ∃ found, g.find chars position id = .ok found := by
  obtain ⟨rule, there⟩ := there
  rw [find, there]
  cases rule with
  | phrase p => exact ⟨_, rfl⟩
  | region r => exact ⟨_, rfl⟩
  | reference | group => exact ⟨none, rfl⟩

theorem findFirst_ok {ids : List RuleId} (chars : Array Char) (position : Nat)
    (there : ∀ id ∈ ids, ∃ rule, g.rule? id = some rule) :
    ∃ found, g.findFirst chars position ids = .ok found := by
  rw [findFirst]
  generalize (none : Option Found) = best
  induction ids generalizing best with
  | nil => exact ⟨best, rfl⟩
  | cons id ids ih =>
      obtain ⟨here, there⟩ := List.forall_mem_cons.mp there
      obtain ⟨found, ok⟩ := find_ok chars position here
      obtain ⟨first, rest⟩ := ih there (earlier best found)
      refine ⟨first, ?_⟩
      rw [List.foldlM_cons, ok]
      exact rest

/-- It is always known what comes first. -/
theorem Closed.event_ok (closed : g.Closed) (chars : Array Char) (knows : g.Knows w.stack) :
    ∃ e, g.event? chars w = .ok e := by
  rw [event?]
  cases frames : w.frames with
  | nil =>
      obtain ⟨found, ok⟩ := findFirst_ok chars w.position closed.root
      dsimp only
      rw [ok]
      exact ⟨_, rfl⟩
  | cons f frames' =>
      rw [Knows, Walk.stack, frames] at knows
      obtain ⟨r, region⟩ := knows f.id List.mem_cons_self
      obtain ⟨found, ok⟩ := findFirst_ok chars w.position (closed.candidates f.id r region)
      dsimp only
      rw [frameRegion_eq_ok_iff.mpr region]
      dsimp only [bind, Except.bind]
      rw [ok]
      dsimp only
      split
      · split
        · exact ⟨_, rfl⟩
        · exact ⟨_, rfl⟩
      · exact ⟨_, rfl⟩
      · exact ⟨_, rfl⟩

/-- An event opens a region of the grammar or none. -/
theorem Applies.knows (applies : g.Applies chars w e) (knows : g.Knows w.stack) :
    g.Knows (e.apply chars w).1.stack := by
  cases applies with
  | phrase =>
      rw [Event.apply, Compiled.apply]
      split
      · exact knows
      · split
        · exact knows
        · exact knows
  | opening region => exact List.forall_mem_cons.mpr ⟨⟨_, region⟩, knows⟩
  | @closing f frames r m split =>
      have outer : (Event.apply chars w (.closing f r m)).1.frames = frames := by
        rw [Event.apply, close, split]
        rfl
      rw [Knows, Walk.stack, split] at knows
      rw [Knows, Walk.stack, outer]
      exact (List.forall_mem_cons.mp knows).2

/-- Every step but the last leaves less to do. -/
theorem Applies.ahead_lt (inside : g.StaysInside) (consuming : g.Consuming)
    (applies : g.Applies chars w e) (more : (e.apply chars w).2 = true) :
    (e.apply chars w).1.ahead chars < w.ahead chars := by
  obtain ⟨from_le, within⟩ := applies.within inside
  have starts := within.span.start_le
  have stops := within.span.stop_le
  cases applies with
  | @phrase id p m =>
      dsimp only [Event.match, Found.match] at *
      simp only [Event.apply, Compiled.apply, Walk.mark] at more ⊢
      by_cases stays : m.span.stop = w.position
      · by_cases inside : w.position < chars.size
        · simp only [stays, ne_eq, not_true_eq_false, if_false, inside, if_true, Walk.ahead]
          omega
        · simp [stays, inside] at more
      · simp only [ne_eq, stays, not_false_eq_true, if_true, Walk.ahead]
        omega
  | @opening id r m region found =>
      have takes := consuming id r region chars w.position m found
      dsimp only [Event.match, Found.match] at *
      simp only [Event.apply, Compiled.apply, Walk.mark, Walk.ahead, List.length_cons]
      omega
  | @closing f frames r m split =>
      dsimp only [Event.match] at *
      simp only [Event.apply, close, Walk.mark, Walk.ahead, split, List.tail_cons, List.length_cons]
      omega

/-! ### A whole line -/

/-- The walk comes to its end in a number of steps. -/
inductive Finishes (g : Compiled) (chars : Array Char) : Nat → Walk → Walk → Prop
  | last {w w' : Walk} : g.step chars w = .ok (w', false) → Finishes g chars 1 w w'
  | more {n : Nat} {w w₁ w' : Walk} : g.step chars w = .ok (w₁, true) → Finishes g chars n w₁ w' →
      Finishes g chars (n + 1) w w'

/-- A walk comes to its end, whatever regions are open. -/
theorem exists_finishes (closed : g.Closed) (inside : g.StaysInside) (consuming : g.Consuming)
    (chars : Array Char) (knows : g.Knows w.stack) :
    ∃ n w', g.Finishes chars n w w' ∧ n ≤ w.ahead chars + 1 ∧ g.Knows w'.stack := by
  induction ahead : w.ahead chars using Nat.strongRecOn generalizing w with
  | ind most ih =>
      obtain ⟨first, ok⟩ := closed.event_ok chars knows
      have step := g.step_eq chars w
      rw [ok] at step
      cases first with
      | none => exact ⟨1, w, .last step, Nat.le_add_left 1 _, knows⟩
      | some e =>
          have applies := applies_of_event? ok
          have knows' := applies.knows knows
          cases more : (e.apply chars w).2 with
          | false =>
              exact ⟨1, _, .last (step.trans (congrArg Except.ok (Prod.ext rfl more))),
                Nat.le_add_left 1 _, knows'⟩
          | true =>
              have less := applies.ahead_lt inside consuming more
              obtain ⟨n, w', finishes, few, known⟩ := ih _ (ahead ▸ less) knows' rfl
              refine ⟨n + 1, w',
                .more (step.trans (congrArg Except.ok (Prod.ext rfl more))) finishes,
                ?_, known⟩
              omega

/-- With as many steps as it takes, a walk is done. -/
theorem Finishes.walk_eq {fuel : Nat} (finishes : g.Finishes chars n w w') (enough : n ≤ fuel) :
    g.walk chars fuel w = (w', .ok ()) := by
  induction finishes generalizing fuel with
  | last step =>
      obtain ⟨fuel, rfl⟩ := Nat.exists_eq_add_of_le' enough
      rw [walk, step]
  | more step _ ih =>
      obtain ⟨fuel, rfl⟩ := Nat.exists_eq_add_of_le' (Nat.le_of_add_left_le enough)
      rw [walk, step]
      exact ih (Nat.le_of_succ_le_succ enough)

/-- With fewer steps it is given up. -/
theorem Finishes.exists_walk_eq {fuel : Nat} (finishes : g.Finishes chars n w w') (few : fuel < n) :
    ∃ w', g.walk chars fuel w = (w', .error .tooManySteps) := by
  induction finishes generalizing fuel with
  | last step =>
      obtain rfl : fuel = 0 := by omega
      exact ⟨_, rfl⟩
  | more step _ ih =>
      cases fuel with
      | zero => exact ⟨_, rfl⟩
      | succ fuel =>
          rw [walk, step]
          exact ih (Nat.lt_of_succ_lt_succ few)

theorem openMarks_ok {frames : List Frame} (chars : Array Char)
    (knows : g.Knows ⟨frames.map (·.id)⟩) :
    ∃ marks, g.openMarks chars frames = .ok marks := by
  induction frames with
  | nil => exact ⟨[], rfl⟩
  | cons f frames ih =>
      obtain ⟨⟨r, region⟩, outer⟩ := List.forall_mem_cons.mp knows
      obtain ⟨marks, ok⟩ := ih outer
      refine ⟨marks ++ regionMark r ⟨f.start, chars.size⟩, ?_⟩
      rw [openMarks_cons, ok, frameRegion_eq_ok_iff.mpr region]
      rfl

theorem stack_start (stack : RuleStack) : (Walk.start stack).stack = stack := by
  rw [Walk.start, Walk.stack, List.map_map]
  exact congrArg RuleStack.mk (List.map_id _)

/-- A line is tokenized when its walk stays within the limit. -/
theorem Finishes.tokenizeLine_ok (finishes : g.Finishes line.toList.toArray n (.start stack) w)
    (knows : g.Knows w.stack) (within : n ≤ stepLimit line) :
    ∃ tokens, g.tokenizeLine line stack = .ok tokens w.stack := by
  obtain ⟨marks, ok⟩ := openMarks_ok line.toList.toArray knows
  rw [tokenizeLine, finishes.walk_eq within]
  dsimp only [Except.bind]
  rw [ok]
  exact ⟨_, rfl⟩

/-- A line is given up when its walk goes beyond the limit. -/
theorem Finishes.tokenizeLine_error (finishes : g.Finishes line.toList.toArray n (.start stack) w)
    (beyond : stepLimit line < n) :
    ∃ stack', g.tokenizeLine line stack = .error .tooManySteps stack' := by
  obtain ⟨w', walk⟩ := finishes.exists_walk_eq beyond
  rw [tokenizeLine, walk]
  exact ⟨_, rfl⟩

/-! ### A whole text -/

/-- A line is come to with some regions open, when all lines before it can be tokenized. -/
inductive Reaches (g : Compiled) : RuleStack → List String → String → RuleStack → Prop
  | here {stack : RuleStack} {line : String} {rest : List String} :
      Reaches g stack (line :: rest) line stack
  | later {stack stack₁ stack' : RuleStack} {first line : String} {rest : List String}
      {tokens : List Token} : g.tokenizeLine first stack = .ok tokens stack₁ →
      Reaches g stack₁ rest line stack' → Reaches g stack (first :: rest) line stack'

/-- Among some lines one is come to whose walk takes more steps than it may. -/
def Overruns (g : Compiled) (stack : RuleStack) (lines : List String) : Prop :=
  ∃ line stack' n w, g.Reaches stack lines line stack' ∧
    g.Finishes line.toList.toArray n (.start stack') w ∧ stepLimit line < n

/-- Behind a line that could be tokenized only the others may overrun. -/
theorem overruns_cons_iff {rest : List String} {tokens : List Token}
    (ok : g.tokenizeLine line stack = .ok tokens stack') :
    g.Overruns stack (line :: rest) ↔ g.Overruns stack' rest := by
  constructor
  · rintro ⟨line', stack₁, n, w, reaches, finishes, beyond⟩
    cases reaches with
    | here =>
        obtain ⟨stack₂, error⟩ := finishes.tokenizeLine_error beyond
        cases ok.symm.trans error
    | later ok' reaches =>
        cases ok.symm.trans ok'
        exact ⟨line', stack₁, n, w, reaches, finishes, beyond⟩
  · rintro ⟨line', stack₁, n, w, reaches, finishes, beyond⟩
    exact ⟨line', stack₁, n, w, .later ok reaches, finishes, beyond⟩

/-- Lines are tokenized one after the other, up to one that overruns. -/
theorem tokenizeLines_cases (closed : g.Closed) (inside : g.StaysInside) (consuming : g.Consuming)
    (knows : g.Knows stack) :
    (∃ tokens stack', g.tokenizeLines lines stack = .ok tokens stack' ∧ ¬g.Overruns stack lines) ∨
      ∃ stack', g.tokenizeLines lines stack = .error .tooManySteps stack' ∧
      g.Overruns stack lines := by
  induction lines generalizing stack with
  | nil =>
      refine .inl ⟨[], stack, rfl, ?_⟩
      rintro ⟨line, stack', n, w, reaches, -⟩
      cases reaches
  | cons line rest ih =>
      rw [← stack_start stack] at knows
      obtain ⟨n, w, finishes, -, known⟩ :=
        exists_finishes closed inside consuming line.toList.toArray knows
      rw [tokenizeLines, List.mapM_cons]
      by_cases within : n ≤ stepLimit line
      · obtain ⟨tokens, ok⟩ := finishes.tokenizeLine_ok known within
        rw [bind_ok ok, overruns_cons_iff ok]
        rcases ih known with ⟨others, stack', rest, never⟩ | ⟨stack', rest, overruns⟩
        · exact .inl ⟨tokens :: others, stack', bind_ok rest, never⟩
        · exact .inr ⟨stack', bind_error rest, overruns⟩
      · have beyond := Nat.lt_of_not_le within
        obtain ⟨stack', error⟩ := finishes.tokenizeLine_error beyond
        exact .inr ⟨stack', bind_error error, line, stack, n, w, .here, finishes, beyond⟩

/-- All regions that are open on the way are regions of the grammar. -/
theorem Reaches.knows (reaches : g.Reaches stack lines line stack') (knows : g.Knows stack) :
    g.Knows stack' := by
  induction reaches with
  | here => exact knows
  | later ok _ ih =>
      refine ih ?_
      obtain ⟨-, frames, regions⟩ := tokens_eq_of_ok ok
      rw [Knows, frames]
      exact List.forall_mem_map.mpr regions

/-- Where regions open by taking characters, the walk of every line comes to its end: it takes no
more steps than there are regions open before the line and twice the characters of the line. A text
is only refused if one of its lines takes more steps than it may. -/
theorem tokenize_error_iff (stays : engine.StaysInside)
    (compiled : d.compile engine = .ok g) (consuming : g.Consuming) (text : String) :
    (g.tokenize text = .error .tooManySteps ↔
        g.Overruns {} ((lineTexts text.toList).map String.ofList)) ∧
      (¬g.Overruns {} ((lineTexts text.toList).map String.ofList) →
        ∃ tokens, g.tokenize text = .ok tokens) ∧
      ∀ line stack, g.Reaches {} ((lineTexts text.toList).map String.ofList) line stack →
        ∃ n w, g.Finishes line.toList.toArray n (.start stack) w ∧
          n ≤ stack.frames.length + 2 * line.toList.length + 1 := by
  have closed := closed_of_compile compiled
  have inside := staysInside_of_compile stays compiled
  have empty : g.Knows {} := fun id mem => by cases mem
  refine ⟨?_, ?_, fun line stack reaches => ?_⟩
  · rw [tokenize]
    rcases tokenizeLines_cases closed inside consuming empty with
      ⟨tokens, stack, ok, never⟩ | ⟨stack, error, overruns⟩
    · rw [ok]
      exact ⟨(fun same => by cases same), fun overruns => absurd overruns never⟩
    · rw [error]
      exact ⟨fun _ => overruns, fun _ => rfl⟩
  · intro never
    rw [tokenize]
    rcases tokenizeLines_cases closed inside consuming empty with
      ⟨tokens, stack, ok, -⟩ | ⟨stack, error, overruns⟩
    · rw [ok]
      exact ⟨tokens, rfl⟩
    · exact absurd overruns never
  · have knows := reaches.knows empty
    rw [← stack_start stack] at knows
    obtain ⟨n, w, finishes, few, -⟩ :=
      exists_finishes closed inside consuming line.toList.toArray knows
    refine ⟨n, w, finishes, ?_⟩
    simpa [Walk.ahead, Walk.start] using few

/-- A quote at every mark, each inside the one before, up to an empty line. -/
def quotes : Definition where
  name := "quotes"
  scopeName := "source.quotes"
  patterns := [.reference "#quote"]
  repository := [("quote", .region none ">" "^$" [.reference "#quote"] .empty .empty)]

def quotesReady : Compiled where
  name := "quotes"
  scopeName := "source.quotes"
  rules := #[.region ⟨none, (Pattern.char (.single '>' false)).search,
    (Pattern.seq (.anchor .lineStart) (.anchor .lineEnd)).search, .empty, .empty, [1], [0]⟩,
    .reference 0, .reference 0]
  root := [0]

theorem quotesReady_consuming : quotesReady.Consuming
  | 0, _, there => by cases there; exact Pattern.search_char_consumes _
  | 1, _, there | 2, _, there | _ + 3, _, there => by cases there

/-- A mark opens one more quote. -/
theorem tokenizeLine_mark (n : Nat) : ∃ tokens,
    quotesReady.tokenizeLine ">" ⟨List.replicate n 0⟩ = .ok tokens ⟨List.replicate (n + 1) 0⟩ := by
  have finishes : quotesReady.Finishes #['>'] 2 (.start ⟨List.replicate n 0⟩)
      ⟨1, ⟨0, 0⟩ :: (List.replicate n 0).map fun id => ⟨id, 0⟩, []⟩ := by
    cases n with
    | zero => exact .more rfl (.last rfl)
    | succ n => exact .more rfl (.last rfl)
  have opened : Walk.stack ⟨1, ⟨0, 0⟩ :: (List.replicate n 0).map fun id => ⟨id, 0⟩, []⟩ =
      ⟨List.replicate (n + 1) 0⟩ := by
    rw [Walk.stack, List.map_cons, List.map_map, List.replicate_succ]
    exact congrArg (RuleStack.mk <| 0 :: ·) (List.map_id _)
  have knows : quotesReady.Knows ⟨List.replicate (n + 1) 0⟩ := by
    intro id mem
    obtain rfl := (List.mem_replicate.mp mem).2
    exact ⟨_, rfl⟩
  rw [← opened] at knows ⊢
  exact finishes.tokenizeLine_ok knows (Nat.le_trans (by decide) (Nat.le_max_right _ 128))

theorem reaches_blank (m n : Nat) : quotesReady.Reaches ⟨List.replicate m 0⟩
    (List.replicate n ">" ++ [""]) "" ⟨List.replicate (m + n) 0⟩ := by
  induction n generalizing m with
  | zero => exact .here
  | succ n ih =>
      obtain ⟨tokens, ok⟩ := tokenizeLine_mark m
      have rest := ih (m + 1)
      rw [Nat.add_right_comm] at rest
      exact .later ok rest

/-- An empty line closes all quotes, each by a step of its own. -/
theorem finishes_blank (n : Nat) :
    quotesReady.Finishes #[] (n + 1) (.start ⟨List.replicate n 0⟩) ⟨0, [], []⟩ := by
  induction n with
  | zero => exact .last rfl
  | succ n ih => exact .more rfl ih

/-- The marks of 128 lines open as many quotes, and the empty line is given up on while it closes
them. -/
theorem quotes_refused :
    quotes.compile (Pattern.engine Pattern.grammarDialect) = .ok quotesReady ∧
    quotesReady.Consuming ∧
    quotesReady.tokenize (String.ofList (List.replicate 128 ['>', '\n']).flatten) =
      .error .tooManySteps := by
  have compiled : quotes.compile (Pattern.engine Pattern.grammarDialect) = .ok quotesReady := by cbv
  have cut : lineTexts (List.replicate 128 ['>', '\n']).flatten = List.replicate 128 ['>'] ++
      [[]] := by
    decide +kernel
  have lines : (lineTexts (String.ofList (List.replicate 128 ['>', '\n']).flatten).toList).map
      String.ofList = List.replicate 128 ">" ++ [""] := by
    rw [String.toList_ofList, cut, List.map_append, List.map_replicate]
    rfl
  refine ⟨compiled, quotesReady_consuming, ?_⟩
  refine (tokenize_error_iff
    (Pattern.engine_staysInside _) compiled quotesReady_consuming _).1.mpr ?_
  rw [lines]
  exact ⟨"", _, 129, _, reaches_blank 0 128, finishes_blank (0 + 128), by decide⟩

end Compiled

end Grammar

end CodeEditor

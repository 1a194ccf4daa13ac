import CodeEditor.Layer.Injection
import Mathlib.Data.List.SplitBy
import Mathlib.Data.List.TakeWhile

/-!
Which language a capture gives to which part.

The captures of an injections query are visited in a row, with a language kept from one to the next.
`Runs` cuts the row wherever the match changes. Within a run, `Supplies` says which capture gives
its text to which later one as a language, `Speaks` which language a capture has then, and `Yields`
which part it is.

`injections_of_runs` says that the parts are those of the runs, one run after the other, and that
those of a run are what its captures yield, in their order. What is kept between two captures
depends on the first of them alone (`injectionsFrom_cons`), so nothing reaches further than from one
to the next.
-/

namespace CodeEditor.Layer

open Syntax (Node)

namespace InjectionCapture

/-- What a capture means. -/
def role (c : InjectionCapture) : CaptureRole := .ofName c.name

/-- Captures in runs of one match each, as long as they can be. -/
structure Runs (cs : List InjectionCapture) (runs : List (List InjectionCapture)) : Prop where
  whole : runs.flatten = cs
  nonempty : [] ∉ runs
  one : ∀ run ∈ runs, ∀ c ∈ run, ∀ d ∈ run, c.matchIndex = d.matchIndex
  apart : runs.IsChain fun run next => ∀ c ∈ run, ∀ d ∈ next, c.matchIndex ≠ d.matchIndex

/-- A name is a text without the blanks around it, of which something is left. -/
structure Names (text name : String) : Prop where
  around : ∃ front back, text.toList = front ++ name.toList ++ back ∧
    ∀ c ∈ front ++ back, CharClass.isWhiteSpace c = true
  nonempty : name.toList ≠ []
  first : ∀ c ∈ name.toList.head?, CharClass.isWhiteSpace c = false
  last : ∀ c ∈ name.toList.getLast?, CharClass.isWhiteSpace c = false

/-- The capture at a place in its run gives a later one its language. -/
structure Supplies (textOf : Node → String) (run : List InjectionCapture) (j i : Nat)
    (name : String) : Prop where
  before : j < i
  source : ∃ c, run[j]? = some c ∧ c.role = .language ∧ Names (textOf c.node) name
  target : ∃ c, run[i]? = some c ∧ c.role ≠ .language
  /-- No earlier one could take the language, -/
  next : ∀ k c, j < k → k < i → run[k]? = some c → c.role = .language
  /-- and no other language stands between. -/
  alone : ∀ k c, j < k → k < i → run[k]? = some c → c.role ≠ .language

/-- The language of the capture at a place in its run. -/
inductive Speaks (textOf : Node → String) (run : List InjectionCapture) (i : Nat) : String → Prop
  | content {c : InjectionCapture} {j : Nat} {name : String} :
      run[i]? = some c → c.role = .content → Supplies textOf run j i name →
      Speaks textOf run i name
  | contentProperty {c : InjectionCapture} {name : String} :
      run[i]? = some c → c.role = .content → (∀ j name, ¬Supplies textOf run j i name) →
      c.languageProperty = some name → Speaks textOf run i name
  | property {c : InjectionCapture} {own name : String} :
      run[i]? = some c → c.role = .named own → c.languageProperty = some name →
      Speaks textOf run i name
  | supplied {c : InjectionCapture} {own name : String} {j : Nat} :
      run[i]? = some c → c.role = .named own → c.languageProperty = none →
      Supplies textOf run j i name → Speaks textOf run i name
  | own {c : InjectionCapture} {own : String} :
      run[i]? = some c → c.role = .named own → c.languageProperty = none →
      (∀ j name, ¬Supplies textOf run j i name) → Speaks textOf run i own

/-- The capture at a place in its run is a part. -/
def Yields (textOf : Node → String) (run : List InjectionCapture) (i : Nat) (x : Injection) :
    Prop :=
  ∃ c, run[i]? = some c ∧ c.node.byteRange.isEmpty = false ∧
    Speaks textOf run i x.languageName ∧ x.path = c.path ∧ x.byteRange = c.node.byteRange

/-- The parts of a run. -/
structure Reads (textOf : Node → String) (run : List InjectionCapture)
    (parts : List Injection) : Prop where
  /-- A language is used up by the first that can take it, even if that one is no part. -/
  once : ∀ {j i i' name name'}, Supplies textOf run j i name → Supplies textOf run j i' name' →
    i = i' ∧ name = name'
  single : ∀ {j j' i name name'}, Supplies textOf run j i name → Supplies textOf run j' i name' →
    j = j' ∧ name = name'
  ordered : ∃ part : Nat → Option Injection,
    (∀ i x, part i = some x ↔ Yields textOf run i x) ∧
      parts = (List.range run.length).filterMap part

/-- The language that is kept behind a capture. -/
def keeps (textOf : Node → String) (c : InjectionCapture) : Option String :=
  if c.role = .language then named (textOf c.node) else none

/-- The language that is kept in front of a place, if one is kept in front of the first. -/
def pending (textOf : Node → String) (kept : Option String) (run : List InjectionCapture) :
    Nat → Option String
  | 0 => kept
  | i + 1 => run[i]?.bind (keeps textOf)

/-- The part that a capture is. -/
def part? (c : InjectionCapture) (kept : Option String) : Option Injection :=
  (c.languageName kept).bind fun name =>
    if c.node.byteRange.isEmpty then none else some ⟨c.path, name, c.node.byteRange⟩

variable {textOf : Node → String} {kept : Option String} {current : Option Nat}
  {c : InjectionCapture} {cs run rest : List InjectionCapture} {i j : Nat} {name : String}

/-! ### The name of a language -/

theorem dropWhile_of_head {p : Char → Bool} {cs : List Char} (head : ∀ c ∈ cs.head?, p c = false) :
    cs.dropWhile p = cs := by
  cases cs with
  | nil => rfl
  | cons c cs => exact List.dropWhile_cons_of_neg (by simp [head c rfl])

theorem head_dropWhile (p : Char → Bool) (cs : List Char) :
    ∀ c ∈ (cs.dropWhile p).head?, p c = false := by
  intro c head
  have stops := List.head?_dropWhile_not p cs
  rwa [show (cs.dropWhile p).head? = some c from head] at stops

/-- Trimming leaves what stands between blanks. -/
theorem trim_eq_iff {cs name : List Char} (nonempty : name ≠ []) :
    CharClass.trim cs = name ↔
      (∃ front back, cs = front ++ name ++ back ∧
          ∀ c ∈ front ++ back, CharClass.isWhiteSpace c = true) ∧
        (∀ c ∈ name.head?, CharClass.isWhiteSpace c = false) ∧
        ∀ c ∈ name.getLast?, CharClass.isWhiteSpace c = false := by
  constructor
  · intro trimmed
    rw [CharClass.trim] at trimmed
    have front := (List.takeWhile_append_dropWhile (p := CharClass.isWhiteSpace) (l := cs)).symm
    have stop := head_dropWhile CharClass.isWhiteSpace cs
    have stop' := head_dropWhile CharClass.isWhiteSpace
      (cs.dropWhile CharClass.isWhiteSpace).reverse
    have rest := (List.takeWhile_append_dropWhile (p := CharClass.isWhiteSpace)
      (l := (cs.dropWhile CharClass.isWhiteSpace).reverse)).symm
    rw [List.reverse_eq_iff, List.reverse_append, trimmed] at rest
    rw [rest] at front stop
    refine ⟨⟨_, _, front.trans (List.append_assoc _ _ _).symm, fun c mem => ?_⟩, ?_, ?_⟩
    · rcases List.mem_append.mp mem with mem | mem
      · exact List.mem_takeWhile_imp mem
      · exact List.mem_takeWhile_imp (List.mem_reverse.mp mem)
    · rwa [List.head?_append_of_ne_nil _ nonempty] at stop
    · rwa [← List.getLast?_reverse, trimmed] at stop'
  · rintro ⟨⟨front, back, rfl, blank⟩, first, last⟩
    have start : (front ++ (name ++ back)).dropWhile CharClass.isWhiteSpace = name ++ back := by
      rw [List.dropWhile_append_of_pos fun c mem => blank c (List.mem_append_left _ mem)]
      refine dropWhile_of_head ?_
      rwa [List.head?_append_of_ne_nil _ nonempty]
    have stop : (back.reverse ++ name.reverse).dropWhile CharClass.isWhiteSpace = name.reverse := by
      rw [List.dropWhile_append_of_pos fun c mem =>
        blank c (List.mem_append_right _ (List.mem_reverse.mp mem))]
      refine dropWhile_of_head ?_
      rwa [List.head?_reverse]
    rw [CharClass.trim, List.append_assoc, start, List.reverse_append, stop, List.reverse_reverse]

theorem names_iff {text : String} : Names text name ↔ named text = some name := by
  have trimmed : named text = some name ↔
      CharClass.trim text.toList = name.toList ∧ name.toList ≠ [] := by
    rw [named]
    cases trim : CharClass.trim text.toList with
    | nil => simp
    | cons c cs =>
        rw [List.isEmpty_cons, if_neg Bool.false_ne_true, Option.some.injEq]
        refine ⟨fun same => ?_, fun same => ?_⟩
        · rw [← same]
          simp
        · rw [same.1, String.ofList_toList]
  rw [trimmed]
  constructor
  · rintro ⟨around, nonempty, first, last⟩
    exact ⟨(trim_eq_iff nonempty).mpr ⟨around, first, last⟩, nonempty⟩
  · rintro ⟨trim, nonempty⟩
    obtain ⟨around, first, last⟩ := (trim_eq_iff nonempty).mp trim
    exact ⟨around, nonempty, first, last⟩

/-! ### From one capture to the next -/

theorem injectionsFrom_cons : injectionsFrom textOf kept current (c :: cs) =
    (c.part? (if current = some c.matchIndex then kept else none)).toList ++
      injectionsFrom textOf (keeps textOf c) (some c.matchIndex) cs := by
  rw [injectionsFrom, part?, keeps, role]
  by_cases language : CaptureRole.ofName c.name = .language
  · rw [if_pos language, if_pos language, languageName, language]
    rfl
  · rw [if_neg language, if_neg language]
    cases c.languageName _ with
    | none => rfl
    | some name =>
        cases empty : c.node.byteRange.isEmpty with
        | true => rfl
        | false => rfl

theorem injectionsFrom_none : injectionsFrom textOf none current cs = injections textOf cs := by
  cases cs with
  | nil => rfl
  | cons c cs => rw [injections, injectionsFrom_cons, injectionsFrom_cons, ite_self, ite_self]

/-- Nothing is kept from another match. -/
theorem injectionsFrom_fresh (fresh : ∀ c ∈ cs.head?, current ≠ some c.matchIndex) :
    injectionsFrom textOf kept current cs = injections textOf cs := by
  cases cs with
  | nil => rfl
  | cons c cs =>
      rw [injections, injectionsFrom_cons, injectionsFrom_cons, if_neg (fresh c rfl), ite_self]

theorem injectionsFrom_append (fresh : ∀ d ∈ rest.head?, current ≠ some d.matchIndex)
    (apart : ∀ c ∈ run, ∀ d ∈ rest.head?, c.matchIndex ≠ d.matchIndex) :
    injectionsFrom textOf kept current (run ++ rest) =
      injectionsFrom textOf kept current run ++ injections textOf rest := by
  induction run generalizing kept current with
  | nil => exact injectionsFrom_fresh fresh
  | cons c run ih =>
      obtain ⟨here, below⟩ := List.forall_mem_cons.mp apart
      rw [List.cons_append, injectionsFrom_cons, injectionsFrom_cons, List.append_assoc]
      rw [ih (fun d head same => here d head (Option.some.inj same)) below]

theorem languageName_language (role : c.role = .language) : c.languageName kept = none := by
  rw [languageName, ← InjectionCapture.role, role]

theorem languageName_content (role : c.role = .content) :
    c.languageName kept = kept.or c.languageProperty := by
  rw [languageName, ← InjectionCapture.role, role]

theorem languageName_named {own : String} (role : c.role = .named own) :
    c.languageName kept = some ((c.languageProperty.or kept).getD own) := by
  rw [languageName, ← InjectionCapture.role, role]

/-! ### Runs -/

/-- Captures can be cut into runs. -/
theorem exists_runs (cs : List InjectionCapture) : ∃ runs, Runs cs runs := by
  have one : ∀ run ∈ cs.splitBy fun c d => c.matchIndex == d.matchIndex,
      ∀ c ∈ run, ∀ d ∈ run, c.matchIndex = d.matchIndex := by
    intro run mem c first d second
    have chain := (List.isChain_of_mem_splitBy mem).imp fun c d same => beq_iff_eq.mp same
    have indices : (run.map matchIndex).Pairwise Eq :=
      List.isChain_iff_pairwise.mp ((List.isChain_map _).mpr chain)
    exact indices.forall_of_forall (fun _ _ => rfl) (List.mem_map_of_mem first)
      (List.mem_map_of_mem second)
  refine ⟨_, List.flatten_splitBy _ cs, List.nil_notMem_splitBy _ cs, one, ?_⟩
  refine (List.isChain_getLast_head_splitBy _ cs).imp_of_mem_imp ?_
  rintro run next mem mem' ⟨nonempty, nonempty', differ⟩ c first d second same
  rw [one run mem c first _ (List.getLast_mem nonempty)] at same
  rw [one next mem' d second _ (List.head_mem nonempty')] at same
  exact absurd same (beq_eq_false_iff_ne.mp differ)

/-- The parts are those of the runs. -/
theorem Runs.injections {runs : List (List InjectionCapture)} (cut : Runs cs runs) :
    injections textOf cs = runs.flatMap (injections textOf) := by
  obtain ⟨rfl, nonempty, -, apart⟩ := cut
  induction runs with
  | nil => rfl
  | cons run runs ih =>
      rw [List.mem_cons, not_or] at nonempty
      obtain ⟨next, below⟩ := List.isChain_cons.mp apart
      rw [List.flatten_cons, List.flatMap_cons, ← ih nonempty.2 below]
      refine injectionsFrom_append (fun d _ => nofun) fun c mem d head => ?_
      cases runs with
      | nil => cases head
      | cons first runs =>
          obtain ⟨d', run', rfl⟩ :=
            List.exists_cons_of_ne_nil fun empty => nonempty.2 (empty ▸ List.mem_cons_self)
          obtain rfl : d' = d := Option.some.inj head
          exact next _ rfl c mem d' List.mem_cons_self

/-! ### Within a run -/

/-- Nothing can stand between a language and the capture that takes it. -/
theorem Supplies.next_eq (supplies : Supplies textOf run j i name) : i = j + 1 := by
  by_contra more
  have before := supplies.before
  obtain ⟨_, here, -⟩ := supplies.target
  have inside := (List.getElem?_eq_some_iff.mp here).1
  have between : run[j + 1]? = some run[j + 1] := List.getElem?_eq_getElem (by omega)
  exact supplies.alone (j + 1) _ (by omega) (by omega) between
    (supplies.next (j + 1) _ (by omega) (by omega) between)

theorem Supplies.source_eq (supplies : Supplies textOf run j i name) :
    run[j]?.bind (keeps textOf) = some name := by
  obtain ⟨c, source, language, text⟩ := supplies.source
  rw [source, Option.bind_some, keeps, if_pos language, names_iff.mp text]

/-- A language goes to one capture, in one spelling. -/
theorem Supplies.unique {i' : Nat} {name' : String} (supplies : Supplies textOf run j i name)
    (supplies' : Supplies textOf run j i' name') : i = i' ∧ name = name' :=
  ⟨supplies.next_eq.trans supplies'.next_eq.symm,
    Option.some.inj (supplies.source_eq.symm.trans supplies'.source_eq)⟩

/-- A capture is given the language that is kept in front of it. -/
theorem supplies_iff (here : run[i]? = some c) (other : c.role ≠ .language) :
    (∃ j, Supplies textOf run j i name) ↔ pending textOf none run i = some name := by
  constructor
  · rintro ⟨j, supplies⟩
    obtain rfl := supplies.next_eq
    exact supplies.source_eq
  · intro kept
    cases i with
    | zero => cases kept
    | succ j =>
        obtain ⟨d, source, text⟩ := Option.bind_eq_some_iff.mp kept
        rw [keeps] at text
        split at text
        · next language =>
          exact ⟨j, Nat.lt_succ_self j, ⟨d, source, language, names_iff.mpr text⟩, ⟨c, here, other⟩,
            fun k _ _ _ => by omega, fun k _ _ _ => by omega⟩
        · cases text

theorem not_supplies_iff (here : run[i]? = some c) (other : c.role ≠ .language) :
    (∀ j name, ¬Supplies textOf run j i name) ↔ pending textOf none run i = none := by
  rw [Option.eq_none_iff_forall_ne_some, forall_comm]
  exact forall_congr' fun name => not_exists.symm.trans (not_congr (supplies_iff here other))

/-- The language of a capture is the one that it has with what is kept in front of it. -/
theorem speaks_iff (here : run[i]? = some c) :
    Speaks textOf run i name ↔ c.languageName (pending textOf none run i) = some name := by
  have same {d : InjectionCapture} (there : run[i]? = some d) : d = c :=
    Option.some.inj (there.symm.trans here)
  constructor
  · intro speaks
    cases speaks with
    | content there role supplies =>
        obtain rfl := same there
        rw [languageName_content role, (supplies_iff here (by simp [role])).mp ⟨_, supplies⟩]
        rfl
    | contentProperty there role unsupplied property =>
        obtain rfl := same there
        rw [languageName_content role, (not_supplies_iff here (by simp [role])).mp unsupplied,
          property]
        rfl
    | property there role property =>
        obtain rfl := same there
        rw [languageName_named role, property]
        rfl
    | supplied there role property supplies =>
        obtain rfl := same there
        rw [languageName_named role, property, (supplies_iff here (by simp [role])).mp
          ⟨_, supplies⟩]
        rfl
    | own there role property unsupplied =>
        obtain rfl := same there
        rw [languageName_named role, property,
          (not_supplies_iff here (by simp [role])).mp unsupplied]
        rfl
  · intro found
    cases role : c.role with
    | language =>
        rw [languageName_language role] at found
        cases found
    | content =>
        have other : c.role ≠ .language := by simp [role]
        rw [languageName_content role] at found
        cases kept : pending textOf none run i with
        | none =>
            rw [kept, Option.none_or] at found
            exact .contentProperty here role ((not_supplies_iff here other).mpr kept) found
        | some name' =>
            rw [kept, Option.some_or] at found
            obtain ⟨j, supplies⟩ := (supplies_iff here other).mpr (kept.trans found)
            exact .content here role supplies
    | named own =>
        have other : c.role ≠ .language := by simp [role]
        rw [languageName_named role] at found
        obtain rfl := Option.some.inj found
        cases property : c.languageProperty with
        | some name' => exact .property here role property
        | none =>
            cases kept : pending textOf none run i with
            | none => exact .own here role property ((not_supplies_iff here other).mpr kept)
            | some name' =>
                obtain ⟨j, supplies⟩ := (supplies_iff here other).mpr kept
                exact .supplied here role property supplies

theorem yields_iff {x : Injection} :
    Yields textOf run i x ↔
      (run[i]?.bind fun c => c.part? (pending textOf none run i)) = some x := by
  constructor
  · rintro ⟨c, here, nonempty, speaks, path, range⟩
    rw [here, Option.bind_some, part?, (speaks_iff here).mp speaks, Option.bind_some, nonempty]
    rw [if_neg Bool.false_ne_true, ← path, ← range]
  · intro found
    obtain ⟨c, here, found⟩ := Option.bind_eq_some_iff.mp found
    obtain ⟨name, language, found⟩ := Option.bind_eq_some_iff.mp found
    split at found
    · cases found
    · next nonempty =>
      obtain rfl := Option.some.inj found
      exact ⟨c, here, Bool.eq_false_iff.mpr nonempty, (speaks_iff here).mpr language, rfl, rfl⟩

/-- The parts of a run by places. -/
theorem injectionsFrom_eq {index : Nat} (one : ∀ c ∈ run, c.matchIndex = index) :
    injectionsFrom textOf kept (some index) run =
      (List.range run.length).filterMap fun i =>
        run[i]?.bind fun c => c.part? (pending textOf kept run i) := by
  induction run generalizing kept with
  | nil => rfl
  | cons c run ih =>
      obtain ⟨here, below⟩ := List.forall_mem_cons.mp one
      rw [injectionsFrom_cons, here, if_pos rfl, ih below, List.length_cons,
        List.range_succ_eq_map, List.filterMap_cons, List.filterMap_map]
      -- Behind the first place, what is kept in front of a place is told by the places before it.
      have shifted :
          (fun i => (c :: run)[i]?.bind fun d => d.part? (pending textOf kept (c :: run) i)) ∘
            Nat.succ = fun i => run[i]?.bind fun d => d.part?
                (pending textOf (keeps textOf c) run i) := by
        funext i
        cases i <;> rfl
      rw [shifted, List.getElem?_cons_zero, Option.bind_some, pending]
      cases c.part? kept <;> rfl

/-- A run is read as its captures say. -/
theorem reads_of_one (one : ∀ c ∈ run, ∀ d ∈ run, c.matchIndex = d.matchIndex) :
    Reads textOf run (injections textOf run) := by
  constructor
  case once => exact Supplies.unique
  case single =>
    intro j j' i name name' supplies supplies'
    obtain rfl : j = j' := Nat.succ.inj (supplies.next_eq.symm.trans supplies'.next_eq)
    exact ⟨rfl, (supplies.unique supplies').2⟩
  case ordered =>
    refine ⟨_, fun i x => yields_iff.symm, ?_⟩
    cases run with
    | nil => rfl
    | cons c run =>
        rw [← injectionsFrom_eq fun d mem => one d mem c List.mem_cons_self, injectionsFrom_none]

/-- The parts are those of the runs one after the other. A run is read by itself, each language
going to one capture at most. -/
theorem injections_of_runs (textOf : Node → String) (cs : List InjectionCapture) :
    (∃ runs, Runs cs runs) ∧
      ∀ runs, Runs cs runs →
        injections textOf cs = runs.flatMap (injections textOf) ∧
          ∀ run ∈ runs, Reads textOf run (injections textOf run) :=
  ⟨exists_runs cs, fun _ cut => ⟨cut.injections, fun run mem => reads_of_one (cut.one run mem)⟩⟩

/-- An empty part takes the language in front of it, so that the part behind it has none. The next
match has its own, and in the last one a part takes the language in front of it. -/
theorem injections_of_empty_part :
    let node (kind : String) (start stop : Nat) : Node :=
      ⟨kind, true, ⟨start, 0, start⟩, ⟨stop, 0, stop⟩, []⟩
    let first : List InjectionCapture :=
      [⟨"language", [0], node "sql" 0 6, none, 0⟩, ⟨"content", [1], node "block" 6 6, none, 0⟩,
        ⟨"content", [2], node "block" 6 8, none, 0⟩]
    let second : List InjectionCapture := [⟨"css", [3], node "block" 8 12, none, 1⟩]
    let third : List InjectionCapture :=
      [⟨"language", [4], node " php " 12 22, none, 2⟩, ⟨"content", [5], node "block" 22 26,
        none, 2⟩]
    Runs (first ++ second ++ third) [first, second, third] ∧
      injections Node.kind (first ++ second ++ third) =
        injections Node.kind first ++ injections Node.kind second ++ injections Node.kind third ∧
      injections Node.kind first = [] ∧
      injections Node.kind second = [⟨[3], "css", ⟨8, 4⟩⟩] ∧
      injections Node.kind third = [⟨[5], "php", ⟨22, 4⟩⟩] ∧
      Supplies Node.kind third 0 1 "php" ∧
      Reads Node.kind first [] ∧ Reads Node.kind third [⟨[5], "php", ⟨22, 4⟩⟩] := by
  intro node first second third
  have cut : Runs (first ++ second ++ third) [first, second, third] :=
    ⟨rfl, by simp [first, second, third], by simp [first, second, third],
      by simp [first, second, third]⟩
  obtain ⟨-, cuts⟩ := injections_of_runs Node.kind (first ++ second ++ third)
  obtain ⟨whole, reads⟩ := cuts _ cut
  have empty : injections Node.kind first = [] := by decide
  have css : injections Node.kind second = [⟨[3], "css", ⟨8, 4⟩⟩] := by decide
  have php : injections Node.kind third = [⟨[5], "php", ⟨22, 4⟩⟩] := by decide
  have name : named " php " = some "php" := by decide
  have supplies : Supplies Node.kind third 0 1 "php" :=
    ⟨by decide, ⟨_, rfl, by decide, names_iff.mpr name⟩, ⟨_, rfl, by decide⟩,
      fun k _ _ _ => by omega, fun k _ _ _ => by omega⟩
  refine ⟨cut, ?_, empty, css, php, supplies, ?_, ?_⟩
  · simpa using whole
  · rw [← empty]
    exact reads first (by simp)
  · rw [← php]
    exact reads third (by simp)

end InjectionCapture

end CodeEditor.Layer

import CodeEditor.Proofs.Text.Units
import CodeEditor.Syntax.Indent

/-!
How far the detection of the indentation looks.

Empty lines and comments say nothing, and they do not end the search either (`windowFrom_blank`),
nor do lines of which none is indented (`windowFrom_plain`): it goes on to the first line with
content by which enough has been seen and some line was indented. `window` is the lines up to there,
and what stands behind has no say (`detection_windowed`).
-/

namespace CodeEditor.Syntax.IndentDetection

open Indent (contentUnits)

/-! ### What is seen of the lines -/

/-- What is seen of a line: its code units, unless it is empty or starts in a comment. -/
abbrev Look : Type := Option (List UInt16)

def look (branchAt : Node → Point → Branch) (text : TextBuffer) (root : Node) (line : Line) :
    Look :=
  if startsInComment branchAt root line.row || line.contentLength == 0 then none
  else some (contentUnits text line)

/-- What is seen of the lines of a document. -/
def looks (branchAt : Node → Point → Branch) (text : TextBuffer) (index : LineIndex) (root : Node) :
    List Look :=
  index.lines.map (look branchAt text root)

/-- The number of spaces that some code units start with. -/
def spaces (us : List UInt16) : Nat := (us.takeWhile (· = Indent.space)).length

/-- The lines with content. -/
def counted (ls : List Look) : Nat := (ls.filter (·.isSome)).length

/-- The lines that start with a tab. -/
def tabbed (ls : List Look) : Nat := (ls.filter fun l => l.any (·.head? = some Indent.tab)).length

/-- The numbers of spaces that lines start with, of those that start with more than one. -/
def runs (ls : List Look) : List Nat := (ls.filterMap (·.map spaces)).filter (1 < ·)

/-- The search may end behind some lines: they are enough, and one of them is indented. -/
def Enough (ls : List Look) : Prop :=
  (lineLimit ≤ ls.length ∨ contentLimit ≤ counted ls) ∧ (tabbed ls ≠ 0 ∨ runs ls ≠ [])

instance (ls : List Look) : Decidable (Enough ls) := inferInstanceAs (Decidable (_ ∧ _))

/-- The lines that are looked at when some have been. -/
def windowFrom (front : List Look) : List Look → List Look
  | [] => front
  | l :: rest =>
      if l.isSome ∧ Enough (front ++ [l]) then front ++ [l] else windowFrom (front ++ [l]) rest

/-- The lines that are looked at. -/
def window (ls : List Look) : List Look := windowFrom [] ls

/-- The search has ended within some lines. -/
def Settles (ls : List Look) : Prop :=
  ∃ front us, front ++ [some us] <+: ls ∧ Enough (front ++ [some us])

/-! ### Counting -/

/-- What some lines say. -/
def tally (ls : List Look) : Tally where
  lines := ls.length
  contentLines := counted ls
  tabLines := tabbed ls
  spaceLines := (runs ls).length
  fewestSpaces := (runs ls).foldl min (wordLimit - 1)

variable {branchAt : Node → Point → Branch} {text : TextBuffer} {root : Node} {ls : List Look}
    {us : List UInt16}

theorem fewest_mem_and_le (ls : List Look) : (tally ls).fewestSpaces ∈ (wordLimit - 1) :: runs ls ∧
    ∀ n ∈ (wordLimit - 1) :: runs ls, (tally ls).fewestSpaces ≤ n :=
  List.min?_eq_some_iff.mp List.min?_cons'

theorem two_le_fewest (ls : List Look) : 2 ≤ (tally ls).fewestSpaces := by
  rcases List.mem_cons.mp (fewest_mem_and_le ls).1 with last | run
  · rw [last]
    decide
  · exact of_decide_eq_true (List.mem_filter.mp run).2

theorem length_takeWhile_take (p : UInt16 → Bool) (us : List UInt16) (n : Nat) :
    ((us.take n).takeWhile p).length = min n (us.takeWhile p).length := by
  induction us generalizing n with
  | nil => simp
  | cons u us ih =>
      cases n with
      | zero => simp
      | succ n =>
          rw [List.take_succ_cons, List.takeWhile_cons, List.takeWhile_cons]
          split
          · rw [List.length_cons, List.length_cons, ih, Nat.succ_min_succ]
          · rfl

theorem leadingSpaces_eq (line : Line) (limit : Nat) :
    Indent.leadingSpaces text line limit = min limit (spaces (contentUnits text line)) :=
  length_takeWhile_take _ _ _

theorem spaces_eq_zero (other : us.head? ≠ some Indent.space) : spaces us = 0 := by
  cases us with
  | nil => rfl
  | cons u us =>
      have different : u ≠ Indent.space := fun same => other (congrArg some same)
      rw [spaces, List.takeWhile_cons_of_neg (by simpa using different)]
      rfl

theorem tally_append_none (ls : List Look) :
    tally (ls ++ [none]) = { tally ls with lines := ls.length + 1 } := by
  simp [tally, counted, tabbed, runs]

theorem tally_append_tab (ls : List Look) (tab : us.head? = some Indent.tab) :
    tally (ls ++ [some us]) = { tally ls with
      lines := ls.length + 1
      contentLines := counted ls + 1
      tabLines := tabbed ls + 1 } := by
  have none : spaces us = 0 := spaces_eq_zero (by rw [tab]; decide)
  simp [tally, counted, tabbed, runs, tab, none]

theorem tally_append_run (ls : List Look) (tab : us.head? ≠ some Indent.tab) (run : 1 < spaces us) :
    tally (ls ++ [some us]) = { tally ls with
      lines := ls.length + 1
      contentLines := counted ls + 1
      spaceLines := (runs ls).length + 1
      fewestSpaces := min (tally ls).fewestSpaces (spaces us) } := by
  simp [tally, counted, tabbed, runs, tab, run]

theorem tally_append_plain (ls : List Look) (tab : us.head? ≠ some Indent.tab)
    (run : ¬1 < spaces us) :
    tally (ls ++ [some us]) = { tally ls with
      lines := ls.length + 1
      contentLines := counted ls + 1 } := by
  simp [tally, counted, tabbed, runs, tab, run]

/-- Looking at one more line. -/
theorem add_look (ls : List Look) (line : Line) :
    (tally ls).add branchAt text root line =
      (tally (ls ++ [look branchAt text root line]), (look branchAt text root line).isSome) := by
  rw [Tally.add, look]
  dsimp only
  split
  · rw [tally_append_none]
    rfl
  · generalize seen : contentUnits text line = us
    have isTab : Indent.startsWithTab text line = decide (us.head? = some Indent.tab) := by
      rw [Indent.startsWithTab, seen]
    have isSpace : Indent.startsWithSpace text line = decide (us.head? = some Indent.space) := by
      rw [Indent.startsWithSpace, seen]
    rw [isTab, isSpace, leadingSpaces_eq, seen]
    by_cases tab : us.head? = some Indent.tab
    · rw [tally_append_tab ls tab, if_pos (decide_eq_true tab)]
      rfl
    · rw [if_neg (by simpa using tab)]
      by_cases run : 1 < spaces us
      · have space : us.head? = some Indent.space := Decidable.byContradiction fun other => by
          rw [spaces_eq_zero other] at run
          exact absurd run (by decide)
        have within : 1 < min (tally ls).fewestSpaces (spaces us) :=
          Nat.lt_min.mpr ⟨two_le_fewest ls, run⟩
        rw [tally_append_run ls tab run, if_pos (decide_eq_true space), if_pos within,
          ← Nat.min_assoc, Nat.min_self]
        rfl
      · have within : ¬1 < min (tally ls).fewestSpaces (spaces us) :=
          fun both => run (Nat.lt_min.mp both).2
        rw [tally_append_plain ls tab run, if_neg within]
        split <;> rfl

/-! ### Looking -/

/-- What the lines that were looked at say in the end. -/
def verdict (ls : List Look) : DetectedIndent := (tally ls).decide.getD .unknown

theorem decide_eq_none_iff (ls : List Look) :
    (tally ls).decide = none ↔ ¬(tabbed ls ≠ 0 ∨ runs ls ≠ []) := by
  rw [Tally.decide, tally]
  split
  · next none => simpa using none
  · next some =>
      refine iff_of_false (by split <;> simp) fun none => some ?_
      simpa using none

/-- In a document of a hundred lines the search goes as far as the window and says what that
says. -/
theorem scan_eq {lineCount : Nat} (long : lineLimit ≤ lineCount) (front : List Look)
    (lines : List Line) :
    scan branchAt text root lineCount (tally front) lines =
      verdict (windowFrom front (lines.map (look branchAt text root))) := by
  have limits : min lineLimit lineCount = lineLimit ∧ min contentLimit lineCount = contentLimit :=
    ⟨Nat.min_eq_left long, Nat.min_eq_left (Nat.le_trans (by decide) long)⟩
  induction lines generalizing front with
  | nil => rfl
  | cons line rest ih =>
      rw [scan, add_look, List.map_cons, windowFrom, limits.1, limits.2]
      generalize look branchAt text root line = l
      dsimp only
      by_cases stop : l.isSome ∧ Enough (front ++ [l])
      · have ⟨content, enough, indented⟩ := stop
        have last : (l.isSome && (decide (lineLimit ≤ (tally (front ++ [l])).lines) ||
            decide (contentLimit ≤ (tally (front ++ [l])).contentLines))) = true := by
          rw [content, Bool.true_and, Bool.or_eq_true, decide_eq_true_eq, decide_eq_true_eq]
          exact enough
        rw [if_pos last, if_pos stop, verdict]
        cases found : (tally (front ++ [l])).decide with
        | none => exact absurd indented ((decide_eq_none_iff _).mp found)
        | some found => rfl
      · have further : (if (l.isSome && (decide (lineLimit ≤ (tally (front ++ [l])).lines) ||
            decide (contentLimit ≤ (tally (front ++ [l])).contentLines))) = true
            then (tally (front ++ [l])).decide else none) = none := by
          split
          · next last =>
              rw [Bool.and_eq_true, Bool.or_eq_true, decide_eq_true_eq, decide_eq_true_eq] at last
              exact (decide_eq_none_iff _).mpr fun indented => stop ⟨last.1, last.2, indented⟩
          · rfl
        rw [further, if_neg stop]
        exact ih (front ++ [l])

theorem detectIndent_eq {index : LineIndex} (long : lineLimit ≤ index.lineCount) :
    detectIndent branchAt text index root = verdict (window (looks branchAt text index root)) :=
  scan_eq long [] index.lines

/-- What stands behind lines within which the search has ended is not looked at. -/
theorem windowFrom_append {front common : List Look} (rest : List Look)
    (settles : ∃ between us, between ++ [some us] <+: common ∧
      Enough (front ++ (between ++ [some us]))) :
    windowFrom front (common ++ rest) = windowFrom front common := by
  induction common generalizing front with
  | nil =>
      obtain ⟨between, us, part, -⟩ := settles
      exact absurd (List.prefix_nil.mp part) (by simp)
  | cons l common ih =>
      rw [List.cons_append, windowFrom, windowFrom]
      split
      · rfl
      · next further =>
          apply ih
          obtain ⟨between, us, part, enough⟩ := settles
          cases between with
          | nil =>
              obtain ⟨rfl, -⟩ := List.cons_prefix_cons.mp part
              exact absurd ⟨rfl, enough⟩ further
          | cons l' between =>
              rw [List.cons_append] at part
              obtain ⟨rfl, part'⟩ := List.cons_prefix_cons.mp part
              exact ⟨between, us, part', by simpa using enough⟩

theorem window_eq_of_prefix {common : List Look} (part : common <+: ls) (settles : Settles common) :
    window ls = window common := by
  obtain ⟨rest, rfl⟩ := part
  exact windowFrom_append rest settles

/-- Empty lines and comments do not end the search, however many there are. -/
theorem windowFrom_blank (front : List Look) (n : Nat) (rest : List Look) :
    windowFrom front (List.replicate n none ++ rest) =
      windowFrom (front ++ List.replicate n none) rest := by
  induction n generalizing front with
  | zero => simp
  | succ n ih =>
      have here : ¬((none : Look).isSome ∧ Enough (front ++ [none])) := fun stop => nomatch stop.1
      rw [List.replicate_succ, List.cons_append, windowFrom, if_neg here, ih, List.append_assoc,
        List.singleton_append]

theorem tabbed_append (ls ls' : List Look) : tabbed (ls ++ ls') = tabbed ls + tabbed ls' := by
  simp [tabbed]

theorem runs_append (ls ls' : List Look) : runs (ls ++ ls') = runs ls ++ runs ls' := by
  simp [runs]

/-- Nor do lines of which none is indented. -/
theorem windowFrom_plain {front : List Look} (rest : List Look) (tabs : tabbed (front ++ ls) = 0)
    (spaces : runs (front ++ ls) = []) :
    windowFrom front (ls ++ rest) = windowFrom (front ++ ls) rest := by
  induction ls generalizing front with
  | nil => rw [List.nil_append, List.append_nil]
  | cons l ls ih =>
      rw [← List.singleton_append, ← List.append_assoc] at tabs spaces ⊢
      have open_still : ¬Enough (front ++ [l]) := by
        rintro ⟨-, indented⟩
        rw [tabbed_append, Nat.add_eq_zero_iff] at tabs
        rw [runs_append, List.append_eq_nil_iff] at spaces
        exact indented.elim (· tabs.1) (· spaces.1)
      rw [List.append_assoc, List.singleton_append, windowFrom,
        if_neg fun stop => open_still stop.2, ih tabs spaces]

/-! ### The number of spaces -/

theorem mem_windowFrom {front rest : List Look} {l : Look} (mem : l ∈ windowFrom front rest) :
    l ∈ front ∨ l ∈ rest := by
  induction rest generalizing front with
  | nil => exact .inl mem
  | cons l' rest ih =>
      have either : l ∈ front ++ [l'] ∨ l ∈ rest := by
        rw [windowFrom] at mem
        split at mem
        · exact .inl mem
        · exact ih mem
      simpa [or_assoc] using either

theorem spaces_le (text : TextBuffer) (line : Line) :
    spaces (contentUnits text line) ≤ text.length := by
  rw [spaces, contentUnits, TextBuffer.chunk_eq]
  refine Nat.le_trans (List.takeWhile_prefix _).length_le ?_
  rw [List.length_take, List.length_drop, TextBuffer.length_units]
  omega

/-- A line starts with no more spaces than the text has code units. -/
theorem runs_le {n : Nat} {index : LineIndex}
    (mem : n ∈ runs (window (looks branchAt text index root))) :
    1 < n ∧ n ≤ text.length := by
  obtain ⟨mem, many⟩ := List.mem_filter.mp mem
  obtain ⟨l, inside, counts⟩ := List.mem_filterMap.mp mem
  obtain ⟨us, rfl, rfl⟩ := Option.map_eq_some_iff.mp counts
  have seen := (mem_windowFrom inside).resolve_left List.not_mem_nil
  obtain ⟨line, -, same⟩ := List.mem_map.mp seen
  refine ⟨of_decide_eq_true many, ?_⟩
  rw [look] at same
  split at same
  · cases same
  · cases same
    exact spaces_le text line

/-- The verdict on some lines names the least run of spaces among them. -/
theorem verdict_space {n : Nat} (short : ∀ m ∈ runs ls, m < wordLimit)
    (said : verdict ls = .space n) :
    n ∈ runs ls ∧ ∀ m ∈ runs ls, n ≤ m := by
  rw [verdict, Tally.decide] at said
  split at said
  · cases said
  · next indented =>
      split at said
      · cases said
      · next fewer =>
          cases said
          obtain ⟨mem, least⟩ := fewest_mem_and_le ls
          refine ⟨?_, fun m mem => least m (List.mem_cons_of_mem _ mem)⟩
          rcases List.mem_cons.mp mem with last | run
          · obtain ⟨m, run⟩ : ∃ m, m ∈ runs ls := by
              refine List.exists_mem_of_ne_nil _ fun none => indented ⟨?_, ?_⟩
              · exact Nat.le_zero.mp (Nat.le_trans (Nat.not_lt.mp fewer) (by simp [tally, none]))
              · simp [tally, none]
            have atLeast := least m (List.mem_cons_of_mem _ run)
            have below := short m run
            rw [last] at atLeast ⊢
            obtain rfl : m = wordLimit - 1 := by omega
            exact run
          · exact run

/-- Documents of at least a hundred lines that agree on lines within which the search ends are said
to be indented alike. Where they are said to be indented by spaces, it is by the least run of more
than one in the lines that were looked at. -/
theorem detection_windowed {branchAt branchAt' : Node → Point → Branch} {text text' : TextBuffer}
    {index index' : LineIndex} {root root' : Node}
    (long : lineLimit ≤ index.lineCount) (long' : lineLimit ≤ index'.lineCount)
    (short : text.length < wordLimit) :
    (∀ common, common <+: looks branchAt text index root →
      common <+: looks branchAt' text' index' root' →
      Settles common → detectIndent branchAt text index root =
        detectIndent branchAt' text' index' root') ∧
    ∀ n, detectIndent branchAt text index root = .space n →
      2 ≤ n ∧ n ∈ runs (window (looks branchAt text index root)) ∧
        ∀ m ∈ runs (window (looks branchAt text index root)), n ≤ m := by
  constructor
  · intro common part part' settles
    rw [detectIndent_eq long, detectIndent_eq long', window_eq_of_prefix part settles,
      window_eq_of_prefix part' settles]
  · intro n said
    rw [detectIndent_eq long] at said
    have least := verdict_space (fun m mem => Nat.lt_of_le_of_lt (runs_le mem).2 short) said
    exact ⟨(runs_le least.1).1, least⟩

/-- A line that is indented by a tab above ninety-nine empty ones, and what stands below. -/
def tabAbove (below : List Char) : TextBuffer :=
  ⟨['\t', 'x', '\n'] ++ List.replicate 99 '\n' ++ below⟩

/-- Two words on two lines, indented by some spaces. -/
def twoLines (n : Nat) : List Char :=
  List.replicate n ' ' ++ ['x', '\n'] ++ List.replicate n ' ' ++ ['y']

/-- A tree that knows no comments. -/
def wordsOnly : Node := ⟨"source", true, .start, .start, []⟩

/-- The tree itself is found at every point. -/
def rootOnly (root : Node) (_ : Point) : Branch := [root]

/-- The index of a text that was read anew. -/
def indexOf (text : TextBuffer) : LineIndex := (LineIndex.empty 12.0).rebuild text

/-- The first line with content behind the hundredth ends the search. -/
theorem detection_windowed_of_tabAbove :
    let indented := tabAbove ('x' :: '\n' :: twoLines 2)
    let plain := tabAbove ('x' :: '\n' :: twoLines 0)
    detectIndent rootOnly indented (indexOf indented) wordsOnly =
      detectIndent rootOnly plain (indexOf plain) wordsOnly := by
  intro indented plain
  have settles : Settles (some [9, 120] :: List.replicate 99 none ++ [some [120]]) :=
    ⟨some [9, 120] :: List.replicate 99 none, [120], List.prefix_rfl, by decide +kernel⟩
  have windowed := (@detection_windowed rootOnly rootOnly indented plain (indexOf indented)
    (indexOf plain) wordsOnly
    wordsOnly (by decide +kernel) (by decide +kernel) (by decide +kernel)).1
  exact windowed _ (by decide +kernel) (by decide +kernel) settles

/-- A hundred lines of which the first is indented do not end it. -/
example :
    let indented := tabAbove (twoLines 2)
    let plain := tabAbove (twoLines 0)
    (looks rootOnly indented (indexOf indented) wordsOnly).take lineLimit =
        (looks rootOnly plain (indexOf plain) wordsOnly).take lineLimit ∧
      detectIndent rootOnly indented (indexOf indented) wordsOnly = .space 2 ∧
      detectIndent rootOnly plain (indexOf plain) wordsOnly = .tab := by
  decide +kernel

end CodeEditor.Syntax.IndentDetection

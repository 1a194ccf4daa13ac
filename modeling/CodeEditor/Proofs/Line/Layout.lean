import CodeEditor.Line.Delimiter
import CodeEditor.Proofs.Text.Units
import Mathlib.Algebra.Ring.Nat

/-!
How code units fall into lines.

`Lines shapes us` says that the lines of `us` have the given lengths: each but the last is some
content without CR and LF and a delimiter, and the delimiter is the longest there is, so that no
line that ends in CR stands in front of one that starts with LF (`Joins`). `Closed` says the same of
some first lines, all of which have a delimiter. Lists of lines that do not join can be put together
and taken apart (`Closed.append_lines`, `Lines.split`), and the lines of a text are unique
(`Lines.unique`).

`Breaks` is what `delimiters` finds in a text (`breaks_delimiters`), from which `lineLengths` reads
off the lines (`lines_lineLengths`).
-/

namespace CodeEditor

/-- The length of a line and of its delimiter, which is part of it. -/
structure LineShape where
  total : Nat
  delimiter : Nat
deriving DecidableEq

/-- Neither CR nor LF is among the code units. -/
def NoBreak (us : List UInt16) : Prop := carriageReturn ∉ us ∧ lineFeed ∉ us

/-- The code units are those of a delimiter. -/
def IsDelimiter (us : List UInt16) : Prop :=
  us = [lineFeed] ∨ us = [carriageReturn] ∨ us = [carriageReturn, lineFeed]

/-- A CR at the end of one and an LF at the start of the other would be one delimiter. -/
def Joins (us vs : List UInt16) : Prop :=
  us.getLast? = some carriageReturn ∧ vs.head? = some lineFeed

/-- Whole lines, each with a delimiter. -/
inductive Closed : List LineShape → List UInt16 → Prop
  | nil : Closed [] []
  | cons {content delimiter rest : List UInt16} {shapes : List LineShape} :
      NoBreak content → IsDelimiter delimiter → ¬Joins delimiter rest → Closed shapes rest →
      Closed (⟨content.length + delimiter.length, delimiter.length⟩ :: shapes)
        (content ++ delimiter ++ rest)

/-- The lines of a text. -/
inductive Lines : List LineShape → List UInt16 → Prop
  | last {content : List UInt16} : NoBreak content → Lines [⟨content.length, 0⟩] content
  | cons {content delimiter rest : List UInt16} {shapes : List LineShape} :
      NoBreak content → IsDelimiter delimiter → ¬Joins delimiter rest → Lines shapes rest →
      Lines (⟨content.length + delimiter.length, delimiter.length⟩ :: shapes)
        (content ++ delimiter ++ rest)

/-! ### Delimiters -/

theorem noBreak_append {us vs : List UInt16} : NoBreak (us ++ vs) ↔ NoBreak us ∧ NoBreak vs := by
  simp only [NoBreak, List.mem_append, not_or]
  exact ⟨fun ⟨⟨a, b⟩, c, d⟩ => ⟨⟨a, c⟩, b, d⟩, fun ⟨⟨a, c⟩, b, d⟩ => ⟨⟨a, b⟩, c, d⟩⟩

theorem NoBreak.head_ne {us : List UInt16} (h : NoBreak us) : us.head? ≠ some lineFeed :=
  fun eq => h.2 (List.mem_of_head? eq)

theorem NoBreak.getLast_ne {us : List UInt16} (h : NoBreak us) :
    us.getLast? ≠ some carriageReturn := fun eq => h.1 (List.mem_of_getLast? eq)

theorem IsDelimiter.ne_nil {us : List UInt16} (h : IsDelimiter us) : us ≠ [] := by
  rcases h with rfl | rfl | rfl <;> simp

theorem IsDelimiter.length_pos {us : List UInt16} (h : IsDelimiter us) : 0 < us.length :=
  List.length_pos_iff.mpr h.ne_nil

theorem IsDelimiter.not_noBreak {us : List UInt16} (h : IsDelimiter us) : ¬NoBreak us := by
  rcases h with rfl | rfl | rfl <;> simp [NoBreak]

theorem joins_append_left {us vs ws : List UInt16} (notEmpty : vs ≠ []) :
    Joins (us ++ vs) ws ↔ Joins vs ws := by
  rw [Joins, Joins, List.getLast?_append, List.getLast?_eq_some_getLast notEmpty, Option.some_or]

theorem joins_append_right {us vs ws : List UInt16} (notEmpty : vs ≠ []) :
    Joins us (vs ++ ws) ↔ Joins us vs := by
  rw [Joins, Joins, List.head?_append, List.head?_eq_some_head notEmpty, Option.some_or]

/-- Only a line that is a lone LF joins with what stands in front of it. -/
theorem Joins.line_eq {us content delimiter : List UInt16} (joins : Joins us (content ++ delimiter))
    (plain : NoBreak content) (ends : IsDelimiter delimiter) :
    content ++ delimiter = [lineFeed] := by
  cases content with
  | nil => rcases ends with rfl | rfl | rfl <;> simp_all [Joins, lineFeed, carriageReturn]
  | cons u content => exact absurd joins.2 (plain.head_ne)

theorem not_joins_nil (us : List UInt16) : ¬Joins us [] := fun h => by cases h.2

theorem nil_not_joins (us : List UInt16) : ¬Joins [] us := fun h => by cases h.1

/-- What joins behind a delimiter and some text joins behind one of them. -/
theorem not_joins_append {us vs ws : List UInt16} (apart : ¬Joins (us ++ vs) ws) :
    ¬Joins vs ws := by
  intro joins
  cases vs with
  | nil => exact nil_not_joins ws joins
  | cons v vs => exact apart ((joins_append_left (List.cons_ne_nil v vs)).mpr joins)

theorem not_joins_of_append {us vs ws : List UInt16} (apart : ¬Joins us vs)
    (apart' : ¬Joins (us ++ vs) ws) : ¬Joins us (vs ++ ws) := by
  cases vs with
  | nil => simpa using apart'
  | cons v vs => rwa [joins_append_right (List.cons_ne_nil v vs)]

/-! ### Putting lines together and taking them apart -/

theorem Closed.append {shapes shapes' : List LineShape} {us vs : List UInt16}
    (h : Closed shapes us) (h' : Closed shapes' vs) (apart : ¬Joins us vs) :
    Closed (shapes ++ shapes') (us ++ vs) := by
  induction h with
  | nil => exact h'
  | cons plain ends apartHere _ ih =>
      rw [List.append_assoc]
      refine .cons plain ends (not_joins_of_append apartHere ?_) (ih (not_joins_append apart))
      rw [List.append_assoc] at apart
      exact not_joins_append apart

/-- Whole lines in front of the lines of a text. -/
theorem Closed.append_lines {shapes shapes' : List LineShape} {us vs : List UInt16}
    (h : Closed shapes us) (h' : Lines shapes' vs) (apart : ¬Joins us vs) :
    Lines (shapes ++ shapes') (us ++ vs) := by
  induction h with
  | nil => exact h'
  | cons plain ends apartHere _ ih =>
      rw [List.append_assoc]
      refine .cons plain ends (not_joins_of_append apartHere ?_) (ih (not_joins_append apart))
      rw [List.append_assoc] at apart
      exact not_joins_append apart

/-- The total length of some lines. -/
def totalOf (shapes : List LineShape) : Nat := (shapes.map (·.total)).sum

@[simp] theorem totalOf_nil : totalOf [] = 0 := rfl

@[simp] theorem totalOf_cons (shape : LineShape) (shapes : List LineShape) :
    totalOf (shape :: shapes) = shape.total + totalOf shapes := by
  simp [totalOf]

theorem Closed.length_eq {shapes : List LineShape} {us : List UInt16} (h : Closed shapes us) :
    us.length = totalOf shapes := by
  induction h with
  | nil => rfl
  | cons _ _ _ _ ih =>
      rw [totalOf_cons, List.length_append, List.length_append, ih]

theorem Lines.length_eq {shapes : List LineShape} {us : List UInt16} (h : Lines shapes us) :
    us.length = totalOf shapes := by
  induction h with
  | last _ => simp
  | cons _ _ _ _ ih =>
      rw [totalOf_cons, List.length_append, List.length_append, ih]

theorem Lines.ne_nil {shapes : List LineShape} {us : List UInt16} (h : Lines shapes us) :
    shapes ≠ [] := by
  cases h <;> simp

/-- In front of each line stand whole lines that do not join with it. -/
theorem Lines.split {front shapes : List LineShape} {us : List UInt16}
    (h : Lines (front ++ shapes) us) (notEmpty : shapes ≠ []) :
    ∃ before rest, us = before ++ rest ∧ Closed front before ∧ Lines shapes rest ∧
      ¬Joins before rest := by
  induction front generalizing us with
  | nil => exact ⟨[], us, rfl, .nil, h, nil_not_joins us⟩
  | cons shape front ih =>
      generalize same : shape :: front ++ shapes = all at h
      cases h with
      | last _ => simp [notEmpty] at same
      | @cons content delimiter rest tail plain ends apart below =>
          obtain ⟨rfl, rfl⟩ := List.cons.inj same
          obtain ⟨before, rest, rfl, closed, lines, apart'⟩ := ih below
          have apartHere : ¬Joins delimiter before := fun joins => apart
            (by cases before with
              | nil => exact absurd joins (not_joins_nil _)
              | cons u before => exact (joins_append_right (List.cons_ne_nil u before)).mpr joins)
          refine ⟨content ++ delimiter ++ before, rest, by simp, .cons plain ends apartHere closed,
            lines, ?_⟩
          cases before with
          | nil =>
              rw [List.append_nil, joins_append_left ends.ne_nil]
              exact apart
          | cons u before => rwa [joins_append_left (List.cons_ne_nil u before)]

theorem closed_single {content delimiter : List UInt16} (plain : NoBreak content)
    (ends : IsDelimiter delimiter) :
    Closed [⟨content.length + delimiter.length, delimiter.length⟩] (content ++ delimiter) := by
  have h := Closed.cons plain ends (not_joins_nil delimiter) .nil
  rwa [List.append_nil] at h

/-- Whole lines that end in a CR have it as the delimiter of the last of them. -/
theorem Closed.last_return {shapes : List LineShape} {us : List UInt16} (h : Closed shapes us)
    (ends : us.getLast? = some carriageReturn) :
    ∃ front before content, shapes = front ++ [⟨content.length + 1, 1⟩] ∧
      us = before ++ (content ++ [carriageReturn]) ∧ Closed front before ∧ NoBreak content ∧
      ¬Joins before (content ++ [carriageReturn]) := by
  induction h with
  | nil => cases ends
  | @cons content delimiter rest shapes plain isEnd apart below ih =>
      cases below with
      | nil =>
          rcases isEnd with rfl | rfl | rfl
          · simp [lineFeed, carriageReturn] at ends
          · exact ⟨[], [], content, rfl, by simp, .nil, plain, nil_not_joins _⟩
          · simp [lineFeed, carriageReturn] at ends
      | @cons content' delimiter' rest' shapes' plain' isEnd' apart' below' =>
          have filled : content' ++ delimiter' ++ rest' ≠ [] := by simp [isEnd'.ne_nil]
          rw [List.getLast?_append, List.getLast?_eq_some_getLast filled, Option.some_or,
            ← List.getLast?_eq_some_getLast filled] at ends
          obtain ⟨front, before, line, shapesEq, unitsEq, closed, plainLine, apartLine⟩ := ih ends
          rw [unitsEq] at apart
          refine ⟨_ :: front, content ++ delimiter ++ before, line, ?_, ?_,
            .cons plain isEnd ?_ closed, plainLine, ?_⟩
          · rw [shapesEq]
            rfl
          · rw [unitsEq]
            simp
          · exact fun joins => apart (by
              cases before with
              | nil => exact absurd joins (not_joins_nil _)
              | cons u before => exact (joins_append_right (List.cons_ne_nil u before)).mpr joins)
          · cases before with
            | nil => simpa [joins_append_left isEnd.ne_nil] using apart
            | cons u before => rwa [joins_append_left (List.cons_ne_nil u before)]

/-- What is left of a delimiter is one. -/
theorem IsDelimiter.of_append {us vs : List UInt16} (ends : IsDelimiter (us ++ vs))
    (notEmpty : vs ≠ []) : IsDelimiter vs := by
  cases us with
  | nil => exact ends
  | cons u us =>
      rcases ends with lf | cr | crlf
      · simp_all
      · simp_all
      · obtain ⟨-, rest⟩ := List.cons.inj crlf
        rcases List.append_eq_singleton_iff.mp rest with ⟨-, rfl⟩ | ⟨-, rfl⟩
        · exact .inl rfl
        · exact absurd rfl notEmpty

/-- Other content in place of what a first line starts with. -/
theorem Lines.replace_front {total delimiter : Nat} {shapes : List LineShape}
    {front rest content : List UInt16} (h : Lines (⟨total, delimiter⟩ :: shapes) (front ++ rest))
    (inside : front.length < total ∨ shapes = [] ∧ front.length ≤ total) (plain : NoBreak content) :
    ∃ delimiter', Lines (⟨content.length + (total - front.length), delimiter'⟩ :: shapes)
      (content ++ rest) := by
  generalize shapesEq : (⟨total, delimiter⟩ :: shapes : List LineShape) = all at h
  generalize unitsEq : front ++ rest = us at h
  cases h with
  | last plainHere =>
      obtain ⟨same, rfl⟩ := List.cons.inj shapesEq
      obtain ⟨rfl, rfl⟩ := LineShape.mk.inj same
      rw [← unitsEq, List.length_append, Nat.add_sub_cancel_left, ← List.length_append]
      rw [← unitsEq] at plainHere
      exact ⟨0, .last (noBreak_append.mpr ⟨plain, (noBreak_append.mp plainHere).2⟩)⟩
  | @cons line delimiter' below _ plainHere ends apart lines =>
      obtain ⟨same, rfl⟩ := List.cons.inj shapesEq
      obtain ⟨rfl, rfl⟩ := LineShape.mk.inj same
      have inside : front.length < line.length + delimiter'.length :=
        inside.resolve_right fun ⟨empty, _⟩ => lines.ne_nil empty
      rw [List.append_assoc] at unitsEq
      rcases List.append_eq_append_iff.mp unitsEq with ⟨kept, rfl, rfl⟩ | ⟨into, rfl, behind⟩
      · -- The content of the line goes on behind the front.
        have plain' := noBreak_append.mpr ⟨plain, (noBreak_append.mp plainHere).2⟩
        have lines' := Lines.cons plain' ends apart lines
        refine ⟨delimiter'.length, ?_⟩
        rw [show content.length + (((front ++ kept).length + delimiter'.length) - front.length) =
          (content ++ kept).length + delimiter'.length by simp only [List.length_append]; omega]
        simpa using lines'
      · -- The front reaches into the delimiter, of which something is left.
        rcases List.append_eq_append_iff.mp behind with ⟨extra, rfl, -⟩ | ⟨left, rfl, rfl⟩
        · simp only [List.length_append] at inside
          omega
        · have filled : left ≠ [] := by
            rintro rfl
            simp at inside
          have lines' := Lines.cons plain (ends.of_append filled) (not_joins_append apart) lines
          refine ⟨left.length, ?_⟩
          rw [show content.length + ((line.length + (into ++ left).length) -
            (line ++ into).length) =
            content.length + left.length by simp only [List.length_append]; omega]
          simpa using lines'

/-- Other content in place of some lines and of what the next line starts with. -/
theorem Lines.replace_lines {total delimiter : Nat} {front shapes : List LineShape}
    {us rest content : List UInt16} (h : Lines (front ++ ⟨total, delimiter⟩ :: shapes) (us ++ rest))
    (behind : totalOf front ≤ us.length)
    (inside : us.length < totalOf front + total ∨ shapes = [] ∧ us.length = totalOf front + total)
    (plain : NoBreak content) :
    ∃ delimiter', Lines
      (⟨content.length + (totalOf front + total - us.length), delimiter'⟩ :: shapes)
      (content ++ rest) := by
  obtain ⟨before, lines, units, closed, below, -⟩ := h.split (List.cons_ne_nil _ _)
  have len := closed.length_eq
  obtain ⟨between, rfl⟩ := List.prefix_of_prefix_length_le (List.prefix_append before lines)
    (units ▸ List.prefix_append us rest) (len ▸ behind)
  rw [List.append_assoc] at units
  obtain rfl := List.append_cancel_left units
  rw [List.length_append] at inside
  have inside : between.length < total ∨ shapes = [] ∧ between.length ≤ total := by
    rcases inside with inside | ⟨last, atEnd⟩
    · exact .inl (by omega)
    · exact .inr ⟨last, by omega⟩
  obtain ⟨delimiter', lines⟩ := below.replace_front inside plain
  refine ⟨delimiter', ?_⟩
  rwa [List.length_append, len, Nat.add_sub_add_left]

/-- Inside a line CR and LF can be parted only where the line ends in both. -/
theorem Lines.parted {total delimiter : Nat} {shapes : List LineShape} {front rest : List UInt16}
    (h : Lines (⟨total, delimiter⟩ :: shapes) (front ++ rest)) (inside : front.length < total)
    (broken : ¬NoBreak front) :
    ∃ content below, front = content ++ [carriageReturn] ∧ rest = lineFeed :: below ∧
      total = content.length + 2 ∧ delimiter = 2 ∧ NoBreak content ∧ Lines shapes below := by
  generalize shapesEq : (⟨total, delimiter⟩ :: shapes : List LineShape) = all at h
  generalize unitsEq : front ++ rest = us at h
  cases h with
  | last plain =>
      rw [← unitsEq] at plain
      exact absurd (noBreak_append.mp plain).1 broken
  | @cons content delimiter' below _ plain ends apart lines =>
      obtain ⟨same, rfl⟩ := List.cons.inj shapesEq
      obtain ⟨rfl, rfl⟩ := LineShape.mk.inj same
      rw [List.append_assoc] at unitsEq
      rcases List.append_eq_append_iff.mp unitsEq with ⟨left, rfl, -⟩ | ⟨into, rfl, behind⟩
      · exact absurd (noBreak_append.mp plain).1 broken
      · rw [List.length_append] at inside
        have reaches : into ≠ [] := by
          rintro rfl
          exact broken (by simpa using plain)
        have pos := List.length_pos_iff.mpr reaches
        rcases ends with rfl | rfl | rfl
        · rw [List.length_singleton] at inside
          omega
        · rw [List.length_singleton] at inside
          omega
        · have one : into.length = 1 := by
            rw [List.length_cons, List.length_singleton] at inside
            omega
          obtain ⟨u, rfl⟩ := List.length_eq_one_iff.mp one
          obtain ⟨rfl, after⟩ := List.cons.inj behind
          exact ⟨content, below, rfl, after.symm, rfl, rfl, plain, lines⟩

/-- What a text starts with without CR and LF is content of its first line, and not all of the line
if the text goes on. -/
theorem Lines.content_le {total delimiter : Nat} {shapes : List LineShape}
    {content rest : List UInt16} (h : Lines (⟨total, delimiter⟩ :: shapes) (content ++ rest))
    (plain : NoBreak content) :
    content.length ≤ total - delimiter ∧ (rest ≠ [] → content.length < total) := by
  generalize shapesEq : (⟨total, delimiter⟩ :: shapes : List LineShape) = all at h
  generalize unitsEq : content ++ rest = us at h
  cases h with
  | last _ =>
      obtain ⟨same, -⟩ := List.cons.inj shapesEq
      obtain ⟨rfl, rfl⟩ := LineShape.mk.inj same
      rw [← unitsEq, List.length_append]
      refine ⟨by omega, fun more => ?_⟩
      have filled := List.length_pos_iff.mpr more
      omega
  | @cons line delimiter' below _ _ ends _ _ =>
      obtain ⟨same, -⟩ := List.cons.inj shapesEq
      obtain ⟨rfl, rfl⟩ := LineShape.mk.inj same
      have pos := ends.length_pos
      rw [List.append_assoc] at unitsEq
      rcases List.append_eq_append_iff.mp unitsEq with ⟨left, rfl, -⟩ | ⟨into, rfl, behind⟩
      · rw [List.length_append]
        exact ⟨by omega, fun _ => by omega⟩
      · -- Nothing of the delimiter can be in the content.
        cases into with
        | nil =>
            rw [List.append_nil]
            exact ⟨by omega, fun _ => by omega⟩
        | cons u into =>
            refine absurd (noBreak_append.mp plain).2 fun plain => ?_
            rcases ends with rfl | rfl | rfl <;>
              simp_all [NoBreak]

/-- The only line of a text is all of it. -/
theorem Lines.noBreak_of_single {shape : LineShape} {us : List UInt16} (h : Lines [shape] us) :
    NoBreak us := by
  generalize shapesEq : [shape] = all at h
  cases h with
  | last plain => exact plain
  | cons _ _ _ lines =>
      obtain ⟨-, rfl⟩ := List.cons.inj shapesEq
      exact absurd rfl lines.ne_nil

/-- Content in front of a text becomes part of its first line. -/
theorem Lines.prepend {total delimiter : Nat} {shapes : List LineShape} {us content : List UInt16}
    (h : Lines (⟨total, delimiter⟩ :: shapes) us) (plain : NoBreak content) :
    Lines (⟨content.length + total, delimiter⟩ :: shapes) (content ++ us) := by
  generalize shapesEq : (⟨total, delimiter⟩ :: shapes : List LineShape) = all at h
  cases h with
  | last plain' =>
      obtain ⟨same, rfl⟩ := List.cons.inj shapesEq
      obtain ⟨rfl, rfl⟩ := LineShape.mk.inj same
      rw [← List.length_append]
      exact .last (noBreak_append.mpr ⟨plain, plain'⟩)
  | cons plain' ends apart lines =>
      obtain ⟨same, rfl⟩ := List.cons.inj shapesEq
      obtain ⟨rfl, rfl⟩ := LineShape.mk.inj same
      rw [← Nat.add_assoc, ← List.length_append, ← List.append_assoc, ← List.append_assoc]
      exact .cons (noBreak_append.mpr ⟨plain, plain'⟩) ends apart lines

/-! ### The lines of a text are unique -/

/-- The first delimiter of a text stands at one place only, and is one only. -/
theorem first_delimiter_unique {content content' delimiter delimiter' rest rest' : List UInt16}
    (plain : NoBreak content) (plain' : NoBreak content') (ends : IsDelimiter delimiter)
    (ends' : IsDelimiter delimiter') (apart : ¬Joins delimiter rest)
    (apart' : ¬Joins delimiter' rest')
    (same : content ++ delimiter ++ rest = content' ++ delimiter' ++ rest') :
    content = content' ∧ delimiter = delimiter' ∧ rest = rest' := by
  induction content generalizing content' with
  | nil =>
      cases content' with
      | nil =>
          rcases ends with rfl | rfl | rfl <;> rcases ends' with rfl | rfl | rfl <;>
            grind [Joins, lineFeed, carriageReturn]
      | cons u content' =>
          rcases ends with rfl | rfl | rfl <;> simp_all [NoBreak]
  | cons u content ih =>
      cases content' with
      | nil => rcases ends' with rfl | rfl | rfl <;> simp_all [NoBreak]
      | cons u' content' =>
          obtain ⟨rfl, same⟩ := List.cons.inj same
          have plain := (noBreak_append.mp (show NoBreak ([u] ++ content) from plain)).2
          have plain' := (noBreak_append.mp (show NoBreak ([u] ++ content') from plain')).2
          obtain ⟨rfl, eqs⟩ := ih plain plain' (by simpa using same)
          exact ⟨rfl, eqs⟩

theorem Lines.unique {shapes shapes' : List LineShape} {us : List UInt16} (h : Lines shapes us)
    (h' : Lines shapes' us) : shapes = shapes' := by
  induction h generalizing shapes' with
  | last plain =>
      cases h' with
      | last _ => rfl
      | cons _ ends =>
          exact absurd (noBreak_append.mp (noBreak_append.mp plain).1).2 ends.not_noBreak
  | @cons content delimiter rest shapes plain ends apart _ ih =>
      generalize whole : content ++ delimiter ++ rest = us at h'
      cases h' with
      | last plain' =>
          rw [← whole] at plain'
          exact absurd (noBreak_append.mp (noBreak_append.mp plain').1).2 ends.not_noBreak
      | cons plain' ends' apart' below =>
          obtain ⟨rfl, rfl, rfl⟩ :=
            first_delimiter_unique plain plain' ends ends' apart apart' whole
          rw [ih below]

/-! ### The delimiters of a text -/

/-- The delimiters of a text that starts at an offset. -/
inductive Breaks : Nat → List UInt16 → List TextRange → Prop
  | none {offset : Nat} {us : List UInt16} : NoBreak us → Breaks offset us []
  | next {offset : Nat} {content delimiter rest : List UInt16} {ranges : List TextRange} :
      NoBreak content → IsDelimiter delimiter → ¬Joins delimiter rest →
      Breaks (offset + content.length + delimiter.length) rest ranges →
      Breaks offset (content ++ delimiter ++ rest)
        (⟨offset + content.length, delimiter.length⟩ :: ranges)

theorem Breaks.eq_nil {offset : Nat} {ranges : List TextRange} (h : Breaks offset [] ranges) :
    ranges = [] := by
  generalize empty : ([] : List UInt16) = us at h
  cases h with
  | none _ => rfl
  | next _ ends _ _ => simp [ends.ne_nil] at empty

theorem Breaks.noBreak {offset : Nat} {us : List UInt16} (h : Breaks offset us []) :
    NoBreak us := by
  cases h with
  | none plain => exact plain

/-- Content in front of a text moves all its delimiters. -/
theorem Breaks.append {offset : Nat} {content us : List UInt16} {ranges : List TextRange}
    (plain : NoBreak content) (h : Breaks (offset + content.length) us ranges) :
    Breaks offset (content ++ us) ranges := by
  generalize start : offset + content.length = behind at h
  cases h with
  | none plain' => exact .none (noBreak_append.mpr ⟨plain, plain'⟩)
  | @next _ content' delimiter rest ranges plain' ends apart below =>
      have whole := noBreak_append.mpr ⟨plain, plain'⟩
      have moved : offset + (content ++ content').length = behind + content'.length := by
        rw [List.length_append]
        omega
      have h := @Breaks.next offset _ _ _ ranges whole ends apart (by rwa [moved])
      rwa [moved, List.append_assoc, List.append_assoc, ← List.append_assoc content'] at h

theorem noBreak_units {c : Char} (notReturn : c ≠ '\r') (notFeed : c ≠ '\n') :
    NoBreak (Utf16.units c) := by
  have notReturn : c.toNat ≠ 13 := by
    intro h
    exact notReturn (Char.toNat_inj.mp h)
  have notFeed : c.toNat ≠ 10 := by
    intro h
    exact notFeed (Char.toNat_inj.mp h)
  have bound : c.toNat < 0x110000 := by
    rcases c.valid with h | h
    · exact Nat.lt_trans h (by decide)
    · exact h.2
  unfold Utf16.units
  split <;> simp [NoBreak, carriageReturn, lineFeed, ← UInt16.toNat_inj] <;> omega

/-- A text that starts with the unit of LF starts with LF. -/
theorem exists_of_head_encode {cs : List Char} (h : (Utf16.encode cs).head? = some lineFeed) :
    ∃ rest, cs = '\n' :: rest := by
  cases cs with
  | nil => cases h
  | cons c rest =>
      by_cases feed : c = '\n'
      · exact ⟨rest, by rw [feed]⟩
      · by_cases ret : c = '\r'
        · rw [ret] at h
          cases h
        · have filled : Utf16.units c ≠ [] := by
            intro empty
            have := Utf16.length_units c
            have := Utf16.width_pos c
            simp_all
          rw [Utf16.encode_cons, List.head?_append, List.head?_eq_some_head filled,
            Option.some_or, ← List.head?_eq_some_head filled] at h
          exact absurd h (noBreak_units ret feed).head_ne

theorem breaks_delimitersFrom (offset : Nat) (cs : List Char) :
    Breaks offset (Utf16.encode cs) (delimitersFrom offset cs) := by
  fun_induction delimitersFrom offset cs with
  | case1 offset => exact .none ⟨by simp, by simp⟩
  | case2 offset rest ih =>
      exact @Breaks.next offset [] [carriageReturn, lineFeed] _ _ ⟨by simp, by simp⟩
        (.inr (.inr rfl))
        (fun joins => by simp [Joins, lineFeed, carriageReturn] at joins) ih
  | case3 offset c rest notPair isBreak ih =>
      rcases isBreak with rfl | rfl
      · refine @Breaks.next offset [] [carriageReturn] _ _ ⟨by simp, by simp⟩ (.inr (.inl rfl))
          (fun joins => ?_) ih
        obtain ⟨rest', eq⟩ := exists_of_head_encode joins.2
        exact notPair rest' rfl eq
      · exact @Breaks.next offset [] [lineFeed] _ _ ⟨by simp, by simp⟩ (.inl rfl)
          (fun joins => by simp [Joins, lineFeed, carriageReturn] at joins) ih
  | case4 offset c rest notPair plain ih =>
      obtain ⟨notReturn, notFeed⟩ := not_or.mp plain
      exact .append (noBreak_units notReturn notFeed) (by rwa [Utf16.length_units])

/-- `delimiters` finds all delimiters of a text. -/
theorem breaks_delimiters (cs : List Char) : Breaks 0 (Utf16.encode cs) (delimiters cs) :=
  breaks_delimitersFrom 0 cs

/-- The length of a line from the lengths of its content and its delimiter. -/
def LineShape.of (lengths : Nat × Nat) : LineShape := ⟨lengths.1 + lengths.2, lengths.2⟩

theorem lines_lineLengths_go {cs : List Char} {start : Nat} {us : List UInt16}
    {ranges : List TextRange} (h : Breaks start us ranges)
    (ends : start + us.length = Utf16.length cs) :
    Lines ((lineLengths.go cs start ranges).map LineShape.of) us := by
  induction h with
  | none plain =>
      have lines := Lines.last plain
      rwa [← Nat.sub_eq_of_eq_add' ends.symm] at lines
  | @next offset content delimiter rest ranges plain isEnd apart _ ih =>
      have below := ih (by rw [← ends]; simp only [List.length_append]; omega)
      rw [lineLengths.go, List.map_cons, LineShape.of, Nat.add_sub_cancel_left]
      exact .cons plain isEnd apart below

/-- The lengths that `lineLengths` finds are those of the lines. -/
theorem lines_lineLengths (cs : List Char) :
    Lines ((lineLengths cs).map LineShape.of) (Utf16.encode cs) :=
  lines_lineLengths_go (breaks_delimiters cs) (by rw [Utf16.length_encode, Nat.zero_add])

end CodeEditor

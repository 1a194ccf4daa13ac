import CodeEditor.Proofs.Line.Changes

/-!
The stronger change of a line counts.

A line is removed, inserted, edited or left alone, from the strongest to the weakest. Changes that
marks and unions lead to say one of these of every line (`Reachable.apart`), and a union says the
stronger one of what the two say (`strength_union`). So unions are the least upper bounds of a
semilattice: neither the order nor the grouping matters in which the changes of several edits are
put together, nor the order in which the sets list their lines (`union_semilattice`).
-/

namespace CodeEditor

/-- How strong a change of a line is. No change is the weakest. -/
def LineChange.strength : Option LineChange → Nat
  | none => 0
  | some .edited => 1
  | some .inserted => 2
  | some .removed => 3

open LineChange (strength)

theorem LineChange.eq_of_strength_eq {k k' : Option LineChange} (same : strength k = strength k') :
    k = k' := by
  revert same
  rcases k with _ | _ | _ | _ <;> rcases k' with _ | _ | _ | _ <;> decide

theorem LineSet.sameAs_iff {s t : LineSet} : s.sameAs t = true ↔ ∀ id, id ∈ s ↔ id ∈ t := by
  rw [sameAs, Bool.and_eq_true, List.all_eq_true, List.all_eq_true]
  simp only [decide_eq_true_eq, ← mem_def]
  exact ⟨fun ⟨there, back⟩ id => ⟨there id, back id⟩, fun same =>
    ⟨fun id => (same id).mp, fun id => (same id).mpr⟩⟩

namespace LineChanges

variable {a b c d e : LineChanges} {id : LineId}

/-- No line is in two of the three sets. -/
structure Apart (c : LineChanges) : Prop where
  inserted_removed : ∀ id ∈ c.inserted, id ∉ c.removed
  inserted_edited : ∀ id ∈ c.inserted, id ∉ c.edited
  removed_edited : ∀ id ∈ c.removed, id ∉ c.edited

/-- Changes that marks and unions lead to. -/
inductive Reachable : LineChanges → Prop
  | none : Reachable none
  | markInserted {c : LineChanges} (id : LineId) : Reachable c → Reachable (c.markInserted id)
  | markRemoved {c : LineChanges} (id : LineId) : Reachable c → Reachable (c.markRemoved id)
  | markEdited {c : LineChanges} (id : LineId) : Reachable c → Reachable (c.markEdited id)
  | union {c d : LineChanges} : Reachable c → Reachable d → Reachable (c.union d)

theorem sameAs_iff : c.sameAs d = true ↔ ∀ id, (id ∈ c.inserted ↔ id ∈ d.inserted) ∧
    (id ∈ c.removed ↔ id ∈ d.removed) ∧ (id ∈ c.edited ↔ id ∈ d.edited) := by
  rw [sameAs, Bool.and_eq_true, Bool.and_eq_true, LineSet.sameAs_iff, LineSet.sameAs_iff,
    LineSet.sameAs_iff]
  exact ⟨fun ⟨⟨inserted, removed⟩, edited⟩ id => ⟨inserted id, removed id, edited id⟩, fun same =>
    ⟨⟨fun id => (same id).1, fun id => (same id).2.1⟩, fun id => (same id).2.2⟩⟩

/-! ### One change of a line -/

theorem kind?_of_sameAs (same : c.sameAs d = true) (id : LineId) : c.kind? id = d.kind? id := by
  obtain ⟨inserted, removed, edited⟩ := sameAs_iff.mp same id
  simp only [kind?, inserted, removed, edited]

namespace Apart

theorem of_sameAs (apart : c.Apart) (same : d.sameAs c = true) : d.Apart := by
  have same := sameAs_iff.mp same
  constructor
  · intro id inserted removed
    exact apart.inserted_removed id ((same id).1.mp inserted) ((same id).2.1.mp removed)
  · intro id inserted edited
    exact apart.inserted_edited id ((same id).1.mp inserted) ((same id).2.2.mp edited)
  · intro id removed edited
    exact apart.removed_edited id ((same id).2.1.mp removed) ((same id).2.2.mp edited)

/-- The kind of a change says which set a line is in. -/
theorem mem_iff (apart : c.Apart) (id : LineId) :
    (id ∈ c.inserted ↔ c.kind? id = some .inserted) ∧
      (id ∈ c.removed ↔ c.kind? id = some .removed) ∧
      (id ∈ c.edited ↔ c.kind? id = some .edited) := by
  have inserted_removed := apart.inserted_removed id
  have inserted_edited := apart.inserted_edited id
  have removed_edited := apart.removed_edited id
  rw [kind?]
  split
  · next removed => simp_all
  · split
    · next inserted => simp_all
    · split <;> simp_all

/-- Changes that say the same of every line have the same sets. -/
theorem sameAs (apart : c.Apart) (apart' : d.Apart)
    (same : ∀ id, strength (c.kind? id) = strength (d.kind? id)) : c.sameAs d = true := by
  refine sameAs_iff.mpr fun id => ?_
  obtain ⟨inserted, removed, edited⟩ := apart.mem_iff id
  obtain ⟨inserted', removed', edited'⟩ := apart'.mem_iff id
  rw [inserted, removed, edited, inserted', removed', edited',
    LineChange.eq_of_strength_eq (same id)]
  exact ⟨.rfl, .rfl, .rfl⟩

theorem none : none.Apart :=
  ⟨fun id mem => absurd mem (not_mem_inserted_none id),
    fun id mem => absurd mem (not_mem_inserted_none id),
    fun id mem => absurd mem (not_mem_removed_none id)⟩

theorem markInserted (apart : c.Apart) (line : LineId) : (c.markInserted line).Apart := by
  obtain ⟨inserted_removed, inserted_edited, removed_edited⟩ := apart
  constructor <;> intro id <;> simp only [LineChanges.markInserted, LineSet.mem_insert,
    LineSet.mem_erase] <;> grind

theorem markRemoved (apart : c.Apart) (line : LineId) : (c.markRemoved line).Apart := by
  obtain ⟨inserted_removed, inserted_edited, removed_edited⟩ := apart
  constructor <;> intro id <;> simp only [LineChanges.markRemoved, LineSet.mem_insert,
    LineSet.mem_erase] <;> grind

theorem markEdited (apart : c.Apart) (line : LineId) : (c.markEdited line).Apart := by
  obtain ⟨inserted_removed, inserted_edited, removed_edited⟩ := apart
  rw [LineChanges.markEdited]
  split
  · exact ⟨inserted_removed, inserted_edited, removed_edited⟩
  · constructor <;> intro id <;> simp only [LineSet.mem_insert] <;> grind

theorem union (apart : c.Apart) (apart' : d.Apart) : (c.union d).Apart := by
  obtain ⟨inserted_removed, inserted_edited, removed_edited⟩ := apart
  obtain ⟨inserted_removed', inserted_edited', removed_edited'⟩ := apart'
  constructor <;> intro id <;> simp only [mem_inserted_union, mem_removed_union,
    mem_edited_union] <;>
    grind

end Apart

theorem Reachable.apart (reachable : Reachable c) : c.Apart := by
  induction reachable with
  | none => exact .none
  | markInserted id _ ih => exact ih.markInserted id
  | markRemoved id _ ih => exact ih.markRemoved id
  | markEdited id _ ih => exact ih.markEdited id
  | union _ _ ih ih' => exact ih.union ih'

/-! ### Unions -/

/-- A union says the stronger one of what the two say of a line. -/
theorem strength_union (apart : c.Apart) (apart' : d.Apart) (id : LineId) :
    strength ((c.union d).kind? id) = max (strength (c.kind? id)) (strength (d.kind? id)) := by
  obtain ⟨inserted, removed, edited⟩ := apart.mem_iff id
  obtain ⟨inserted', removed', edited'⟩ := apart'.mem_iff id
  rw [kind?]
  simp only [mem_removed_union, mem_inserted_union, mem_edited_union, inserted, removed, edited,
    inserted', removed', edited']
  -- What remains is a table of two changes of one line.
  generalize c.kind? id = first
  generalize d.kind? id = second
  rcases first with _ | _ | _ | _ <;> rcases second with _ | _ | _ | _ <;> simp [strength]

/-- A union is the weakest of all changes that are at least as strong as both. -/
theorem strength_union_le {n : Nat} (apart : c.Apart) (apart' : d.Apart) :
    strength ((c.union d).kind? id) ≤ n ↔ strength (c.kind? id) ≤ n ∧
    strength (d.kind? id) ≤ n := by
  rw [strength_union apart apart', Nat.max_le]

/-- The changes of several edits, put together one after the other. -/
theorem strength_foldl_union_le (edits : List LineChanges) (apart : c.Apart)
    (each : ∀ edit ∈ edits, edit.Apart) :
    (edits.foldl union c).Apart ∧ ∀ id n, strength ((edits.foldl union c).kind? id) ≤ n ↔
      strength (c.kind? id) ≤ n ∧ ∀ edit ∈ edits, strength (edit.kind? id) ≤ n := by
  induction edits generalizing c with
  | nil => exact ⟨apart, fun id n => by simp⟩
  | cons edit edits ih =>
      obtain ⟨here, rest⟩ := List.forall_mem_cons.mp each
      obtain ⟨apart', bound⟩ := ih (apart.union here) rest
      refine ⟨apart', fun id n => ?_⟩
      rw [List.foldl_cons, bound, strength_union_le apart here, List.forall_mem_cons, and_assoc]

/-- A way to put the changes of several edits together two by two. -/
inductive Grouping where
  | single (edit : LineChanges)
  | both (front back : Grouping)

namespace Grouping

/-- The changes of the edits. -/
def edits : Grouping → List LineChanges
  | .single edit => [edit]
  | .both front back => front.edits ++ back.edits

/-- The changes put together. -/
def together : Grouping → LineChanges
  | .single edit => edit
  | .both front back => front.together.union back.together

theorem strength_together_le (g : Grouping) (each : ∀ edit ∈ g.edits, edit.Apart) :
    g.together.Apart ∧ ∀ id n, strength (g.together.kind? id) ≤ n ↔
      ∀ edit ∈ g.edits, strength (edit.kind? id) ≤ n := by
  induction g with
  | single edit =>
      refine ⟨each edit (List.mem_singleton_self edit), fun id n => ?_⟩
      rw [together, edits, List.forall_mem_singleton]
  | both front back ihFront ihBack =>
      obtain ⟨inFront, inBack⟩ := List.forall_mem_append.mp each
      obtain ⟨apart, bound⟩ := ihFront inFront
      obtain ⟨apart', bound'⟩ := ihBack inBack
      refine ⟨apart.union apart', fun id n => ?_⟩
      rw [together, edits, List.forall_mem_append, strength_union_le apart apart', bound, bound']

/-- However the changes of some edits are grouped and in whatever order they come, they are the
same. -/
theorem sameAs_foldl (g : Grouping) {edits : List LineChanges} (same : g.edits.Perm edits)
    (each : ∀ edit ∈ edits, edit.Apart) :
    g.together.sameAs (edits.foldl LineChanges.union LineChanges.none) = true := by
  obtain ⟨apart, bound⟩ := g.strength_together_le fun edit mem => each edit (same.mem_iff.mp mem)
  obtain ⟨apart', bound'⟩ := strength_foldl_union_le edits .none each
  have bounds (id : LineId) (n : Nat) : strength (g.together.kind? id) ≤ n ↔
      strength ((edits.foldl LineChanges.union LineChanges.none).kind? id) ≤ n := by
    rw [bound, bound']
    simp only [same.mem_iff]
    exact (and_iff_right (Nat.zero_le n)).symm
  refine apart.sameAs apart' fun id => ?_
  exact Nat.le_antisymm ((bounds id _).mpr (Nat.le_refl _)) ((bounds id _).mp (Nat.le_refl _))

end Grouping

/-- What holds of unions of changes. -/
structure Semilattice (a b c : LineChanges) : Prop where
  /-- No line is in two of the sets. -/
  apart : a.Apart
  /-- Every line has the stronger of its two changes. -/
  stronger : ∀ id,
    strength ((a.union b).kind? id) = max (strength (a.kind? id)) (strength (b.kind? id))
  assoc : ((a.union b).union c).sameAs (a.union (b.union c)) = true
  comm : (a.union b).sameAs (b.union a) = true
  idem : (a.union a).sameAs a = true
  none_union : (none.union a).sameAs a = true
  union_none : (a.union none).sameAs a = true
  /-- The order in which the sets list their lines does not matter. -/
  listing : ∀ a' b' : LineChanges, a'.sameAs a = true → b'.sameAs b = true →
    (a'.union b').sameAs (a.union b) = true

/-- Unions of changes that marks and unions lead to are least upper bounds, and so are the changes
of a run of edits, however they are put together. -/
theorem union_semilattice (reachA : Reachable a) (reachB : Reachable b) (reachC : Reachable c) :
    Semilattice a b c ∧ ∀ (g : Grouping) (edits : List LineChanges), g.edits.Perm edits →
      (∀ edit ∈ edits, Reachable edit) → g.together.sameAs (edits.foldl union none) = true := by
  have apartA := reachA.apart
  have apartB := reachB.apart
  have apartC := reachC.apart
  refine ⟨⟨apartA, strength_union apartA apartB, ?assoc, ?comm, ?idem, ?left, ?right,
    ?listing⟩, ?runs⟩
  case assoc =>
    refine ((apartA.union apartB).union apartC).sameAs
      (apartA.union (apartB.union apartC)) fun id => ?_
    rw [strength_union (apartA.union apartB) apartC, strength_union apartA apartB,
      strength_union apartA (apartB.union apartC), strength_union apartB apartC, Nat.max_assoc]
  case comm =>
    refine (apartA.union apartB).sameAs (apartB.union apartA) fun id => ?_
    rw [strength_union apartA apartB, strength_union apartB apartA, Nat.max_comm]
  case idem =>
    refine (apartA.union apartA).sameAs apartA fun id => ?_
    rw [strength_union apartA apartA, Nat.max_self]
  case left =>
    refine (Apart.none.union apartA).sameAs apartA fun id => ?_
    rw [strength_union .none apartA]
    exact Nat.zero_max _
  case right =>
    rw [LineChanges.union_none]
    exact apartA.sameAs apartA fun _ => rfl
  case listing =>
    intro a' b' sameA sameB
    have apartA' := apartA.of_sameAs sameA
    have apartB' := apartB.of_sameAs sameB
    refine (apartA'.union apartB').sameAs (apartA.union apartB) fun id => ?_
    rw [strength_union apartA' apartB', strength_union apartA apartB, kind?_of_sameAs sameA,
      kind?_of_sameAs sameB]
  case runs =>
    intro g edits same each
    exact g.sameAs_foldl same fun edit mem => (each edit mem).apart

/-- One edit removes a line, the next inserts it and a third edits it and another. The line stays
removed, whichever two are put together first. -/
theorem semilattice_of_removed_line :
    ∃ a b c : LineChanges, Reachable a ∧ Reachable b ∧ Reachable c ∧ Semilattice a b c ∧
      (a.union b).kind? ⟨0, 0⟩ = some .removed ∧ (b.union c).kind? ⟨0, 0⟩ = some .inserted ∧
      (c.union a).kind? ⟨1, 0⟩ = some .edited ∧
      ((b.union c).union a).sameAs (((none.union a).union b).union c) = true := by
  let a := none.markRemoved ⟨0, 0⟩
  let b := none.markInserted ⟨0, 0⟩
  let c := (none.markEdited ⟨0, 0⟩).markEdited ⟨1, 0⟩
  have removes : Reachable a := .markRemoved _ .none
  have inserts : Reachable b := .markInserted _ .none
  have edits : Reachable c := .markEdited _ (.markEdited _ .none)
  obtain ⟨laws, runs⟩ := union_semilattice removes inserts edits
  have turned : ([b, c] ++ [a]).Perm ([a] ++ [b, c]) := List.perm_append_comm
  refine ⟨a, b, c, removes, inserts, edits, laws, by decide, by decide, by decide, ?_⟩
  refine runs (.both (.both (.single b) (.single c)) (.single a)) [a, b, c] turned ?_
  simp [removes, inserts, edits]

end LineChanges

end CodeEditor

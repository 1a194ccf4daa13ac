import CodeEditor.Proofs.Line.Changes
import CodeEditor.Proofs.Line.Store
import Mathlib.Data.List.Nodup

/-!
Changes that tell what became of the lines of a store.

`Tracks` says of two stores and some changes that the changes tell the truth about how the lines of
the one became those of the other. One update, one new line and the erasure of some lines each have
changes that do (`Tracks.of_update`, `Tracks.of_insert`, `Tracks.of_erase`), and what is done in two
parts is told by the union of what the parts tell (`Tracks.union`).

A line may come and go within one edit, and its slot may be used again. That the identity of a
removed line is not that of another one is due to the generations: `Tracks` counts how often a slot
has been given back at most (`Aged`), and an identity is dead as long as its slot has not gone
through all of them (`Spent.not_mem`).
-/

namespace CodeEditor

namespace LineStore

variable {s s' s₀ s₁ s₂ : LineStore} {id : LineId} {m m' : LineMetrics} {n k : Nat} {height : Float}
  {c d : LineChanges} {front rest gone : List (LineId × LineMetrics)}

/-! ### Generations -/

/-- Every slot has moved on by at most some number of generations. -/
def Aged (n : Nat) (s s' : LineStore) : Prop :=
  ∀ (slot : Nat) (g : UInt32), s.generations[slot]? = some g →
    ∃ k ≤ n, s'.generations[slot]? = some (g + UInt32.ofNat k)

/-- The slot of an identity has moved on, by at most some number of generations. -/
def Spent (n : Nat) (s : LineStore) (id : LineId) : Prop :=
  ∃ k, 0 < k ∧ k ≤ n ∧ s.generations[id.slot]? = some (id.generation + UInt32.ofNat k)

/-- The slots of some lines have moved on by one generation, and no other slot has. -/
def Freed (lines : List LineId) (s s' : LineStore) : Prop :=
  ∀ (slot : Nat) (g : UInt32), s.generations[slot]? = some g →
    s'.generations[slot]? = some (if slot ∈ lines.map (·.slot) then g + 1 else g)

theorem Aged.refl (s : LineStore) : Aged 0 s s := by
  intro slot g there
  exact ⟨0, Nat.le_refl 0, by simpa using there⟩

theorem Aged.trans (first : Aged n s₀ s₁) (second : Aged k s₁ s₂) : Aged (n + k) s₀ s₂ := by
  intro slot g there
  obtain ⟨i, boundI, there⟩ := first slot g there
  obtain ⟨j, boundJ, there⟩ := second slot _ there
  refine ⟨i + j, Nat.add_le_add boundI boundJ, ?_⟩
  rw [there, UInt32.ofNat_add, UInt32.add_assoc]

theorem Aged.mono (aged : Aged n s s') (le : n ≤ k) : Aged k s s' := by
  intro slot g there
  obtain ⟨i, bound, there⟩ := aged slot g there
  exact ⟨i, Nat.le_trans bound le, there⟩

theorem Spent.mono (spent : Spent n s id) (le : n ≤ k) : Spent k s id := by
  obtain ⟨i, pos, bound, there⟩ := spent
  exact ⟨i, pos, Nat.le_trans bound le, there⟩

/-- What is spent stays spent. -/
theorem Spent.aged (spent : Spent n s id) (aged : Aged k s s') : Spent (n + k) s' id := by
  obtain ⟨i, pos, bound, there⟩ := spent
  obtain ⟨j, boundJ, there⟩ := aged _ _ there
  refine ⟨i + j, Nat.add_pos_left pos j, Nat.add_le_add bound boundJ, ?_⟩
  rw [there, UInt32.ofNat_add, UInt32.add_assoc]

/-- No line has a spent identity, unless its slot has gone through all generations. -/
theorem Spent.not_mem (spent : Spent n s id) (valid : s.Valid) (few : n < UInt32.size) :
    id ∉ s.ids := by
  intro mem
  obtain ⟨line, inside, rfl⟩ := List.mem_map.mp mem
  obtain ⟨i, pos, bound, there⟩ := spent
  rw [valid.holds.generations line inside, Option.some.injEq] at there
  have zero : UInt32.ofNat i = 0 := by
    have cancel : line.1.generation + UInt32.ofNat i = line.1.generation + 0 := by
      rw [← there, UInt32.add_zero]
    exact (UInt32.add_right_inj _).mp cancel
  have small : (UInt32.ofNat i).toNat = i := UInt32.toNat_ofNat_of_lt' (by omega)
  rw [zero] at small
  exact absurd small (Nat.ne_of_lt pos)

theorem Freed.aged {lines : List LineId} (freed : Freed lines s s') : Aged 1 s s' := by
  intro slot g there
  have there' := freed slot g there
  split at there'
  · exact ⟨1, Nat.le_refl 1, there'⟩
  · exact ⟨0, Nat.zero_le 1, by simpa using there'⟩

theorem Freed.aged_of_nil (freed : Freed [] s s') : Aged 0 s s' := by
  intro slot g there
  exact ⟨0, Nat.le_refl 0, by simpa using freed slot g there⟩

theorem Freed.trans_cons {lines : List LineId} (first : Freed [id] s₀ s₁)
    (second : Freed lines s₁ s₂)
    (other : id.slot ∉ lines.map (·.slot)) : Freed (id :: lines) s₀ s₂ := by
  intro slot g there
  have there₁ := first slot g there
  have there₂ := second slot _ there₁
  rw [there₂]
  by_cases same : slot = id.slot
  · subst same
    simp [other]
  · simp [same]

/-! ### What the operations do to the slots -/

theorem generations_update? {f : LineMetrics → LineMetrics} (step : s.update? id f = some s') :
    s'.generations = s.generations := by
  obtain ⟨place, -, rfl⟩ := Option.map_eq_some_iff.mp step
  rfl

theorem freed_erase? (step : s.erase? id = some s') : Freed [id] s s' := by
  obtain ⟨place, -, step⟩ := Option.bind_eq_some_iff.mp step
  split at step
  · cases step
  · cases step
    intro slot g there
    rw [release, Array.getElem?_modify, there]
    by_cases same : id.slot = slot
    · simp [same]
    · simp [same, Ne.symm same]

theorem freed_allocate (s : LineStore) : Freed [] s s.allocate.2 := by
  intro slot g there
  have bound := (Array.getElem?_eq_some_iff.mp there).1
  rw [List.map_nil, if_neg (List.not_mem_nil), allocate]
  split
  · exact there
  · rw [Array.getElem?_push_lt bound, ← there, Array.getElem?_eq_getElem bound]

theorem freed_insertAfter? {new : LineId} (step : s.insertAfter? id m = some (new, s')) :
    Freed [] s s' := by
  obtain ⟨place, -, step⟩ := Option.map_eq_some_iff.mp step
  obtain rfl := congrArg Prod.snd step
  exact freed_allocate s

/-! ### Lines and their identities -/

theorem mem_ids : id ∈ s.ids ↔ ∃ m, (id, m) ∈ s.toList := by
  simp [ids]

theorem filter_mem_eq_self {l l' : List LineId} (inside : ∀ id ∈ l, id ∈ l') :
    l.filter (· ∈ l') = l := by
  apply List.filter_eq_self.mpr
  intro id mem
  exact decide_eq_true (inside id mem)

/-- What lists share that differ by a piece in the middle has the same order in both. -/
theorem filter_mem_of_middle {above gone below : List LineId}
    (apart : ∀ id ∈ gone, id ∉ above ++ below) :
    (above ++ (gone ++ below)).filter (· ∈ above ++ below) =
      (above ++ below).filter (· ∈ above ++ (gone ++ below)) := by
  have whole : (above ++ below).filter (· ∈ above ++ (gone ++ below)) = above ++ below := by
    apply filter_mem_eq_self
    intro id mem
    rw [List.mem_append] at mem
    rw [List.mem_append, List.mem_append]
    exact mem.imp_right .inr
  have nothing : gone.filter (· ∈ above ++ below) = [] := by
    apply List.filter_eq_nil_iff.mpr
    intro id mem
    simpa using apart id mem
  rw [whole, List.filter_append, List.filter_append, nothing, List.nil_append,
    filter_mem_eq_self fun _ => List.mem_append_left below,
    filter_mem_eq_self fun _ => List.mem_append_right above]

/-- Lists of which each shares its order with the next do so with the one after that. -/
theorem filter_mem_trans {first second third : List LineId}
    (order : first.filter (· ∈ second) = second.filter (· ∈ first))
    (order' : second.filter (· ∈ third) = third.filter (· ∈ second))
    (through : ∀ id ∈ first, id ∈ third → id ∈ second) :
    first.filter (· ∈ third) = third.filter (· ∈ first) := by
  calc first.filter (· ∈ third)
      = (first.filter (· ∈ second)).filter (· ∈ third) := by
        rw [List.filter_filter]
        apply List.filter_congr
        intro id old
        have := through id old
        grind
    _ = (second.filter (· ∈ third)).filter (· ∈ first) := by
        rw [order, List.filter_filter, List.filter_filter]
        simp only [Bool.and_comm]
    _ = third.filter (· ∈ first) := by
        rw [order', List.filter_filter]
        apply List.filter_congr
        intro id new
        have := fun old => through id old new
        grind

/-- An identity is that of one line. -/
theorem Valid.metrics_unique (valid : s.Valid) (here : (id, m) ∈ s.toList)
    (there : (id, m') ∈ s.toList) : m' = m :=
  congrArg Prod.snd (List.inj_on_of_nodup_map valid.holds.nodup_ids there here rfl)

/-- The changes tell what became of the lines of a store: which there are that there were not, which
are gone, and which have another text. What they leave out is as it was, the lines that stay do so
in their order and with their heights, and the others have a given height. -/
structure Tracks (height : Float) (n : Nat) (s s' : LineStore) (c : LineChanges) : Prop where
  inserted : ∀ id, id ∈ c.inserted ↔ id ∈ s'.ids ∧ id ∉ s.ids
  removed : ∀ id ∈ s.ids, id ∉ s'.ids → id ∈ c.removed
  spent : ∀ id ∈ c.removed, Spent n s' id
  edited : ∀ id ∈ c.edited, id ∈ s.ids ∧ id ∈ s'.ids
  kept : ∀ id m m', (id, m) ∈ s.toList → (id, m') ∈ s'.toList →
    m'.height = m.height ∧ (id ∉ c.edited → m' = m)
  fresh : ∀ id m, (id, m) ∈ s'.toList → id ∉ s.ids → m.height = height
  order : s.ids.filter (· ∈ s'.ids) = s'.ids.filter (· ∈ s.ids)
  aged : Aged n s s'

namespace Tracks

theorem mono (tracks : Tracks height n s s' c) (le : n ≤ k) : Tracks height k s s' c :=
  { tracks with
    spent := fun id mem => (tracks.spent id mem).mono le
    aged := tracks.aged.mono le }

/-- A removed line is gone. -/
theorem not_mem_of_removed (tracks : Tracks height n s s' c) (valid : s'.Valid)
    (few : n < UInt32.size) (mem : id ∈ c.removed) : id ∉ s'.ids :=
  (tracks.spent id mem).not_mem valid few

/-! ### One step -/

theorem refl (valid : s.Valid) : Tracks height 0 s s .none where
  inserted id := by simp
  removed id mem gone := absurd mem gone
  spent id mem := absurd mem (LineChanges.not_mem_removed_none id)
  edited id mem := absurd mem (LineChanges.not_mem_edited_none id)
  kept id m m' here there := by
    obtain rfl := valid.metrics_unique here there
    exact ⟨rfl, fun _ => rfl⟩
  fresh id m mem new := absurd (mem_ids.mpr ⟨m, mem⟩) new
  order := rfl
  aged := .refl s

/-- The text of one line changes. -/
theorem of_update (valid : s.Valid) (lines : s.toList = front ++ (id, m) :: rest)
    (lines' : s'.toList = front ++ (id, m') :: rest) (same : m'.height = m.height)
    (generations : s'.generations = s.generations) :
    Tracks height 0 s s' (LineChanges.none.markEdited id) := by
  have ids : s'.ids = s.ids := by simp [LineStore.ids, lines, lines']
  have mem : id ∈ s.ids := by simp [LineStore.ids, lines]
  constructor
  case inserted =>
    intro other
    simp [ids, LineChanges.markEdited]
  case removed =>
    intro other there gone
    exact absurd (ids ▸ there) gone
  case spent =>
    intro other marked
    simp [LineChanges.markEdited] at marked
  case edited =>
    intro other marked
    obtain rfl : other = id := by simpa [LineChanges.markEdited] using marked
    exact ⟨mem, ids ▸ mem⟩
  case kept =>
    intro other a b here there
    by_cases this : other = id
    · subst this
      obtain rfl : a = m := valid.metrics_unique (by simp [lines]) here
      have distinct : (s'.toList.map (·.1)).Nodup := by
        have ids : s'.toList.map (·.1) = s.ids := ids
        rw [ids]
        exact valid.holds.nodup_ids
      obtain rfl : b = m' := congrArg Prod.snd
        (List.inj_on_of_nodup_map distinct there (by simp [lines'] : (other, m') ∈ s'.toList) rfl)
      refine ⟨same, fun unmarked => absurd ?_ unmarked⟩
      simp [LineChanges.markEdited]
    · have there : (other, b) ∈ s.toList := by
        rw [lines'] at there
        rw [lines]
        simpa [this] using there
      obtain rfl := valid.metrics_unique here there
      exact ⟨rfl, fun _ => rfl⟩
  case fresh =>
    intro other a there new
    exact absurd (ids ▸ mem_ids.mpr ⟨a, there⟩) new
  case order => rw [ids]
  case aged =>
    intro slot g there
    exact ⟨0, Nat.le_refl 0, by simpa [generations] using there⟩

/-- A line appears. -/
theorem of_insert {new : LineId} (valid' : s'.Valid) (lines : s.toList = front ++ rest)
    (lines' : s'.toList = front ++ (new, m) :: rest) (unused : new ∉ s.ids)
    (measured : m.height = height) (freed : Freed [] s s') :
    Tracks height 0 s s' (LineChanges.none.markInserted new) := by
  have sub : ∀ line ∈ s.toList, line ∈ s'.toList := by
    intro line mem
    rw [lines, List.mem_append] at mem
    rw [lines', List.mem_append, List.mem_cons]
    exact mem.imp_right .inr
  have all : ∀ other, other ∈ s'.ids ↔ other ∈ s.ids ∨ other = new := by
    intro other
    simp only [LineStore.ids, lines, lines', List.map_append, List.map_cons, List.mem_append,
      List.mem_cons]
    tauto
  have ids : s.ids = front.map (·.1) ++ rest.map (·.1) := by simp [LineStore.ids, lines]
  have ids' : s'.ids = front.map (·.1) ++ new :: rest.map (·.1) := by simp [LineStore.ids, lines']
  constructor
  case inserted =>
    intro other
    rw [all]
    simp only [LineChanges.markInserted, LineSet.mem_insert, LineChanges.not_mem_inserted_none,
      or_false]
    constructor
    · rintro rfl
      exact ⟨.inr rfl, unused⟩
    · rintro ⟨there | same, other⟩
      · exact absurd there other
      · exact same
  case removed =>
    intro other there gone
    exact absurd ((all other).mpr (.inl there)) gone
  case spent =>
    intro other marked
    simp [LineChanges.markInserted] at marked
  case edited =>
    intro other marked
    simp [LineChanges.markInserted] at marked
  case kept =>
    intro other a b here there
    obtain rfl := valid'.metrics_unique (sub _ here) there
    exact ⟨rfl, fun _ => rfl⟩
  case fresh =>
    intro other a there notOld
    rcases (all other).mp (mem_ids.mpr ⟨a, there⟩) with old | rfl
    · exact absurd old notOld
    · obtain rfl := valid'.metrics_unique (show (other, m) ∈ s'.toList by simp [lines']) there
      exact measured
  case order =>
    rw [ids, ids']
    apply Eq.symm (@filter_mem_of_middle _ [new] _ _)
    intro other mem
    rw [List.mem_singleton.mp mem, ← ids]
    exact unused
  case aged => exact freed.aged_of_nil

/-- Some lines go. -/
theorem of_erase (valid : s.Valid) (lines : s.toList = front ++ (gone ++ rest))
    (lines' : s'.toList = front ++ rest) (freed : Freed (gone.map (·.1)) s s')
    (removed : ∀ id, id ∈ c.removed ↔ id ∈ gone.map (·.1)) (inserted : ∀ id, id ∉ c.inserted)
    (edited : ∀ id, id ∉ c.edited) : Tracks height 1 s s' c := by
  have ids : s.ids = front.map (·.1) ++ (gone.map (·.1) ++ rest.map (·.1)) := by
    simp [LineStore.ids, lines]
  have ids' : s'.ids = front.map (·.1) ++ rest.map (·.1) := by simp [LineStore.ids, lines']
  have distinct := valid.holds.nodup_ids
  replace distinct : s.ids.Nodup := distinct
  rw [ids] at distinct
  obtain ⟨-, below, apartFront⟩ := List.nodup_append.mp distinct
  obtain ⟨-, -, apartRest⟩ := List.nodup_append.mp below
  have sub : ∀ line ∈ s'.toList, line ∈ s.toList := by
    intro line mem
    rw [lines', List.mem_append] at mem
    rw [lines, List.mem_append, List.mem_append]
    exact mem.imp_right .inr
  have out : ∀ id ∈ gone.map (·.1), id ∉ s'.ids := by
    intro id mem there
    rw [ids', List.mem_append] at there
    rcases there with above | below
    · exact apartFront id above id (List.mem_append_left _ mem) rfl
    · exact apartRest id mem id below rfl
  constructor
  case inserted =>
    intro id
    constructor
    · intro mem
      exact absurd mem (inserted id)
    · rintro ⟨there, new⟩
      obtain ⟨m, mem⟩ := mem_ids.mp there
      exact absurd (mem_ids.mpr ⟨m, sub _ mem⟩) new
  case removed =>
    intro id mem out
    rw [ids, List.mem_append, List.mem_append] at mem
    rw [ids', List.mem_append] at out
    rw [removed]
    tauto
  case spent =>
    intro id mem
    rw [removed] at mem
    obtain ⟨line, inside, rfl⟩ := List.mem_map.mp mem
    have here := valid.holds.generations line (by rw [lines]; simp [inside])
    refine ⟨1, Nat.one_pos, Nat.le_refl 1, ?_⟩
    rw [freed _ _ here, if_pos (List.mem_map_of_mem mem)]
    rfl
  case edited =>
    intro id mem
    exact absurd mem (edited id)
  case kept =>
    intro id m m' here there
    obtain rfl := valid.metrics_unique here (sub _ there)
    exact ⟨rfl, fun _ => rfl⟩
  case fresh =>
    intro id m there new
    exact absurd (mem_ids.mpr ⟨m, sub _ there⟩) new
  case order =>
    rw [ids, ids']
    rw [ids'] at out
    exact filter_mem_of_middle out
  case aged => exact freed.aged

/-! ### Two steps -/

/-- A line that is there before and after was there in between. -/
theorem mem_between (first : Tracks height n s₀ s₁ c) (second : Tracks height k s₁ s₂ d)
    (valid : s₂.Valid) (few : n + k < UInt32.size) (old : id ∈ s₀.ids) (new : id ∈ s₂.ids) :
    id ∈ s₁.ids := by
  by_contra out
  exact ((first.spent id (first.removed id old out)).aged second.aged).not_mem valid few new

theorem spent_union (first : Tracks height n s₀ s₁ c) (second : Tracks height k s₁ s₂ d)
    (mem : id ∈ (c.union d).removed) : Spent (n + k) s₂ id := by
  rcases LineChanges.mem_removed_union.mp mem with before | after
  · exact (first.spent id before).aged second.aged
  · exact (second.spent id after).mono (Nat.le_add_left k n)

theorem inserted_union (first : Tracks height n s₀ s₁ c) (second : Tracks height k s₁ s₂ d)
    (valid : s₂.Valid) (few : n + k < UInt32.size) :
    id ∈ (c.union d).inserted ↔ id ∈ s₂.ids ∧ id ∉ s₀.ids := by
  rw [LineChanges.mem_inserted_union, first.inserted, second.inserted]
  constructor
  · rintro ⟨notGone, ⟨mid, new⟩ | ⟨⟨there, new⟩, stayed⟩⟩
    · refine ⟨?_, new⟩
      by_contra out
      exact notGone (second.removed id mid out)
    · exact ⟨there, fun old => stayed (first.removed id old new)⟩
  · rintro ⟨there, new⟩
    have alive : id ∉ (c.union d).removed := fun mem =>
      (spent_union first second mem).not_mem valid few there
    rw [LineChanges.mem_removed_union, not_or] at alive
    refine ⟨alive.2, ?_⟩
    by_cases mid : id ∈ s₁.ids
    · exact .inl ⟨mid, new⟩
    · exact .inr ⟨⟨there, mid⟩, alive.1⟩

/-- A line that stays over two parts without being edited is as it was. -/
theorem kept_union (first : Tracks height n s₀ s₁ c) (second : Tracks height k s₁ s₂ d)
    (valid : s₂.Valid) (few : n + k < UInt32.size) {m₀ m₂ : LineMetrics}
    (here : (id, m₀) ∈ s₀.toList) (there : (id, m₂) ∈ s₂.toList) :
    m₂.height = m₀.height ∧ (id ∉ (c.union d).edited → m₂ = m₀) := by
  have old : id ∈ s₀.ids := mem_ids.mpr ⟨m₀, here⟩
  have new : id ∈ s₂.ids := mem_ids.mpr ⟨m₂, there⟩
  obtain ⟨m₁, between⟩ := mem_ids.mp (mem_between first second valid few old new)
  obtain ⟨height₁, same₁⟩ := first.kept id m₀ m₁ here between
  obtain ⟨height₂, same₂⟩ := second.kept id m₁ m₂ between there
  refine ⟨height₂.trans height₁, fun unmarked => ?_⟩
  rw [LineChanges.mem_edited_union] at unmarked
  have mid : id ∉ d.inserted := by
    rw [second.inserted]
    exact fun ⟨_, out⟩ => out (mem_ids.mpr ⟨m₁, between⟩)
  have stays : id ∉ (c.union d).inserted := by
    rw [inserted_union first second valid few]
    exact fun ⟨_, out⟩ => out old
  have alive : id ∉ (c.union d).removed := fun mem =>
    (spent_union first second mem).not_mem valid few new
  have notAfter : id ∉ d.removed := fun mem =>
    alive (LineChanges.mem_removed_union.mpr (.inr mem))
  rw [same₂ fun edited => unmarked (.inr ⟨edited, stays, alive⟩),
    same₁ fun edited => unmarked (.inl ⟨edited, notAfter, fun new => mid new.1⟩)]

/-- What is done in two parts is told by the union of what the parts tell. -/
theorem union (first : Tracks height n s₀ s₁ c) (second : Tracks height k s₁ s₂ d)
    (valid : s₂.Valid) (few : n + k < UInt32.size) : Tracks height (n + k) s₀ s₂ (c.union d) := by
  constructor
  case inserted =>
    intro id
    exact inserted_union first second valid few
  case removed =>
    intro id old out
    rw [LineChanges.mem_removed_union]
    by_cases mid : id ∈ s₁.ids
    · exact .inr (second.removed id mid out)
    · exact .inl (first.removed id old mid)
  case spent =>
    intro id mem
    exact spent_union first second mem
  case edited =>
    intro id mem
    rw [LineChanges.mem_edited_union] at mem
    rcases mem with ⟨edited, notGone, -⟩ | ⟨edited, notNew, notGone⟩
    · obtain ⟨old, mid⟩ := first.edited id edited
      refine ⟨old, ?_⟩
      by_contra out
      exact notGone (second.removed id mid out)
    · obtain ⟨-, there⟩ := second.edited id edited
      refine ⟨?_, there⟩
      by_contra new
      exact notNew ((inserted_union first second valid few).mpr ⟨there, new⟩)
  case kept =>
    intro id m₀ m₂ here there
    exact kept_union first second valid few here there
  case fresh =>
    intro id m there new
    by_cases mid : id ∈ s₁.ids
    · obtain ⟨m₁, between⟩ := mem_ids.mp mid
      rw [(second.kept id m₁ m between there).1]
      exact first.fresh id m₁ between new
    · exact second.fresh id m there mid
  case order =>
    apply filter_mem_trans first.order second.order
    intro id old new
    exact mem_between first second valid few old new
  case aged => exact first.aged.trans second.aged

/-- A line that is put in after other changes. -/
theorem markInserted (first : Tracks height n s₀ s₁ c)
    (second : Tracks height 0 s₁ s₂ (LineChanges.none.markInserted id)) (valid : s₂.Valid)
    (few : n < UInt32.size) : Tracks height n s₀ s₂ (c.markInserted id) := by
  have there : id ∈ s₂.ids := by
    refine ((second.inserted id).mp ?_).1
    simp [LineChanges.markInserted]
  have unspent : id ∉ c.removed := by
    intro mem
    exact ((first.spent id mem).aged second.aged).not_mem valid few there
  rw [← LineChanges.union_markInserted unspent]
  exact first.union second valid few

end Tracks

end LineStore

end CodeEditor

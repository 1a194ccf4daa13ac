import CodeEditor.Proofs.Arena.Building
import CodeEditor.Proofs.Arena.Slots
import CodeEditor.Proofs.Arena.Unlinking
import CodeEditor.Proofs.Line.Store

/-!
The store of lines in memory.

An arena represents a store (`LineArena.Represents`) when its links spell the store's tree and its
slots are the store's. Each operation does the same to both, unless the sums leave the machine word;
then the operation on the arena has no value.
-/

namespace CodeEditor

namespace LineArena

variable {a base : LineArena} {s : LineStore} {t : LineTree} {used : List Nat} {id : LineId}
  {m : LineMetrics}

/-- An arena holds a store in its slots. -/
structure Represents (a : LineArena) (s : LineStore) : Prop where
  laid : Laid a [] s.tree a
  tracks : a.Tracks s s.tree.slots

/-- A tree laid out over some slots leaves them tracked. -/
theorem Laid.tracks (laid : Laid base [] t a) (tracks : base.Tracks s used)
    (sub : ∀ i ∈ t.slots, i ∈ used)
    (present : ∀ line ∈ t.toList, s.generations[line.1.slot]? = some line.1.generation) :
    a.Tracks s used := by
  have others : ∀ i ∉ t.slots, a.slots[i]? = base.slots[i]? :=
    fun i out => laid.others i (by simpa using out)
  refine tracks_of_generation (fun i => ?_) (laid.free.trans tracks.free) fun i out slot there => ?_
  · by_cases mem : i ∈ t.slots
    · obtain ⟨line, inside, rfl⟩ := LineTree.exists_of_mem_slots mem
      obtain ⟨cell, parent, left, right, rfl, there⟩ := laid.spells.slot_of_mem inside
      rw [show a.slots[cell.entry.1.slot]? = _ from there, present _ inside]
      rfl
    · rw [others i mem, tracks.generation]
  · rw [others i fun mem => out (sub i mem)] at there
    exact tracks.dead i out slot there

/-- Writing a slot in use that keeps its generation. -/
theorem Tracks.written {i : Nat} {f : Slot → Slot} {old : Slot} (tracks : a.Tracks s used)
    (mem : i ∈ used) (there : a.slots[i]? = some old)
    (same : (f old).generation = old.generation) : (a.written i f).Tracks s used := by
  refine tracks_of_generation (fun j => ?_) tracks.free fun j out slot' found => ?_
  · have kept : ∀ slot, a.slots[i]? = some slot → (f slot).generation = id slot.generation := by
      intro slot found
      cases there.symm.trans found
      exact same
    refine (generation_written id kept).trans ?_
    rw [Option.map_id, id, ite_self]
    exact tracks.generation j
  · rw [getElem?_written, if_neg (ne_of_mem_of_not_mem mem out)] at found
    exact tracks.dead j out slot' found

/-- A tree that is not written stays laid out. -/
theorem Laid.frame {a₁ : LineArena} {path : Path} (laid : Laid base path t a)
    (same : ∀ i ∈ t.slots ++ Path.slots path, a₁.slots[i]? = a.slots[i]?)
    (root : a₁.root = a.root) :
    Laid a₁ path t a₁ :=
  ⟨laid.around.frame (fun i mem => same i (List.mem_append_right _ mem)) root,
    laid.spells.frame fun i mem => same i (List.mem_append_left _ mem), laid.nodup, rfl, rfl,
    fun _ _ => rfl⟩

/-- A line of a tree stands in the slot that its identity names. -/
theorem Laid.slot_of_mem {path : Path} {line : LineId × LineMetrics} (laid : Laid base path t a)
    (mem : line ∈ t.toList) :
    ∃ slot, a.slots[line.1.slot]? = some slot ∧ slot.live = true ∧
      slot.generation = line.1.generation := by
  obtain ⟨cell, parent, left, right, rfl, there⟩ := laid.spells.slot_of_mem mem
  exact ⟨_, there, rfl, rfl⟩

/-- The identity of a line is read from its slot. -/
theorem Laid.idOf {path : Path} {line : LineId × LineMetrics} (laid : Laid base path t a)
    (mem : line ∈ t.toList) : a.idOf line.1.slot = some line.1 := by
  obtain ⟨slot, there, -, generation⟩ := laid.slot_of_mem mem
  rw [LineArena.idOf, LineArena.slot, there, Option.bind_eq_bind, Option.bind_some, generation]
  rfl

namespace Represents

/-- The identities that are resolved are those of lines. -/
theorem resolve (rep : a.Represents s) (id : LineId) :
    a.resolve id = if id ∈ s.ids then some id.slot else none := by
  rw [LineArena.resolve]
  by_cases mem : id ∈ s.ids
  · rw [if_pos mem]
    obtain ⟨line, inside, rfl⟩ := List.mem_map.mp mem
    obtain ⟨slot, there, live, generation⟩ := rep.laid.slot_of_mem inside
    rw [there]
    exact if_pos ⟨live, generation⟩
  · rw [if_neg mem]
    cases there : a.slots[id.slot]? with
    | none => rfl
    | some slot =>
        refine if_neg fun ⟨live, generation⟩ => mem ?_
        by_cases used : id.slot ∈ s.tree.slots
        · obtain ⟨line, inside, same⟩ := LineTree.exists_of_mem_slots used
          obtain ⟨slot', there', -, generation'⟩ := rep.laid.slot_of_mem inside
          rw [same, there, Option.some.injEq] at there'
          subst there'
          have whole : line.1 = id := by
            obtain ⟨⟨slot, _⟩, _⟩ := line
            cases id
            simp_all
          exact whole ▸ List.mem_map_of_mem inside
        · simp [rep.tracks.dead _ used slot there] at live

theorem nodeCount (rep : a.Represents s) : a.nodeCount = some s.count := by
  have root : a.root = s.tree.slot? := rep.laid.around
  rw [LineArena.nodeCount, root, rep.laid.spells.summary]
  rfl

/-- Putting in a line. -/
theorem insertAfter (rep : a.Represents s) (valid : s.Valid) (mem : id ∈ s.ids) :
    ∃ new s', s.insertAfter? id m = some (new, s') ∧
      (Addressable s'.toList ∧ (∃ a', a.insertAfter id m = some (some new, a') ∧ a'.Represents s') ∨
        ¬Addressable s'.toList ∧ a.insertAfter id m = none) := by
  obtain ⟨front, old, rest, lines⟩ := LineStore.mem_ids_iff.mp mem
  obtain ⟨place, located, whole, entry, before, after⟩ := valid.locate lines
  have here : place.cell.id = id := congrArg (·.1) entry
  obtain ⟨sums, above⟩ := valid.summed.locate located
  obtain ⟨a₁, alloc, tracks₁, leaf, still, root₁⟩ := rep.tracks.alloc
    (fun i mem => valid.holds.lt_size (List.mem_append_right _ mem)) m
  have held := valid.holds.allocate m
  have out : s.allocate.1.slot ∉ s.tree.slots :=
    (List.nodup_cons.mp held.nodup_used).1
  have laid₁ : Laid a₁ place.path (.node place.cell place.left place.right) a₁ :=
    Laid.refocus (rep.laid.frame (fun i mem => still i (by
      rintro rfl
      exact out (by simpa using mem))) root₁) whole
  have step : s.insertAfter? id m = some (s.allocate.1,
      { s.allocate.2 with tree := LineTree.insertAfter place s.allocate.1 m }) := by
    simp [LineStore.insertAfter?, located]
  obtain ⟨new, s', step', valid', -, lines'⟩ := valid.insertAfter lines m
  cases step'.symm.trans step
  refine ⟨s.allocate.1, _, step, ?_⟩
  have run : a.insertAfter id m =
      (a₁.attachBehind place.cell.id.slot s.allocate.1.slot >>= fun a =>
        a.idOf s.allocate.1.slot >>= fun new => some (some new, a)) := by
    rw [LineArena.insertAfter, rep.resolve, if_pos mem]
    dsimp only
    rw [alloc, here]
    rfl
  rw [run]
  have lines' : (LineTree.insertAfter place s.allocate.1 m).toList =
      front ++ (id, old) :: (s.allocate.1, m) :: rest := lines'
  rcases laid₁.attachBehind_cases leaf (show _ ∉ place.toTree.slots from whole ▸ out) sums
    above.siblings with ⟨small, a₂, run₂, laid₂⟩ | ⟨big, stops⟩
  · refine .inl ⟨small, a₂, ?_, laid₂.frame (fun _ _ => rfl) rfl, ?_⟩
    · have inside : (s.allocate.1, m) ∈ (LineTree.insertAfter place s.allocate.1 m).toList := by
        simp [lines']
      rw [run₂, Option.bind_eq_bind, Option.bind_some, laid₂.idOf inside]
      rfl
    · have slots : ∀ i, i ∈ (LineTree.insertAfter place s.allocate.1 m).slots ↔
          i ∈ s.allocate.1.slot :: s.tree.slots := by
        intro i
        rw [LineTree.slots, LineTree.slots, lines', show s.tree.toList = _ from lines]
        simp only [LineStore.slotsOf, List.map_append, List.map_cons, List.mem_append,
          List.mem_cons]
        grind
      have tracks₂ := laid₂.tracks tracks₁ (fun i => (slots i).mp) valid'.holds.generations
      exact (tracks₂.mono fun i => (slots i).mpr).withTree _
  · refine .inr ⟨big, ?_⟩
    rw [stops]
    rfl

/-- A line that is gone is not put in behind. -/
theorem insertAfter_gone (rep : a.Represents s) (gone : id ∉ s.ids) :
    a.insertAfter id m = some (none, a) := by
  rw [LineArena.insertAfter, rep.resolve, if_neg gone]

/-- Changing the sizes of a line. -/
theorem update (rep : a.Represents s) (valid : s.Valid) (mem : id ∈ s.ids)
    (f : LineMetrics → LineMetrics) :
    ∃ s', s.update? id f = some s' ∧
      (Addressable s'.toList ∧ (∃ a', a.update id f = some (true, a') ∧ a'.Represents s') ∨
        ¬Addressable s'.toList ∧ a.update id f = none) := by
  obtain ⟨front, old, rest, lines⟩ := LineStore.mem_ids_iff.mp mem
  obtain ⟨place, located, whole, entry, before, after⟩ := valid.locate lines
  have here : place.cell.id = id := congrArg (·.1) entry
  obtain ⟨sums, above⟩ := valid.summed.locate located
  have step : s.update? id f =
      some { s with tree := LineTree.exchange place id (f place.cell.metrics) } := by
    simp [LineStore.update?, located]
  obtain ⟨s', step', valid', lines'⟩ := valid.update lines f
  cases step'.symm.trans step
  refine ⟨_, step, ?_⟩
  have laid : Laid a place.path (.node place.cell place.left place.right) a :=
    rep.laid.refocus whole
  obtain ⟨a₁, run₁, laid₁⟩ : Yields (a.write place.cell.id.slot fun s =>
      { s with metrics := f s.metrics }) a place.path
        (.node { place.cell with metrics := f place.cell.metrics } place.left place.right) :=
    laid.write rfl rfl
  have run : a.update id f =
      (a₁.updateToRoot (some place.cell.id.slot) >>= fun a => some (true, a)) := by
    rw [LineArena.update, rep.resolve, if_pos mem, ← here]
    dsimp only
    rw [run₁]
    rfl
  have tree : LineTree.exchange ⟨{ place.cell with metrics := f place.cell.metrics }, place.left,
      place.right, place.path⟩ place.cell.id (f place.cell.metrics) =
        LineTree.exchange place id (f place.cell.metrics) := by
    rw [here]
    rfl
  have updated := laid₁.updateFrom_cases sums.2.1 sums.2.2 above.siblings
  dsimp only at updated
  rw [tree] at updated
  rw [run]
  rcases updated with ⟨small, a₂, run₂, laid₂⟩ | ⟨big, stops⟩
  · refine .inl ⟨small, a₂, ?_, laid₂.frame (fun _ _ => rfl) rfl, ?_⟩
    · rw [run₂]
      rfl
    · have slots : ∀ i, i ∈ (LineTree.exchange place id (f place.cell.metrics)).slots ↔
          i ∈ s.tree.slots := by
        intro i
        rw [LineTree.slots, LineTree.slots, show LineTree.toList _ = _ from lines',
          show s.tree.toList = _ from lines]
        simp [LineStore.slotsOf]
      have tracks₂ := laid₂.tracks rep.tracks (fun i => (slots i).mp) valid'.holds.generations
      exact (tracks₂.mono fun i => (slots i).mpr).withTree _
  · refine .inr ⟨big, ?_⟩
    rw [stops]
    rfl

theorem update_gone (rep : a.Represents s) (gone : id ∉ s.ids) (f : LineMetrics → LineMetrics) :
    a.update id f = some (false, a) := by
  rw [LineArena.update, rep.resolve, if_neg gone]

/-- Taking out a line that is not the only one. -/
theorem remove (rep : a.Represents s) (valid : s.Valid) (small : Addressable s.toList)
    (mem : id ∈ s.ids) (many : ¬s.count ≤ 1) :
    ∃ s' a', s.erase? id = some s' ∧ a.remove id = some (true, a') ∧ a'.Represents s' := by
  obtain ⟨front, old, rest, lines⟩ := LineStore.mem_ids_iff.mp mem
  obtain ⟨place, located, whole, entry, before, after⟩ := valid.locate lines
  have here : place.cell.id = id := congrArg (·.1) entry
  obtain ⟨n, balanced⟩ := valid.balanced
  obtain ⟨color, k, node, path⟩ := balanced.locate located
  obtain ⟨sums, above⟩ := valid.summed.locate located
  have laid : Laid a place.path (.node place.cell place.left place.right) a :=
    rep.laid.refocus whole
  obtain ⟨cell, side, near, far, same, a₁, run₁, laid₁⟩ :=
    laid.unlink node path sums above.siblings (whole ▸ small)
  have erased : (LineTree.erase place).toList = front ++ rest := by
    rw [LineTree.toList_erase (whole ▸ valid.distinct), before, after]
  have out : id.slot ∉ (LineTree.erase place).slots := by
    have distinct := valid.holds.nodup_used
    rw [lines, LineStore.slotsOf, List.map_append, List.map_append, List.map_cons, List.map_cons,
      List.perm_middle.nodup_iff] at distinct
    rw [LineTree.slots, erased, LineStore.slotsOf, List.map_append, List.map_append]
    exact (List.nodup_cons.mp distinct).1
  have slots : ∀ i, i ∈ s.tree.slots ↔ i = id.slot ∨ i ∈ (LineTree.erase place).slots := by
    intro i
    rw [LineTree.slots, LineTree.slots, erased, show s.tree.toList = _ from lines]
    simp only [LineStore.slotsOf, List.map_append, List.map_cons, List.mem_append, List.mem_cons]
    grind
  rw [here] at run₁ laid₁ same
  obtain ⟨slot, there, -, generation⟩ := rep.laid.slot_of_mem
    (show (id, old) ∈ s.tree.toList by rw [show s.tree.toList = _ from lines]; simp)
  have tracks₁ := laid₁.tracks
    (rep.tracks.written ((slots _).mpr (.inl rfl)) there (by rw [generation, ← same]; rfl))
    (fun i inside => (slots i).mpr (.inr inside)) fun line inside => by
      refine valid.holds.generations line ?_
      rw [erased, List.mem_append] at inside
      rw [lines]
      exact List.mem_append.mpr (inside.imp_right (List.mem_cons_of_mem _))
  have detached : a₁.slots[id.slot]? = some (cell.slot side none near far) := by
    rw [laid₁.others _ (by simpa using out)]
    exact getElem?_written_self (lt_size there)
  obtain ⟨a₂, run₂, tracks₂, still, root⟩ :=
    (tracks₁.withTree (LineTree.erase place)).release detached fun i => (slots i).mp
  refine ⟨({ s with tree := LineTree.erase place } : LineStore).release id, a₂, ?_, ?_, ?_, tracks₂⟩
  · simp [LineStore.erase?, located, many]
  · rw [LineArena.remove, rep.resolve, if_pos mem]
    dsimp only
    rw [rep.nodeCount, Option.bind_eq_bind, Option.bind_some, if_neg many, run₁,
      Option.bind_eq_bind, Option.bind_some, run₂]
    rfl
  · refine laid₁.frame (fun i inside => still i ?_) root
    rintro rfl
    exact out (by simpa using inside)

/-- A line that is gone and the only line stay. -/
theorem remove_gone (rep : a.Represents s) (stays : id ∉ s.ids ∨ s.count ≤ 1) :
    a.remove id = some (false, a) := by
  rw [LineArena.remove, rep.resolve]
  by_cases mem : id ∈ s.ids
  · rw [if_pos mem]
    dsimp only
    rw [rep.nodeCount, Option.bind_eq_bind, Option.bind_some,
      if_pos (stays.resolve_left (not_not_intro mem))]
    rfl
  · rw [if_neg mem]

/-! ### Whole contents -/

/-- A tree whose root becomes black and the root of the arena. -/
theorem rooted {f : Slot → Slot} (spells : a.Spells none t) (nodup : t.slots.Nodup)
    (tracks : a.Tracks s used) (sub : ∀ i ∈ used, i ∈ t.slots)
    (paints : ∀ cell l r, f (Cell.slot cell .left none l r) =
      (cell.paint .black).slot .left none l r) :
    ∃ a₁, a.writeAt t.slot? f = some a₁ ∧
      LineArena.Represents { a₁ with root := t.slot? } { s with tree := t.paint .black } := by
  cases t with
  | empty =>
      have tracks := (tracks.mono sub).withTree .empty
      exact ⟨a, rfl, ⟨rfl, trivial, List.nodup_nil, rfl, rfl, fun _ _ => rfl⟩, tracks.generations,
        tracks.free, tracks.dead⟩
  | node cell l r =>
      have mem : cell.id.slot ∈ (LineTree.node cell l r).slots := LineTree.mem_slots_of_slot? rfl
      have painted : (a.written cell.id.slot f).Spells none (.node (cell.paint .black) l r) :=
        spells.written nodup rfl (paints _ _ _)
      have kept : (f (cell.slot .left none l.slot? r.slot?)).generation = cell.id.generation := by
        rw [paints]
        rfl
      have tracks := (tracks.mono sub).written mem spells.1 kept
      rw [← LineTree.slots_paint _ .black] at tracks
      refine ⟨a.written cell.id.slot f, write_eq (lt_size spells.1),
        ⟨rfl, painted.frame fun _ _ => rfl, ?_, rfl, rfl, fun _ _ => rfl⟩, tracks.generations,
        tracks.free, tracks.dead⟩
      rw [LineTree.slots_paint]
      simpa using nodup

/-- Starting over with a single line. -/
theorem reset (rep : a.Represents s) (m : LineMetrics) :
    ∃ id a', a.reset m = some (id, a') ∧ (s.reset m).toList = [(id, m)] ∧
      a'.Represents (s.reset m) := by
  have distinct : s.tree.slots.Nodup := by simpa using rep.laid.nodup
  obtain ⟨a₁, alloc, tracks, leaf, -, -⟩ := (rep.tracks.clear rep.laid.spells distinct).alloc
    (fun i mem => s.holds_clear.lt_size (List.mem_append_right _ mem)) m
  obtain ⟨a₂, run, rep'⟩ := @rooted a₁ s.clear.allocate.2
    (.node ⟨.red, Summary.ofLine m, s.clear.allocate.1, m⟩ .empty .empty) _
    (fun s => { s with color := .black }) ⟨leaf, trivial, trivial⟩ (by simp) tracks (by simp)
    fun _ _ _ => rfl
  refine ⟨s.clear.allocate.1, _, ?_, rfl, rep'⟩
  have id : a₂.idOf s.clear.allocate.1.slot = some s.clear.allocate.1 :=
    rep'.laid.idOf List.mem_cons_self
  have run : a₁.paint (some s.clear.allocate.1.slot) .black = some a₂ := run
  rw [LineArena.reset, alloc]
  dsimp only [bind, Option.bind]
  rw [run]
  dsimp only
  rw [show a₂.idOf _ = _ from id]
  rfl

/-- The identities of several lines are read from their slots. -/
theorem mapM_idOf {lines : List (LineId × LineMetrics)}
    (inside : ∀ line ∈ lines, a.idOf line.1.slot = some line.1) :
    (LineStore.slotsOf lines).mapM a.idOf = some (lines.map (·.1)) := by
  induction lines with
  | nil => rfl
  | cons line rest ih =>
      have rest := ih fun line mem => inside line (List.mem_cons_of_mem _ mem)
      rw [LineStore.slotsOf, List.map_cons, List.map_cons, List.mapM_cons,
        inside line List.mem_cons_self]
      rw [LineStore.slotsOf] at rest
      rw [rest]
      rfl

/-- Starting over with several lines. -/
theorem rebuild (rep : a.Represents s) {ms : List LineMetrics} (notEmpty : ms ≠ []) :
    Addressable (s.rebuild ms).toList ∧ (∃ a', a.rebuild ms = some ((s.rebuild ms).ids, a') ∧
        a'.Represents (s.rebuild ms)) ∨
      ¬Addressable (s.rebuild ms).toList ∧ a.rebuild ms = none := by
  have distinct : s.tree.slots.Nodup := by simpa using rep.laid.nodup
  have held := (s.holds_clear.allocateAll ms).1
  obtain ⟨a₁, alloc, tracks, leaves, -, -⟩ :=
    (rep.tracks.clear rep.laid.spells distinct).allocAll s.holds_clear ms
  rw [List.append_nil] at held tracks
  have lines := s.toList_rebuild notEmpty
  have whole : s.rebuild ms =
      { (s.clear.allocateAll ms).2 with tree := .ofList (s.clear.allocateAll ms).1 } := by
    cases ms with
    | nil => exact absurd rfl notEmpty
    | cons m rest => rfl
  have run : a.rebuild ms =
      (a₁.build (LineStore.slotsOf (s.clear.allocateAll ms).1)
          (LineTree.levels (s.clear.allocateAll ms).1.length) >>= fun built =>
        built.2.writeAt built.1 (fun s => { s with parent := none, color := .black }) >>= fun a =>
        (LineStore.slotsOf (s.clear.allocateAll ms).1).mapM
            (LineArena.idOf { a with root := built.1 }) >>=
          fun ids => some (ids, { a with root := built.1 })) := by
    cases ms with
    | nil => exact absurd rfl notEmpty
    | cons m rest =>
        have size : (LineStore.slotsOf (s.clear.allocateAll (m :: rest)).1).length =
            (s.clear.allocateAll (m :: rest)).1.length := by simp [LineStore.slotsOf]
        rw [LineArena.rebuild, alloc, Option.bind_eq_bind, Option.bind_some]
        · dsimp only
          rw [treeHeight_eq, size]
          rfl
        · exact List.cons_ne_nil m rest
  have fits := LineTree.lt_two_pow_levels (s.clear.allocateAll ms).1.length
  have nodup := held.nodup_used
  rw [run, lines]
  rcases build_cases leaves nodup fits with
    ⟨small, a₂, built, spells, still, -, free, size⟩ | ⟨big, stops⟩
  · refine .inl ⟨small, ?_⟩
    have slots := LineTree.slots_build fits
    have laid : Laid a₁ [] _ { a₂ with root := _ } := ⟨rfl, spells.frame fun _ _ => rfl,
      by simpa [slots] using nodup, free, size,
      fun i out => still i (by simpa [slots] using out)⟩
    have tracks := laid.tracks tracks (fun i mem => slots ▸ mem) fun line mem =>
      held.generations line (LineTree.toList_build fits ▸ mem)
    obtain ⟨a₃, rooted, rep'⟩ :=
      @rooted a₂ _ _ _ (fun s => { s with parent := none, color := .black })
      spells (slots ▸ nodup) ⟨tracks.generations, tracks.free, tracks.dead⟩
      (fun i mem => slots ▸ mem) fun _ _ _ => rfl
    rw [built, Option.bind_eq_bind, Option.bind_some]
    dsimp only
    rw [rooted, Option.bind_eq_bind, Option.bind_some, mapM_idOf fun line mem => rep'.laid.idOf ?_]
    · refine ⟨_, ?_, whole ▸ rep'⟩
      rw [LineStore.ids, lines]
      rfl
    · rwa [LineTree.toList_paint, LineTree.toList_build fits]
  · refine .inr ⟨big, ?_⟩
    rw [stops]
    rfl

end Represents

/-- An arena without slots has no lines. -/
theorem represents_empty : empty.Represents ⟨.empty, #[], []⟩ := by
  refine ⟨⟨rfl, trivial, List.nodup_nil, rfl, rfl, fun _ _ => rfl⟩, Array.map_empty, rfl,
    fun i _ slot there => ?_⟩
  simp [empty] at there

end LineArena

end CodeEditor

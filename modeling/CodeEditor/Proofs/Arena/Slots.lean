import CodeEditor.Proofs.Arena.Memory

/-!
Slots that are taken and given back in memory.

An arena tracks the slots of a store (`LineArena.Tracks`) when the generations and the free list are
the same and no slot is live but those in use. Taking and giving back slots does to both the same,
and writes no other slot.
-/

namespace CodeEditor

namespace LineArena

variable {a : LineArena} {s : LineStore} {used : List Nat}

/-- The slots of an arena are those of a store. -/
structure Tracks (a : LineArena) (s : LineStore) (used : List Nat) : Prop where
  generations : a.slots.map (·.generation) = s.generations
  free : a.free = s.free
  /-- Only slots in use are live. -/
  dead : ∀ i ∉ used, ∀ slot, a.slots[i]? = some slot → slot.live = false

theorem Tracks.size (tracks : a.Tracks s used) : a.slots.size = s.generations.size := by
  rw [← tracks.generations, Array.size_map]

theorem Tracks.generation (tracks : a.Tracks s used) (i : Nat) :
    (a.slots[i]?.map fun slot => slot.generation) = s.generations[i]? := by
  rw [← tracks.generations, Array.getElem?_map]

/-- What writing a slot does to its generation. -/
theorem generation_written {i j : Nat} {f : Slot → Slot} (g : UInt32 → UInt32)
    (turns : ∀ slot, a.slots[i]? = some slot → (f slot).generation = g slot.generation) :
    ((a.written i f).slots[j]?.map fun slot => slot.generation) =
      if i = j then (a.slots[j]?.map fun slot => slot.generation).map g
      else a.slots[j]?.map fun slot => slot.generation := by
  rw [getElem?_written]
  split
  · next here =>
      subst here
      cases there : a.slots[i]? with
      | none => rfl
      | some slot => exact congrArg some (turns slot there)
  · rfl

/-- Generations are compared slot by slot. -/
theorem tracks_of_generation
    (generation : ∀ i : Nat, (a.slots[i]?.map fun slot => slot.generation) = s.generations[i]?)
    (free : a.free = s.free)
    (dead : ∀ i ∉ used, ∀ slot, a.slots[i]? = some slot → slot.live = false) : a.Tracks s used :=
  ⟨Array.ext_getElem? fun i => by rw [Array.getElem?_map, generation], free, dead⟩

theorem Tracks.mono {used' : List Nat} (tracks : a.Tracks s used) (sub : ∀ i ∈ used, i ∈ used') :
    a.Tracks s used' :=
  ⟨tracks.generations, tracks.free, fun i out => tracks.dead i fun mem => out (sub i mem)⟩

/-- The slots do not depend on the tree of the store. -/
theorem Tracks.withTree (tracks : a.Tracks s used) (tree : LineTree) :
    a.Tracks { s with tree } used :=
  ⟨tracks.generations, tracks.free, tracks.dead⟩

/-- Taking a slot. -/
theorem Tracks.alloc (tracks : a.Tracks s used) (inside : ∀ i ∈ s.free, i < s.generations.size)
    (m : LineMetrics) :
    ∃ a₁, a.alloc m = some (s.allocate.1.slot, a₁) ∧
      a₁.Tracks s.allocate.2 (s.allocate.1.slot :: used) ∧
      a₁.slots[s.allocate.1.slot]? = some (.leaf s.allocate.1.generation m) ∧
      (∀ j, j ≠ s.allocate.1.slot → a₁.slots[j]? = a.slots[j]?) ∧ a₁.root = a.root := by
  have size := tracks.size
  cases free : s.free with
  | nil =>
      have new : s.allocate =
          (⟨a.slots.size, 0⟩, { s with generations := s.generations.push 0 }) := by
        rw [LineStore.allocate, free, size]
      have still : ∀ j, j ≠ a.slots.size → (a.slots.push (.leaf 0 m))[j]? = a.slots[j]? := by
        intro j other
        rw [Array.getElem?_push, if_neg other]
      rw [new]
      refine ⟨{ a with slots := a.slots.push (.leaf 0 m) }, ?_, ?_, ?_, still, rfl⟩
      · rw [LineArena.alloc, tracks.free, free]
      · refine ⟨?_, tracks.free, fun i out slot there => ?_⟩
        · rw [Array.map_push, tracks.generations]
          rfl
        · rw [List.mem_cons, not_or] at out
          exact tracks.dead i out.2 slot ((still i out.1).symm.trans there)
      · exact Array.getElem?_push_size
  | cons i rest =>
      have bound : i < s.generations.size := inside i (by simp [free])
      have new : s.allocate = (⟨i, s.generations.getD i 0⟩, { s with free := rest }) := by
        rw [LineStore.allocate, free]
      have still : ∀ j, j ≠ i →
          (LineArena.written { a with free := rest } i fun s => .leaf s.generation m).slots[j]? =
            a.slots[j]? := by
        intro j other
        rw [getElem?_written, if_neg (Ne.symm other)]
      rw [new]
      refine ⟨LineArena.written { a with free := rest } i fun s => .leaf s.generation m, ?_, ?_, ?_,
        still, rfl⟩
      · rw [LineArena.alloc, tracks.free, free]
        dsimp only
        rw [write_eq (size ▸ bound)]
        rfl
      · refine tracks_of_generation (fun j => ?_) rfl fun j out slot there => ?_
        · refine (generation_written id ?_).trans ?_
          · exact fun _ _ => rfl
          · rw [Option.map_id, id, ite_self]
            exact tracks.generation j
        · rw [List.mem_cons, not_or] at out
          exact tracks.dead j out.2 slot ((still j out.1).symm.trans there)
      · have there := Array.getElem?_eq_getElem (size ▸ bound : i < a.slots.size)
        have generation := tracks.generation i
        rw [there, Option.map_some] at generation
        rw [getElem?_written, if_pos rfl, Array.getD_eq_getD_getElem?, ← generation]
        show Option.map _ a.slots[i]? = _
        rw [there]
        rfl

/-- Giving a slot back. -/
theorem Tracks.release {used' : List Nat} {id : LineId} {slot : Slot} (tracks : a.Tracks s used)
    (there : a.slots[id.slot]? = some slot) (fewer : ∀ i ∈ used, i = id.slot ∨ i ∈ used') :
    ∃ a₁, a.release id.slot = some a₁ ∧ a₁.Tracks (s.release id) used' ∧
      (∀ j, j ≠ id.slot → a₁.slots[j]? = a.slots[j]?) ∧ a₁.root = a.root := by
  let f (s : Slot) : Slot := { s with
    live := false, generation := s.generation + 1, parent := none, left := none, right := none }
  have still : ∀ j, j ≠ id.slot → (a.written id.slot f).slots[j]? = a.slots[j]? := by
    intro j other
    rw [getElem?_written, if_neg (Ne.symm other)]
  refine ⟨{ a.written id.slot f with free := id.slot :: a.free }, ?_, ?_, still, rfl⟩
  · rw [LineArena.release, write_eq (lt_size there)]
    rfl
  · refine tracks_of_generation (fun j => ?_) (congrArg _ tracks.free) fun j out slot' found => ?_
    · refine (generation_written (· + 1) ?_).trans ?_
      · exact fun _ _ => rfl
      · rw [tracks.generation]
        exact Array.getElem?_modify.symm
    · have found : (a.written id.slot f).slots[j]? = some slot' := found
      by_cases here : j = id.slot
      · subst here
        rw [getElem?_written, if_pos rfl, there, Option.map_some, Option.some.injEq] at found
        rw [← found]
      · rw [still j here] at found
        exact tracks.dead j (fun mem => (fewer j mem).elim here out) slot' found

/-- What the generations are once all lines are dropped. -/
theorem getElem?_foldl_modify {lines : List (LineId × LineMetrics)} {generations : Array UInt32}
    (nodup : (LineStore.slotsOf lines).Nodup) (i : Nat) :
    (lines.foldl (fun g line => g.modify line.1.slot (· + 1)) generations)[i]? =
      if i ∈ LineStore.slotsOf lines then generations[i]?.map (· + 1) else generations[i]? := by
  induction lines generalizing generations with
  | nil => rfl
  | cons line rest ih =>
      obtain ⟨out, nodup⟩ := List.nodup_cons.mp nodup
      have out : line.1.slot ∉ LineStore.slotsOf rest := out
      rw [List.foldl_cons, ih nodup, Array.getElem?_modify]
      have cons : i ∈ LineStore.slotsOf (line :: rest) ↔
          line.1.slot = i ∨ i ∈ LineStore.slotsOf rest := by
        simp [LineStore.slotsOf, eq_comm]
      by_cases here : line.1.slot = i
      · subst here
        rw [if_neg out, if_pos rfl, if_pos (cons.mpr (.inl rfl))]
      · simp only [cons, here, false_or, if_false]

/-- Giving all slots back. -/
theorem Tracks.clear {up : Option Nat} (tracks : a.Tracks s s.tree.slots)
    (spells : a.Spells up s.tree) (nodup : s.tree.slots.Nodup) : a.clear.Tracks s.clear [] := by
  refine tracks_of_generation (fun i => ?_) ?_ fun i _ slot there => ?_
  · rw [show s.clear.generations[i]? = _ from getElem?_foldl_modify nodup i, ← tracks.generation]
    show Option.map _ (Array.map _ a.slots)[i]? = _
    rw [Array.getElem?_map, Option.map_map]
    split
    · next mem =>
        obtain ⟨slot, there, live⟩ := spells.live mem
        rw [there]
        simp [live]
    · next out =>
        cases there : a.slots[i]? with
        | none => rfl
        | some slot => simp [tracks.dead i out slot there]
  · exact congrArg List.range tracks.size
  · have there : (Array.map _ a.slots)[i]? = some slot := there
    rw [Array.getElem?_map] at there
    obtain ⟨old, -, rfl⟩ := Option.map_eq_some_iff.mp there
    split
    · rfl
    · next dead => simpa using dead

/-- Taking slots for several lines. -/
theorem Tracks.allocAll {lines : List (LineId × LineMetrics)} (tracks : a.Tracks s used)
    (holds : s.Holds lines) (ms : List LineMetrics) :
    ∃ a₁, a.allocAll ms = some (LineStore.slotsOf (s.allocateAll ms).1, a₁) ∧
      a₁.Tracks (s.allocateAll ms).2 (LineStore.slotsOf (s.allocateAll ms).1 ++ used) ∧
      (∀ line ∈ (s.allocateAll ms).1,
        a₁.slots[line.1.slot]? = some (.leaf line.1.generation line.2)) ∧
      (∀ j ∉ LineStore.slotsOf (s.allocateAll ms).1, a₁.slots[j]? = a.slots[j]?) ∧
      a₁.root = a.root := by
  induction ms generalizing a s lines used with
  | nil => exact ⟨a, rfl, tracks, fun line mem => absurd mem List.not_mem_nil, fun _ _ => rfl, rfl⟩
  | cons m ms ih =>
      obtain ⟨a₁, run, tracks₁, leaf, still, root⟩ := tracks.alloc
        (fun i mem => holds.lt_size (List.mem_append_right _ mem)) m
      have held := holds.allocate m
      obtain ⟨a₂, run₂, tracks₂, leaves, still₂, root₂⟩ := ih tracks₁ held
      have all : (s.allocateAll (m :: ms)).1 =
          (s.allocate.1, m) :: (s.allocate.2.allocateAll ms).1 := rfl
      have out : s.allocate.1.slot ∉ LineStore.slotsOf (s.allocate.2.allocateAll ms).1 := by
        have distinct := (held.allocateAll ms).1.nodup_used
        rw [LineStore.slotsOf, List.map_append, List.map_append] at distinct
        exact fun mem => (List.nodup_append.mp distinct).2.2 _ mem _ List.mem_cons_self rfl
      refine ⟨a₂, ?_, ?_, ?_, ?_, root₂.trans root⟩
      · rw [LineArena.allocAll, run]
        show (LineArena.allocAll a₁ ms >>= _) = _
        rw [run₂]
        rfl
      · refine tracks₂.mono fun i mem => ?_
        rw [List.mem_append, List.mem_cons] at mem
        rw [all, List.mem_append]
        rcases mem with mem | rfl | mem
        · exact .inl (List.mem_cons_of_mem _ mem)
        · exact .inl List.mem_cons_self
        · exact .inr mem
      · intro line mem
        rw [all, List.mem_cons] at mem
        rcases mem with rfl | mem
        · exact (still₂ _ out).trans leaf
        · exact leaves line mem
      · intro j outside
        rw [all] at outside
        have outside :
            j ≠ s.allocate.1.slot ∧ j ∉ LineStore.slotsOf (s.allocate.2.allocateAll ms).1 := by
          simpa [LineStore.slotsOf] using outside
        exact (still₂ j outside.2).trans (still j outside.1)

end LineArena

end CodeEditor

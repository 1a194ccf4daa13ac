import CodeEditor.Proofs.Line.Listing
import CodeEditor.Proofs.Line.Tracking
import CodeEditor.Proofs.Related

/-!
The lives of lines.

A `Chronicle` is a store with the account of all that was done to it: the identity that every line
was given, in the order in which the lines were made, and the lines there are as a plain list, in
which a line is known by its number and not by its identity. `Chronicle.after` tells how one
operation goes on with the account, `Chronicle.run` how many do.

A slot is used again when its line is gone, so an identity may stand for nothing but never for a
line that came later, as long as no slot is freed as often as there are generations
(`Chronicle.Few`). Then the store answers by identities what the account says by numbers
(`Chronicle.Faithful`), and `Chronicle.lifetimes` says when an identity is good: from the making of
its line up to the operation that ends it.
-/

namespace CodeEditor.LineStore

variable {s s' s₁ s₂ : LineStore} {id : LineId} {n : Nat} {m : LineMetrics}

/-! ### Slots that are freed -/

theorem Freed.trans_nil {lines : List LineId} (first : Freed lines s s₁) (second : Freed [] s₁ s₂) :
    Freed lines s s₂ := by
  intro slot g there
  simpa using second slot _ (first slot g there)

theorem freed_allocateAll (s : LineStore) (ms : List LineMetrics) :
    Freed [] s (s.allocateAll ms).2 := by
  induction ms generalizing s with
  | nil => exact fun slot g there => there
  | cons m ms ih => exact (freed_allocate s).trans_nil (ih s.allocate.2)

theorem slotsOf_cons (line : LineId × LineMetrics) (lines : List (LineId × LineMetrics)) :
    slotsOf (line :: lines) = line.1.slot :: slotsOf lines := rfl

/-- The slots of some lines, none of which has the slot of another, move on by one generation. -/
theorem getElem?_foldl_modify {lines : List (LineId × LineMetrics)} {gs : Array UInt32} {slot : Nat}
    {g : UInt32} (distinct : (slotsOf lines).Nodup) (there : gs[slot]? = some g) :
    (lines.foldl (fun gs line => gs.modify line.1.slot (· + 1)) gs)[slot]? =
      some (if slot ∈ slotsOf lines then g + 1 else g) := by
  induction lines generalizing gs g with
  | nil => exact there
  | cons line lines ih =>
      rw [slotsOf_cons] at distinct ⊢
      obtain ⟨other, distinct⟩ := List.nodup_cons.mp distinct
      rw [List.foldl_cons]
      by_cases here : slot = line.1.slot
      · subst here
        have moved : (gs.modify line.1.slot (· + 1))[line.1.slot]? = some (g + 1) := by
          rw [Array.getElem?_modify, if_pos rfl, there, Option.map_some]
        rw [ih distinct moved, if_neg other, if_pos List.mem_cons_self]
      · have kept : (gs.modify line.1.slot (· + 1))[slot]? = some g := by
          rw [Array.getElem?_modify, if_neg (Ne.symm here), there]
        rw [ih distinct kept]
        simp [here]

/-- Dropping all lines frees their slots and no others. -/
theorem Valid.freed_clear (valid : s.Valid) : Freed s.ids s s.clear := by
  intro slot g there
  exact getElem?_foldl_modify valid.holds.nodup_used there

theorem Valid.freed_reset (valid : s.Valid) (m : LineMetrics) : Freed s.ids s (s.reset m) :=
  valid.freed_clear.trans_nil (freed_allocate s.clear)

theorem Valid.freed_rebuild (valid : s.Valid) (ms : List LineMetrics) :
    Freed s.ids s (s.rebuild ms) := by
  cases ms with
  | nil => exact valid.freed_reset _
  | cons m ms => exact valid.freed_clear.trans_nil (freed_allocateAll s.clear (m :: ms))

/-- The slot of a spent identity moves on when it is freed. -/
theorem Spent.freed {lines : List LineId} (spent : Spent n s id) (freed : Freed lines s s') :
    Spent (n + (lines.map (·.slot)).count id.slot) s' id := by
  obtain ⟨i, pos, bound, there⟩ := spent
  have there' := freed _ _ there
  split at there'
  · next mem =>
      have once := List.count_pos_iff.mpr mem
      refine ⟨i + 1, Nat.succ_pos i, by omega, ?_⟩
      rw [there', UInt32.ofNat_add, UInt32.add_assoc]
      rfl
  · next other =>
      exact ⟨i, pos, by omega, there'⟩

/-- The identity of a line is spent when its slot is freed. -/
theorem Valid.spent_of_freed {lines : List LineId} (valid : s.Valid) (mem : id ∈ s.ids)
    (freed : Freed lines s s') (ends : id ∈ lines) : Spent 1 s' id := by
  obtain ⟨line, inside, rfl⟩ := List.mem_map.mp mem
  refine ⟨1, Nat.one_pos, Nat.le_refl 1, ?_⟩
  rw [freed _ _ (valid.holds.generations line inside), if_pos (List.mem_map_of_mem ends)]
  rfl

/-! ### The account of all lines -/

/-- What can be done to a store of lines. -/
inductive Operation where
  | reset (m : LineMetrics)
  | rebuild (ms : List LineMetrics)
  | insertAfter (id : LineId) (m : LineMetrics)
  | erase (id : LineId)
  | update (id : LineId) (f : LineMetrics → LineMetrics)

/-- The lines that a store starts over with. Without any it has an empty one. -/
def contents : List LineMetrics → List LineMetrics
  | [] => [.undelimited 0 0.0]
  | ms => ms

/-- A store and the account of all lines that it ever had. A line has the number of lines made
before it as its own. -/
structure Chronicle where
  store : LineStore
  /-- The identity that each line was given. -/
  issued : List LineId
  /-- The numbers and sizes of the lines there are, from top to bottom. -/
  alive : List (Nat × LineMetrics)
  /-- The slots that were freed, each as often as it was. -/
  freed : List Nat

namespace Chronicle

/-- The line with a number was given an identity. -/
def Names (h : Chronicle) (id : LineId) (number : Nat) : Prop := h.issued[number]? = some id

instance (h : Chronicle) (id : LineId) (number : Nat) : Decidable (h.Names id number) :=
  inferInstanceAs (Decidable (_ = _))

/-- The numbers of the lines there are. -/
def numbers (h : Chronicle) : List Nat := h.alive.map (·.1)

/-- All lines end, and others are made. -/
def startOver (h : Chronicle) (s : LineStore) (ms : List LineMetrics) : Chronicle where
  store := s
  issued := h.issued ++ s.ids
  alive := (List.range' h.issued.length ms.length).zip ms
  freed := h.freed ++ slotsOf h.store.toList

/-- The account behind an operation. What the store refuses changes nothing. -/
def after (h : Chronicle) : Operation → Chronicle
  | .reset m => h.startOver (h.store.reset m) [m]
  | .rebuild ms => h.startOver (h.store.rebuild ms) (contents ms)
  | .insertAfter id m =>
      match h.store.insertAfter? id m with
      | none => h
      | some (new, s) =>
          { h with
            store := s
            issued := h.issued ++ [new]
            alive := h.alive.flatMap fun line =>
              if h.Names id line.1 then [line, (h.issued.length, m)] else [line] }
  | .erase id =>
      match h.store.erase? id with
      | none => h
      | some s =>
          { h with
            store := s
            alive := h.alive.filter fun line => ¬h.Names id line.1
            freed := h.freed ++ [id.slot] }
  | .update id f =>
      match h.store.update? id f with
      | none => h
      | some s =>
          { h with
            store := s
            alive := h.alive.map fun line =>
              if h.Names id line.1 then (line.1, f line.2) else line }

/-- The account of a store with its first line. -/
def start (m : LineMetrics) : Chronicle where
  store := single m
  issued := (single m).ids
  alive := [(0, m)]
  freed := []

/-- The account behind some operations. -/
def run (m : LineMetrics) (ops : List Operation) : Chronicle := ops.foldl after (start m)

/-- No slot was freed as often as there are generations. -/
def Few (h : Chronicle) : Prop := ∀ slot, h.freed.count slot < 2 ^ 32

/-- The account is true of the store. -/
structure Kept (h : Chronicle) : Prop where
  valid : h.store.Valid
  told : List.Forall₂ (fun line line' => h.Names line.1 line'.1 ∧ line.2 = line'.2) h.store.toList
    h.alive
  spent : ∀ k id, h.Names id k → k ∉ h.numbers → Spent (h.freed.count id.slot) h.store id
  unique : h.issued.Nodup

/-! ### Names and numbers -/

variable {h : Chronicle} {k : Nat}

theorem mem_issued_iff : id ∈ h.issued ↔ ∃ k, h.Names id k := List.mem_iff_getElem?

/-- A line of the account is a line of the store. -/
theorem Kept.mem_ids (kept : h.Kept) (names : h.Names id k) (alive : k ∈ h.numbers) :
    id ∈ h.store.ids := by
  obtain ⟨line, mem, rfl⟩ := List.mem_map.mp alive
  obtain ⟨line', mem', named, -⟩ := exists_of_mem_right kept.told mem
  obtain rfl := Option.some.inj (names.symm.trans named)
  exact List.mem_map_of_mem mem'

/-- The numbers of lines that are made together, and the identities they are given. -/
theorem forall₂_zip_range' (issued : List LineId) (lines : List (LineId × LineMetrics)) :
    List.Forall₂ (fun line line' => (issued ++ lines.map (·.1))[line'.1]? = some line.1 ∧
      line.2 = line'.2) lines ((List.range' issued.length lines.length).zip (lines.map (·.2))) := by
  induction lines generalizing issued with
  | nil => exact .nil
  | cons line lines ih =>
      have rest := ih (issued ++ [line.1])
      simp only [List.append_assoc, List.singleton_append, List.length_append,
        List.length_singleton] at rest
      exact .cons ⟨by simp, rfl⟩ rest

theorem Few.of_prefix {h' : Chronicle} (few : h'.Few) (more : h.freed <+: h'.freed) : h.Few := by
  intro slot
  exact Nat.lt_of_le_of_lt (more.sublist.count_le slot) (few slot)

/-! ### Starting over -/

/-- Starting over ends all lines and gives the new ones identities that no line had. -/
theorem Kept.startOver {ms : List LineMetrics} (kept : h.Kept) (valid : s.Valid)
    (made : s.toList.map (·.2) = ms) (freed : Freed h.store.ids h.store s)
    (few : (h.startOver s ms).Few) : (h.startOver s ms).Kept := by
  subst made
  have ended : ∀ id k, h.Names id k →
      Spent ((h.startOver s (s.toList.map (·.2))).freed.count id.slot) s id := by
    intro id k names
    rw [Chronicle.startOver, List.count_append]
    by_cases alive : k ∈ h.numbers
    · have mem := kept.mem_ids names alive
      have once := List.count_pos_iff.mpr (List.mem_map_of_mem (f := LineId.slot) mem)
      exact (kept.valid.spent_of_freed mem freed mem).mono (Nat.le_add_left_of_le once)
    · exact (kept.spent k id names alive).freed freed
  have length : s.toList.length = (s.toList.map (·.2)).length := (List.length_map _).symm
  constructor
  case valid => exact valid
  case told =>
    have told := forall₂_zip_range' h.issued s.toList
    rw [length] at told
    exact told
  case spent =>
    intro k id names gone
    have old : k < h.issued.length := by
      by_contra new
      have bound := (List.getElem?_eq_some_iff.mp names).1
      apply gone
      rw [numbers, Chronicle.startOver, List.map_fst_zip (by simp), List.mem_range'_1]
      simp only [Chronicle.startOver, List.length_append, ids, List.length_map] at bound ⊢
      omega
    refine ended id k ?_
    rwa [Names, Chronicle.startOver, List.getElem?_append_left old] at names
  case unique =>
    refine List.nodup_append.mpr ⟨kept.unique, valid.distinct, ?_⟩
    rintro id old _ new rfl
    obtain ⟨k, names⟩ := mem_issued_iff.mp old
    exact (ended id k names).not_mem valid (few id.slot) new

end Chronicle

/-! ### Operations at one line -/

section

variable {front rest : List (LineId × LineMetrics)} {d : LineMetrics}

/-- Around a line stand others. -/
theorem Valid.ne_of_split (valid : s.Valid) (lines : s.toList = front ++ (id, d) :: rest) :
    (∀ line ∈ front, line.1 ≠ id) ∧ ∀ line ∈ rest, line.1 ≠ id := by
  have distinct : (s.toList.map (·.1)).Nodup := valid.distinct
  rw [lines, List.map_append, List.map_cons] at distinct
  obtain ⟨-, below, apart⟩ := List.nodup_append.mp distinct
  constructor
  · intro line mem
    exact apart line.1 (List.mem_map_of_mem mem) id List.mem_cons_self
  · rintro line mem rfl
    have inside : line.1 ∈ rest.map (·.1) := List.mem_map_of_mem mem
    exact (List.nodup_cons.mp below).1 inside

theorem Valid.flatMap_eq (valid : s.Valid) (lines : s.toList = front ++ (id, d) :: rest)
    (line : LineId × LineMetrics) :
    s.toList.flatMap (fun line' => if line'.1 = id then [line', line] else [line']) =
      front ++ (id, d) :: line :: rest := by
  obtain ⟨above, below⟩ := valid.ne_of_split lines
  have others : ∀ part : List (LineId × LineMetrics), (∀ line' ∈ part, line'.1 ≠ id) →
      part.flatMap (fun line' => if line'.1 = id then [line', line] else [line']) = part := by
    intro part other
    rw [List.flatMap_congr fun line' mem => if_neg (other line' mem), List.flatMap_singleton']
  rw [lines, List.flatMap_append, List.flatMap_cons, others front above, others rest below,
    if_pos rfl]
  rfl

theorem Valid.filter_eq (valid : s.Valid) (lines : s.toList = front ++ (id, d) :: rest) :
    s.toList.filter (fun line => ¬line.1 = id) = front ++ rest := by
  obtain ⟨above, below⟩ := valid.ne_of_split lines
  rw [lines, List.filter_append, List.filter_cons_of_neg (by simp),
    List.filter_eq_self.mpr fun line mem => decide_eq_true (above line mem),
    List.filter_eq_self.mpr fun line mem => decide_eq_true (below line mem)]

theorem Valid.map_eq (valid : s.Valid) (lines : s.toList = front ++ (id, d) :: rest)
    (f : LineMetrics → LineMetrics) :
    s.toList.map (fun line => if line.1 = id then (line.1, f line.2) else line) =
      front ++ (id, f d) :: rest := by
  obtain ⟨above, below⟩ := valid.ne_of_split lines
  have others : ∀ part : List (LineId × LineMetrics), (∀ line ∈ part, line.1 ≠ id) →
      part.map (fun line => if line.1 = id then (line.1, f line.2) else line) = part := by
    intro part other
    rw [List.map_congr_left fun line mem => if_neg (other line mem), List.map_id'']
    exact fun _ => rfl
  rw [lines, List.map_append, List.map_cons, others front above, others rest below, if_pos rfl]

end

namespace Chronicle

variable {h : Chronicle} {k : Nat}

/-- A line has one identity. -/
theorem names_iff {other : LineId} (names : h.Names id k) : h.Names other k ↔ id = other := by
  rw [Names, names]
  exact Option.some_inj

theorem Names.append {h' : Chronicle} {more : List LineId} (names : h.Names id k)
    (issued : h'.issued = h.issued ++ more) : h'.Names id k := by
  rw [Names, issued, List.getElem?_append_left (List.getElem?_eq_some_iff.mp names).1]
  exact names

/-- An identity that no line has now is new or spent, and it can only be taken by one new line. -/
theorem Kept.not_mem_issued (kept : h.Kept) (few : h.Few) (valid : s.Valid)
    (freed : Freed [] h.store s) (unused : id ∉ h.store.ids) (mem : id ∈ s.ids) :
    id ∉ h.issued := by
  intro old
  obtain ⟨k, names⟩ := mem_issued_iff.mp old
  have gone : k ∉ h.numbers := fun alive => unused (kept.mem_ids names alive)
  exact ((kept.spent k id names gone).aged freed.aged_of_nil).not_mem valid (few id.slot) mem

theorem Kept.insertAfter {new : LineId} (kept : h.Kept) (few : h.Few)
    (step : h.store.insertAfter? id m = some (new, s)) :
    Kept { h with
      store := s
      issued := h.issued ++ [new]
      alive := h.alive.flatMap fun line =>
        if h.Names id line.1 then [line, (h.issued.length, m)] else [line] } := by
  obtain ⟨front, d, rest, lines, valid, fresh, lines'⟩ := kept.valid.exists_of_insertAfter? step
  have freed := freed_insertAfter? step
  have new_mem : new ∈ s.ids := by
    rw [ids, lines']
    simp
  constructor
  case valid => exact valid
  case told =>
    rw [lines', ← kept.valid.flatMap_eq lines (new, m)]
    refine List.rel_flatMap kept.told ?_
    rintro line line' ⟨named, same⟩
    have stays : Names { h with issued := h.issued ++ [new] } line.1 line'.1 := named.append rfl
    simp only [names_iff named]
    split
    · exact .cons ⟨stays, same⟩ (.cons ⟨by simp [Names], rfl⟩ .nil)
    · exact .cons ⟨stays, same⟩ .nil
  case spent =>
    intro k id' names gone
    rcases Nat.lt_or_ge k h.issued.length with old | behind
    · rw [Names, List.getElem?_append_left old] at names
      refine (kept.spent k id' names fun alive => gone ?_).freed freed
      obtain ⟨line, mem, rfl⟩ := List.mem_map.mp alive
      refine List.mem_map_of_mem (List.mem_flatMap.mpr ⟨line, mem, ?_⟩)
      split <;> exact List.mem_cons_self
    · have bound := (List.getElem?_eq_some_iff.mp names).1
      rw [List.length_append, List.length_singleton] at bound
      obtain rfl : k = h.issued.length := by omega
      obtain ⟨line, mem, named, -⟩ := exists_of_mem_left kept.told
        (show (id, d) ∈ h.store.toList by simp [lines])
      refine (gone (List.mem_map.mpr ⟨(h.issued.length, m), ?_, rfl⟩)).elim
      refine List.mem_flatMap.mpr ⟨line, mem, ?_⟩
      rw [if_pos named]
      exact List.mem_cons_of_mem _ List.mem_cons_self
  case unique =>
    refine List.nodup_append.mpr ⟨kept.unique, List.nodup_singleton new, ?_⟩
    rintro other old _ mem rfl
    obtain rfl := List.mem_singleton.mp mem
    exact kept.not_mem_issued few valid freed fresh new_mem old

theorem Kept.erase (kept : h.Kept) (step : h.store.erase? id = some s) :
    Kept { h with
      store := s
      alive := h.alive.filter fun line => ¬h.Names id line.1
      freed := h.freed ++ [id.slot] } := by
  obtain ⟨front, d, rest, lines, valid, lines'⟩ := kept.valid.exists_of_erase? step
  have freed := freed_erase? step
  constructor
  case valid => exact valid
  case told =>
    rw [lines', ← kept.valid.filter_eq lines]
    refine List.rel_filter (fun line line' ⟨named, _⟩ => ?_) kept.told
    replace named : h.Names line.1 line'.1 := named
    simp [names_iff named]
  case spent =>
    intro k other names gone
    rw [List.count_append]
    by_cases alive : k ∈ h.numbers
    · obtain ⟨line, mem, rfl⟩ := List.mem_map.mp alive
      have named : h.Names id line.1 := by
        by_contra unnamed
        exact gone (List.mem_map_of_mem (List.mem_filter.mpr ⟨mem, decide_eq_true unnamed⟩))
      obtain rfl := (names_iff names).mp named
      have ended :=
        kept.valid.spent_of_freed (kept.mem_ids names alive) freed (List.mem_singleton_self _)
      exact ended.mono (Nat.le_add_left_of_le (by simp))
    · exact (kept.spent k other names alive).freed freed
  case unique => exact kept.unique

theorem Kept.update {f : LineMetrics → LineMetrics} (kept : h.Kept)
    (step : h.store.update? id f = some s) :
    Kept { h with
      store := s
      alive := h.alive.map fun line => if h.Names id line.1 then
          (line.1, f line.2) else line } := by
  obtain ⟨front, d, rest, lines, valid, lines'⟩ := kept.valid.exists_of_update? step
  have generations := generations_update? step
  constructor
  case valid => exact valid
  case told =>
    rw [lines', ← kept.valid.map_eq lines f]
    refine List.rel_map (fun line line' ⟨named, same⟩ => ?_) kept.told
    simp only [names_iff named]
    split
    · exact ⟨named, congrArg f same⟩
    · exact ⟨named, same⟩
  case spent =>
    intro k other names gone
    have numbers :
        (h.alive.map fun line => if h.Names id line.1 then (line.1, f line.2) else line).map (·.1) =
          h.numbers := by
      rw [List.map_map, Chronicle.numbers]
      refine List.map_congr_left fun line _ => ?_
      rw [Function.comp_apply]
      split <;> rfl
    rw [Chronicle.numbers, numbers] at gone
    obtain ⟨i, pos, bound, there⟩ := kept.spent k other names gone
    exact ⟨i, pos, bound, by rw [generations, there]⟩
  case unique => exact kept.unique

/-! ### Runs -/

variable {op : Operation} {ops : List Operation}

theorem freed_after (h : Chronicle) (op : Operation) : h.freed <+: (h.after op).freed := by
  cases op with
  | reset m => exact List.prefix_append _ _
  | rebuild ms => exact List.prefix_append _ _
  | insertAfter id m =>
      rw [after]
      split <;> exact List.prefix_rfl
  | erase id =>
      rw [after]
      split
      · exact List.prefix_rfl
      · exact List.prefix_append _ _
  | update id f =>
      rw [after]
      split <;> exact List.prefix_rfl

theorem issued_after (h : Chronicle) (op : Operation) : h.issued <+: (h.after op).issued := by
  cases op with
  | reset m => exact List.prefix_append _ _
  | rebuild ms => exact List.prefix_append _ _
  | insertAfter id m =>
      rw [after]
      split
      · exact List.prefix_rfl
      · exact List.prefix_append _ _
  | erase id =>
      rw [after]
      split <;> exact List.prefix_rfl
  | update id f =>
      rw [after]
      split <;> exact List.prefix_rfl

theorem freed_foldl (h : Chronicle) (ops : List Operation) :
    h.freed <+: (ops.foldl after h).freed := by
  induction ops generalizing h with
  | nil => exact List.prefix_rfl
  | cons op ops ih => exact (freed_after h op).trans (ih (h.after op))

theorem issued_foldl (h : Chronicle) (ops : List Operation) :
    h.issued <+: (ops.foldl after h).issued := by
  induction ops generalizing h with
  | nil => exact List.prefix_rfl
  | cons op ops ih => exact (issued_after h op).trans (ih (h.after op))

theorem kept_start (m : LineMetrics) : (start m).Kept where
  valid := valid_reset ⟨.empty, #[], []⟩ m
  told := .cons ⟨rfl, rfl⟩ .nil
  spent k id names gone := by
    refine absurd ?_ gone
    have bound : k < 1 := (List.getElem?_eq_some_iff.mp names).1
    obtain rfl : k = 0 := by omega
    exact List.mem_singleton_self 0
  unique := List.nodup_singleton _

theorem metrics_contents (s : LineStore) (ms : List LineMetrics) :
    (s.rebuild ms).toList.map (·.2) = contents ms := by
  cases ms with
  | nil => rfl
  | cons m ms => exact s.metrics_rebuild (List.cons_ne_nil m ms)

/-- The account stays true, whatever is done. -/
theorem Kept.after (kept : h.Kept) (few : (h.after op).Few) : (h.after op).Kept := by
  have before : h.Few := few.of_prefix (freed_after h op)
  cases op with
  | reset m => exact kept.startOver (valid_reset _ m) rfl (kept.valid.freed_reset m) few
  | rebuild ms =>
      exact kept.startOver (valid_rebuild _ ms) (metrics_contents _ ms)
        (kept.valid.freed_rebuild ms) few
  | insertAfter id m =>
      rw [Chronicle.after]
      split
      · exact kept
      · next step => exact kept.insertAfter before step
  | erase id =>
      rw [Chronicle.after]
      split
      · exact kept
      · next step => exact kept.erase step
  | update id f =>
      rw [Chronicle.after]
      split
      · exact kept
      · next step => exact kept.update step

theorem Kept.foldl (kept : h.Kept) (few : (ops.foldl Chronicle.after h).Few) :
    (ops.foldl Chronicle.after h).Kept := by
  induction ops generalizing h with
  | nil => exact kept
  | cons op ops ih => exact ih (kept.after (few.of_prefix (freed_foldl (h.after op) ops))) few

/-! ### What an identity stands for -/

end Chronicle

/-- What a store tells of an identity: the row of its line, the first code unit and the sizes. -/
def describe (s : LineStore) (id : LineId) : Option Nat × Option Nat × Option LineMetrics :=
  ((s.locate id).map Place.row, s.location? id, s.metrics? id)

/-- A store knows all about a line of an identity. -/
def Resolves (s : LineStore) (id : LineId) : Prop :=
  ∃ row location d, s.describe id = (some row, some location, some d)

theorem Valid.describe_eq {front rest : List (LineId × LineMetrics)} (valid : s.Valid)
    (lines : s.toList = front ++ (id, m) :: rest) :
    s.describe id = (some front.length, some (lengthOf front), some m) := by
  obtain ⟨place, located, -, metrics, location, -⟩ := valid.locate_eq lines
  obtain ⟨place', located', -, -, before, -⟩ := valid.locate lines
  obtain rfl := Option.some.inj (located.symm.trans located')
  obtain ⟨⟨-, left, -⟩, above⟩ := valid.summed.locate located
  rw [describe, location?, metrics?, located, Option.map_some, Option.map_some, Option.map_some,
    Place.row_eq left above.siblings, before, location, metrics]

theorem describe_eq_none (gone : id ∉ s.ids) : s.describe id = (none, none, none) := by
  rw [describe, location?, metrics?, locate_eq_none gone]
  rfl

theorem Valid.resolves_iff (valid : s.Valid) : s.Resolves id ↔ id ∈ s.ids := by
  constructor
  · rintro ⟨row, location, d, known⟩
    by_contra gone
    rw [describe_eq_none gone] at known
    cases known
  · intro mem
    obtain ⟨front, m, rest, lines⟩ := mem_ids_iff.mp mem
    exact ⟨_, _, _, valid.describe_eq lines⟩

/-- The operation ends the line of an identity. -/
def Ends (s : LineStore) (id : LineId) : Operation → Prop
  | .reset _ | .rebuild _ => True
  | .erase id' => id' = id ∧ (s.erase? id').isSome
  | .insertAfter .. | .update .. => False

namespace Chronicle

variable {h : Chronicle} {k : Nat} {op : Operation} {ops : List Operation}

/-- None of the operations ends the line of an identity. -/
def Lives (h : Chronicle) (id : LineId) : List Operation → Prop
  | [] => True
  | op :: ops => ¬h.store.Ends id op ∧ (h.after op).Lives id ops

/-- The store answers by identities what the account says by numbers. -/
structure Faithful (h : Chronicle) : Prop where
  /-- No line was given the identity of another. -/
  unique : h.issued.Nodup
  /-- Every line has an identity, and that stands for this line. -/
  found : ∀ front k d rest, h.alive = front ++ (k, d) :: rest → ∃ id, h.Names id k ∧
    h.store.describe id = (some front.length, some (front.map (·.2.totalLength)).sum, some d)
  /-- No other identity stands for anything. -/
  lost : ∀ id, (∀ k ∈ h.numbers, ¬h.Names id k) → h.store.describe id = (none, none, none)

theorem Kept.faithful (kept : h.Kept) : h.Faithful := by
  constructor
  case unique => exact kept.unique
  case found =>
    intro front k d rest alive
    have told := kept.told
    rw [alive] at told
    obtain ⟨above, ⟨id, d'⟩, below, lines, same, ⟨names, rfl⟩, -⟩ := exists_split_left told
    refine ⟨id, names, ?_⟩
    have lengths : above.map (·.2.totalLength) = front.map (·.2.totalLength) := by
      refine List.forall₂_eq_eq_eq ▸ ?_
      rw [List.forall₂_map_left_iff, List.forall₂_map_right_iff]
      exact same.imp fun line line' ⟨_, equal⟩ => by rw [equal]
    rw [kept.valid.describe_eq lines, same.length_eq, lengthOf, lengths]
  case lost =>
    intro id unnamed
    refine describe_eq_none fun mem => ?_
    obtain ⟨line, inside, rfl⟩ := List.mem_map.mp mem
    obtain ⟨line', alive, names, -⟩ := exists_of_mem_left kept.told inside
    exact unnamed line'.1 (List.mem_map_of_mem alive) names

/-- A line that is made is there. -/
theorem mem_ids_after (new : id ∈ (h.after op).issued) (unknown : id ∉ h.issued) (kept : h.Kept) :
    id ∈ (h.after op).store.ids := by
  cases op with
  | reset m => exact (List.mem_append.mp new).resolve_left unknown
  | rebuild ms => exact (List.mem_append.mp new).resolve_left unknown
  | insertAfter id' m =>
      rw [after] at new ⊢
      split at new
      · exact absurd new unknown
      · next new' s step =>
          obtain rfl := List.mem_singleton.mp ((List.mem_append.mp new).resolve_left unknown)
          obtain ⟨front, d, rest, -, -, -, lines'⟩ := kept.valid.exists_of_insertAfter? step
          simp [ids, lines']
  | erase id' =>
      rw [after] at new
      split at new <;> exact absurd new unknown
  | update id' f =>
      rw [after] at new
      split at new <;> exact absurd new unknown

/-- A line that was made before is there behind an operation exactly when it was there and the
operation does not end it. -/
theorem Kept.mem_ids_after_iff (kept : h.Kept) (few : (h.after op).Few) (old : id ∈ h.issued) :
    id ∈ (h.after op).store.ids ↔ id ∈ h.store.ids ∧ ¬h.store.Ends id op := by
  have unique := (kept.after few).unique
  cases op with
  | reset m =>
      have apart := (List.nodup_append.mp unique).2.2
      exact iff_of_false (fun mem => apart id old id mem rfl) fun stays => stays.2 trivial
  | rebuild ms =>
      have apart := (List.nodup_append.mp unique).2.2
      exact iff_of_false (fun mem => apart id old id mem rfl) fun stays => stays.2 trivial
  | insertAfter id' m =>
      cases step : h.store.insertAfter? id' m with
      | none => simp [Chronicle.after, step, Ends]
      | some made =>
          obtain ⟨new, s⟩ := made
          obtain ⟨front, d, rest, lines, -, -, lines'⟩ := kept.valid.exists_of_insertAfter? step
          simp only [Chronicle.after, step] at unique ⊢
          have other : id ≠ new :=
            (List.nodup_append.mp unique).2.2 id old new (List.mem_singleton_self new)
          simp [ids, lines, lines', Ends, other]
  | erase id' =>
      cases step : h.store.erase? id' with
      | none => simp [Chronicle.after, step, Ends]
      | some s =>
          obtain ⟨front, d, rest, lines, -, lines'⟩ := kept.valid.exists_of_erase? step
          rw [← kept.valid.filter_eq lines] at lines'
          simp [Chronicle.after, step, Ends, ids, lines', @eq_comm _ id']
  | update id' f =>
      cases step : h.store.update? id' f with
      | none => simp [Chronicle.after, step, Ends]
      | some s =>
          obtain ⟨front, d, rest, lines, -, lines'⟩ := kept.valid.exists_of_update? step
          simp [Chronicle.after, step, Ends, ids, lines, lines']

/-- A line that was made before is there behind some operations exactly when it was there and lives
through them. -/
theorem Kept.mem_ids_foldl_iff (kept : h.Kept) (few : (ops.foldl Chronicle.after h).Few)
    (old : id ∈ h.issued) :
    id ∈ (ops.foldl Chronicle.after h).store.ids ↔ id ∈ h.store.ids ∧ h.Lives id ops := by
  induction ops generalizing h with
  | nil => exact (and_iff_left trivial).symm
  | cons op ops ih =>
      have few' : (h.after op).Few := few.of_prefix (freed_foldl (h.after op) ops)
      have old' : id ∈ (h.after op).issued := (issued_after h op).subset old
      calc id ∈ (ops.foldl Chronicle.after (h.after op)).store.ids
          ↔ id ∈ (h.after op).store.ids ∧ (h.after op).Lives id ops := ih (kept.after few') few old'
        _ ↔ (id ∈ h.store.ids ∧ ¬h.store.Ends id op) ∧ (h.after op).Lives id ops := by
            rw [kept.mem_ids_after_iff few' old]
        _ ↔ id ∈ h.store.ids ∧ h.Lives id (op :: ops) := and_assoc

/-- What is true of the identities of a store on which some operations are done. -/
structure Lifetimes (m : LineMetrics) (ops : List Operation) : Prop where
  /-- At any time the store tells of each line what the account tells, and of nothing else. -/
  faithful : ∀ before after, ops = before ++ after → (run m before).Faithful
  /-- A line keeps its identity. -/
  keeps : ∀ before after, ops = before ++ after → (run m before).issued <+: (run m ops).issued
  /-- An identity is good from the operation that makes its line. -/
  made : ∀ before op after, ops = before ++ op :: after → ∀ id ∈ (run m (before ++ [op])).issued,
    id ∉ (run m before).issued → (run m (before ++ [op])).store.Resolves id
  /-- It is good until an operation ends the line, and never again. -/
  lives : ∀ before after, ops = before ++ after → ∀ id ∈ (run m before).issued,
    ((run m ops).store.Resolves id ↔ (run m before).store.Resolves id ∧
      (run m before).Lives id after)

theorem run_append (m : LineMetrics) (before ops : List Operation) :
    run m (before ++ ops) = ops.foldl after (run m before) := List.foldl_append

/-- An identity stands for one line from the making of that line up to its end, and for none ever
after, as long as no slot is freed as often as there are generations. -/
theorem lifetimes (m : LineMetrics) (ops : List Operation) (few : (run m ops).Few) :
    Lifetimes m ops := by
  have kept : ∀ before after, ops = before ++ after → (run m before).Kept := by
    rintro before after rfl
    rw [run_append] at few
    exact (kept_start m).foldl (few.of_prefix (freed_foldl _ after))
  constructor
  case faithful =>
    intro before after split
    exact (kept before after split).faithful
  case keeps =>
    rintro before after rfl
    rw [run_append]
    exact issued_foldl _ after
  case made =>
    intro before op after split id new unknown
    have kept' := kept (before ++ [op]) after (by simp [split])
    rw [run_append] at new kept' ⊢
    exact kept'.valid.resolves_iff.mpr
      (mem_ids_after new unknown (kept before (op :: after) split))
  case lives =>
    intro before after split id old
    have valid := (kept ops [] (by simp)).valid
    replace kept := kept before after split
    subst split
    rw [run_append] at few valid ⊢
    rw [valid.resolves_iff, kept.valid.resolves_iff]
    exact kept.mem_ids_foldl_iff few old

/-- The slot of an erased line is used again under another identity. -/
theorem lifetimes_of_reused_slot :
    let m := LineMetrics.undelimited 1 0.0
    let ops := [.insertAfter ⟨0, 0⟩ m, .erase ⟨1, 0⟩, .insertAfter ⟨0, 0⟩ m]
    (run m ops).issued = [⟨0, 0⟩, ⟨1, 0⟩, ⟨1, 1⟩] ∧ (run m ops).Few ∧ Lifetimes m ops := by
  intro m ops
  have few : (run m ops).Few := by
    intro slot
    have freed : (run m ops).freed = [1] := rfl
    rw [freed]
    exact Nat.lt_of_le_of_lt List.count_le_length (by decide)
  exact ⟨rfl, few, lifetimes m ops few⟩

end Chronicle

end CodeEditor.LineStore

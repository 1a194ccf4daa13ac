import CodeEditor.Proofs.Layer.Parse
import Mathlib.Data.List.Perm.Basic

/-!
Which layers are kept.

The parts of a tree are assigned layers of the tree before one by one. Whatever is chosen, the
layers that are kept and those that no part was given are together the layers of the tree before
(`Assigned.perm`), a layer is kept for a part in its language, and every part has a layer at its
place or needs a new one (`assign_ok`, `foldlM_assign_ok`).
-/

namespace CodeEditor.Layer.LayerTree

open Syntax (Node Language)

variable {t t' : LayerTree} {engine : Engine}
    {tree : Language → TextBuffer → Option ByteRange → Node}
  {id child : LayerId} {n : Nat} {edit : TextEdit}

/-! ### Choosing a layer -/

theorem swapRemove_perm {α : Type} {xs : List α} {i : Nat} {x : α} (at? : xs[i]? = some x) :
    xs.Perm (x :: swapRemove xs i) := by
  obtain ⟨bound, rfl⟩ := List.getElem?_eq_some_iff.mp at?
  rcases List.eq_nil_or_concat' xs with rfl | ⟨ys, last, rfl⟩
  · cases bound
  · have removed : swapRemove (ys ++ [last]) i = ((ys ++ [last]).set i last).dropLast := by
      rw [swapRemove, List.getLast?_concat]
    rw [removed]
    rw [List.length_append, List.length_singleton] at bound
    rcases Nat.lt_or_ge i ys.length with inside | behind
    · rw [List.set_append_left _ _ inside, List.dropLast_concat, List.getElem_append_left inside]
      apply (List.perm_append_singleton last ys).trans
      have chosen := List.getElem_cons_eraseIdx_perm inside
      have replaced := List.set_perm_cons_eraseIdx inside last
      exact ((chosen.symm.cons last).trans (.swap _ _ _)).trans (replaced.symm.cons _)
    · obtain rfl : i = ys.length := by omega
      rw [List.set_append_right _ _ behind, Nat.sub_self, List.set_cons_zero, List.dropLast_concat,
        List.getElem_concat_length rfl]
      exact List.perm_append_singleton last ys

/-- A layer that is chosen is in the language of the part. -/
theorem of_adopt? {orphans rest : List (Site × LayerId)} {p : InjectedPart}
    (chosen : t.adopt? edit orphans p = some (child, rest)) :
    ∃ k l, orphans.Perm ((k, child) :: rest) ∧ t.layer? child = some l ∧
      l.language.id = p.language.id := by
  rw [adopt?] at chosen
  obtain ⟨i, numbered, chosen⟩ := Option.bind_eq_some_iff.mp chosen
  obtain ⟨⟨k, a⟩, at?, made⟩ := Option.bind_eq_some_iff.mp chosen
  obtain ⟨rfl, rfl⟩ := Prod.mk.inj (Option.some.inj made)
  obtain ⟨_, here⟩ := List.getElem?_eq_some_iff.mp at?
  have isSame : (t.layer? a).any (·.language.id = p.language.id) = true := by
    rcases Option.or_eq_some_iff.mp numbered with first | ⟨-, second⟩
    · obtain ⟨_, holds, -⟩ := List.findIdx?_eq_some_iff_getElem.mp first
      rw [here, Bool.and_eq_true] at holds
      exact holds.2
    · obtain ⟨_, holds, -⟩ := List.findIdx?_eq_some_iff_getElem.mp second
      rw [here, Bool.and_eq_true] at holds
      exact holds.1
  obtain ⟨l, there, same⟩ := (Option.any_eq_true _ _).mp isSame
  exact ⟨k, l, swapRemove_perm at?, there, by simpa using same⟩

/-! ### Assigning all parts -/

/-- The layers that an assignment speaks of. -/
def Assignment.ids (a : Assignment) : List LayerId := (a.orphans ++ a.kept).map (·.2)

/-- A layer shows something in a known language, and so do those below it. -/
def ShowsKnown (engine : Engine) (w : Setting) (s : LayerStore) (id : LayerId) (u : Layers) :
    Prop :=
  ∃ m, s.Shows engine.site m id u ∧ (∃ name, w.known name = some u.language) ∧
    Setting.Known w.known u

/-- What holds when some candidates of a tree, which came out of the parse with a number, have been
assigned layers. -/
structure Assigned (engine : Engine) (w : Setting) (n : Nat) (s : LayerStore) (cs : List Candidate)
    (a : Assignment) : Prop where
  orphans : ∀ k child, (k, child) ∈ a.orphans → ∃ u, ShowsKnown engine w s child u
  /-- A layer is kept for a candidate in its language. -/
  kept : ∀ k child, (k, child) ∈ a.kept → ∃ c ∈ cs, k = engine.site n c.path ∧
    ∃ u, ShowsKnown engine w s child u ∧ u.language = c.language ∧ u.range = some c.range
  distinct : a.kept.Pairwise fun x y => x.1 ≠ y.1
  fresh : ∀ p ∈ a.fresh, p.candidate ∈ cs ∧ p.site = engine.site n p.injection.path
  every : ∀ c ∈ cs, (∃ child, (engine.site n c.path, child) ∈ a.kept) ∨
    ∃ p ∈ a.fresh, p.candidate = c

namespace Assigned

variable {w : Setting} {s s' : LayerStore} {cs cs' : List Candidate} {a : Assignment}

/-- At first no part has a layer, and none of the layers belongs to one. -/
theorem start {orphans : List (Site × LayerId)}
    (shown : ∀ k child, (k, child) ∈ orphans → ∃ u, ShowsKnown engine w s child u) :
    Assigned engine w n s [] { orphans } where
  orphans := shown
  kept := fun _ _ mem => absurd mem List.not_mem_nil
  distinct := .nil
  fresh := fun _ mem => absurd mem List.not_mem_nil
  every := fun _ mem => absurd mem List.not_mem_nil

/-- More candidates have been looked at. -/
theorem more (assigned : Assigned engine w n s cs a)
    (every : ∀ c ∈ cs', (∃ child, (engine.site n c.path, child) ∈ a.kept) ∨
      ∃ p ∈ a.fresh, p.candidate = c) : Assigned engine w n s (cs ++ cs') a where
  orphans := assigned.orphans
  kept := by
    intro k child mem
    obtain ⟨c, among, holds⟩ := assigned.kept k child mem
    exact ⟨c, List.mem_append_left _ among, holds⟩
  distinct := assigned.distinct
  fresh := fun p mem => ⟨List.mem_append_left _ (assigned.fresh p mem).1, (assigned.fresh p mem).2⟩
  every := by
    intro c mem
    rcases List.mem_append.mp mem with mem | mem
    · exact assigned.every c mem
    · exact every c mem

/-- A candidate needs a new layer. -/
theorem new (assigned : Assigned engine w n s cs a) (p : InjectedPart)
    (place : p.site = engine.site n p.injection.path) :
    Assigned engine w n s (cs ++ [p.candidate]) { a with fresh := p :: a.fresh } where
  orphans := assigned.orphans
  kept := by
    intro k child mem
    obtain ⟨c, among, holds⟩ := assigned.kept k child mem
    exact ⟨c, List.mem_append_left _ among, holds⟩
  distinct := assigned.distinct
  fresh := by
    intro q mem
    rcases List.mem_cons.mp mem with rfl | mem
    · exact ⟨List.mem_append_right _ (List.mem_singleton_self _), place⟩
    · exact ⟨List.mem_append_left _ (assigned.fresh q mem).1, (assigned.fresh q mem).2⟩
  every := by
    intro c mem
    rcases List.mem_append.mp mem with mem | mem
    · rcases assigned.every c mem with kept | ⟨q, among, same⟩
      · exact .inl kept
      · exact .inr ⟨q, List.mem_cons_of_mem _ among, same⟩
    · obtain rfl := List.mem_singleton.mp mem
      exact .inr ⟨p, List.mem_cons_self, rfl⟩

/-- A candidate is given a layer. -/
theorem adopt {rest : List (Site × LayerId)} {k : Site} {c : Candidate}
    (assigned : Assigned engine w n s cs a) (perm : a.orphans.Perm ((k, child) :: rest))
    (free : a.kept.lookup (engine.site n c.path) = none)
    (others : ∀ b ∈ rest.map (·.2) ++ a.kept.map (·.2), ∀ u, ShowsKnown engine w s b u →
      ShowsKnown engine w s' b u)
    (shown : ∃ u, ShowsKnown engine w s' child u ∧ u.language = c.language ∧
      u.range = some c.range) :
    Assigned engine w n s' (cs ++ [c])
      { a with orphans := rest, kept := (engine.site n c.path, child) :: a.kept } where
  orphans := by
    intro k' b mem
    obtain ⟨u, shown⟩ := assigned.orphans k' b (perm.mem_iff.mpr (List.mem_cons_of_mem _ mem))
    exact ⟨u, others b (List.mem_append_left _ (List.mem_map_of_mem mem)) u shown⟩
  kept := by
    intro k' b mem
    rcases List.mem_cons.mp mem with same | mem
    · cases same
      exact ⟨c, List.mem_append_right _ (List.mem_singleton_self c), rfl, shown⟩
    · obtain ⟨c', among, here, u, shown, holds⟩ := assigned.kept k' b mem
      exact ⟨c', List.mem_append_left _ among, here, u,
        others b (List.mem_append_right _ (List.mem_map_of_mem mem)) u shown, holds⟩
  distinct := by
    refine List.pairwise_cons.mpr ⟨?_, assigned.distinct⟩
    rintro ⟨k', b⟩ mem
    exact Ne.symm (ne_of_lookup_eq_none free mem)
  fresh := fun p mem => ⟨List.mem_append_left _ (assigned.fresh p mem).1, (assigned.fresh p mem).2⟩
  every := by
    intro c' mem
    rcases List.mem_append.mp mem with mem | mem
    · rcases assigned.every c' mem with ⟨b, kept⟩ | fresh
      · exact .inl ⟨b, List.mem_cons_of_mem _ kept⟩
      · exact .inr fresh
    · obtain rfl := List.mem_singleton.mp mem
      exact .inl ⟨child, List.mem_cons_self⟩

end Assigned

/-- Languages are told apart by their numbers. -/
def Numbered (known : String → Option Language) : Prop :=
  ∀ name name' a b, known name = some a → known name' = some b → a.id = b.id → a = b

theorem ids_perm {a : Assignment} {rest : List (Site × LayerId)} {k : Site}
    (perm : a.orphans.Perm ((k, child) :: rest)) :
    (a.ids ++ [id]).Perm ([child] ++ (rest.map (·.2) ++ a.kept.map (·.2) ++ [id])) := by
  rw [Assignment.ids, List.map_append, ← List.append_assoc, ← List.append_assoc]
  exact ((perm.map (·.2)).append_right _).append_right _

theorem ids_perm_kept (orphans kept : List (Site × LayerId)) (fresh : List InjectedPart) (k : Site)
    (child id : LayerId) :
    (({ orphans, kept := (k, child) :: kept, fresh } : Assignment).ids ++ [id]).Perm
      ([child] ++ (orphans.map (·.2) ++ kept.map (·.2) ++ [id])) := by
  rw [Assignment.ids, List.map_append, ← List.append_assoc, ← List.append_assoc]
  exact List.perm_middle.append_right _

/-- A layer in the language of a candidate is given the candidate's part and kept for it. -/
theorem adopt_ok {w : Setting} {cs : List Candidate} {a : Assignment} {s : LayerStore}
    {rest : List (Site × LayerId)} {k : Site} {l : SyntaxLayer} {c : Candidate} {name : String}
    (numbered : Numbered w.known) (sound : s.Sound) (assigned : Assigned engine w n s cs a)
    (forest : s.Forest engine.site (a.ids ++ [id])) (perm : a.orphans.Perm ((k, child) :: rest))
    (there : s.layer? child = some l) (named : w.known name = some c.language)
    (number : l.language.id = c.language.id)
    (free : a.kept.lookup (engine.site n c.path) = none) :
    ∃ s', s' = (s.modify child fun l => { l with range := some c.range }) ∧ s'.Sound ∧
      Assigned engine w n s' (cs ++ [c])
        { a with orphans := rest, kept := (engine.site n c.path, child) :: a.kept } ∧
      s'.Forest engine.site (Assignment.ids
        { a with orphans := rest, kept := (engine.site n c.path, child) :: a.kept } ++ [id]) ∧
      s.Local s' (s.Under (a.ids ++ [id])) (s'.Under (Assignment.ids
        { a with orphans := rest, kept := (engine.site n c.path, child) :: a.kept } ++ [id])) ∧
      ∀ m v, s.Shows engine.site m id v → s'.Shows engine.site m id v := by
  obtain ⟨u, m, shows, ⟨name', has⟩, below⟩ :=
    assigned.orphans k child (perm.mem_iff.mpr List.mem_cons_self)
  obtain ⟨l', there', -, language', -⟩ := shows.exists_layer
  obtain rfl : l = l' := Option.some.inj (there.symm.trans there')
  have one : u.language = c.language :=
    numbered name' name _ _ has named (by rw [← language', number])
  obtain ⟨shows', change⟩ := LayerStore.shows_range shows (some c.range)
  refine ⟨_, rfl, sound.modify child _, ?_⟩
  generalize s.modify child _ = s' at shows' change ⊢
  obtain ⟨forest', change', kept⟩ := (forest.perm (ids_perm perm)).frame change
    (LayerStore.forest_singleton shows')
  have others : ∀ b ∈ rest.map (·.2) ++ a.kept.map (·.2), ∀ u,
      ShowsKnown engine w s b u → ShowsKnown engine w s' b u := by
    rintro b mem u ⟨m, shows, holds⟩
    exact ⟨m, kept b (List.mem_append_left _ mem) m u shows, holds⟩
  have perm' := ids_perm_kept rest a.kept a.fresh (engine.site n c.path) child id
  refine ⟨assigned.adopt perm free others ⟨{ u with range := some c.range },
    ⟨m, shows', ⟨name', has⟩, below.range _⟩, one, rfl⟩, forest'.perm perm'.symm, ?_, ?_⟩
  · rw [LayerStore.under_perm (ids_perm perm), LayerStore.under_perm perm']
    exact change'
  · intro m v shows
    exact kept id (List.mem_append_right _ (List.mem_singleton_self id)) m v shows

/-- A part is assigned a layer or needs a new one, and layers that are not assigned to it stay. -/
theorem assign_ok {w : Setting} {cs : List Candidate} {a : Assignment} (edit : TextEdit)
    (numbered : Numbered w.known) (sound : t.store.Sound) (same : t.setting tree = w)
    (assigned : Assigned engine w n t.store cs a)
    (forest : t.store.Forest engine.site (a.ids ++ [id])) (i : Injection) :
    ∃ a' t', assign edit a (engine.site n i.path, i) t = .ok a' t' ∧
      Assigned engine w n t'.store (cs ++ (w.candidate? i).toList) a' ∧
      t'.store.Forest engine.site (a'.ids ++ [id]) ∧ t.Carries t' (a.ids ++ [id]) (a'.ids ++ [id]) ∧
      ∀ m v, t.store.Shows engine.site m id v → t'.store.Shows engine.site m id v := by
  have known : t.language? i.languageName = w.known i.languageName := by rw [← same, setting]
  rw [assign]
  cases free : a.kept.lookup (engine.site n i.path) with
  | some child =>
      rw [Option.isSome_some, if_pos rfl]
      refine ⟨a, t, rfl, assigned.more ?_, forest, .refl sound _, fun _ _ shows => shows⟩
      intro c mem
      obtain ⟨language, -, rfl⟩ := Option.map_eq_some_iff.mp (Option.mem_toList.mp mem)
      exact .inl ⟨child, mem_of_lookup free⟩
  | none =>
      rw [Option.isSome_none, if_neg Bool.false_ne_true, get_bind, known, Setting.candidate?]
      cases named : w.known i.languageName with
      | none =>
          refine ⟨a, t, rfl, assigned.more ?_, forest, .refl sound _, fun _ _ shows => shows⟩
          intro c mem
          cases mem
      | some language =>
          dsimp only
          rw [get_bind]
          cases chosen : t.adopt? edit a.orphans ⟨engine.site n i.path, i, language⟩ with
          | none =>
              exact ⟨_, t, rfl, assigned.new ⟨engine.site n i.path, i, language⟩ rfl, forest,
                .refl sound _, fun _ _ shows => shows⟩
          | some choice =>
              obtain ⟨child, rest⟩ := choice
              obtain ⟨k, l, perm, there, number⟩ := of_adopt? chosen
              obtain ⟨s', made, sound', adopted, forest', change, kept⟩ := adopt_ok numbered sound
                assigned forest perm there (c := ⟨i.path, language, i.byteRange⟩) named number free
              dsimp only
              rw [modifyLayer_bind, ← made]
              exact ⟨_, _, rfl, adopted, forest', .onStore sound' change, kept⟩

/-- All parts are assigned layers or need new ones, and the layer they belong to stays. -/
theorem foldlM_assign_ok {w : Setting} {cs : List Candidate} {a : Assignment} (edit : TextEdit)
    (numbered : Numbered w.known) (sound : t.store.Sound) (same : t.setting tree = w)
    (assigned : Assigned engine w n t.store cs a)
    (forest : t.store.Forest engine.site (a.ids ++ [id])) (is : List Injection) :
    ∃ a' t', (is.map fun i => (engine.site n i.path, i)).foldlM (assign edit) a t = .ok a' t' ∧
      Assigned engine w n t'.store (cs ++ is.filterMap w.candidate?) a' ∧
      t'.store.Forest engine.site (a'.ids ++ [id]) ∧ t.Carries t' (a.ids ++ [id]) (a'.ids ++ [id]) ∧
      ∀ m v, t.store.Shows engine.site m id v → t'.store.Shows engine.site m id v := by
  induction is generalizing t a cs with
  | nil =>
      refine ⟨a, t, rfl, ?_, forest, .refl sound _, fun _ _ shows => shows⟩
      rwa [List.filterMap_nil, List.append_nil]
  | cons i is ih =>
      obtain ⟨a₁, t₁, run, assigned₁, forest₁, carries, kept⟩ :=
        assign_ok edit numbered sound same assigned forest i
      obtain ⟨a', t', run', assigned', forest', carries', kept'⟩ :=
        ih carries.sound ((carries.setting_eq tree).trans same) assigned₁ forest₁
      refine ⟨a', t', ?_, ?_, forest', carries.trans carries',
        fun m v shows => kept' m v (kept m v shows)⟩
      · rw [List.map_cons, List.foldlM_cons, bind_ok run]
        exact run'
      · rwa [filterMap_cons_toList, ← List.append_assoc]

end CodeEditor.Layer.LayerTree

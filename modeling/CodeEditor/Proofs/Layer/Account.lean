import CodeEditor.Proofs.Layer.Store

/-!
Identities that do not come back.

An `Account` tells what was done to slots one after another and lists the slots that were freed. The
generation of a slot counts how often it was freed (`Account.slot`), so a layer that is gone is gone
for good as long as the count does not run full (`Account.gone_for_good`).
-/

namespace CodeEditor.Layer.LayerStore

variable {s s' s'' : LayerStore} {freed freed' : List Nat} {id : LayerId} {l : SyntaxLayer}

/-- What was done to some slots leads to others, and these slots were freed on the way. -/
inductive Account (s : LayerStore) : List Nat → LayerStore → Prop
  | start : Account s [] s
  | modify {freed : List Nat} {s' : LayerStore} (id : LayerId)
    (change : SyntaxLayer → SyntaxLayer) :
      Account s freed s' → Account s freed (s'.modify id change)
  | insert {freed : List Nat} {s' : LayerStore} (l : SyntaxLayer) :
      Account s freed s' → Account s freed (s'.insert l).2
  | release {freed : List Nat} {s' : LayerStore} (id : LayerId) :
      Account s freed s' → Account s (freed ++ [id.slot]) (s'.release id)

/-- No slot is freed so often that its generation comes back. -/
def Few (freed : List Nat) : Prop := ∀ slot, freed.count slot < UInt32.size

namespace Account

theorem trans (first : s.Account freed s') (second : s'.Account freed' s'') :
    s.Account (freed ++ freed') s'' := by
  induction second with
  | start =>
      rw [List.append_nil]
      exact first
  | modify id change _ ih => exact .modify id change ih
  | insert l _ ih => exact .insert l ih
  | release id _ ih =>
      rw [← List.append_assoc]
      exact .release id ih

/-- A slot changes its generation with each use, and its layer stays until it is freed. -/
theorem slot (account : s.Account freed s') {i : Nat} {held : LayerSlot}
    (at? : s.slots[i]? = some held) :
    ∃ held', s'.slots[i]? = some held' ∧
      held'.generation = held.generation + UInt32.ofNat (freed.count i) ∧
      (freed.count i = 0 → held.layer.isSome → held'.layer.isSome) := by
  induction account with
  | start => exact ⟨held, at?, (UInt32.add_zero _).symm, fun _ some => some⟩
  | @modify freed s' id change _ ih =>
      obtain ⟨held', at?', generation, stays⟩ := ih
      rw [LayerStore.modify]
      dsimp only
      rw [Array.getElem?_modify, at?']
      by_cases here : id.slot = i
      · rw [if_pos here, Option.map_some]
        by_cases current : held'.generation = id.generation
        · refine ⟨_, congrArg some (if_pos current), generation, fun none some => ?_⟩
          rw [Option.isSome_map]
          exact stays none some
        · exact ⟨held', congrArg some (if_neg current), generation, stays⟩
      · rw [if_neg here]
        exact ⟨held', rfl, generation, stays⟩
  | @insert freed s' l _ ih =>
      obtain ⟨held', at?', generation, stays⟩ := ih
      rw [LayerStore.insert]
      cases s'.free with
      | nil =>
          dsimp only
          obtain ⟨inside, same⟩ := Array.getElem?_eq_some_iff.mp at?'
          rw [Array.getElem?_push_lt inside, same]
          exact ⟨held', rfl, generation, stays⟩
      | cons slot free =>
          dsimp only
          rw [Array.getElem?_modify, at?']
          by_cases here : slot = i
          · rw [if_pos here]
            exact ⟨_, rfl, generation, fun _ _ => rfl⟩
          · rw [if_neg here]
            exact ⟨held', rfl, generation, stays⟩
  | @release freed s' id _ ih =>
      obtain ⟨held', at?', generation, stays⟩ := ih
      rw [LayerStore.release]
      dsimp only
      rw [Array.getElem?_modify, at?', List.count_append, List.count_singleton]
      by_cases here : id.slot = i
      · subst here
        rw [if_pos rfl, if_pos (beq_self_eq_true _)]
        refine ⟨_, rfl, ?_, fun none => absurd none (Nat.succ_ne_zero _)⟩
        dsimp only
        rw [generation, UInt32.ofNat_add, UInt32.add_assoc]
        rfl
      · rw [if_neg here, if_neg (by simpa using here), Nat.add_zero]
        exact ⟨held', rfl, generation, stays⟩

/-- A layer that is gone does not come back under its identity. -/
theorem gone_for_good (first : s.Account freed s') (second : s'.Account freed' s'')
    (few : Few (freed ++ freed')) (there : s.layer? id = some l) (gone : s'.layer? id = none) :
    s''.layer? id = none := by
  have at? := layer?_eq_some_iff.mp there
  obtain ⟨held', at?', generation', stays⟩ := first.slot at?
  have used : freed.count id.slot ≠ 0 := by
    intro unused
    rw [unused] at generation'
    obtain ⟨l', is⟩ := Option.isSome_iff_exists.mp (stays unused rfl)
    obtain ⟨g, layer⟩ := held'
    obtain rfl : g = id.generation := generation'.trans (UInt32.add_zero _)
    obtain rfl : layer = some l' := is
    cases gone.symm.trans (layer?_eq_some_iff.mpr at?')
  obtain ⟨held'', at?'', generation'', -⟩ := (first.trans second).slot at?
  have bound := few id.slot
  have differs : held''.generation ≠ id.generation := by
    intro same
    rw [same] at generation''
    have zero : UInt32.ofNat ((freed ++ freed').count id.slot) = 0 := by
      refine (UInt32.add_right_inj id.generation).mp ?_
      rw [← generation'', UInt32.add_zero]
    have count := congrArg UInt32.toNat zero
    rw [UInt32.toNat_ofNat_of_lt' bound, List.count_append] at count
    exact used (Nat.eq_zero_of_add_eq_zero_right count)
  rw [layer?, at?'']
  exact if_neg differs

end Account

/-- Slots are accounted for. -/
def Accounted (s s' : LayerStore) : Prop := ∃ freed, s.Account freed s'

namespace Accounted

theorem refl (s : LayerStore) : s.Accounted s := ⟨[], .start⟩

theorem trans (first : s.Accounted s') (second : s'.Accounted s'') : s.Accounted s'' := by
  obtain ⟨freed, account⟩ := first
  obtain ⟨freed', account'⟩ := second
  exact ⟨freed ++ freed', account.trans account'⟩

theorem modify (accounted : s.Accounted s') (id : LayerId) (change : SyntaxLayer → SyntaxLayer) :
    s.Accounted (s'.modify id change) :=
  accounted.imp fun _ account => .modify id change account

theorem insert (accounted : s.Accounted s') (l : SyntaxLayer) : s.Accounted (s'.insert l).2 :=
  accounted.imp fun _ account => .insert l account

theorem removeWithin (fuel : Nat) (accounted : s.Accounted s') (id : LayerId) :
    s.Accounted (removeWithin fuel s' id) := by
  induction fuel generalizing s' id with
  | zero =>
      rw [LayerStore.removeWithin]
      cases s'.layer? id with
      | none => exact accounted
      | some l => exact ⟨_, .release id accounted.choose_spec⟩
  | succ fuel ih =>
      rw [LayerStore.removeWithin]
      cases s'.layer? id with
      | none => exact accounted
      | some l =>
          have released : s.Accounted (s'.release id) := ⟨_, .release id accounted.choose_spec⟩
          dsimp only
          generalize s'.release id = s' at released
          induction l.children generalizing s' with
          | nil => exact released
          | cons child children ihc => exact ihc _ (ih released child.2)

theorem remove (accounted : s.Accounted s') (id : LayerId) : s.Accounted (s'.remove id) :=
  accounted.removeWithin _ id

theorem removeAll (accounted : s.Accounted s') (children : List (Site × LayerId)) :
    s.Accounted (s'.removeAll children) := by
  induction children generalizing s' with
  | nil => exact accounted
  | cons child children ih => exact ih (accounted.remove child.2)

theorem detach (accounted : s.Accounted s') (parent : LayerId) (site : Site) (child : LayerId) :
    s.Accounted (s'.detach parent site child) :=
  (accounted.modify parent _).remove child

end Accounted

end CodeEditor.Layer.LayerStore

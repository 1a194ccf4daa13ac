import CodeEditor.Failure

/-!
Steps of a program that changes a state and may stop.

Each of the first lemmas runs the first step of a program and leaves what follows it;
`bind_eq_ok_iff` and `bind_eq_error_iff` take apart what has no state. `Ends` says what holds behind
a run or why it stops, `Keeps` what holds of the state where it does either.
-/

namespace CodeEditor

variable {ε σ α β : Type}

/-- What follows a step that has a result. -/
theorem bind_ok {x : EStateM ε σ α} {f : α → EStateM ε σ β} {s s' : σ} {a : α}
    (h : x s = .ok a s') : (x >>= f) s = f a s' := by
  show EStateM.bind x f s = _
  rw [EStateM.bind, h]

/-- Nothing follows a step that stops. -/
theorem bind_error {x : EStateM ε σ α} {f : α → EStateM ε σ β} {s s' : σ} {e : ε}
    (h : x s = .error e s') : (x >>= f) s = .error e s' := by
  show EStateM.bind x f s = _
  rw [EStateM.bind, h]

/-- A program that has a result has one from its first step on. -/
theorem exists_of_bind_ok {x : EStateM ε σ α} {f : α → EStateM ε σ β} {s s'' : σ} {b : β}
    (h : (x >>= f) s = .ok b s'') : ∃ a s', x s = .ok a s' ∧ f a s' = .ok b s'' := by
  cases run : x s with
  | ok a s' => exact ⟨a, s', rfl, (bind_ok run).symm.trans h⟩
  | error e s' => cases (bind_error run).symm.trans h

theorem get_bind (f : σ → EStateM ε σ α) (s : σ) :
    ((get : EStateM ε σ σ) >>= f) s = f s s := rfl

theorem set_bind (s' : σ) (f : PUnit → EStateM ε σ α) (s : σ) :
    ((set s' : EStateM ε σ PUnit) >>= f) s = f ⟨⟩ s' := rfl

theorem modify_bind (g : σ → σ) (f : PUnit → EStateM ε σ α) (s : σ) :
    ((modify g : EStateM ε σ PUnit) >>= f) s = f ⟨⟩ (g s) := rfl

theorem modifyGet_eq (f : σ → α × σ) (s : σ) :
    (modifyGet f : EStateM ε σ α) s = .ok (f s).1 (f s).2 := rfl

theorem checked_bind (a : α) (f : α → EStateM Failure σ β) (s : σ) :
    ((checked (some a) : EStateM Failure σ α) >>= f) s = f a s := rfl

theorem pure_bind (a : α) (f : α → EStateM ε σ β) (s : σ) :
    ((pure a : EStateM ε σ α) >>= f) s = f a s := rfl

/-- Steps without a state have a result when each of them has one. -/
theorem bind_eq_ok_iff {x : Except ε α} {f : α → Except ε β} {b : β} :
    x >>= f = .ok b ↔ ∃ a, x = .ok a ∧ f a = .ok b := by
  constructor
  · intro h
    cases x with
    | ok a => exact ⟨a, rfl, h⟩
    | error e => cases h
  · rintro ⟨a, rfl, h⟩
    exact h

theorem bind_eq_error_iff {x : Except ε α} {f : α → Except ε β} {e : ε} :
    x >>= f = .error e ↔ x = .error e ∨ ∃ a, x = .ok a ∧ f a = .error e := by
  constructor
  · intro h
    cases x with
    | ok a => exact .inr ⟨a, rfl, h⟩
    | error e' =>
        cases h
        exact .inl rfl
  · rintro (rfl | ⟨a, rfl, h⟩)
    · rfl
    · exact h

/-- A run leads to a state with a property, or it stops and then something else holds. -/
def Ends (stops : Prop) (after : σ → Prop) : EStateM.Result ε σ Unit → Prop
  | .ok _ s => after s
  | .error _ _ => stops

namespace Ends

variable {stops stops' : Prop} {mid after : σ → Prop}

theorem bind {x : EStateM ε σ Unit} {f : Unit → EStateM ε σ Unit} {s : σ}
    (first : Ends stops mid (x s)) (rest : ∀ s', mid s' → Ends stops after (f () s')) :
    Ends stops after ((x >>= f) s) := by
  cases run : x s with
  | ok a s' =>
      rw [run] at first
      rw [bind_ok run]
      exact rest s' first
  | error e s' =>
      rw [run] at first
      rw [bind_error run]
      exact first

theorem mono {r : EStateM.Result ε σ Unit} (ends : Ends stops mid r) (reason : stops → stops')
    (result : ∀ s, mid s → after s) : Ends stops' after r := by
  cases r with
  | ok a s => exact result s ends
  | error e s => exact reason ends

/-- A run that cannot stop has a result. -/
theorem exists_ok {r : EStateM.Result ε σ Unit} (ends : Ends stops after r) (never : ¬stops) :
    ∃ s, r = .ok () s ∧ after s := by
  cases r with
  | ok a s => exact ⟨s, rfl, ends⟩
  | error e s => exact absurd ends never

end Ends

/-- The state behind a run, whether it has a result or stopped. -/
def stateOf : EStateM.Result ε σ α → σ
  | .ok _ s | .error _ s => s

/-- What holds of the result of a run and the state behind it, and what of the state where it
stops. -/
def Keeps (after : α → σ → Prop) (stopped : σ → Prop) : EStateM.Result ε σ α → Prop
  | .ok a s => after a s
  | .error _ s => stopped s

namespace Keeps

variable {mid : α → σ → Prop} {after : β → σ → Prop} {stopped inv : σ → Prop}

theorem bind {x : EStateM ε σ α} {f : α → EStateM ε σ β} {s : σ} (first : Keeps mid stopped (x s))
    (rest : ∀ a s', mid a s' → Keeps after stopped (f a s')) :
    Keeps after stopped ((x >>= f) s) := by
  cases run : x s with
  | ok a s' =>
      rw [run] at first
      rw [bind_ok run]
      exact rest a s' first
  | error e s' =>
      rw [run] at first
      rw [bind_error run]
      exact first

theorem mono {after' : β → σ → Prop} {stopped' : σ → Prop} {r : EStateM.Result ε σ β}
    (keeps : Keeps after stopped r) (result : ∀ b s, after b s → after' b s)
    (reason : ∀ s, stopped s → stopped' s) : Keeps after' stopped' r := by
  cases r with
  | ok b s => exact result b s keeps
  | error e s => exact reason s keeps

/-- What every step of a loop preserves holds behind the loop. -/
theorem forM {step : α → EStateM ε σ PUnit} {s : σ} (xs : List α)
    (each : ∀ a s, inv s → Keeps (fun _ => inv) stopped (step a s)) (start : inv s) :
    Keeps (fun _ => inv) stopped (xs.forM step s) := by
  induction xs generalizing s with
  | nil => exact start
  | cons a xs ih =>
      rw [List.forM_eq_forM, List.forM_cons]
      exact bind (each a s start) fun _ s' held => ih held

theorem foldlM {step : β → α → EStateM ε σ β} {b : β} {s : σ} (xs : List α)
    (each : ∀ b a s, inv s → Keeps (fun _ => inv) stopped (step b a s)) (start : inv s) :
    Keeps (fun _ => inv) stopped (xs.foldlM step b s) := by
  induction xs generalizing b s with
  | nil => exact start
  | cons a xs ih =>
      rw [List.foldlM_cons]
      exact bind (each b a s start) fun b' s' held => ih held

/-- What holds either way holds of the state behind a run. -/
theorem stateOf {r : EStateM.Result ε σ β} (keeps : Keeps after stopped r)
    (result : ∀ b s, after b s → inv s) (reason : ∀ s, stopped s → inv s) :
    inv (CodeEditor.stateOf r) := by
  cases r with
  | ok b s => exact result b s keeps
  | error e s => exact reason s keeps

end Keeps

end CodeEditor

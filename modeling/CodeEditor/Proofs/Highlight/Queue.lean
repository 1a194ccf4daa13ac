import CodeEditor.Highlight.Queue
import Mathlib.Data.List.Basic
import Mathlib.Data.List.Nodup

/-!
The queue of highlighting requests, whatever the order of its steps.

`QueueStep` is one step of the submitting side or of the worker, and `Queue.Run` is what some steps
lead to from an empty queue, with the answers that were published on the way.
`Queue.Run.answers_unless_calledOff` says of every run: the answers are those to the first requests,
one for each, and to all of them once nothing waits; the next answer has a result exactly when its
request has not been called off by then, by a later request for its line or by cancelling it,
whatever the worker has done; and the slots hold the latest request for each line, as long as it has
not been answered.

The invariant is `Queue.Keeps`. Cancelling changes nothing but the marks on requests (`Flags`), so
all ways to cancel keep it by one lemma (`Queue.Keeps.flag`).
-/

namespace CodeEditor.Highlight

variable {α β : Type}

/-- The line of an answer. -/
def Answer.line : Answer β → LineId
  | .ready line _ => line
  | .cancelled line => line

/-- A step of the submitting side or of the worker. -/
inductive QueueStep (α : Type) where
  | submit (line : LineId) (job : α)
  | cancel (id : RequestId)
  | cancelLines (changes : LineChanges)
  | cancelAll
  | take
  | finish
  | publish

namespace QueueStep

/-- The request that a step submits. -/
def submitted? : QueueStep α → Option (LineId × α)
  | submit line job => some (line, job)
  | _ => none

/-- The step calls off a request for a line that was submitted before. -/
def CallsOff (id : RequestId) (line : LineId) : QueueStep α → Prop
  | submit other _ => other = line
  | cancel other => other = id
  | cancelLines changes => line ∈ changes.edited ∨ line ∈ changes.removed ∨ line ∈ changes.inserted
  | cancelAll => True
  | _ => False

end QueueStep

/-- The requests that some steps submit, in order. -/
def submissions (steps : List (QueueStep α)) : List (LineId × α) :=
  steps.filterMap QueueStep.submitted?

/-- Among some steps there is one that calls off a request, after it was submitted. -/
def CalledOff (steps : List (QueueStep α)) (id : RequestId) (line : LineId) : Prop :=
  ∃ before step after, steps = before ++ step :: after ∧ id < (submissions before).length ∧
    step.CallsOff id line

/-- A request is the latest one for a line. -/
def Latest (submitted : List (LineId × α)) (line : LineId) (id : RequestId) : Prop :=
  (∃ job, submitted[id]? = some (line, job)) ∧
    ∀ later job, id < later → submitted[later]? ≠ some (line, job)

/-- An answer to a request: that it was cancelled, or the result of its job. -/
def Answers (work : α → β) (request : LineId × α) (answer : Answer β) : Prop :=
  answer = .cancelled request.1 ∨ answer = .ready request.1 (work request.2)

namespace Queue

/-- Do a step. -/
def step (work : α → β) (q : Queue α β) : QueueStep α → Option (Answer β) × Queue α β
  | .submit line job => (none, (q.submit line job).2)
  | .cancel id => (none, q.cancel id)
  | .cancelLines changes => (none, q.cancelLines changes)
  | .cancelAll => (none, q.cancelAll)
  | .take => (none, q.take work)
  | .finish => (none, q.finish)
  | .publish => q.publish

/-- What some steps lead to, in any order, and the answers published on the way. -/
inductive Run (work : α → β) : List (QueueStep α) → List (Answer β) → Queue α β → Prop
  | start : Run work [] [] {}
  | step {steps : List (QueueStep α)} {answers : List (Answer β)} {q : Queue α β}
      (next : QueueStep α) : Run work steps answers q →
      Run work (steps ++ [next]) (answers ++ (q.step work next).1.toList) (q.step work next).2

/-- The requests that are not answered: those done, the one taken, and those that wait. -/
def unanswered (q : Queue α β) : List RequestId :=
  q.finished.map (·.1) ++ (q.working.map (·.1)).toList ++ q.waiting

/-- What the worker has of the requests that it took. -/
def results (q : Queue α β) : List (RequestId × Option β) := q.finished ++ q.working.toList

end Queue

/-! ### Submitting and calling off -/

theorem submissions_concat (steps : List (QueueStep α)) (next : QueueStep α) :
    submissions (steps ++ [next]) = submissions steps ++ next.submitted?.toList := by
  rw [submissions, List.filterMap_append]
  cases next <;> rfl

/-- A step at the end calls off requests, or some step before it did. -/
theorem calledOff_concat {steps : List (QueueStep α)} {next : QueueStep α} {id : RequestId}
    {line : LineId} : CalledOff (steps ++ [next]) id line ↔
      CalledOff steps id line ∨ id < (submissions steps).length ∧ next.CallsOff id line := by
  constructor
  · rintro ⟨before, step, after, split, earlier, calls⟩
    rcases List.eq_nil_or_concat after with rfl | ⟨after, last, rfl⟩
    · obtain ⟨rfl, same⟩ := List.append_inj' split rfl
      obtain rfl := (List.cons.inj same).1
      exact .inr ⟨earlier, calls⟩
    · rw [List.concat_eq_append, ← List.cons_append, ← List.append_assoc] at split
      exact .inl ⟨before, step, after, (List.append_inj' split rfl).1, earlier, calls⟩
  · rintro (⟨before, step, after, rfl, earlier, calls⟩ | ⟨earlier, calls⟩)
    · exact ⟨before, step, after ++ [next], by simp, earlier, calls⟩
    · exact ⟨steps, next, [], rfl, earlier, calls⟩

/-- A later request for the same line calls a request off. -/
theorem calledOff_of_later {steps : List (QueueStep α)} {id later : RequestId} {line : LineId}
    {job : α} (follows : id < later) (there : (submissions steps)[later]? = some (line, job)) :
    CalledOff steps id line := by
  obtain ⟨inside, here⟩ := List.getElem?_eq_some_iff.mp there
  have split : submissions steps = (submissions steps).take later ++
      (line, job) :: (submissions steps).drop (later + 1) := by
    rw [← here, List.getElem_cons_drop, List.take_append_drop]
  obtain ⟨before, rest, rfl, first, tail⟩ := List.filterMap_eq_append_iff.mp split
  obtain ⟨silent, step, after, rfl, quiet, submits, -⟩ := List.filterMap_eq_cons_iff.mp tail
  refine ⟨before ++ silent, step, after, by simp, ?_, ?_⟩
  · have nothing : submissions silent = [] := List.filterMap_eq_nil_iff.mpr quiet
    have count : (submissions (before ++ silent)).length = later := by
      rw [submissions, List.filterMap_append, first, ← submissions, nothing, List.append_nil,
        List.length_take]
      exact Nat.min_eq_left (Nat.le_of_lt inside)
    rwa [count]
  · cases step <;> cases submits
    rfl

/-- Of two requests for a line only the later can be the latest. -/
theorem latest_concat {submitted : List (LineId × α)} {line other : LineId} {job : α}
    {id : RequestId} : Latest (submitted ++ [(other, job)]) line id ↔
      line = other ∧ id = submitted.length ∨ line ≠ other ∧ Latest submitted line id := by
  have last : (submitted ++ [(other, job)])[submitted.length]? = some (other, job) := by simp
  have below : ∀ i, i < submitted.length → (submitted ++ [(other, job)])[i]? = submitted[i]? := by
    intro i inside
    exact List.getElem?_append_left inside
  have beyond : ∀ i, submitted.length < i → (submitted ++ [(other, job)])[i]? = none := by
    intro i outside
    rw [List.getElem?_eq_none]
    rw [List.length_append, List.length_singleton]
    omega
  constructor
  · rintro ⟨⟨job', here⟩, alone⟩
    rcases Nat.lt_trichotomy id submitted.length with inside | rfl | outside
    · rw [below id inside] at here
      refine .inr ⟨?_, ⟨job', here⟩, ?_⟩
      · rintro rfl
        exact alone _ _ inside last
      · intro later job'' follows there
        have bound := (List.getElem?_eq_some_iff.mp there).1
        exact alone later job'' follows ((below later bound).trans there)
    · rw [last] at here
      exact .inl ⟨(congrArg Prod.fst (Option.some.inj here)).symm, rfl⟩
    · rw [beyond id outside] at here
      cases here
  · rintro (⟨rfl, rfl⟩ | ⟨differs, ⟨job', here⟩, alone⟩)
    · refine ⟨⟨job, last⟩, fun later job' follows there => ?_⟩
      rw [beyond later follows] at there
      cases there
    · have bound := (List.getElem?_eq_some_iff.mp here).1
      refine ⟨⟨job', (below id bound).trans here⟩, fun later job'' follows there => ?_⟩
      rcases Nat.lt_trichotomy later submitted.length with inside | rfl | outside
      · rw [below later inside] at there
        exact alone later job'' follows there
      · rw [last] at there
        exact differs (congrArg Prod.fst (Option.some.inj there)).symm
      · rw [beyond later outside] at there
        cases there

/-! ### Marks of cancellation -/

/-- A queue that differs from another in the marks of some requests. -/
structure Flags (q q' : Queue α β) (marked : RequestId → Prop) : Prop where
  slots : q'.slots = q.slots
  waiting : q'.waiting = q.waiting
  working : q'.working = q.working
  finished : q'.finished = q.finished
  size : q'.requests.size = q.requests.size
  requests : ∀ id r, q.requests[id]? = some r → ∃ r', q'.requests[id]? = some r' ∧
    r'.line = r.line ∧ r'.job = r.job ∧ (r'.cancelled = true ↔ r.cancelled = true ∨ marked id)

namespace Flags

theorem refl (q : Queue α β) : Flags q q fun _ => False :=
  ⟨rfl, rfl, rfl, rfl, rfl, fun _ r found => ⟨r, found, rfl, rfl, by simp⟩⟩

theorem trans {q₁ q₂ q₃ : Queue α β} {marked marked' : RequestId → Prop}
    (first : Flags q₁ q₂ marked) (second : Flags q₂ q₃ marked') :
    Flags q₁ q₃ fun id => marked id ∨ marked' id where
  slots := second.slots.trans first.slots
  waiting := second.waiting.trans first.waiting
  working := second.working.trans first.working
  finished := second.finished.trans first.finished
  size := second.size.trans first.size
  requests id r found := by
    obtain ⟨r₂, found₂, line₂, job₂, cancelled₂⟩ := first.requests id r found
    obtain ⟨r₃, found₃, line₃, job₃, cancelled₃⟩ := second.requests id r₂ found₂
    refine ⟨r₃, found₃, line₃.trans line₂, job₃.trans job₂, ?_⟩
    rw [cancelled₃, cancelled₂, or_assoc]

theorem congr {q q' : Queue α β} {marked marked' : RequestId → Prop} (flags : Flags q q' marked)
    (same : ∀ id, marked id ↔ marked' id) : Flags q q' marked' := by
  obtain rfl : marked = marked' := funext fun id => propext (same id)
  exact flags

theorem cancel (q : Queue α β) (id : RequestId) : Flags q (q.cancel id) (· = id) where
  slots := rfl
  waiting := rfl
  working := rfl
  finished := rfl
  size := Array.size_modify
  requests other r found := by
    refine ⟨if id = other then { r with cancelled := true } else r, ?_, ?_, ?_, ?_⟩
    · rw [Queue.cancel, Array.getElem?_modify, found]
      split <;> rfl
    · split <;> rfl
    · split <;> rfl
    · split
      · next same => simp [same]
      · next differs => simp [Ne.symm differs]

theorem foldl_cancel (lines : LineId → Bool) (slots : List (LineId × RequestId)) (q : Queue α β) :
    Flags q (slots.foldl (fun q (line, id) => if lines line then q.cancel id else q) q)
      fun id => ∃ line, (line, id) ∈ slots ∧ lines line = true := by
  induction slots generalizing q with
  | nil => exact (refl q).congr (by simp)
  | cons slot slots ih =>
      obtain ⟨line, id⟩ := slot
      have first : Flags q (if lines line then q.cancel id else q)
          fun other => other = id ∧ lines line = true := by
        split
        · next chosen => exact (Flags.cancel q id).congr fun other => by simp [chosen]
        · next passed => exact (refl q).congr fun other => by simp [passed]
      refine (first.trans (ih _)).congr fun other => ?_
      constructor
      · rintro (⟨rfl, chosen⟩ | ⟨line', inside, chosen⟩)
        · exact ⟨line, List.mem_cons_self, chosen⟩
        · exact ⟨line', List.mem_cons_of_mem _ inside, chosen⟩
      · rintro ⟨line', inside, chosen⟩
        rcases List.mem_cons.mp inside with same | inside
        · obtain ⟨rfl, rfl⟩ := Prod.mk.inj same
          exact .inl ⟨rfl, chosen⟩
        · exact .inr ⟨line', inside, chosen⟩

theorem cancelWhere (q : Queue α β) (lines : LineId → Bool) :
    Flags q (q.cancelWhere lines) fun id => ∃ line, (line, id) ∈ q.slots ∧ lines line = true :=
  foldl_cancel lines q.slots q

end Flags

/-- The requests without their marks. -/
def Queue.jobs (q : Queue α β) : List (LineId × α) := q.requests.toList.map fun r => (r.line, r.job)

theorem Queue.jobs_getElem? (q : Queue α β) (id : RequestId) :
    q.jobs[id]? = (q.requests[id]?).map fun r => (r.line, r.job) := by
  rw [Queue.jobs, List.getElem?_map, Array.getElem?_toList]

namespace Flags

variable {q q' : Queue α β} {marked : RequestId → Prop}

theorem jobs_eq (flags : Flags q q' marked) : q'.jobs = q.jobs := by
  apply List.ext_getElem?
  intro id
  rw [Queue.jobs_getElem?, Queue.jobs_getElem?]
  cases found : q.requests[id]? with
  | none => rw [Array.getElem?_eq_none (flags.size ▸ Array.getElem?_eq_none_iff.mp found)]
  | some r =>
      obtain ⟨r', found', line, job, -⟩ := flags.requests id r found
      rw [found', Option.map_some, Option.map_some, line, job]

/-- Every request of the new queue is one of the old. -/
theorem old (flags : Flags q q' marked) {id : RequestId} {r' : Request α}
    (found' : q'.requests[id]? = some r') : ∃ r, q.requests[id]? = some r ∧ r'.line = r.line ∧
      (r'.cancelled = true ↔ r.cancelled = true ∨ marked id) := by
  have bound := (Array.getElem?_eq_some_iff.mp found').1
  rw [flags.size] at bound
  have found := Array.getElem?_eq_getElem bound
  obtain ⟨r'', found'', line, -, cancelled⟩ := flags.requests id _ found
  obtain rfl := Option.some.inj (found'.symm.trans found'')
  exact ⟨_, found, line, cancelled⟩

end Flags

theorem LineChanges.isSome_kind?_iff {changes : LineChanges} {line : LineId} :
    (changes.kind? line).isSome = true ↔
      line ∈ changes.edited ∨ line ∈ changes.removed ∨ line ∈ changes.inserted := by
  rw [LineChanges.kind?]
  split
  · next removed => simp [removed]
  · next kept =>
      split
      · next inserted => simp [inserted]
      · next old =>
          split
          · next edited => simp [edited]
          · next same => simp [kept, old, same]

/-- Where each line has one slot at most, looking a line up finds what stands there. -/
theorem lookup_eq_some_iff_mem {slots : List (LineId × RequestId)} {line : LineId} {id : RequestId}
    (distinct : (slots.map (·.1)).Nodup) :
    slots.lookup line = some id ↔ (line, id) ∈ slots := by
  induction slots with
  | nil => simp
  | cons slot slots ih =>
      obtain ⟨other, last⟩ := slot
      obtain ⟨absent, distinct⟩ := List.nodup_cons.mp distinct
      rw [List.lookup_cons, List.mem_cons, Prod.mk.injEq]
      by_cases same : line = other
      · subst same
        have free : (line, id) ∉ slots := by
          intro inside
          exact absent (List.mem_map.mpr ⟨_, inside, rfl⟩)
        simp [free, eq_comm]
      · rw [beq_eq_false_iff_ne.mpr same, ih distinct]
        simp [same]

/-! ### What every step keeps -/

namespace Queue

/-- The invariant of a run. -/
structure Keeps (work : α → β) (steps : List (QueueStep α)) (answers : List (Answer β))
    (q : Queue α β) : Prop where
  /-- The requests are those submitted. -/
  submitted : q.jobs = submissions steps
  /-- Those without an answer are taken, done and answered in their order. -/
  order : q.unanswered = List.range' answers.length q.unanswered.length
  count : answers.length + q.unanswered.length = q.requests.size
  /-- The worker has the result of a job, or nothing if the request was cancelled. -/
  results : ∀ entry ∈ q.results, ∃ r, q.requests[entry.1]? = some r ∧
    (entry.2 = some (work r.job) ∨ entry.2 = none ∧ r.cancelled = true)
  /-- Requests without an answer are marked exactly when they were called off. -/
  marks : ∀ id r, q.requests[id]? = some r → answers.length ≤ id →
    (r.cancelled = true ↔ CalledOff steps id r.line)
  slots : ∀ line id, (line, id) ∈ q.slots ↔
    Latest (submissions steps) line id ∧ answers.length ≤ id
  distinct : (q.slots.map (·.1)).Nodup
  answered : List.Forall₂ (Answers work) ((submissions steps).take answers.length) answers

namespace Keeps

variable {work : α → β} {steps : List (QueueStep α)} {answers : List (Answer β)} {q q' : Queue α β}

theorem submitted_eq (keeps : q.Keeps work steps answers) {id : RequestId} {r : Request α}
    (found : q.requests[id]? = some r) : (submissions steps)[id]? = some (r.line, r.job) := by
  rw [← keeps.submitted, jobs_getElem?, found, Option.map_some]

theorem size_eq (keeps : q.Keeps work steps answers) :
    q.requests.size = (submissions steps).length := by
  rw [← keeps.submitted, jobs, List.length_map, Array.length_toList]

/-- A step that submits nothing and publishes nothing keeps all but the results and the marks. -/
theorem of_quiet (keeps : q.Keeps work steps answers) {next : QueueStep α}
    (quiet : next.submitted? = none) (jobs : q'.jobs = q.jobs)
    (unanswered : q'.unanswered = q.unanswered) (slots : q'.slots = q.slots)
    (results : ∀ entry ∈ q'.results, ∃ r, q'.requests[entry.1]? = some r ∧
      (entry.2 = some (work r.job) ∨ entry.2 = none ∧ r.cancelled = true))
    (marks : ∀ id r, q'.requests[id]? = some r → answers.length ≤ id →
      (r.cancelled = true ↔ CalledOff (steps ++ [next]) id r.line)) :
    q'.Keeps work (steps ++ [next]) answers := by
  have same : submissions (steps ++ [next]) = submissions steps := by
    rw [submissions_concat, quiet, Option.toList_none, List.append_nil]
  constructor
  case submitted => rw [jobs, same, keeps.submitted]
  case order =>
    rw [unanswered]
    exact keeps.order
  case count =>
    have size := congrArg List.length jobs
    simp only [Queue.jobs, List.length_map, Array.length_toList] at size
    rw [unanswered, size, keeps.count]
  case results => exact results
  case marks => exact marks
  case slots =>
    rw [slots, same]
    exact keeps.slots
  case distinct =>
    rw [slots]
    exact keeps.distinct
  case answered =>
    rw [same]
    exact keeps.answered

/-- Marks on requests do not change what the worker has done. -/
theorem results_of_flags (keeps : q.Keeps work steps answers) {marked : RequestId → Prop}
    (flags : Flags q q' marked) : ∀ entry ∈ q'.results, ∃ r, q'.requests[entry.1]? = some r ∧
      (entry.2 = some (work r.job) ∨ entry.2 = none ∧ r.cancelled = true) := by
  intro entry inside
  rw [Queue.results, flags.finished, flags.working] at inside
  obtain ⟨r, found, result⟩ := keeps.results entry inside
  obtain ⟨r', found', -, job, cancelled⟩ := flags.requests _ r found
  refine ⟨r', found', ?_⟩
  rw [job]
  exact result.imp_right fun ⟨nothing, before⟩ => ⟨nothing, cancelled.mpr (.inl before)⟩

/-- Cancelling keeps the invariant when it marks exactly the requests that it calls off. -/
theorem flag (keeps : q.Keeps work steps answers) (next : QueueStep α) {marked : RequestId → Prop}
    (flags : Flags q q' marked) (quiet : next.submitted? = none)
    (marks : ∀ id r, q.requests[id]? = some r → answers.length ≤ id →
      (CalledOff steps id r.line ∨ marked id ↔
        CalledOff steps id r.line ∨ next.CallsOff id r.line)) :
    q'.Keeps work (steps ++ [next]) answers := by
  refine keeps.of_quiet quiet flags.jobs_eq ?_ flags.slots (keeps.results_of_flags flags) ?_
  · rw [unanswered, unanswered, flags.finished, flags.working, flags.waiting]
  · intro id r' found' later
    obtain ⟨r, found, line, cancelled⟩ := flags.old found'
    have earlier : id < (submissions steps).length :=
      keeps.size_eq ▸ (Array.getElem?_eq_some_iff.mp found).1
    rw [cancelled, keeps.marks id r found later, marks id r found later, calledOff_concat, line]
    simp [earlier]

/-- A request without an answer that was not called off stands in the slot of its line. -/
theorem mem_slots (keeps : q.Keeps work steps answers) {id : RequestId} {r : Request α}
    (found : q.requests[id]? = some r) (later : answers.length ≤ id)
    (kept : ¬CalledOff steps id r.line) : (r.line, id) ∈ q.slots := by
  refine (keeps.slots _ _).mpr ⟨⟨⟨_, keeps.submitted_eq found⟩, fun other job follows there => ?_⟩,
    later⟩
  exact kept (calledOff_of_later follows there)

theorem line_of_mem_slots (keeps : q.Keeps work steps answers) {id : RequestId} {r : Request α}
    {line : LineId} (found : q.requests[id]? = some r) (inside : (line, id) ∈ q.slots) :
    line = r.line := by
  obtain ⟨⟨⟨job, here⟩, -⟩, -⟩ := (keeps.slots _ _).mp inside
  rw [keeps.submitted_eq found] at here
  exact (congrArg Prod.fst (Option.some.inj here)).symm

/-- Cancelling the slots of some lines calls off the requests for these lines. -/
theorem cancelWhere (keeps : q.Keeps work steps answers) (next : QueueStep α)
    (lines : LineId → Bool) (quiet : next.submitted? = none)
    (calls : ∀ id line, next.CallsOff id line ↔ lines line = true) :
    (q.cancelWhere lines).Keeps work (steps ++ [next]) answers := by
  refine keeps.flag next (Flags.cancelWhere q lines) quiet fun id r found later => ?_
  rw [calls]
  constructor
  · rintro (before | ⟨line, inside, chosen⟩)
    · exact .inl before
    · obtain rfl := keeps.line_of_mem_slots found inside
      exact .inr chosen
  · rintro (before | chosen)
    · exact .inl before
    · by_cases before : CalledOff steps id r.line
      · exact .inl before
      · exact .inr ⟨r.line, keeps.mem_slots found later before, chosen⟩

/-- What is submitted next is not called off yet. -/
theorem not_calledOff (keeps : q.Keeps work steps answers) (line : LineId) :
    ¬CalledOff steps q.requests.size line := by
  rintro ⟨before, step, after, rfl, earlier, -⟩
  have size := keeps.size_eq
  rw [submissions, List.filterMap_append, List.length_append, ← submissions] at size
  rw [size] at earlier
  exact Nat.not_lt_of_le (Nat.le_add_right _ _) earlier

/-- Submitting marks the request in the slot of the line, and adds one that takes its place. -/
theorem exists_flags_of_submit (distinct : (q.slots.map (·.1)).Nodup) (line : LineId) (job : α) :
    ∃ q', Flags q q' (fun id => (line, id) ∈ q.slots) ∧
      (q.submit line job).2 = { q' with
        requests := q'.requests.push ⟨line, job, false⟩
        slots := (line, q.requests.size) :: q'.slots.filter (·.1 ≠ line)
        waiting := q'.waiting ++ [q.requests.size] } := by
  cases found : q.slots.lookup line with
  | none =>
      refine ⟨q, (Flags.refl q).congr fun id => ?_, by rw [Queue.submit, found]⟩
      rw [← lookup_eq_some_iff_mem distinct, found]
      simp
  | some earlier =>
      refine ⟨q.cancel earlier, (Flags.cancel q earlier).congr fun id => ?_, ?_⟩
      · rw [← lookup_eq_some_iff_mem distinct, found, Option.some.injEq, eq_comm]
      · rw [Queue.submit, found]

/-- A request is called off by the next one for its line as long as it stands in the slot. -/
theorem calledOff_submit (keeps : q.Keeps work steps answers) {id : RequestId} {r : Request α}
    (found : q.requests[id]? = some r) (later : answers.length ≤ id) (line : LineId) (job : α) :
    CalledOff (steps ++ [.submit line job]) id r.line ↔
      CalledOff steps id r.line ∨ (line, id) ∈ q.slots := by
  have inside := (Array.getElem?_eq_some_iff.mp found).1
  rw [calledOff_concat, ← keeps.size_eq]
  constructor
  · rintro (before | ⟨-, same⟩)
    · exact .inl before
    · by_cases before : CalledOff steps id r.line
      · exact .inl before
      · obtain rfl : line = r.line := same
        exact .inr (keeps.mem_slots found later before)
  · rintro (before | there)
    · exact .inl before
    · exact .inr ⟨inside, keeps.line_of_mem_slots found there⟩

/-- A new request waits, stands in the slot of its line, and calls off the one that stood there. -/
theorem submit (keeps : q.Keeps work steps answers) (line : LineId) (job : α) :
    (q.submit line job).2.Keeps work (steps ++ [.submit line job]) answers := by
  obtain ⟨q', flags, submitted⟩ := exists_flags_of_submit keeps.distinct line job
  have all : submissions (steps ++ [.submit line job]) = submissions steps ++ [(line, job)] :=
    submissions_concat steps _
  have size := keeps.size_eq
  have count := keeps.count
  have unanswered : (q.submit line job).2.unanswered = q.unanswered ++ [q.requests.size] := by
    rw [submitted]
    simp only [Queue.unanswered, flags.finished, flags.working, flags.waiting, List.append_assoc]
  have old : ∀ id, id < q.requests.size →
      (q.submit line job).2.requests[id]? = q'.requests[id]? := by
    intro id inside
    rw [submitted]
    exact Array.getElem?_push_lt (flags.size ▸ inside) |>.trans
      (Array.getElem?_eq_getElem (flags.size ▸ inside)).symm
  have new : (q.submit line job).2.requests[q.requests.size]? = some ⟨line, job, false⟩ := by
    rw [submitted, ← flags.size]
    exact Array.getElem?_push_size
  constructor
  case submitted =>
    rw [all, ← keeps.submitted, ← flags.jobs_eq, submitted]
    simp [jobs]
  case order =>
    rw [unanswered, List.length_append, List.length_singleton, List.range'_concat, ← keeps.order]
    simp [count]
  case count =>
    rw [unanswered, submitted, List.length_append, List.length_singleton, Array.size_push,
      flags.size]
    omega
  case results =>
    intro entry inside
    obtain ⟨r, found, result⟩ := keeps.results_of_flags flags entry (by rwa [submitted] at inside)
    refine ⟨r, (old _ ?_).trans found, result⟩
    exact flags.size ▸ (Array.getElem?_eq_some_iff.mp found).1
  case marks =>
    intro id r' found' later
    rcases Nat.lt_trichotomy id q.requests.size with inside | rfl | outside
    · obtain ⟨r, found, sameLine, cancelled⟩ := flags.old ((old id inside).symm.trans found')
      rw [cancelled, keeps.marks id r found later, sameLine, keeps.calledOff_submit found later]
    · rw [new] at found'
      obtain rfl := Option.some.inj found'
      rw [calledOff_concat, ← size]
      simp [keeps.not_calledOff line]
    · rw [submitted] at found'
      have bound := (Array.getElem?_eq_some_iff.mp found').1
      rw [Array.size_push, flags.size] at bound
      omega
  case slots =>
    intro other id
    rw [all, latest_concat, ← size, submitted]
    simp only [List.mem_cons, Prod.mk.injEq, flags.slots, List.mem_filter, decide_eq_true_eq,
      keeps.slots other id, ne_eq]
    constructor
    · rintro (⟨rfl, rfl⟩ | ⟨⟨latest, later⟩, differs⟩)
      · exact ⟨.inl ⟨rfl, rfl⟩, by omega⟩
      · exact ⟨.inr ⟨differs, latest⟩, later⟩
    · rintro ⟨here | ⟨differs, latest⟩, later⟩
      · exact .inl here
      · exact .inr ⟨⟨latest, later⟩, differs⟩
  case distinct =>
    rw [submitted]
    refine List.nodup_cons.mpr ⟨?_, ?_⟩
    · intro inside
      obtain ⟨slot, kept, same⟩ := List.mem_map.mp inside
      simpa [same] using (List.mem_filter.mp kept).2
    · rw [flags.slots]
      exact keeps.distinct.sublist (List.filter_sublist.map _)
  case answered =>
    rw [all, List.take_append_of_le_length (by omega)]
    exact keeps.answered

/-- A step of the worker calls nothing off. -/
theorem marks_worker (keeps : q.Keeps work steps answers) (next : QueueStep α)
    (calls : ∀ id line, ¬next.CallsOff id line) (id : RequestId) (r : Request α)
    (found : q.requests[id]? = some r) (later : answers.length ≤ id) :
    r.cancelled = true ↔ CalledOff (steps ++ [next]) id r.line := by
  rw [keeps.marks id r found later, calledOff_concat]
  simp [calls]

theorem take (keeps : q.Keeps work steps answers) :
    (q.take work).Keeps work (steps ++ [.take]) answers := by
  have marks := keeps.marks_worker .take fun _ _ => id
  rw [Queue.take]
  split
  · next id waiting free next =>
      have unanswered : id ∈ q.unanswered := by simp [Queue.unanswered, next]
      have inside : id < q.requests.size := by
        rw [keeps.order, List.mem_range'_1, keeps.count] at unanswered
        exact unanswered.2
      have found := Array.getElem?_eq_getElem inside
      refine keeps.of_quiet rfl rfl ?_ rfl ?_ marks
      · simp [Queue.unanswered, free, next]
      · intro entry mem
        rcases List.mem_append.mp mem with done | taken
        · exact keeps.results entry (List.mem_append_left _ done)
        · obtain rfl := List.mem_singleton.mp taken
          refine ⟨_, found, ?_⟩
          dsimp only
          rw [found, Option.bind_some]
          split
          · next cancelled => exact .inr ⟨rfl, cancelled⟩
          · exact .inl rfl
  · exact keeps.of_quiet rfl rfl rfl rfl keeps.results marks

theorem finish (keeps : q.Keeps work steps answers) :
    q.finish.Keeps work (steps ++ [.finish]) answers := by
  have marks := keeps.marks_worker .finish fun _ _ => id
  rw [Queue.finish]
  split
  · exact keeps.of_quiet rfl rfl rfl rfl keeps.results marks
  · next id result taken =>
      refine keeps.of_quiet rfl rfl ?_ rfl ?_ marks
      · simp [Queue.unanswered, taken]
      · intro entry mem
        rw [Queue.results, Option.toList_none, List.append_nil] at mem
        rcases List.mem_append.mp mem with done | last
        · exact keeps.results entry (List.mem_append_left _ done)
        · obtain rfl := List.mem_singleton.mp last
          obtain ⟨r, found, kept⟩ := keeps.results (id, result) (by simp [Queue.results, taken])
          refine ⟨r, found, ?_⟩
          dsimp only at kept ⊢
          rw [Queue.isCancelled, found, Option.map_some, Option.getD_some]
          cases cancelled : r.cancelled with
          | true => exact .inr ⟨rfl, rfl⟩
          | false =>
              rw [cancelled] at kept
              simpa using kept

/-- The answer to the request that the worker was done with first. -/
theorem publish_eq (keeps : q.Keeps work steps answers) {id : RequestId} {result : Option β}
    {finished : List (RequestId × Option β)} (first : q.finished = (id, result) :: finished) :
    ∃ r answer, id = answers.length ∧ q.requests[id]? = some r ∧
      q.publish = (some answer, { q with
        finished, slots := q.slots.filter (· ≠ (r.line, id)) }) ∧
      (answer = .cancelled r.line ∧ r.cancelled = true ∨
        answer = .ready r.line (work r.job) ∧ r.cancelled = false) := by
  obtain ⟨r, found, kept⟩ := keeps.results (id, result) (by simp [Queue.results, first])
  have order := keeps.order
  rw [unanswered, first, List.map_cons, List.cons_append, List.cons_append, List.length_cons,
    List.range'_succ] at order
  refine ⟨r, if r.cancelled = true then .cancelled r.line else .ready r.line (work r.job),
    (List.cons.inj order).1, found, ?_, ?_⟩
  · rw [Queue.publish, first]
    dsimp only
    rw [found]
    dsimp only at kept
    rcases kept with rfl | ⟨rfl, cancelled⟩
    · dsimp only
      split <;> rfl
    · rw [if_pos cancelled]
  · cases cancelled : r.cancelled with
    | true => exact .inl ⟨by simp, rfl⟩
    | false => exact .inr ⟨by simp, rfl⟩

theorem publish (keeps : q.Keeps work steps answers) :
    q.publish.2.Keeps work (steps ++ [.publish]) (answers ++ q.publish.1.toList) := by
  have marks := keeps.marks_worker .publish fun _ _ => id
  have all : submissions (steps ++ [.publish]) = submissions steps := by
    rw [submissions_concat]
    exact List.append_nil _
  cases first : q.finished with
  | nil =>
      rw [Queue.publish, first, Option.toList_none, List.append_nil]
      exact keeps.of_quiet rfl rfl rfl rfl keeps.results marks
  | cons entry finished =>
      obtain ⟨id, result⟩ := entry
      obtain ⟨r, answer, rfl, found, eq, kind⟩ := keeps.publish_eq first
      have order := keeps.order
      have count := keeps.count
      rw [eq, Option.toList_some]
      dsimp only
      have unanswered : q.unanswered = answers.length ::
          Queue.unanswered
            { q with finished, slots := q.slots.filter (· ≠ (r.line, answers.length)) } := by
        simp [Queue.unanswered, first]
      rw [unanswered, List.length_cons, List.range'_succ] at order
      rw [unanswered, List.length_cons] at count
      constructor
      case submitted =>
        rw [all, ← keeps.submitted, jobs, jobs]
      case order =>
        rw [List.length_append, List.length_singleton]
        exact (List.cons.inj order).2
      case count =>
        rw [List.length_append, List.length_singleton, Nat.add_assoc, Nat.add_comm 1]
        exact count
      case results =>
        intro other mem
        refine keeps.results other ?_
        rw [Queue.results, first]
        exact List.mem_cons_of_mem _ mem
      case marks =>
        intro other r' found' later
        rw [List.length_append, List.length_singleton] at later
        exact marks other r' found' (Nat.le_of_succ_le later)
      case slots =>
        intro line other
        rw [all, List.length_append, List.length_singleton]
        simp only [List.mem_filter, keeps.slots line other, ne_eq, decide_not,
          Bool.not_eq_true', decide_eq_false_iff_not, Prod.mk.injEq]
        constructor
        · rintro ⟨⟨latest, later⟩, differs⟩
          refine ⟨latest, Nat.lt_of_le_of_ne later ?_⟩
          rintro rfl
          have inside := (keeps.slots _ _).mpr ⟨latest, Nat.le_refl _⟩
          exact differs ⟨keeps.line_of_mem_slots found inside, rfl⟩
        · rintro ⟨latest, later⟩
          refine ⟨⟨latest, Nat.le_of_succ_le later⟩, ?_⟩
          rintro ⟨-, rfl⟩
          exact Nat.lt_irrefl _ later
      case distinct =>
        exact keeps.distinct.sublist (List.filter_sublist.map _)
      case answered =>
        have here := keeps.submitted_eq found
        have inside := (List.getElem?_eq_some_iff.mp here).1
        rw [all, List.length_append, List.length_singleton, List.take_add_one, here]
        refine List.rel_append keeps.answered (.cons ?_ .nil)
        rcases kind with ⟨rfl, -⟩ | ⟨rfl, -⟩
        · exact .inl rfl
        · exact .inr rfl

end Keeps

/-- Every step keeps the invariant. -/
theorem Keeps.step {work : α → β} {steps : List (QueueStep α)} {answers : List (Answer β)}
    {q : Queue α β} (keeps : q.Keeps work steps answers) (next : QueueStep α) :
    (q.step work next).2.Keeps work (steps ++ [next]) (answers ++ (q.step work next).1.toList) := by
  cases next with
  | publish => exact keeps.publish
  | submit line job => simpa [Queue.step] using keeps.submit line job
  | cancel id =>
      have kept := keeps.flag (.cancel id) (Flags.cancel q id) rfl fun other r _ _ =>
        or_congr_right eq_comm
      simpa [Queue.step] using kept
  | cancelLines changes =>
      have kept := keeps.cancelWhere (.cancelLines changes)
        (fun line => (changes.kind? line).isSome) rfl
        fun _ line => LineChanges.isSome_kind?_iff.symm
      simpa [Queue.step, cancelLines] using kept
  | cancelAll =>
      have kept := keeps.cancelWhere .cancelAll (fun _ => true) rfl
        fun _ _ => by simp [QueueStep.CallsOff]
      simpa [Queue.step, cancelAll] using kept
  | take => simpa [Queue.step] using keeps.take
  | finish => simpa [Queue.step] using keeps.finish

theorem Run.keeps {work : α → β} {steps : List (QueueStep α)} {answers : List (Answer β)}
    {q : Queue α β} (run : Run work steps answers q) : q.Keeps work steps answers := by
  induction run with
  | start =>
      refine ⟨rfl, rfl, rfl, ?_, ?_, ?_, List.nodup_nil, .nil⟩
      · intro entry mem
        cases mem
      · intro id r found
        simp at found
      · intro line id
        simp [Latest, submissions]
  | step next _ ih => exact ih.step next

/-! ### What holds of every run -/

/-- Whatever the order of the steps: the answers are those to the first requests in their order, and
to all requests once none waits, is taken or done; the next answer has the result exactly when its
request has not been called off; and the slots hold the latest request of each line that has no
answer. -/
theorem Run.answers_unless_calledOff {work : α → β} {steps : List (QueueStep α)}
    {answers : List (Answer β)}
    {q : Queue α β} (run : Run work steps answers q) :
    (∃ answered waiting, submissions steps = answered ++ waiting ∧
      List.Forall₂ (Answers work) answered answers ∧
      (q.waiting = [] → q.working = none → q.finished = [] → waiting = [])) ∧
      (∀ answer q', q.publish = (some answer, q') → ∃ line job,
        (submissions steps)[answers.length]? = some (line, job) ∧
        (answer = .ready line (work job) ∧ ¬CalledOff steps answers.length line ∨
          answer = .cancelled line ∧ CalledOff steps answers.length line)) ∧
      (∀ line id, q.slots.lookup line = some id ↔
        Latest (submissions steps) line id ∧ answers.length ≤ id) ∧
      (q.slots.map (·.1)).Nodup := by
  have keeps := run.keeps
  refine ⟨⟨(submissions steps).take answers.length, (submissions steps).drop answers.length,
    (List.take_append_drop _ _).symm, keeps.answered, ?_⟩, ?_, ?_, keeps.distinct⟩
  · intro waiting working finished
    have count := keeps.count
    rw [unanswered, waiting, working, finished] at count
    rw [List.drop_eq_nil_iff, ← keeps.size_eq, ← count]
    exact Nat.le_refl _
  · intro answer q' published
    cases first : q.finished with
    | nil =>
        rw [Queue.publish, first] at published
        cases published
    | cons entry finished =>
        obtain ⟨r, answer', here, found, eq, kind⟩ := keeps.publish_eq first
        rw [here] at found
        obtain rfl : answer' = answer :=
          Option.some.inj (congrArg Prod.fst (eq.symm.trans published))
        refine ⟨r.line, r.job, keeps.submitted_eq found, ?_⟩
        have marks := keeps.marks _ r found (Nat.le_refl _)
        rcases kind with ⟨rfl, cancelled⟩ | ⟨rfl, kept⟩
        · exact .inr ⟨rfl, marks.mp cancelled⟩
        · refine .inl ⟨rfl, fun off => ?_⟩
          rw [marks.mpr off] at kept
          cases kept
  · intro line id
    rw [lookup_eq_some_iff_mem keeps.distinct, keeps.slots]

/-- A line is edited when the worker has done the request for it but the answer is not published. -/
theorem Run.calledOff_of_late_edit :
    ∃ (line : LineId) (q q' : Queue Nat Nat), Run (· + 1) [.submit line 1, .take, .finish,
        .cancelLines (LineChanges.none.markEdited line)] [] q ∧
      q.finished = [(0, some 2)] ∧ q.publish = (some (.cancelled line), q') := by
  let line : LineId := ⟨0, 0⟩
  have run := Run.step (.cancelLines (LineChanges.none.markEdited line)) (Run.step .finish
    (Run.step .take (Run.step (.submit line 1) (@Run.start Nat Nat (· + 1)))))
  obtain ⟨-, answers, -⟩ := run.answers_unless_calledOff
  obtain ⟨line', job, submitted, kind⟩ := answers _ _ rfl
  cases submitted
  have off : CalledOff [.submit line 1, .take, .finish,
      .cancelLines (LineChanges.none.markEdited line)] 0 line :=
    ⟨[.submit line 1, .take, .finish], _, [], rfl, by decide, .inl (by decide)⟩
  rcases kind with ⟨-, kept⟩ | ⟨cancelled, -⟩
  · exact absurd off kept
  · exact ⟨line, _, _, run, rfl, Prod.ext (congrArg some cancelled) rfl⟩

end Queue

end CodeEditor.Highlight

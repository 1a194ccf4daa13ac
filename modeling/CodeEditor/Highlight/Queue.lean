import CodeEditor.Line.Changes

/-!
The queue of highlighting requests.

A request is for a line. A worker takes the requests one by one in their order and answers each; the
answers are published in the same order. The latest request for a line stands in the line's slot
until its answer is published, and a new request for the line cancels the one in the slot. A request
that is cancelled before its answer is published is answered as cancelled, even if the worker has
done it already. Each function below is one step of the submitting side or of the worker; they may
be done in any order.
-/

namespace CodeEditor.Highlight

/-- The number of a request, in the order of submission. -/
abbrev RequestId : Type := Nat

/-- A request for a line. -/
structure Request (α : Type) where
  line : LineId
  job : α
  cancelled : Bool

/-- What became of a request. -/
inductive Answer (β : Type) where
  | ready (line : LineId) (result : β)
  | cancelled (line : LineId)

/-- Requests with jobs of one type and results of another. -/
structure Queue (α β : Type) where
  /-- All requests by number. -/
  requests : Array (Request α) := #[]
  /-- The latest request for each line that has one without a published answer. -/
  slots : List (LineId × RequestId) := []
  /-- The requests that the worker has not taken. -/
  waiting : List RequestId := []
  /-- The request that the worker has taken, with its result unless it was cancelled by then. -/
  working : Option (RequestId × Option β) := none
  /-- The requests that are done, with their results unless they were cancelled by then. -/
  finished : List (RequestId × Option β) := []

namespace Queue

variable {α β : Type}

/-- The request is cancelled. -/
def isCancelled (q : Queue α β) (id : RequestId) : Bool :=
  ((q.requests[id]?).map (·.cancelled)).getD false

/-- Cancel a request. -/
def cancel (q : Queue α β) (id : RequestId) : Queue α β :=
  { q with requests := q.requests.modify id fun r => { r with cancelled := true } }

/-- Submit a request for a line. An earlier one in its slot is cancelled. -/
def submit (q : Queue α β) (line : LineId) (job : α) : RequestId × Queue α β :=
  let id := q.requests.size
  let q := match q.slots.lookup line with
    | some earlier => q.cancel earlier
    | none => q
  (id, { q with
    requests := q.requests.push ⟨line, job, false⟩
    slots := (line, id) :: q.slots.filter (·.1 ≠ line)
    waiting := q.waiting ++ [id] })

/-- Cancel the requests in the slots of some lines. -/
def cancelWhere (q : Queue α β) (lines : LineId → Bool) : Queue α β :=
  q.slots.foldl (fun q (line, id) => if lines line then q.cancel id else q) q

/-- Cancel the requests for the lines that an edit touches. -/
def cancelLines (q : Queue α β) (c : LineChanges) : Queue α β :=
  q.cancelWhere fun id => (c.kind? id).isSome

/-- Cancel the requests in all slots. -/
def cancelAll (q : Queue α β) : Queue α β := q.cancelWhere fun _ => true

/-- The worker takes the next request, if it has none, and does its job unless it is cancelled. -/
def take (work : α → β) (q : Queue α β) : Queue α β :=
  match q.working, q.waiting with
  | none, id :: waiting =>
      let result := (q.requests[id]?).bind fun r =>
        if r.cancelled then none else some (work r.job)
      { q with waiting, working := some (id, result) }
  | _, _ => q

/-- The worker hands over what it has done, without the result if the request was cancelled
meanwhile. -/
def finish (q : Queue α β) : Queue α β :=
  match q.working with
  | none => q
  | some (id, result) =>
      { q with
        working := none
        finished := q.finished ++ [(id, if q.isCancelled id then none else result)] }

/-- Publish the next answer, if one is done. Its request leaves the slot of its line, if it is still
there. -/
def publish (q : Queue α β) : Option (Answer β) × Queue α β :=
  match q.finished with
  | [] => (none, q)
  | (id, result) :: finished =>
      let q := { q with finished }
      match q.requests[id]? with
      | none => (none, q)
      | some r =>
          let q := { q with slots := q.slots.filter (· ≠ (r.line, id)) }
          match result with
          | some result =>
              if r.cancelled then (some (.cancelled r.line), q)
              else (some (.ready r.line result), q)
          | none => (some (.cancelled r.line), q)

/-- The worker does the next request, whose answer is then published. -/
def answerNext (work : α → β) (q : Queue α β) : Option (Answer β) × Queue α β :=
  (q.take work).finish.publish

/-- The answers to all requests that wait. -/
def answerAll (work : α → β) (q : Queue α β) : List (Answer β) × Queue α β :=
  q.waiting.foldl (fun (answers, q) _ =>
    let (answer, q) := q.answerNext work
    (answers ++ answer.toList, q)) ([], q)

/-- The number of requests in slots in one line. -/
def describe (q : Queue α β) : String :=
  s!"HighlightQueue \x7b pending: {q.slots.length}, .. \x7d"

end Queue

end CodeEditor.Highlight

import Mathlib.Data.List.MinMax
import Mathlib.Data.List.Sort
import Mathlib.Logic.Function.Basic
import JobScripts.Apply.Fills

/-!
# Submissions of application fills

`api/apply/submissions.py` with `resolve_form` and `fill_submitted` of `api/routers/apply.py` over the whole table of
fills, and the receipt that the extension keeps of a submission (`SubmissionStore` of `background/submissions.js`). A
submit of an empty fill records on an earlier fill that was filled, and the empty one names it in `superseded_by`;
`repair` does the same for submissions that were recorded before.

Each call locks the rows that it writes, and is a step where it commits. A search for a row may pass over rows that its
snapshot did not hold, which is a parameter of the call. The extension saves its receipt before each request, so a crash
or a lost response leaves the request where it is, answered or not.
-/

namespace JobScripts.Apply.Submissions

open Lib
open Fills (Field ResolvedField)

/-! ## Fills -/

/-- A row of `application_fills`. -/
structure Row extends Fills.Fill where
  id : ℕ
  user_id : ℕ
  application_id : Option ℕ

/-- A row of `applications`. `attempt` is not a column: the submission of the extension that created it. -/
structure Application where
  id : ℕ
  user_id : ℕ
  job_id : Option ℕ
  attempt : Option ℕ

/-- `UPDATE application_fills ... WHERE id = id`: one row is written, and the others stay. -/
def update (rows : List Row) (id : ℕ) (write : Row → Row) : List Row := rows.map fun r => if r.id = id then write r else r

/-- `ORDER BY id DESC LIMIT 1`: the row with the highest id. -/
def newest (rows : List Row) : Option Row := rows.argmax Row.id

/-- A fill that a submit of another one may record on: earlier, of the same person and url, open and with fields. -/
def Row.fillsFor (r row : Row) : Bool :=
  r.user_id = row.user_id && r.url = row.url && r.id < row.id && r.submitted_at = none && r.fields ≠ []

/-- `_filled_sibling`, of the rows that the search sees. -/
def filledSibling (rows : List Row) (seen : ℕ → Bool) (row : Row) : Option Row :=
  newest (rows.filter fun r => r.fillsFor row && seen r.id)

/-- `superseded_by = ...`: the row gives way to another fill. -/
def Row.supersede (by_ : ℕ) (r : Row) : Row := { r with superseded_by := some by_ }

/-- `target`: the fill that a submission is recorded on. It is the one that superseded the fill, or a sibling that was
filled where this one is empty, or the fill itself. -/
def target (rows : List Row) (seen : ℕ → Bool) (fill : Row) : List Row × ℕ :=
  match fill.superseded_by with
  | some id => (rows, id)
  | none =>
    if fill.submitted_at ≠ none ∨ fill.fields ≠ [] then (rows, fill.id)
    else
      match filledSibling rows seen fill with
      | none => (rows, fill.id)
      | some sibling => (update rows fill.id (Row.supersede sibling.id), sibling.id)

/-- The fill that was submitted before takes over the submission. -/
def Row.takeOver (empty r : Row) : Row :=
  { r with submitted_at := empty.submitted_at, application_id := empty.application_id }

/-- The empty fill gives it up. -/
def Row.giveUp (by_ : ℕ) (r : Row) : Row :=
  { r with submitted_at := none, application_id := none, superseded_by := some by_ }

/-- What `repair` does with one empty fill. -/
def repairOne (seen : ℕ → Bool) (done : List Row × List (ℕ × ℕ)) (empty : Row) : List Row × List (ℕ × ℕ) :=
  match filledSibling done.1 seen empty with
  | none => done
  | some sibling =>
    (update (update done.1 sibling.id (Row.takeOver empty)) empty.id (Row.giveUp sibling.id),
      done.2 ++ [(empty.id, sibling.id)])

/-- A submission without fields that has not moved. -/
def Row.isEmptySubmission (r : Row) : Bool := r.submitted_at ≠ none && r.superseded_by = none && r.fields = []

/-- The rows that `repair` goes through, of those that its first statement sees. -/
def empties (rows : List Row) (listed : ℕ → Bool) : List Row :=
  (rows.filter fun r => r.isEmptySubmission && listed r.id).insertionSort fun a b => a.id ≤ b.id

/-- `repair`, with what its statements see: the rows after it, and the pairs that it returns. -/
def repairSeeing (listed : ℕ → Bool) (seen : ℕ → Bool) (rows : List Row) : List Row × List (ℕ × ℕ) :=
  (empties rows listed).foldl (repairOne seen) (rows, [])

/-- `repair`, alone. -/
def repair (rows : List Row) : List Row × List (ℕ × ℕ) := repairSeeing (fun _ => true) (fun _ => true) rows

/-! ## Requests -/

/-- The tables. -/
structure Server where
  rows : List Row
  applications : List Application

/-- The arguments of `resolve_form`, with what it finds and is given: the posting at the url, the fields with their
answers, the rows that its search sees, and a fresh id. -/
structure Resolve where
  url : String
  job_id : Option ℕ
  fields : List ResolvedField
  fill_id : Option ℕ := none
  resume_open : Bool := false
  seen : ℕ → Bool := fun _ => true
  new_id : ℕ

/-- `open_fill`: the fill that a request goes on with. It is the one that it names, if that is open, else the newest
open one of the posting that has its fields. -/
def Resolve.openFill (c : Resolve) (rows : List Row) (u : ℕ) : Option Row :=
  match c.fill_id with
  | some id => rows.find? fun r =>
      r.id = id && r.user_id = u && r.submitted_at = none && r.superseded_by = none && r.url = c.url
  | none =>
    if c.resume_open && c.fields ≠ [] then
      newest (rows.filter fun r => r.user_id = u && r.url = c.url && r.job_id = c.job_id && r.submitted_at = none &&
        Fills.holds r.fields c.fields && c.seen r.id)
    else none

/-- The fields of a request are added to a fill. -/
def Row.merge (request : List ResolvedField) (r : Row) : Row := { r with fields := Fills.merge r.fields request }

/-- `resolve_form`: the tables, and the fill that it answers with. -/
def Server.resolveForm (srv : Server) (u : ℕ) (c : Resolve) : Option (Server × ℕ) :=
  match c.openFill srv.rows u with
  | some r => some ({ srv with rows := update srv.rows r.id (Row.merge c.fields) }, r.id)
  | none =>
    if srv.rows.any fun r => r.id = c.new_id then none
    else
      let fields := c.fields.map fun f => ({ toResolvedField := f } : Field)
      some ({ srv with rows := srv.rows ++ [⟨⟨c.url, c.job_id, fields, none, none⟩, c.new_id, u, none⟩] }, c.new_id)

/-- The arguments of `fill_submitted`, with what it finds: the names of resumes, the clock, whether the person may touch
the posting, a fresh id, and the rows that its search sees. -/
structure Submit where
  fill_id : ℕ
  new_id : ℕ
  finals : String → Option (Option String)
  names : ℕ → Option String := fun _ => none
  now : ℕ := 0
  touchable : Bool := true
  seen : ℕ → Bool := fun _ => true

/-- `from_board` and `from_form`: the applications, and the one of the submission. -/
def record (applications : List Application) (u : ℕ) (job_id attempt : Option ℕ) (new_id : ℕ) :
    Option (List Application × ℕ) :=
  match job_id.bind fun j => applications.find? fun a => a.user_id = u && a.job_id = some j with
  | some a => some (applications, a.id)
  | none =>
    if applications.any fun a => a.id = new_id then none
    else some (applications ++ [⟨new_id, u, job_id, attempt⟩], new_id)

/-- The writes of `fill_submitted` on a fill that is open. -/
def Row.submit (c : Submit) (application_id : ℕ) (r : Row) : Row :=
  { r with
    toFill := Fills.submit r.toFill c.finals c.names c.now
    application_id := some application_id }

/-- `fill_submitted`, for the person or on behalf of a submission of the extension: the tables, and whether it recorded
the submission. -/
def Server.fillSubmitted (srv : Server) (u : ℕ) (attempt : Option ℕ) (c : Submit) : Option (Server × Bool) :=
  match srv.rows.find? fun r => r.id = c.fill_id && r.user_id = u with
  | none => none
  | some fill =>
    let (rows, id) := target srv.rows c.seen fill
    match rows.find? fun r => r.id = id && r.user_id = u with
    | none => none
    | some row =>
      if row.submitted_at ≠ none then some ({ srv with rows := rows }, false)
      else
        (record srv.applications u (if c.touchable then row.job_id else none) attempt c.new_id).map
          fun (applications, application_id) => (⟨update rows id (Row.submit c application_id), applications⟩, true)

/-! ## The extension's receipt -/

/-- `status` of a receipt. -/
inductive Status
  | watching
  | confirmed
  | recorded
  deriving DecidableEq

/-- The receipt of a tab and frame. `attempt` is not in it: which armed submission it is. -/
structure Armed where
  url : String
  title : String
  fillId : Option ℕ
  fields : List (String × Option String)
  status : Status
  startedAt : ℕ
  attempt : ℕ

/-- `action` of a message. -/
inductive Action
  | get
  | clear
  | arm
  | confirm
  | retry
  | other
  deriving DecidableEq

/-- A message from a page. `origin` is that of the sender. -/
structure Message where
  action : Action
  origin : String
  fillId : Option ℕ := none
  url : String := ""
  title : String := ""
  fields : List (String × Option String) := []

/-- A request of the extension, of an armed submission. -/
inductive Request
  | resolve (attempt : ℕ) (url : String)
  | submitted (attempt fillId : ℕ) (fields : List (String × Option String))

/-- The answer to one. -/
inductive Response
  | resolved (fill_id : ℕ)
  | submitted
  | refused

/-- The server and the extension. `attempts` counts the armed submissions; `writes` are the submits that recorded a
submission, with the fill that they named. -/
structure State where
  server : Server
  storage : Option Armed
  /-- The request that a run of `SubmissionStore.run` waits for. Messages wait for the run. -/
  waiting : Option ℕ
  requests : List Request
  responses : ℕ → Option Response
  attempts : ℕ
  writes : List (Option ℕ × ℕ)

/-- What can happen next. -/
inductive Act
  | resolve (u : ℕ) (c : Resolve)
  | submit (u : ℕ) (c : Submit)
  | track (u id job_id : ℕ)
  | repair (listed seen : ℕ → Bool)
  /-- A page sends a message. -/
  | message (m : Message) (now : ℕ)
  /-- The server answers a request of the extension, with what the call finds. -/
  | serve (q : ℕ) (resolve : Resolve) (submit : Submit)
  /-- The server fails on one. -/
  | refuse (q : ℕ)
  /-- A response arrives. -/
  | deliver
  /-- A request or its response is lost. -/
  | lose
  /-- The worker is stopped. -/
  | crash

/-- A run sends the next request of a confirmed submission. -/
def State.send (s : State) (a : Armed) : State :=
  { s with
    storage := some a
    waiting := some s.requests.length
    requests := s.requests ++ [match a.fillId with
      | none => .resolve a.attempt a.url
      | some id => .submitted a.attempt id a.fields] }

/-- `SubmissionStore.run`, to its first request. `origin` is that of a url. -/
def State.run (origin : String → String) (s : State) (m : Message) (now : ℕ) : State :=
  let state := s.storage.filter fun a => origin a.url = m.origin
  match m.action with
  | .get => s
  | .clear => if state.any fun a => a.fillId = m.fillId then { s with storage := none } else s
  | .arm =>
    if origin m.url ≠ m.origin then s
    else if state.any fun a => m.fillId.isSome && a.fillId = m.fillId && a.status = .recorded then s
    else { s with
      storage := some ⟨m.url, m.title, m.fillId, m.fields, .watching, now, s.attempts⟩
      attempts := s.attempts + 1 }
  | action =>
    match state with
    | none => s
    | some a =>
      if a.fillId ≠ m.fillId ∨ a.status = .recorded then s
      else if action ≠ .confirm ∧ action ≠ .retry then s
      else if action = .retry ∧ a.status ≠ .confirmed then s
      else s.send { a with status := .confirmed }

/-- The finals of the fields of a receipt. The last one of a key counts. -/
def finalsOf (fields : List (String × Option String)) (key : String) : Option (Option String) :=
  (fields.filter fun f => f.1 = key).getLast?.map Prod.snd

/-- A submit is served. -/
def State.submitted (s : State) (u : ℕ) (attempt : Option ℕ) (c : Submit) : Option State :=
  match s.server.fillSubmitted u attempt c with
  | none => none
  | some (server, recorded) =>
    some { s with
      server := server
      writes := if recorded then s.writes ++ [(attempt, c.fill_id)] else s.writes }

/-- One step. `user` is the person of the extension. -/
def step (origin : String → String) (user : ℕ) (s : State) : Act → Option State
  | .resolve u c => (s.server.resolveForm u c).map fun (server, _) => { s with server := server }
  | .submit u c => s.submitted u none c
  | .track u id job_id =>
    if s.server.rows.any fun r => r.id = id && r.user_id = u && r.submitted_at = none && r.superseded_by = none then
      some { s with
        server.rows := update s.server.rows id fun r => { r with toFill := { r.toFill with job_id := some job_id } } }
    else none
  | .repair listed seen => some { s with server.rows := (repairSeeing listed seen s.server.rows).1 }
  | .message m now => if s.waiting.isSome then none else some (s.run origin m now)
  | .serve q resolve submit =>
    if (s.responses q).isSome then none
    else
      match s.requests[q]? with
      | none => none
      | some (.resolve _ url) =>
        (s.server.resolveForm user { resolve with
          url := url
          fields := []
          fill_id := none
          resume_open := false }).map fun (server, id) =>
            { s with
              server := server
              responses := Function.update s.responses q (some (.resolved id)) }
      | some (.submitted attempt id fields) =>
        (s.submitted user (some attempt) { submit with fill_id := id, finals := finalsOf fields }).map fun s' =>
          { s' with responses := Function.update s'.responses q (some .submitted) }
  | .refuse q =>
    if (s.responses q).isSome ∨ s.requests[q]? = none then none
    else some { s with responses := Function.update s.responses q (some .refused) }
  | .deliver =>
    match s.storage, s.waiting.bind s.responses with
    | some a, some (.resolved id) => some (s.send { a with fillId := some id })
    | some a, some .submitted => some { s with
        storage := some { a with status := .recorded, fields := [] }
        waiting := none }
    | _, some .refused => some { s with waiting := none }
    | _, _ => none
  | .lose => if s.waiting.isSome then some { s with waiting := none } else none
  | .crash => some { s with waiting := none }

end JobScripts.Apply.Submissions

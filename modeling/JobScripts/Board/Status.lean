import Mathlib
import JobScripts.Lib.Run

/-!
# The status of a board row and its history

Two writers change `user_jobs.status`: `write_board_row` (`api/board/person_state.py`), which appends to
`user_job_history` in a statement of its own and then writes the row and its application in one transaction,
and `answer_proposal` (`api/mail/pipeline/proposals.py`), with which a person accepts what a message says about
an application. `proposals_for` is the list of what may be accepted.

The state is the tables that these read and write; a row of `applications`, `email_messages`, `email_events`
or `application_matches` is named by its position. Every call is one step, and so is whatever else changes what
the proposals are read from.
-/

namespace JobScripts.Board.Status

open Lib

/-! ## Tables -/

/-- `EVENT_KINDS`: what a message can say of an application. -/
inductive Kind
  | acknowledgement
  | rejection
  | assessment_invite
  | interview_invite
  | interview_scheduled
  | info_request
  | offer
  | recruiter_outreach
  | position_closed
  | not_job_related
  deriving DecidableEq

/-- The provenances of an application. -/
inductive Provenance
  | tracker
  | apply
  | email
  deriving DecidableEq

/-- A row of `applications`. The day is that of `applied_at` in UTC. -/
structure Application where
  user_id : ℕ
  job_id : Option ℕ
  source_provenance : Provenance
  applied_at : Option ℕ
  dismissed : Bool
  deriving DecidableEq

/-- The text columns of a board row besides the status. -/
inductive Column
  | notes
  | size
  | recruiter
  | connection1
  | connection2
  | documents

/-- A row of `user_jobs`. -/
structure UserJob where
  status : Option String
  text : Column → Option String
  hidden : Bool

/-- A row of `user_job_history`. -/
structure Change where
  user_id : ℕ
  job_id : ℕ
  old_status : Option String
  new_status : Option String

/-- A row of `email_messages`: its pointers. -/
structure Message where
  current_event_id : Option ℕ
  current_match_id : Option ℕ
  deriving DecidableEq

/-- A row of `email_events`. -/
structure Event where
  message_id : ℕ
  kind : Kind
  deriving DecidableEq

/-- A row of `application_matches`. -/
structure Match where
  message_id : ℕ
  application_id : Option ℕ

/-- The questions of `event_answers`. -/
inductive Question
  | status
  | action
  deriving DecidableEq

/-- `ACCEPTED` and `DISMISSED`: what a person answers to a proposal. -/
inductive Response
  | accepted
  | dismissed
  deriving DecidableEq

/-- A row of `event_answers`; an action is answered by `done` or `reopened`, which nothing here reads. -/
structure Answer where
  event_id : ℕ
  question : Question
  answer : Option Response
  actor_user_id : ℕ

/-- The tables. -/
structure Db where
  jobs : List ℕ
  applications : List Application
  user_jobs : ℕ → ℕ → Option UserJob
  history : List Change
  messages : List Message
  events : List Event
  matches_ : List Match
  answers : List Answer

/-- Nothing is stored. -/
def Db.empty : Db := ⟨[], [], fun _ _ => none, [], [], [], [], []⟩

/-- The status of a board row; a row that is not there has none. -/
def Db.status (s : Db) (user_id job_id : ℕ) : Option String := (s.user_jobs user_id job_id).bind UserJob.status

/-- Two statuses are the same up to null and empty. -/
def Same (a b : Option String) : Prop := a.getD "" = b.getD ""

instance : DecidableRel Same := fun a b => inferInstanceAs (Decidable (a.getD "" = b.getD ""))

/-! ## Board writes -/

/-- `APPLIED_STATUSES`: the statuses of a row that was applied to. -/
def appliedStatuses : List String := ["Application Submitted", "Follow-up"]

/-- The status is an applied one. -/
def isApplied (status : Option String) : Bool := status.any appliedStatuses.contains

/-- `UserJobPatch`, with a value for each field that was set. -/
structure Patch where
  status : Option (Option String)
  date_applied : Option (Option ℕ)
  text : Column → Option (Option String)
  hidden : Option (Option Bool)

/-- A text that a text column takes: it has no NUL. -/
def storable (text : Option String) : Bool := text.all fun t => !t.toList.contains '\x00'

/-- The values of a patch other than the status are ones that the row takes: `hidden` is not nullable. -/
def Patch.fits (p : Patch) : Bool :=
  ([.notes, .size, .recruiter, .connection1, .connection2, .documents].all fun c =>
    (p.text c).all storable) && p.hidden ≠ some none

/-- `board_day`: the day that the application of a posting has. -/
def Db.boardDay (s : Db) (user_id job_id : ℕ) : Option ℕ :=
  (s.applications.find? fun a => a.user_id = user_id && a.job_id = some job_id).bind Application.applied_at

/-- `clear_board_day`: the application of a posting has no day any more. -/
def Db.clearBoardDay (s : Db) (user_id job_id : ℕ) : Db :=
  { s with
    applications := s.applications.map fun a =>
      if a.user_id = user_id ∧ a.job_id = some job_id then { a with applied_at := none } else a }

/-- `from_board`: the application that a row of the board stands for is made, or gets the day of the row. -/
def Db.fromBoard (s : Db) (user_id job_id : ℕ) (applied : Option ℕ) (set_date : Bool) : Db :=
  if s.applications.any fun a => a.user_id = user_id && a.job_id = some job_id then
    if set_date then
      { s with
        applications := s.applications.map fun a =>
          if a.user_id = user_id ∧ a.job_id = some job_id then { a with applied_at := applied } else a }
    else s
  else
    { s with
      applications := s.applications ++ [⟨user_id, some job_id, .tracker, applied, false⟩] }

/-- The row after the upsert: the columns of the patch, over the row that was there or the defaults. -/
def Patch.over (p : Patch) (row : Option UserJob) : UserJob :=
  let old := row.getD ⟨none, fun _ => none, false⟩
  { status := p.status.getD old.status
    text := fun c => (p.text c).getD (old.text c)
    hidden := (p.hidden.getD none).getD old.hidden }

/-- The patch changes the status of the row. -/
def Db.moves (s : Db) (user_id job_id : ℕ) (p : Patch) : Bool :=
  match p.status with
  | some new => ¬Same (s.status user_id job_id) new
  | none => false

/-- The first statement of `write_board_row`: a status that changes is appended to the history. -/
def Db.recordChange (s : Db) (user_id job_id : ℕ) (p : Patch) : Db :=
  if s.moves user_id job_id p then
    { s with
      history := s.history ++ [⟨user_id, job_id, s.status user_id job_id, p.status.getD none⟩] }
  else s

/-- The day that the write fills in, when the row moves into an applied status and no day is given. -/
def Db.autofill (s : Db) (user_id job_id : ℕ) (p : Patch) (today : ℕ) : Option ℕ :=
  if isApplied (p.status.getD none) && p.date_applied.isNone && (s.boardDay user_id job_id).isNone then
    some today
  else none

/-- The transaction of `write_board_row`, with the day that is given or filled in. -/
def Db.upsert (s : Db) (user_id job_id : ℕ) (p : Patch) (given : Option (Option ℕ)) : Db :=
  let row := p.over (s.user_jobs user_id job_id)
  let s' := { s with
    user_jobs := Function.update s.user_jobs user_id
      (Function.update (s.user_jobs user_id) job_id (some row)) }
  match given with
  | some (some day) => s'.fromBoard user_id job_id (some day) true
  | _ =>
    let s'' := if given = some none then s'.clearBoardDay user_id job_id else s'
    if isApplied row.status then s''.fromBoard user_id job_id none false else s''

/-- `write_board_row`: the tables after it, and what it returns, or nothing when it raises. With `lost` the
connection fails before the transaction commits. -/
def Db.writeBoardRow (s : Db) (user_id job_id : ℕ) (p : Patch) (today : ℕ) (lost : Bool) :
    Db × Option (Option ℕ) :=
  let autofilled := s.autofill user_id job_id p today
  let given := if autofilled.isSome then some autofilled else p.date_applied
  -- A posting that is not there, or a status with a NUL, fails the first statement that has it.
  if job_id ∉ s.jobs ∨ storable (p.status.getD none) = false then (s, none)
  else
    -- The history row is committed here, before the transaction.
    let s₁ := s.recordChange user_id job_id p
    if lost || !p.fits then (s₁, none)
    else (s₁.upsert user_id job_id p given, some autofilled)

/-! ## Proposals -/

/-- `STATUS_FROM_EVENT`: the status that an event proposes, if it proposes one. -/
def statusFromEvent : Kind → Option String
  | .rejection => some "Rejected"
  | .position_closed => some "No Longer Available"
  | .offer => some "Offer"
  | .interview_invite => some "Interviewing"
  | .interview_scheduled => some "Interviewing"
  | _ => none

/-- `UNRESOLVED_BOARD_STATUSES`: the statuses that a proposal may move a row out of. -/
def unresolvedBoardStatuses : List String := ["Application Submitted", "Follow-up"]

/-- The application that a message is currently matched to. -/
def Db.currentMatch (s : Db) (m : Message) : Option ℕ :=
  ((m.current_match_id.bind fun i => s.matches_[i]?).bind Match.application_id)

/-- There is no board row for the posting of the application, or one in an unresolved status. -/
def Db.unresolved (s : Db) (a : Application) : Bool :=
  match a.job_id.bind (s.user_jobs a.user_id) with
  | none => true
  | some row => row.status.any unresolvedBoardStatuses.contains

/-- An answer to the status question about the event is there. -/
def Db.answered (s : Db) (event_id : ℕ) : Bool :=
  s.answers.any fun x => x.event_id = event_id && x.question = .status

/-- A row of `proposals_for`, without the texts that are only shown. -/
structure Proposal where
  application_id : ℕ
  job_id : Option ℕ
  board_status : Option String
  board_updatable : Bool
  event_id : ℕ
  kind : Kind
  message_id : ℕ
  suggested_status : String
  board_reason : Option String

/-- `NOT_ON_BOARD`: why an answer moves nothing where there is no row. -/
def notOnBoard : String := "This application is not on your board, so there is no status to move."

/-- What the joins of `proposals_for` give for an application and a message. -/
def Db.proposal (s : Db) (user_id : ℕ) (a : Application × ℕ) (m : Message × ℕ) : Option Proposal :=
  let row := a.1.job_id.bind (s.user_jobs a.1.user_id)
  match m.1.current_event_id with
  | none => none
  | some e =>
    match s.events[e]? with
    | none => none
    | some event =>
      match statusFromEvent event.kind with
      | none => none
      | some status =>
        if a.1.user_id = user_id ∧ a.1.dismissed = false ∧ s.currentMatch m.1 = some a.2 ∧
            s.unresolved a.1 = true ∧ s.answered e = false then
          some ⟨a.2, a.1.job_id, row.bind UserJob.status, row.isSome, e, event.kind, m.2, status,
            if row.isSome then none else some notOnBoard⟩
        else none

/-- The rows of `proposals_for` before `DISTINCT ON`. -/
def Db.candidates (s : Db) (user_id : ℕ) : List Proposal :=
  s.applications.zipIdx.flatMap fun a => s.messages.zipIdx.filterMap fun m => s.proposal user_id a m

/-- `proposals_for`: the candidate with the newest event for each application and kind. -/
def Db.proposalsFor (s : Db) (user_id : ℕ) : List Proposal :=
  (s.candidates user_id).filter fun p =>
    (s.candidates user_id).all fun q =>
      !(q.application_id = p.application_id && q.kind = p.kind) || q.event_id ≤ p.event_id

/-- `ProposalAnswered`: what the answer to a proposal did. -/
structure ProposalAnswered where
  response : Response
  board_updated : Bool
  board_status : Option String
  reason : Option String

/-- The two reads of `answer_proposal`: the posting of the application and the status that the event gives,
when the application is the user's and the message of the event is matched to it. -/
def Db.evidence (s : Db) (user_id application_id event_id : ℕ) : Option (Option ℕ × String) :=
  match s.applications[application_id]? with
  | none => none
  | some app =>
    if app.user_id = user_id then
      match s.events[event_id]? with
      | none => none
      | some event =>
        match s.messages[event.message_id]? with
        | none => none
        | some m =>
          if s.currentMatch m = some application_id then
            (statusFromEvent event.kind).map fun status => (app.job_id, status)
          else none
    else none

/-- The `UPDATE` of `answer_proposal`. -/
def Db.move (s : Db) (user_id job_id : ℕ) (status : String) : Db :=
  { s with
    user_jobs := Function.update s.user_jobs user_id (Function.update (s.user_jobs user_id) job_id
      ((s.user_jobs user_id job_id).map fun row => { row with status := some status })) }

/-- `answer_proposal`: the answer is kept, and one that accepts moves the row to the proposed status, if there is a
row. -/
def Db.answerProposal (s : Db) (user_id application_id event_id : ℕ) (response : Response) :
    Db × Option ProposalAnswered :=
  match s.evidence user_id application_id event_id with
  | none => (s, none)
  | some (job_id, status) =>
    let s₁ := { s with answers := s.answers ++ [⟨event_id, .status, some response, user_id⟩] }
    match response, job_id with
    | .accepted, some job_id =>
      let updated := (s₁.user_jobs user_id job_id).isSome
      (s₁.move user_id job_id status,
        some ⟨response, updated, if updated then some status else none,
          if updated then none
          else some "Recorded. This application is not on your board, so no status moved."⟩)
    | .accepted, none =>
      (s₁, some ⟨response, false, none,
        some "Recorded. This application is not on your board, so no status moved."⟩)
    | .dismissed, _ =>
      (s₁, some ⟨response, false, none, some "Recorded. Declining moves nothing, by design."⟩)

/-! ## Steps -/

/-- What can happen next. -/
inductive Act
  /-- A posting enters the catalog. -/
  | post (job_id : ℕ)
  /-- A row is put on the board with no status: `track_board_row`, or the machine. -/
  | place (user_id job_id : ℕ)
  /-- `write_board_row`: a person changes a row of the board, on a day. -/
  | write (user_id job_id : ℕ) (patch : Patch) (today : ℕ) (lost : Bool)
  /-- `answer_proposal`: a person answers a proposal. -/
  | answer (user_id application_id event_id : ℕ) (response : Response)
  /-- An answer to an action. -/
  | act (user_id event_id : ℕ)
  /-- An application with no posting, from mail or from a form. -/
  | derive_ (user_id : ℕ) (source_provenance : Provenance) (applied_at : Option ℕ)
  /-- `dismiss_application`: an application is put away. -/
  | dismiss (application_id : ℕ)
  /-- `restore_application`: an application is taken back. -/
  | restore (application_id : ℕ)
  /-- A message is stored. -/
  | store
  /-- `events.append`: a message is read as an event. -/
  | append (message_id : ℕ) (kind : Kind)
  /-- `match.record`: a message is matched to an application, or to none. -/
  | record (message_id : ℕ) (application_id : Option ℕ)

/-- One step. -/
def step (s : Db) : Act → Option Db
  | .post job_id => some { s with jobs := s.jobs ++ [job_id] }
  | .place user_id job_id =>
    if job_id ∈ s.jobs ∧ s.user_jobs user_id job_id = none then
      some { s with
        user_jobs := Function.update s.user_jobs user_id (Function.update (s.user_jobs user_id) job_id
          (some ⟨none, fun _ => none, false⟩)) }
    else none
  | .write user_id job_id patch today lost => some (s.writeBoardRow user_id job_id patch today lost).1
  | .answer user_id application_id event_id response =>
    some (s.answerProposal user_id application_id event_id response).1
  | .act user_id event_id => some { s with answers := s.answers ++ [⟨event_id, .action, none, user_id⟩] }
  | .derive_ user_id source_provenance applied_at =>
    if source_provenance = .tracker then none
    else some { s with applications := s.applications ++ [⟨user_id, none, source_provenance, applied_at, false⟩] }
  | .dismiss application_id =>
    match s.applications[application_id]? with
    | some a =>
      -- Refused on any other than a mail-derived application.
      if a.source_provenance = .email then
        some { s with
          applications := s.applications.set application_id { a with dismissed := true } }
      else none
    | none => none
  | .restore application_id =>
    match s.applications[application_id]? with
    | some a =>
      some { s with
        applications := s.applications.set application_id { a with dismissed := false } }
    | none => none
  | .store => some { s with messages := s.messages ++ [⟨none, none⟩] }
  | .append message_id kind =>
    match s.messages[message_id]? with
    | some m =>
      some { s with
        events := s.events ++ [⟨message_id, kind⟩]
        messages := s.messages.set message_id { m with current_event_id := some s.events.length } }
    | none => none
  | .record message_id application_id =>
    match s.messages[message_id]? with
    | some m =>
      some { s with
        matches_ := s.matches_ ++ [⟨message_id, application_id⟩]
        messages := s.messages.set message_id { m with current_match_id := some s.matches_.length } }
    | none => none

/-! ## Histories that replay -/

/-- The history of a user and a posting. -/
def Db.changes (s : Db) (user_id job_id : ℕ) : List Change :=
  s.history.filter fun c => c.user_id = user_id && c.job_id = job_id

/-- The history replays to a status: it starts from none, each change starts from what the one before it left,
and the last one left the status. -/
structure Replays (R : Option String → Option String → Prop) (changes : List Change) (status : Option String) :
    Prop where
  first : ∀ c ∈ changes.head?, Same c.old_status none
  chain : changes.IsChain fun c d => R c.new_status d.old_status
  last : ∀ c ∈ changes.getLast?, R c.new_status status
  empty : changes = [] → Same none status

section Replaying

variable {R : Option String → Option String → Prop} {changes : List Change} {status new : Option String}

/-- A change that is appended starts from the status, and leaves the new one. -/
theorem Replays.append (h : Replays R changes status) (hrefl : R new new) (user_id job_id : ℕ) :
    Replays R (changes ++ [⟨user_id, job_id, status, new⟩]) new := by
  refine ⟨fun c hc => ?_, ?_, fun c hc => ?_, fun he => ?_⟩
  · rcases List.eq_nil_or_concat changes with rfl | ⟨front, d, rfl⟩
    · obtain rfl := Option.some.inj hc
      exact (h.empty rfl).symm
    · rw [List.head?_append_of_ne_nil _ (by simp)] at hc
      exact h.first c hc
  · refine h.chain.append (.singleton _) fun c hc d hd => ?_
    obtain rfl := Option.some.inj hd
    exact h.last c hc
  · rw [List.getLast?_append] at hc
    obtain rfl := Option.some.inj hc
    exact hrefl
  · exact absurd he (List.append_ne_nil_of_right_ne_nil _ (List.cons_ne_nil _ _))

/-- A status that is written over without a change. -/
theorem Replays.over (h : Replays R changes status) (hsame : Same status new)
    (hR : changes ≠ [] → ∀ x, R x status → R x new) : Replays R changes new := by
  refine ⟨h.first, h.chain, fun c hc => ?_, fun he => (h.empty he).trans hsame⟩
  refine hR ?_ _ (h.last c hc)
  rintro rfl
  contradiction

end Replaying

/-! ## What a write leaves -/

section Writes

variable {s : Db} {user_id job_id : ℕ}

/-- An application for the posting is recorded. -/
def Db.Applied (s : Db) (user_id job_id : ℕ) : Prop :=
  ∃ a ∈ s.applications, a.user_id = user_id ∧ a.job_id = some job_id

/-- `from_board` writes applications only. -/
theorem fromBoard_frame (s : Db) (user_id job_id : ℕ) (applied : Option ℕ) (set_date : Bool) :
    (s.fromBoard user_id job_id applied set_date).history = s.history ∧
      (s.fromBoard user_id job_id applied set_date).user_jobs = s.user_jobs := by
  unfold Db.fromBoard
  split
  · split
    · exact ⟨rfl, rfl⟩
    · exact ⟨rfl, rfl⟩
  · exact ⟨rfl, rfl⟩

/-- Applications whose day changes are still there. -/
theorem applied_of_map {f : Application → Application} {u j : ℕ}
    (hf : ∀ a, (f a).user_id = a.user_id ∧ (f a).job_id = a.job_id) (h : s.Applied u j) :
    ({ s with applications := s.applications.map f } : Db).Applied u j := by
  obtain ⟨a, ha, hu, hj⟩ := h
  refine ⟨f a, List.mem_map_of_mem ha, ?_, ?_⟩
  · rw [(hf a).1]
    exact hu
  · rw [(hf a).2]
    exact hj

/-- An application that is replaced by one of the same user and posting is still there. -/
theorem applied_of_set {i u j : ℕ} {x y : Application} (hx : s.applications[i]? = some x)
    (hy : y.user_id = x.user_id ∧ y.job_id = x.job_id) (h : s.Applied u j) :
    ({ s with applications := s.applications.set i y } : Db).Applied u j := by
  obtain ⟨a, ha, hu, hj⟩ := h
  obtain ⟨k, hk⟩ := List.mem_iff_getElem?.mp ha
  by_cases he : i = k
  · subst he
    obtain rfl : x = a := Option.some.inj (hx.symm.trans hk)
    refine ⟨y, List.mem_iff_getElem?.mpr ⟨i, ?_⟩, hy.1.trans hu, hy.2.trans hj⟩
    rw [List.getElem?_set_self', hx]
    rfl
  · refine ⟨a, List.mem_iff_getElem?.mpr ⟨k, ?_⟩, hu, hj⟩
    dsimp only
    rw [List.getElem?_set_ne he]
    exact hk

/-- The day of an application is replaced, and nothing else of it. -/
theorem ite_day_frame (applied : Option ℕ) (a : Application) :
    (if a.user_id = user_id ∧ a.job_id = some job_id then { a with applied_at := applied } else a).user_id =
        a.user_id ∧
      (if a.user_id = user_id ∧ a.job_id = some job_id then { a with applied_at := applied } else a).job_id =
        a.job_id := by
  split
  · exact ⟨rfl, rfl⟩
  · exact ⟨rfl, rfl⟩

/-- `clear_board_day` keeps the applications. -/
theorem clearBoardDay_applied {u j : ℕ} (h : s.Applied u j) : (s.clearBoardDay user_id job_id).Applied u j :=
  applied_of_map (ite_day_frame none) h

/-- `from_board` keeps the applications. -/
theorem fromBoard_applied {applied : Option ℕ} {set_date : Bool} {u j : ℕ} (h : s.Applied u j) :
    (s.fromBoard user_id job_id applied set_date).Applied u j := by
  unfold Db.fromBoard
  split
  · split
    · exact applied_of_map (ite_day_frame applied) h
    · exact h
  · obtain ⟨a, ha, hrest⟩ := h
    exact ⟨a, List.mem_append_left _ ha, hrest⟩

/-- `from_board` records the application of its row. -/
theorem fromBoard_self (applied : Option ℕ) (set_date : Bool) :
    (s.fromBoard user_id job_id applied set_date).Applied user_id job_id := by
  by_cases hany : s.applications.any (fun a => a.user_id = user_id && a.job_id = some job_id) = true
  · rw [List.any_eq_true] at hany
    obtain ⟨a, ha, hcond⟩ := hany
    rw [Bool.and_eq_true, decide_eq_true_eq, decide_eq_true_eq] at hcond
    exact fromBoard_applied ⟨a, ha, hcond⟩
  · unfold Db.fromBoard
    rw [if_neg hany]
    exact ⟨_, List.mem_append_right _ List.mem_cons_self, rfl, rfl⟩

/-- One row of the board is replaced. -/
theorem row_update {row : Option UserJob} {f : ℕ → ℕ → Option UserJob}
    (hf : f = Function.update s.user_jobs user_id (Function.update (s.user_jobs user_id) job_id row)) (u j : ℕ) :
    f u j = if u = user_id ∧ j = job_id then row else s.user_jobs u j := by
  rw [hf]
  by_cases hu : u = user_id
  · rw [hu, Function.update_self]
    by_cases hj : j = job_id
    · rw [hj, Function.update_self, if_pos ⟨rfl, rfl⟩]
    · rw [Function.update_of_ne hj, if_neg fun h => hj h.2]
  · rw [Function.update_of_ne hu, if_neg fun h => hu h.1]

/-- The status of the row after the upsert. -/
theorem over_status (p : Patch) (s : Db) (user_id job_id : ℕ) :
    (p.over (s.user_jobs user_id job_id)).status = p.status.getD (s.status user_id job_id) := by
  unfold Patch.over Db.status
  cases s.user_jobs user_id job_id with
  | none => rfl
  | some row => rfl

/-- What the transaction of `write_board_row` leaves: the history as it was, the status of the patch in its
row, the other rows as they were. -/
theorem upsert_spec (p : Patch) (given : Option (Option ℕ)) :
    (s.upsert user_id job_id p given).history = s.history ∧
      ∀ u j, (s.upsert user_id job_id p given).status u j =
        if u = user_id ∧ j = job_id then p.status.getD (s.status user_id job_id) else s.status u j := by
  have hrow : ∀ t : Db, t.user_jobs = Function.update s.user_jobs user_id (Function.update (s.user_jobs user_id)
      job_id (some (p.over (s.user_jobs user_id job_id)))) → ∀ u j, t.status u j =
        if u = user_id ∧ j = job_id then p.status.getD (s.status user_id job_id) else s.status u j := by
    intro t ht u j
    unfold Db.status
    rw [row_update ht]
    split
    · exact over_status p s user_id job_id
    · rfl
  unfold Db.upsert
  dsimp only
  split
  · exact ⟨(fromBoard_frame _ _ _ _ _).1, hrow _ (fromBoard_frame _ _ _ _ _).2⟩
  · split
    · refine ⟨(fromBoard_frame _ _ _ _ _).1.trans ?_, hrow _ ((fromBoard_frame _ _ _ _ _).2.trans ?_)⟩
      · split <;> rfl
      · split <;> rfl
    · refine ⟨?_, hrow _ ?_⟩
      · split <;> rfl
      · split <;> rfl

/-- The transaction keeps the applications, and records one with an applied status. -/
theorem upsert_applied (p : Patch) (given : Option (Option ℕ)) :
    (∀ u j, s.Applied u j → (s.upsert user_id job_id p given).Applied u j) ∧
      (isApplied (p.status.getD (s.status user_id job_id)) = true →
        (s.upsert user_id job_id p given).Applied user_id job_id) := by
  unfold Db.upsert
  dsimp only
  split
  · exact ⟨fun u j h => fromBoard_applied h, fun _ => fromBoard_self _ _⟩
  · rw [over_status]
    split
    · refine ⟨fun u j h => fromBoard_applied ?_, fun _ => fromBoard_self _ _⟩
      split
      · exact clearBoardDay_applied h
      · exact h
    · next hnot =>
      refine ⟨fun u j h => ?_, fun h => absurd h hnot⟩
      split
      · exact clearBoardDay_applied h
      · exact h

/-- What `write_board_row` does: nothing; or it records a change of the status and fails; or it records the
change, if there is one, and writes the row. -/
theorem writeBoardRow_cases (s : Db) (user_id job_id : ℕ) (p : Patch) (today : ℕ) (lost : Bool) :
    let s' := (s.writeBoardRow user_id job_id p today lost).1
    s' = s ∨
    (s.moves user_id job_id p = true ∧ job_id ∈ s.jobs ∧ storable (p.status.getD none) = true ∧
      (lost = true ∨ p.fits = false) ∧ s' = s.recordChange user_id job_id p) ∨
    (lost = false ∧ p.fits = true ∧ ∃ given, s' = (s.recordChange user_id job_id p).upsert user_id job_id p given) := by
  intro s'
  by_cases hfirst : job_id ∉ s.jobs ∨ storable (p.status.getD none) = false
  · refine .inl ?_
    simp only [s', Db.writeBoardRow, if_pos hfirst]
  · have hgo : job_id ∈ s.jobs ∧ storable (p.status.getD none) = true := by
      rw [not_or, not_not, Bool.not_eq_false] at hfirst
      exact hfirst
    by_cases hfails : (lost || !p.fits) = true
    · have heq : s' = s.recordChange user_id job_id p := by
        simp only [s', Db.writeBoardRow, if_neg hfirst, if_pos hfails]
      by_cases hmoves : s.moves user_id job_id p = true
      · rw [Bool.or_eq_true, Bool.not_eq_true'] at hfails
        exact .inr (.inl ⟨hmoves, hgo.1, hgo.2, hfails, heq⟩)
      · refine .inl (heq.trans ?_)
        unfold Db.recordChange
        rw [if_neg hmoves]
    · have hlands : lost = false ∧ p.fits = true := by
        rw [Bool.or_eq_true, Bool.not_eq_true', not_or, Bool.not_eq_true, Bool.not_eq_false] at hfails
        exact hfails
      refine .inr (.inr ⟨hlands.1, hlands.2, if (s.autofill user_id job_id p today).isSome then
        some (s.autofill user_id job_id p today) else p.date_applied, ?_⟩)
      simp only [s', Db.writeBoardRow, if_neg hfirst, if_neg hfails]

/-- A change that is recorded leaves the board as it is. -/
theorem recordChange_frame (s : Db) (user_id job_id : ℕ) (p : Patch) :
    (s.recordChange user_id job_id p).user_jobs = s.user_jobs ∧
      (s.recordChange user_id job_id p).applications = s.applications := by
  unfold Db.recordChange
  split
  · exact ⟨rfl, rfl⟩
  · exact ⟨rfl, rfl⟩

/-- The rows of the board after the `UPDATE` of `answer_proposal`. -/
theorem move_user_jobs (s : Db) (user_id job_id : ℕ) (status : String) (u j : ℕ) :
    (s.move user_id job_id status).user_jobs u j = if u = user_id ∧ j = job_id then
      (s.user_jobs user_id job_id).map fun row => { row with status := some status } else s.user_jobs u j :=
  row_update rfl u j

/-- What `answer_proposal` leaves: the history and the applications as they were, and the status of one row
replaced where the answer accepts. -/
theorem answerProposal_spec (s : Db) (user_id application_id event_id : ℕ) (response : Response) :
    let s' := (s.answerProposal user_id application_id event_id response).1
    s'.history = s.history ∧ s'.applications = s.applications ∧ ∀ u j,
      s'.user_jobs u j = s.user_jobs u j ∨
      (response = .accepted ∧ u = user_id ∧ ∃ status row,
        s.evidence user_id application_id event_id = some (some j, status) ∧ s.user_jobs u j = some row ∧
        s'.user_jobs u j = some { row with status := some status }) := by
  intro s'
  simp only [s', Db.answerProposal]
  split
  · exact ⟨rfl, rfl, fun u j => .inl rfl⟩
  · next job status hev =>
    split
    · next job_id =>
      refine ⟨rfl, rfl, fun u j => ?_⟩
      rw [move_user_jobs]
      split
      · next hrow =>
        obtain ⟨rfl, rfl⟩ := hrow
        dsimp only
        cases hold : s.user_jobs u j with
        | none => exact .inl rfl
        | some row => exact .inr ⟨rfl, rfl, status, row, hev, rfl, rfl⟩
      · exact .inl rfl
    · exact ⟨rfl, rfl, fun u j => .inl rfl⟩
    · exact ⟨rfl, rfl, fun u j => .inl rfl⟩

end Writes

/-! ## Runs -/

/-- The row that an accepted proposal moves, if there is one, has the status already. -/
def Found (R : Option String → Option String → Prop) (s : Db) (user_id : ℕ) : Option (Option ℕ × String) → Prop
  | some (some job_id, status) => (s.user_jobs user_id job_id).isSome = true → R (s.status user_id job_id) (some status)
  | some (none, _) => True
  | none => True

instance {R : Option String → Option String → Prop} [DecidableRel R] (s : Db) (user_id : ℕ) :
    ∀ e, Decidable (Found R s user_id e)
  | some (some _, _) => inferInstanceAs (Decidable (_ → _))
  | some (none, _) | none => isTrue trivial

/-- The step keeps the history in line with the board: a write that changes a status goes through once its
change is recorded; one that only swaps null and empty, on a row with a history, leaves the status as the
relation has it; and an accepted proposal finds its status on the row, or no row. -/
def Kept (R : Option String → Option String → Prop) (s : Db) : Act → Prop
  | .write user_id job_id patch _ lost =>
    (s.moves user_id job_id patch = true → job_id ∈ s.jobs → storable (patch.status.getD none) = true →
      lost = false ∧ patch.fits = true) ∧
    (s.moves user_id job_id patch = false → lost = false → patch.fits = true → s.changes user_id job_id ≠ [] →
      R (s.status user_id job_id) (patch.status.getD (s.status user_id job_id)))
  | .answer user_id application_id event_id .accepted =>
    Found R s user_id (s.evidence user_id application_id event_id)
  | _ => True

instance {R : Option String → Option String → Prop} [DecidableRel R] (s : Db) : ∀ a, Decidable (Kept R s a)
  | .write .. => inferInstanceAs (Decidable (_ ∧ _))
  | .answer user_id application_id event_id .accepted =>
    inferInstanceAs (Decidable (Found R s user_id (s.evidence user_id application_id event_id)))
  | .answer _ _ _ .dismissed | .post _ | .place _ _ | .act _ _ | .derive_ _ _ _ | .dismiss _ | .restore _ | .store
  | .append _ _ | .record _ _ => isTrue trivial

section Runs

variable {R : Option String → Option String → Prop} {s s' : Db} {a : Act}

/-- A relation that a history may be kept by: equality, or equality up to null and empty. -/
structure Keeps (R : Option String → Option String → Prop) : Prop where
  refl : ∀ x, R x x
  trans : ∀ {x y z}, R x y → R y z → R x z
  same : ∀ {x y}, R x y → Same x y

/-- Equality up to null and empty. -/
theorem keeps_same : Keeps Same := ⟨fun _ => rfl, Eq.trans, id⟩

/-- Equality. -/
theorem keeps_eq : Keeps Eq := ⟨fun _ => rfl, Eq.trans, fun h => congrArg (Option.getD · "") h⟩

/-- A step other than a write or an answer leaves the history, and the statuses, as they are. -/
theorem step_frame (hs : step s a = some s') (hwrite : ∀ u j p d l, a ≠ .write u j p d l)
    (hanswer : ∀ u x e r, a ≠ .answer u x e r) :
    s'.history = s.history ∧ (∀ u j, s'.status u j = s.status u j) ∧
      ∀ u j, s.Applied u j → s'.Applied u j := by
  cases a with
  | write u j p d l => exact absurd rfl (hwrite u j p d l)
  | answer u x e r => exact absurd rfl (hanswer u x e r)
  | place u j =>
    simp only [step] at hs
    rw [Option.ite_none_right_eq_some] at hs
    obtain ⟨⟨-, habsent⟩, hs⟩ := hs
    obtain rfl := Option.some.inj hs
    refine ⟨rfl, fun u' j' => ?_, fun u' j' h => h⟩
    have hrow : Function.update s.user_jobs u (Function.update (s.user_jobs u) j
        (some ⟨none, fun _ => none, false⟩)) u' j' =
          if u' = u ∧ j' = j then some ⟨none, fun _ => none, false⟩ else s.user_jobs u' j' :=
      row_update rfl u' j'
    unfold Db.status
    dsimp only
    rw [hrow]
    split
    · next h =>
      rw [h.1, h.2, habsent]
      rfl
    · rfl
  | post _ | act _ _ | store =>
    simp only [step] at hs
    obtain rfl := Option.some.inj hs
    exact ⟨rfl, fun _ _ => rfl, fun _ _ h => h⟩
  | derive_ _ _ _ =>
    simp only [step] at hs
    rw [Option.ite_none_left_eq_some] at hs
    obtain rfl := Option.some.inj hs.2
    refine ⟨rfl, fun _ _ => rfl, fun u j h => ?_⟩
    obtain ⟨x, hx, hrest⟩ := h
    exact ⟨x, List.mem_append_left _ hx, hrest⟩
  | dismiss i | restore i =>
    simp only [step] at hs
    split at hs
    · next x hx =>
      try rw [Option.ite_none_right_eq_some] at hs; replace hs := hs.2
      obtain rfl := Option.some.inj hs
      exact ⟨rfl, fun _ _ => rfl, fun u j h => applied_of_set hx ⟨rfl, rfl⟩ h⟩
    · contradiction
  | append _ _ | record _ _ =>
    simp only [step] at hs
    split at hs
    · obtain rfl := Option.some.inj hs
      exact ⟨rfl, fun _ _ => rfl, fun _ _ h => h⟩
    · contradiction

/-- An applied status has an application. -/
def Db.Recorded (s : Db) : Prop := ∀ u j, isApplied (s.status u j) = true → s.Applied u j

/-- A status that an event gives is not an applied one. -/
theorem statusFromEvent_not_applied {kind : Kind} {status : String} (h : statusFromEvent kind = some status) :
    isApplied (some status) = false := by
  cases kind <;> first | contradiction | (obtain rfl := Option.some.inj h; decide)

/-- The status of the evidence is that of an event. -/
theorem evidence_status {user_id application_id event_id : ℕ} {job_id : Option ℕ} {status : String}
    (h : s.evidence user_id application_id event_id = some (job_id, status)) :
    ∃ kind, statusFromEvent kind = some status := by
  unfold Db.evidence at h
  split at h
  · contradiction
  · split at h
    · split at h
      · contradiction
      · next event _ =>
        split at h
        · contradiction
        · split at h
          · rw [Option.map_eq_some_iff] at h
            obtain ⟨st, hst, he⟩ := h
            rw [Prod.mk.injEq] at he
            exact ⟨event.kind, hst.trans (congrArg some he.2)⟩
          · contradiction
    · contradiction

/-- The status of a row after an answer. -/
theorem answer_status (s : Db) (user_id application_id event_id : ℕ) (response : Response) (u j : ℕ) :
    let s' := (s.answerProposal user_id application_id event_id response).1
    s'.status u j = s.status u j ∨
      (response = .accepted ∧ u = user_id ∧ (s.user_jobs u j).isSome = true ∧ ∃ status,
        s.evidence user_id application_id event_id = some (some j, status) ∧ s'.status u j = some status) := by
  intro s'
  rcases (answerProposal_spec s user_id application_id event_id response).2.2 u j with
    hsame | ⟨hresp, hu, status, row, hev, hrow, hnew⟩
  · refine .inl ?_
    unfold Db.status
    rw [hsame]
  · refine .inr ⟨hresp, hu, by rw [hrow]; rfl, status, hev, ?_⟩
    unfold Db.status
    rw [hnew]
    rfl

/-- No step leaves an applied status without an application. -/
theorem Db.Recorded.step (h : s.Recorded) (hs : Status.step s a = some s') : s'.Recorded := by
  intro u j happlied
  cases a with
  | write user_id job_id p today lost =>
    obtain rfl := Option.some.inj hs
    obtain ⟨hjobs, happs⟩ := recordChange_frame s user_id job_id p
    have hsame : ∀ u j, (s.recordChange user_id job_id p).status u j = s.status u j := by
      intro u j
      unfold Db.status
      rw [hjobs]
    have hkept : (s.recordChange user_id job_id p).Recorded := by
      intro u j happlied
      unfold Db.Applied
      rw [happs]
      exact h u j (hsame u j ▸ happlied)
    rcases writeBoardRow_cases s user_id job_id p today lost with heq | ⟨-, -, -, -, heq⟩ | ⟨-, -, given, heq⟩
    · rw [heq] at happlied ⊢
      exact h u j happlied
    · rw [heq] at happlied ⊢
      exact hkept u j happlied
    · rw [heq] at happlied ⊢
      rw [(upsert_spec p given).2] at happlied
      obtain ⟨hkeep, hself⟩ := upsert_applied (s := s.recordChange user_id job_id p) p given
      split at happlied
      · next hrow =>
        rw [hrow.1, hrow.2]
        exact hself happlied
      · exact hkeep u j (hkept u j happlied)
  | answer user_id application_id event_id response =>
    obtain rfl := Option.some.inj hs
    have happs := (answerProposal_spec s user_id application_id event_id response).2.1
    unfold Db.Applied
    rw [happs]
    rcases answer_status s user_id application_id event_id response u j with hsame | ⟨-, -, -, status, hev, hnew⟩
    · rw [hsame] at happlied
      exact h u j happlied
    · obtain ⟨kind, hkind⟩ := evidence_status hev
      rw [hnew, statusFromEvent_not_applied hkind] at happlied
      contradiction
  | post _ | place _ _ | act _ _ | derive_ _ _ _ | dismiss _ | restore _ | store | append _ _ | record _ _ =>
    obtain ⟨-, hstatus, hkeep⟩ := step_frame hs (fun _ _ _ _ _ => Act.noConfusion) fun _ _ _ _ => Act.noConfusion
    rw [hstatus] at happlied
    exact hkeep u j (h u j happlied)

/-- The changes after one is recorded: those of its row end with it. -/
theorem recordChange_changes (s : Db) (user_id job_id : ℕ) (p : Patch) (u j : ℕ) :
    (s.recordChange user_id job_id p).changes u j =
      if s.moves user_id job_id p = true ∧ u = user_id ∧ j = job_id then
        s.changes u j ++ [⟨user_id, job_id, s.status user_id job_id, p.status.getD none⟩]
      else s.changes u j := by
  unfold Db.recordChange Db.changes
  by_cases hmoves : s.moves user_id job_id p = true
  · rw [if_pos hmoves]
    dsimp only
    rw [List.filter_append]
    by_cases hrow : u = user_id ∧ j = job_id
    · rw [if_pos ⟨hmoves, hrow⟩, hrow.1, hrow.2, List.filter_cons_of_pos (by simp), List.filter_nil]
    · rw [if_neg fun h => hrow h.2, List.filter_cons_of_neg, List.filter_nil, List.append_nil]
      rw [Bool.and_eq_true, decide_eq_true_eq, decide_eq_true_eq]
      exact fun h => hrow ⟨h.1.symm, h.2.symm⟩
  · rw [if_neg hmoves, if_neg fun h => hmoves h.1]

/-- A patch that does not move the status leaves it the same. -/
theorem same_of_not_moves {user_id job_id : ℕ} {p : Patch} (h : s.moves user_id job_id p = false) :
    Same (s.status user_id job_id) (p.status.getD (s.status user_id job_id)) := by
  unfold Db.moves at h
  split at h
  · next new hnew =>
    rw [decide_eq_false_iff_not, not_not] at h
    rw [hnew]
    exact h
  · next hnone =>
    rw [hnone]
    rfl

/-- A step that keeps the history in line keeps every history replaying to its status. -/
theorem replays_step (hR : Keeps R) (h : ∀ u j, Replays R (s.changes u j) (s.status u j)) (hok : Kept R s a)
    (hs : Status.step s a = some s') : ∀ u j, Replays R (s'.changes u j) (s'.status u j) := by
  intro u j
  cases a with
  | write user_id job_id p today lost =>
    obtain rfl := Option.some.inj hs
    obtain ⟨hlands, hswap⟩ := hok
    rcases writeBoardRow_cases s user_id job_id p today lost with
      heq | ⟨hmoves, hjob, hstore, hfails, -⟩ | ⟨hlost, hfits, given, heq⟩
    · rw [heq]
      exact h u j
    · obtain ⟨hlost, hfits⟩ := hlands hmoves hjob hstore
      rw [hlost, hfits] at hfails
      exact absurd hfails (by decide)
    · have hchanges : (s.writeBoardRow user_id job_id p today lost).1.changes u j =
          (s.recordChange user_id job_id p).changes u j := by
        unfold Db.changes
        rw [heq, (upsert_spec p given).1]
      have hstatus : ∀ u j, (s.recordChange user_id job_id p).status u j = s.status u j := by
        intro u j
        unfold Db.status
        rw [(recordChange_frame s user_id job_id p).1]
      rw [hchanges, recordChange_changes, heq, (upsert_spec p given).2, hstatus, hstatus]
      by_cases hrow : u = user_id ∧ j = job_id
      · obtain ⟨rfl, rfl⟩ := hrow
        rw [if_pos (c := u = u ∧ j = j) ⟨rfl, rfl⟩]
        by_cases hmoves : s.moves u j p = true
        -- The change starts from the status that the row has, and leaves the one that it gets.
        · rw [if_pos ⟨hmoves, rfl, rfl⟩]
          have hgiven : p.status.getD (s.status u j) = p.status.getD none := by
            cases hp : p.status with
            | none =>
              unfold Db.moves at hmoves
              rw [hp] at hmoves
              contradiction
            | some new => rfl
          rw [hgiven]
          exact (h u j).append (hR.refl _) u j
        · rw [if_neg fun hc => hmoves hc.1]
          rw [Bool.not_eq_true] at hmoves
          exact (h u j).over (same_of_not_moves hmoves) fun hne x hx =>
            hR.trans hx (hswap hmoves hlost hfits hne)
      · rw [if_neg fun hc => hrow hc.2, if_neg hrow]
        exact h u j
  | answer user_id application_id event_id response =>
    obtain rfl := Option.some.inj hs
    have hhist := (answerProposal_spec s user_id application_id event_id response).1
    have hchanges : (s.answerProposal user_id application_id event_id response).1.changes u j = s.changes u j := by
      unfold Db.changes
      rw [hhist]
    rw [hchanges]
    rcases answer_status s user_id application_id event_id response u j with
      hsame | ⟨rfl, rfl, hsome, status, hev, hnew⟩
    · rw [hsame]
      exact h u j
    · have hfound : R (s.status u j) (some status) := by
        change Found R s u (s.evidence u application_id event_id) at hok
        rw [hev] at hok
        exact hok hsome
      rw [hnew]
      exact (h u j).over (hR.same hfound) fun _ x hx => hR.trans hx hfound
  | post _ | place _ _ | act _ _ | derive_ _ _ _ | dismiss _ | restore _ | store | append _ _ | record _ _ =>
    obtain ⟨hhist, hstatus, -⟩ :=
      step_frame hs (fun _ _ _ _ _ => Act.noConfusion) fun _ _ _ _ => Act.noConfusion
    have hchanges : s'.changes u j = s.changes u j := by
      unfold Db.changes
      rw [hhist]
    rw [hchanges, hstatus]
    exact h u j

/-- In every run a board row in an applied status has an application for its posting. -/
theorem applied_recorded {ok : Db → Act → Prop} (h : Run step ok Db.empty s) (u j : ℕ)
    (happlied : isApplied (s.status u j) = true) : s.Applied u j := by
  have hstart : Db.empty.Recorded := by
    intro u j hnone
    contradiction
  exact h.invariant hstart (fun _ _ _ hi _ hs => hi.step hs) u j happlied

/-- In every run in which each write that changes a status goes through once its change is recorded, and each
proposal that is accepted finds its status on the row or no row, the history of every row replays to its
status, up to null and empty; and exactly, change by change, where moreover no write swaps null and empty on a
row with a history. A row in an applied status has an application for its posting. -/
theorem history_replays (hR : R = Same ∨ R = Eq) (h : Run step (Kept R) Db.empty s) (u j : ℕ) :
    Replays R (s.changes u j) (s.status u j) ∧ (isApplied (s.status u j) = true → s.Applied u j) := by
  have hkeeps : Keeps R := by
    rcases hR with rfl | rfl
    · exact keeps_same
    · exact keeps_eq
  have hstart : ∀ u j, Replays R (Db.empty.changes u j) (Db.empty.status u j) := by
    intro u j
    refine ⟨fun c hc => ?_, .nil, fun c hc => ?_, fun _ => rfl⟩
    · contradiction
    · contradiction
  refine ⟨?_, applied_recorded h u j⟩
  exact h.invariant (I := fun s => ∀ u j, Replays R (s.changes u j) (s.status u j)) hstart
    (fun _ _ _ hi hok hs => replays_step hkeeps hi hok hs) u j

/-- A patch of the status only. -/
def ofStatus (status : String) : Patch := ⟨some (some status), none, fun _ => none, none⟩

/-- User 1 tracks posting 0 as submitted, and a rejection for it arrives. -/
def rejected : List Act :=
  [.post 0, .write 1 0 (ofStatus "Application Submitted") 20000 false, .store, .append 0 .rejection,
    .record 0 (some 0)]

/-- The person moves the row first, and then accepts the proposal: the history has both changes. -/
theorem history_replays_moved_first : ∃ s, Run step (Kept Eq) Db.empty s ∧
    (s.changes 1 0).map Change.new_status = [some "Application Submitted", some "Rejected"] ∧
    s.status 1 0 = some "Rejected" ∧ Replays Eq (s.changes 1 0) (s.status 1 0) := by
  have hany : (runList (guarded step (Kept Eq)) Db.empty (rejected ++
      [.write 1 0 (ofStatus "Rejected") 20001 false, .answer 1 0 0 .accepted])).any (fun s =>
      decide ((s.changes 1 0).map Change.new_status = [some "Application Submitted", some "Rejected"]) &&
        decide (s.status 1 0 = some "Rejected")) = true := by decide +kernel
  obtain ⟨s, hrun, hs⟩ := exists_run_of_any hany
  rw [Bool.and_eq_true, decide_eq_true_eq, decide_eq_true_eq] at hs
  have hkept := run_of_guarded hrun
  exact ⟨s, hkept, hs.1, hs.2, (history_replays (.inr rfl) hkept 1 0).1⟩

/-- Accepting the proposal moves the row and records no change: the history ends at the submission. -/
theorem accepted_proposal_not_in_history :
    ¬∀ s, Run step Always Db.empty s → ∀ u j, Replays Same (s.changes u j) (s.status u j) := by
  intro hall
  have hany : (runList step Db.empty (rejected ++ [.answer 1 0 0 .accepted])).any (fun s =>
      decide ((s.changes 1 0).getLast?.map Change.new_status = some (some "Application Submitted")) &&
        decide (s.status 1 0 = some "Rejected")) = true := by decide +kernel
  obtain ⟨s, hrun, hs⟩ := exists_run_of_any hany
  rw [Bool.and_eq_true, decide_eq_true_eq, decide_eq_true_eq, Option.map_eq_some_iff] at hs
  obtain ⟨⟨c, hc, hnew⟩, hstatus⟩ := hs
  have hlast := (hall s hrun 1 0).last c hc
  rw [hnew, hstatus] at hlast
  exact absurd hlast (by decide)

end Runs

end JobScripts.Board.Status

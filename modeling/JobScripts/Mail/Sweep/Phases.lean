import Mathlib.Data.List.MinMax
import JobScripts.Mail.Derived

/-!
# Incremental sweeps

`handle_match_mail` for one user (`tasks/mail/matching/handler.py`, `sweep.py`, `api/mail/match_sweeps.py`).
A sweep reads when the last finished sweep started, and is over at once when nothing was created since.
Otherwise it detaches messages that describe the person, lowers the dates of derived applications, selects
the messages without an application for which something was created since their match and since that sweep
(`match_pending`), and decides each of them again. Each statement is a step; any number of sweeps are at
work, and mail, applications, their dates and other decisions change beside them.
-/

namespace JobScripts.Mail.Sweep

open Lib

/-! ## Decisions and rows -/

/-- The fields of a decision that `repeats` compares. -/
abbrev Verdict := Option ℕ × String × String

/-- The fields of a decision that count. -/
def verdictOf (d : MatchDecision) : Verdict := (d.application_id, d.method, d.confidence)

/-- The current match of a message. -/
structure Standing where
  verdict : Verdict
  actor_user_id : Option ℕ
  created_at : ℕ

/-- A row of the query of `match_pending`, or of `detach_unattachable`. -/
structure Row where
  id : ℕ
  body_text : Option String
  sent_at : Option ℕ
  kind : String
  company : Option String
  title : Option String

/-- The row of a message. -/
def rowOf (m : Message) (e : Event) : Row :=
  ⟨m.id, m.body_text, m.sent_at, e.kind, e.company, e.role_title⟩

/-- The tiers of `match_message`. -/
inductive Tier
  | exactLink | company | companyAndTitle

/-- What a tier finds. -/
def Tier.find (R : Reader) (apps : List Application) (row : Row) : Tier → Option MatchDecision
  | .exactLink => R.byExactLink apps row.body_text
  | .company => R.byCompany apps row.company row.sent_at row.title
  | .companyAndTitle => R.byCompanyAndTitle apps row.company row.title row.sent_at

/-- The tier after. -/
def Tier.next : Tier → Option Tier
  | .exactLink => some .company
  | .company => some .companyAndTitle
  | .companyAndTitle => none

/-- The refusal of a sweep. -/
def refusal (row : Row) : MatchDecision :=
  .notAnApplication (row.kind ++ " describes the person, not an application")

/-- What a sweep decides for a row. -/
def rowDecision (R : Reader) (apps : List Application) (row : Row) : MatchDecision :=
  if unattachableKinds.contains row.kind then refusal row
  else R.matchMessage apps row.body_text row.company row.title row.sent_at

/-! ## Sweeps -/

/-- Which of the two loops of a sweep records. -/
inductive Stage
  /-- `detach_unattachable`, with the cutoff. -/
  | detach (since : Option ℕ)
  /-- `match_pending`: the messages that are pending are matched. -/
  | pending
  deriving DecidableEq

/-- Where a sweep is. -/
inductive Phase
  /-- Claimed. -/
  | started
  /-- It has read the start of the last sweep. -/
  | looked (since : Option ℕ)
  /-- Something has changed since. -/
  | changed (since : Option ℕ)
  /-- About to handle the next row. -/
  | rows (stage : Stage) (todo : List Row)
  /-- About to ask a tier. -/
  | asking (tier : Tier) (row : Row) (todo : List Row)
  /-- About to record a decision. -/
  | decided (stage : Stage) (row : Row) (d : MatchDecision) (todo : List Row)
  /-- `record` has passed its check. -/
  | passed (stage : Stage) (row : Row) (d : MatchDecision) (todo : List Row)
  /-- The dates still to lower. -/
  | lowering (since : Option ℕ) (todo : List (ℕ × ℕ))
  /-- The matching stage is over. -/
  | matched
  /-- Nothing had changed. -/
  | skipped

/-- A sweep: its task, the start of its claim, its limit. -/
structure SweepRun where
  task_id : ℕ
  started_at : ℕ
  limit : Option ℕ
  phase : Phase

/-- `if limit`: the sweep decides only part of the mail. -/
def SweepRun.partly (run : SweepRun) : Bool := run.limit.any (· ≠ 0)

/-- One user's applications, mail and current matches, the sweeps, and the finished ones without a limit:
task and start. -/
structure State where
  applications : List Application
  messages : ℕ → Option Message
  ids : List ℕ
  current : ℕ → Option Standing
  sweeps : ℕ → Option SweepRun
  finished : List (ℕ × ℕ)

/-- Nothing there. -/
def State.empty : State := ⟨[], fun _ => none, [], fun _ => none, fun _ => none, []⟩

/-- `last_sweep_start`: when the last sweep that finished had started. -/
def State.lastSweepStart (s : State) : Option ℕ := (s.finished.argmax Prod.fst).map Prod.snd

/-- `t > GREATEST(…)`, which passes over nulls. -/
def later (t : ℕ) (bounds : List (Option ℕ)) : Bool := bounds.all fun b => b.all (· < t)

/-- Something was created after the message's match and after a time: its event, or an application. -/
def State.newer (s : State) (id : ℕ) (since : Option ℕ) : Bool :=
  let bounds := [(s.current id).map Standing.created_at, since]
  ((s.messages id).bind Message.event).any (fun e => later e.created_at bounds) ||
    s.applications.any fun a => later a.created_at bounds

/-- The current match of the message holds no application. -/
def State.unattached (s : State) (id : ℕ) : Bool := (s.current id).all fun c => c.verdict.1.isNone

/-- The event of a message when it is about a job. -/
def State.jobEvent (s : State) (id : ℕ) : Option (Message × Event) :=
  (s.messages id).bind fun m => (m.event.filter fun e => e.kind ≠ "not_job_related").map fun e => (m, e)

/-- The `WHERE` of `match_pending`. -/
def State.selected (s : State) (since : Option ℕ) (id : ℕ) : Option Row :=
  if s.unattached id && ((s.current id).isNone || s.newer id since) then
    (s.jobEvent id).map fun me => rowOf me.1 me.2
  else none

/-- `ORDER BY m.sent_at NULLS LAST, m.id`: the one row comes before the other, or is it. -/
def notLater (a b : Row) : Bool :=
  match a.sent_at, b.sent_at with
  | some x, some y => x < y || x == y && a.id ≤ b.id
  | some _, none => true
  | none, some _ => false
  | none, none => a.id ≤ b.id

/-- The query of `match_pending`. -/
def State.pendingRows (s : State) (since : Option ℕ) (limit : Option ℕ) : List Row :=
  let rows := (s.ids.filterMap (s.selected since)).mergeSort notLater
  match limit with
  | some n => if n = 0 then rows else rows.take n
  | none => rows

/-- The query of `detach_unattachable`. -/
def State.unattachableRows (s : State) : List Row :=
  s.ids.filterMap fun id => (s.jobEvent id).bind fun me =>
    if unattachableKinds.contains me.2.kind && !s.unattached id then some (rowOf me.1 me.2) else none

/-- `changed_since`; `other` says whether a row of a log that is not current is newer. -/
def State.changedSince (s : State) (since : Option ℕ) (other : Bool) : Bool :=
  match since with
  | none => true
  | some t => other || s.applications.any (fun a => t < a.created_at) || s.ids.any fun id =>
      ((s.messages id).bind Message.event).any (fun e => t < e.created_at) ||
        (s.current id).any fun c => t < c.created_at

/-- The earliest message attached to an application. -/
def State.earliestAttached (s : State) (app : ℕ) : Option ℕ :=
  ((s.ids.filter fun id => (s.current id).any fun c => c.verdict.1 = some app).filterMap fun id =>
    (s.messages id).bind Message.sent_at).min?

/-- The earliest unattached evidence of a company. -/
def State.earliestLoose (R : Reader) (s : State) (company : List ℕ) : Option ℕ :=
  let loose := Derived.unmatchedAppliedMessages (s.ids.filterMap s.messages) fun id => !s.unattached id
  if company = [] then none
  else ((loose.filter fun m => Derived.companyOf R m = company).filterMap Derived.Evidence.sent_at).min?

/-- The dates that `recompute_derived_floors` lowers. -/
def State.floors (R : Reader) (s : State) : List (ℕ × ℕ) :=
  let derived := s.applications.filter fun a =>
    a.source_provenance = "email" && a.applied_at.isSome
  derived.filterMap fun a => a.applied_at.bind fun applied =>
    let company := R.normCompany a.company_name
    let alone := (derived.filter fun b => R.normCompany b.company_name = company).length = 1
    let loose := if alone then s.earliestLoose R company else none
    let floor := min applied (min ((s.earliestAttached a.id).getD applied) (loose.getD applied))
    if floor < applied then some (a.id, floor) else none

/-! ## Steps -/

/-- What can happen next. -/
inductive Act
  /-- An application is recorded. -/
  | create (app : Application)
  /-- A person sets or clears the day of an application. -/
  | edit (app : ℕ) (applied_at : Option ℕ)
  /-- A message arrives. -/
  | arrive (m : Message)
  /-- An event of a message is appended. -/
  | classify (id : ℕ) (e : Event)
  /-- A person decides, or `seed_from_mail` attaches. -/
  | decide (id : ℕ) (st : Standing)
  /-- A sweep is claimed. -/
  | start (k task_id started_at : ℕ) (limit : Option ℕ)
  /-- It reads `last_sweep_start`. -/
  | since (k : ℕ)
  /-- It reads `changed_since`. -/
  | look (k : ℕ) (other : Bool)
  /-- It reads the rows of `detach_unattachable`. -/
  | detach (k : ℕ)
  /-- `recompute_derived_floors` reads. -/
  | floors (k : ℕ)
  /-- It lowers the next date. -/
  | lower (k : ℕ)
  /-- `match_pending` reads its rows. -/
  | select (k : ℕ)
  /-- The next row. -/
  | take (k : ℕ)
  /-- A query of `match_message`. -/
  | ask (k : ℕ)
  /-- `record` reads the current match. -/
  | check (k : ℕ)
  /-- It appends its row. -/
  | append (k now : ℕ)
  /-- The matching stage is over. -/
  | endStage (k : ℕ)
  /-- The task is done. -/
  | finish (k : ℕ)
  /-- A sweep dies. -/
  | leave (k : ℕ)

/-- A sweep goes on. -/
def State.goOn (s : State) (k : ℕ) (run : Option SweepRun) : State :=
  { s with sweeps := Function.update s.sweeps k run }

/-- `record`'s check for the matcher: it goes on unless a person decided or the decision repeats. -/
def goesOn (d : MatchDecision) (current : Option Standing) : Bool :=
  current.all fun c => c.actor_user_id.isNone && c.verdict != verdictOf d

/-- The date of an application is set. -/
def setApplied (app : ℕ) (applied_at : Option ℕ) (a : Application) : Application :=
  if a.id = app then { a with applied_at := applied_at } else a

/-- `UPDATE applications SET applied_at = floor WHERE id = app AND applied_at > floor`: a later day is lowered. -/
def lowerApplied (app floor : ℕ) (a : Application) : Application :=
  if a.id = app ∧ a.applied_at.any (floor < ·) then { a with applied_at := some floor } else a

/-- One step. -/
def step (R : Reader) (s : State) : Act → Option State
  | .create app => some { s with applications := s.applications ++ [app] }
  | .edit app applied_at =>
    some { s with applications := s.applications.map (setApplied app applied_at) }
  | .arrive m =>
    match s.messages m.id with
    | none => some { s with
        messages := Function.update s.messages m.id (some m), ids := s.ids ++ [m.id] }
    | some _ => none
  | .classify id e =>
    match s.messages id with
    | some m => some { s with messages := Function.update s.messages id (some { m with event := some e }) }
    | none => none
  | .decide id st =>
    if st.actor_user_id ≠ none ∨ st.verdict.1 ≠ none then
      some { s with current := Function.update s.current id (some st) }
    else none
  | .start k task_id started_at limit =>
    match s.sweeps k with
    | none => some (s.goOn k (some ⟨task_id, started_at, limit, .started⟩))
    | some _ => none
  | .since k =>
    match s.sweeps k with
    | some ⟨t, st, limit, .started⟩ =>
      let since := if limit.any (· ≠ 0) then none else s.lastSweepStart
      some (s.goOn k (some ⟨t, st, limit, .looked since⟩))
    | _ => none
  | .look k other =>
    match s.sweeps k with
    | some ⟨t, st, limit, .looked since⟩ =>
      some (s.goOn k (some ⟨t, st, limit,
        if s.changedSince since other then .changed since else .skipped⟩))
    | _ => none
  | .detach k =>
    match s.sweeps k with
    | some ⟨t, st, limit, .changed since⟩ =>
      some (s.goOn k (some ⟨t, st, limit, .rows (.detach since) s.unattachableRows⟩))
    | _ => none
  | .floors k =>
    match s.sweeps k with
    | some ⟨t, st, limit, .rows (.detach since) []⟩ =>
      some (s.goOn k (some ⟨t, st, limit, .lowering since (s.floors R)⟩))
    | _ => none
  | .lower k =>
    match s.sweeps k with
    | some ⟨t, st, limit, .lowering since ((app, floor) :: todo)⟩ =>
      some { s.goOn k (some ⟨t, st, limit, .lowering since todo⟩) with
        applications := s.applications.map (lowerApplied app floor) }
    | _ => none
  | .select k =>
    match s.sweeps k with
    | some ⟨t, st, limit, .lowering since []⟩ =>
      some (s.goOn k (some ⟨t, st, limit, .rows .pending (s.pendingRows since limit)⟩))
    | _ => none
  | .take k =>
    match s.sweeps k with
    | some ⟨t, st, limit, .rows stage (row :: todo)⟩ =>
      some (s.goOn k (some ⟨t, st, limit,
        if stage ≠ .pending ∨ unattachableKinds.contains row.kind = true then
          .decided stage row (refusal row) todo
        else .asking .exactLink row todo⟩))
    | _ => none
  | .ask k =>
    match s.sweeps k with
    | some ⟨t, st, limit, .asking tier row todo⟩ =>
      some (s.goOn k (some ⟨t, st, limit,
        match tier.find R s.applications row, tier.next with
        | some d, _ => .decided .pending row d todo
        | none, some tier => .asking tier row todo
        | none, none => .decided .pending row (.unmatched "no candidate matched") todo⟩))
    | _ => none
  | .check k =>
    match s.sweeps k with
    | some ⟨t, st, limit, .decided stage row d todo⟩ =>
      some (s.goOn k (some ⟨t, st, limit,
        if goesOn d (s.current row.id) then .passed stage row d todo else .rows stage todo⟩))
    | _ => none
  | .append k now =>
    match s.sweeps k with
    | some ⟨t, st, limit, .passed stage row d todo⟩ =>
      some { s.goOn k (some ⟨t, st, limit, .rows stage todo⟩) with
        current := Function.update s.current row.id (some ⟨verdictOf d, none, now⟩) }
    | _ => none
  | .endStage k =>
    match s.sweeps k with
    | some ⟨t, st, limit, .rows .pending []⟩ => some (s.goOn k (some ⟨t, st, limit, .matched⟩))
    | _ => none
  | .finish k =>
    match s.sweeps k with
    | some ⟨t, st, limit, .matched⟩ | some ⟨t, st, limit, .skipped⟩ =>
      some { s.goOn k none with
        finished := if limit = none then (t, st) :: s.finished else s.finished }
    | _ => none
  | .leave k => some (s.goOn k none)

/-! ## The condition -/

/-- What `match_message` decides for a message now, if it is about a job. -/
def State.wanted (R : Reader) (s : State) (id : ℕ) : Option Verdict :=
  (s.jobEvent id).map fun me => verdictOf (R.decision s.applications me.1 me.2)

/-- What a sweep that has the row will decide for it now. -/
def rowVerdict (R : Reader) (apps : List Application) (row : Row) : Verdict :=
  verdictOf (rowDecision R apps row)

/-- The message holds no application, and no person decided it. -/
def State.isOpen (s : State) (id : ℕ) : Bool :=
  (s.current id).all fun c => c.verdict.1.isNone && c.actor_user_id.isNone

/-- The current decision of the message is the one that `match_message` makes now. -/
def State.Right (R : Reader) (s : State) (id : ℕ) : Prop :=
  ∃ c, s.current id = some c ∧ s.wanted R id = some c.verdict

/-- The rows that a sweep has still to record, with the one in hand. -/
def Phase.todo : Phase → List Row
  | .rows _ todo => todo
  | .asking _ row todo | .decided _ row _ todo | .passed _ row _ todo => row :: todo
  | _ => []

/-- The row that a sweep has in hand. -/
def Phase.inHand : Phase → Option Row
  | .asking _ row _ | .decided _ row _ _ | .passed _ row _ _ => some row
  | _ => none

/-- The sweep is in its matching stage, and decides all of the mail. -/
def SweepRun.inStage (run : SweepRun) : Bool :=
  !run.partly && match run.phase with
    | .rows .pending _ | .asking .. | .decided .pending .. | .passed .pending .. => true
    | _ => false

/-- The time that a sweep before its selection will look back to, or that a finished one leaves. -/
def SweepRun.horizon (run : SweepRun) : Option (Option ℕ) :=
  match run.phase with
  | .looked since | .changed since | .rows (.detach since) _ | .decided (.detach since) _ _ _
  | .passed (.detach since) _ _ _ | .lowering since _ => some since
  | .matched | .skipped => if run.limit = none then some (some run.started_at) else none
  | _ => none

/-- A time that a sweep, at work or to come, looks back to. -/
def State.Horizon (s : State) (h : Option ℕ) : Prop :=
  h = s.lastSweepStart ∨ ∃ k run, s.sweeps k = some run ∧ run.horizon = some h

/-- The sweeps see what a write changes. A message for which it changes the decision will be selected by
every sweep to come; a sweep in its matching stage has it still to decide; no sweep has it in hand, and the
rows that sweeps have read are still of the message. -/
structure Noticed (R : Reader) (s s' : State) : Prop where
  selected : ∀ id v, s.isOpen id = true → s'.wanted R id = some v →
    s.wanted R id = some v ∧ (∀ h, s.newer id h = true → s'.newer id h = true) ∨
      ∀ h, s.Horizon h → s'.newer id h = true
  staged : ∀ k run id v, s.sweeps k = some run → run.inStage = true → s.isOpen id = true →
    s'.wanted R id = some v → s.wanted R id = some v ∨ id ∈ run.phase.todo.map Row.id
  agrees : ∀ k run row v, s.sweeps k = some run → row ∈ run.phase.todo →
    s'.wanted R row.id = some v → v = rowVerdict R s'.applications row
  inHand : ∀ k run row, s.sweeps k = some run → run.phase.inHand = some row →
    rowVerdict R s'.applications row = rowVerdict R s.applications row

/-- The condition on a step: the sweeps see what every write of an application, a date, a message or an
event changes. -/
def Calm (R : Reader) (s : State) (a : Act) : Prop :=
  match a with
  | .create _ | .edit _ _ | .arrive _ | .classify _ _ | .lower _ =>
    ∀ s', step R s a = some s' → Noticed R s s'
  | _ => True

end JobScripts.Mail.Sweep

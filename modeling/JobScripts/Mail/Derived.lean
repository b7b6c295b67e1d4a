import Mathlib.Data.List.Nodup
import JobScripts.Mail.Tiers

/-!
# Applications derived from mail

`seed_from_mail` of `tasks/mail/matching/derived.py`. A run reads the companies that the user's applications
name, the cap, and the unmatched messages that are evidence of an application; it groups the messages by
provider thread, or by company and role; and for each group it creates an application, unless the group's
first message has been matched meanwhile, and records the match of every message of the group. Each
statement is a step here, any number of runs are at work, and the mailbox, the applications that people
record and the other writers of matches go on beside them.

What a run created before another one read the companies keeps that other one from the group by its company.
What it creates after that is left to the test of the first message, whose match is recorded in later
statements. `one_application_per_group` says what follows when the test finds the match
(`Apart`); `overlapping_runs_derive_twice` is a run in which it comes too early.
-/

namespace JobScripts.Mail.Derived

open Lib

/-! ## Evidence -/

/-- `APPLIED_KINDS`: the events that only somebody who applied gets. -/
def appliedKinds : List String :=
  ["acknowledgement", "rejection", "assessment_invite", "interview_invite", "interview_scheduled",
    "info_request", "offer", "position_closed"]

/-- `CAP_FLOOR`: how many applications a company may get at least. -/
def capFloor : ℕ := 15

/-- A row of `_unmatched_applied_messages`. -/
structure Evidence where
  id : ℕ
  provider_thread_id : Option String
  sent_at : Option ℕ
  company : String
  title : Option String
  deriving DecidableEq

/-- `ORDER BY m.sent_at NULLS LAST, m.id`: the one message comes before the other, or is it. -/
def notLater (a b : Evidence) : Bool :=
  match a.sent_at, b.sent_at with
  | some x, some y => x < y || x == y && a.id ≤ b.id
  | some _, none => true
  | none, some _ => false
  | none, none => a.id ≤ b.id

/-- `_unmatched_applied_messages`, given which messages' current match holds an application. -/
def unmatchedAppliedMessages (messages : List Message) (attached : ℕ → Bool) : List Evidence :=
  (messages.filterMap fun m => m.event.bind fun e =>
    if appliedKinds.contains e.kind && !attached m.id then
      e.company.map fun company => ⟨m.id, m.provider_thread_id, m.sent_at, company, e.role_title⟩
    else none).mergeSort notLater

/-- The current match, by the pointer, holds an application. -/
def attachedIn (log : MatchLog) (message : ℕ) : Bool :=
  (log.currentMatch message).any (·.application_id.isSome)

/-- The key of an evidence group. -/
inductive Key
  | thread (id : String)
  | role (company title : List ℕ)
  deriving DecidableEq

/-- An evidence group: its messages in order, of which the first is the anchor. -/
structure Group where
  key : Key
  anchor : Evidence
  rest : List Evidence

/-- The messages of a group. -/
def Group.messages (g : Group) : List Evidence := g.anchor :: g.rest

/-- What a run has read: the companies with an application, the cap and the messages. -/
structure Reading where
  known : List (List ℕ)
  cap : ℕ
  messages : List Evidence
  deriving DecidableEq

/-- `_existing_companies`: the names of the companies that have applications. -/
def existingCompanies (R : Reader) (apps : List Application) : List (List ℕ) :=
  (apps.map fun a => R.normCompany a.company_name).filter (· ≠ [])

/-- `derived_cap`, with the database's `lower`. -/
def derivedCap (lower : String → String) (apps : List Application) : ℕ :=
  let tracked := (apps.filter fun a => a.source_provenance = "tracker").map fun a =>
    a.company_name.map lower
  max ((tracked.map fun c => tracked.count c).foldl max 0) capFloor

section Grouping

variable (R : Reader) (r : Reading)

/-- The normalised company of a message. -/
def companyOf (m : Evidence) : List ℕ := R.normCompany (some m.company)

/-- The group of a message, `none` when its company has an application already or it names no role. -/
def keyOf (m : Evidence) : Option Key :=
  let company := companyOf R m
  let title := R.normCompany m.title
  if company = [] ∨ company ∈ r.known ∨ title = [] then none
  else
    match m.provider_thread_id with
    | some thread => some (if thread = "" then .role company title else .thread thread)
    | none => some (.role company title)

/-- `candidate_groups`, in the order in which their first messages come. -/
def candidateGroups : List Group :=
  ((r.messages.filterMap (keyOf R r)).eraseDups).filterMap fun key =>
    match r.messages.filter fun m => keyOf R r m = some key with
    | [] => none
    | anchor :: rest => some ⟨key, anchor, rest⟩

/-- `company_by_group`: the company of the group's last message. -/
def Group.company (g : Group) : List ℕ := companyOf R (g.messages.getLast (List.cons_ne_nil _ _))

/-- `group_count_by_company`: how many groups of messages a company has. -/
def groupCount (company : List ℕ) : ℕ :=
  ((candidateGroups R r).filter fun g => g.company R = company).length

/-- The groups that the cap leaves. -/
def groupsWithinCap : List Group :=
  (candidateGroups R r).filter fun g => groupCount R r (g.company R) ≤ r.cap

/-- `messages_without_title_by_company`: the messages of a company without applications that name no position. -/
def messagesWithoutTitle (company : List ℕ) : List Evidence :=
  r.messages.filter fun m => companyOf R m = company ∧ company ≠ [] ∧ company ∉ r.known ∧
    R.normCompany m.title = []

/-- `applied_at` of a group: the earliest of its evidence, that of messages without a title included where
the company has one group. -/
def appliedAt (g : Group) : Option ℕ :=
  let evidence := g.messages ++
    if groupCount R r (g.company R) = 1 then messagesWithoutTitle R r (g.company R) else []
  (evidence.filterMap Evidence.sent_at).min?.or g.anchor.sent_at

end Grouping

/-! ## Runs -/

/-- An application that a run created, known to the proofs: the group it is from, the company it names, and
what the run had read. -/
structure Derivation where
  application_id : ℕ
  key : Key
  company : List ℕ
  messages : List ℕ
  reading : Reading
  deriving DecidableEq

/-- Where a run is. -/
inductive Phase
  /-- It has read the companies. -/
  | known
  /-- It has read the cap too. -/
  | capped
  /-- It is about to handle the next group. -/
  | seeding (todo : List Group)
  /-- The `INSERT` passed its test and is not committed. -/
  | inserting (app : Application) (g : Group) (todo : List Group)
  /-- The application is created; the messages whose match is still to record. -/
  | recording (app : ℕ) (left : List ℕ) (todo : List Group)
  /-- `record` has passed its check for a message. -/
  | passed (app message : ℕ) (left : List ℕ) (todo : List Group)
  /-- The row of `record` is inserted and not committed. -/
  | appended (app : ℕ) (row : CurrentMatch) (left : List ℕ) (todo : List Group)

/-- A run of `seed_from_mail`, with the number of applications derived when it read the companies. -/
structure SeedRun where
  reading : Reading
  readAt : ℕ
  phase : Phase

/-- The mailbox, the applications, the log of matches and the runs. Known to the proofs only are the
applications derived so far. -/
structure State where
  messages : List Message
  applications : List Application
  nextApplication : ℕ
  log : MatchLog
  runs : ℕ → Option SeedRun
  derived : List Derivation

/-- An empty mailbox. -/
def State.empty : State := ⟨[], [], 1, .empty, fun _ => none, []⟩

/-- The decision of a derived application. -/
def derivedDecision (app : ℕ) : MatchDecision :=
  .attach app "derived" "high" "application derived from this mail" (by decide)

/-- A row of the log becomes visible. -/
def publish (log : MatchLog) (row : CurrentMatch) : MatchLog :=
  { log with
    committed := row :: log.committed
    current_match_id := Function.update log.current_match_id row.message_id
      (some (greatest (log.current_match_id row.message_id) row.id)) }

/-- The current match of the message holds an application. -/
def matched (log : MatchLog) (message : ℕ) : Bool :=
  (log.latest message).any (·.application_id.isSome)

/-- What can happen next. -/
inductive Act
  /-- Mail arrives, or is classified. -/
  | mail (messages : List Message)
  /-- A person, the board or a form records an application. -/
  | track (company_name title job_url : Option String) (source_provenance : String)
      (applied_at : Option ℕ) (now : ℕ)
  /-- Another writer of the log. -/
  | others (a : MatchAct)
  /-- A run reads the companies. -/
  | readKnown (k : ℕ)
  /-- It reads the cap. -/
  | readCap (k : ℕ)
  /-- It reads the messages and groups them. -/
  | readMessages (k : ℕ)
  /-- The `INSERT` of the next group. -/
  | insert (k now : ℕ)
  /-- The `INSERT` commits. -/
  | created (k : ℕ)
  /-- `record` reads the current match of the next message. -/
  | check (k : ℕ)
  /-- It inserts its row. -/
  | append (k : ℕ)
  /-- The row commits. -/
  | recorded (k : ℕ)
  /-- A run returns, or dies; a statement of it that is not committed is rolled back. -/
  | leave (k : ℕ)

/-- A run goes on. -/
def State.goOn (s : State) (k : ℕ) (run : Option SeedRun) : State :=
  { s with runs := Function.update s.runs k run }

section Steps

variable (R : Reader) (lower : String → String)

/-- The application of a group. -/
def newApplication (r : Reading) (id now : ℕ) (g : Group) : Application where
  id := id
  company_name := some g.anchor.company
  title := g.anchor.title
  job_url := none
  source_provenance := "email"
  applied_at := appliedAt R r g
  created_at := now

/-- What the proofs keep of an application that a run creates. -/
def derivation (r : Reading) (id : ℕ) (g : Group) : Derivation where
  application_id := id
  key := g.key
  company := companyOf R g.anchor
  messages := g.messages.map Evidence.id
  reading := r

/-- One step. -/
def step (s : State) : Act → Option State
  | .mail messages => some { s with messages := messages }
  | .track company_name title job_url source_provenance applied_at now =>
    let app : Application :=
      ⟨s.nextApplication, company_name, title, job_url, source_provenance, applied_at, now⟩
    some { s with applications := s.applications ++ [app], nextApplication := s.nextApplication + 1 }
  | .others a => (s.log.step a).map fun log => { s with log := log }
  | .readKnown k =>
    match s.runs k with
    | none =>
      let reading : Reading := ⟨existingCompanies R s.applications, 0, []⟩
      some (s.goOn k (some ⟨reading, s.derived.length, .known⟩))
    | some _ => none
  | .readCap k =>
    match s.runs k with
    | some ⟨r, readAt, .known⟩ =>
      some (s.goOn k (some ⟨{ r with cap := derivedCap lower s.applications }, readAt, .capped⟩))
    | _ => none
  | .readMessages k =>
    match s.runs k with
    | some ⟨r, readAt, .capped⟩ =>
      let r : Reading := { r with messages := unmatchedAppliedMessages s.messages (attachedIn s.log) }
      some (s.goOn k (some ⟨r, readAt, .seeding (groupsWithinCap R r)⟩))
    | _ => none
  | .insert k now =>
    match s.runs k with
    | some ⟨r, readAt, .seeding (g :: todo)⟩ =>
      if matched s.log g.anchor.id then some (s.goOn k (some ⟨r, readAt, .seeding todo⟩))
      else
        let app := newApplication R r s.nextApplication now g
        some { s.goOn k (some ⟨r, readAt, .inserting app g todo⟩) with
          nextApplication := s.nextApplication + 1 }
    | _ => none
  | .created k =>
    match s.runs k with
    | some ⟨r, readAt, .inserting app g todo⟩ =>
      some { s.goOn k (some ⟨r, readAt, .recording app.id (g.messages.map Evidence.id) todo⟩) with
        applications := s.applications ++ [app]
        derived := s.derived ++ [derivation R r app.id g] }
    | _ => none
  | .check k =>
    match s.runs k with
    | some ⟨r, readAt, .recording _ [] todo⟩ => some (s.goOn k (some ⟨r, readAt, .seeding todo⟩))
    | some ⟨r, readAt, .recording app (m :: left) todo⟩ =>
      if (derivedDecision app).goesOn (s.log.latest m) then
        some (s.goOn k (some ⟨r, readAt, .passed app m left todo⟩))
      else some (s.goOn k (some ⟨r, readAt, .recording app left todo⟩))
    | _ => none
  | .append k =>
    match s.runs k with
    | some ⟨r, readAt, .passed app m left todo⟩ =>
      let row := (derivedDecision app).row s.log.sequence m none
      some { s.goOn k (some ⟨r, readAt, .appended app row left todo⟩) with
        log := { s.log with sequence := s.log.sequence + 1 } }
    | _ => none
  | .recorded k =>
    match s.runs k with
    | some ⟨r, readAt, .appended app row left todo⟩ =>
      some { s.goOn k (some ⟨r, readAt, .recording app left todo⟩) with log := publish s.log row }
    | _ => none
  | .leave k => some (s.goOn k none)

/-! ## The condition -/

/-- The application that a run is inserting. -/
def SeedRun.inFlight (run : SeedRun) : Option Derivation :=
  match run.phase with
  | .inserting app g _ => some (derivation R run.reading app.id g)
  | _ => none

/-- An application that is derived, or is being inserted. -/
def State.Derives (s : State) (d : Derivation) : Prop :=
  d ∈ s.derived ∨ ∃ k run, s.runs k = some run ∧ run.inFlight R = some d

/-- The messages whose match a run has still to record, with the application. -/
def SeedRun.owes (run : SeedRun) (app m : ℕ) : Prop :=
  match run.phase with
  | .recording a left _ => a = app ∧ m ∈ left
  | .passed a m' left _ => a = app ∧ m ∈ m' :: left
  | .appended a row left _ => a = app ∧ m ∈ row.message_id :: left
  | _ => False

/-- The condition on a step. The messages of a thread name one company, and so do the applications derived
from the thread when the run read the companies; when the `INSERT` runs after another run has derived, or is
deriving, an application from the group since then, the group's anchor is matched; and a run that has
created an application is not interrupted before it has recorded its messages. -/
def Apart (s : State) : Act → Prop
  | .readMessages k => ∀ run, s.runs k = some run →
      let r : Reading := { run.reading with messages := unmatchedAppliedMessages s.messages (attachedIn s.log) }
      ∀ g ∈ candidateGroups R r, ∀ thread, g.key = .thread thread →
        (∀ m ∈ g.messages, companyOf R m = companyOf R g.anchor) ∧
        ∀ d ∈ s.derived.take run.readAt, d.key = g.key → d.company = companyOf R g.anchor
  | .insert k _ => ∀ r readAt g todo, s.runs k = some ⟨r, readAt, .seeding (g :: todo)⟩ →
      ∀ d, s.Derives R d → d.key = g.key → d ∉ s.derived.take readAt → matched s.log g.anchor.id = true
  | .leave k => ∀ run, s.runs k = some run → ∀ app m, ¬ run.owes app m
  | _ => True

end Steps

/-! ## The groups of a reading -/

section Groups

variable {R : Reader} {r : Reading}

/-- A message with a group names a company without an application, and the company of a group by company
and role. -/
theorem keyOf_spec {m : Evidence} {key : Key} (h : keyOf R r m = some key) :
    companyOf R m ≠ [] ∧ companyOf R m ∉ r.known ∧
      ∀ company title, key = .role company title → companyOf R m = company := by
  unfold keyOf at h
  dsimp only at h
  rw [Option.ite_none_left_eq_some] at h
  obtain ⟨hno, h⟩ := h
  rw [not_or, not_or] at hno
  refine ⟨hno.1, hno.2.1, fun company title hkey => ?_⟩
  split at h
  · obtain rfl := Option.some.inj h
    split at hkey
    · exact (Key.role.inj hkey).1
    · contradiction
  · obtain rfl := Option.some.inj h
    exact (Key.role.inj hkey).1

/-- The messages of a group have its key. -/
theorem keyOf_of_mem {g : Group} (hg : g ∈ candidateGroups R r) {m : Evidence} (hm : m ∈ g.messages) :
    keyOf R r m = some g.key := by
  obtain ⟨key, -, hkey⟩ := List.mem_filterMap.mp hg
  split at hkey
  · contradiction
  · next anchor rest hfilter =>
    obtain rfl := Option.some.inj hkey
    have hm : m ∈ anchor :: rest := hm
    rw [← hfilter, List.mem_filter, decide_eq_true_eq] at hm
    exact hm.2

/-- What the condition asks of the messages of a group: they name one company. -/
def Group.OneCompany (R : Reader) (g : Group) : Prop :=
  ∀ m ∈ g.messages, companyOf R m = companyOf R g.anchor

/-- The group of a company and role names one company. -/
theorem oneCompany_of_role {g : Group} (hg : g ∈ candidateGroups R r) {company title : List ℕ}
    (hkey : g.key = .role company title) : g.OneCompany R := by
  have hall : ∀ m ∈ g.messages, companyOf R m = company := fun m hm =>
    (keyOf_spec (keyOf_of_mem hg hm)).2.2 company title hkey
  intro m hm
  rw [hall m hm, hall g.anchor List.mem_cons_self]

/-- A group that the cap leaves and whose messages name one company: the company that its application will
name has no application, and not more groups than the cap. -/
theorem within_of_oneCompany {g : Group} (hg : g ∈ groupsWithinCap R r) (hone : g.OneCompany R) :
    companyOf R g.anchor ≠ [] ∧ companyOf R g.anchor ∉ r.known ∧
      groupCount R r (companyOf R g.anchor) ≤ r.cap := by
  obtain ⟨hmem, hcap⟩ := List.mem_filter.mp hg
  obtain ⟨hne, hknown, -⟩ := keyOf_spec (keyOf_of_mem hmem List.mem_cons_self)
  refine ⟨hne, hknown, ?_⟩
  have hlast : g.company R = companyOf R g.anchor := hone _ (List.getLast_mem _)
  rw [hlast, decide_eq_true_eq] at hcap
  exact hcap

end Groups

/-! ## The invariant -/

variable {R : Reader} {s s' : State}

/-- A message has a visible row of the application, or one of a person. -/
def Settled (log : MatchLog) (app m : ℕ) : Prop :=
  (∃ row ∈ log.committed, row.message_id = m ∧ row.application_id = some app) ∨
    ∃ row ∈ log.committed, row.message_id = m ∧ row.actor_user_id ≠ none

/-- Visible rows stay. -/
theorem Settled.mono {log log' : MatchLog} {app m : ℕ} (h : Settled log app m)
    (hlog : ∀ row ∈ log.committed, row ∈ log'.committed) : Settled log' app m := by
  rcases h with ⟨row, hrow, hm⟩ | ⟨row, hrow, hm⟩
  · exact .inl ⟨row, hlog row hrow, hm⟩
  · exact .inr ⟨row, hlog row hrow, hm⟩

/-- The groups that a run has still to handle, with the one whose application it is inserting. -/
def Phase.groups : Phase → List Group
  | .seeding todo => todo
  | .inserting _ g todo => g :: todo
  | .recording _ _ todo | .passed _ _ _ todo | .appended _ _ _ todo => todo
  | .known | .capped => []

/-- What a run relies on for a group: the company that its application will name is within the bounds of the
reading, and every application derived from the group before the reading names the same company. -/
structure Fits (R : Reader) (s : State) (run : SeedRun) (g : Group) : Prop where
  company : companyOf R g.anchor ≠ []
  unknown : companyOf R g.anchor ∉ run.reading.known
  within : groupCount R run.reading (companyOf R g.anchor) ≤ run.reading.cap
  role : ∀ company title, g.key = .role company title → companyOf R g.anchor = company
  agrees : ∀ d ∈ s.derived.take run.readAt, d.key = g.key → d.company = companyOf R g.anchor

/-- What is in flight is of the run's group, or of its application. -/
def Phase.Ok : Phase → Prop
  | .inserting app g _ => app.company_name = some g.anchor.company
  | .appended app row _ _ => row.application_id = some app
  | _ => True

/-- What a run relies on: the applications derived before its reading are known to it, and its groups
fit. -/
structure RunOk (R : Reader) (s : State) (run : SeedRun) : Prop where
  readAt : run.readAt ≤ s.derived.length
  known : ∀ d ∈ s.derived.take run.readAt, d.company ∈ run.reading.known
  groups : ∀ g ∈ run.phase.groups, Fits R s run g
  phase : run.phase.Ok

/-- What is known of an application when it is derived. -/
structure DerivationOk (d : Derivation) (R : Reader) : Prop where
  company : d.company ≠ []
  role : ∀ company title, d.key = .role company title → d.company = company
  unknown : d.company ∉ d.reading.known
  within : groupCount R d.reading d.company ≤ d.reading.cap

/-- The invariant. -/
structure State.Inv (R : Reader) (s : State) : Prop where
  derives : ∀ d, s.Derives R d → DerivationOk d R
  visible : ∀ d ∈ s.derived, ∃ a ∈ s.applications, R.normCompany a.company_name = d.company
  once : (s.derived.map Derivation.key).Nodup
  unused : ∀ k run d, s.runs k = some run → run.inFlight R = some d →
    d.key ∉ s.derived.map Derivation.key
  single : ∀ k run d k' run' d', s.runs k = some run → run.inFlight R = some d →
    s.runs k' = some run' → run'.inFlight R = some d' → d.key = d'.key → k = k'
  runs : ∀ k run, s.runs k = some run → RunOk R s run
  owed : ∀ d ∈ s.derived, ∀ m ∈ d.messages, Settled s.log d.application_id m ∨
    ∃ k run, s.runs k = some run ∧ run.owes d.application_id m

/-- A run relies on the applications derived before it read only. -/
theorem RunOk.congr {run : SeedRun} (h : RunOk R s run)
    (hlen : s.derived.length ≤ s'.derived.length)
    (htake : s'.derived.take run.readAt = s.derived.take run.readAt) : RunOk R s' run where
  readAt := Nat.le_trans h.readAt hlen
  known := by
    rw [htake]
    exact h.known
  groups g hg := by
    have hfit := h.groups g hg
    refine ⟨hfit.company, hfit.unknown, hfit.within, hfit.role, ?_⟩
    rw [htake]
    exact hfit.agrees
  phase := h.phase

/-- A run after a step is the one that went on, or the same as before. -/
theorem run_cases {k k' : ℕ} {run' : Option SeedRun} {run : SeedRun}
    (h : Function.update s.runs k run' k' = some run) :
    k' = k ∧ run' = some run ∨ k' ≠ k ∧ s.runs k' = some run := by
  by_cases hk : k' = k
  · subst hk
    rw [Function.update_self] at h
    exact .inl ⟨rfl, h⟩
  · rw [Function.update_of_ne hk] at h
    exact .inr ⟨hk, h⟩

/-- One run goes on, and no application becomes visible as derived. What the run is now inserting it was
inserting before, or it is from a group that nothing is derived from; what it owed is settled or still
owed. -/
theorem State.Inv.goOn (h : s.Inv R) {k : ℕ} {run' : Option SeedRun}
    (hruns : s'.runs = Function.update s.runs k run') (hderived : s'.derived = s.derived)
    (happs : ∀ a ∈ s.applications, a ∈ s'.applications)
    (hlog : ∀ row ∈ s.log.committed, row ∈ s'.log.committed)
    (hrun : ∀ run, run' = some run → RunOk R s run)
    (hflight : ∀ run d, run' = some run → run.inFlight R = some d →
      (∃ old, s.runs k = some old ∧ old.inFlight R = some d) ∨
      DerivationOk d R ∧ ∀ d', s.Derives R d' → d'.key ≠ d.key)
    (howes : ∀ run app m, s.runs k = some run → run.owes app m →
      Settled s'.log app m ∨ ∃ x, run' = some x ∧ x.owes app m) : s'.Inv R := by
  -- What is in flight after the step was in flight before, or is new.
  have hback : ∀ k' run d, s'.runs k' = some run → run.inFlight R = some d →
      (∃ old, s.runs k' = some old ∧ old.inFlight R = some d) ∨
        k' = k ∧ DerivationOk d R ∧ ∀ d', s.Derives R d' → d'.key ≠ d.key := by
    intro k' run d hk' hd
    rw [hruns] at hk'
    rcases run_cases hk' with ⟨rfl, hx⟩ | ⟨-, hold⟩
    · rcases hflight run d hx hd with hold | hnew
      · exact .inl hold
      · exact .inr ⟨rfl, hnew⟩
    · exact .inl ⟨run, hold, hd⟩
  refine ⟨fun d hd => ?_, fun d hd => ?_, ?_, fun k' run d hk' hd => ?_,
    fun k₁ run₁ d₁ k₂ run₂ d₂ hk₁ hd₁ hk₂ hd₂ hkey => ?_, fun k' run hk' => ?_, fun d hd m hm => ?_⟩
  · rcases hd with hd | ⟨k', run, hk', hd⟩
    · rw [hderived] at hd
      exact h.derives d (.inl hd)
    · rcases hback k' run d hk' hd with ⟨old, hold, hdold⟩ | ⟨-, hok, -⟩
      · exact h.derives d (.inr ⟨k', old, hold, hdold⟩)
      · exact hok
  · rw [hderived] at hd
    obtain ⟨a, ha, hcompany⟩ := h.visible d hd
    exact ⟨a, happs a ha, hcompany⟩
  · rw [hderived]
    exact h.once
  · rw [hderived]
    rcases hback k' run d hk' hd with ⟨old, hold, hdold⟩ | ⟨-, -, hfresh⟩
    · exact h.unused k' old d hold hdold
    · intro hmem
      obtain ⟨d', hd', hkey⟩ := List.mem_map.mp hmem
      exact hfresh d' (.inl hd') hkey
  · rcases hback k₁ run₁ d₁ hk₁ hd₁ with ⟨old₁, hold₁, hdold₁⟩ | ⟨rfl, -, hfresh₁⟩
    · rcases hback k₂ run₂ d₂ hk₂ hd₂ with ⟨old₂, hold₂, hdold₂⟩ | ⟨rfl, -, hfresh₂⟩
      · exact h.single k₁ old₁ d₁ k₂ old₂ d₂ hold₁ hdold₁ hold₂ hdold₂ hkey
      · exact absurd hkey (hfresh₂ d₁ (.inr ⟨k₁, old₁, hold₁, hdold₁⟩))
    · rcases hback k₂ run₂ d₂ hk₂ hd₂ with ⟨old₂, hold₂, hdold₂⟩ | ⟨rfl, -, -⟩
      · exact absurd hkey.symm (hfresh₁ d₂ (.inr ⟨k₂, old₂, hold₂, hdold₂⟩))
      · rfl
  · have hok : RunOk R s run := by
      rw [hruns] at hk'
      rcases run_cases hk' with ⟨-, hx⟩ | ⟨-, hold⟩
      · exact hrun run hx
      · exact h.runs k' run hold
    exact hok.congr (by rw [hderived]) (by rw [hderived])
  · rw [hderived] at hd
    rcases h.owed d hd m hm with hset | ⟨k', run, hk', ho⟩
    · exact .inl (hset.mono hlog)
    · by_cases hk : k' = k
      · subst hk
        rcases howes run _ m hk' ho with hset | ⟨x, hx, hox⟩
        · exact .inl hset
        · refine .inr ⟨k', x, ?_, hox⟩
          rw [hruns, Function.update_self]
          exact hx
      · refine .inr ⟨k', run, ?_, ho⟩
        rw [hruns, Function.update_of_ne hk]
        exact hk'

/-- No run goes on. -/
theorem State.Inv.beside (h : s.Inv R) (hruns : s'.runs = s.runs) (hderived : s'.derived = s.derived)
    (happs : ∀ a ∈ s.applications, a ∈ s'.applications)
    (hlog : ∀ row ∈ s.log.committed, row ∈ s'.log.committed) : s'.Inv R := by
  have hsame : s'.runs = Function.update s.runs 0 (s.runs 0) := by
    rw [Function.update_eq_self]
    exact hruns
  refine h.goOn hsame hderived happs hlog (fun run hrun => h.runs 0 run hrun) (fun run d hrun hd => ?_)
    fun run app m hrun ho => .inr ⟨run, hrun, ho⟩
  exact .inl ⟨run, hrun, hd⟩

/-- A run that goes on with the same reading, no more groups and nothing in flight. -/
theorem RunOk.next {run : SeedRun} (h : RunOk R s run) {phase : Phase}
    (hgroups : ∀ g ∈ phase.groups, g ∈ run.phase.groups) (hphase : phase.Ok) :
    RunOk R s ⟨run.reading, run.readAt, phase⟩ where
  readAt := h.readAt
  known := h.known
  groups g hg := by
    have hfit := h.groups g (hgroups g hg)
    exact ⟨hfit.company, hfit.unknown, hfit.within, hfit.role, hfit.agrees⟩
  phase := hphase

/-- The test of the `INSERT` under the condition: what passes it is from a group that nothing was derived
from. -/
theorem State.Inv.insert_fresh (h : s.Inv R) {k now : ℕ} (hok : Apart R s (.insert k now)) {r : Reading}
    {readAt : ℕ} {g : Group} {todo : List Group}
    (hk : s.runs k = some ⟨r, readAt, .seeding (g :: todo)⟩) (hno : matched s.log g.anchor.id = false)
    (id : ℕ) : DerivationOk (derivation R r id g) R ∧
      ∀ d', s.Derives R d' → d'.key ≠ (derivation R r id g).key := by
  have hrun := h.runs k _ hk
  have hfit := hrun.groups g List.mem_cons_self
  refine ⟨⟨hfit.company, hfit.role, hfit.unknown, hfit.within⟩, fun d' hd' hkey => ?_⟩
  by_cases hseen : d' ∈ s.derived.take readAt
  · -- Derived before the reading: its company is known, and it is the group's.
    have hknown := hrun.known d' hseen
    rw [hfit.agrees d' hseen hkey] at hknown
    exact hfit.unknown hknown
  · rw [hok r readAt g todo hk d' hd' hkey hseen] at hno
    contradiction

/-- The `INSERT` of a group. -/
theorem State.Inv.insert (h : s.Inv R) {lower : String → String} {k now : ℕ}
    (hok : Apart R s (.insert k now)) (hs : step R lower s (.insert k now) = some s') : s'.Inv R := by
  simp only [step] at hs
  split at hs
  · next r readAt g todo hk =>
    have hrun := h.runs k _ hk
    -- The run owes nothing while it seeds.
    have howes : ∀ run app m, s.runs k = some run → ¬ run.owes app m := by
      intro run app m hrun' ho
      rw [hk] at hrun'
      obtain rfl := Option.some.inj hrun'
      exact ho
    split at hs
    · obtain rfl := Option.some.inj hs
      refine h.goOn rfl rfl (fun _ ha => ha) (fun _ hr => hr) (fun run hx => ?_) (fun run d hx hd => ?_)
        fun run app m hx ho => absurd ho (howes run app m hx)
      · obtain rfl := Option.some.inj hx
        exact hrun.next (fun g' hg' => List.mem_cons_of_mem _ hg') trivial
      · obtain rfl := Option.some.inj hx
        contradiction
    · next hno =>
      rw [Bool.not_eq_true] at hno
      obtain rfl := Option.some.inj hs
      refine h.goOn rfl rfl (fun _ ha => ha) (fun _ hr => hr) (fun run hx => ?_) (fun run d hx hd => ?_)
        fun run app m hx ho => absurd ho (howes run app m hx)
      · obtain rfl := Option.some.inj hx
        exact hrun.next (fun g' hg' => hg') rfl
      · obtain rfl := Option.some.inj hx
        obtain rfl := Option.some.inj hd
        exact .inr (h.insert_fresh hok hk hno _)
  · contradiction

/-- The reading of the messages. -/
theorem State.Inv.readMessages (h : s.Inv R) {lower : String → String} {k : ℕ}
    (hok : Apart R s (.readMessages k)) (hs : step R lower s (.readMessages k) = some s') : s'.Inv R := by
  simp only [step] at hs
  split at hs
  · next r readAt hk =>
    obtain rfl := Option.some.inj hs
    have hrun := h.runs k _ hk
    have hcond := hok _ hk
    dsimp only at hcond
    generalize hr : ({ r with messages := unmatchedAppliedMessages s.messages (attachedIn s.log) } : Reading) = r'
      at hcond
    have hknown : r'.known = r.known := by rw [← hr]
    refine h.goOn rfl rfl (fun _ ha => ha) (fun _ hrow => hrow) (fun run hx => ?_)
      (fun run d hx hd => ?_) fun run app m hx ho => ?_
    · obtain rfl := Option.some.inj hx
      refine ⟨hrun.readAt, fun d hd => ?_, fun g hg => ?_, trivial⟩
      · rw [hknown]
        exact hrun.known d hd
      · have hmem : g ∈ candidateGroups R r' := (List.mem_filter.mp hg).1
        have hrole := (keyOf_spec (keyOf_of_mem hmem List.mem_cons_self)).2.2
        -- The companies of a thread agree by the condition, those of a role by its key.
        have hgroup : g.OneCompany R ∧
            ∀ d ∈ s.derived.take readAt, d.key = g.key → d.company = companyOf R g.anchor := by
          cases hkey : g.key with
          | thread thread =>
            rw [← hkey]
            exact hcond g hmem thread hkey
          | role company title =>
            refine ⟨oneCompany_of_role hmem hkey, fun d hd hdkey => ?_⟩
            have hderives := h.derives d (.inl (List.mem_of_mem_take hd))
            rw [hderives.role company title hdkey, hrole company title hkey]
        obtain ⟨hne, hunknown, hwithin⟩ := within_of_oneCompany hg hgroup.1
        exact ⟨hne, hunknown, hwithin, hrole, hgroup.2⟩
    · obtain rfl := Option.some.inj hx
      contradiction
    · rw [hk] at hx
      obtain rfl := Option.some.inj hx
      exact ho.elim
  · contradiction

/-- The commit of the `INSERT`: the application is derived, and its messages are owed. -/
theorem State.Inv.created (h : s.Inv R) {lower : String → String} {k : ℕ}
    (hs : step R lower s (.created k) = some s') : s'.Inv R := by
  simp only [step] at hs
  split at hs
  · next r readAt app g todo hk =>
    obtain rfl := Option.some.inj hs
    have hrun := h.runs k _ hk
    have hflight : s.Derives R (derivation R r app.id g) := .inr ⟨k, _, hk, rfl⟩
    have hunused := h.unused k _ _ hk rfl
    -- What is in flight after the step was so before, of another run.
    have hback : ∀ k' run d, Function.update s.runs k (some ⟨r, readAt,
        .recording app.id (g.messages.map Evidence.id) todo⟩) k' = some run →
        run.inFlight R = some d → k' ≠ k ∧ s.runs k' = some run := by
      intro k' run d hk' hd
      rcases run_cases hk' with ⟨-, hx⟩ | hold
      · obtain rfl := Option.some.inj hx
        contradiction
      · exact hold
    have htake : ∀ n, n ≤ s.derived.length →
        (s.derived ++ [derivation R r app.id g]).take n = s.derived.take n := fun n hn =>
      List.take_append_of_le_length hn
    have hlen : s.derived.length ≤ (s.derived ++ [derivation R r app.id g]).length := by
      rw [List.length_append]
      exact Nat.le_add_right _ _
    have hkeys : (s.derived ++ [derivation R r app.id g]).map Derivation.key =
        s.derived.map Derivation.key ++ [g.key] := by
      rw [List.map_append]
      rfl
    refine ⟨fun d hd => ?_, fun d hd => ?_, ?_, fun k' run d hk' hd hmem => ?_,
      fun k₁ run₁ d₁ k₂ run₂ d₂ hk₁ hd₁ hk₂ hd₂ => ?_, fun k' run hk' => ?_, fun d hd m hm => ?_⟩
    · rcases hd with hd | ⟨k', run, hk', hd⟩
      · rcases List.mem_append.mp hd with hd | hd
        · exact h.derives d (.inl hd)
        · rw [List.mem_singleton.mp hd]
          exact h.derives _ hflight
      · exact h.derives d (.inr ⟨k', run, (hback k' run d hk' hd).2, hd⟩)
    · rcases List.mem_append.mp hd with hd | hd
      · obtain ⟨a, ha, hcompany⟩ := h.visible d hd
        exact ⟨a, List.mem_append_left _ ha, hcompany⟩
      · rw [List.mem_singleton.mp hd]
        refine ⟨app, List.mem_append_right _ (List.mem_singleton_self _), ?_⟩
        have hname : app.company_name = some g.anchor.company := hrun.phase
        rw [hname]
        rfl
    · rw [hkeys]
      refine List.nodup_append.mpr ⟨h.once, List.nodup_singleton _, fun key hkey new hnew heq => ?_⟩
      rw [heq, List.mem_singleton.mp hnew] at hkey
      exact hunused hkey
    · obtain ⟨hne, hold⟩ := hback k' run d hk' hd
      rw [hkeys] at hmem
      rcases List.mem_append.mp hmem with hmem | hmem
      · exact h.unused k' run d hold hd hmem
      · exact hne (h.single k' run d k _ _ hold hd hk rfl (List.mem_singleton.mp hmem))
    · exact h.single k₁ run₁ d₁ k₂ run₂ d₂ (hback k₁ run₁ d₁ hk₁ hd₁).2 hd₁
        (hback k₂ run₂ d₂ hk₂ hd₂).2 hd₂
    · rcases run_cases hk' with ⟨-, hx⟩ | ⟨-, hold⟩
      · obtain rfl := Option.some.inj hx
        have hnext : RunOk R s ⟨r, readAt, .recording app.id (g.messages.map Evidence.id) todo⟩ :=
          hrun.next (fun g' hg' => List.mem_cons_of_mem _ hg') trivial
        exact hnext.congr hlen (htake _ hrun.readAt)
      · have hok := h.runs k' run hold
        exact hok.congr hlen (htake _ hok.readAt)
    · have hnew : Function.update s.runs k (some ⟨r, readAt,
          .recording app.id (g.messages.map Evidence.id) todo⟩) k =
          some ⟨r, readAt, .recording app.id (g.messages.map Evidence.id) todo⟩ :=
        Function.update_self _ _ _
      rcases List.mem_append.mp hd with hd | hd
      · rcases h.owed d hd m hm with hset | ⟨k', run, hk', ho⟩
        · exact .inl hset
        · -- The inserting run owed nothing yet.
          have hne : k' ≠ k := by
            rintro rfl
            rw [hk] at hk'
            obtain rfl := Option.some.inj hk'
            exact ho
          exact .inr ⟨k', run, (Function.update_of_ne hne _ _).trans hk', ho⟩
      · rw [List.mem_singleton.mp hd] at hm ⊢
        exact .inr ⟨k, _, hnew, rfl, hm⟩
  · contradiction

/-- `record` stands down for a message that a person decided, or that has the application already. -/
theorem settled_of_not_goesOn {log : MatchLog} {app m : ℕ}
    (h : ¬ (derivedDecision app).goesOn (log.latest m) = true) : Settled log app m := by
  cases hlatest : log.latest m with
  | none =>
    rw [hlatest] at h
    exact absurd rfl h
  | some current =>
    have hmem : current ∈ log.committed ∧ current.message_id = m := by
      have hfilter := List.argmax_mem hlatest
      rw [List.mem_filter, decide_eq_true_eq] at hfilter
      exact hfilter
    rw [hlatest] at h
    by_cases hactor : current.actor_user_id = none
    · simp only [MatchDecision.goesOn, hactor, MatchDecision.repeats, derivedDecision,
        MatchDecision.attach] at h
      simp only [Option.isNone_none, Bool.true_and, Bool.not_eq_true', Bool.not_eq_false,
        Bool.and_eq_true] at h
      exact .inl ⟨current, hmem.1, hmem.2, (of_decide_eq_true h.1.1).symm⟩
    · exact .inr ⟨current, hmem.1, hmem.2, hactor⟩

/-- Rows of the log stay visible. -/
theorem committed_of_step {log log' : MatchLog} {a : MatchAct} (h : log.step a = some log') :
    ∀ row ∈ log.committed, row ∈ log'.committed := by
  cases a with
  | check m d =>
    simp only [MatchLog.step, Option.some.injEq] at h
    subst h
    split <;> exact fun _ hr => hr
  | append p =>
    simp only [MatchLog.step, Option.ite_none_right_eq_some, Option.some.injEq] at h
    obtain ⟨-, rfl⟩ := h
    exact fun _ hr => hr
  | decide m d u =>
    simp only [MatchLog.step, Option.some.injEq] at h
    subst h
    exact fun _ hr => hr
  | commit row =>
    simp only [MatchLog.step, Option.ite_none_right_eq_some, Option.some.injEq] at h
    obtain ⟨-, rfl⟩ := h
    exact fun _ hr => List.mem_cons_of_mem _ hr
  | rollback row =>
    simp only [MatchLog.step, Option.ite_none_right_eq_some, Option.some.injEq] at h
    obtain ⟨-, rfl⟩ := h
    exact fun _ hr => hr

/-- The check of `record`, and the end of a group. -/
theorem State.Inv.check (h : s.Inv R) {lower : String → String} {k : ℕ}
    (hs : step R lower s (.check k) = some s') : s'.Inv R := by
  simp only [step] at hs
  split at hs
  · next r readAt app todo hk =>
    obtain rfl := Option.some.inj hs
    refine h.goOn rfl rfl (fun _ ha => ha) (fun _ hr => hr) (fun run hx => ?_) (fun run d hx hd => ?_)
      fun run app m hx ho => ?_
    · obtain rfl := Option.some.inj hx
      exact (h.runs k _ hk).next (fun g hg => hg) trivial
    · obtain rfl := Option.some.inj hx
      contradiction
    · rw [hk] at hx
      obtain rfl := Option.some.inj hx
      exact absurd ho.2 List.not_mem_nil
  · next r readAt app m left todo hk =>
    split at hs
    · obtain rfl := Option.some.inj hs
      refine h.goOn rfl rfl (fun _ ha => ha) (fun _ hr => hr) (fun run hx => ?_) (fun run d hx hd => ?_)
        fun run app' m' hx ho => ?_
      · obtain rfl := Option.some.inj hx
        exact (h.runs k _ hk).next (fun g hg => hg) trivial
      · obtain rfl := Option.some.inj hx
        contradiction
      · rw [hk] at hx
        obtain rfl := Option.some.inj hx
        exact .inr ⟨_, rfl, ho⟩
    · next hstand =>
      obtain rfl := Option.some.inj hs
      refine h.goOn rfl rfl (fun _ ha => ha) (fun _ hr => hr) (fun run hx => ?_) (fun run d hx hd => ?_)
        fun run app' m' hx ho => ?_
      · obtain rfl := Option.some.inj hx
        exact (h.runs k _ hk).next (fun g hg => hg) trivial
      · obtain rfl := Option.some.inj hx
        contradiction
      · rw [hk] at hx
        obtain rfl := Option.some.inj hx
        obtain ⟨rfl, hm'⟩ := ho
        rcases List.mem_cons.mp hm' with rfl | hleft
        · exact .inl (settled_of_not_goesOn hstand)
        · exact .inr ⟨_, rfl, rfl, hleft⟩
  · contradiction

/-- The row of `record`. -/
theorem State.Inv.append (h : s.Inv R) {lower : String → String} {k : ℕ}
    (hs : step R lower s (.append k) = some s') : s'.Inv R := by
  simp only [step] at hs
  split at hs
  · next r readAt app m left todo hk =>
    obtain rfl := Option.some.inj hs
    refine h.goOn rfl rfl (fun _ ha => ha) (fun _ hr => hr) (fun run hx => ?_) (fun run d hx hd => ?_)
      fun run app' m' hx ho => ?_
    · obtain rfl := Option.some.inj hx
      exact (h.runs k _ hk).next (fun g hg => hg) rfl
    · obtain rfl := Option.some.inj hx
      contradiction
    · rw [hk] at hx
      obtain rfl := Option.some.inj hx
      exact .inr ⟨_, rfl, ho⟩
  · contradiction

/-- The row becomes visible. -/
theorem State.Inv.recorded (h : s.Inv R) {lower : String → String} {k : ℕ}
    (hs : step R lower s (.recorded k) = some s') : s'.Inv R := by
  simp only [step] at hs
  split at hs
  · next r readAt app row left todo hk =>
    obtain rfl := Option.some.inj hs
    have hrow : row.application_id = some app := (h.runs k _ hk).phase
    refine h.goOn rfl rfl (fun _ ha => ha) (fun _ hr => List.mem_cons_of_mem _ hr) (fun run hx => ?_)
      (fun run d hx hd => ?_) fun run app' m' hx ho => ?_
    · obtain rfl := Option.some.inj hx
      exact (h.runs k _ hk).next (fun g hg => hg) trivial
    · obtain rfl := Option.some.inj hx
      contradiction
    · rw [hk] at hx
      obtain rfl := Option.some.inj hx
      obtain ⟨rfl, hm'⟩ := ho
      rcases List.mem_cons.mp hm' with rfl | hleft
      · exact .inl (.inl ⟨row, List.mem_cons_self, rfl, hrow⟩)
      · exact .inr ⟨_, rfl, rfl, hleft⟩
  · contradiction

/-- One step under the condition keeps the invariant. -/
theorem State.Inv.step (h : s.Inv R) {lower : String → String} {a : Act} (hok : Apart R s a)
    (hs : Derived.step R lower s a = some s') : s'.Inv R := by
  cases a with
  | mail messages =>
    obtain rfl := Option.some.inj hs
    exact h.beside rfl rfl (fun _ ha => ha) fun _ hr => hr
  | track company_name title job_url source_provenance applied_at now =>
    obtain rfl := Option.some.inj hs
    exact h.beside rfl rfl (fun _ ha => List.mem_append_left _ ha) fun _ hr => hr
  | others a =>
    obtain ⟨log, hlog, rfl⟩ := Option.map_eq_some_iff.mp hs
    exact h.beside rfl rfl (fun _ ha => ha) (committed_of_step hlog)
  | readKnown k =>
    simp only [Derived.step] at hs
    split at hs
    · next hk =>
      obtain rfl := Option.some.inj hs
      refine h.goOn rfl rfl (fun _ ha => ha) (fun _ hr => hr) (fun run hx => ?_) (fun run d hx hd => ?_)
        fun run app m hx ho => ?_
      · obtain rfl := Option.some.inj hx
        refine ⟨le_rfl, fun d hd => ?_, fun g hg => absurd hg List.not_mem_nil, trivial⟩
        -- What is derived by now has a visible application of its company.
        have hmem := List.mem_of_mem_take hd
        obtain ⟨a, ha, hcompany⟩ := h.visible d hmem
        refine List.mem_filter.mpr ⟨List.mem_map.mpr ⟨a, ha, hcompany⟩, ?_⟩
        exact decide_eq_true (h.derives d (.inl hmem)).company
      · obtain rfl := Option.some.inj hx
        contradiction
      · rw [hk] at hx
        contradiction
    · contradiction
  | readCap k =>
    simp only [Derived.step] at hs
    split at hs
    · next r readAt hk =>
      obtain rfl := Option.some.inj hs
      have hrun := h.runs k _ hk
      refine h.goOn rfl rfl (fun _ ha => ha) (fun _ hr => hr) (fun run hx => ?_) (fun run d hx hd => ?_)
        fun run app m hx ho => ?_
      · obtain rfl := Option.some.inj hx
        exact ⟨hrun.readAt, hrun.known, fun g hg => absurd hg List.not_mem_nil, trivial⟩
      · obtain rfl := Option.some.inj hx
        contradiction
      · rw [hk] at hx
        obtain rfl := Option.some.inj hx
        exact ho.elim
    · contradiction
  | readMessages k => exact h.readMessages hok hs
  | insert k now => exact h.insert hok hs
  | created k => exact h.created hs
  | check k => exact h.check hs
  | append k => exact h.append hs
  | recorded k => exact h.recorded hs
  | leave k =>
    obtain rfl := Option.some.inj hs
    refine h.goOn rfl rfl (fun _ ha => ha) (fun _ hr => hr) (fun run hx => ?_) (fun run d hx => ?_)
      fun run app m hx ho => ?_
    · contradiction
    · contradiction
    · exact absurd ho (hok run hx app m)

/-! ## Main results -/

/-- The invariant holds at the start. -/
theorem State.Inv.empty (R : Reader) : State.empty.Inv R := by
  have hruns : ∀ k run, State.empty.runs k ≠ some run := fun k run => by simp [State.empty]
  refine ⟨?_, ?_, List.nodup_nil, fun k run d hk => ?_, fun k run d k' run' d' hk => ?_,
    fun k run hk => ?_, ?_⟩
  · rintro d (hd | ⟨k, run, hk, -⟩)
    · exact absurd hd List.not_mem_nil
    · exact absurd hk (hruns k run)
  · exact fun d hd => absurd hd List.not_mem_nil
  · exact absurd hk (hruns k run)
  · exact absurd hk (hruns k run)
  · exact absurd hk (hruns k run)
  · exact fun d hd => absurd hd List.not_mem_nil

/-- Under the condition, over any overlap of runs: no two applications are derived from one group; a derived
application names a company that had none, and not more groups than the cap, when its run read them; and a
message of its group is still to be recorded by its run, or a person decided it, or its current match is the
application's or a newer one. -/
theorem one_application_per_group {R : Reader} {lower : String → String} {s : State}
    (h : Run (step R lower) (Apart R) State.empty s) :
    (s.derived.map Derivation.key).Nodup ∧
    (∀ d ∈ s.derived, d.company ∉ d.reading.known ∧ groupCount R d.reading d.company ≤ d.reading.cap) ∧
    ∀ d ∈ s.derived, ∀ m ∈ d.messages,
      (∃ k run, s.runs k = some run ∧ run.owes d.application_id m) ∨
      (∃ row ∈ s.log.committed, row.message_id = m ∧ row.actor_user_id ≠ none) ∨
      ∃ row current, row ∈ s.log.committed ∧ row.message_id = m ∧
        row.application_id = some d.application_id ∧ s.log.latest m = some current ∧
        row.id ≤ current.id := by
  have hinv : s.Inv R := h.invariant (.empty R) fun s a s' hi hok hs => hi.step hok hs
  refine ⟨hinv.once, fun d hd => ?_, fun d hd m hm => ?_⟩
  · have hok := hinv.derives d (.inl hd)
    exact ⟨hok.unknown, hok.within⟩
  · rcases hinv.owed d hd m hm with (⟨row, hrow, hmessage, happ⟩ | hperson) | howed
    · -- A visible row of the application: the current match has at least its id.
      have hmem : row ∈ s.log.committed.filter fun r => r.message_id = m :=
        List.mem_filter.mpr ⟨hrow, decide_eq_true hmessage⟩
      cases hlatest : s.log.latest m with
      | none => exact absurd hmem (by simp [List.argmax_eq_none.mp hlatest])
      | some current =>
        exact .inr (.inr ⟨row, current, hrow, hmessage, happ, rfl, List.le_of_mem_argmax hmem hlatest⟩)
    · exact .inr (.inl hperson)
    · exact .inl howed

/-- The run that an action is of. -/
def runOf : Act → Option ℕ
  | .readKnown k | .readCap k | .readMessages k | .insert k _ | .created k | .check k | .append k
  | .recorded k | .leave k => some k
  | .mail _ | .track .. | .others _ => none

/-- A way to meet the condition with two runs: there are no threads, an `INSERT` finds its anchor matched or
its group unused, and a run leaves between groups. -/
def calm (R : Reader) (s : State) (a : Act) : Bool :=
  (runOf a).all (· < 2) &&
  match a with
  | .readMessages k => (s.runs k).all fun run =>
      (candidateGroups R { run.reading with messages := unmatchedAppliedMessages s.messages (attachedIn s.log) }).all
        fun g => match g.key with
          | .thread _ => false
          | .role _ _ => true
  | .insert k _ =>
    match s.runs k with
    | some ⟨_, _, .seeding (g :: _)⟩ => matched s.log g.anchor.id ||
        (s.derived.all (·.key ≠ g.key) && [0, 1].all fun k' =>
          ((s.runs k').bind fun run => run.inFlight R).all (·.key ≠ g.key))
    | _ => true
  | .leave k => (s.runs k).all fun run => match run.phase with
      | .seeding _ => true
      | _ => false
  | _ => true

/-- There is no third run. -/
theorem calm_runs {R : Reader} {lower : String → String} {s s' : State} {a : Act}
    (h : ∀ k, 2 ≤ k → s.runs k = none) (hok : calm R s a = true) (hs : step R lower s a = some s') :
    ∀ k, 2 ≤ k → s'.runs k = none := by
  have hup : ∀ k₀ (run : Option SeedRun), k₀ < 2 → ∀ k, 2 ≤ k →
      Function.update s.runs k₀ run k = none := by
    intro k₀ run hlt k hk
    rw [Function.update_of_ne (by omega)]
    exact h k hk
  unfold calm at hok
  rw [Bool.and_eq_true] at hok
  have hlt := hok.1
  cases a <;> simp only [runOf, Option.all_some, decide_eq_true_eq] at hlt <;>
    simp only [step] at hs
  case mail | track =>
    obtain rfl := Option.some.inj hs
    exact h
  case others =>
    obtain ⟨log, -, rfl⟩ := Option.map_eq_some_iff.mp hs
    exact h
  case leave =>
    obtain rfl := Option.some.inj hs
    exact hup _ _ hlt
  all_goals
    repeat' split at hs
    all_goals first
      | contradiction
      | (obtain rfl := Option.some.inj hs; exact hup _ _ hlt)

/-- It does meet the condition. -/
theorem apart_of_calm {R : Reader} {s : State} {a : Act} (h : ∀ k, 2 ≤ k → s.runs k = none)
    (hok : calm R s a = true) : Apart R s a := by
  unfold calm at hok
  rw [Bool.and_eq_true] at hok
  obtain ⟨-, hok⟩ := hok
  cases a with
  | readMessages k =>
    intro run hrun r g hg thread hkey
    simp only [hrun, Option.all_some, List.all_eq_true] at hok
    have hno := hok g hg
    rw [hkey] at hno
    contradiction
  | insert k now =>
    intro r readAt g todo hk d hd hkey hseen
    simp only [hk, Bool.or_eq_true, Bool.and_eq_true, List.all_eq_true, decide_eq_true_eq] at hok
    rcases hok with hmatched | ⟨hderived, hflight⟩
    · exact hmatched
    · rcases hd with hd | ⟨k', run, hk', hd⟩
      · exact absurd hkey (hderived d hd)
      · have hlt : k' < 2 := by
          by_contra hge
          rw [h k' (by omega)] at hk'
          contradiction
        have hmem : k' ∈ [0, 1] := by
          have : k' = 0 ∨ k' = 1 := by omega
          simpa using this
        have hno := hflight k' hmem
        rw [hk', Option.bind_some, hd, Option.all_some, decide_eq_true_eq] at hno
        exact absurd hkey hno
  | leave k =>
    intro run hrun app m ho
    simp only [hrun, Option.all_some] at hok
    unfold SeedRun.owes at ho
    split at ho <;> first | exact ho | (next hphase => rw [hphase] at hok; contradiction)
  | mail | track | others | readKnown | readCap | created | check | append | recorded => trivial

/-- An acknowledgement of an application to Acme, without a thread. -/
def acknowledgement : Message :=
  ⟨1, none, some 100, none, some ⟨"acknowledgement", some "Acme, Inc.", some "Engineer", 101⟩⟩

/-- A run up to its first group. -/
def reads (k : ℕ) : List Act := [.readKnown k, .readCap k, .readMessages k]

/-- Two runs have read the mailbox when the first one creates the application and records its match; the
second one finds the message matched. -/
theorem one_application_per_group_second_run :
    ∃ s : State, Run (step asciiReader id) (Apart asciiReader) State.empty s ∧
      s.derived.length = 1 ∧ (∀ k, (s.runs k).isNone) ∧
      (s.derived.map Derivation.key).Nodup ∧
      ∀ d ∈ s.derived, d.company ∉ d.reading.known := by
  let acts : List Act := [.mail [acknowledgement]] ++ reads 0 ++ reads 1 ++ [.insert 0 200, .created 0,
    .check 0, .append 0, .recorded 0, .check 0, .leave 0, .insert 1 201, .leave 1]
  have hp : (runList (guarded (step asciiReader id) fun s a => calm asciiReader s a = true) State.empty
      acts).any (fun s => s.derived.length == 1 && (s.runs 0).isNone && (s.runs 1).isNone) = true := by
    decide +kernel
  obtain ⟨s, hrun, hs⟩ := exists_run_of_any hp
  have hcalm := run_of_guarded hrun
  have hthird : ∀ k, 2 ≤ k → s.runs k = none :=
    hcalm.invariant (fun _ _ => rfl) fun s a s' hi hok hs => calm_runs hi hok hs
  have hapart : Run (step asciiReader id) (Apart asciiReader) State.empty s :=
    hcalm.mono_of_invariant (fun _ _ => rfl) (fun s a s' hi hok hs => calm_runs hi hok hs)
      fun s a hi hok => apart_of_calm hi hok
  simp only [Bool.and_eq_true, beq_iff_eq] at hs
  obtain ⟨⟨hlen, h0⟩, h1⟩ := hs
  obtain ⟨hnodup, hwithin, -⟩ := one_application_per_group hapart
  refine ⟨s, hapart, hlen, fun k => ?_, hnodup, fun d hd => (hwithin d hd).1⟩
  match k with
  | 0 => exact h0
  | 1 => exact h1
  | k + 2 =>
    rw [hthird (k + 2) (by omega)]
    rfl

/-- Two runs have read the mailbox, and the second one's `INSERT` runs before the first one has recorded the
match of the message: the evidence makes two applications. -/
theorem overlapping_runs_derive_twice :
    ¬ ∀ s : State, Run (step asciiReader id) Always State.empty s →
      (s.derived.map Derivation.key).Nodup := by
  intro hall
  let acts : List Act := [.mail [acknowledgement]] ++ reads 0 ++ reads 1 ++
    [.insert 0 200, .created 0, .insert 1 201, .created 1]
  have hp : (runList (step asciiReader id) State.empty acts).any (fun s =>
      !decide (s.derived.map Derivation.key).Nodup) = true := by
    decide +kernel
  obtain ⟨s, hrun, hs⟩ := exists_run_of_any hp
  rw [Bool.not_eq_true', decide_eq_false_iff_not] at hs
  exact hs (hall s hrun)

end JobScripts.Mail.Derived

import Mathlib.Algebra.BigOperators.Group.List.Basic
import Mathlib.Algebra.Order.BigOperators.Group.List
import Mathlib.Algebra.Order.Group.Nat
import Mathlib.Algebra.Order.Ring.Int
import JobScripts.Queue.Admission

/-!
# The allowance of a sponsor

`admit` of `api/managed_boards/admission.py` against the queue and the ledger of model calls. An admission reads the
board, the allowance and the candidates and stores them, each statement reading what is committed then; a transaction
under the sponsor's advisory lock and the board's row lock checks again, and inserts.

The locks keep other admissions of the sponsor away between the check and the insert, so that the reservations still
hold there; calls are booked without a lock. `allowance_covers` says what an admission is sure of. A recovery makes a
run active without asking for one, and a call that is booked between the check and the insert is not seen
(`allowance_exceeded`).
-/

namespace JobScripts.Queue.Allowance

open Lib
open TaskAdmission (reopens active_of_run)

/-! ## Tables -/

/-- `execution_mode`: whether a managed board filters for itself or takes over its sponsor's verdicts. -/
inductive ExecutionMode
  | managedFilter
  | sponsorFilterReuse
  deriving DecidableEq

/-- `_Board`: what the admission reads of a managed board. -/
structure Board where
  id : ℕ
  sponsor_user_id : ℕ
  prompt : String
  prompt_hash : String
  requested_model : String
  execution_mode : ExecutionMode
  on_ambiguous : String
  fail_closed : Bool
  bypass_sponsorship_filter : Bool
  criteria : String
  title_gate : Option String
  revision : ℕ
  published : Bool
  sources : List String
  deriving DecidableEq

/-- A row of `model_calls`. `owner` is `key_source = 'owner'`. -/
structure Call where
  created_at : Time
  total_tokens : ℕ
  owner : Bool
  user_id : Option ℕ
  managed_board_id : Option ℕ

/-- A managed-board run, with the keys of its payload that nothing writes. -/
structure BoardRun where
  managed_board_id : ℕ
  reserved_tokens : ℕ
  candidate_count : ℕ
  dedupe_key : Option String
  row : Task

/-- `interval '7 days'`: a week in seconds. -/
def week : Time := 604800

/-- The sponsor of a board. -/
def sponsorOf (boards : ℕ → Option Board) (id : ℕ) : Option ℕ := (boards id).map Board.sponsor_user_id

/-- The call is one of the sponsor's, on the server's key, in the week before `now`. -/
def Call.counts (boards : ℕ → Option Board) (sponsor : ℕ) (now : Time) (c : Call) : Bool :=
  c.owner && now ≤ c.created_at + week &&
    (c.user_id = some sponsor || c.managed_board_id.bind (sponsorOf boards) = some sponsor)

/-- `spent` of `_usage_position`: the tokens of a sponsor's calls that count now. -/
def spent (boards : ℕ → Option Board) (sponsor : ℕ) (now : Time) (calls : List Call) : ℕ :=
  ((calls.filter (Call.counts boards sponsor now)).map Call.total_tokens).sum

/-- The run is an active one of the sponsor's. -/
def BoardRun.counts (boards : ℕ → Option Board) (sponsor : ℕ) (r : BoardRun) : Bool :=
  r.row.status.active && sponsorOf boards r.managed_board_id = some sponsor

/-- `reserved` of `_usage_position`: the tokens that runs of a sponsor's boards hold. -/
def reserved (boards : ℕ → Option Board) (sponsor : ℕ) (runs : List BoardRun) : ℕ :=
  ((runs.filter (BoardRun.counts boards sponsor)).map BoardRun.reserved_tokens).sum

/-- `ACTIVE_SQL`: the newest active run of the board. -/
def activeRun (board_id : ℕ) (runs : List BoardRun) : Option ℕ :=
  (runs.zipIdx.filter fun (r, _) => r.managed_board_id = board_id && r.row.status.active).getLast?.map Prod.snd

/-- `_refuse_over_budget` refuses. -/
def overBudget (cap : Option ℤ) (spent reserved more : ℕ) : Bool :=
  cap.any fun cap => cap < ((spent + reserved + more : ℕ) : ℤ)

/-! ## Plans -/

/-- Why an admission is refused: the code of a `RunRefusal`. -/
inductive Refusal
  | notFound
  | inProgress (task_id : ℕ)
  | noSponsor
  | access (reason : String)
  | noServerKey
  | batchUnsupported
  | modelNotAllowed
  | budgetExceeded
  | storageUnavailable
  | boardChanged
  | alreadyScheduled
  deriving DecidableEq

/-- What the reservation reads of a candidate: the length of its input without the page, and that of the page. -/
structure Candidate where
  input : ℕ
  content_chars : Option ℕ

/-- What a plan finds besides the tables: the sponsor's groups if there is a sponsor, the access to a personal model,
the budgets of the groups, the provider, the keys and models, the length of the instructions, and the candidates that
the screens leave. -/
structure Found where
  groups : Option (List String)
  access : Option String
  group_budgets : List (Option ℤ)
  provider : Option String
  server_key : Bool
  allowed : Bool
  eligible : Bool
  instructions : ℕ
  candidates : List Candidate

/-- `owner_budget`: whether any group has a budget, and the largest of them, where one without a number has no
bound. -/
def ownerBudget (groups : List String) (budgets : List (Option ℤ)) : Bool × Option ℤ :=
  if groups = [] ∨ budgets = [] then (false, none)
  else if budgets.any Option.isNone then (true, none)
  else (true, (budgets.filterMap fun b => b).max?)

/-- `BATCH_CHARS_PER_TOKEN`: the characters that count as one token in an estimate. -/
def batchCharsPerToken : ℕ := 4

/-- `FILTER_OUTPUT_RESERVATION_TOKENS`: the tokens that are booked for one answer. -/
def filterOutputReservationTokens : ℕ := 320

/-- `_reservation`: the tokens that are booked for some candidates, by the length of what each is asked. -/
def reservation (instructions : ℕ) (candidates : List Candidate) : ℕ :=
  (candidates.map fun c =>
    (instructions + c.input + c.content_chars.getD 0) / batchCharsPerToken + filterOutputReservationTokens).sum

/-- `_Plan`, with the number of its jobs. -/
structure Plan where
  board : Board
  reserved : ℕ
  cap : Option ℤ
  jobs : ℕ
  deriving DecidableEq

/-- `_plan`, between the check for an active run and the one of the allowance. -/
def plan (board : Board) (f : Found) : Except Refusal Plan :=
  match f.groups with
  | none => .error .noSponsor
  | some groups =>
    match board.execution_mode with
    | .sponsorFilterReuse =>
      match f.access with
      | some reason => .error (.access reason)
      | none => .ok ⟨board, 0, none, f.candidates.length⟩
    | .managedFilter =>
      let (owner, cap) := ownerBudget groups f.group_budgets
      if !owner || f.provider = none || !f.server_key then .error .noServerKey
      else if f.provider ≠ some "openai" then .error .batchUnsupported
      else if !f.allowed then .error .modelNotAllowed
      else if !f.eligible then .error .batchUnsupported
      else .ok ⟨board, reservation f.instructions f.candidates, cap, f.candidates.length⟩

/-! ## Admissions -/

/-- What `admit` returns or raises. -/
inductive Result
  | queued (task_id reserved_tokens candidate_count : ℕ)
  | refused (refusal : Refusal)
  | aborted
  deriving DecidableEq

/-- How far an admission is. `now` is when its transaction began; `seen` says how many calls were booked when the
allowance was checked there. -/
inductive Phase
  | called
  | unscheduled
  | found (board : Board)
  | idle (board : Board)
  | drawn (plan : Plan)
  | planned (plan : Plan)
  | stored (plan : Plan)
  | waiting (plan : Plan) (now : Time)
  | sponsored (plan : Plan) (now : Time)
  | locked (plan : Plan) (now : Time)
  | clear (plan : Plan) (now : Time)
  | covered (plan : Plan) (now : Time) (seen : ℕ)
  | returned (result : Result)
  deriving DecidableEq

/-- A call of `admit`. -/
structure Admission where
  board_id : ℕ
  dedupe_key : Option String
  phase : Phase
  deriving DecidableEq

/-- The advisory lock of a sponsor, and the row lock of a board. -/
inductive Lock
  | sponsor (id : ℕ)
  | board (id : ℕ)
  deriving DecidableEq

/-- The locks that an admission has. -/
def Admission.holds (a : Admission) (l : Lock) : Bool :=
  match a.phase with
  | .sponsored plan _ => l = .sponsor plan.board.sponsor_user_id
  | .locked plan _ | .clear plan _ | .covered plan _ _ =>
    l = .sponsor plan.board.sponsor_user_id || l = .board a.board_id
  | _ => false

/-- The board that it has read. -/
def Phase.board : Phase → Option Board
  | .found board | .idle board => some board
  | .drawn plan | .planned plan | .stored plan | .waiting plan _ | .sponsored plan _ | .locked plan _ | .clear plan _
  | .covered plan _ _ => some plan.board
  | .called | .unscheduled | .returned _ => none

/-- The transaction of a phase: its plan, and when it began. -/
def Phase.transaction : Phase → Option (Plan × Time)
  | .waiting plan now | .sponsored plan now | .locked plan now | .clear plan now | .covered plan now _ =>
    some (plan, now)
  | _ => none

/-- It has looked for an active run under its locks, and found none. -/
def Phase.looked : Phase → Bool
  | .clear .. | .covered .. => true
  | _ => false

/-- It has inserted its run. -/
def Phase.queued : Phase → Bool
  | .returned (.queued ..) => true
  | _ => false

/-- It is over. -/
def Phase.over : Phase → Bool
  | .returned _ => true
  | _ => false

/-- The tables, the admissions, and who has which lock. -/
structure State where
  boards : ℕ → Option Board
  runs : List BoardRun
  calls : List Call
  clock : Time
  admissions : ℕ → Option Admission
  locks : Lock → Option ℕ

/-- A statement of an admission. `taken` says that a task of another kind has the key. -/
inductive Event
  | key (taken : Bool)
  | board
  /-- `_refuse_active`, in the plan and in the transaction. -/
  | active
  | plan (found : Found)
  /-- `_refuse_over_budget`, in the plan and in the transaction. -/
  | afford
  | upload (stored : Bool)
  | transaction
  | sponsor
  | lock
  | abort

/-- `a.dedupe_key` is on a task. -/
def State.scheduled (s : State) (a : Admission) (taken : Bool) : Bool :=
  a.dedupe_key.isSome && (taken || s.runs.any fun r => r.dedupe_key = a.dedupe_key)

/-- Where a statement takes an admission, and the lock that it waits for. -/
def State.advance (s : State) (a : Admission) : Event → Phase → Option (Phase × Option Lock)
  | .key taken, .called =>
    some (if s.scheduled a taken then .returned (.refused .alreadyScheduled) else .unscheduled, none)
  | .board, .unscheduled =>
    some ((s.boards a.board_id).elim (.returned (.refused .notFound)) .found, none)
  | .active, .found board =>
    some ((activeRun a.board_id s.runs).elim (.idle board) fun id => .returned (.refused (.inProgress id)), none)
  | .plan found, .idle board =>
    match Allowance.plan board found with
    | .error refusal => some (.returned (.refused refusal), none)
    | .ok plan => some (if board.execution_mode = .managedFilter then .drawn plan else .planned plan, none)
  | .afford, .drawn plan =>
    let sponsor := plan.board.sponsor_user_id
    some (if overBudget plan.cap (spent s.boards sponsor s.clock s.calls) (reserved s.boards sponsor s.runs) plan.reserved
      then .returned (.refused .budgetExceeded) else .planned plan, none)
  | .upload stored, .planned plan =>
    some (if stored then .stored plan else .returned (.refused .storageUnavailable), none)
  | .transaction, .stored plan => some (.waiting plan s.clock, none)
  | .sponsor, .waiting plan now => some (.sponsored plan now, some (.sponsor plan.board.sponsor_user_id))
  | .lock, .sponsored plan now =>
    some (if s.boards a.board_id = some plan.board then .locked plan now else .returned (.refused .boardChanged),
      some (.board a.board_id))
  | .active, .locked plan now =>
    some ((activeRun a.board_id s.runs).elim (.clear plan now) fun id => .returned (.refused (.inProgress id)), none)
  | .afford, .clear plan now =>
    let sponsor := plan.board.sponsor_user_id
    some (if overBudget plan.cap (spent s.boards sponsor now s.calls) (reserved s.boards sponsor s.runs) plan.reserved
      then .returned (.refused .budgetExceeded) else .covered plan now s.calls.length, none)
  | .abort, phase => if phase.over then none else some (.returned .aborted, none)
  | _, _ => none

/-- The locks after an admission goes on: it takes the one that it waits for, and at its end it gives all back. -/
def State.relock (s : State) (k : ℕ) (phase : Phase) (lock : Option Lock) (l : Lock) : Option ℕ :=
  if phase.over then if s.locks l = some k then none else s.locks l
  else if lock = some l then some k
  else s.locks l

/-- An admission goes on. -/
def State.go (s : State) (k : ℕ) (a : Admission) (phase : Phase) (lock : Option Lock) : State :=
  { s with
    admissions := Function.update s.admissions k (some { a with phase })
    locks := s.relock k phase lock }

/-- The task of a plan: its kind and the keys of its payload. -/
def Plan.run (plan : Plan) (board_id : ℕ) (dedupe_key : Option String) : BoardRun :=
  let kind := if plan.board.execution_mode = .managedFilter then "run_managed_board_batch" else "run_managed_board"
  ⟨board_id, plan.reserved, plan.jobs, dedupe_key, enqueue kind none none [] none⟩

/-- What can happen next. -/
inductive Act
  | tick (seconds : ℕ)
  /-- A board is created, or changed. -/
  | patch (id : ℕ) (board : Board)
  /-- A call is booked. -/
  | book (c : Call)
  /-- A statement of the queue, against one run. -/
  | write (id : ℕ) (w : Write)
  /-- `admit` is called. -/
  | request (k board_id : ℕ) (dedupe_key : Option String)
  | event (k : ℕ) (e : Event)
  /-- `INSERT INTO tasks`, and the commit. -/
  | commit (k : ℕ) (taken : Bool)

/-- The admission whose step it is. -/
def Act.admission : Act → Option ℕ
  | .event k _ | .commit k _ => some k
  | _ => none

/-- One step. No board changes its sponsor, and runs have no chunks, so that no recovery reopens one as a parent. -/
def step (s : State) : Act → Option State
  | .tick seconds => some { s with clock := s.clock + seconds }
  | .patch id board =>
    if (s.locks (.board id)).isSome || board.id ≠ id ||
      (s.boards id).any fun old => old.sponsor_user_id ≠ board.sponsor_user_id then none
    else some { s with boards := Function.update s.boards id (some board) }
  | .book c =>
    -- `managed_board_id` is a foreign key.
    if c.managed_board_id.any fun id => (s.boards id).isNone then none else some { s with calls := s.calls ++ [c] }
  | .write id w =>
    match s.runs[id]? with
    | some r => if reopens w then none else (w.run r.row).map fun row => { s with runs := s.runs.set id { r with row } }
    | none => none
  | .request k board_id dedupe_key =>
    if (s.admissions k).isSome then none
    else some { s with admissions := Function.update s.admissions k (some ⟨board_id, dedupe_key, .called⟩) }
  | .event k e =>
    match s.admissions k with
    | some a =>
      match s.advance a e a.phase with
      | some (phase, lock) => if lock.any fun l => (s.locks l).isSome then none else some (s.go k a phase lock)
      | none => none
    | none => none
  | .commit k taken =>
    match s.admissions k with
    | some a =>
      match a.phase with
      | .covered plan _ _ =>
        -- `ON CONFLICT (dedupe_key) DO NOTHING`.
        if s.scheduled a taken then some (s.go k a (.returned (.refused .alreadyScheduled)) none)
        else some { s.go k a (.returned (.queued s.runs.length plan.reserved plan.jobs)) none with
          runs := s.runs ++ [plan.run a.board_id a.dedupe_key] }
      | _ => none
    | none => none

/-! ## What stays -/

/-- No board goes away, or changes its sponsor. -/
def BoardsLater (boards boards' : ℕ → Option Board) : Prop :=
  ∀ id b, boards id = some b → ∃ b', boards' id = some b' ∧ b'.sponsor_user_id = b.sponsor_user_id

/-- The invariant. -/
structure State.Inv (s : State) : Prop where
  runs : ∀ r ∈ s.runs, ∃ b, s.boards r.managed_board_id = some b
  calls : ∀ c ∈ s.calls, ∀ id, c.managed_board_id = some id → ∃ b, s.boards id = some b
  /-- The board that an admission has read is still there, with its sponsor. -/
  board : ∀ k a b, s.admissions k = some a → a.phase.board = some b →
    sponsorOf s.boards a.board_id = some b.sponsor_user_id
  locked : ∀ k a l, s.admissions k = some a → a.holds l = true → s.locks l = some k
  clear : ∀ k a, s.admissions k = some a → a.phase.looked = true →
    ∀ r ∈ s.runs, r.managed_board_id = a.board_id → r.row.status.active = false
  covered : ∀ k a plan now seen, s.admissions k = some a → a.phase = .covered plan now seen →
    overBudget plan.cap (spent s.boards plan.board.sponsor_user_id now (s.calls.take seen))
      (reserved s.boards plan.board.sponsor_user_id s.runs) plan.reserved = false
  seen : ∀ k a plan now seen, s.admissions k = some a → a.phase = .covered plan now seen → seen ≤ s.calls.length
  began : ∀ k a plan now, s.admissions k = some a → a.phase.transaction = some (plan, now) → now ≤ s.clock
  one : ∀ (i j : ℕ) (r r' : BoardRun), s.runs[i]? = some r → s.runs[j]? = some r' →
    r.managed_board_id = r'.managed_board_id → r.row.status.active = true → r'.row.status.active = true → i = j

/-- A recovery does no harm: its board has no other active run, and no admission of the sponsor is past its look. -/
def Unharmed (s : State) : Act → Prop
  | .write id (.retry ..) => ∀ r, s.runs[id]? = some r →
      (∀ (j : ℕ) (r' : BoardRun), s.runs[j]? = some r' → j ≠ id → r'.managed_board_id = r.managed_board_id →
        r'.row.status.active = false) ∧
      ∀ k a, s.admissions k = some a → a.phase.looked = true →
        sponsorOf s.boards a.board_id ≠ sponsorOf s.boards r.managed_board_id
  | _ => True

section Tables

variable {boards boards' : ℕ → Option Board} {sponsor : ℕ}

/-- A board keeps its sponsor. -/
theorem BoardsLater.sponsorOf (h : BoardsLater boards boards') {id : ℕ} (hid : ∃ b, boards id = some b) :
    sponsorOf boards' id = sponsorOf boards id := by
  obtain ⟨b, hb⟩ := hid
  obtain ⟨b', hb', hsponsor⟩ := h id b hb
  unfold Allowance.sponsorOf
  rw [hb, hb', Option.map_some, Option.map_some, hsponsor]

/-- What has been booked for boards that are there stays booked for their sponsor. -/
theorem BoardsLater.spent (h : BoardsLater boards boards') {calls : List Call} {now : Time}
    (hcalls : ∀ c ∈ calls, ∀ id, c.managed_board_id = some id → ∃ b, boards id = some b) :
    spent boards' sponsor now calls = spent boards sponsor now calls := by
  have hcounts : ∀ c ∈ calls, Call.counts boards' sponsor now c = Call.counts boards sponsor now c := by
    intro c hc
    unfold Call.counts
    rcases hid : c.managed_board_id with _ | id
    · rfl
    · rw [Option.bind_some, Option.bind_some, h.sponsorOf (hcalls c hc id hid)]
  unfold Allowance.spent
  rw [List.filter_congr hcounts]

/-- What is reserved by runs of boards that are there stays reserved for their sponsor. -/
theorem BoardsLater.reserved (h : BoardsLater boards boards') {runs : List BoardRun}
    (hruns : ∀ r ∈ runs, ∃ b, boards r.managed_board_id = some b) :
    reserved boards' sponsor runs = reserved boards sponsor runs := by
  have hcounts : ∀ r ∈ runs, BoardRun.counts boards' sponsor r = BoardRun.counts boards sponsor r := by
    intro r hr
    unfold BoardRun.counts
    rw [h.sponsorOf (hruns r hr)]
  unfold Allowance.reserved
  rw [List.filter_congr hcounts]

/-- What is reserved, run by run. -/
theorem reserved_cons (r : BoardRun) (runs : List BoardRun) : reserved boards sponsor (r :: runs) =
    (if r.counts boards sponsor then r.reserved_tokens else 0) + reserved boards sponsor runs := by
  unfold reserved
  rw [List.filter_cons]
  split
  · rw [List.map_cons, List.sum_cons]
  · rw [Nat.zero_add]

/-- A run more. -/
theorem reserved_append (runs : List BoardRun) (r : BoardRun) : reserved boards sponsor (runs ++ [r]) =
    reserved boards sponsor runs + if r.counts boards sponsor then r.reserved_tokens else 0 := by
  unfold reserved
  rw [List.filter_append, List.map_append, List.sum_append]
  congr 1
  by_cases hr : r.counts boards sponsor = true
  · rw [if_pos hr, List.filter_cons_of_pos hr]
    rfl
  · rw [if_neg hr, List.filter_cons_of_neg hr]
    rfl

/-- A run that is written reserves no more for the sponsor, unless it counts where it did not. -/
theorem reserved_set {runs : List BoardRun} {id : ℕ} {r : BoardRun} {row : Task} (hr : runs[id]? = some r)
    (hcounts : ({ r with row } : BoardRun).counts boards sponsor = true → r.counts boards sponsor = true) :
    reserved boards sponsor (runs.set id { r with row }) ≤ reserved boards sponsor runs := by
  induction runs generalizing id with
  | nil => contradiction
  | cons r₀ runs ih =>
    cases id with
    | zero =>
      obtain rfl := Option.some.inj hr
      rw [List.set_cons_zero, reserved_cons, reserved_cons]
      refine Nat.add_le_add_right ?_ _
      split
      · next hnew => rw [if_pos (hcounts hnew)]
      · exact Nat.zero_le _
    | succ id =>
      rw [List.set_cons_succ, reserved_cons, reserved_cons]
      exact Nat.add_le_add_left (ih hr) _

/-- What is booked later in the week is no more than what was booked by then, and since. -/
theorem spent_le {calls : List Call} {now later : Time} (h : now ≤ later) (seen : ℕ) :
    spent boards sponsor later calls ≤ spent boards sponsor now (calls.take seen) +
      spent boards sponsor later (calls.drop seen) := by
  have hsplit : spent boards sponsor later calls =
      spent boards sponsor later (calls.take seen) + spent boards sponsor later (calls.drop seen) := by
    unfold spent
    rw [← List.sum_append, ← List.map_append, ← List.filter_append, List.take_append_drop]
  rw [hsplit]
  refine Nat.add_le_add_right ?_ _
  unfold spent
  refine List.Sublist.sum_le_sum ((List.monotone_filter_right _ fun c hc => ?_).map _) fun _ _ => Nat.zero_le _
  unfold Call.counts at hc ⊢
  simp only [Bool.and_eq_true, decide_eq_true_eq] at hc ⊢
  exact ⟨⟨hc.1.1, h.trans hc.1.2⟩, hc.2⟩

/-- Less reserved stays within the cap. -/
theorem overBudget_mono {cap : Option ℤ} {spent reserved reserved' more : ℕ} (hle : reserved' ≤ reserved)
    (h : overBudget cap spent reserved more = false) : overBudget cap spent reserved' more = false := by
  cases cap with
  | none => rfl
  | some cap =>
    unfold overBudget at h ⊢
    rw [Option.any_some, decide_eq_false_iff_not] at h ⊢
    omega

/-- What the search for an active run does not find is not there. -/
theorem activeRun_eq_none {runs : List BoardRun} {board_id : ℕ} (h : activeRun board_id runs = none) {r : BoardRun}
    (hr : r ∈ runs) (hboard : r.managed_board_id = board_id) : r.row.status.active = false := by
  unfold activeRun at h
  rw [Option.map_eq_none_iff, List.getLast?_eq_none_iff] at h
  obtain ⟨i, hi⟩ := List.getElem?_of_mem hr
  have hno := List.filter_eq_nil_iff.mp h (r, i) (List.mem_zipIdx_iff_getElem?.mpr hi)
  simpa [hboard] using hno

end Tables

/-! ## Steps -/

section Steps

variable {s s' : State} {k : ℕ} {a : Admission} {phase : Phase} {lock : Option Lock}

/-- What a statement of an admission can do: it keeps or reads the board, keeps or begins the transaction, takes what
locks it has, and goes past the look and the check only if they find nothing. -/
structure Advances (s : State) (a : Admission) (phase : Phase) (lock : Option Lock) : Prop where
  open_ : a.phase.over = false
  board : ∀ b, phase.board = some b → a.phase.board = some b ∨ s.boards a.board_id = some b
  transaction : ∀ plan now, phase.transaction = some (plan, now) →
    a.phase.transaction = some (plan, now) ∨ now = s.clock
  holds : ∀ l, ({ a with phase } : Admission).holds l = true → a.holds l = true ∨ lock = some l
  looked : phase.looked = true → a.phase.looked = true ∨ activeRun a.board_id s.runs = none
  covered : ∀ plan now seen, phase = .covered plan now seen → seen = s.calls.length ∧
    overBudget plan.cap (spent s.boards plan.board.sponsor_user_id now s.calls)
      (reserved s.boards plan.board.sponsor_user_id s.runs) plan.reserved = false

/-- An admission that has not looked. -/
theorem Advances.unlooked (hopen : a.phase.over = false)
    (hboard : ∀ b, phase.board = some b → a.phase.board = some b ∨ s.boards a.board_id = some b)
    (htransaction : ∀ plan now, phase.transaction = some (plan, now) →
      a.phase.transaction = some (plan, now) ∨ now = s.clock)
    (hholds : ∀ l, ({ a with phase } : Admission).holds l = true → a.holds l = true ∨ lock = some l)
    (h : phase.looked = false) : Advances s a phase lock := by
  refine ⟨hopen, hboard, htransaction, hholds, fun hl => ?_, fun plan now seen hc => ?_⟩
  · rw [h] at hl
    contradiction
  · rw [hc] at h
    contradiction

/-- Without a transaction an admission has no locks, and has not looked. -/
theorem Phase.of_transaction (h : phase.transaction = none) :
    (∀ l, ({ a with phase } : Admission).holds l = false) ∧ phase.looked = false := by
  cases phase with
  | waiting plan now | sponsored plan now | locked plan now | clear plan now | covered plan now seen => contradiction
  | _ => exact ⟨fun _ => rfl, rfl⟩

/-- An admission outside its transaction. -/
theorem Advances.outside (hopen : a.phase.over = false)
    (hboard : ∀ b, phase.board = some b → a.phase.board = some b ∨ s.boards a.board_id = some b)
    (h : phase.transaction = none) (lock : Option Lock) : Advances s a phase lock := by
  obtain ⟨hholds, hlooked⟩ := Phase.of_transaction (a := a) h
  refine .unlooked hopen hboard (fun plan now hsome => ?_) (fun l hl => ?_) hlooked
  · rw [h] at hsome
    contradiction
  · rw [hholds l] at hl
    contradiction

/-- An admission that is over. -/
theorem Advances.returned (hopen : a.phase.over = false) (result : Result) (lock : Option Lock) :
    Advances s a (.returned result) lock := by
  refine .outside hopen (fun b hb => ?_) rfl lock
  contradiction

/-- The plan is for the board. -/
theorem plan_board {board : Board} {f : Found} {p : Plan} (h : plan board f = .ok p) : p.board = board := by
  unfold plan at h
  split at h
  · contradiction
  split at h
  · split at h
    · contradiction
    · exact Except.ok.inj h ▸ rfl
  · split at h
    repeat'
      split at h
      · contradiction
    exact Except.ok.inj h ▸ rfl

/-- Every statement of an admission does so, and inserts nothing. -/
theorem Advances.of_advance {e : Event} (h : s.advance a e a.phase = some (phase, lock)) :
    Advances s a phase lock ∧ phase.queued = false := by
  obtain ⟨board_id, dedupe_key, phase₀⟩ := a
  unfold State.advance at h
  dsimp only at h
  split at h
  -- The key, the board and the search for an active run, before the plan.
  · obtain ⟨rfl, rfl⟩ := Prod.mk.inj (Option.some.inj h)
    split
    · exact ⟨.returned rfl _ _, rfl⟩
    · refine ⟨.outside rfl (fun b hb => ?_) rfl _, rfl⟩
      contradiction
  · obtain ⟨rfl, rfl⟩ := Prod.mk.inj (Option.some.inj h)
    rcases hb : s.boards board_id with _ | b
    · exact ⟨.returned rfl _ _, rfl⟩
    · refine ⟨.outside rfl (fun b' hb' => .inr ?_) rfl _, rfl⟩
      exact hb.trans hb'
  · obtain ⟨rfl, rfl⟩ := Prod.mk.inj (Option.some.inj h)
    rcases activeRun board_id s.runs with _ | id
    · refine ⟨.outside rfl (fun b hb => .inl ?_) rfl _, rfl⟩
      exact hb
    · exact ⟨.returned rfl _ _, rfl⟩
  -- The plan, its check and the upload.
  · split at h
    · obtain ⟨rfl, rfl⟩ := Prod.mk.inj (Option.some.inj h)
      exact ⟨.returned rfl _ _, rfl⟩
    · next p hp =>
      obtain ⟨rfl, rfl⟩ := Prod.mk.inj (Option.some.inj h)
      have hboard := plan_board hp
      split
      · refine ⟨.outside rfl (fun b hb => .inl ?_) rfl _, rfl⟩
        exact (congrArg some hboard).symm.trans hb
      · refine ⟨.outside rfl (fun b hb => .inl ?_) rfl _, rfl⟩
        exact (congrArg some hboard).symm.trans hb
  · obtain ⟨rfl, rfl⟩ := Prod.mk.inj (Option.some.inj h)
    split
    · exact ⟨.returned rfl _ _, rfl⟩
    · refine ⟨.outside rfl (fun b hb => .inl ?_) rfl _, rfl⟩
      exact hb
  · obtain ⟨rfl, rfl⟩ := Prod.mk.inj (Option.some.inj h)
    split
    · refine ⟨.outside rfl (fun b hb => .inl ?_) rfl _, rfl⟩
      exact hb
    · exact ⟨.returned rfl _ _, rfl⟩
  -- The transaction, and its locks.
  · obtain ⟨rfl, rfl⟩ := Prod.mk.inj (Option.some.inj h)
    refine ⟨.unlooked rfl (fun b hb => .inl hb) (fun p now hp => .inr ?_) (fun l hl => ?_) rfl, rfl⟩
    · exact (Prod.mk.inj (Option.some.inj hp)).2.symm
    · exact absurd hl Bool.false_ne_true
  · next p now =>
    obtain ⟨rfl, rfl⟩ := Prod.mk.inj (Option.some.inj h)
    refine ⟨.unlooked rfl (fun b hb => .inl hb) (fun p now hp => .inl hp) (fun l hl => .inr ?_) rfl, rfl⟩
    exact congrArg some (of_decide_eq_true hl).symm
  · next p now =>
    obtain ⟨rfl, rfl⟩ := Prod.mk.inj (Option.some.inj h)
    split
    · refine ⟨.unlooked rfl (fun b hb => .inl hb) (fun p now hp => .inl hp) (fun l hl => ?_) rfl, rfl⟩
      rcases Bool.or_eq_true_iff.mp hl with hl | hl
      · exact .inl hl
      · exact .inr (congrArg some (of_decide_eq_true hl).symm)
    · exact ⟨.returned rfl _ _, rfl⟩
  -- The checks again.
  · obtain ⟨rfl, rfl⟩ := Prod.mk.inj (Option.some.inj h)
    rcases hactive : activeRun board_id s.runs with _ | id
    · exact ⟨⟨rfl, fun b hb => .inl hb, fun p now hp => .inl hp, fun l hl => .inl hl, fun _ => .inr hactive, nofun⟩, rfl⟩
    · exact ⟨.returned rfl _ _, rfl⟩
  · next p now =>
    obtain ⟨rfl, rfl⟩ := Prod.mk.inj (Option.some.inj h)
    split
    · exact ⟨.returned rfl _ _, rfl⟩
    · next hcovers =>
      refine ⟨⟨rfl, fun b hb => .inl hb, fun p now hp => .inl hp, fun l hl => .inl hl, fun _ => .inl rfl, ?_⟩, rfl⟩
      intro p' now' seen hp
      obtain ⟨rfl, rfl, rfl⟩ := Phase.covered.inj hp
      exact ⟨rfl, Bool.eq_false_iff.mpr hcovers⟩
  · split at h
    · contradiction
    · next hopen =>
      obtain ⟨rfl, rfl⟩ := Prod.mk.inj (Option.some.inj h)
      exact ⟨.returned (Bool.eq_false_iff.mpr hopen) _ _, rfl⟩
  · contradiction

/-- An admission after another one has gone on. -/
theorem go_cases {k' : ℕ} {a' : Admission} (h : (s.go k a phase lock).admissions k' = some a') :
    (k' = k ∧ a' = { a with phase }) ∨ (k' ≠ k ∧ s.admissions k' = some a') := by
  unfold State.go at h
  dsimp only at h
  rw [Function.update_apply] at h
  split at h
  · next hk => exact .inl ⟨hk, (Option.some.inj h).symm⟩
  · next hk => exact .inr ⟨hk, h⟩

/-- A lock that another admission has stays with it. -/
theorem relock_of_ne {l : Lock} {k' : ℕ} (hk : k' ≠ k) (hl : s.locks l = some k')
    (hfree : ∀ l, lock = some l → s.locks l = none) : s.relock k phase lock l = some k' := by
  unfold State.relock
  split
  · rw [hl, if_neg fun heq => hk (Option.some.inj heq)]
  · split
    · next hlock =>
      rw [hfree l hlock] at hl
      contradiction
    · exact hl

/-- An admission that looked has the locks of its board, and of the sponsor. -/
theorem Admission.holds_of_looked (h : a.phase.looked = true) : ∃ b, a.phase.board = some b ∧
    a.holds (.sponsor b.sponsor_user_id) = true ∧ a.holds (.board a.board_id) = true := by
  obtain ⟨board_id, dedupe_key, phase⟩ := a
  cases phase with
  | clear plan now => exact ⟨plan.board, rfl, by simp [Admission.holds], by simp [Admission.holds]⟩
  | covered plan now seen => exact ⟨plan.board, rfl, by simp [Admission.holds], by simp [Admission.holds]⟩
  | _ => contradiction

/-- Two admissions of one sponsor that have looked are one. -/
theorem State.Inv.looked_unique (h : s.Inv) {k' : ℕ} {a' : Admission} (ha : s.admissions k = some a)
    (ha' : s.admissions k' = some a') (hlooked : a.phase.looked = true) (hlooked' : a'.phase.looked = true)
    (hsponsor : sponsorOf s.boards a.board_id = sponsorOf s.boards a'.board_id) : k = k' := by
  obtain ⟨b, hb, hholds, -⟩ := Admission.holds_of_looked hlooked
  obtain ⟨b', hb', hholds', -⟩ := Admission.holds_of_looked hlooked'
  rw [h.board k a b ha hb, h.board k' a' b' ha' hb'] at hsponsor
  have hlock := h.locked k a _ ha hholds
  have hlock' := h.locked k' a' _ ha' hholds'
  rw [← Option.some.inj hsponsor, hlock] at hlock'
  exact Option.some.inj hlock'

/-- An admission that goes on keeps the invariant. -/
theorem State.Inv.go (h : s.Inv) (ha : s.admissions k = some a) (hadv : Advances s a phase lock)
    (hfree : ∀ l, lock = some l → s.locks l = none) : (s.go k a phase lock).Inv where
  runs := h.runs
  calls := h.calls
  board k' a' b ha' hb := by
    rcases go_cases ha' with ⟨-, rfl⟩ | ⟨-, ha'⟩
    · rcases hadv.board b hb with hold | hread
      · exact h.board k a b ha hold
      · show sponsorOf s.boards a.board_id = _
        rw [sponsorOf, hread, Option.map_some]
    · exact h.board k' a' b ha' hb
  locked k' a' l ha' hl := by
    rcases go_cases ha' with ⟨rfl, rfl⟩ | ⟨hk, ha'⟩
    · show s.relock k' phase lock l = some k'
      have hnot : phase.over = false := by
        rcases phase with _ | _ | _ | _ | _ | _ | _ | _ | _ | _ | _ | _ | _ <;> first | rfl | contradiction
      rw [State.relock, hnot, if_neg Bool.false_ne_true]
      rcases hadv.holds l hl with hold | hlock
      · split
        · rfl
        · exact h.locked k' a l ha hold
      · rw [if_pos hlock]
    · exact relock_of_ne hk (h.locked k' a' l ha' hl) hfree
  clear k' a' ha' hlooked r hr hboard := by
    rcases go_cases ha' with ⟨-, rfl⟩ | ⟨-, ha'⟩
    · rcases hadv.looked hlooked with hold | hnone
      · exact h.clear k a ha hold r hr hboard
      · exact activeRun_eq_none hnone hr hboard
    · exact h.clear k' a' ha' hlooked r hr hboard
  covered k' a' plan now seen ha' hcovered := by
    rcases go_cases ha' with ⟨-, rfl⟩ | ⟨-, ha'⟩
    · obtain ⟨rfl, hcovers⟩ := hadv.covered plan now seen hcovered
      show overBudget plan.cap (spent s.boards _ now (s.calls.take s.calls.length)) _ _ = false
      rw [List.take_length]
      exact hcovers
    · exact h.covered k' a' plan now seen ha' hcovered
  seen k' a' plan now seen ha' hcovered := by
    rcases go_cases ha' with ⟨-, rfl⟩ | ⟨-, ha'⟩
    · exact (hadv.covered plan now seen hcovered).1.le
    · exact h.seen k' a' plan now seen ha' hcovered
  began k' a' plan now ha' hbegan := by
    rcases go_cases ha' with ⟨-, rfl⟩ | ⟨-, ha'⟩
    · rcases hadv.transaction plan now hbegan with hold | rfl
      · exact h.began k a plan now ha hold
      · exact le_rfl
    · exact h.began k' a' plan now ha' hbegan
  one := h.one

/-- A change of a board keeps the invariant. -/
theorem State.Inv.boards (h : s.Inv) {boards : ℕ → Option Board} (hlater : BoardsLater s.boards boards) :
    State.Inv { s with boards := boards } where
  runs r hr := by
    obtain ⟨b, hb⟩ := h.runs r hr
    obtain ⟨b', hb', -⟩ := hlater _ b hb
    exact ⟨b', hb'⟩
  calls c hc id hid := by
    obtain ⟨b, hb⟩ := h.calls c hc id hid
    obtain ⟨b', hb', -⟩ := hlater _ b hb
    exact ⟨b', hb'⟩
  board k a b ha hb := by
    have hsponsor := h.board k a b ha hb
    obtain ⟨b₀, hb₀, -⟩ := Option.map_eq_some_iff.mp hsponsor
    exact (hlater.sponsorOf ⟨b₀, hb₀⟩).trans hsponsor
  locked := h.locked
  clear := h.clear
  covered k a plan now seen ha hcovered := by
    have hcovers := h.covered k a plan now seen ha hcovered
    dsimp only
    rw [hlater.spent fun c hc => h.calls c (List.mem_of_mem_take hc), hlater.reserved h.runs]
    exact hcovers
  seen := h.seen
  began := h.began
  one := h.one

/-- A call that is booked keeps the invariant. -/
theorem State.Inv.book (h : s.Inv) {c : Call}
    (hboard : ∀ id, c.managed_board_id = some id → ∃ b, s.boards id = some b) :
    State.Inv { s with calls := s.calls ++ [c] } where
  runs := h.runs
  calls c' hc' id hid := by
    rcases List.mem_append.mp hc' with hc' | hc'
    · exact h.calls c' hc' id hid
    · rw [List.mem_singleton.mp hc'] at hid
      exact hboard id hid
  board := h.board
  locked := h.locked
  clear := h.clear
  covered k a plan now seen ha hcovered := by
    dsimp only
    rw [List.take_append_of_le_length (h.seen k a plan now seen ha hcovered)]
    exact h.covered k a plan now seen ha hcovered
  seen k a plan now seen ha hcovered := by
    rw [List.length_append]
    exact Nat.le_add_right_of_le (h.seen k a plan now seen ha hcovered)
  began := h.began
  one := h.one

/-- A run after another one was written. -/
theorem set_cases {id : ℕ} {r : BoardRun} {row : Task} (hr : s.runs[id]? = some r) {i : ℕ} {r' : BoardRun}
    (hr' : (s.runs.set id { r with row })[i]? = some r') :
    (i = id ∧ r' = { r with row }) ∨ (i ≠ id ∧ s.runs[i]? = some r') := by
  by_cases hi : id = i
  · subst hi
    rw [List.getElem?_set_self (List.getElem?_eq_some_iff.mp hr).1] at hr'
    exact .inl ⟨rfl, (Option.some.inj hr').symm⟩
  · rw [List.getElem?_set_ne hi] at hr'
    exact .inr ⟨fun h => hi h.symm, hr'⟩

/-- A statement that makes no run active, or does no harm by it, keeps the invariant. -/
theorem State.Inv.written (h : s.Inv) {id : ℕ} {r : BoardRun} {row : Task} (hr : s.runs[id]? = some r)
    (hactive : row.status.active = true → r.row.status.active = true ∨
      (∀ (j : ℕ) (r' : BoardRun), s.runs[j]? = some r' → j ≠ id → r'.managed_board_id = r.managed_board_id →
        r'.row.status.active = false) ∧
      ∀ k a, s.admissions k = some a → a.phase.looked = true →
        sponsorOf s.boards a.board_id ≠ sponsorOf s.boards r.managed_board_id) :
    State.Inv { s with runs := s.runs.set id { r with row } } where
  runs r' hr' := by
    obtain ⟨i, hi⟩ := List.getElem?_of_mem hr'
    rcases set_cases hr hi with ⟨-, rfl⟩ | ⟨-, hi⟩
    · exact h.runs r (List.mem_of_getElem? hr)
    · exact h.runs r' (List.mem_of_getElem? hi)
  calls := h.calls
  board := h.board
  locked := h.locked
  clear k a ha hlooked r' hr' hboard := by
    obtain ⟨i, hi⟩ := List.getElem?_of_mem hr'
    rcases set_cases hr hi with ⟨-, rfl⟩ | ⟨-, hi⟩
    · by_contra hnot
      rcases hactive (Bool.not_eq_false _ ▸ hnot) with hwas | ⟨-, hcalm⟩
      · have hno := h.clear k a ha hlooked r (List.mem_of_getElem? hr) hboard
        rw [hwas] at hno
        contradiction
      · exact hcalm k a ha hlooked (congrArg _ (hboard : r.managed_board_id = a.board_id).symm)
    · exact h.clear k a ha hlooked r' (List.mem_of_getElem? hi) hboard
  covered k a plan now seen ha hcovered := by
    have hcovers := h.covered k a plan now seen ha hcovered
    have hlooked : a.phase.looked = true := by rw [hcovered]; rfl
    refine overBudget_mono (reserved_set hr fun hcounts => ?_) hcovers
    unfold BoardRun.counts at hcounts ⊢
    rw [Bool.and_eq_true, decide_eq_true_eq] at hcounts ⊢
    refine ⟨?_, hcounts.2⟩
    rcases hactive hcounts.1 with hwas | ⟨-, hcalm⟩
    · exact hwas
    · -- The run is of the sponsor of the admission, which has looked.
      refine absurd ?_ (hcalm k a ha hlooked)
      exact (h.board k a plan.board ha (by rw [hcovered]; rfl)).trans hcounts.2.symm
  seen := h.seen
  began := h.began
  one i j f f' hf hf' hboard ha ha' := by
    rcases set_cases hr hf with ⟨rfl, rfl⟩ | ⟨hi, hi'⟩ <;> rcases set_cases hr hf' with ⟨rfl, rfl⟩ | ⟨hj, hj'⟩
    · rfl
    · rcases hactive ha with hwas | ⟨hothers, -⟩
      · exact h.one _ j r f' hr hj' hboard hwas ha'
      · rw [hothers j f' hj' hj hboard.symm] at ha'
        contradiction
    · rcases hactive ha' with hwas | ⟨hothers, -⟩
      · exact h.one i _ f r hi' hr hboard ha hwas
      · rw [hothers i f hi' hi hboard] at ha
        contradiction
    · exact h.one i j f f' hi' hj' hboard ha ha'

/-- A run after one was inserted. -/
theorem append_cases {r : BoardRun} {i : ℕ} {r' : BoardRun} (h : (s.runs ++ [r])[i]? = some r') :
    (i = s.runs.length ∧ r' = r) ∨ s.runs[i]? = some r' := by
  rcases Nat.lt_or_ge i s.runs.length with hi | hi
  · rw [List.getElem?_append_left hi] at h
    exact .inr h
  · rw [List.getElem?_append_right hi, List.getElem?_singleton] at h
    split at h
    · exact .inl ⟨by omega, (Option.some.inj h).symm⟩
    · contradiction

/-- An admission that inserts its run keeps the invariant: it alone of its sponsor has looked, and it found nothing. -/
theorem State.Inv.created (h : s.Inv) {plan : Plan} {now : Time} {seen : ℕ} (ha : s.admissions k = some a)
    (hcovered : a.phase = .covered plan now seen) (result : Result) :
    State.Inv { s.go k a (.returned result) none with runs := s.runs ++ [plan.run a.board_id a.dedupe_key] } := by
  have hlooked : a.phase.looked = true := by rw [hcovered]; rfl
  have hsponsor := h.board k a plan.board ha (by rw [hcovered]; rfl)
  have hgo : (s.go k a (.returned result) none).Inv := h.go ha (.returned (by rw [hcovered]; rfl) _ _) nofun
  have hother : ∀ k' a', (s.go k a (.returned result) none).admissions k' = some a' → a'.phase.looked = true →
      sponsorOf s.boards a'.board_id ≠ some plan.board.sponsor_user_id := by
    intro k' a' ha' hlooked'
    rcases go_cases ha' with ⟨-, rfl⟩ | ⟨hk, ha'⟩
    · contradiction
    · exact fun heq => hk (h.looked_unique ha' ha hlooked' hlooked (heq.trans hsponsor.symm))
  constructor
  case runs =>
    intro r hr
    rcases List.mem_append.mp hr with hr | hr
    · exact h.runs r hr
    · rw [List.mem_singleton.mp hr]
      obtain ⟨b, hb, -⟩ := Option.map_eq_some_iff.mp hsponsor
      exact ⟨b, hb⟩
  case calls => exact h.calls
  case board => exact hgo.board
  case locked => exact hgo.locked
  case clear =>
    intro k' a' ha' hlooked' r hr hboard
    rcases List.mem_append.mp hr with hr | hr
    · exact hgo.clear k' a' ha' hlooked' r hr hboard
    · rw [List.mem_singleton.mp hr] at hboard
      refine absurd ?_ (hother k' a' ha' hlooked')
      exact (congrArg _ (hboard : a.board_id = a'.board_id).symm).trans hsponsor
  case covered =>
    intro k' a' plan' now' seen' ha' hcovered'
    have hcovers := hgo.covered k' a' plan' now' seen' ha' hcovered'
    have hsponsor' := hgo.board k' a' plan'.board ha' (by rw [hcovered']; rfl)
    have hne := hother k' a' ha' (by rw [hcovered']; rfl)
    refine overBudget_mono (le_of_eq ?_) hcovers
    show reserved s.boards _ (s.runs ++ [_]) = reserved s.boards _ s.runs
    rw [reserved_append, if_neg, Nat.add_zero]
    unfold BoardRun.counts
    rw [Bool.and_eq_true, decide_eq_true_eq]
    rintro ⟨-, hcounts⟩
    exact hne (hsponsor'.trans (hcounts.symm.trans hsponsor))
  case seen => exact hgo.seen
  case began => exact hgo.began
  case one =>
    intro i j r r' hr hr' hboard hactive hactive'
    rcases append_cases hr with ⟨rfl, rfl⟩ | hi <;> rcases append_cases hr' with ⟨rfl, rfl⟩ | hj
    · rfl
    · rw [h.clear k a ha hlooked r' (List.mem_of_getElem? hj) hboard.symm] at hactive'
      contradiction
    · rw [h.clear k a ha hlooked r (List.mem_of_getElem? hi) hboard] at hactive
      contradiction
    · exact h.one i j r r' hi hj hboard hactive hactive'

/-- A step that does no harm keeps the invariant. -/
theorem State.Inv.step (h : s.Inv) {act : Act} (hok : Unharmed s act) (hs : step s act = some s') : s'.Inv := by
  cases act with
  | tick seconds =>
    obtain rfl := Option.some.inj hs
    exact ⟨h.runs, h.calls, h.board, h.locked, h.clear, h.covered, h.seen,
      fun k a plan now ha hbegan => (h.began k a plan now ha hbegan).trans (Nat.le_add_right _ _), h.one⟩
  | patch id board =>
    dsimp only [Allowance.step] at hs
    split at hs
    · contradiction
    next hsame =>
    obtain rfl := Option.some.inj hs
    rw [Bool.or_eq_true, not_or] at hsame
    -- A board keeps its sponsor, so that what is reserved stays with whom it was.
    refine h.boards fun id' b hb => ?_
    rw [Function.update_apply]
    split
    · next heq =>
      refine ⟨board, rfl, ?_⟩
      have hsponsor := hsame.2
      rw [← heq, hb, Option.any_some, decide_eq_true_eq, not_not] at hsponsor
      exact hsponsor.symm
    · exact ⟨b, hb, rfl⟩
  | book c =>
    dsimp only [Allowance.step] at hs
    split at hs
    · contradiction
    next hboard =>
    obtain rfl := Option.some.inj hs
    -- A call is booked for a board that is there.
    refine h.book fun id hid => ?_
    rw [hid, Option.any_some, Option.isNone_iff_eq_none] at hboard
    exact Option.ne_none_iff_exists'.mp hboard
  | write id w =>
    dsimp only [Allowance.step] at hs
    split at hs
    · next r hr =>
      split at hs
      · contradiction
      next hreopens =>
      obtain ⟨row, hrow, rfl⟩ := Option.map_eq_some_iff.mp hs
      -- Of the statements of the queue only a recovery makes an ended run active again.
      refine h.written hr fun hactive => ?_
      by_cases hretry : ∃ accepted has_results, w = .retry accepted has_results
      · obtain ⟨accepted, has_results, rfl⟩ := hretry
        exact .inr (hok r hr)
      · refine .inl (active_of_run (Bool.eq_false_iff.mpr hreopens) (fun accepted has_results heq => ?_) hrow hactive)
        exact hretry ⟨accepted, has_results, heq⟩
    · contradiction
  | request k board_id dedupe_key =>
    dsimp only [Allowance.step] at hs
    split at hs
    · contradiction
    next hnew =>
    obtain rfl := Option.some.inj hs
    -- The new admission has read nothing.
    have hcases : ∀ {k' : ℕ} {a' : Admission},
        Function.update s.admissions k (some ⟨board_id, dedupe_key, .called⟩) k' = some a' →
          a'.phase = .called ∨ s.admissions k' = some a' := by
      intro k' a' ha'
      rw [Function.update_apply] at ha'
      split at ha'
      · exact .inl (Option.some.inj ha' ▸ rfl)
      · exact .inr ha'
    constructor
    case runs => exact h.runs
    case calls => exact h.calls
    case board =>
      intro k' a' b ha' hb
      rcases hcases ha' with hcalled | ha'
      · rw [hcalled] at hb
        contradiction
      · exact h.board k' a' b ha' hb
    case locked =>
      intro k' a' l ha' hl
      rcases hcases ha' with hcalled | ha'
      · rw [Admission.holds, hcalled] at hl
        contradiction
      · exact h.locked k' a' l ha' hl
    case clear =>
      intro k' a' ha' hlooked
      rcases hcases ha' with hcalled | ha'
      · rw [hcalled] at hlooked
        contradiction
      · exact h.clear k' a' ha' hlooked
    case covered =>
      intro k' a' plan now seen ha' hcovered
      rcases hcases ha' with hcalled | ha'
      · rw [hcalled] at hcovered
        contradiction
      · exact h.covered k' a' plan now seen ha' hcovered
    case seen =>
      intro k' a' plan now seen ha' hcovered
      rcases hcases ha' with hcalled | ha'
      · rw [hcalled] at hcovered
        contradiction
      · exact h.seen k' a' plan now seen ha' hcovered
    case began =>
      intro k' a' plan now ha' hbegan
      rcases hcases ha' with hcalled | ha'
      · rw [hcalled] at hbegan
        contradiction
      · exact h.began k' a' plan now ha' hbegan
    case one => exact h.one
  -- An event takes an admission on, where the lock that it asks for is free.
  | event k e =>
    dsimp only [Allowance.step] at hs
    split at hs
    · next a ha =>
      split at hs
      · next phase lock hadv =>
        split at hs
        · contradiction
        next hfree =>
        obtain rfl := Option.some.inj hs
        refine h.go ha (Advances.of_advance hadv).1 fun l hl => ?_
        rw [hl, Option.any_some] at hfree
        exact Option.not_isSome_iff_eq_none.mp hfree
      · contradiction
    · contradiction
  -- The commit ends an admission whose key is taken, and else inserts the run.
  | commit k taken =>
    dsimp only [Allowance.step] at hs
    split at hs
    · next a ha =>
      split at hs
      · next plan now seen hcovered =>
        split at hs
        · obtain rfl := Option.some.inj hs
          exact h.go ha (.returned (by rw [hcovered]; rfl) _ _) nofun
        · obtain rfl := Option.some.inj hs
          exact h.created ha hcovered _
      · contradiction
    · contradiction

end Steps

/-- Nothing has been admitted yet. -/
structure State.Fresh (s : State) : Prop where
  runs : s.runs = []
  calls : ∀ c ∈ s.calls, ∀ id, c.managed_board_id = some id → ∃ b, s.boards id = some b
  admissions : ∀ k, s.admissions k = none

/-- The invariant holds then. -/
theorem State.Fresh.inv {s : State} (h : s.Fresh) : s.Inv := by
  have hnone : ∀ (k : ℕ) (a : Admission), s.admissions k ≠ some a := by
    intro k a ha
    rw [h.admissions k] at ha
    contradiction
  constructor
  case runs =>
    rw [h.runs]
    exact fun r hr => absurd hr List.not_mem_nil
  case calls => exact h.calls
  case board => exact fun k a _ ha => absurd ha (hnone k a)
  case locked => exact fun k a _ ha => absurd ha (hnone k a)
  case clear => exact fun k a ha => absurd ha (hnone k a)
  case covered => exact fun k a _ _ _ ha => absurd ha (hnone k a)
  case seen => exact fun k a _ _ _ ha => absurd ha (hnone k a)
  case began => exact fun k a _ _ ha => absurd ha (hnone k a)
  case one =>
    rw [h.runs]
    intro i j r r' hr
    contradiction

/-- In every run whose recoveries do no harm a board has one active run at most. An admission that inserts a run finds
within the cap of its plan what was booked in the week before its transaction when it checked, with what all active
runs of the sponsor reserve, the new one included; so that what is booked at its commit exceeds the cap at most by
what was booked since. Any other step of an admission leaves the runs as they are, and after its end it has none. -/
theorem allowance_covers {s₀ s : State} (h₀ : s₀.Fresh) (hrun : Run step Unharmed s₀ s) :
    (∀ (i j : ℕ) (r r' : BoardRun), s.runs[i]? = some r → s.runs[j]? = some r' →
      r.managed_board_id = r'.managed_board_id → r.row.status.active = true → r'.row.status.active = true → i = j) ∧
    (∀ k taken s', step s (.commit k taken) = some s' → s'.runs ≠ s.runs →
      ∃ a plan now seen sponsor, s.admissions k = some a ∧ a.phase = .covered plan now seen ∧
        s'.runs = s.runs ++ [plan.run a.board_id a.dedupe_key] ∧ sponsorOf s'.boards a.board_id = some sponsor ∧
        ∀ cap : ℤ, plan.cap = some cap →
          (spent s'.boards sponsor now (s'.calls.take seen) + reserved s'.boards sponsor s'.runs : ℕ) ≤ cap ∧
          (spent s'.boards sponsor s'.clock s'.calls + reserved s'.boards sponsor s'.runs : ℕ) ≤
            cap + spent s'.boards sponsor s'.clock (s'.calls.drop seen)) ∧
    ∀ k act s', act.admission = some k → step s act = some s' →
      (s'.runs = s.runs ∨ (s'.admissions k).any (fun a => a.phase.queued) = true) ∧
      (s.admissions k).all (fun a => !a.phase.over) = true := by
  have hinv : s.Inv := hrun.invariant (I := State.Inv) h₀.inv fun _ _ _ hi hok hs => hi.step hok hs
  refine ⟨hinv.one, fun k taken s' hs hne => ?_, fun k act s' hact hs => ?_⟩
  -- The commit that adds a run found the cap kept when it checked.
  · dsimp only [step] at hs
    split at hs
    · next a ha =>
      split at hs
      · next plan now seen hcovered =>
        split at hs
        · obtain rfl := Option.some.inj hs
          exact absurd rfl hne
        · obtain rfl := Option.some.inj hs
          have hsponsor := hinv.board k a plan.board ha (by rw [hcovered]; rfl)
          refine ⟨a, plan, now, seen, plan.board.sponsor_user_id, ha, hcovered, rfl, hsponsor, fun cap hcap => ?_⟩
          have hcovers := hinv.covered k a plan now seen ha hcovered
          have hbegan := hinv.began k a plan now ha (by rw [hcovered]; rfl)
          -- What is booked now was booked then, or since then, or is older than a week by now.
          have hlate : spent s.boards plan.board.sponsor_user_id s.clock s.calls ≤
              spent s.boards plan.board.sponsor_user_id now (s.calls.take seen) +
                spent s.boards plan.board.sponsor_user_id s.clock (s.calls.drop seen) := spent_le hbegan seen
          rw [hcap, overBudget, Option.any_some, decide_eq_false_iff_not] at hcovers
          -- The new run is an active one of the sponsor's.
          have hnew : (plan.run a.board_id a.dedupe_key).counts s.boards plan.board.sponsor_user_id = true := by
            unfold BoardRun.counts
            rw [Bool.and_eq_true, decide_eq_true_eq]
            exact ⟨rfl, hsponsor⟩
          have hreserved : reserved s.boards plan.board.sponsor_user_id
              (s.runs ++ [plan.run a.board_id a.dedupe_key]) =
                reserved s.boards plan.board.sponsor_user_id s.runs + plan.reserved := by
            rw [reserved_append, if_pos hnew]
            rfl
          have hle : ∀ n : ℕ, n ≤ spent s.boards plan.board.sponsor_user_id now (s.calls.take seen) +
              spent s.boards plan.board.sponsor_user_id s.clock (s.calls.drop seen) →
                ((n + (reserved s.boards plan.board.sponsor_user_id s.runs + plan.reserved) : ℕ) : ℤ) ≤
                  cap + spent s.boards plan.board.sponsor_user_id s.clock (s.calls.drop seen) := by
            intro n hn
            omega
          dsimp only [State.go]
          rw [hreserved]
          exact ⟨by omega, hle _ hlate⟩
      · contradiction
    · contradiction
  -- An admission that goes on leaves the runs as they are.
  · cases act with
    | event k' e =>
      obtain rfl := Option.some.inj hact
      dsimp only [step] at hs
      split at hs
      · next a ha =>
        split at hs
        · next phase lock hadv =>
          split at hs
          · contradiction
          obtain rfl := Option.some.inj hs
          rw [ha, Option.all_some, (Advances.of_advance hadv).1.open_]
          exact ⟨.inl rfl, rfl⟩
        · contradiction
      · contradiction
    -- It ends with a run that was there already, or with the new one.
    | commit k' taken =>
      obtain rfl := Option.some.inj hact
      dsimp only [step] at hs
      split at hs
      · next a ha =>
        split at hs
        · next plan now seen hcovered =>
          rw [ha, Option.all_some, hcovered]
          split at hs
          · obtain rfl := Option.some.inj hs
            exact ⟨.inl rfl, rfl⟩
          · obtain rfl := Option.some.inj hs
            refine ⟨.inr ?_, rfl⟩
            dsimp only [State.go]
            rw [Function.update_self, Option.any_some]
            rfl
        · contradiction
      · contradiction
    | _ => contradiction

/-- A board of sponsor 7. -/
def plainBoard (id : ℕ) : Board where
  id := id
  sponsor_user_id := 7
  prompt := ""
  prompt_hash := ""
  requested_model := ""
  execution_mode := .managedFilter
  on_ambiguous := "keep"
  fail_closed := false
  bypass_sponsorship_filter := false
  criteria := ""
  title_gate := none
  revision := 1
  published := false
  sources := []

/-- Two boards of the sponsor, and nothing admitted. -/
def twoBoards : State where
  boards id := if id = 1 ∨ id = 2 then some (plainBoard id) else none
  runs := []
  calls := []
  clock := 0
  admissions _ := none
  locks _ := none

/-- A cap of 400 tokens, and one candidate, whose verdict reserves 321. -/
def oneCandidate : Found where
  groups := some ["sponsors"]
  access := none
  group_budgets := [some 400]
  provider := some "openai"
  server_key := true
  allowed := true
  eligible := true
  instructions := 0
  candidates := [⟨0, some 4⟩]

/-- The statements of an admission, up to its insert. -/
def checks (k board_id : ℕ) : List Act :=
  .request k board_id none :: [.key false, .board, .active, .plan oneCandidate, .afford, .upload true, .transaction,
    .sponsor, .lock, .active, .afford].map (.event k)

/-- A worker for the runs. -/
def takesRun : Write := .claim ⟨["run_managed_board_batch"], [], [], []⟩ "w" 1

/-- The act is not a recovery. -/
def Act.isRetry : Act → Bool
  | .write _ (.retry ..) => true
  | _ => false

/-- Without a recovery no harm is done. -/
theorem unharmed_of_not_retry (s : State) (act : Act) (h : act.isRetry = false) : Unharmed s act := by
  unfold Act.isRetry at h
  unfold Unharmed
  split
  · exact absurd h Bool.true_eq_false.mp
  · trivial

/-- Nothing is admitted for the two boards. -/
theorem twoBoards_fresh : twoBoards.Fresh :=
  ⟨rfl, fun _ hc => absurd hc List.not_mem_nil, fun _ => rfl⟩

/-- A run of one board ends, and the other board's is admitted. -/
theorem allowance_covers_second : ∃ s s', Run step Unharmed twoBoards s ∧ step s (.commit 1 false) = some s' ∧
    s'.runs.length = 2 ∧ reserved s'.boards 7 s'.runs ≤ 400 := by
  have hacts : (runList (guarded step fun _ act => act.isRetry = false) twoBoards
      (checks 0 1 ++ [.commit 0 false, .write 0 takesRun, .write 0 (.finish ⟨0, "w", 1⟩ true none 2)] ++
        checks 1 2)).any (fun s => (step s (.commit 1 false)).any fun s' =>
          s.runs.length = 1 && s'.runs.length = 2 && sponsorOf s'.boards 2 = some 7 &&
            s.admissions 1 = some ⟨2, none, .covered ⟨plainBoard 2, 321, some 400, 1⟩ 0 0⟩) = true := by
    decide +kernel
  obtain ⟨s, hrun, hs⟩ := exists_run_of_any hacts
  obtain ⟨s', hstep, hs'⟩ := (Option.any_eq_true _ _).mp hs
  simp only [Bool.and_eq_true, decide_eq_true_eq] at hs'
  obtain ⟨⟨⟨hbefore, hafter⟩, hsponsor⟩, hadmission⟩ := hs'
  have hrun' := (run_of_guarded hrun).mono unharmed_of_not_retry
  have hne : s'.runs ≠ s.runs := fun heq => by
    rw [heq, hbefore] at hafter
    contradiction
  obtain ⟨a, plan, now, seen, sponsor, ha, hcovered, -, hsponsor', hcap⟩ :=
    (allowance_covers twoBoards_fresh hrun').2.1 1 false s' hstep hne
  obtain rfl := Option.some.inj (hadmission.symm.trans ha)
  obtain ⟨rfl, rfl, rfl⟩ := Phase.covered.inj hcovered
  obtain rfl := Option.some.inj (hsponsor.symm.trans hsponsor')
  have hle := (hcap 400 rfl).1
  exact ⟨s, s', hrun', hstep, hafter, by omega⟩

/-- A run whose payload is gone is recovered while another one of its board is active: the two reserve more than the
cap of both plans. And a call is booked between the check of an admission and its insert, with no recovery at all:
what is booked and reserved at the commit exceeds the cap. -/
theorem allowance_exceeded :
    (∃ s s', Run step Always twoBoards s ∧ step s (.write 0 (.retry false false)) = some s' ∧
      (s'.runs.map fun r => (r.managed_board_id, r.row.status.active)) = [(1, true), (1, true)] ∧
      400 < reserved s'.boards 7 s'.runs) ∧
    ∃ s s', Run step Unharmed twoBoards s ∧ step s (.commit 0 false) = some s' ∧ s'.runs.length = 1 ∧
      s.admissions 0 = some ⟨1, none, .covered ⟨plainBoard 1, 321, some 400, 1⟩ 0 0⟩ ∧
      400 < spent s'.boards 7 s'.clock s'.calls + reserved s'.boards 7 s'.runs := by
  constructor
  · have hacts : (runList step twoBoards (checks 0 1 ++ [.commit 0 false, .write 0 takesRun,
        .write 0 (.failUnavailable ⟨0, "w", 1⟩ "Payload unavailable from object storage" 2)] ++ checks 1 1 ++
        [.commit 1 false])).any (fun s => (step s (.write 0 (.retry false false))).any fun s' =>
          (s'.runs.map fun r => (r.managed_board_id, r.row.status.active)) = [(1, true), (1, true)] &&
            400 < reserved s'.boards 7 s'.runs) = true := by
      decide +kernel
    obtain ⟨s, hrun, hs⟩ := exists_run_of_any hacts
    obtain ⟨s', hstep, hs'⟩ := (Option.any_eq_true _ _).mp hs
    rw [Bool.and_eq_true, decide_eq_true_eq, decide_eq_true_eq] at hs'
    exact ⟨s, s', hrun, hstep, hs'⟩
  · have hacts : (runList (guarded step fun _ act => act.isRetry = false) twoBoards
        (checks 0 1 ++ [.book ⟨0, 100, true, none, some 2⟩])).any (fun s => (step s (.commit 0 false)).any fun s' =>
          s'.runs.length = 1 && s.admissions 0 = some ⟨1, none, .covered ⟨plainBoard 1, 321, some 400, 1⟩ 0 0⟩ &&
            400 < spent s'.boards 7 s'.clock s'.calls + reserved s'.boards 7 s'.runs) = true := by
      decide +kernel
    obtain ⟨s, hrun, hs⟩ := exists_run_of_any hacts
    obtain ⟨s', hstep, hs'⟩ := (Option.any_eq_true _ _).mp hs
    simp only [Bool.and_eq_true, decide_eq_true_eq] at hs'
    exact ⟨s, s', (run_of_guarded hrun).mono unharmed_of_not_retry, hstep, hs'.1.1, hs'.1.2, hs'.2⟩

end JobScripts.Queue.Allowance

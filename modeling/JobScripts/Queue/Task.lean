import Mathlib.Algebra.Order.Ring.Int
import Mathlib.Data.Int.Basic
import Mathlib.Data.List.Basic

/-!
# The task row and every statement that writes it

A row of `tasks` (`src/src/api/orm/platform.py`) and the statements of the worker, the task
runtime, the operator's payload recovery and the administrators' cancellation, each as the `UPDATE`
it is: a function from a row to the row written, or `none` when its `WHERE` does not hold of the
row. The counters are integers, so that the `GREATEST(attempts - 1, 0)` of three statements is
written as the source has it.

The columns are those that a statement reads or writes, and the payload keeps by name the keys that
the runtime reads (`batch_ids`, `batch_collection_checkpointed`, `payload_recovery`, `host`,
`source`); what a handler keeps there for itself is `rest`.
-/

namespace JobScripts.Queue

/-- Seconds on the database clock. -/
abbrev Time := ℕ

/-- The statuses of a task. -/
inductive Status
  | pending | running | awaitingBatch | waiting | done | failed | cancelled
  deriving DecidableEq

/-- The `progress` column. -/
structure Progress where
  done : ℤ
  total : ℤ
  label : String
  extra : List (String × ℤ) := []
  deriving DecidableEq

/-- The `payload` column. -/
structure Payload where
  /-- `payload->'batch_ids'`: the provider batches that the task waits on, if the key is there. -/
  batch_ids : Option (List String) := none
  /-- `payload->'batch_collection_checkpointed'` is true. -/
  batch_collection_checkpointed : Bool := false
  /-- `payload_recovery.MARKER` names an unavailable payload. -/
  payload_recovery : Bool := false
  host : Option String := none
  source : Option String := none
  /-- The keys that handlers keep for themselves. -/
  rest : List (String × String) := []
  deriving DecidableEq

/-- `pending_batch_ids`: the batch ids that the payload names. -/
def Payload.pendingBatchIds (p : Payload) : List String := p.batch_ids.getD []

/-- A row of `tasks`. -/
structure Task where
  kind : String
  payload : Payload := {}
  parent_id : Option ℕ := none
  status : Status := .pending
  attempts : ℤ := 0
  batch_resumes : ℤ := 0
  worker : Option String := none
  last_heartbeat : Option Time := none
  progress : Option Progress := none
  progress_at : Option Time := none
  not_before : Option Time := none
  error : Option String := none
  started_at : Option Time := none
  finished_at : Option Time := none
  deriving DecidableEq

/-- `RETRIES_SPENT`: the claims that were not resumes of a parked batch wait. -/
def Task.retriesSpent (t : Task) : ℤ := t.attempts - t.batch_resumes

/-- `TaskClaim`: the stamp of a claim. -/
structure TaskClaim where
  task_id : ℕ
  worker : String
  attempts : ℤ
  deriving DecidableEq

/-- The row carries the claim's stamp. -/
def TaskClaim.stamps (c : TaskClaim) (t : Task) : Bool :=
  t.worker == some c.worker && t.attempts == c.attempts

/-- `claim_guard`: with no current claim, or with a claim of another task, a lifecycle write is
unrestricted; otherwise the row must carry the claim's stamp. -/
def claimGuard (claim : Option TaskClaim) (id : ℕ) (t : Task) : Bool :=
  match claim with
  | none => true
  | some c => if c.task_id ≠ id then true else c.stamps t

/-! ## Claiming and reaping -/

/-- What `claim_task` filters by: the kinds with a handler, the worker's allowlist and denylist
(with the kinds too heavy for it now), and the hosts whose slot is closed. -/
structure ClaimFilter where
  known : List String
  kinds : List String := []
  exclude : List String := []
  closed_hosts : List String := []

/-- `_kinds_clause`: the kind of the task is one that is asked for, and none that is left out. -/
def kindsClause (f : ClaimFilter) (t : Task) : Bool :=
  (f.kinds.isEmpty || f.kinds.contains t.kind) &&
    (f.exclude.isEmpty || !f.exclude.contains t.kind)

/-- The `WHERE` of `claim_task`'s selection. Which of the rows it holds of is claimed depends on
`CLAIM_ORDER` and on the rows other workers hold locked (`SKIP LOCKED`). -/
def claimable (f : ClaimFilter) (now : Time) (t : Task) : Bool :=
  t.status == .pending && f.known.contains t.kind && kindsClause f t &&
    t.not_before.all (· ≤ now) &&
    !(t.payload.host.any fun h => f.closed_hosts.contains h)

/-- `claim_task`: a task that can be claimed is running from now on, on one more attempt. -/
def claimTask (f : ClaimFilter) (worker : String) (now : Time) (t : Task) : Option Task :=
  if claimable f now t then
    some { t with
      status := .running
      started_at := some now
      last_heartbeat := some now
      attempts := t.attempts + 1
      worker := some worker }
  else none

/-- The configuration that `reap_stale_tasks` reads. -/
structure ReapLimits where
  /-- `task_max_attempts`: the attempts after which a task fails. -/
  attempts : ℤ
  /-- `task_heartbeat_timeout_minutes`: how long a task may be silent. -/
  minutes : ℕ

/-- `COALESCE(last_heartbeat, started_at) < now() - make_interval(mins => minutes)`, false when
both times are null. -/
def stale (l : ReapLimits) (now : Time) (t : Task) : Bool :=
  (t.last_heartbeat.or t.started_at).any fun beat => beat + 60 * l.minutes < now

/-- The first statement of `reap_stale_tasks`. -/
def reapRequeue (l : ReapLimits) (now : Time) (t : Task) : Option Task :=
  if t.status == .running && decide (t.retriesSpent < l.attempts) && stale l now t then
    some { t with status := .pending, started_at := none, last_heartbeat := none }
  else none

/-- The second statement of `reap_stale_tasks`. -/
def reapFail (l : ReapLimits) (now : Time) (t : Task) : Option Task :=
  if t.status == .running && decide (l.attempts ≤ t.retriesSpent) && stale l now t then
    some { t with
      status := .failed
      finished_at := some now
      error := some ("worker lost (heartbeat timeout after " ++ toString t.retriesSpent
        ++ " attempts)") }
  else none

/-! ## The writes of the worker that holds a claim -/

/-- The heartbeat of `run_held`'s liveness thread. -/
def heartbeat (c : TaskClaim) (now : Time) (t : Task) : Option Task :=
  if t.status == .running && c.stamps t then some { t with last_heartbeat := some now } else none

/-- `_write_progress`; `set_progress` passes `running_only` false and no payload, `checkpoint` passes
it true and merges the handler's keys. -/
def writeProgress (claim : Option TaskClaim) (id : ℕ) (progress : Progress) (running_only : Bool)
    (keys : List (String × String)) (now : Time) (t : Task) : Option Task :=
  if (!running_only || t.status == .running) && claimGuard claim id t then
    some { t with
      payload := { t.payload with
        rest := keys ++ t.payload.rest.filter fun kv => !(keys.map Prod.fst).contains kv.1 }
      progress := some progress
      last_heartbeat := some now
      progress_at := if t.progress = some progress then t.progress_at else some now }
  else none

/-- `finish`: only a running task ends, and only the end `done` drops the batch ids. -/
def finish (claim : Option TaskClaim) (id : ℕ) (status : Status) (error : Option String)
    (now : Time) (t : Task) : Option Task :=
  if t.status == .running && claimGuard claim id t then
    some { t with
      status := status
      error := error
      finished_at := some now
      payload := if status = .done then { t.payload with batch_ids := none } else t.payload }
  else none

/-- `fail_unavailable_payload`: a running task fails, is marked for recovery, and gets its attempt back. -/
def failUnavailablePayload (claim : Option TaskClaim) (id : ℕ) (error : String) (now : Time)
    (t : Task) : Option Task :=
  if t.status == .running && claimGuard claim id t then
    some { t with
      status := .failed
      error := some error
      finished_at := some now
      attempts := max (t.attempts - 1) 0
      payload := { t.payload with payload_recovery := true } }
  else none

/-- The give-back of a `Deferred` handler in `run_held`. -/
def deferTask (c : TaskClaim) (not_before : Time) (t : Task) : Option Task :=
  if t.status == .running && c.stamps t then
    some { t with
      status := .pending
      started_at := none
      last_heartbeat := none
      worker := none
      attempts := max (t.attempts - 1) 0
      not_before := some not_before }
  else none

/-- The requeue of a transient error in `run_held`. -/
def requeueTransient (c : TaskClaim) (error : String) (t : Task) : Option Task :=
  if t.status == .running && c.stamps t then
    some { t with
      status := .pending
      started_at := none
      last_heartbeat := none
      error := some error }
  else none

/-- `_REQUEUE_ON_EXIT_SQL`, the give-back of a graceful exit. -/
def requeueOnExit (c : TaskClaim) (t : Task) : Option Task :=
  if t.status == .running && c.stamps t then
    some { t with
      status := .pending
      attempts := max (t.attempts - 1) 0
      started_at := none
      last_heartbeat := none }
  else none

/-- `park_waiting`: a running task waits for its chunks, of which none is done. -/
def parkWaiting (claim : Option TaskClaim) (id : ℕ) (total : ℤ) (label : String) (t : Task) :
    Option Task :=
  if t.status == .running && claimGuard claim id t then
    some { t with status := .waiting, progress := some ⟨0, total, label, []⟩ }
  else none

/-! ## Batch ids -/

/-- `_record_batch_ids`: appends the ids that the payload does not name yet. It is not guarded. -/
def recordBatchIds (ids : List String) (t : Task) : Task :=
  { t with payload := { t.payload with
      batch_ids := some (t.payload.pendingBatchIds ++
        ids.filter fun v => !t.payload.pendingBatchIds.contains v) } }

/-- The guarded statement of `park_awaiting_batch`. -/
def parkStatus (claim : Option TaskClaim) (id : ℕ) (t : Task) : Option Task :=
  if t.status == .running && claimGuard claim id t then
    some { t with status := .awaitingBatch, started_at := none, last_heartbeat := none }
  else none

/-- `park_awaiting_batch`: the ids are recorded whoever holds the claim, then the row is parked if
the claim still holds; both in one transaction. The second component is what it returns. -/
def parkAwaitingBatch (claim : Option TaskClaim) (id : ℕ) (ids : List String) (t : Task) :
    Task × Bool :=
  match parkStatus claim id (recordBatchIds ids t) with
  | some t' => (t', true)
  | none => (recordBatchIds ids t, false)

/-- What `merge_payload` sets: the keys of `batch_results.checkpoint`, or a handler's own. -/
structure PayloadPatch where
  batch_ids : Option (List String) := none
  batch_collection_checkpointed : Bool := false
  rest : List (String × String) := []

/-- `merge_payload` (no caller passes `drop`). It is not guarded. -/
def mergePayload (data : PayloadPatch) (t : Task) : Task :=
  { t with payload := { t.payload with
      batch_ids := data.batch_ids.or t.payload.batch_ids
      batch_collection_checkpointed :=
        data.batch_collection_checkpointed || t.payload.batch_collection_checkpointed
      rest := data.rest ++
        t.payload.rest.filter fun kv => !(data.rest.map Prod.fst).contains kv.1 } }

/-- `resume_parked`: a task that was parked for a batch is pending again, on one more resume. -/
def resumeParked (t : Task) : Option Task :=
  if t.status == .awaitingBatch then
    some { t with
      status := .pending
      started_at := none
      last_heartbeat := none
      batch_resumes := t.batch_resumes + 1 }
  else none

/-! ## Recovery, parents and cancellation -/

/-- The row's part of `payload_recovery.retry`: it is failed, marked, and not a provider ledger
(`accepted`) without replay state (`has_results` says whether receipts are held). -/
def retry (accepted has_results : Bool) (t : Task) : Option Task :=
  let replayable := !t.payload.pendingBatchIds.isEmpty ||
    t.payload.batch_collection_checkpointed || has_results
  if t.status == .failed && t.payload.payload_recovery && !(accepted && !replayable) then
    some { t with
      status := .pending
      payload := { t.payload with payload_recovery := false }
      error := none
      finished_at := none
      started_at := none
      last_heartbeat := none
      worker := none }
  else none

/-- The pattern of `_recoverable_parent`, `[1-9][0-9]* chunk\(s\) failed`. -/
def chunksFailed (error : String) : Bool :=
  let (digits, tail) := error.toList.span Char.isDigit
  digits.head?.any (· != '0') && tail == " chunk(s) failed".toList

/-- The parent's part of `payload_recovery.retry`: `_recoverable_parent` let it through, and it had
failed. -/
def reopenParent (t : Task) : Option Task :=
  if t.status == .failed && t.error.any chunksFailed then
    some { t with status := .waiting, error := none, finished_at := none }
  else none

/-- The write of `maybe_finalize_parent`, given the number of failed chunks. -/
def finalizeParent (n_failed : ℕ) (now : Time) (t : Task) : Option Task :=
  if t.status == .waiting then
    some { t with
      status := if n_failed = 0 then .done else .failed
      error := if n_failed = 0 then none else some (toString n_failed ++ " chunk(s) failed")
      finished_at := some now }
  else none

/-- `task_admission.ACTIVE_STATUSES`, which `CANCELLABLE` lists. -/
def Status.active : Status → Bool
  | .pending | .running | .awaitingBatch | .waiting => true
  | .done | .failed | .cancelled => false

/-- `queue.cancel` on a row that its filters select. -/
def cancel (now : Time) (t : Task) : Option Task :=
  if t.status.active then
    some { t with
      status := .cancelled, error := some "cancelled by admin", finished_at := some now }
  else none

/-- The first statement of `reconcile_chunks`, on a chunk of a cancelled parent. -/
def reconcileChunk (now : Time) (t : Task) : Option Task :=
  if t.status == .pending then
    some { t with
      status := .cancelled, error := some "parent cancelled", finished_at := some now }
  else none

/-- `enqueue`: a new row. No caller's payload holds the recovery marker or a batch id. -/
def enqueue (kind : String) (host source : Option String) (rest : List (String × String))
    (parent_id : Option ℕ) : Task :=
  { kind, payload := { host, source, rest }, parent_id }

end JobScripts.Queue

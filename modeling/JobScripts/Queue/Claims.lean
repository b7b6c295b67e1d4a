import JobScripts.Lib.Run
import JobScripts.Queue.Task

/-!
# Claims over any interleaving

The queue as a whole: the table of tasks, the executions that hold a claim, and every statement of
`Queue/Task.lean` run against any row at any time, by any number of workers. An execution starts
with `claim_task` and stays in `executing` until it gives its claim back or dies, so a worker that
the reaper or an administrator took the task from is still there and may still write.

`Effect` says once what one statement can do to the columns that carry ownership and the retry
budget. Two invariants follow from it, each by one step lemma and the rule for runs. `Fenced`
relates `attempts` to the stamps of all outstanding claims: it is at least each of them, and above
all but the newest while the task runs (`lost_claim_cannot_act`). `Budget` relates
`attempts - batch_resumes` to the task's losses, a ghost counter of the requeues that a reap or a
transient error caused (`retry_budget_counts_losses`).
-/

namespace JobScripts.Queue

open Lib

/-! ## The statements and what each can do -/

/-- A statement run against one row. The guarded ones name the claim they are run under. -/
inductive Write
  | claim (f : ClaimFilter) (worker : String) (now : Time)
  | reapRequeue (l : ReapLimits) (now : Time)
  | reapFail (l : ReapLimits) (now : Time)
  | heartbeat (c : TaskClaim) (now : Time)
  | progress (c : TaskClaim) (p : Progress) (running_only : Bool) (keys : List (String × String))
      (now : Time)
  | finish (c : TaskClaim) (done : Bool) (error : Option String) (now : Time)
  | failUnavailable (c : TaskClaim) (error : String) (now : Time)
  | defer (c : TaskClaim) (not_before : Time)
  | requeueTransient (c : TaskClaim) (error : String)
  | requeueOnExit (c : TaskClaim)
  | parkWaiting (c : TaskClaim) (total : ℤ) (label : String)
  | park (c : TaskClaim) (ids : List String)
  | record (ids : List String)
  | merge (data : PayloadPatch)
  | resumeParked
  | retry (accepted has_results : Bool)
  | reopenParent
  | finalizeParent (n_failed : ℕ) (now : Time)
  | cancel (now : Time)
  | reconcile (now : Time)

/-- The row that a statement leaves, `none` when it matches no row. A guarded statement is run by
the execution that holds the claim, against the task it claimed. -/
def Write.run : Write → Task → Option Task
  | .claim f w now => claimTask f w now
  | .reapRequeue l now => Queue.reapRequeue l now
  | .reapFail l now => Queue.reapFail l now
  | .heartbeat c now => Queue.heartbeat c now
  | .progress c p r keys now => writeProgress (some c) c.task_id p r keys now
  | .finish c done e now => Queue.finish (some c) c.task_id (if done then .done else .failed) e now
  | .failUnavailable c e now => failUnavailablePayload (some c) c.task_id e now
  | .defer c nb => deferTask c nb
  | .requeueTransient c e => Queue.requeueTransient c e
  | .requeueOnExit c => Queue.requeueOnExit c
  | .parkWaiting c total label => Queue.parkWaiting (some c) c.task_id total label
  | .park c ids => fun t => some (parkAwaitingBatch (some c) c.task_id ids t).1
  | .record ids => fun t => some (recordBatchIds ids t)
  | .merge data => fun t => some (mergePayload data t)
  | .resumeParked => Queue.resumeParked
  | .retry a r => Queue.retry a r
  | .reopenParent => Queue.reopenParent
  | .finalizeParent n now => Queue.finalizeParent n now
  | .cancel now => Queue.cancel now
  | .reconcile now => reconcileChunk now

/-- The claim that a guarded statement is run under. -/
def Write.guard : Write → Option TaskClaim
  | .heartbeat c _ | .progress c _ _ _ _ | .finish c _ _ _ | .failUnavailable c _ _ | .defer c _
  | .requeueTransient c _ | .requeueOnExit c | .parkWaiting c _ _ | .park c _ => some c
  | _ => none

/-- The statements after which the worker has stopped executing the claim that it gave back. -/
def Write.givesBack : Write → Bool
  | .failUnavailable .. | .defer .. | .requeueOnExit .. => true
  | _ => false

/-- The requeues that count against the retry budget: a reap, and a transient error. -/
def Write.isLoss : Write → Bool
  | .reapRequeue .. | .requeueTransient .. => true
  | _ => false

/-- The statements that no claim guards, other than the claim itself: those of the reaper, the
poller, the operator, an administrator and a batch event hook. -/
def Write.unguarded : Write → Bool
  | .reapRequeue .. | .reapFail .. | .record .. | .merge .. | .resumeParked | .retry ..
  | .reopenParent | .finalizeParent .. | .cancel .. | .reconcile .. => true
  | _ => false

/-- `claimGuard` under the claim of the same task is the stamp. -/
@[simp]
theorem claimGuard_self (c : TaskClaim) (t : Task) :
    claimGuard (some c) c.task_id t = c.stamps t := by
  simp [claimGuard]

/-- The stamp as equations. -/
theorem TaskClaim.stamps_iff (c : TaskClaim) (t : Task) :
    c.stamps t = true ↔ t.worker = some c.worker ∧ t.attempts = c.attempts := by
  simp [TaskClaim.stamps]

/-- Recording batch ids does not touch the stamp. -/
@[simp]
theorem stamps_recordBatchIds (c : TaskClaim) (ids : List String) (t : Task) :
    c.stamps (recordBatchIds ids t) = c.stamps t := rfl

/-- What `park_awaiting_batch` returns: whether the row was running under the claim. -/
theorem parkAwaitingBatch_snd (c : TaskClaim) (ids : List String) (t : Task) :
    (parkAwaitingBatch (some c) c.task_id ids t).2 = (t.status == .running && c.stamps t) := by
  have hs : (recordBatchIds ids t).status = t.status := rfl
  unfold parkAwaitingBatch parkStatus
  rw [claimGuard_self, stamps_recordBatchIds, hs]
  cases t.status == .running && c.stamps t <;> rfl

/-- What a statement can do to the status, the stamp, the counters and the recovery marker. The
constructors name the moves of the source; the payload's other keys, the times and the texts are
not restricted. -/
inductive Effect (w : Write) (t t' : Task) : Prop
  /-- `claim_task`. -/
  | claimed (f : ClaimFilter) (worker : String) (now : Time) (hw : w = .claim f worker now)
      (hs : t.status = .pending) (hs' : t'.status = .running) (ha : t'.attempts = t.attempts + 1)
      (hwk : t'.worker = some worker) (hr : t'.batch_resumes = t.batch_resumes)
      (hm : t'.payload.payload_recovery = t.payload.payload_recovery)
      (hl : w.isLoss = false)
  /-- A requeue that keeps the claim's number: a reap, or a transient error. -/
  | lost (hw : w.isLoss = true) (hs : t.status = .running) (hs' : t'.status = .pending)
      (ha : t'.attempts = t.attempts) (hr : t'.batch_resumes = t.batch_resumes)
      (hm : t'.payload.payload_recovery = t.payload.payload_recovery)
  /-- A requeue that gives the claim's number back: deferred, or a graceful exit. -/
  | gaveBack (hw : w.givesBack = true) (hs : t.status = .running) (hs' : t'.status = .pending)
      (ha : t'.attempts = max (t.attempts - 1) 0) (hr : t'.batch_resumes = t.batch_resumes)
      (hm : t'.payload.payload_recovery = t.payload.payload_recovery) (hl : w.isLoss = false)
  /-- `fail_unavailable_payload`. -/
  | unavailable (hw : w.givesBack = true) (hs : t.status = .running) (hs' : t'.status = .failed)
      (ha : t'.attempts = max (t.attempts - 1) 0) (hr : t'.batch_resumes = t.batch_resumes)
      (hm : t'.payload.payload_recovery = true) (hl : w.isLoss = false)
  /-- `park_awaiting_batch`, parked. -/
  | parked (hs : t.status = .running) (hs' : t'.status = .awaitingBatch)
      (ha : t'.attempts = t.attempts) (hr : t'.batch_resumes = t.batch_resumes)
      (hm : t'.payload.payload_recovery = t.payload.payload_recovery) (hl : w.isLoss = false)
  /-- `resume_parked`. -/
  | resumed (hs : t.status = .awaitingBatch) (hs' : t'.status = .pending)
      (ha : t'.attempts = t.attempts) (hr : t'.batch_resumes = t.batch_resumes + 1)
      (hm : t'.payload.payload_recovery = t.payload.payload_recovery) (hl : w.isLoss = false)
  /-- `payload_recovery.retry`. -/
  | recovered (hs : t.status = .failed) (hm : t.payload.payload_recovery = true)
      (hs' : t'.status = .pending) (ha : t'.attempts = t.attempts)
      (hr : t'.batch_resumes = t.batch_resumes) (hm' : t'.payload.payload_recovery = false)
      (hl : w.isLoss = false)
  /-- An end, or a parent's wait: the task is in none of the three statuses that lead to a claim. -/
  | ended (hs' : t'.status ∉ [Status.pending, .running, .awaitingBatch])
      (ha : t'.attempts = t.attempts) (hr : t'.batch_resumes = t.batch_resumes)
      (hm : t'.payload.payload_recovery = t.payload.payload_recovery) (hl : w.isLoss = false)
  /-- A write of the payload, the progress or the heartbeat only. -/
  | touched (hs' : t'.status = t.status) (ha : t'.attempts = t.attempts)
      (hwk : t'.worker = t.worker) (hr : t'.batch_resumes = t.batch_resumes)
      (hm : t'.payload.payload_recovery = t.payload.payload_recovery) (hl : w.isLoss = false)

/-- Every statement that matches a row has one of the effects. -/
theorem Write.run_effect {w : Write} {t t' : Task} (h : w.run t = some t') : Effect w t t' := by
  cases w with
  -- The one statement that takes a row.
  | claim f worker now =>
    simp only [Write.run, claimTask, Option.ite_none_right_eq_some, Option.some.injEq] at h
    obtain ⟨hc, rfl⟩ := h
    simp only [claimable, Bool.and_eq_true, beq_iff_eq] at hc
    exact .claimed f worker now rfl hc.1.1.1.1 rfl rfl rfl rfl rfl rfl
  -- The statements that take it back, and those of its worker.
  | reapRequeue l now =>
    simp only [Write.run, Queue.reapRequeue, Option.ite_none_right_eq_some, Option.some.injEq,
      Bool.and_eq_true, beq_iff_eq] at h
    obtain ⟨hc, rfl⟩ := h
    exact .lost rfl hc.1.1 rfl rfl rfl rfl
  | reapFail l now =>
    simp only [Write.run, Queue.reapFail, Option.ite_none_right_eq_some, Option.some.injEq] at h
    obtain ⟨-, rfl⟩ := h
    exact .ended (by simp) rfl rfl rfl rfl
  | heartbeat c now =>
    simp only [Write.run, Queue.heartbeat, Option.ite_none_right_eq_some, Option.some.injEq] at h
    obtain ⟨-, rfl⟩ := h
    exact .touched rfl rfl rfl rfl rfl rfl
  | progress c p r keys now =>
    simp only [Write.run, writeProgress, Option.ite_none_right_eq_some, Option.some.injEq] at h
    obtain ⟨-, rfl⟩ := h
    exact .touched rfl rfl rfl rfl rfl rfl
  | finish c done e now =>
    simp only [Write.run, Queue.finish, Option.ite_none_right_eq_some, Option.some.injEq] at h
    obtain ⟨-, rfl⟩ := h
    refine .ended ?_ rfl rfl ?_ rfl
    · cases done <;> simp
    · cases done <;> rfl
  -- The attempt is given back where nobody failed.
  | failUnavailable c e now =>
    simp only [Write.run, failUnavailablePayload, Option.ite_none_right_eq_some,
      Option.some.injEq, Bool.and_eq_true, beq_iff_eq] at h
    obtain ⟨hc, rfl⟩ := h
    exact .unavailable rfl hc.1 rfl rfl rfl rfl rfl
  | defer c nb =>
    simp only [Write.run, deferTask, Option.ite_none_right_eq_some, Option.some.injEq,
      Bool.and_eq_true, beq_iff_eq] at h
    obtain ⟨hc, rfl⟩ := h
    exact .gaveBack rfl hc.1 rfl rfl rfl rfl rfl
  | requeueTransient c e =>
    simp only [Write.run, Queue.requeueTransient, Option.ite_none_right_eq_some,
      Option.some.injEq, Bool.and_eq_true, beq_iff_eq] at h
    obtain ⟨hc, rfl⟩ := h
    exact .lost rfl hc.1 rfl rfl rfl rfl
  | requeueOnExit c =>
    simp only [Write.run, Queue.requeueOnExit, Option.ite_none_right_eq_some, Option.some.injEq,
      Bool.and_eq_true, beq_iff_eq] at h
    obtain ⟨hc, rfl⟩ := h
    exact .gaveBack rfl hc.1 rfl rfl rfl rfl rfl
  -- A task that waits for its chunks is done with its claim.
  | parkWaiting c total label =>
    simp only [Write.run, Queue.parkWaiting, Option.ite_none_right_eq_some,
      Option.some.injEq] at h
    obtain ⟨-, rfl⟩ := h
    exact .ended (by simp) rfl rfl rfl rfl
  -- A park writes the ids of its batches, and the status only where the claim still holds.
  | park c ids =>
    simp only [Write.run, Option.some.injEq] at h
    subst h
    unfold parkAwaitingBatch
    split
    · next t'' hp =>
      simp only [parkStatus, Option.ite_none_right_eq_some, Option.some.injEq, Bool.and_eq_true,
        beq_iff_eq] at hp
      obtain ⟨hc, rfl⟩ := hp
      exact .parked hc.1 rfl rfl rfl rfl rfl
    · exact .touched rfl rfl rfl rfl rfl rfl
  | record ids =>
    simp only [Write.run, Option.some.injEq] at h
    subst h
    exact .touched rfl rfl rfl rfl rfl rfl
  | merge data =>
    simp only [Write.run, Option.some.injEq] at h
    subst h
    exact .touched rfl rfl rfl rfl rfl rfl
  -- What others do to a row that nobody works on.
  | resumeParked =>
    simp only [Write.run, Queue.resumeParked, Option.ite_none_right_eq_some, Option.some.injEq,
      beq_iff_eq] at h
    obtain ⟨hs, rfl⟩ := h
    exact .resumed hs rfl rfl rfl rfl rfl
  | retry a r =>
    simp only [Write.run, Queue.retry, Option.ite_none_right_eq_some, Option.some.injEq,
      Bool.and_eq_true, beq_iff_eq] at h
    obtain ⟨hc, rfl⟩ := h
    exact .recovered hc.1.1 hc.1.2 rfl rfl rfl rfl rfl
  | reopenParent =>
    simp only [Write.run, Queue.reopenParent, Option.ite_none_right_eq_some,
      Option.some.injEq] at h
    obtain ⟨-, rfl⟩ := h
    exact .ended (by simp) rfl rfl rfl rfl
  | finalizeParent n now =>
    simp only [Write.run, Queue.finalizeParent, Option.ite_none_right_eq_some,
      Option.some.injEq] at h
    obtain ⟨-, rfl⟩ := h
    refine .ended ?_ rfl rfl rfl rfl
    dsimp only
    split <;> simp
  | cancel now =>
    simp only [Write.run, Queue.cancel, Option.ite_none_right_eq_some, Option.some.injEq] at h
    obtain ⟨-, rfl⟩ := h
    exact .ended (by simp) rfl rfl rfl rfl
  | reconcile now =>
    simp only [Write.run, reconcileChunk, Option.ite_none_right_eq_some, Option.some.injEq] at h
    obtain ⟨-, rfl⟩ := h
    exact .ended (by simp) rfl rfl rfl rfl

/-- An unguarded statement gives no claim back. -/
theorem Write.givesBack_of_unguarded {w : Write} (h : w.unguarded = true) :
    w.givesBack = false := by
  cases w <;> first | rfl | simp [Write.unguarded] at h

/-- A statement is the claim, unguarded, or guarded by some claim. -/
theorem Write.not_claim_of_unguarded {w : Write} (h : w.unguarded = true) (f : ClaimFilter)
    (worker : String) (now : Time) : w ≠ .claim f worker now := by
  rintro rfl
  simp [Write.unguarded] at h

/-- A guarded statement is not the claim. -/
theorem Write.not_claim_of_guard {w : Write} {c : TaskClaim} (h : w.guard = some c)
    (f : ClaimFilter) (worker : String) (now : Time) : w ≠ .claim f worker now := by
  rintro rfl
  simp [Write.guard] at h

/-- A guarded statement matches only a row that carries the claim's stamp, save that
`park_awaiting_batch` records its ids on any row. -/
theorem Write.run_of_not_stamps {w : Write} {c : TaskClaim} {t : Task} (hg : w.guard = some c)
    (hs : c.stamps t = false) :
    w.run t = none ∨
      ∃ ids, w = .park c ids ∧ parkAwaitingBatch (some c) c.task_id ids t =
        (recordBatchIds ids t, false) := by
  cases w <;> simp only [Write.guard, Option.some.injEq, reduceCtorEq] at hg <;> subst hg
  case park ids => exact .inr ⟨ids, rfl, by simp [parkAwaitingBatch, parkStatus, hs]⟩
  case heartbeat => simp [Write.run, Queue.heartbeat, hs]
  case progress => simp [Write.run, writeProgress, hs]
  case finish => simp [Write.run, Queue.finish, hs]
  case failUnavailable => simp [Write.run, failUnavailablePayload, hs]
  case defer => simp [Write.run, deferTask, hs]
  case requeueTransient => simp [Write.run, Queue.requeueTransient, hs]
  case requeueOnExit => simp [Write.run, Queue.requeueOnExit, hs]
  case parkWaiting => simp [Write.run, Queue.parkWaiting, hs]

/-! ## The queue -/

/-- An execution that holds a claim: the order in which the claim was issued, its stamp, and the
`retries_spent` that `claim_task` returned with it. -/
structure Execution where
  seq : ℕ
  claim : TaskClaim
  retries_spent : ℤ
  deriving DecidableEq

/-- A row with its history: the losses so far, and the newest claim issued on it. -/
structure Tracked where
  row : Task
  losses : ℕ := 0
  newest : Option ℕ := none

/-- The row after a statement, unchanged when the statement does not match it. -/
def Tracked.apply (w : Write) (tr : Tracked) : Tracked :=
  match w.run tr.row with
  | none => tr
  | some t' => { tr with row := t', losses := tr.losses + if w.isLoss then 1 else 0 }

/-- The queue: the table, the executions that may still write, and the number of claims issued. -/
structure State where
  tasks : ℕ → Option Tracked
  executing : List Execution
  issued : ℕ

/-- The empty queue. -/
def State.empty : State := ⟨fun _ => none, [], 0⟩

/-- What can happen next. -/
inductive Act
  /-- `enqueue` of a new task. -/
  | enqueue (id : ℕ) (kind : String) (host source : Option String)
      (rest : List (String × String)) (parent_id : Option ℕ)
  /-- `claim_task` takes a row. -/
  | claim (id : ℕ) (f : ClaimFilter) (worker : String) (now : Time)
  /-- An unguarded statement, against all the rows that its own selection names. -/
  | sweep (sel : ℕ → Bool) (w : Write)
  /-- A guarded statement of an execution, against the task it claimed. -/
  | act (e : Execution) (w : Write)
  /-- An execution ends without a write: a crash, or a handler that parked. -/
  | stop (e : Execution)

/-- One step of the queue. -/
def step (s : State) : Act → Option State
  | .enqueue id kind host source rest parent_id =>
    if s.tasks id = none then
      some { s with
        tasks := Function.update s.tasks id
          (some { row := Queue.enqueue kind host source rest parent_id }) }
    else none
  | .claim id f worker now =>
    match s.tasks id with
    | none => none
    | some tr =>
      match claimTask f worker now tr.row with
      | none => none
      | some t' => some
        { tasks := Function.update s.tasks id
            (some { tr with row := t', newest := some s.issued })
          executing := ⟨s.issued, ⟨id, worker, t'.attempts⟩, t'.retriesSpent⟩ :: s.executing
          issued := s.issued + 1 }
  | .sweep sel w =>
    if w.unguarded then
      some { s with
        tasks := fun id => (s.tasks id).map fun tr => if sel id then tr.apply w else tr }
    else none
  | .act e w =>
    if e ∈ s.executing ∧ w.guard = some e.claim then
      some { s with
        tasks := Function.update s.tasks e.claim.task_id
          ((s.tasks e.claim.task_id).map (Tracked.apply w))
        executing :=
          if w.givesBack then s.executing.filter fun e' => e'.seq ≠ e.seq else s.executing }
    else none
  | .stop e => some { s with executing := s.executing.filter fun e' => e'.seq ≠ e.seq }

/-! ## The stamps of outstanding claims -/

/-- What relates an outstanding claim to its row. `attempts` is never below the claim's number;
while the task runs, the newest claim's stamp is the row's, and every other number is lower. -/
def Outstanding (e : Execution) (tr : Tracked) : Prop :=
  e.claim.attempts ≤ tr.row.attempts ∧
    (tr.row.status = .running →
      (tr.newest = some e.seq →
        e.claim.stamps tr.row = true ∧ e.retries_spent = tr.row.retriesSpent) ∧
      (tr.newest ≠ some e.seq → e.claim.attempts < tr.row.attempts))

/-- Off the status `running`, only the bound matters. -/
theorem Outstanding.of_not_running {e : Execution} {tr : Tracked}
    (ha : e.claim.attempts ≤ tr.row.attempts) (hs : tr.row.status ≠ .running) :
    Outstanding e tr :=
  ⟨ha, fun h => absurd h hs⟩

/-- A statement other than the claim keeps an outstanding claim fenced, provided that a give-back
finds its number below the row's. -/
theorem Outstanding.apply {e : Execution} {tr : Tracked} {w : Write} (h : Outstanding e tr)
    (hc : ∀ f worker now, w ≠ .claim f worker now)
    (hb : ∀ t', w.run tr.row = some t' → w.givesBack = true → tr.row.status = .running →
      e.claim.attempts < tr.row.attempts) :
    Outstanding e (tr.apply w) := by
  unfold Tracked.apply
  split
  · exact h
  next t' hrun =>
    obtain ⟨hle, hrunning⟩ := h
    cases Write.run_effect hrun with
    | claimed f worker now hw => exact absurd hw (hc f worker now)
    | gaveBack hw hs hs' ha =>
      have hlt := hb t' hrun hw hs
      exact .of_not_running (by simp only [ha]; omega) (by simp [hs'])
    | unavailable hw hs hs' ha =>
      have hlt := hb t' hrun hw hs
      exact .of_not_running (by simp only [ha]; omega) (by simp [hs'])
    | lost _ _ hs' ha => exact .of_not_running (by rw [ha]; exact hle) (by simp [hs'])
    | parked _ hs' ha => exact .of_not_running (by rw [ha]; exact hle) (by simp [hs'])
    | resumed _ hs' ha => exact .of_not_running (by rw [ha]; exact hle) (by simp [hs'])
    | recovered _ _ hs' ha => exact .of_not_running (by rw [ha]; exact hle) (by simp [hs'])
    | ended hs' ha =>
      refine .of_not_running (by rw [ha]; exact hle) fun hr => hs' ?_
      simp only at hr
      simp [hr]
    | touched hs' ha hwk hr =>
      refine ⟨by rw [ha]; exact hle, fun hs => ?_⟩
      obtain ⟨hnew, hold⟩ := hrunning (hs' ▸ hs)
      refine ⟨fun hn => ?_, fun hn => by rw [ha]; exact hold hn⟩
      obtain ⟨hst, hsp⟩ := hnew hn
      rw [TaskClaim.stamps_iff] at hst ⊢
      refine ⟨⟨hwk.trans hst.1, ha.trans hst.2⟩, ?_⟩
      unfold Task.retriesSpent at hsp ⊢
      rw [hsp, ha, hr]

/-- A claim that a guarded statement of its execution matched is the newest: every other
outstanding number is below the row's. -/
theorem Outstanding.lt_of_match {e a : Execution} {tr : Tracked} {w : Write} {t' : Task}
    (h : Outstanding e tr) (ha : Outstanding a tr) (hg : w.guard = some a.claim)
    (hrun : w.run tr.row = some t') (hb : w.givesBack = true) (hr : tr.row.status = .running)
    (hne : e.seq ≠ a.seq) : e.claim.attempts < tr.row.attempts := by
  have hst : a.claim.stamps tr.row = true := by
    rcases hs : a.claim.stamps tr.row with _ | _
    · rcases Write.run_of_not_stamps hg hs with hnone | ⟨ids, rfl, -⟩
      · rw [hnone] at hrun; contradiction
      · simp [Write.givesBack] at hb
    · rfl
  refine (h.2 hr).2 fun hn => ?_
  have hold := (ha.2 hr).2 (by rw [hn]; simpa using hne)
  rw [TaskClaim.stamps_iff] at hst
  omega

/-- The fence: every outstanding claim was issued, and is related to its row by `Outstanding`. -/
def Fenced (s : State) : Prop :=
  ∀ e ∈ s.executing, e.seq < s.issued ∧
    ∃ tr, s.tasks e.claim.task_id = some tr ∧ Outstanding e tr

/-- One step keeps the fence. -/
theorem fenced_step (s : State) (a : Act) (s' : State) (h : Fenced s) (hs : step s a = some s') :
    Fenced s' := by
  cases a with
  | enqueue id kind host source rest parent_id =>
    simp only [step, Option.ite_none_right_eq_some, Option.some.injEq] at hs
    obtain ⟨hnone, rfl⟩ := hs
    -- A new row is none of those that are worked on.
    intro e he
    obtain ⟨hlt, tr, htr, ho⟩ := h e he
    refine ⟨hlt, tr, ?_, ho⟩
    have hne : e.claim.task_id ≠ id := by rintro rfl; rw [hnone] at htr; contradiction
    simp only [Function.update_of_ne hne, htr]
  | claim id f worker now =>
    simp only [step] at hs
    split at hs
    · contradiction
    next tr htr =>
      split at hs
      · contradiction
      next t' hclaim =>
        obtain rfl := Option.some.inj hs
        obtain ⟨ha, hwk⟩ : t'.attempts = tr.row.attempts + 1 ∧ t'.worker = some worker := by
          simp only [claimTask, Option.ite_none_right_eq_some, Option.some.injEq] at hclaim
          obtain ⟨-, rfl⟩ := hclaim
          exact ⟨rfl, rfl⟩
        intro e he
        rcases List.mem_cons.mp he with rfl | he
        · -- The new claim carries the row's own stamp.
          refine ⟨Nat.lt_succ_self _, _, Function.update_self .., Int.le_refl t'.attempts, ?_⟩
          exact fun _ => ⟨fun _ => ⟨by simp [TaskClaim.stamps_iff, hwk], rfl⟩,
            fun hn => absurd rfl hn⟩
        · obtain ⟨hlt, tre, htre, ho⟩ := h e he
          refine ⟨Nat.lt_succ_of_lt hlt, ?_⟩
          by_cases hid : e.claim.task_id = id
          · -- An older claim of the same task: its number is now below the row's.
            rw [hid] at htre ⊢
            obtain rfl : tr = tre := Option.some.inj (htr.symm.trans htre)
            have hle := ho.1
            refine ⟨_, Function.update_self .., by dsimp only; omega, fun _ => ?_⟩
            refine ⟨fun hn => ?_, fun _ => by dsimp only; omega⟩
            simp only [Option.some.injEq] at hn
            omega
          · exact ⟨tre, by simp only [Function.update_of_ne hid, htre], ho⟩
  -- A statement without a guard gives no claim back.
  | sweep sel w =>
    simp only [step, Option.ite_none_right_eq_some, Option.some.injEq] at hs
    obtain ⟨hw, rfl⟩ := hs
    intro e he
    obtain ⟨hlt, tr, htr, ho⟩ := h e he
    refine ⟨hlt, if sel e.claim.task_id then tr.apply w else tr, by simp [htr], ?_⟩
    split
    · refine ho.apply (Write.not_claim_of_unguarded hw) fun _ _ hb => ?_
      rw [Write.givesBack_of_unguarded hw] at hb
      contradiction
    · exact ho
  -- The claim that acts may end with it, and of the others none is the newest.
  | act a w =>
    simp only [step, Option.ite_none_right_eq_some, Option.some.injEq] at hs
    obtain ⟨⟨hmem, hg⟩, rfl⟩ := hs
    intro e he
    have hes : e ∈ s.executing ∧ (w.givesBack = true → e.seq ≠ a.seq) := by
      by_cases hb : w.givesBack = true
      · simp only [hb, if_true, List.mem_filter, decide_eq_true_eq] at he
        exact ⟨he.1, fun _ => he.2⟩
      · simp only [hb] at he
        exact ⟨he, fun h => absurd h hb⟩
    obtain ⟨hlt, tr, htr, ho⟩ := h e hes.1
    refine ⟨hlt, ?_⟩
    by_cases hid : e.claim.task_id = a.claim.task_id
    · obtain ⟨-, tra, htra, hoa⟩ := h a hmem
      obtain rfl : tr = tra := Option.some.inj (htr.symm.trans (hid ▸ htra))
      refine ⟨tr.apply w, by simp only [hid, Function.update_self, htra, Option.map_some], ?_⟩
      exact ho.apply (Write.not_claim_of_guard hg) fun t' hrun hb hr =>
        ho.lt_of_match hoa hg hrun hb hr (hes.2 hb)
    · exact ⟨tr, by simp only [Function.update_of_ne hid, htr], ho⟩
  -- A claim that is forgotten is one less.
  | stop a =>
    simp only [step, Option.some.injEq] at hs
    subst hs
    intro e he
    exact h e (List.mem_of_mem_filter he)

/-- Every reachable queue is fenced. -/
theorem fenced_of_run {s : State} (h : Run step Always .empty s) : Fenced s :=
  h.invariant (by simp [Fenced, State.empty]) fun s a s' hf _ hs => fenced_step s a s' hf hs

/-- A lost claim cannot act. In every reachable queue, for every execution `e` that may still be
running and whose task is running under a newer claim: the stamp of the row is not `e`'s, and no
statement guarded by `e`'s claim changes the row, except that `park_awaiting_batch` records the
batches it submitted on the row before its guarded park is refused. -/
theorem lost_claim_cannot_act {s : State} (h : Run step Always .empty s) (e : Execution)
    (he : e ∈ s.executing) (tr : Tracked) (htr : s.tasks e.claim.task_id = some tr)
    (hrun : tr.row.status = .running) (hnew : tr.newest ≠ some e.seq) :
    (tr.row.worker, tr.row.attempts) ≠ (some e.claim.worker, e.claim.attempts) ∧
      ∀ w : Write, w.guard = some e.claim →
        (∃ s', step s (.act e w) = some s' ∧ s'.tasks = s.tasks) ∨
          ∃ ids, w = .park e.claim ids ∧
            parkAwaitingBatch (some e.claim) e.claim.task_id ids tr.row =
              (recordBatchIds ids tr.row, false) := by
  obtain ⟨-, tr', htr', ho⟩ := fenced_of_run h e he
  obtain rfl : tr = tr' := Option.some.inj (htr.symm.trans htr')
  have hlt := (ho.2 hrun).2 hnew
  have hst : e.claim.stamps tr.row = false := by
    rcases hs : e.claim.stamps tr.row with _ | _
    · rfl
    · rw [TaskClaim.stamps_iff] at hs
      omega
  refine ⟨fun heq => ?_, fun w hg => ?_⟩
  · simp only [Prod.mk.injEq] at heq
    omega
  · rcases Write.run_of_not_stamps hg hst with hnone | hpark
    · refine .inl ⟨_, if_pos ⟨he, hg⟩, ?_⟩
      have happ : tr.apply w = tr := by simp [Tracked.apply, hnone]
      simp only [htr, Option.map_some, happ]
      rw [← htr, Function.update_eq_self]
    · exact .inr hpark

/-- A run in which a worker is reaped while it still executes, and a worker of the same name claims
the task again. -/
def reclaimedRun : List Act :=
  [.enqueue 1 "ingest_source" none none [] none,
    .claim 1 { known := ["ingest_source"] } "oci" 0,
    .sweep (fun _ => true) (.reapRequeue ⟨3, 15⟩ 1000),
    .claim 1 { known := ["ingest_source"] } "oci" 1001]

/-- The first claim of `reclaimedRun` cannot act on the second's row. -/
theorem lost_claim_cannot_act_reclaimed :
    ∃ s tr, runList step .empty reclaimedRun = some s ∧
      s.tasks 1 = some tr ∧ tr.row.status = .running ∧ tr.newest = some 1 ∧
      (⟨0, ⟨1, "oci", 1⟩, 1⟩ : Execution) ∈ s.executing ∧
      (tr.row.worker, tr.row.attempts) ≠ (some "oci", 1) := by
  have hrun : runList step .empty reclaimedRun = some _ := rfl
  have h := lost_claim_cannot_act (run_of_runList hrun) ⟨0, ⟨1, "oci", 1⟩, 1⟩ (by decide) _ rfl rfl
    (by decide)
  exact ⟨_, _, hrun, rfl, rfl, rfl, by decide, h.1⟩

/-! ## The retry budget -/

/-- What the two counters say about a row's losses. -/
structure Budget (tr : Tracked) : Prop where
  resumes_nonneg : 0 ≤ tr.row.batch_resumes
  /-- Held by a worker or by a batch: the claim in hand, and the losses. -/
  held : tr.row.status = .running ∨ tr.row.status = .awaitingBatch →
    tr.row.retriesSpent = 1 + tr.losses
  /-- Waiting for a claim: the losses. -/
  queued : tr.row.status = .pending → tr.row.retriesSpent = tr.losses
  /-- Marked for recovery: the claim was given back. -/
  marked : tr.row.payload.payload_recovery = true →
    tr.row.status ∉ [Status.pending, .running, .awaitingBatch] ∧
      tr.row.retriesSpent = tr.losses

/-- A new row has spent nothing. -/
theorem Budget.enqueue (kind : String) (host source : Option String)
    (rest : List (String × String)) (parent_id : Option ℕ) :
    Budget { row := Queue.enqueue kind host source rest parent_id } := by
  constructor <;> simp [Queue.enqueue, Task.retriesSpent]

/-- One statement keeps the budget, whoever runs it and whether or not it is guarded. -/
theorem Budget.apply {tr : Tracked} (h : Budget tr) (w : Write) : Budget (tr.apply w) := by
  unfold Tracked.apply
  split
  · exact h
  next t' hrun =>
    obtain ⟨h0, hheld, hqueued, hmarked⟩ := h
    have hsp : tr.row.retriesSpent = tr.row.attempts - tr.row.batch_resumes := rfl
    have hsp' : t'.retriesSpent = t'.attempts - t'.batch_resumes := rfl
    -- A marked row is in no status that leads to a claim, so the moves from one keep the marker off.
    have hoff : tr.row.status ∈ [Status.pending, .running, .awaitingBatch] →
        tr.row.payload.payload_recovery = true → False := fun hs hm => (hmarked hm).1 hs
    cases Write.run_effect hrun with
    -- From a claim on the budget is held by the attempt, and while it is queued one less is spent.
    | claimed f worker now _ hs hs' ha _ hr hm hl =>
      have := hqueued hs
      refine ⟨by simpa [hr] using h0, fun _ => ?_, fun h => ?_, fun h => ?_⟩
      · simp only [hl, Bool.false_eq_true, if_false, Nat.add_zero]; omega
      · simp [hs'] at h
      · exact (hoff (by simp [hs]) (hm ▸ h)).elim
    | lost hl hs hs' ha hr hm =>
      have := hheld (.inl hs)
      refine ⟨by simpa [hr] using h0, fun h => ?_, fun _ => ?_, fun h => ?_⟩
      · simp [hs'] at h
      · simp only [hl, if_true]; push_cast; omega
      · exact (hoff (by simp [hs]) (hm ▸ h)).elim
    | gaveBack _ hs hs' ha hr hm hl =>
      have := hheld (.inl hs)
      refine ⟨by simpa [hr] using h0, fun h => ?_, fun _ => ?_, fun h => ?_⟩
      · simp [hs'] at h
      · simp only [hl, Bool.false_eq_true, if_false, Nat.add_zero]; omega
      · exact (hoff (by simp [hs]) (hm ▸ h)).elim
    -- A marked row has spent what it spent, and nothing leads on from it but the recovery.
    | unavailable _ hs hs' ha hr hm hl =>
      have := hheld (.inl hs)
      refine ⟨by simpa [hr] using h0, fun h => ?_, fun h => ?_, fun _ => ⟨by simp [hs'], ?_⟩⟩
      · simp [hs'] at h
      · simp [hs'] at h
      · simp only [hl, Bool.false_eq_true, if_false, Nat.add_zero]; omega
    | parked hs hs' ha hr hm hl =>
      have := hheld (.inl hs)
      refine ⟨by simpa [hr] using h0, fun _ => ?_, fun h => ?_, fun h => ?_⟩
      · simp only [hl, Bool.false_eq_true, if_false, Nat.add_zero]; omega
      · simp [hs'] at h
      · exact (hoff (by simp [hs]) (hm ▸ h)).elim
    | resumed hs hs' ha hr hm hl =>
      have := hheld (.inr hs)
      refine ⟨by simp only [hr]; omega, fun h => ?_, fun _ => ?_, fun h => ?_⟩
      · simp [hs'] at h
      · simp only [hl, Bool.false_eq_true, if_false, Nat.add_zero]; omega
      · exact (hoff (by simp [hs]) (hm ▸ h)).elim
    | recovered hs hm hs' ha hr hm' hl =>
      have := (hmarked hm).2
      refine ⟨by simpa [hr] using h0, fun h => ?_, fun _ => ?_, fun h => ?_⟩
      · simp [hs'] at h
      · simp only [hl, Bool.false_eq_true, if_false, Nat.add_zero]; omega
      · simp [hm'] at h
    -- A row that has ended keeps its marker, and one that is touched keeps all.
    | ended hs' ha hr hm hl =>
      refine ⟨by simpa [hr] using h0, fun h => ?_, fun h => ?_, fun h => ⟨hs', ?_⟩⟩
      · exact absurd (by rcases h with h | h <;> simp only at h <;> simp [h]) hs'
      · exact absurd (by simp only at h; simp [h]) hs'
      · have := (hmarked (hm ▸ h)).2
        simp only [hl, Bool.false_eq_true, if_false, Nat.add_zero]; omega
    | touched hs' ha _ hr hm hl =>
      have heq : t'.retriesSpent = tr.row.retriesSpent := by omega
      simp only [hl, Bool.false_eq_true, if_false, Nat.add_zero]
      exact ⟨by simpa [hr] using h0, by simpa [hs', heq] using hheld,
        by simpa [hs', heq] using hqueued, by simpa [hs', hm, heq] using hmarked⟩

/-- Every row of the queue keeps its budget. -/
def Budgeted (s : State) : Prop := ∀ id tr, s.tasks id = some tr → Budget tr

/-- One step keeps every row's budget. -/
theorem budgeted_step (s : State) (a : Act) (s' : State) (h : Budgeted s)
    (hs : step s a = some s') : Budgeted s' := by
  -- Each action leaves every row alone, or applies one statement to it.
  intro id tr htr
  cases a with
  | enqueue id' kind host source rest parent_id =>
    simp only [step, Option.ite_none_right_eq_some, Option.some.injEq] at hs
    obtain ⟨-, rfl⟩ := hs
    by_cases hid : id = id'
    · subst hid
      simp only [Function.update_self, Option.some.injEq] at htr
      subst htr
      exact .enqueue ..
    · simp only [Function.update_of_ne hid] at htr
      exact h id tr htr
  | claim id' f worker now =>
    simp only [step] at hs
    split at hs
    · contradiction
    next tr' htr' =>
      split at hs
      · contradiction
      next t' hclaim =>
        obtain rfl := Option.some.inj hs
        by_cases hid : id = id'
        · subst hid
          simp only [Function.update_self, Option.some.injEq] at htr
          subst htr
          have hb := (h id tr' htr').apply (.claim f worker now)
          simp only [Tracked.apply, Write.run, hclaim, Write.isLoss, Bool.false_eq_true, if_false,
            Nat.add_zero] at hb
          exact ⟨hb.1, hb.2, hb.3, hb.4⟩
        · simp only [Function.update_of_ne hid] at htr
          exact h id tr htr
  | sweep sel w =>
    simp only [step, Option.ite_none_right_eq_some, Option.some.injEq] at hs
    obtain ⟨-, rfl⟩ := hs
    simp only [Option.map_eq_some_iff] at htr
    obtain ⟨tr', htr', rfl⟩ := htr
    split
    · exact (h id tr' htr').apply w
    · exact h id tr' htr'
  | act a w =>
    simp only [step, Option.ite_none_right_eq_some, Option.some.injEq] at hs
    obtain ⟨-, rfl⟩ := hs
    by_cases hid : id = a.claim.task_id
    · subst hid
      simp only [Function.update_self, Option.map_eq_some_iff] at htr
      obtain ⟨tr', htr', rfl⟩ := htr
      exact (h _ tr' htr').apply w
    · simp only [Function.update_of_ne hid] at htr
      exact h id tr htr
  | stop a =>
    simp only [step, Option.some.injEq] at hs
    subst hs
    exact h id tr htr

/-- Every reachable queue keeps every row's budget. -/
theorem budgeted_of_run {s : State} (h : Run step Always .empty s) : Budgeted s :=
  h.invariant (by simp [Budgeted, State.empty]) fun s a s' hb _ hs => budgeted_step s a s' hb hs

/-- The `except Exception` of `run_held`: a transient error with retries left requeues the task,
anything else fails it. -/
def settleException (transient : Bool) (max_attempts : ℤ) (e : Execution) (error : String)
    (now : Time) : Write :=
  if transient && decide (e.retries_spent < max_attempts) then
    .requeueTransient e.claim ("retrying after transient error: " ++ (error.take 200).toString)
  else .finish e.claim false (some error) now

/-- A give-back that matches a running row within its budget takes exactly one attempt off. -/
theorem Budget.givesBack_exact {tr : Tracked} (h : Budget tr) {w : Write} {t' : Task}
    (hb : w.givesBack = true) (hrun : w.run tr.row = some t') :
    t'.attempts = tr.row.attempts - 1 := by
  have hclamp : tr.row.status = .running → max (tr.row.attempts - 1) 0 = tr.row.attempts - 1 := by
    intro hs
    have hspent := h.held (.inl hs)
    have h0 := h.resumes_nonneg
    unfold Task.retriesSpent at hspent
    omega
  cases w <;> simp only [Write.givesBack, Bool.false_eq_true] at hb <;>
    simp only [Write.run, failUnavailablePayload, deferTask, Queue.requeueOnExit,
      Option.ite_none_right_eq_some, Bool.and_eq_true, beq_iff_eq, Option.some.injEq] at hrun <;>
    obtain ⟨⟨hs, -⟩, rfl⟩ := hrun <;> exact hclamp hs

/-- The retry budget counts losses only. In every reachable queue, for every task: while it is
running or awaiting a batch, `attempts - batch_resumes` is one more than its losses, and while it
is pending it is its losses exactly; the clamps of the give-backs never take effect; and the reaper
and a transient error of the execution that holds the task fail it exactly when its losses have
reached `task_max_attempts - 1`, and requeue it otherwise. -/
theorem retry_budget_counts_losses {s : State} (h : Run step Always .empty s) (id : ℕ)
    (tr : Tracked) (htr : s.tasks id = some tr) :
    (tr.row.status = .running ∨ tr.row.status = .awaitingBatch →
        tr.row.attempts - tr.row.batch_resumes = 1 + tr.losses) ∧
      (tr.row.status = .pending → tr.row.attempts - tr.row.batch_resumes = tr.losses) ∧
      (∀ (w : Write) (t' : Task), w.givesBack = true → w.run tr.row = some t' →
        t'.attempts = tr.row.attempts - 1) ∧
      (∀ (l : ReapLimits) (now : Time), tr.row.status = .running → stale l now tr.row = true →
        ((reapFail l now tr.row).isSome ↔ l.attempts - 1 ≤ tr.losses) ∧
          ((reapRequeue l now tr.row).isSome ↔ tr.losses < l.attempts - 1)) ∧
      (∀ e ∈ s.executing, e.claim.task_id = id → tr.row.status = .running →
        tr.newest = some e.seq → ∀ (max_attempts : ℤ) (error : String) (now : Time),
          ∃ t', (settleException true max_attempts e error now).run tr.row = some t' ∧
            (t'.status = .failed ↔ max_attempts - 1 ≤ tr.losses) ∧
            (t'.status = .pending ↔ tr.losses < max_attempts - 1)) := by
  have hb := budgeted_of_run h id tr htr
  refine ⟨hb.held, hb.queued, fun w t' => hb.givesBack_exact, fun l now hs hstale => ?_, ?_⟩
  · have hspent := hb.held (.inl hs)
    simp only [reapFail, reapRequeue, hs, hstale, hspent, beq_self_eq_true, Bool.true_and,
      Bool.and_true, decide_eq_true_eq, Option.isSome_ite]
    constructor <;> omega
  · intro e he hid hs hnew max_attempts error now
    obtain ⟨-, tr', htr', ho⟩ := fenced_of_run h e he
    obtain rfl : tr = tr' := Option.some.inj (htr.symm.trans (hid ▸ htr'))
    obtain ⟨hst, hsp⟩ := (ho.2 hs).1 hnew
    have hspent := hb.held (.inl hs)
    by_cases hlt : e.retries_spent < max_attempts
    · refine ⟨_, by simp [settleException, hlt, Write.run, Queue.requeueTransient, hs, hst]; rfl,
        ?_, ?_⟩ <;> simp <;> omega
    · refine ⟨_, by simp [settleException, hlt, Write.run, Queue.finish, hs, hst]; rfl, ?_, ?_⟩ <;>
        simp <;> omega

/-- A run with two losses and one batch wait, up to a third claim. -/
def lossyRun : List Act :=
  let take now := Act.claim 1 { known := ["verify_new"] } "gcp-vps" now
  [.enqueue 1 "verify_new" none none [] none, take 0,
    .act ⟨0, ⟨1, "gcp-vps", 1⟩, 1⟩ (.park ⟨1, "gcp-vps", 1⟩ ["batch_1"]),
    .sweep (fun _ => true) .resumeParked, take 10,
    .sweep (fun _ => true) (.reapRequeue ⟨3, 15⟩ 2000), take 2001,
    .act ⟨2, ⟨1, "gcp-vps", 3⟩, 2⟩ (.requeueTransient ⟨1, "gcp-vps", 3⟩ "out of memory"), take 2002]

/-- After `lossyRun` the task has made four claims, one of them a resume, and lost two. -/
theorem retry_budget_counts_losses_lossy :
    ∃ s tr, runList step .empty lossyRun = some s ∧ s.tasks 1 = some tr ∧
      tr.row.status = .running ∧ tr.row.attempts = 4 ∧ tr.losses = 2 ∧
      tr.row.attempts - tr.row.batch_resumes = 1 + tr.losses := by
  have hrun : runList step .empty lossyRun = some _ := rfl
  have h := retry_budget_counts_losses (run_of_runList hrun) 1 _ rfl
  exact ⟨_, _, hrun, rfl, rfl, rfl, rfl, h.1 (.inl rfl)⟩

end JobScripts.Queue

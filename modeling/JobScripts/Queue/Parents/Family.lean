import JobScripts.Queue.Claims

/-!
# Waiting parents and their chunks

A parent task enqueues chunks and parks as `waiting`. `maybe_finalize_parent` ends it: it locks the
parent's row, counts the chunks that are live and those that failed, and writes the end. It is called
at the end of every chunk and by `reconcile_chunks` for every waiting parent without a live chunk.
`payload_recovery.retry` moves the other way: it locks the parent, then the chunk, compares both rows
with what it read before, and reopens them. The chunks' own statements take no lock on the parent.

The system below runs every statement of these processes on its own, with the row locks that each
holds until its transaction ends; a statement on a row that another transaction holds waits. What the
other statements of the queue can do to a row is said once (`Moves`).
-/

namespace JobScripts.Queue

/-! ## Chunks -/

/-- `CHUNK_KINDS`: the kinds of tasks that are chunks of a parent. -/
def chunkKinds : List String := ["run_filter_chunk", "reverify_chunk", "run_filter_batch_chunk"]

/-- `kind = ANY(CHUNK_KINDS) AND parent_id = parent`: the task is a chunk of the parent. -/
def Task.chunkOf (t : Task) (parent : ℕ) : Bool :=
  chunkKinds.contains t.kind && t.parent_id == some parent

/-- The statuses that `maybe_finalize_parent` counts as live. -/
def Status.live : Status → Bool
  | .pending | .running | .awaitingBatch => true
  | .waiting | .done | .failed | .cancelled => false

/-- The statuses that end a task. -/
def Status.ended : Status → Bool
  | .done | .failed | .cancelled => true
  | .pending | .running | .awaitingBatch | .waiting => false

/-- A status other than a parent's wait is live or an end. -/
theorem Status.ended_of_not_live {st : Status} (hl : st.live = false) (hw : st ≠ .waiting) :
    st.ended = true := by
  cases st <;> first | rfl | contradiction

/-- The second statement of `update_parent_progress`. A waiting parent has a progress, which
`park_waiting` wrote. -/
def updateParentProgress (done : ℤ) (now : Time) (t : Task) : Option Task :=
  if t.status == .waiting then
    some { t with
      progress := t.progress.map fun p => { p with done }
      last_heartbeat := some now }
  else none

/-- `_recoverable_parent`: a parent that waits, or one that failed because chunks did. -/
def recoverableParent (t : Task) : Bool :=
  t.status == .waiting || t.status == .failed && t.error.any chunksFailed

/-! ## What a statement outside the two transactions can do -/

/-- The statements that are not part of a finalizer or of a recovery. -/
def Write.plain : Write → Bool
  | .retry .. | .reopenParent | .finalizeParent .. => false
  | _ => true

/-- A plain statement that its caller runs on the row: the handlers of parents call `park_waiting`,
never the handler of a chunk. -/
def Write.fits (w : Write) (t : Task) : Bool :=
  match w with
  | .parkWaiting .. => !chunkKinds.contains t.kind
  | _ => w.plain

/-- What a plain statement can do to the columns that tie a chunk to its parent. It makes no row live
that was not, it does not change an end, it takes a waiting parent out of its wait only by cancelling
it, and it parks no chunk as a parent. -/
structure Moves (t t' : Task) : Prop where
  kind : t'.kind = t.kind
  parent_id : t'.parent_id = t.parent_id
  live : t'.status.live = true → t.status.live = true
  ended : t.status.ended = true → t'.status = t.status
  waiting : t.status = .waiting → t'.status = .waiting ∨ t'.status = .cancelled
  parks : t'.status = .waiting → t.status = .waiting ∨ chunkKinds.contains t.kind = false

namespace Moves

variable {t t' : Task}

/-- A statement on a live row. -/
theorem of_live (hk : t'.kind = t.kind) (hp : t'.parent_id = t.parent_id)
    (hl : t.status.live = true)
    (hpark : t'.status = .waiting → chunkKinds.contains t.kind = false) : Moves t t' where
  kind := hk
  parent_id := hp
  live _ := hl
  ended he := by
    cases hs : t.status <;> simp [hs, Status.live, Status.ended] at hl he
  waiting hw := by
    simp [hw, Status.live] at hl
  parks hw := .inr (hpark hw)

/-- A statement that keeps the status. -/
theorem of_same (hk : t'.kind = t.kind) (hp : t'.parent_id = t.parent_id)
    (hs : t'.status = t.status) : Moves t t' where
  kind := hk
  parent_id := hp
  live hl := by rwa [hs] at hl
  ended _ := hs
  waiting hw := .inl (hs.trans hw)
  parks hw := .inl (hs.symm.trans hw)

end Moves

/-- Every plain statement moves a row so. -/
theorem Write.run_moves {w : Write} {t t' : Task} (hw : w.fits t = true) (h : w.run t = some t') :
    Moves t t' := by
  cases w with
  -- A claim, of a pending row.
  | claim f worker now =>
    simp only [Write.run, claimTask, Option.ite_none_right_eq_some, Option.some.injEq] at h
    obtain ⟨hc, rfl⟩ := h
    simp only [claimable, Bool.and_eq_true, beq_iff_eq] at hc
    exact .of_live rfl rfl (by rw [hc.1.1.1.1]; rfl) fun hp => Status.noConfusion hp
  -- The reaper's two statements, of a running row.
  | reapRequeue l now =>
    simp only [Write.run, Queue.reapRequeue, Option.ite_none_right_eq_some, Option.some.injEq,
      Bool.and_eq_true, beq_iff_eq] at h
    obtain ⟨hc, rfl⟩ := h
    exact .of_live rfl rfl (by rw [hc.1.1]; rfl) fun hp => Status.noConfusion hp
  | reapFail l now =>
    simp only [Write.run, Queue.reapFail, Option.ite_none_right_eq_some, Option.some.injEq,
      Bool.and_eq_true, beq_iff_eq] at h
    obtain ⟨hc, rfl⟩ := h
    exact .of_live rfl rfl (by rw [hc.1.1]; rfl) fun hp => Status.noConfusion hp
  -- Statements that leave status, kind and parent as they were.
  | heartbeat c now =>
    simp only [Write.run, Queue.heartbeat, Option.ite_none_right_eq_some, Option.some.injEq] at h
    obtain ⟨-, rfl⟩ := h
    exact .of_same rfl rfl rfl
  | progress c p r keys now =>
    simp only [Write.run, writeProgress, Option.ite_none_right_eq_some, Option.some.injEq] at h
    obtain ⟨-, rfl⟩ := h
    exact .of_same rfl rfl rfl
  -- The worker's statements, fenced by its claim.
  | finish c done e now =>
    simp only [Write.run, Queue.finish, Option.ite_none_right_eq_some, Option.some.injEq,
      Bool.and_eq_true, beq_iff_eq] at h
    obtain ⟨hc, rfl⟩ := h
    refine .of_live rfl rfl (by rw [hc.1]; rfl) fun hp => ?_
    cases done <;> contradiction
  | failUnavailable c e now =>
    simp only [Write.run, failUnavailablePayload, Option.ite_none_right_eq_some,
      Option.some.injEq, Bool.and_eq_true, beq_iff_eq] at h
    obtain ⟨hc, rfl⟩ := h
    exact .of_live rfl rfl (by rw [hc.1]; rfl) fun hp => Status.noConfusion hp
  | defer c nb =>
    simp only [Write.run, deferTask, Option.ite_none_right_eq_some, Option.some.injEq,
      Bool.and_eq_true, beq_iff_eq] at h
    obtain ⟨hc, rfl⟩ := h
    exact .of_live rfl rfl (by rw [hc.1]; rfl) fun hp => Status.noConfusion hp
  | requeueTransient c e =>
    simp only [Write.run, Queue.requeueTransient, Option.ite_none_right_eq_some,
      Option.some.injEq, Bool.and_eq_true, beq_iff_eq] at h
    obtain ⟨hc, rfl⟩ := h
    exact .of_live rfl rfl (by rw [hc.1]; rfl) fun hp => Status.noConfusion hp
  | requeueOnExit c =>
    simp only [Write.run, Queue.requeueOnExit, Option.ite_none_right_eq_some, Option.some.injEq,
      Bool.and_eq_true, beq_iff_eq] at h
    obtain ⟨hc, rfl⟩ := h
    exact .of_live rfl rfl (by rw [hc.1]; rfl) fun hp => Status.noConfusion hp
  -- The only statement that lets a row wait, of a parent by its guard.
  | parkWaiting c total label =>
    simp only [Write.run, Queue.parkWaiting, Option.ite_none_right_eq_some, Option.some.injEq,
      Bool.and_eq_true, beq_iff_eq] at h
    obtain ⟨hc, rfl⟩ := h
    refine .of_live rfl rfl (by rw [hc.1]; rfl) fun _ => ?_
    simpa [Write.fits] using hw
  -- The batch ids are recorded also where the guarded park is refused.
  | park c ids =>
    simp only [Write.run, Option.some.injEq] at h
    subst h
    unfold parkAwaitingBatch
    split
    · next t'' hp =>
      simp only [parkStatus, Option.ite_none_right_eq_some, Option.some.injEq, Bool.and_eq_true,
        beq_iff_eq] at hp
      obtain ⟨hc, rfl⟩ := hp
      have hs : t.status = .running := hc.1
      exact .of_live rfl rfl (by rw [hs]; rfl) fun hp => Status.noConfusion hp
    · exact .of_same rfl rfl rfl
  | record ids =>
    simp only [Write.run, Option.some.injEq] at h
    subst h
    exact .of_same rfl rfl rfl
  | merge data =>
    simp only [Write.run, Option.some.injEq] at h
    subst h
    exact .of_same rfl rfl rfl
  | resumeParked =>
    simp only [Write.run, Queue.resumeParked, Option.ite_none_right_eq_some, Option.some.injEq,
      beq_iff_eq] at h
    obtain ⟨hs, rfl⟩ := h
    exact .of_live rfl rfl (by rw [hs]; rfl) fun hp => Status.noConfusion hp
  -- Statements of a parent or a recovery are not plain.
  | retry a r => simp [Write.fits, Write.plain] at hw
  | reopenParent => simp [Write.fits, Write.plain] at hw
  | finalizeParent n now => simp [Write.fits, Write.plain] at hw
  -- A cancellation ends what is active.
  | cancel now =>
    simp only [Write.run, Queue.cancel, Option.ite_none_right_eq_some, Option.some.injEq] at h
    obtain ⟨ha, rfl⟩ := h
    refine ⟨rfl, rfl, fun hl => by simp [Status.live] at hl, fun he => ?_, fun _ => .inr rfl, fun hp => Status.noConfusion hp⟩
    cases hs : t.status <;> simp [hs, Status.active, Status.ended] at ha he
  | reconcile now =>
    simp only [Write.run, reconcileChunk, Option.ite_none_right_eq_some, Option.some.injEq,
      beq_iff_eq] at h
    obtain ⟨hs, rfl⟩ := h
    exact .of_live rfl rfl (by rw [hs]; rfl) fun hp => Status.noConfusion hp

/-! ## The table -/

/-- The table of tasks. Ids are given out in order. -/
structure Table where
  rows : ℕ → Option Task
  next : ℕ
  fresh : ∀ id, next ≤ id → rows id = none

namespace Table

/-- The empty table. -/
def empty : Table := ⟨fun _ => none, 0, fun _ _ => rfl⟩

/-- The table after a statement that writes rows that are there. -/
def map (tb : Table) (f : ℕ → Task → Task) : Table where
  rows id := (tb.rows id).map (f id)
  next := tb.next
  fresh id h := by rw [tb.fresh id h]; rfl

/-- The table after one row is written. -/
def write (tb : Table) (id : ℕ) (t : Task) : Table :=
  tb.map fun id' t' => if id' = id then t else t'

/-- The table after a row is added. -/
def add (tb : Table) (t : Task) : Table where
  rows := Function.update tb.rows tb.next (some t)
  next := tb.next + 1
  fresh id h := by
    rw [Function.update_of_ne (by omega)]
    exact tb.fresh id (by omega)

/-- `SELECT COUNT(*)` of the rows with a property. -/
def count (tb : Table) (p : Task → Bool) : ℕ :=
  (List.range tb.next).countP fun id => (tb.rows id).any p

/-- The live chunks that `maybe_finalize_parent` counts. -/
def liveChunks (tb : Table) (parent : ℕ) : ℕ :=
  tb.count fun t => t.chunkOf parent && t.status.live

/-- The failed chunks that `maybe_finalize_parent` counts. -/
def failedChunks (tb : Table) (parent : ℕ) : ℕ :=
  tb.count fun t => t.chunkOf parent && t.status == .failed

/-- The sum of `update_parent_progress` over the chunks of a parent. -/
def doneChunks (tb : Table) (parent : ℕ) : ℤ :=
  ((List.range tb.next).filterMap fun id =>
    ((tb.rows id).filter (·.chunkOf parent)).bind fun t => t.progress.map Progress.done).sum

/-- The second statement of `reconcile_chunks`: the waiting parents without a live chunk. -/
def childless (tb : Table) : List ℕ :=
  (List.range tb.next).filter fun id =>
    (tb.rows id).any (fun t => t.status == .waiting) && tb.liveChunks id == 0

/-- The rows that the first statement of `reconcile_chunks` matches: the pending chunks of cancelled
parents. -/
def orphaned (tb : Table) (id : ℕ) : Bool :=
  (tb.rows id).any fun t => chunkKinds.contains t.kind && t.status == .pending &&
    t.parent_id.any fun p => (tb.rows p).any fun tp => tp.status == .cancelled

end Table

/-! ## The processes -/

/-- Where a call of `maybe_finalize_parent` is: the sum of the chunks' progress is read, the parent's
progress is written, the parent's row is locked and waiting, no live chunk was counted, the failed
ones are counted. -/
inductive Phase
  | summed (done : ℤ)
  | progressed
  | locked
  | noneLive
  | counted (n_failed : ℕ)

/-- What `payload_recovery.retry` has read before its transaction: the task's row and its parent's. -/
structure Recovery where
  task : ℕ
  source : Task
  parent : Option (ℕ × Task)

/-- A process that runs statement by statement. -/
inductive Proc
  /-- `reconcile_chunks` between its two statements. -/
  | reconciling
  /-- The calls of `maybe_finalize_parent` still to make: those of a pass, or the one at the end of a
  chunk. -/
  | calls (parents : List ℕ)
  /-- In the call for `parent`. -/
  | finalizing (parent : ℕ) (phase : Phase) (rest : List ℕ)
  /-- A recovery that has read the task and not yet its parent. -/
  | reading (task : ℕ) (source : Task) (parent : ℕ)
  /-- A recovery that has read and checked what the task needs. -/
  | read (r : Recovery)
  /-- In the transaction, with the parent's row locked. -/
  | parentLocked (r : Recovery)
  /-- In the transaction, with both rows locked. -/
  | taskLocked (r : Recovery)

/-- The rows that a process holds locked. -/
def Proc.holds : Proc → ℕ → Bool
  | .finalizing p .locked _, id | .finalizing p .noneLive _, id
  | .finalizing p (.counted _) _, id => id == p
  | .parentLocked r, id => r.parent.any fun p => id == p.1
  | .taskLocked r, id => id == r.task || r.parent.any fun p => id == p.1
  | _, _ => false

/-- The tasks, the processes and the rows that they hold locked. Known to the proofs only are the tasks
that a recovery has reopened. -/
structure Family where
  table : Table
  locks : ℕ → Option ℕ
  procs : ℕ → Option Proc
  reopened : ℕ → Bool

namespace Family

/-- No task and no process. -/
def empty : Family := ⟨.empty, fun _ => none, fun _ => none, fun _ => false⟩

/-- The process at another place, with the rows that it holds there locked for it and the others that
it held released. -/
def move (s : Family) (k : ℕ) (proc : Option Proc) : Family :=
  { s with
    locks := fun id =>
      if proc.any fun p => p.holds id then some k
      else if s.locks id = some k then none else s.locks id
    procs := Function.update s.procs k proc }

end Family

/-- What happens next. -/
inductive FamilyAct
  /-- `enqueue`. A chunk is enqueued by its parent's run. -/
  | enqueue (kind : String) (host source : Option String) (rest : List (String × String))
      (parent_id : Option ℕ)
  /-- A plain statement on a row. -/
  | write (id : ℕ) (w : Write)
  /-- `run_held` calls `maybe_finalize_parent` at the end of a chunk. -/
  | chunkEnded (k parent : ℕ)
  /-- The first statement of `reconcile_chunks`. -/
  | reconcile (k : ℕ) (now : Time)
  /-- The first statement of `payload_recovery.retry`. -/
  | retry (k task : ℕ)
  /-- The next statement of a process. -/
  | next (k : ℕ) (now : Time)
  /-- The last statements of a recovery, and its commit. -/
  | reopen (k : ℕ) (accepted has_results : Bool)
  /-- A process dies, or a statement of it fails: its transaction is rolled back. -/
  | abort (k : ℕ)

/-- The next statement of a process; `none` when it waits for a row, or is over. -/
def Proc.next (s : Family) (k : ℕ) (now : Time) : Proc → Option Family
  | .reconciling => some (s.move k (some (.calls s.table.childless)))
  | .calls [] => none
  | .calls (p :: rest) =>
    some (s.move k (some (.finalizing p (.summed (s.table.doneChunks p)) rest)))
  | .finalizing p (.summed done) rest =>
    match (s.table.rows p).bind (updateParentProgress done now) with
    | none => some (s.move k (some (.finalizing p .progressed rest)))
    | some t =>
      if s.locks p = none then
        some { s.move k (some (.finalizing p .progressed rest)) with table := s.table.write p t }
      else none
  | .finalizing p .progressed rest =>
    match s.table.rows p with
    | none => some (s.move k (some (.calls rest)))
    | some t =>
      if s.locks p = none then
        if t.status = .waiting then some (s.move k (some (.finalizing p .locked rest)))
        else some (s.move k (some (.calls rest)))
      else none
  | .finalizing p .locked rest =>
    if s.table.liveChunks p = 0 then some (s.move k (some (.finalizing p .noneLive rest)))
    else some (s.move k (some (.calls rest)))
  | .finalizing p .noneLive rest =>
    some (s.move k (some (.finalizing p (.counted (s.table.failedChunks p)) rest)))
  | .finalizing p (.counted n) rest =>
    match (s.table.rows p).bind (finalizeParent n now) with
    | none => some (s.move k (some (.calls rest)))
    | some t => some { s.move k (some (.calls rest)) with table := s.table.write p t }
  | .reading task source p =>
    match (s.table.rows p).filter recoverableParent with
    | none => some (s.move k none)
    | some t => some (s.move k (some (.read ⟨task, source, some (p, t)⟩)))
  | .read r =>
    match r.parent with
    | none => some (s.move k (some (.parentLocked r)))
    | some (p, t) =>
      if s.locks p = none then
        if s.table.rows p = some t then some (s.move k (some (.parentLocked r)))
        else some (s.move k none)
      else none
  | .parentLocked r =>
    if s.locks r.task = none then
      if s.table.rows r.task = some r.source then some (s.move k (some (.taskLocked r)))
      else some (s.move k none)
    else none
  | .taskLocked _ => none

/-- The table after a recovery: a failed parent waits again, and the task is pending. -/
def Recovery.commit (r : Recovery) (tb : Table) (t : Task) : Table :=
  match r.parent with
  | none => tb.write r.task t
  | some (p, tp) =>
    match reopenParent tp with
    | none => tb.write r.task t
    | some tp' => (tb.write p tp').write r.task t

/-- One step of the family. -/
def Family.step (s : Family) : FamilyAct → Option Family
  | .enqueue kind host source rest parent_id =>
    if parent_id.all fun p => chunkKinds.contains kind &&
        (s.table.rows p).any fun t => t.status == .running && !chunkKinds.contains t.kind then
      some { s with table := s.table.add (Queue.enqueue kind host source rest parent_id) }
    else none
  | .write id w =>
    match s.table.rows id with
    | none => none
    | some t =>
      if w.fits t ∧ s.locks id = none then
        (w.run t).map fun t' => { s with table := s.table.write id t' }
      else none
  | .chunkEnded k parent =>
    if s.procs k = none then some (s.move k (some (.calls [parent]))) else none
  | .reconcile k now =>
    if s.procs k = none ∧
        (List.range s.table.next).all fun id => !s.table.orphaned id || s.locks id == none then
      some { s.move k (some .reconciling) with
        table := s.table.map fun id t =>
          if s.table.orphaned id then (reconcileChunk now t).getD t else t }
    else none
  | .retry k task =>
    match s.table.rows task with
    | none => none
    | some t =>
      if s.procs k = none ∧ t.status = .failed ∧ t.payload.payload_recovery = true then
        match t.parent_id with
        | none => some (s.move k (some (.read ⟨task, t, none⟩)))
        | some p =>
          if chunkKinds.contains t.kind then some (s.move k (some (.reading task t p))) else none
      else none
  | .next k now => (s.procs k).bind (Proc.next s k now)
  | .reopen k accepted has_results =>
    match s.procs k with
    | some (.taskLocked r) =>
      match Queue.retry accepted has_results r.source with
      | none => some (s.move k none)
      | some t => some { s.move k none with
          table := r.commit s.table t
          reopened := Function.update s.reopened r.task true }
    | _ => none
  | .abort k => some (s.move k none)

end JobScripts.Queue

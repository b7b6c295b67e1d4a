import JobScripts.Queue.Batches

/-!
# How `run_held` ends a task

`run_held` settles a task once its handler has ended. A normal return first looks at the payload
(`repark_if_unfinished`): with batch ids it parks again, and without any, or when the park is
refused, it writes `finish('done')`. `AIPaused` writes `finish('done')` at once. The other endings
are single guarded writes, and are actions of the queue already. Between the look and the write
anything may happen to the row, so an ending is a state of its own here, beside the queue of
`Queue/Claims.lean`.

`finish('done')` is the one write that deletes `batch_ids`. `done_means_collected` proves that it
finds none in a run that is quiet: no id is recorded between an ending's last look and its write,
and `AIPaused` is raised only when none is named. `finish_done_drops_recorded_id` is a run that is
not.
-/

namespace JobScripts.Queue.Exits

open Lib

/-- Where an ending is. -/
inductive Phase
  /-- `repark_if_unfinished` read these ids and is about to park. -/
  | reparking (remaining : List String)
  /-- About to write `finish('done', error)`. -/
  | finishing (error : Option String)
  deriving DecidableEq

/-- The queue, and the endings between their last look and their write. -/
structure State where
  queue : Queue.State
  endings : List (Execution × Phase)

/-- The empty queue. -/
def State.empty : State := ⟨.empty, []⟩

/-- The text of `AIPaused`. -/
def aiPausedText : String := "AI is paused by an administrator (ai_paused)"

/-- What can happen next. -/
inductive Act
  /-- An action of the queue, other than an execution's `finish('done')`. -/
  | queue (a : Queue.Act)
  /-- A handler returns, and `repark_if_unfinished` reads the batch ids. -/
  | returned (e : Execution)
  /-- `repark_if_unfinished` parks on what it read. -/
  | repark (e : Execution) (remaining : List String)
  /-- A handler raises `AIPaused`. -/
  | paused (e : Execution)
  /-- The write of `finish('done')`. -/
  | finishDone (e : Execution) (error : Option String) (now : Time)

/-- An execution's `finish('done')`. -/
def isFinishDone : Queue.Act → Bool
  | .act _ (.finish _ true _ _) => true
  | _ => false

/-- One step. -/
def step (s : State) : Act → Option State
  | .queue a =>
    if isFinishDone a then none
    else (Queue.step s.queue a).map fun q => { s with queue := q }
  | .returned e =>
    match s.queue.tasks e.claim.task_id with
    | none => none
    | some tr =>
      if e ∈ s.queue.executing then
        let remaining := tr.row.payload.pendingBatchIds
        some { s with
          endings :=
            (e, if remaining = [] then .finishing none else .reparking remaining) :: s.endings }
      else none
  | .repark e remaining =>
    match s.queue.tasks e.claim.task_id with
    | none => none
    | some tr =>
      if (e, .reparking remaining) ∈ s.endings then
        (Queue.step s.queue (.act e (.park e.claim remaining))).map fun q =>
          let rest := s.endings.erase (e, .reparking remaining)
          { queue := q
            endings :=
              if (parkAwaitingBatch (some e.claim) e.claim.task_id remaining tr.row).2 then rest
              else (e, .finishing none) :: rest }
      else none
  | .paused e =>
    if e ∈ s.queue.executing then
      some { s with endings := (e, .finishing (some aiPausedText)) :: s.endings }
    else none
  | .finishDone e error now =>
    if (e, .finishing error) ∈ s.endings then
      (Queue.step s.queue (.act e (.finish e.claim true error now))).map fun q =>
        { queue := q, endings := s.endings.erase (e, .finishing error) }
    else none

/-! ## The condition -/

/-- The execution holds its task: the task runs, under the execution's claim. -/
def Live (q : Queue.State) (e : Execution) : Prop :=
  ∃ tr, q.tasks e.claim.task_id = some tr ∧ tr.row.status = .running ∧ tr.newest = some e.seq

/-- The batch ids that a statement writes into the payload. -/
def newIds : Write → List String
  | .park _ ids | .record ids => ids
  | .merge data => data.batch_ids.getD []
  | _ => []

/-- The batch ids that an action of the queue writes into the payload of a task. -/
def names (id : ℕ) : Queue.Act → List String
  | .sweep sel w => if sel id then newIds w else []
  | .act e w => if e.claim.task_id = id then newIds w else []
  | _ => []

/-- No execution that holds the task `id` is about to write `finish('done')`. -/
def NoneFinishing (s : State) (id : ℕ) : Prop :=
  ∀ e error, (e, .finishing error) ∈ s.endings → e.claim.task_id = id → ¬ Live s.queue e

/-- The condition on a step: a batch id is recorded for a task only when none of its holders is
about to write `finish('done')`, and `AIPaused` is raised only when the task names no batch. -/
def Quiet (s : State) : Act → Prop
  | .queue a => ∀ id, names id a ≠ [] → NoneFinishing s id
  | .repark e _ => NoneFinishing s e.claim.task_id
  | .paused e => ∀ tr, s.queue.tasks e.claim.task_id = some tr →
      tr.row.payload.pendingBatchIds = []
  | .returned _ | .finishDone .. => True

/-! ## The invariant -/

/-- A statement that writes no batch id leaves a payload without any as it is. -/
theorem ids_empty_of_run {w : Write} {t t' : Task} (h : w.run t = some t') (hw : newIds w = [])
    (ht : t.payload.pendingBatchIds = []) : t'.payload.pendingBatchIds = [] := by
  cases w with
  | park c ids =>
    obtain rfl : ids = [] := hw
    simp only [Write.run, Option.some.injEq] at h
    subst h
    unfold parkAwaitingBatch
    split
    · next t'' hp =>
      simp only [parkStatus, Option.ite_none_right_eq_some, Option.some.injEq] at hp
      obtain ⟨-, rfl⟩ := hp
      simpa [recordBatchIds, Payload.pendingBatchIds] using ht
    · simpa [recordBatchIds, Payload.pendingBatchIds] using ht
  | record ids =>
    obtain rfl : ids = [] := hw
    simp only [Write.run, Option.some.injEq] at h
    subst h
    simpa [recordBatchIds, Payload.pendingBatchIds] using ht
  | merge data =>
    simp only [Write.run, Option.some.injEq] at h
    subst h
    simp only [newIds] at hw
    cases hd : data.batch_ids with
    | none => simpa [mergePayload, Payload.pendingBatchIds, hd] using ht
    | some ids => simpa [mergePayload, Payload.pendingBatchIds, hd] using hw
  | finish c done e now =>
    simp only [Write.run, Queue.finish, Option.ite_none_right_eq_some, Option.some.injEq] at h
    obtain ⟨-, rfl⟩ := h
    cases done with
    | true => rfl
    | false => simpa using ht
  | claim | reapRequeue | reapFail | heartbeat | progress | failUnavailable | defer
  | requeueTransient | requeueOnExit | parkWaiting | resumeParked | retry | reopenParent
  | finalizeParent | cancel | reconcile =>
    simp only [Write.run, claimTask, Queue.reapRequeue, Queue.reapFail, Queue.heartbeat,
      writeProgress, failUnavailablePayload, deferTask, Queue.requeueTransient,
      Queue.requeueOnExit, Queue.parkWaiting, Queue.resumeParked, Queue.retry, Queue.reopenParent,
      Queue.finalizeParent, Queue.cancel, reconcileChunk, Option.ite_none_right_eq_some,
      Option.some.injEq] at h
    obtain ⟨-, rfl⟩ := h
    simpa [Payload.pendingBatchIds] using ht

/-- A row that a statement other than the claim leaves running was running, under the same claim,
and names no batch if it named none and the statement writes none. -/
theorem apply_running {tr : Tracked} {w : Write} (hc : ∀ f worker now, w ≠ .claim f worker now)
    (hr : (tr.apply w).row.status = .running) :
    tr.row.status = .running ∧ (tr.apply w).newest = tr.newest ∧
      (newIds w = [] → tr.row.payload.pendingBatchIds = [] →
        (tr.apply w).row.payload.pendingBatchIds = []) := by
  cases hrun : w.run tr.row with
  | none =>
    have happ : tr.apply w = tr := by simp [Tracked.apply, hrun]
    rw [happ] at hr ⊢
    exact ⟨hr, rfl, fun _ h => h⟩
  | some t' =>
    have happ : tr.apply w =
        { tr with row := t', losses := tr.losses + if w.isLoss then 1 else 0 } := by
      simp [Tracked.apply, hrun]
    rw [happ] at hr ⊢
    refine ⟨?_, rfl, ids_empty_of_run hrun⟩
    dsimp only at hr
    cases Write.run_effect hrun with
    | claimed f worker now hw => exact absurd hw (hc f worker now)
    | touched hs' => exact hs' ▸ hr
    | ended hs' => exact absurd (by simp [hr]) hs'
    | lost _ _ hs' => rw [hs'] at hr; contradiction
    | gaveBack _ _ hs' => rw [hs'] at hr; contradiction
    | unavailable _ _ hs' => rw [hs'] at hr; contradiction
    | parked _ hs' => rw [hs'] at hr; contradiction
    | resumed _ hs' => rw [hs'] at hr; contradiction
    | recovered _ _ hs' => rw [hs'] at hr; contradiction

/-- What the endings are owed: a holder about to write `finish('done')` names no batch. -/
def Clean (q : Queue.State) (e : Execution) : Prop :=
  e.seq < q.issued ∧ (Live q e → ∀ tr, q.tasks e.claim.task_id = some tr →
    tr.row.payload.pendingBatchIds = [])

/-- A step of the queue keeps an ending clean when it records no id on a task the ending holds. -/
theorem clean_queue_step {q q' : Queue.State} {a : Queue.Act} {e : Execution} (h : Clean q e)
    (hq : Queue.step q a = some q') (hn : names e.claim.task_id a ≠ [] → ¬ Live q e) :
    Clean q' e := by
  obtain ⟨hlt, hclean⟩ := h
  -- The row before and after: a holder after the step held the task before it.
  have key : ∀ tr' w, (∀ f worker now, w ≠ .claim f worker now) →
      (newIds w ≠ [] → ¬ Live q e) →
      (q.tasks e.claim.task_id).map (Tracked.apply w) = some tr' → tr'.row.status = .running →
      tr'.newest = some e.seq → tr'.row.payload.pendingBatchIds = [] := by
    intro tr' w hc hids htr' hr hnew
    obtain ⟨tr, htr, rfl⟩ := Option.map_eq_some_iff.mp htr'
    obtain ⟨hr₀, hn₀, hkeep⟩ := apply_running hc hr
    have hlive : Live q e := ⟨tr, htr, hr₀, hn₀ ▸ hnew⟩
    have hw : newIds w = [] := by
      by_contra hne
      exact hids hne hlive
    exact hkeep hw (hclean hlive tr htr)
  cases a with
  | enqueue id kind host source rest parent_id =>
    simp only [Queue.step, Option.ite_none_right_eq_some, Option.some.injEq] at hq
    obtain ⟨-, rfl⟩ := hq
    refine ⟨hlt, ?_⟩
    rintro ⟨tr', htr', hr, hnew⟩ tr htr
    by_cases hid : e.claim.task_id = id
    · subst hid
      simp only [Function.update_self, Option.some.injEq] at htr'
      subst htr'
      simp at hnew
    · simp only [Function.update_of_ne hid] at htr htr'
      exact hclean ⟨tr', htr', hr, hnew⟩ tr htr
  | claim id f worker now =>
    simp only [Queue.step] at hq
    split at hq
    · contradiction
    next tr₀ htr₀ =>
      split at hq
      · contradiction
      next t' hclaim =>
        obtain rfl := Option.some.inj hq
        refine ⟨Nat.lt_succ_of_lt hlt, ?_⟩
        rintro ⟨tr', htr', hr, hnew⟩ tr htr
        by_cases hid : e.claim.task_id = id
        · -- The task is the new claim's.
          subst hid
          simp only [Function.update_self, Option.some.injEq] at htr'
          subst htr'
          simp only [Option.some.injEq] at hnew
          omega
        · simp only [Function.update_of_ne hid] at htr htr'
          exact hclean ⟨tr', htr', hr, hnew⟩ tr htr
  | sweep sel w =>
    simp only [Queue.step, Option.ite_none_right_eq_some, Option.some.injEq] at hq
    obtain ⟨hw, rfl⟩ := hq
    refine ⟨hlt, ?_⟩
    rintro ⟨tr', htr', hr, hnew⟩ tr htr
    obtain rfl := Option.some.inj (htr'.symm.trans htr)
    cases hsel : sel e.claim.task_id with
    | true =>
      simp only [hsel, if_true] at htr'
      exact key tr' w (Write.not_claim_of_unguarded hw) (by simpa [names, hsel] using hn) htr' hr
        hnew
    | false =>
      simp only [hsel, Bool.false_eq_true, if_false, Option.map_id'] at htr'
      exact hclean ⟨tr', htr', hr, hnew⟩ tr' htr'
  | act e' w =>
    simp only [Queue.step, Option.ite_none_right_eq_some, Option.some.injEq] at hq
    obtain ⟨⟨-, hg⟩, rfl⟩ := hq
    refine ⟨hlt, ?_⟩
    rintro ⟨tr', htr', hr, hnew⟩ tr htr
    obtain rfl := Option.some.inj (htr'.symm.trans htr)
    by_cases hid : e.claim.task_id = e'.claim.task_id
    · simp only [hid, Function.update_self] at htr'
      rw [← hid] at htr'
      exact key tr' w (Write.not_claim_of_guard hg) (by simpa [names, hid] using hn) htr' hr hnew
    · simp only [Function.update_of_ne hid] at htr'
      exact hclean ⟨tr', htr', hr, hnew⟩ tr' htr'
  | stop e' =>
    simp only [Queue.step, Option.some.injEq] at hq
    subst hq
    exact ⟨hlt, hclean⟩

/-- The invariant of a quiet run: the queue is fenced, every ending was issued its claim, and the
ones about to write `finish('done')` are clean. -/
structure Settled (s : State) : Prop where
  fenced : Fenced s.queue
  issued : ∀ e phase, (e, phase) ∈ s.endings → e.seq < s.queue.issued
  finishing : ∀ e error, (e, .finishing error) ∈ s.endings → Clean s.queue e

/-- A step of the queue under the condition keeps the invariant, with the endings left as they
are. -/
theorem Settled.queue {s : State} (h : Settled s) {a : Queue.Act} {q : Queue.State}
    (hq : Queue.step s.queue a = some q)
    (hn : ∀ id, names id a ≠ [] → NoneFinishing s id) : Settled { s with queue := q } := by
  refine ⟨fenced_step s.queue a q h.fenced hq, fun e phase he => ?_, fun e error he => ?_⟩
  · have hlt := h.issued e phase he
    cases a with
    | claim id f worker now =>
      simp only [Queue.step] at hq
      split at hq
      · contradiction
      · split at hq
        · contradiction
        · obtain rfl := Option.some.inj hq
          exact Nat.lt_succ_of_lt hlt
    | enqueue | sweep | act =>
      simp only [Queue.step, Option.ite_none_right_eq_some, Option.some.injEq] at hq
      obtain ⟨-, rfl⟩ := hq
      exact hlt
    | stop =>
      simp only [Queue.step, Option.some.injEq] at hq
      subst hq
      exact hlt
  · refine clean_queue_step (h.finishing e error he) hq fun hne => ?_
    exact hn _ hne e error he rfl

/-- Endings may be dropped. -/
theorem Settled.drop {s : State} (h : Settled s) {endings : List (Execution × Phase)}
    (hsub : ∀ x ∈ endings, x ∈ s.endings) : Settled { s with endings := endings } :=
  ⟨h.fenced, fun e p he => h.issued e p (hsub _ he), fun e p he => h.finishing e p (hsub _ he)⟩

/-- An ending may be added, clean if it is about to write `finish('done')`. -/
theorem Settled.add {s : State} (h : Settled s) {e : Execution} {phase : Phase}
    (he : e.seq < s.queue.issued) (hc : ∀ error, phase = .finishing error → Clean s.queue e) :
    Settled { s with endings := (e, phase) :: s.endings } := by
  refine ⟨h.fenced, fun e' p hm => ?_, fun e' error hm => ?_⟩
  · rcases List.mem_cons.mp hm with heq | hm
    · obtain ⟨rfl, -⟩ := Prod.mk.inj heq
      exact he
    · exact h.issued e' p hm
  · rcases List.mem_cons.mp hm with heq | hm
    · obtain ⟨rfl, rfl⟩ := Prod.mk.inj heq
      exact hc error rfl
    · exact h.finishing e' error hm

/-- A refused park says that the execution does not hold its task. -/
theorem not_live_of_refused {q : Queue.State} (hf : Fenced q) {e : Execution}
    (he : e ∈ q.executing) {tr : Tracked} (htr : q.tasks e.claim.task_id = some tr)
    {ids : List String}
    (hp : (parkAwaitingBatch (some e.claim) e.claim.task_id ids tr.row).2 = false) :
    ¬ Live q e := by
  rintro ⟨tr', htr', hr, hnew⟩
  obtain rfl := Option.some.inj (htr.symm.trans htr')
  obtain ⟨-, tr', htr', ho⟩ := hf e he
  obtain rfl := Option.some.inj (htr.symm.trans htr')
  have hst := ((ho.2 hr).1 hnew).1
  rw [parkAwaitingBatch_snd, hst, hr] at hp
  contradiction

/-- One quiet step keeps the invariant. -/
theorem settled_step (s : State) (a : Act) (s' : State) (h : Settled s) (ha : Quiet s a)
    (hs : step s a = some s') : Settled s' := by
  cases a with
  | queue a =>
    simp only [step, Option.ite_none_left_eq_some, Option.map_eq_some_iff] at hs
    obtain ⟨-, q, hq, rfl⟩ := hs
    exact h.queue hq ha
  | returned e =>
    simp only [step] at hs
    split at hs
    · contradiction
    next tr htr =>
      simp only [Option.ite_none_right_eq_some, Option.some.injEq] at hs
      obtain ⟨he, rfl⟩ := hs
      have hlt := (h.fenced e he).1
      refine h.add hlt fun error herr => ⟨hlt, fun _ tr' htr' => ?_⟩
      obtain rfl := Option.some.inj (htr.symm.trans htr')
      by_contra hne
      simp [hne] at herr
  | repark e remaining =>
    simp only [step] at hs
    split at hs
    · contradiction
    next tr htr =>
      simp only [Option.ite_none_right_eq_some, Option.map_eq_some_iff] at hs
      obtain ⟨hmem, q, hq, rfl⟩ := hs
      have hquiet : ∀ id, names id (.act e (.park e.claim remaining)) ≠ [] →
          NoneFinishing s id := by
        intro id hne
        by_cases hid : e.claim.task_id = id
        · exact hid ▸ ha
        · simp [names, hid] at hne
      have hq' := h.queue hq hquiet
      have hrest : ∀ x ∈ s.endings.erase (e, .reparking remaining), x ∈ s.endings :=
        fun x hx => List.mem_of_mem_erase hx
      split
      · exact hq'.drop hrest
      next hrefused =>
        simp only [Bool.not_eq_true] at hrefused
        refine (hq'.drop hrest).add (hq'.issued e _ hmem) fun _ _ => ?_
        -- The park was refused, so the execution did not hold its task, and it never will again.
        have hexec : e ∈ s.queue.executing := by
          simp only [Queue.step, Option.ite_none_right_eq_some] at hq
          exact hq.1.1
        have hdead : ¬ Live s.queue e := not_live_of_refused h.fenced hexec htr hrefused
        exact clean_queue_step ⟨h.issued e _ hmem, fun hl => absurd hl hdead⟩ hq fun _ => hdead
  | paused e =>
    simp only [step, Option.ite_none_right_eq_some, Option.some.injEq] at hs
    obtain ⟨he, rfl⟩ := hs
    have hlt := (h.fenced e he).1
    exact h.add hlt fun _ _ => ⟨hlt, fun _ tr htr => ha tr htr⟩
  | finishDone e error now =>
    simp only [step, Option.ite_none_right_eq_some, Option.map_eq_some_iff] at hs
    obtain ⟨-, q, hq, rfl⟩ := hs
    refine (h.queue hq fun id hne => ?_).drop fun x hx => List.mem_of_mem_erase hx
    by_cases hid : e.claim.task_id = id <;> simp [names, newIds, hid] at hne

/-- Every state of a quiet run is settled. -/
theorem settled_of_run {s : State} (h : Run step Quiet .empty s) : Settled s :=
  h.invariant (by constructor <;> simp [State.empty, Fenced, Queue.State.empty]) settled_step

/-- Under a claim, only `finish('done')` ends a task as done. -/
theorem status_ne_done_of_run {w : Write} {c : TaskClaim} {t t' : Task} (hg : w.guard = some c)
    (hw : ∀ error now, w ≠ .finish c true error now) (hnd : t.status ≠ .done)
    (hrun : w.run t = some t') : t'.status ≠ .done := by
  cases w with
  | finish c' done error now =>
    obtain rfl : c' = c := by simpa [Write.guard] using hg
    simp only [Write.run, Queue.finish, Option.ite_none_right_eq_some, Option.some.injEq] at hrun
    obtain ⟨-, rfl⟩ := hrun
    cases done with
    | true => exact absurd rfl (hw error now)
    | false => simp
  | park c' ids =>
    simp only [Write.run, Option.some.injEq] at hrun
    subst hrun
    unfold parkAwaitingBatch
    split
    · next t'' hp =>
      simp only [parkStatus, Option.ite_none_right_eq_some, Option.some.injEq] at hp
      obtain ⟨-, rfl⟩ := hp
      simp
    · exact hnd
  | heartbeat | progress =>
    simp only [Write.run, Queue.heartbeat, writeProgress, Option.ite_none_right_eq_some,
      Option.some.injEq] at hrun
    obtain ⟨-, rfl⟩ := hrun
    exact hnd
  | failUnavailable | defer | requeueTransient | requeueOnExit | parkWaiting =>
    simp only [Write.run, failUnavailablePayload, deferTask, Queue.requeueTransient,
      Queue.requeueOnExit, Queue.parkWaiting, Option.ite_none_right_eq_some,
      Option.some.injEq] at hrun
    obtain ⟨-, rfl⟩ := hrun
    simp
  | claim | reapRequeue | reapFail | record | merge | resumeParked | retry | reopenParent
  | finalizeParent | cancel | reconcile => simp [Write.guard] at hg

/-- Done means collected, in a quiet run. For every task and execution: `finish('done')`, written at
the end of a normal return or of `AIPaused`, takes effect only on a row that names no batch; and
every other write under a claim leaves the task in a status other than done with its batch ids
intact. -/
theorem done_means_collected {s : State} (h : Run step Quiet .empty s) (e : Execution)
    (tr : Tracked) (htr : s.queue.tasks e.claim.task_id = some tr) :
    (∀ error now s' tr', step s (.finishDone e error now) = some s' →
        s'.queue.tasks e.claim.task_id = some tr' → tr.row.status ≠ .done →
        tr'.row.status = .done → tr.row.payload.pendingBatchIds = []) ∧
      ∀ (w : Write) (t' : Task), w.guard = some e.claim →
        (∀ error now, w ≠ .finish e.claim true error now) → tr.row.status ≠ .done →
        w.run tr.row = some t' →
          t'.status ≠ .done ∧ ∀ b ∈ tr.row.payload.pendingBatchIds,
            b ∈ t'.payload.pendingBatchIds := by
  have hset := settled_of_run h
  refine ⟨fun error now s' tr' hs htr' hnd hd => ?_, fun w t' hg hw hnd hrun => ?_⟩
  · simp only [step, Option.ite_none_right_eq_some, Option.map_eq_some_iff] at hs
    obtain ⟨hmem, q, hq, rfl⟩ := hs
    simp only [Queue.step, Option.ite_none_right_eq_some, Option.some.injEq] at hq
    obtain ⟨⟨hexec, -⟩, rfl⟩ := hq
    simp only [Function.update_self, htr, Option.map_some, Option.some.injEq] at htr'
    -- The write matched, so the row was running under the execution's claim, the newest.
    have hmatch : tr.row.status = .running ∧ e.claim.stamps tr.row = true := by
      by_contra hno
      refine hnd ?_
      rw [← hd, ← htr', Tracked.apply]
      have hnone : (Write.finish e.claim true error now).run tr.row = none := by
        simp only [Write.run, Queue.finish, claimGuard_self]
        rw [if_neg]
        simpa using hno
      rw [hnone]
    obtain ⟨-, tr₀, htr₀, ho⟩ := hset.fenced e hexec
    obtain rfl := Option.some.inj (htr.symm.trans htr₀)
    have hnew : tr.newest = some e.seq := by
      by_contra hne
      have hlt := (ho.2 hmatch.1).2 hne
      have hst := (TaskClaim.stamps_iff _ _).mp hmatch.2
      omega
    exact (hset.finishing e error hmem).2 ⟨tr, htr, hmatch.1, hnew⟩ tr htr
  · have hd' := status_ne_done_of_run hg hw hnd hrun
    refine ⟨hd', fun b hb => Batches.mem_ids_of_run ?_ hrun hd' (.inl hb)⟩
    cases w <;> simp only [Write.guard, Option.some.injEq, reduceCtorEq] at hg <;> rfl

/-- A worker is reaped while it submits, and its successor's handler returns with nothing to wait
for. The zombie's batch is accepted and recorded after the successor's look. -/
def lateWaveRun : List Act :=
  let take worker now := Act.queue (.claim 1 { known := ["verify_new"] } worker now)
  [.queue (.enqueue 1 "verify_new" none none [] none), take "oci" 0,
    .queue (.sweep (fun _ => true) (.reapRequeue ⟨3, 15⟩ 1000)), take "gcp-vps" 1001,
    .returned ⟨1, ⟨1, "gcp-vps", 2⟩, 2⟩,
    .queue (.sweep (fun _ => true) (.record ["batch_1"]))]

/-- Without the condition the claim fails: after `lateWaveRun`, `finish('done')` takes effect on a
row that names `batch_1`, and deletes it. -/
theorem finish_done_drops_recorded_id :
    ¬ ∀ s, Run step Always .empty s → ∀ e error now s' tr tr',
      step s (.finishDone e error now) = some s' →
      s.queue.tasks e.claim.task_id = some tr → s'.queue.tasks e.claim.task_id = some tr' →
      tr.row.status ≠ .done → tr'.row.status = .done → tr.row.payload.pendingBatchIds = [] := by
  intro hall
  have hrun : runList step .empty lateWaveRun =
      some ((runList step .empty lateWaveRun).get (by decide)) := by simp
  have h := hall _ (run_of_runList hrun) ⟨1, ⟨1, "gcp-vps", 2⟩, 2⟩ none 1002 _ _ _ rfl rfl rfl
    (by decide) rfl
  revert h
  decide

/-- A quiet run. The hook of a handler records `batch_1`, and the handler returns: the task is parked,
resumed and claimed again. The second handler fails for a passing reason, which keeps the id; the
third collects the batch and returns, and its `finish('done')` finds no id. -/
theorem done_means_collected_returned :
    ∃ s₁ s₂ s₃ tr₁ t₁ tr₂ tr₃,
      Run step Quiet .empty s₁ ∧ s₁.queue.tasks 1 = some tr₁ ∧
      tr₁.row.payload.pendingBatchIds = ["batch_1"] ∧
      (Write.requeueTransient ⟨1, "oci", 2⟩ "timeout").run tr₁.row = some t₁ ∧
      t₁.status = .pending ∧ "batch_1" ∈ t₁.payload.pendingBatchIds ∧
      Run step Quiet .empty s₂ ∧ s₂.queue.tasks 1 = some tr₂ ∧
      step s₂ (.finishDone ⟨2, ⟨1, "oci", 3⟩, 2⟩ none 90) = some s₃ ∧
      s₃.queue.tasks 1 = some tr₃ ∧ tr₃.row.status = .done ∧
      tr₂.row.payload.pendingBatchIds = [] := by
  have hnew : Run step Quiet .empty _ :=
    .next (.queue (.enqueue 1 "verify_new" none none [] none)) .start
      (fun _ h => absurd rfl h) rfl
  have hfirst := hnew.next (Act.queue (.claim 1 { known := ["verify_new"] } "gcp-vps" 0))
    (fun _ h => absurd rfl h) rfl
  -- No handler has ended when the hook records the id.
  have hrecorded := hfirst.next (Act.queue (.sweep (fun id => id == 1) (.record ["batch_1"])))
    (fun _ _ _ _ h => absurd h List.not_mem_nil) rfl
  have hlooked := hrecorded.next (Act.returned ⟨0, ⟨1, "gcp-vps", 1⟩, 1⟩) trivial rfl
  -- The one that is ending is about to park.
  have hparked := hlooked.next (Act.repark ⟨0, ⟨1, "gcp-vps", 1⟩, 1⟩ ["batch_1"])
    (fun _ error h => absurd (show Phase.finishing error = .reparking ["batch_1"] from
      congrArg Prod.snd (List.mem_singleton.mp h)) Phase.noConfusion) rfl
  have hresumed := hparked.next (Act.queue (.sweep (fun id => id == 1) .resumeParked))
    (fun id h => absurd (by simp [names, newIds]) h) rfl
  have hsecond := hresumed.next (Act.queue (.claim 1 { known := ["verify_new"] } "oci" 60))
    (fun _ h => absurd rfl h) rfl
  have hfailed := hsecond.next
    (Act.queue (.act ⟨1, ⟨1, "oci", 2⟩, 1⟩ (.requeueTransient ⟨1, "oci", 2⟩ "timeout")))
    (fun id h => absurd (by simp [names, newIds]) h) rfl
  have hthird := hfailed.next (Act.queue (.claim 1 { known := ["verify_new"] } "oci" 80))
    (fun _ h => absurd rfl h) rfl
  have hcollected := hthird.next (Act.queue (.sweep (fun id => id == 1)
      (.merge { batch_ids := some [], batch_collection_checkpointed := true })))
    (fun id h => absurd (by simp [names, newIds]) h) rfl
  have hreturned := hcollected.next (Act.returned ⟨2, ⟨1, "oci", 3⟩, 2⟩) trivial rfl
  have hkept := (done_means_collected hsecond ⟨1, ⟨1, "oci", 2⟩, 1⟩ _ rfl).2
    (.requeueTransient ⟨1, "oci", 2⟩ "timeout") _ rfl (fun _ _ => Write.noConfusion) (by decide) rfl
  have hempty := (done_means_collected hreturned ⟨2, ⟨1, "oci", 3⟩, 2⟩ _ rfl).1 none 90 _ _ rfl rfl
    (by decide) rfl
  exact ⟨_, _, _, _, _, _, _, hsecond, rfl, rfl, rfl, rfl, hkept.2 "batch_1" (by decide), hreturned, rfl,
    rfl, rfl, rfl, hempty⟩

end JobScripts.Queue.Exits

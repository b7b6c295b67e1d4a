import JobScripts.Queue.Claims

/-!
# Recording and collecting provider batches

One task's batch ids under every writer of `payload.batch_ids`: the event hook and the park append
(`_record_batch_ids`), `finish('done')` drops, and `batch_results.checkpoint` overwrites the list
with what a collection found unfinished. A collection (`collect_pending`) reads the list once, asks
the provider for each batch in turn, and checkpoints at the end, so any number of collections, of
zombies and of successors, are in flight at once, each at its own point. None of these writes is
guarded by a claim, so the model runs them beside every statement of `Queue/Task.lean`.

`paid_batch_id_kept` proves that no recorded id is lost in a run whose checkpoints are timely: each
id that the payload names when a collection checkpoints was in that collection's read, or was
collected before. `checkpoint_drops_appended_id` is a run with one checkpoint that is not.
-/

namespace JobScripts.Queue.Batches

open Lib

/-! ## The provider and the receipts -/

/-- The states of a provider batch. -/
inductive BatchStatus
  | validating | inProgress | finalizing | completed | failed | expired | cancelling | cancelled

/-- `TERMINAL_STATES`: the provider will not change the batch any more. -/
def BatchStatus.terminal : BatchStatus → Bool
  | .completed | .failed | .expired | .cancelled => true
  | .validating | .inProgress | .finalizing | .cancelling => false

/-- A provider batch: its state, and the custom ids of its output and error files' lines. -/
structure ProviderBatch where
  status : BatchStatus := .validating
  output : List String := []
  errors : List String := []

/-- `batch_result_receipts`: the task that holds the receipt of a result, by batch and custom id. -/
abbrev Receipts := String → String → Option ℕ

/-- The receipt loop of `checkpoint`: `ON CONFLICT DO NOTHING`, then the check that the receipt is
the task's; `none` is the error that rolls the transaction back. -/
def storeReceipts (task : ℕ) : List (String × String) → Receipts → Option Receipts
  | [], r => some r
  | (b, c) :: rest, r =>
    match r b c with
    | none => storeReceipts task rest fun b' c' => if b' = b ∧ c' = c then some task else r b' c'
    | some t => if t = task then storeReceipts task rest r else none

/-- What a receipt loop that goes through leaves: every result has a receipt of the task, and no
receipt is lost or changes hands. -/
theorem storeReceipts_spec {task : ℕ} :
    ∀ {results : List (String × String)} {r r' : Receipts}, storeReceipts task results r = some r' →
      (∀ b c, (b, c) ∈ results → r' b c = some task) ∧
        ∀ b c t, r b c = some t → r' b c = some t
  | [], r, r', h => by
    obtain rfl : r = r' := by simpa [storeReceipts] using h
    exact ⟨by simp, fun _ _ _ h => h⟩
  | (b, c) :: rest, r, r', h => by
    simp only [storeReceipts] at h
    split at h
    next hnone =>
      obtain ⟨hall, hkeep⟩ := storeReceipts_spec h
      refine ⟨fun b' c' hm => ?_, fun b' c' t ht => hkeep b' c' t ?_⟩
      · rcases List.mem_cons.mp hm with heq | hm
        · obtain ⟨rfl, rfl⟩ := Prod.mk.inj heq
          exact hkeep _ _ _ (by simp)
        · exact hall b' c' hm
      · have hne : ¬(b' = b ∧ c' = c) := by
          rintro ⟨rfl, rfl⟩
          rw [hnone] at ht
          contradiction
        simpa [hne] using ht
    next t ht =>
      split at h
      next htask =>
        subst htask
        obtain ⟨hall, hkeep⟩ := storeReceipts_spec h
        refine ⟨fun b' c' hm => ?_, hkeep⟩
        rcases List.mem_cons.mp hm with heq | hm
        · obtain ⟨rfl, rfl⟩ := Prod.mk.inj heq
          exact hkeep _ _ _ ht
        · exact hall b' c' hm
      next => contradiction

/-! ## Collections in flight -/

/-- A `collect_pending` between its read of the batch ids and its checkpoint. -/
structure Collection where
  /-- What `pending_batch_ids` returned. -/
  existing : List String
  /-- The batches not asked about yet. -/
  todo : List String
  /-- The batches read, each with the custom ids of its results. -/
  results : List (String × List String) := []
  unfinished : List String := []
  deriving DecidableEq

/-- How asking the provider about one batch goes. -/
inductive Look
  /-- The status cannot be read. -/
  | unreachable
  /-- The status is read, but not the results of a terminal batch. -/
  | unread
  /-- The status and, of a terminal batch, the results are read; a failure to read the error file
  is swallowed. -/
  | read (errors_read : Bool)
  deriving DecidableEq

/-- The collection after one batch of its list. -/
def Collection.look (k : Collection) (b : String) (rest : List String) (p : ProviderBatch) :
    Look → Collection
  | .unreachable | .unread => { k with todo := rest, unfinished := k.unfinished ++ [b] }
  | .read errors_read =>
    if p.status.terminal then
      { k with
        todo := rest
        results := k.results ++ [(b, p.output ++ if errors_read then p.errors else [])] }
    else { k with todo := rest, unfinished := k.unfinished ++ [b] }

/-- The results of a collection, one for each receipt. -/
def Collection.receipts (k : Collection) : List (String × String) :=
  k.results.flatMap fun br => br.2.map fun c => (br.1, c)

/-- One task's batches: its row, the receipts, the provider, the collections in flight, and two
histories: the ids ever recorded for the task, and the batches read by collections that
checkpointed, with the results read. -/
structure State where
  task : ℕ
  row : Task
  receipts : Receipts
  provider : String → ProviderBatch
  collections : List Collection := []
  recorded : List String := []
  read : List (String × List String) := []

/-- A statement that leaves `batch_ids` alone or appends to it, unless it ends the task. The only
`merge_payload` that names the key is `checkpoint`'s. -/
def appends : Write → Bool
  | .merge data => data.batch_ids.isNone
  | _ => true

/-- The ids that a statement records. -/
def recordedBy : Write → List String
  | .park _ ids | .record ids => ids
  | _ => []

/-- What can happen next. -/
inductive Act
  /-- Any statement of the queue; a hook's or a park's record among them. -/
  | write (w : Write)
  /-- The provider moves a batch on. -/
  | advance (b : String) (p : ProviderBatch)
  /-- Another task's checkpoint stores a receipt. -/
  | foreign (b c : String) (other : ℕ)
  /-- `collect_pending` reads the batch ids. -/
  | collect
  /-- A collection asks about its next batch. The hook is called with the state it read, and
  records the id. -/
  | look (k : Collection) (how : Look)
  /-- A collection that has asked about every batch checkpoints, in one transaction. -/
  | checkpoint (k : Collection)
  /-- A collection dies. -/
  | crash (k : Collection)

/-- One step. -/
def step (s : State) : Act → Option State
  | .write w =>
    if appends w then
      (w.run s.row).map fun t' => { s with row := t', recorded := recordedBy w ++ s.recorded }
    else none
  | .advance b p =>
    -- A terminal state is final.
    if (s.provider b).status.terminal then none
    else some { s with provider := fun b' => if b' = b then p else s.provider b' }
  | .foreign b c other =>
    if s.receipts b c = none ∧ other ≠ s.task then
      some { s with
        receipts := fun b' c' => if b' = b ∧ c' = c then some other else s.receipts b' c' }
    else none
  | .collect =>
    let ids := s.row.payload.pendingBatchIds
    some { s with collections := { existing := ids, todo := ids } :: s.collections }
  | .look k how =>
    match k.todo with
    | [] => none
    | b :: rest =>
      if k ∈ s.collections then
        let s' := { s with
          collections := k.look b rest (s.provider b) how :: s.collections.erase k }
        if how = .unreachable then some s'
        else some { s' with row := recordBatchIds [b] s.row, recorded := b :: s.recorded }
      else none
  | .checkpoint k =>
    if k ∈ s.collections ∧ k.todo = [] then
      (storeReceipts s.task k.receipts s.receipts).map fun r =>
        { s with
          row := mergePayload
            { batch_ids := some k.unfinished, batch_collection_checkpointed := true } s.row
          receipts := r
          collections := s.collections.erase k
          read := k.results ++ s.read }
    else none
  | .crash k => some { s with collections := s.collections.erase k }

/-- A task before anything is recorded for it. -/
def State.start (task : ℕ) (row : Task) (receipts : Receipts) (provider : String → ProviderBatch) :
    State :=
  { task, row, receipts, provider }

/-- The batch is terminal, was read, and every result read from it has the task's receipt. -/
def Collected (s : State) (b : String) : Prop :=
  (s.provider b).status.terminal = true ∧ (∃ rs, (b, rs) ∈ s.read) ∧
    ∀ rs, (b, rs) ∈ s.read → ∀ c ∈ rs, s.receipts b c = some s.task

/-- The condition on a step: when a collection checkpoints, each id that the payload names was in
the collection's read or was collected before. -/
def Timely (s : State) : Act → Prop
  | .checkpoint k => ∀ b ∈ s.row.payload.pendingBatchIds, b ∈ k.existing ∨ Collected s b
  | _ => True

/-! ## The invariant -/

/-- Recording appends what is missing and drops nothing. -/
theorem mem_recordBatchIds {ids : List String} {t : Task} {b : String} :
    b ∈ (recordBatchIds ids t).payload.pendingBatchIds ↔
      b ∈ t.payload.pendingBatchIds ∨ b ∈ ids := by
  simp only [recordBatchIds, Payload.pendingBatchIds, Option.getD_some, List.mem_append,
    List.mem_filter, Bool.not_eq_true', List.contains_eq_mem, decide_eq_false_iff_not]
  tauto

/-- A statement that does not end the task as done keeps the ids that the payload names, and adds
the ones it records. -/
theorem mem_ids_of_run {w : Write} {t t' : Task} (hw : appends w = true)
    (h : w.run t = some t') (hd : t'.status ≠ .done) {b : String}
    (hb : b ∈ t.payload.pendingBatchIds ∨ b ∈ recordedBy w) :
    b ∈ t'.payload.pendingBatchIds := by
  cases w with
  | park c ids =>
    simp only [Write.run, Option.some.injEq] at h
    subst h
    unfold parkAwaitingBatch
    split
    · next t'' hp =>
      simp only [parkStatus, Option.ite_none_right_eq_some, Option.some.injEq] at hp
      obtain ⟨-, rfl⟩ := hp
      exact mem_recordBatchIds.mpr hb
    · exact mem_recordBatchIds.mpr hb
  | record ids =>
    simp only [Write.run, Option.some.injEq] at h
    subst h
    exact mem_recordBatchIds.mpr hb
  | merge data =>
    simp only [Write.run, Option.some.injEq] at h
    subst h
    simp only [appends, Option.isNone_iff_eq_none] at hw
    simpa [mergePayload, Payload.pendingBatchIds, hw, recordedBy] using hb
  | finish c done e now =>
    simp only [Write.run, Queue.finish, Option.ite_none_right_eq_some, Option.some.injEq] at h
    obtain ⟨-, rfl⟩ := h
    cases done with
    | true => simp at hd
    | false => simpa [recordedBy] using hb
  | claim | reapRequeue | reapFail | heartbeat | progress | failUnavailable | defer
  | requeueTransient | requeueOnExit | parkWaiting | resumeParked | retry | reopenParent
  | finalizeParent | cancel | reconcile =>
    simp only [Write.run, claimTask, Queue.reapRequeue, Queue.reapFail, Queue.heartbeat,
      writeProgress, failUnavailablePayload, deferTask, Queue.requeueTransient,
      Queue.requeueOnExit, Queue.parkWaiting, Queue.resumeParked, Queue.retry, Queue.reopenParent,
      Queue.finalizeParent, Queue.cancel, reconcileChunk, Option.ite_none_right_eq_some,
      Option.some.injEq] at h
    obtain ⟨-, rfl⟩ := h
    simpa [recordedBy, Payload.pendingBatchIds] using hb

/-- `done` is final. -/
theorem status_done_of_run {w : Write} {t t' : Task} (h : w.run t = some t')
    (hd : t.status = .done) : t'.status = .done := by
  cases w with
  | park c ids =>
    simp only [Write.run, Option.some.injEq] at h
    subst h
    simp [parkAwaitingBatch, parkStatus, recordBatchIds, hd]
  | record ids =>
    simp only [Write.run, Option.some.injEq] at h
    subst h
    exact hd
  | merge data =>
    simp only [Write.run, Option.some.injEq] at h
    subst h
    exact hd
  | progress c p r keys now =>
    simp only [Write.run, writeProgress, Option.ite_none_right_eq_some, Option.some.injEq] at h
    obtain ⟨-, rfl⟩ := h
    exact hd
  | claim | reapRequeue | reapFail | heartbeat | finish | failUnavailable | defer
  | requeueTransient | requeueOnExit | parkWaiting | resumeParked | retry | reopenParent
  | finalizeParent | cancel | reconcile =>
    simp [Write.run, claimTask, claimable, Queue.reapRequeue, Queue.reapFail, Queue.heartbeat,
      Queue.finish, failUnavailablePayload, deferTask, Queue.requeueTransient,
      Queue.requeueOnExit, Queue.parkWaiting, Queue.resumeParked, Queue.retry, Queue.reopenParent,
      Queue.finalizeParent, Queue.cancel, reconcileChunk, Status.active, hd] at h

/-- What a collection in flight has established: each batch of its read is still to be asked
about, unfinished, or read, and the batches read are terminal. -/
def Sound (s : State) (k : Collection) : Prop :=
  (∀ b ∈ k.existing, b ∈ k.todo ∨ b ∈ k.unfinished ∨ ∃ rs, (b, rs) ∈ k.results) ∧
    ∀ b rs, (b, rs) ∈ k.results → (s.provider b).status.terminal = true

/-- The invariant of a timely run. -/
structure Kept (s : State) : Prop where
  /-- No recorded id is lost. -/
  recorded : ∀ b ∈ s.recorded, s.row.status ≠ .done →
    b ∈ s.row.payload.pendingBatchIds ∨ Collected s b
  collections : ∀ k ∈ s.collections, Sound s k
  /-- What was read is terminal, and has its receipts. -/
  read : ∀ b rs, (b, rs) ∈ s.read →
    (s.provider b).status.terminal = true ∧ ∀ c ∈ rs, s.receipts b c = some s.task

/-- Under the invariant, a batch read by a collection that checkpointed is collected. -/
theorem Kept.collected {s : State} (h : Kept s) {b : String} {rs : List String}
    (hb : (b, rs) ∈ s.read) : Collected s b :=
  ⟨(h.read b rs hb).1, ⟨rs, hb⟩, fun rs' hb' => (h.read b rs' hb').2⟩

/-- Asking about one batch keeps a collection sound. -/
theorem Sound.look {s : State} {k : Collection} (h : Sound s k) {b : String} {rest : List String}
    (ht : k.todo = b :: rest) (how : Look) : Sound s (k.look b rest (s.provider b) how) := by
  obtain ⟨hall, hterm⟩ := h
  -- Wherever a batch of the read was, it is still accounted for once `b` is.
  have hmove : ∀ b' ∈ k.existing,
      b' = b ∨ b' ∈ rest ∨ b' ∈ k.unfinished ∨ ∃ rs, (b', rs) ∈ k.results := by
    intro b' hb'
    rcases hall b' hb' with h | h | h
    · rw [ht] at h
      rcases List.mem_cons.mp h with h | h
      · exact .inl h
      · exact .inr (.inl h)
    · exact .inr (.inr (.inl h))
    · exact .inr (.inr (.inr h))
  have hunfinished : Sound s { k with todo := rest, unfinished := k.unfinished ++ [b] } := by
    refine ⟨fun b' hb' => ?_, hterm⟩
    rcases hmove b' hb' with rfl | h | h | h
    · exact .inr (.inl (by simp))
    · exact .inl h
    · exact .inr (.inl (List.mem_append_left _ h))
    · exact .inr (.inr h)
  cases how with
  | unreachable => exact hunfinished
  | unread => exact hunfinished
  | read errors_read =>
    simp only [Collection.look]
    split
    next hp =>
      refine ⟨fun b' hb' => ?_, fun b' rs hb' => ?_⟩
      · rcases hmove b' hb' with rfl | h | h | ⟨rs, h⟩
        · exact .inr (.inr ⟨_, List.mem_append_right _ (List.mem_singleton.mpr rfl)⟩)
        · exact .inl h
        · exact .inr (.inl h)
        · exact .inr (.inr ⟨rs, List.mem_append_left _ h⟩)
      · rcases List.mem_append.mp hb' with hb' | hb'
        · exact hterm b' rs hb'
        · obtain ⟨rfl, -⟩ := Prod.mk.inj (List.mem_singleton.mp hb')
          exact hp
    next => exact hunfinished

/-- A collected batch stays collected when the provider moves another batch on and receipts are
added. -/
theorem Collected.mono {s s' : State} {b : String} (h : Collected s b) (htask : s'.task = s.task)
    (hread : s'.read = s.read)
    (hterm : (s.provider b).status.terminal = true → (s'.provider b).status.terminal = true)
    (hrec : ∀ c, s.receipts b c = some s.task → s'.receipts b c = some s.task) :
    Collected s' b := by
  obtain ⟨ht, hex, hall⟩ := h
  refine ⟨hterm ht, by rw [hread]; exact hex, fun rs hrs c hc => ?_⟩
  rw [htask]
  exact hrec c (hall rs (hread ▸ hrs) c hc)

/-- One timely step keeps the invariant. -/
theorem kept_step (s : State) (a : Act) (s' : State) (h : Kept s) (ha : Timely s a)
    (hs : step s a = some s') : Kept s' := by
  obtain ⟨hrecorded, hcoll, hread⟩ := h
  cases a with
  | write w =>
    simp only [step, Option.ite_none_right_eq_some, Option.map_eq_some_iff] at hs
    obtain ⟨hw, t', hrun, rfl⟩ := hs
    -- An id that the payload named stays in it through any statement of the queue, or the task is
    -- done.
    refine ⟨fun b hb hd => ?_, hcoll, hread⟩
    rcases List.mem_append.mp hb with hb | hb
    · exact .inl (mem_ids_of_run hw hrun hd (.inr hb))
    · have hd₀ : s.row.status ≠ .done := fun h => hd (status_done_of_run hrun h)
      rcases hrecorded b hb hd₀ with hids | hcol
      · exact .inl (mem_ids_of_run hw hrun hd (.inl hids))
      · exact .inr hcol
  | advance b p =>
    simp only [step, Option.ite_none_left_eq_some, Option.some.injEq] at hs
    obtain ⟨hopen, rfl⟩ := hs
    -- A batch that is over does not change any more.
    have hstay : ∀ b', (s.provider b').status.terminal = true →
        (if b' = b then p else s.provider b').status.terminal = true := by
      intro b' hb'
      have hne : b' ≠ b := by rintro rfl; exact hopen hb'
      simpa [hne] using hb'
    refine ⟨fun b' hb' hd => ?_, fun k hk => ?_, fun b' rs hb' => ?_⟩
    · rcases hrecorded b' hb' hd with hids | hcol
      · exact .inl hids
      · exact .inr (hcol.mono rfl rfl (hstay b') fun _ h => h)
    · exact ⟨(hcoll k hk).1, fun b' rs hb' => hstay b' ((hcoll k hk).2 b' rs hb')⟩
    · exact ⟨hstay b' (hread b' rs hb').1, (hread b' rs hb').2⟩
  | foreign b c other =>
    simp only [step, Option.ite_none_right_eq_some, Option.some.injEq] at hs
    obtain ⟨⟨hnone, -⟩, rfl⟩ := hs
    -- A receipt that is there is not written over.
    have hstay : ∀ b' c', s.receipts b' c' = some s.task →
        (if b' = b ∧ c' = c then some other else s.receipts b' c') = some s.task := by
      intro b' c' h
      have hne : ¬(b' = b ∧ c' = c) := by rintro ⟨rfl, rfl⟩; rw [hnone] at h; contradiction
      simpa [hne] using h
    refine ⟨fun b' hb' hd => ?_, hcoll, fun b' rs hb' => ?_⟩
    · rcases hrecorded b' hb' hd with hids | hcol
      · exact .inl hids
      · exact .inr (hcol.mono rfl rfl (fun h => h) (hstay b'))
    · exact ⟨(hread b' rs hb').1, fun c' hc' => hstay b' c' ((hread b' rs hb').2 c' hc')⟩
  | collect =>
    simp only [step, Option.some.injEq] at hs
    subst hs
    refine ⟨hrecorded, fun k hk => ?_, hread⟩
    -- A collection begins with nothing read, and all of its ids to do.
    rcases List.mem_cons.mp hk with rfl | hk
    · exact ⟨fun b hb => .inl hb, by simp⟩
    · exact hcoll k hk
  | look k how =>
    simp only [step] at hs
    split at hs
    · contradiction
    next b rest ht =>
      simp only [Option.ite_none_right_eq_some] at hs
      obtain ⟨hk, hs⟩ := hs
      -- What the collection reads is terminal then.
      have hcoll' : ∀ k' ∈ k.look b rest (s.provider b) how :: s.collections.erase k,
          Sound s k' := by
        intro k' hk'
        rcases List.mem_cons.mp hk' with rfl | hk'
        · exact (hcoll k hk).look ht how
        · exact hcoll k' (List.mem_of_mem_erase hk')
      split at hs
      · obtain rfl := Option.some.inj hs
        exact ⟨hrecorded, hcoll', hread⟩
      · obtain rfl := Option.some.inj hs
        -- An id that a look appends is in the payload.
        refine ⟨fun b' hb' hd => ?_, hcoll', hread⟩
        rcases List.mem_cons.mp hb' with rfl | hb'
        · exact .inl (mem_recordBatchIds.mpr (.inr (by simp)))
        · rcases hrecorded b' hb' hd with hids | hcol
          · exact .inl (mem_recordBatchIds.mpr (.inl hids))
          · exact .inr hcol
  | checkpoint k =>
    simp only [step, Option.ite_none_right_eq_some, Option.map_eq_some_iff] at hs
    obtain ⟨⟨hk, htodo⟩, r, hr, rfl⟩ := hs
    obtain ⟨hnew, hkeep⟩ := storeReceipts_spec hr
    obtain ⟨hall, hterm⟩ := hcoll k hk
    -- With the checkpoint all that was read has its receipts.
    have hread' : ∀ b rs, (b, rs) ∈ k.results ++ s.read →
        (s.provider b).status.terminal = true ∧ ∀ c ∈ rs, r b c = some s.task := by
      intro b rs hb
      rcases List.mem_append.mp hb with hb | hb
      · refine ⟨hterm b rs hb, fun c hc => hnew b c ?_⟩
        exact List.mem_flatMap.mpr ⟨(b, rs), hb, List.mem_map.mpr ⟨c, hc, rfl⟩⟩
      · exact ⟨(hread b rs hb).1, fun c hc => hkeep b c _ ((hread b rs hb).2 c hc)⟩
    have hcol : ∀ b rs, (b, rs) ∈ k.results ++ s.read → Collected
        { s with
          row := mergePayload
            { batch_ids := some k.unfinished, batch_collection_checkpointed := true } s.row
          receipts := r
          collections := s.collections.erase k
          read := k.results ++ s.read } b :=
      fun b rs hb => ⟨(hread' b rs hb).1, ⟨rs, hb⟩, fun rs' hb' => (hread' b rs' hb').2⟩
    refine ⟨fun b hb hd => ?_, fun k' hk' => hcoll k' (List.mem_of_mem_erase hk'), hread'⟩
    -- An id that the payload named was read by this collection, by the condition, or is collected.
    have hcases : b ∈ k.existing ∨ Collected s b := by
      rcases hrecorded b hb hd with hids | hcol'
      · exact ha b hids
      · exact .inr hcol'
    rcases hcases with hex | ⟨-, ⟨rs, hrs⟩, -⟩
    · rcases hall b hex with h | h | ⟨rs, h⟩
      · rw [htodo] at h; simp at h
      · exact .inl (by simpa [mergePayload, Payload.pendingBatchIds] using h)
      · exact .inr (hcol b rs (List.mem_append_left _ h))
    · exact .inr (hcol b rs (List.mem_append_right _ hrs))
  | crash k =>
    simp only [step, Option.some.injEq] at hs
    subst hs
    -- A collection that crashes leaves the payload as it is.
    exact ⟨hrecorded, fun k' hk' => hcoll k' (List.mem_of_mem_erase hk'), hread⟩

/-- A paid batch id is never lost by a timely run: once recorded, then in every later state in
which the task is not done, the id is in the payload, or its batch is terminal, was read, and every
result read from it has a receipt of the task. -/
theorem paid_batch_id_kept {task : ℕ} {row : Task} {receipts : Receipts}
    {provider : String → ProviderBatch} {s : State}
    (h : Run step Timely (.start task row receipts provider) s) (b : String)
    (hb : b ∈ s.recorded) (hd : s.row.status ≠ .done) :
    b ∈ s.row.payload.pendingBatchIds ∨ Collected s b :=
  (h.invariant (I := Kept) (by constructor <;> simp [State.start]) kept_step).recorded b hb hd

/-- A worker is reaped after its first wave, its successor starts to collect, the zombie's second
wave is accepted and recorded, and the successor checkpoints. -/
def zombieWaveRun : List Act :=
  let zombie : TaskClaim := ⟨7, "oci", 1⟩
  let k : Collection := { existing := ["batch_1"], todo := ["batch_1"] }
  [.write (.claim { known := ["verify_new"] } "oci" 0),
    .write (.record ["batch_1"]),
    .write (.reapRequeue ⟨3, 15⟩ 1000),
    .write (.claim { known := ["verify_new"] } "gcp-vps" 1001),
    .collect,
    .write (.park zombie ["batch_2"]),
    .advance "batch_1" { status := .completed, output := ["https://r.test/1"] },
    .look k (.read true),
    .checkpoint
      { existing := ["batch_1"], todo := [], results := [("batch_1", ["https://r.test/1"])] }]

/-- The start of `zombieWaveRun`: a new task, and a provider that has finished nothing. -/
def zombieWaveStart : State :=
  .start 7 (enqueue "verify_new" none none [] none) (fun _ _ => none) fun _ => {}

/-- Without the condition the claim fails: `checkpoint` drops an id appended since its read, of a
batch that is not terminal, while the task is running. -/
theorem checkpoint_drops_appended_id :
    ¬ ∀ s, Run step Always zombieWaveStart s → ∀ b ∈ s.recorded, s.row.status ≠ .done →
      b ∈ s.row.payload.pendingBatchIds ∨ Collected s b := by
  intro hall
  have hrun : runList step zombieWaveStart zombieWaveRun =
      some ((runList step zombieWaveStart zombieWaveRun).get (by decide)) := by simp
  rcases hall _ (run_of_runList hrun) "batch_2" (by decide) (by decide) with h | h
  · revert h; decide
  · revert h
    rintro ⟨ht, -⟩
    revert ht
    decide

/-- The same run with the zombie's wave recorded before the successor's read: the checkpoint is
timely, and the second id stays in the payload. -/
theorem paid_batch_id_kept_reread :
    ∃ s, Run step Timely zombieWaveStart s ∧ s.read = [("batch_1", ["https://r.test/1"])] ∧
      "batch_2" ∈ s.recorded ∧ s.row.status ≠ .done ∧
      ("batch_2" ∈ s.row.payload.pendingBatchIds ∨ Collected s "batch_2") := by
  have h₁ : Run step Timely zombieWaveStart _ :=
    .next (.write (.record ["batch_1", "batch_2"])) .start trivial rfl
  have h₂ := h₁.next Act.collect trivial rfl
  have h₃ := h₂.next
    (Act.advance "batch_1" { status := .completed, output := ["https://r.test/1"] }) trivial rfl
  have h₄ := h₃.next
    (Act.look ⟨["batch_1", "batch_2"], ["batch_1", "batch_2"], [], []⟩ (.read true))
    trivial rfl
  have h₅ := h₄.next
    (Act.look ⟨["batch_1", "batch_2"], ["batch_2"], [("batch_1", ["https://r.test/1"])], []⟩
      (.read true))
    trivial rfl
  have h₆ := h₅.next
    (Act.checkpoint
      ⟨["batch_1", "batch_2"], [], [("batch_1", ["https://r.test/1"])], ["batch_2"]⟩)
    (fun b hb => .inl hb) rfl
  exact ⟨_, h₆, rfl, by decide, by decide, paid_batch_id_kept h₆ "batch_2" (by decide) (by decide)⟩

end JobScripts.Queue.Batches

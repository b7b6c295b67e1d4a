import JobScripts.Queue.Claims

/-!
# Who reads a posting

Filter chunks with overlapping postings (`tasks/board.py`, `handle_run_filter_batch_chunk`). A chunk that
has no batch work yet asks `submission_exclusions` which of its postings are decided or owned by an older
chunk, freezes the requests of the others and submits them in waves. No lock is held from the check to the
last wave, and the table of tasks goes on meanwhile: the model runs every statement of `Queue/Task.lean`
beside any number of handlers, each at its own point.

An older chunk is an owner while it is active or names batch ids. A younger chunk that passes its check
therefore found each older chunk with the same posting let go: ended, and without a batch id. So no posting
is in unfinished submissions of two chunks (`reading_bought_once`) in a run where a chunk that was once let
go submits only what no younger chunk has taken, and no chunk is let go while a submission of it is
unfinished. `recovered_chunk_buys_again` is a run in which an operator recovers a chunk that was let go.
-/

namespace JobScripts.Board

open Lib Queue

/-! ## Chunks, verdicts and submissions -/

/-- What a chunk's payload says for good: its user, the prompt hash of its filter (through `config_id`) and
the urls of its jobs. -/
structure Chunk where
  user_id : ℕ
  prompt_hash : String
  urls : List String

/-- A row of `verdicts`. -/
structure Verdict where
  url : String
  check_type : String
  prompt_hash : String
  model : String
  deriving DecidableEq

/-- A group of `verdict_model_equivalence`. -/
structure Group where
  kind : String
  models : List String

/-- `answering_models`: the model and every model whose verdict counts as its own. -/
def answeringModels (groups : List Group) (kind model : String) : List String :=
  match groups.find? fun g => g.kind == kind && g.models.contains model with
  | some g => g.models.mergeSort fun a b => a ≤ b
  | none => [model]

/-- The first half of the query: the posting has a custom verdict for the prompt from an answering
model. -/
def decided (verdicts : List Verdict) (prompt_hash : String) (models : List String) (url : String) :
    Bool :=
  verdicts.any fun v => v.url == url && v.check_type == "custom" && v.prompt_hash == prompt_hash &&
    models.contains v.model

/-- What an exclusion check read: the verdicts committed by then, and the answering models. -/
structure Checked where
  verdicts : List Verdict
  models : List String
  deriving DecidableEq

/-- A batch that the provider accepted, with the check that its requests went through. -/
structure Submission where
  batch_id : String
  task_id : ℕ
  urls : List String
  check : Checked
  finished : Bool := false
  deriving DecidableEq

/-- Where a handler is. -/
inductive Phase
  /-- It found no batch work. -/
  | started
  /-- `submission_exclusions` left these postings. -/
  | checked (urls : List String) (check : Checked)
  /-- `execute_batch` found no batch work and built these requests. -/
  | built (urls : List String) (check : Checked)
  /-- `submit_or_collect` found no batch work and froze these requests; those that no wave has
  carried. -/
  | submitting (urls : List String) (check : Checked)
  deriving DecidableEq

/-- The postings that a handler past its check may still submit. -/
def Phase.urls : Phase → List String
  | .started => []
  | .checked urls _ | .built urls _ | .submitting urls _ => urls

/-- The check that a handler has made. -/
def Phase.check : Phase → Option Checked
  | .started => none
  | .checked _ check | .built _ check | .submitting _ check => some check

/-- A run of the handler. -/
structure Handler where
  task_id : ℕ
  phase : Phase
  deriving DecidableEq

/-- The queue, the handlers, the provider's batches, the verdicts and the tasks with receipts. Known to the
proofs only are a bound of the ids drawn, and the chunks that were let go while a younger id was drawn. -/
structure State where
  queue : Queue.State
  handlers : ℕ → Option Handler
  submissions : List Submission
  verdicts : List Verdict
  receipts : List ℕ
  drawn : ℕ
  letGo : ℕ → Bool

/-- Nothing has happened. -/
def State.empty : State := ⟨.empty, fun _ => none, [], [], [], 0, fun _ => false⟩

/-- The kinds of filter chunks. -/
def filterChunkKinds : List String := ["run_filter_chunk", "run_filter_batch_chunk"]

/-- The row is a filter chunk that is active or names batch ids. -/
def ownerRow (t : Task) : Bool :=
  filterChunkKinds.contains t.kind && (t.status.active || !t.payload.pendingBatchIds.isEmpty)

/-- The task is an owner of its postings. -/
def State.owner (s : State) (id : ℕ) : Bool := (s.queue.tasks id).any fun tr => ownerRow tr.row

/-- `has_batch_work`: batches of the task are pending, or their results are not all taken over. -/
def State.hasBatchWork (s : State) (id : ℕ) : Bool :=
  ((s.queue.tasks id).any fun tr => !tr.row.payload.pendingBatchIds.isEmpty ||
    tr.row.payload.batch_collection_checkpointed) || s.receipts.contains id

/-! ## Steps -/

section Steps

variable (chunk : ℕ → Chunk)

/-- Two tasks read postings for one person and one prompt. -/
def Rivals (a b : ℕ) : Prop :=
  (chunk a).user_id = (chunk b).user_id ∧ (chunk a).prompt_hash = (chunk b).prompt_hash

instance (a b : ℕ) : Decidable (Rivals chunk a b) := inferInstanceAs (Decidable (_ ∧ _))

/-- The second half of the query: an older chunk of the same user and prompt owns the posting. -/
def State.ownedByOlder (s : State) (id : ℕ) (url : String) : Bool :=
  (List.range id).any fun older =>
    decide (Rivals chunk older id) && s.owner older && (chunk older).urls.contains url

/-- `submission_exclusions`, on one of the urls. -/
def State.submissionExcluded (s : State) (id : ℕ) (models : List String) (url : String) : Bool :=
  decided s.verdicts (chunk id).prompt_hash models url || s.ownedByOlder chunk id url

/-- What can happen next. -/
inductive Act
  /-- An action of the queue. -/
  | queue (a : Queue.Act)
  /-- A worker that holds a claim starts the handler, which finds no batch work. -/
  | start (k : ℕ) (e : Execution)
  /-- The exclusion check, under the configured model and groups. -/
  | check (k : ℕ) (model : String) (groups : List Group)
  /-- `execute_batch`: the postings that no pay screen settles and that have a page. -/
  | build (k : ℕ) (keep : String → Bool)
  /-- `submit_or_collect` up to the first wave. -/
  | freeze (k : ℕ)
  /-- The provider accepts a wave. -/
  | accept (k : ℕ) (batch_id : String) (wave : List String)
  /-- A provider batch ends. -/
  | batchEnds (batch_id : String)
  /-- A collection, a live check or a screen commits a verdict. -/
  | verdict (v : Verdict)
  /-- A collection commits a receipt of a task. -/
  | receipt (id : ℕ)
  /-- A handler is over: it collects, returns, raises or dies. -/
  | leave (k : ℕ)

/-- A handler goes on. -/
def State.goOn (s : State) (k : ℕ) (h : Option Handler) : State :=
  { s with handlers := Function.update s.handlers k h }

/-- The provider batch with an id has ended. -/
def endBatch (batch_id : String) (p : Submission) : Submission :=
  if p.batch_id = batch_id then { p with finished := true } else p

/-- The id that an action of the queue draws, with all lower ids. -/
def drawnBy : Queue.Act → ℕ
  | .enqueue id .. => id + 1
  | _ => 0

/-- What happens to the tables and the processes. -/
def move (s : State) : Act → Option State
  | .queue a => (Queue.step s.queue a).map fun q => { s with queue := q, drawn := max s.drawn (drawnBy a) }
  | .start k e =>
    match s.handlers k, s.queue.tasks e.claim.task_id with
    | none, some tr =>
      if e ∈ s.queue.executing ∧ filterChunkKinds.contains tr.row.kind ∧
          s.hasBatchWork e.claim.task_id = false then
        some (s.goOn k (some ⟨e.claim.task_id, .started⟩))
      else none
    | _, _ => none
  | .check k model groups =>
    match s.handlers k with
    | some ⟨id, .started⟩ =>
      let models := answeringModels groups "custom" model
      let urls := (chunk id).urls.filter fun url => !s.submissionExcluded chunk id models url
      some (s.goOn k (some ⟨id, .checked urls ⟨s.verdicts, models⟩⟩))
    | _ => none
  | .build k keep =>
    match s.handlers k with
    | some ⟨id, .checked urls check⟩ =>
      if s.hasBatchWork id then none
      else some (s.goOn k (some ⟨id, .built (urls.filter keep) check⟩))
    | _ => none
  | .freeze k =>
    match s.handlers k with
    | some ⟨id, .built urls check⟩ =>
      if s.hasBatchWork id then none else some (s.goOn k (some ⟨id, .submitting urls check⟩))
    | _ => none
  | .accept k batch_id wave =>
    match s.handlers k with
    | some ⟨id, .submitting urls check⟩ =>
      if (∀ url ∈ wave, url ∈ urls) ∧ ∀ p ∈ s.submissions, p.batch_id ≠ batch_id then
        let left := urls.filter fun url => !wave.contains url
        some { s.goOn k (some ⟨id, .submitting left check⟩) with
          submissions := ⟨batch_id, id, wave, check, false⟩ :: s.submissions }
      else none
    | _ => none
  | .batchEnds batch_id => some { s with submissions := s.submissions.map (endBatch batch_id) }
  | .verdict v => some { s with verdicts := v :: s.verdicts }
  | .receipt id => some { s with receipts := id :: s.receipts }
  | .leave k => some (s.goOn k none)

/-- A task whose id is drawn and that is not an owner is let go. -/
def State.watch (s : State) : State :=
  { s with letGo := fun id => s.letGo id || (decide (id < s.drawn) && !s.owner id) }

/-- One step. -/
def step (s : State) (a : Act) : Option State := (move chunk s a).map State.watch

/-! ## The condition -/

/-- The task has taken the posting: a handler of it is past its check with it, or it is in an unfinished
submission of the task. -/
def State.Takes (s : State) (id : ℕ) (url : String) : Prop :=
  (∃ k h, s.handlers k = some h ∧ h.task_id = id ∧ url ∈ h.phase.urls) ∨
    ∃ p ∈ s.submissions, p.finished = false ∧ p.task_id = id ∧ url ∈ p.urls

/-- The condition on a step. When a chunk checks, every older chunk that has one of its postings in an
unfinished submission is an owner. When a wave of a chunk that was once let go is accepted, no younger chunk
has taken a posting of the wave. -/
def Timely (s : State) : Act → Prop
  | .check k _ _ => ∀ h, s.handlers k = some h → ∀ p ∈ s.submissions, p.finished = false →
      p.task_id < h.task_id → Rivals chunk p.task_id h.task_id →
      (∃ url ∈ p.urls, url ∈ (chunk h.task_id).urls) → s.owner p.task_id = true
  | .accept k _ wave => ∀ h, s.handlers k = some h → s.letGo h.task_id = true →
      ∀ younger url, h.task_id < younger → Rivals chunk h.task_id younger → url ∈ wave →
        ¬ s.Takes younger url
  | _ => True

end Steps

/-! ## The invariant -/

variable {chunk : ℕ → Chunk} {s s' : State}

/-- What holds of the handlers and the unfinished submissions: they are of drawn tasks and of the tasks' own
postings; and where a younger chunk has taken a posting, each older rival with the same posting was let go,
and none has it in an unfinished submission. -/
structure State.Held (chunk : ℕ → Chunk) (s : State) : Prop where
  rows : ∀ id tr, s.queue.tasks id = some tr → id < s.drawn
  handlers : ∀ k h, s.handlers k = some h → h.task_id < s.drawn
  own_handlers : ∀ k h, s.handlers k = some h → ∀ url ∈ h.phase.urls, url ∈ (chunk h.task_id).urls
  own_submissions : ∀ p ∈ s.submissions, p.finished = false → ∀ url ∈ p.urls,
    url ∈ (chunk p.task_id).urls
  passed : ∀ older younger url, older < younger → Rivals chunk older younger →
    s.Takes younger url → url ∈ (chunk older).urls → s.letGo older = true
  apart : ∀ older younger url, older < younger → Rivals chunk older younger →
    s.Takes younger url → ∀ p ∈ s.submissions, p.finished = false → p.task_id = older → url ∉ p.urls

/-- The invariant: moreover, a task that is not an owner is known to be let go. -/
structure State.Inv (chunk : ℕ → Chunk) (s : State) : Prop extends State.Held chunk s where
  watched : ∀ id, id < s.drawn → s.owner id = false → s.letGo id = true

/-- A task of the state after a step takes only what it took before. -/
theorem State.Takes.back {id : ℕ} {url : String} (h : s'.Takes id url)
    (hhandlers : ∀ k h', s'.handlers k = some h' → h'.phase.urls = [] ∨
      ∃ k h, s.handlers k = some h ∧ h.task_id = h'.task_id ∧ h'.phase.urls ⊆ h.phase.urls)
    (hsubs : ∀ p' ∈ s'.submissions, p'.finished = false →
      ∃ p ∈ s.submissions, p.finished = false ∧ p.task_id = p'.task_id ∧ p.urls = p'.urls) :
    s.Takes id url := by
  rcases h with ⟨k, h', hk, rfl, hurl⟩ | ⟨p', hp', hun, rfl, hurl⟩
  · rcases hhandlers k h' hk with hnil | ⟨k₀, h₀, hk₀, hid, hsub⟩
    · rw [hnil] at hurl
      contradiction
    · exact .inl ⟨k₀, h₀, hk₀, hid, hsub hurl⟩
  · obtain ⟨p, hp, hunp, hid, hurls⟩ := hsubs p' hp' hun
    exact .inr ⟨p, hp, hunp, hid, hurls ▸ hurl⟩

/-- A step after which nothing more is taken, nothing more is submitted and no task is less let go. -/
theorem State.Held.keep (h : s.Held chunk) (hdrawn : s.drawn ≤ s'.drawn)
    (hrows : ∀ id tr, s'.queue.tasks id = some tr → id < s'.drawn)
    (hletGo : ∀ id, s.letGo id = true → s'.letGo id = true)
    (hids : ∀ k h', s'.handlers k = some h' → h'.task_id < s.drawn)
    (hhandlers : ∀ k h', s'.handlers k = some h' → h'.phase.urls = [] ∨
      ∃ k h, s.handlers k = some h ∧ h.task_id = h'.task_id ∧ h'.phase.urls ⊆ h.phase.urls)
    (hsubs : ∀ p' ∈ s'.submissions, p'.finished = false →
      ∃ p ∈ s.submissions, p.finished = false ∧ p.task_id = p'.task_id ∧ p.urls = p'.urls) :
    s'.Held chunk where
  rows := hrows
  handlers k h' hk := lt_of_lt_of_le (hids k h' hk) hdrawn
  own_handlers k h' hk url hurl := by
    rcases hhandlers k h' hk with hnil | ⟨k₀, h₀, hk₀, hid, hsub⟩
    · rw [hnil] at hurl
      contradiction
    · rw [← hid]
      exact h.own_handlers k₀ h₀ hk₀ url (hsub hurl)
  own_submissions p' hp' hun url hurl := by
    obtain ⟨p, hp, hunp, hid, hurls⟩ := hsubs p' hp' hun
    rw [← hid]
    exact h.own_submissions p hp hunp url (hurls ▸ hurl)
  passed older younger url hlt hriv htakes hown :=
    hletGo older (h.passed older younger url hlt hriv (htakes.back hhandlers hsubs) hown)
  apart older younger url hlt hriv htakes p' hp' hun hid := by
    obtain ⟨p, hp, hunp, hidp, hurls⟩ := hsubs p' hp' hun
    rw [← hurls]
    exact h.apart older younger url hlt hriv (htakes.back hhandlers hsubs) p hp hunp (hidp.trans hid)

/-- One handler goes on with no more postings than it had. -/
theorem State.Held.goOn (h : s.Held chunk) {k : ℕ} {h' : Option Handler}
    (hids : ∀ x, h' = some x → x.task_id < s.drawn)
    (hnew : ∀ x, h' = some x → x.phase.urls = [] ∨
      ∃ k h, s.handlers k = some h ∧ h.task_id = x.task_id ∧ x.phase.urls ⊆ h.phase.urls) :
    (s.goOn k h').Held chunk := by
  refine h.keep le_rfl h.rows (fun _ hl => hl) (fun k' x hx => ?_) (fun k' x hx => ?_)
    fun p hp hun => ⟨p, hp, hun, rfl, rfl⟩
  · have hx : Function.update s.handlers k h' k' = some x := hx
    by_cases hk : k' = k
    · subst hk
      rw [Function.update_self] at hx
      exact hids x hx
    · rw [Function.update_of_ne hk] at hx
      exact h.handlers k' x hx
  · have hx : Function.update s.handlers k h' k' = some x := hx
    by_cases hk : k' = k
    · subst hk
      rw [Function.update_self] at hx
      exact hnew x hx
    · rw [Function.update_of_ne hk] at hx
      exact .inr ⟨k', x, hx, rfl, fun _ hu => hu⟩

/-- A posting that the check leaves is in the chunk's own list, is not decided, and each older rival with
the same posting is not an owner. -/
theorem not_owner_of_not_excluded {id : ℕ} {models : List String} {url : String}
    (h : s.submissionExcluded chunk id models url = false) {older : ℕ} (hlt : older < id)
    (hriv : Rivals chunk older id) (hown : url ∈ (chunk older).urls) : s.owner older = false := by
  unfold State.submissionExcluded State.ownedByOlder at h
  rw [Bool.or_eq_false_iff, List.any_eq_false] at h
  have hno := h.2 older (List.mem_range.mpr hlt)
  simpa [hriv, hown] using hno

/-- A chunk passes its check: it takes postings of its own that every older rival let go. -/
theorem State.Inv.check (h : s.Inv chunk) {k : ℕ} {model : String} {groups : List Group}
    (hok : Timely chunk s (.check k model groups)) {id : ℕ}
    (hk : s.handlers k = some ⟨id, .started⟩) {models : List String} {check : Checked} :
    (s.goOn k (some ⟨id, .checked ((chunk id).urls.filter fun url =>
      !s.submissionExcluded chunk id models url) check⟩)).Held chunk := by
  have hdrawn : id < s.drawn := h.handlers k _ hk
  -- What is taken after the check was taken before it, or the check has just left it.
  have htakes : ∀ younger url, (s.goOn k (some ⟨id, .checked ((chunk id).urls.filter fun url =>
      !s.submissionExcluded chunk id models url) check⟩)).Takes younger url →
      s.Takes younger url ∨ younger = id ∧ url ∈ (chunk id).urls ∧
        s.submissionExcluded chunk id models url = false := by
    rintro younger url (⟨k', h', hk', rfl, hurl⟩ | hsub)
    · have hk' : Function.update s.handlers k _ k' = some h' := hk'
      by_cases heq : k' = k
      · subst heq
        rw [Function.update_self] at hk'
        obtain rfl := Option.some.inj hk'
        have hurl : url ∈ (chunk id).urls.filter fun url =>
          !s.submissionExcluded chunk id models url := hurl
        rw [List.mem_filter, Bool.not_eq_true'] at hurl
        exact .inr ⟨rfl, hurl⟩
      · rw [Function.update_of_ne heq] at hk'
        exact .inl (.inl ⟨k', h', hk', rfl, hurl⟩)
    · exact .inl (.inr hsub)
  refine ⟨h.rows, ?_, ?_, h.own_submissions, ?_, ?_⟩
  · intro k' h' hk'
    have hk' : Function.update s.handlers k _ k' = some h' := hk'
    by_cases heq : k' = k
    · subst heq
      rw [Function.update_self] at hk'
      obtain rfl := Option.some.inj hk'
      exact hdrawn
    · rw [Function.update_of_ne heq] at hk'
      exact h.handlers k' h' hk'
  · intro k' h' hk' url hurl
    have hk' : Function.update s.handlers k _ k' = some h' := hk'
    by_cases heq : k' = k
    · subst heq
      rw [Function.update_self] at hk'
      obtain rfl := Option.some.inj hk'
      exact (List.mem_filter.mp hurl).1
    · rw [Function.update_of_ne heq] at hk'
      exact h.own_handlers k' h' hk' url hurl
  · intro older younger url hlt hriv ht hown
    rcases htakes younger url ht with hold | ⟨rfl, -, hleft⟩
    · exact h.passed older younger url hlt hriv hold hown
    · have hno := not_owner_of_not_excluded hleft hlt hriv hown
      exact h.watched older (Nat.lt_trans hlt hdrawn) hno
  · intro older younger url hlt hriv ht p hp hun hid hurl
    rcases htakes younger url ht with hold | ⟨rfl, hmine, hleft⟩
    · exact h.apart older younger url hlt hriv hold p hp hun hid hurl
    · subst hid
      have hown := h.own_submissions p hp hun url hurl
      have hno := not_owner_of_not_excluded hleft hlt hriv hown
      rw [hok _ hk p hp hun hlt hriv ⟨url, hurl, hmine⟩] at hno
      contradiction

/-- The provider accepts a wave: the chunk had taken its postings before. -/
theorem State.Inv.submit (h : s.Inv chunk) {k : ℕ} {batch_id : String} {wave : List String}
    (hok : Timely chunk s (.accept k batch_id wave)) {id : ℕ} {urls : List String} {check : Checked}
    (hk : s.handlers k = some ⟨id, .submitting urls check⟩) (hwave : ∀ url ∈ wave, url ∈ urls) :
    State.Held chunk
      { s with submissions := ⟨batch_id, id, wave, check, false⟩ :: s.submissions } := by
  have hmine : ∀ url ∈ wave, url ∈ (chunk id).urls := fun url hurl =>
    h.own_handlers k _ hk url (hwave url hurl)
  have htakes : ∀ younger url, State.Takes
      { s with submissions := ⟨batch_id, id, wave, check, false⟩ :: s.submissions } younger url →
      s.Takes younger url := by
    rintro younger url (hhandler | ⟨p, hp, hun, rfl, hurl⟩)
    · exact .inl hhandler
    · rcases List.mem_cons.mp hp with rfl | hp
      · exact .inl ⟨k, _, hk, rfl, hwave url hurl⟩
      · exact .inr ⟨p, hp, hun, rfl, hurl⟩
  refine ⟨h.rows, h.handlers, h.own_handlers, ?_, ?_, ?_⟩
  · intro p hp hun url hurl
    rcases List.mem_cons.mp hp with rfl | hp
    · exact hmine url hurl
    · exact h.own_submissions p hp hun url hurl
  · intro older younger url hlt hriv ht hown
    exact h.passed older younger url hlt hriv (htakes younger url ht) hown
  · intro older younger url hlt hriv ht p hp hun hid hurl
    have hold := htakes younger url ht
    rcases List.mem_cons.mp hp with rfl | hp
    · -- A younger chunk that has the posting found this one let go.
      subst hid
      have hgone := h.passed _ younger url hlt hriv hold (hmine url hurl)
      exact hok _ hk hgone younger url hlt hriv hurl hold
    · exact h.apart older younger url hlt hriv hold p hp hun hid hurl

/-- An action of the queue keeps the rows drawn. -/
theorem queue_step_drawn {q q' : Queue.State} {a : Queue.Act} {n : ℕ}
    (h : ∀ id tr, q.tasks id = some tr → id < n) (hs : Queue.step q a = some q') :
    ∀ id tr, q'.tasks id = some tr → id < max n (drawnBy a) := by
  -- A row of the table after is a row of the table before, or the new one.
  have hup : ∀ (id₀ : ℕ) (row : Option Tracked), (row.isSome → id₀ < max n (drawnBy a)) →
      ∀ id tr, Function.update q.tasks id₀ row id = some tr → id < max n (drawnBy a) := by
    intro id₀ row hrow id tr htr
    by_cases hid : id = id₀
    · subst hid
      rw [Function.update_self] at htr
      exact hrow (htr ▸ rfl)
    · rw [Function.update_of_ne hid] at htr
      exact lt_of_lt_of_le (h id tr htr) (le_max_left _ _)
  have hrow : ∀ id₀ tr₀, q.tasks id₀ = some tr₀ → id₀ < max n (drawnBy a) := fun id₀ tr₀ htr₀ =>
    lt_of_lt_of_le (h id₀ tr₀ htr₀) (le_max_left _ _)
  cases a with
  | enqueue id kind host source rest parent_id =>
    simp only [Queue.step, Option.ite_none_right_eq_some, Option.some.injEq] at hs
    obtain ⟨-, rfl⟩ := hs
    exact hup id _ fun _ => lt_of_lt_of_le (Nat.lt_succ_self id) (le_max_right _ _)
  | claim id f worker now =>
    simp only [Queue.step] at hs
    split at hs
    · contradiction
    · next tr htr =>
      split at hs
      · contradiction
      · obtain rfl := Option.some.inj hs
        exact hup id _ fun _ => hrow id tr htr
  | sweep sel w =>
    simp only [Queue.step, Option.ite_none_right_eq_some, Option.some.injEq] at hs
    obtain ⟨-, rfl⟩ := hs
    intro id tr htr
    obtain ⟨tr₀, htr₀, -⟩ := Option.map_eq_some_iff.mp htr
    exact hrow id tr₀ htr₀
  | act e w =>
    simp only [Queue.step, Option.ite_none_right_eq_some, Option.some.injEq] at hs
    obtain ⟨-, rfl⟩ := hs
    refine hup _ _ fun hsome => ?_
    obtain ⟨tr, htr⟩ := Option.isSome_iff_exists.mp hsome
    obtain ⟨tr₀, htr₀, -⟩ := Option.map_eq_some_iff.mp htr
    exact hrow _ tr₀ htr₀
  | stop e =>
    simp only [Queue.step, Option.some.injEq] at hs
    subst hs
    exact hrow

/-- The handler of a task whose postings do not grow. -/
theorem State.Held.shrink (h : s.Held chunk) {k id : ℕ} {phase phase' : Phase}
    (hk : s.handlers k = some ⟨id, phase⟩) (hsub : phase'.urls ⊆ phase.urls) :
    (s.goOn k (some ⟨id, phase'⟩)).Held chunk := by
  refine h.goOn (fun x hx => ?_) fun x hx => ?_
  · obtain rfl := Option.some.inj hx
    exact h.handlers k ⟨id, phase⟩ hk
  · obtain rfl := Option.some.inj hx
    exact .inr ⟨k, ⟨id, phase⟩, hk, rfl, hsub⟩

/-- Everything but the watch is kept by a step under the condition. -/
theorem State.Inv.move (h : s.Inv chunk) {a : Act} (hok : Timely chunk s a)
    (hs : Board.move chunk s a = some s') : s'.Held chunk := by
  cases a with
  -- The queue moves by itself.
  | queue a =>
    obtain ⟨q, hq, rfl⟩ := Option.map_eq_some_iff.mp hs
    exact h.keep (le_max_left _ _) (queue_step_drawn h.rows hq) (fun _ hl => hl) h.handlers
      (fun k x hx => .inr ⟨k, x, hx, rfl, fun _ hu => hu⟩) fun p hp hun => ⟨p, hp, hun, rfl, rfl⟩
  -- A handler starts on a row of the queue.
  | start k e =>
    simp only [Board.move] at hs
    split at hs
    · next tr hk htr =>
      rw [Option.ite_none_right_eq_some] at hs
      obtain ⟨-, hs⟩ := hs
      obtain rfl := Option.some.inj hs
      refine h.goOn (fun x hx => ?_) fun x hx => ?_
      · obtain rfl := Option.some.inj hx
        exact h.rows _ tr htr
      · obtain rfl := Option.some.inj hx
        exact .inl rfl
    · contradiction
  -- The check and the acceptance are the steps under the condition.
  | check k model groups =>
    simp only [Board.move] at hs
    split at hs
    · next id hk =>
      obtain rfl := Option.some.inj hs
      exact h.check hok hk
    · contradiction
  -- Building and freezing leave a handler no more postings than it had.
  | build k keep =>
    simp only [Board.move] at hs
    split at hs
    · next id urls check hk =>
      rw [Option.ite_none_left_eq_some] at hs
      obtain rfl := Option.some.inj hs.2
      exact h.shrink hk List.filter_sublist.subset
    · contradiction
  | freeze k =>
    simp only [Board.move] at hs
    split at hs
    · next id urls check hk =>
      rw [Option.ite_none_left_eq_some] at hs
      obtain rfl := Option.some.inj hs.2
      exact h.shrink hk fun _ hu => hu
    · contradiction
  | accept k batch_id wave =>
    simp only [Board.move] at hs
    split at hs
    · next id urls check hk =>
      rw [Option.ite_none_right_eq_some] at hs
      obtain ⟨⟨hwave, -⟩, hs⟩ := hs
      obtain rfl := Option.some.inj hs
      have hsubmit := h.submit hok hk hwave
      exact hsubmit.shrink hk List.filter_sublist.subset
    · contradiction
  -- A batch that ends takes over nothing.
  | batchEnds batch_id =>
    obtain rfl := Option.some.inj hs
    refine h.keep le_rfl h.rows (fun _ hl => hl) h.handlers
      (fun k x hx => .inr ⟨k, x, hx, rfl, fun _ hu => hu⟩) fun p' hp' hun => ?_
    obtain ⟨p, hp, rfl⟩ := List.mem_map.mp hp'
    unfold endBatch at hun ⊢
    split at hun
    · contradiction
    · next hid =>
      rw [if_neg hid]
      exact ⟨p, hp, hun, rfl, rfl⟩
  -- Verdicts and receipts are not read by the invariant.
  | verdict v =>
    obtain rfl := Option.some.inj hs
    exact ⟨h.rows, h.handlers, h.own_handlers, h.own_submissions, h.passed, h.apart⟩
  | receipt id =>
    obtain rfl := Option.some.inj hs
    exact ⟨h.rows, h.handlers, h.own_handlers, h.own_submissions, h.passed, h.apart⟩
  | leave k =>
    obtain rfl := Option.some.inj hs
    refine h.goOn (fun x hx => ?_) fun x hx => ?_
    · contradiction
    · contradiction

/-- The watch makes the invariant whole. -/
theorem State.Held.watch (h : s.Held chunk) : s.watch.Inv chunk := by
  refine ⟨?_, fun id hlt hno => ?_⟩
  · refine h.keep le_rfl h.rows (fun id hl => ?_) h.handlers
      (fun k x hx => .inr ⟨k, x, hx, rfl, fun _ hu => hu⟩) fun p hp hun => ⟨p, hp, hun, rfl, rfl⟩
    simp [State.watch, hl]
  · have hno : s.owner id = false := hno
    have hlt : id < s.drawn := hlt
    simp [State.watch, hlt, hno]

/-- The invariant holds in every state of a run under the condition. -/
theorem inv_of_run (h : Run (step chunk) (Timely chunk) State.empty s) : s.Inv chunk := by
  refine Run.invariant ?_ (fun s a s' hi hok hs => ?_) h
  · refine ⟨⟨?_, ?_, ?_, ?_, ?_, ?_⟩, ?_⟩
    · exact fun id tr htr => by simp [State.empty, Queue.State.empty] at htr
    · exact fun k x hx => by simp [State.empty] at hx
    · exact fun k x hx => by simp [State.empty] at hx
    · exact fun p hp => by simp [State.empty] at hp
    · exact fun older younger url _ _ ht => by simp [State.empty, State.Takes] at ht
    · exact fun older younger url _ _ ht => by simp [State.empty, State.Takes] at ht
    · exact fun id hlt => by simp [State.empty] at hlt
  · obtain ⟨t, ht, rfl⟩ := Option.map_eq_some_iff.mp hs
    exact (hi.move hok ht).watch

/-! ## Decided postings -/

/-- What is submitted, or may still be, was not decided when the check was made. -/
structure State.Undecided (chunk : ℕ → Chunk) (s : State) : Prop where
  handlers : ∀ k h check, s.handlers k = some h → h.phase.check = some check →
    ∀ url ∈ h.phase.urls, decided check.verdicts (chunk h.task_id).prompt_hash check.models url = false
  submissions : ∀ p ∈ s.submissions, ∀ url ∈ p.urls,
    decided p.check.verdicts (chunk p.task_id).prompt_hash p.check.models url = false

/-- A handler goes on with undecided postings. -/
theorem State.Undecided.goOn (h : s.Undecided chunk) {k : ℕ} {h' : Option Handler}
    (hnew : ∀ x check, h' = some x → x.phase.check = some check → ∀ url ∈ x.phase.urls,
      decided check.verdicts (chunk x.task_id).prompt_hash check.models url = false) :
    (s.goOn k h').Undecided chunk := by
  refine ⟨fun k' x check hx hc => ?_, h.submissions⟩
  have hx : Function.update s.handlers k h' k' = some x := hx
  by_cases hk : k' = k
  · subst hk
    rw [Function.update_self] at hx
    exact hnew x check hx hc
  · rw [Function.update_of_ne hk] at hx
    exact h.handlers k' x check hx hc

/-- Every step keeps it. -/
theorem State.Undecided.step (h : s.Undecided chunk) {a : Act}
    (hs : Board.step chunk s a = some s') : s'.Undecided chunk := by
  obtain ⟨t, ht, rfl⟩ := Option.map_eq_some_iff.mp hs
  suffices hmove : t.Undecided chunk from ⟨hmove.handlers, hmove.submissions⟩
  -- A handler that keeps its check and no more than its postings.
  have hshrink : ∀ {k id : ℕ} {phase phase' : Phase}, s.handlers k = some ⟨id, phase⟩ →
      phase'.check = phase.check → phase'.urls ⊆ phase.urls →
      (s.goOn k (some ⟨id, phase'⟩)).Undecided chunk := by
    intro k id phase phase' hk hcheck hsub
    refine h.goOn fun x check hx hc url hurl => ?_
    obtain rfl := Option.some.inj hx
    exact h.handlers k _ check hk (hcheck ▸ hc) url (hsub hurl)
  -- A start has no check yet; the check itself leaves out what is decided.
  cases a with
  | queue a =>
    obtain ⟨q, -, rfl⟩ := Option.map_eq_some_iff.mp ht
    exact ⟨h.handlers, h.submissions⟩
  | start k e =>
    simp only [Board.move] at ht
    split at ht
    · rw [Option.ite_none_right_eq_some] at ht
      obtain rfl := Option.some.inj ht.2
      refine h.goOn fun x check hx hc => ?_
      obtain rfl := Option.some.inj hx
      contradiction
    · contradiction
  | check k model groups =>
    simp only [Board.move] at ht
    split at ht
    · next id hk =>
      obtain rfl := Option.some.inj ht
      refine h.goOn fun x check hx hc url hurl => ?_
      obtain rfl := Option.some.inj hx
      obtain rfl := Option.some.inj hc
      have hleft := (List.mem_filter.mp hurl).2
      rw [Bool.not_eq_true'] at hleft
      exact (Bool.or_eq_false_iff.mp hleft).1
    · contradiction
  -- Later phases keep the check.
  | build k keep =>
    simp only [Board.move] at ht
    split at ht
    · next id urls check hk =>
      rw [Option.ite_none_left_eq_some] at ht
      obtain rfl := Option.some.inj ht.2
      exact hshrink hk rfl List.filter_sublist.subset
    · contradiction
  | freeze k =>
    simp only [Board.move] at ht
    split at ht
    · next id urls check hk =>
      rw [Option.ite_none_left_eq_some] at ht
      obtain rfl := Option.some.inj ht.2
      exact hshrink hk rfl fun _ hu => hu
    · contradiction
  -- What a wave takes was the handler's.
  | accept k batch_id wave =>
    simp only [Board.move] at ht
    split at ht
    · next id urls check hk =>
      rw [Option.ite_none_right_eq_some] at ht
      obtain ⟨⟨hwave, -⟩, ht⟩ := ht
      obtain rfl := Option.some.inj ht
      have hgo : (s.goOn k (some ⟨id, .submitting (urls.filter fun url => !wave.contains url)
          check⟩)).Undecided chunk := hshrink hk rfl List.filter_sublist.subset
      refine ⟨hgo.handlers, fun p hp url hurl => ?_⟩
      rcases List.mem_cons.mp hp with rfl | hp
      · exact h.handlers k _ check hk rfl url (hwave url hurl)
      · exact h.submissions p hp url hurl
    · contradiction
  -- The other tables are not read.
  | batchEnds batch_id =>
    obtain rfl := Option.some.inj ht
    refine ⟨h.handlers, fun p' hp' => ?_⟩
    obtain ⟨p, hp, rfl⟩ := List.mem_map.mp hp'
    unfold endBatch
    split
    · exact h.submissions p hp
    · exact h.submissions p hp
  | verdict v =>
    obtain rfl := Option.some.inj ht
    exact ⟨h.handlers, h.submissions⟩
  | receipt id =>
    obtain rfl := Option.some.inj ht
    exact ⟨h.handlers, h.submissions⟩
  | leave k =>
    obtain rfl := Option.some.inj ht
    refine h.goOn fun x check hx => ?_
    contradiction

/-! ## Main results -/

/-- Under the condition, no posting is in unfinished submissions of two chunks of one person and one
prompt; and nothing is ever submitted that had a custom verdict for the prompt from an answering model when
its chunk made the exclusion check. -/
theorem reading_bought_once {chunk : ℕ → Chunk} {s : State}
    (h : Run (step chunk) (Timely chunk) State.empty s) :
    (∀ p ∈ s.submissions, ∀ q ∈ s.submissions, p.finished = false → q.finished = false →
      p.task_id ≠ q.task_id → Rivals chunk p.task_id q.task_id → ∀ url ∈ p.urls, url ∉ q.urls) ∧
    ∀ p ∈ s.submissions, ∀ url ∈ p.urls,
      decided p.check.verdicts (chunk p.task_id).prompt_hash p.check.models url = false := by
  have hinv : s.Inv chunk := inv_of_run h
  constructor
  · intro p hp q hq hunp hunq hne hriv url hurlp hurlq
    rcases lt_or_gt_of_ne hne with hlt | hlt
    · have htakes : s.Takes q.task_id url := .inr ⟨q, hq, hunq, rfl, hurlq⟩
      exact hinv.apart _ _ url hlt hriv htakes p hp hunp rfl hurlp
    · have htakes : s.Takes p.task_id url := .inr ⟨p, hp, hunp, rfl, hurlp⟩
      exact hinv.apart _ _ url hlt ⟨hriv.1.symm, hriv.2.symm⟩ htakes q hq hunq rfl hurlq
  · have hund : s.Undecided chunk := by
      refine Run.invariant ?_ (fun s a s' hi _ hs => State.Undecided.step hi hs) h
      exact ⟨fun k x check hx => by simp [State.empty] at hx, fun p hp => by simp [State.empty] at hp⟩
    exact hund.submissions

/-- A way to meet the condition: nothing unfinished is let go at a check, and a chunk that submits was never
let go. -/
def steady (s : State) : Act → Bool
  | .check _ _ _ => s.submissions.all fun p => p.finished || s.owner p.task_id
  | .accept k _ _ => (s.handlers k).all fun h => !s.letGo h.task_id
  | _ => true

/-- It does. -/
theorem timely_of_steady {chunk : ℕ → Chunk} {s : State} {a : Act} (h : steady s a = true) :
    Timely chunk s a := by
  cases a with
  | check k model groups =>
    intro x hx p hp hun hlt hriv hshared
    have hall := List.all_eq_true.mp h p hp
    rw [hun, Bool.false_or] at hall
    exact hall
  | accept k batch_id wave =>
    intro x hx hgone
    simp [steady, hx, hgone] at h
  | queue | start | build | freeze | batchEnds | verdict | receipt | leave => trivial

/-- One user, one filter, and these postings for every chunk. -/
def sameChunk (urls : List String) (_ : ℕ) : Chunk := ⟨1, "hash", urls⟩

/-- The worker's filter. -/
def anyKind : ClaimFilter := ⟨["run_all_filters", "run_filter_batch_chunk"], [], [], []⟩

/-- A new chunk of the run `parent`. -/
def newChunk (id parent : ℕ) : Act :=
  .queue (.enqueue id "run_filter_batch_chunk" none none [] (some parent))

/-- The execution of the claim number `seq`, the first of its task. -/
def firstClaim (seq id : ℕ) (worker : String) : Execution := ⟨seq, ⟨id, worker, 1⟩, 1⟩

/-- A handler from its start to the acceptance of its one wave. -/
def submits (k : ℕ) (e : Execution) (batch_id : String) (wave : List String) : List Act :=
  [.start k e, .check k "gpt" [], .build k fun _ => true, .freeze k, .accept k batch_id wave]

/-- Two chunks of one posting, the younger claimed first: the older one submits it, and the younger one
finds nothing left. -/
theorem reading_bought_once_two_chunks :
    ∃ s : State, Run (step (sameChunk ["u"])) (Timely (sameChunk ["u"])) State.empty s ∧
      s.submissions.length = 1 ∧ s.handlers 1 = some ⟨3, .submitting [] ⟨[], ["gpt"]⟩⟩ ∧
      ∀ p ∈ s.submissions, ∀ q ∈ s.submissions, p.finished = false → q.finished = false →
        p.task_id ≠ q.task_id → ∀ url ∈ p.urls, url ∉ q.urls := by
  let acts : List Act := [newChunk 2 1, newChunk 3 1, .queue (.claim 3 anyKind "w3" 0),
    .queue (.claim 2 anyKind "w2" 0)] ++ submits 0 (firstClaim 1 2 "w2") "batch-1" ["u"] ++
    [.queue (.sweep (· == 2) (.record ["batch-1"])), .start 1 (firstClaim 0 3 "w3"),
      .check 1 "gpt" [], .build 1 fun _ => true, .freeze 1]
  have hp : (runList (guarded (step (sameChunk ["u"])) fun s a => steady s a = true) State.empty
      acts).any (fun s => s.submissions.length == 1 &&
        s.handlers 1 == some ⟨3, .submitting [] ⟨[], ["gpt"]⟩⟩) = true := by
    decide +kernel
  obtain ⟨s, hrun, hs⟩ := exists_run_of_any hp
  have htimely : Run (step (sameChunk ["u"])) (Timely (sameChunk ["u"])) State.empty s :=
    (run_of_guarded hrun).mono fun _ _ hok => timely_of_steady hok
  rw [Bool.and_eq_true, beq_iff_eq, beq_iff_eq] at hs
  refine ⟨s, htimely, hs.1, hs.2, fun p hp q hq hunp hunq hne => ?_⟩
  exact (reading_bought_once htimely).1 p hp q hq hunp hunq hne ⟨rfl, rfl⟩

/-- A chunk fails because its payload is unavailable, a younger chunk submits the posting, and an operator
recovers the first chunk, which looks only at older ones and submits it again. -/
theorem recovered_chunk_buys_again :
    ¬ ∀ s : State, Run (step (sameChunk ["u"])) Always State.empty s →
      ∀ p ∈ s.submissions, ∀ q ∈ s.submissions, p.finished = false → q.finished = false →
        p.task_id ≠ q.task_id → Rivals (sameChunk ["u"]) p.task_id q.task_id →
        ∀ url ∈ p.urls, url ∉ q.urls := by
  intro hall
  let parent := firstClaim 0 1 "w1"
  let older := firstClaim 1 2 "w2"
  let acts : List Act := [.queue (.enqueue 1 "run_all_filters" none none [] none),
    .queue (.claim 1 anyKind "w1" 0), newChunk 2 1, newChunk 3 1,
    .queue (.act parent (.parkWaiting parent.claim 2 "checked in 2 parts")),
    .queue (.claim 2 anyKind "w2" 1),
    .queue (.act older (.failUnavailable older.claim "Payload object is unavailable" 2)),
    .queue (.claim 3 anyKind "w3" 3)] ++ submits 0 (firstClaim 2 3 "w3") "batch-1" ["u"] ++
    [.queue (.sweep (· == 2) (.retry false false)), .queue (.claim 2 anyKind "w4" 4)] ++
    submits 1 (firstClaim 3 2 "w4") "batch-2" ["u"]
  have hp : (runList (step (sameChunk ["u"])) State.empty acts).any (fun s =>
      s.submissions == [⟨"batch-2", 2, ["u"], ⟨[], ["gpt"]⟩, false⟩,
        ⟨"batch-1", 3, ["u"], ⟨[], ["gpt"]⟩, false⟩]) = true := by
    decide +kernel
  obtain ⟨s, hrun, hs⟩ := exists_run_of_any hp
  rw [beq_iff_eq] at hs
  refine hall s hrun ⟨"batch-2", 2, ["u"], ⟨[], ["gpt"]⟩, false⟩ ?_
    ⟨"batch-1", 3, ["u"], ⟨[], ["gpt"]⟩, false⟩ ?_ rfl rfl (by decide) ⟨rfl, rfl⟩ "u" ?_ ?_
  · rw [hs]
    exact List.mem_cons_self
  · rw [hs]
    exact List.mem_cons_of_mem _ List.mem_cons_self
  · exact List.mem_singleton_self _
  · exact List.mem_singleton_self _

end JobScripts.Board

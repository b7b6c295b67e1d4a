import JobScripts.Lib.Run
import JobScripts.Queue.Parents.Family

/-!
# Admission

`enqueue` of `api/task_admission.py` against the queue. A call locks a row of the subject's own table, looks for a
task that conflicts, and inserts; the statements of the queue write the tasks in between, and take no such lock.

The lock keeps other calls away between the look and the insert, and no statement of the queue makes an ended task
active but `payload_recovery.retry`. So drafts and extractions are one at a time per subject unless a retry finds
another one live, and a scheduled pull is not queued beside a pending one (`one_live_task_per_subject`). A retry
does not ask for admission, and a scheduled pull may queue behind one that a worker has claimed (`admitted_twice`).
-/

namespace JobScripts.Queue.TaskAdmission

open Lib

/-! ## Requests -/

/-- The kinds of `TaskKind`, with the subject of a task of each. -/
inductive Subject
  | applicationDraft (user_id job_id : ℕ)
  | extractUpload (job_id : ℕ)
  | ingestSource (source : String)
  deriving DecidableEq

/-- `kind`: the kind of task that does the work on a subject. -/
def Subject.kind : Subject → String
  | .applicationDraft .. => "application_draft"
  | .extractUpload .. => "extract_upload"
  | .ingestSource .. => "ingest_source"

/-- The kinds that are never scheduled. -/
def Subject.exclusive : Subject → Bool
  | .ingestSource .. => false
  | _ => true

/-- `source` of the payload. -/
def Subject.source : Subject → Option String
  | .ingestSource source => some source
  | _ => none

/-- The row that `enqueue` locks. -/
inductive Domain
  | job (id : ℕ)
  | source (name : String)
  deriving DecidableEq

/-- The row that the subject belongs to. -/
def Subject.domain : Subject → Domain
  | .applicationDraft _ job_id => .job job_id
  | .extractUpload job_id => .job job_id
  | .ingestSource source => .source source

/-- What `enqueue` reads of the row that it locks: `active` and `ingest_interval_hours` of a source, the
`extraction_status` of a job's upload. -/
structure Owner where
  active : Bool := true
  ingest_interval_hours : ℕ := 1
  extraction_status : Option String := none
  deriving DecidableEq

/-- The arguments of `enqueue`; `force` is the payload's. -/
structure Request where
  subject : Subject
  scheduled : Bool := false
  force : Bool := false
  dedupe_key : Option String := none
  deriving DecidableEq

/-- `statuses`: scheduled calls look for pending tasks, the others for active ones. -/
def Request.statuses (r : Request) (status : Status) : Bool :=
  if r.scheduled then status == .pending else status.active

/-- A task with the keys of its payload that name the subject, which nothing writes. -/
structure Entry where
  subject : Subject
  dedupe_key : Option String
  created_at : Time
  row : Task

/-- `in_flight`: the newest task of the subject in one of the statuses. -/
def inFlight (tasks : List Entry) (subject : Subject) (statuses : Status → Bool) : Option ℕ :=
  (tasks.zipIdx.filter fun (e, _) => e.subject = subject && statuses e.row.status).getLast?.map Prod.snd

/-- A pull of the source that is running or done was created within its interval. -/
def recent (tasks : List Entry) (subject : Subject) (hours : ℕ) (now : Time) : Bool :=
  tasks.any fun e => e.subject = subject && (e.row.status == .running || e.row.status == .done) &&
    now < e.created_at + 3600 * hours

/-- What refuses a call without a conflict. -/
def Request.refused (r : Request) (owner : Owner) (tasks : List Entry) (now : Time) : Bool :=
  match r.subject with
  | .ingestSource _ =>
    r.scheduled && (!owner.active ||
      (1 < owner.ingest_interval_hours && recent tasks r.subject owner.ingest_interval_hours now))
  | .extractUpload _ => !r.force && owner.extraction_status != some "pending"
  | .applicationDraft .. => false

/-! ## Calls -/

/-- What a call returns: `Admission`, or an exception. -/
inductive Admission
  | task (id : ℕ)
  | conflict (id : ℕ)
  | nothing
  | missing
  | aborted
  deriving DecidableEq

/-- How far a call is. -/
inductive Phase
  | waiting
  | locked (owner : Owner)
  | clear (owner : Owner)
  | admitted
  | returned (admission : Admission)
  deriving DecidableEq

/-- The call has looked for a conflict and found none. -/
def Phase.looked : Phase → Bool
  | .clear _ | .admitted => true
  | _ => false

/-- The call has the lock. -/
def Phase.holds : Phase → Bool
  | .locked _ | .clear _ | .admitted => true
  | _ => false

/-- A call of `enqueue`. -/
structure Call where
  request : Request
  phase : Phase
  deriving DecidableEq

/-- The tasks by id, the calls, and who holds which row. -/
structure State where
  tasks : List Entry
  calls : ℕ → Option Call
  locks : Domain → Option ℕ

/-- Nothing is queued. -/
def State.empty : State := ⟨[], fun _ => none, fun _ => none⟩

/-- A call goes on. -/
def State.go (s : State) (k : ℕ) (request : Request) (phase : Phase) : State :=
  { s with calls := Function.update s.calls k (some ⟨request, phase⟩) }

/-- A call returns, and its row is free. -/
def State.ret (s : State) (k : ℕ) (request : Request) (admission : Admission) : State :=
  { s with
    calls := Function.update s.calls k (some ⟨request, .returned admission⟩)
    locks := fun d => if s.locks d = some k then none else s.locks d }

/-- What can happen next. -/
inductive Act
  /-- `enqueue` is called. -/
  | request (k : ℕ) (r : Request)
  /-- `SELECT … FOR UPDATE` on the row of the subject, which may be gone. -/
  | lock (k : ℕ) (owner : Option Owner)
  /-- `in_flight`: a request looks for a task of its subject that has not ended. -/
  | look (k : ℕ)
  /-- The checks that a kind has of its own. -/
  | settle (k : ℕ) (now : Time)
  /-- `INSERT INTO tasks`, and the commit. `taken` says that a task of another kind has the key. -/
  | commit (k : ℕ) (now : Time) (taken : Bool)
  /-- The transaction is rolled back. -/
  | abort (k : ℕ)
  /-- A statement of the queue, against one task. -/
  | write (id : ℕ) (w : Write)

/-- The parents of chunks are of other kinds, so that no recovery reopens one of these tasks as a parent. -/
def reopens : Write → Bool
  | .reopenParent => true
  | _ => false

/-- One step. -/
def step (s : State) : Act → Option State
  | .request k r =>
    -- `scheduled admission requires an ingest source`.
    if (s.calls k).isSome || (r.scheduled && r.subject.exclusive) then none else some (s.go k r .waiting)
  | .lock k owner =>
    match s.calls k with
    | some ⟨r, .waiting⟩ =>
      if (s.locks r.subject.domain).isSome then none
      else
        match owner with
        | none => some (s.ret k r .missing)
        | some owner =>
          some { s.go k r (.locked owner) with locks := Function.update s.locks r.subject.domain (some k) }
    | _ => none
  | .look k =>
    match s.calls k with
    | some ⟨r, .locked owner⟩ =>
      match inFlight s.tasks r.subject r.statuses with
      | some id => some (s.ret k r (.conflict id))
      | none => some (s.go k r (.clear owner))
    | _ => none
  | .settle k now =>
    match s.calls k with
    | some ⟨r, .clear owner⟩ =>
      if r.refused owner s.tasks now then some (s.ret k r .nothing) else some (s.go k r .admitted)
    | _ => none
  | .commit k now taken =>
    match s.calls k with
    | some ⟨r, .admitted⟩ =>
      -- `ON CONFLICT (dedupe_key) DO NOTHING`.
      if r.dedupe_key.isSome && (taken || s.tasks.any fun e => e.dedupe_key = r.dedupe_key) then
        some (s.ret k r .nothing)
      else some { s.ret k r (.task s.tasks.length) with
        tasks := s.tasks ++ [⟨r.subject, r.dedupe_key, now, enqueue r.subject.kind none r.subject.source [] none⟩] }
    | _ => none
  | .abort k =>
    match s.calls k with
    | some ⟨r, phase⟩ => if phase.holds || phase = .waiting then some (s.ret k r .aborted) else none
    | none => none
  | .write id w =>
    match s.tasks[id]? with
    | some e =>
      if reopens w then none
      else (w.run e.row).map fun row => { s with tasks := s.tasks.set id { e with row } }
    | none => none

/-! ## What makes a task active -/

section Active

variable {t t' : Task} {w : Write}

/-- A status that is not active is an end. -/
theorem ended_of_not_active {status : Status} (h : status.active = false) : status.ended = true := by
  cases status <;> first | rfl | contradiction

/-- No statement but a recovery makes a task active that was not. -/
theorem active_of_run (hreopens : reopens w = false) (hretry : ∀ accepted has_results, w ≠ .retry accepted has_results)
    (h : w.run t = some t') (hactive : t'.status.active = true) : t.status.active = true := by
  by_contra hnot
  have hended : t.status.ended = true := ended_of_not_active (Bool.eq_false_iff.mpr hnot)
  -- A plain statement does not change an end; the two others need a task that has none.
  have hplain : w.fits t = true → False := by
    intro hfits
    rw [(Write.run_moves hfits h).ended hended] at hactive
    exact hnot hactive
  cases w with
  | retry accepted has_results => exact hretry accepted has_results rfl
  | reopenParent => contradiction
  | parkWaiting c total label =>
    simp only [Write.run, Queue.parkWaiting, Option.ite_none_right_eq_some, Bool.and_eq_true, beq_iff_eq] at h
    rw [h.1.1] at hended
    contradiction
  | finalizeParent n now =>
    simp only [Write.run, Queue.finalizeParent, Option.ite_none_right_eq_some, beq_iff_eq] at h
    rw [h.1] at hended
    contradiction
  | _ => exact hplain rfl

end Active

/-! ## Invariant -/

/-- A recovery does no harm: no other task of the subject is live, if the kind is one at a time, and no call that
has looked for one is about to insert. -/
def Unharmed (s : State) : Act → Prop
  | .write id (.retry ..) => ∀ e, s.tasks[id]? = some e →
      (e.subject.exclusive = true → ∀ (j : ℕ) (e' : Entry), s.tasks[j]? = some e' → j ≠ id →
        e'.subject = e.subject → e'.row.status.active = false) ∧
      ∀ k c, s.calls k = some c → c.request.subject = e.subject → c.phase.looked = false
  | _ => True

/-- The calls that are past a point hold their rows. -/
def State.Locked (s : State) : Prop :=
  ∀ k c, s.calls k = some c → c.phase.holds = true → s.locks c.request.subject.domain = some k

/-- The invariant. -/
structure State.Inv (s : State) : Prop where
  locked : s.Locked
  scheduled : ∀ k c, s.calls k = some c → c.request.subject.exclusive = true → c.request.scheduled = false
  /-- A call that is not scheduled and has found nothing still finds nothing. -/
  clear : ∀ k c, s.calls k = some c → c.request.scheduled = false → c.phase.looked = true →
    ∀ e ∈ s.tasks, e.subject = c.request.subject → e.row.status.active = false
  one : ∀ (i j : ℕ) (e e' : Entry), s.tasks[i]? = some e → s.tasks[j]? = some e' → e.subject = e'.subject →
    e.subject.exclusive = true → e.row.status.active = true → e'.row.status.active = true → i = j

section Invariant

variable {s s' : State} {k : ℕ} {r : Request}

/-- A call that has looked holds its row. -/
theorem Phase.holds_of_looked {phase : Phase} (h : phase.looked = true) : phase.holds = true := by
  cases phase <;> first | rfl | contradiction

/-- Two calls that hold the row of one subject are one call. -/
theorem State.Locked.unique (h : s.Locked) {k' : ℕ} {c c' : Call} (hc : s.calls k = some c)
    (hc' : s.calls k' = some c') (hholds : c.phase.holds = true) (hholds' : c'.phase.holds = true)
    (hsubject : c'.request.subject = c.request.subject) : k' = k := by
  have hlock := h k c hc hholds
  have hlock' := h k' c' hc' hholds'
  rw [hsubject, hlock] at hlock'
  exact (Option.some.inj hlock').symm

/-- A call that goes on with its row. -/
theorem State.Locked.go (h : s.Locked) {c : Call} (hc : s.calls k = some c) (hr : c.request = r)
    (hholds : c.phase.holds = true) (phase : Phase) : (s.go k r phase).Locked := by
  intro k' c' hc' hholds'
  unfold State.go at hc' ⊢
  dsimp only at hc' ⊢
  by_cases hk : k' = k
  · subst hk
    rw [Function.update_self] at hc'
    obtain rfl := Option.some.inj hc'
    dsimp only
    rw [← hr]
    exact h k' c hc hholds
  · rw [Function.update_of_ne hk] at hc'
    exact h k' c' hc' hholds'

/-- A call that returns. -/
theorem State.Locked.ret (h : s.Locked) (admission : Admission) : (s.ret k r admission).Locked := by
  intro k' c' hc' hholds'
  unfold State.ret at hc' ⊢
  dsimp only at hc' ⊢
  by_cases hk : k' = k
  · subst hk
    rw [Function.update_self] at hc'
    obtain rfl := Option.some.inj hc'
    contradiction
  · rw [Function.update_of_ne hk] at hc'
    have hlock := h k' c' hc' hholds'
    rw [hlock, if_neg fun heq => hk (Option.some.inj heq)]

/-- One step keeps the locks. -/
theorem State.Locked.step (h : s.Locked) (a : Act) (hs : step s a = some s') : s'.Locked := by
  unfold TaskAdmission.step at hs
  cases a with
  -- A call that begins holds no row.
  | request k r =>
    dsimp only at hs
    split at hs
    · contradiction
    · rw [← Option.some.inj hs]
      intro k' c' hc' hholds'
      unfold State.go at hc'
      dsimp only at hc'
      by_cases hk : k' = k
      · subst hk
        rw [Function.update_self] at hc'
        obtain rfl := Option.some.inj hc'
        contradiction
      · rw [Function.update_of_ne hk] at hc'
        exact h k' c' hc' hholds'
  -- The row is taken where it is free.
  | lock k owner =>
    dsimp only at hs
    split at hs
    · next r hc =>
      split at hs
      · contradiction
      · next hfree =>
        split at hs
        · rw [← Option.some.inj hs]
          exact h.ret _
        · next owner =>
          rw [← Option.some.inj hs]
          intro k' c' hc' hholds'
          unfold State.go at hc'
          dsimp only at hc' ⊢
          by_cases hk : k' = k
          · subst hk
            rw [Function.update_self] at hc'
            obtain rfl := Option.some.inj hc'
            exact Function.update_self ..
          · rw [Function.update_of_ne hk] at hc'
            have hlock := h k' c' hc' hholds'
            rw [Function.update_of_ne]
            · exact hlock
            · intro heq
              rw [← heq, hlock] at hfree
              exact hfree rfl
    · contradiction
  -- A call that goes on keeps its row, and one that returns gives it back.
  | look k =>
    dsimp only at hs
    split at hs
    · next r owner hc =>
      split at hs
      · rw [← Option.some.inj hs]
        exact h.ret _
      · rw [← Option.some.inj hs]
        exact h.go hc rfl rfl _
    · contradiction
  | settle k now =>
    dsimp only at hs
    split at hs
    · next r owner hc =>
      split at hs
      · rw [← Option.some.inj hs]
        exact h.ret _
      · rw [← Option.some.inj hs]
        exact h.go hc rfl rfl _
    · contradiction
  | commit k now taken =>
    dsimp only at hs
    split at hs
    · split at hs
      · rw [← Option.some.inj hs]
        exact h.ret _
      · rw [← Option.some.inj hs]
        exact h.ret (.task s.tasks.length)
    · contradiction
  | abort k =>
    dsimp only at hs
    split at hs
    · split at hs
      · rw [← Option.some.inj hs]
        exact h.ret _
      · contradiction
    · contradiction
  -- The statements of the queue take no such row.
  | write id w =>
    dsimp only at hs
    split at hs
    · split at hs
      · contradiction
      · obtain ⟨row, -, rfl⟩ := Option.map_eq_some_iff.mp hs
        exact h
    · contradiction

/-- What `in_flight` does not find is not there. -/
theorem inFlight_eq_none {tasks : List Entry} {subject : Subject} {statuses : Status → Bool}
    (h : inFlight tasks subject statuses = none) {e : Entry} (he : e ∈ tasks) (hsubject : e.subject = subject) :
    statuses e.row.status = false := by
  unfold inFlight at h
  rw [Option.map_eq_none_iff, List.getLast?_eq_none_iff] at h
  obtain ⟨i, hi⟩ := List.getElem?_of_mem he
  have hmem : (e, i) ∈ tasks.zipIdx := List.mem_zipIdx_iff_getElem?.mpr hi
  have hno := List.filter_eq_nil_iff.mp h (e, i) hmem
  simpa [hsubject] using hno

/-- What a step can do to the tasks and the calls. -/
inductive Change (s : State) (a : Act) (s' : State) : Prop
  /-- A call goes on or returns. It goes past the look only if it has found nothing. -/
  | moved (k : ℕ) (r : Request) (phase : Phase) (hwrite : ∀ id w, a ≠ .write id w) (htasks : s'.tasks = s.tasks)
      (hcalls : s'.calls = Function.update s.calls k (some ⟨r, phase⟩))
      (hrequest : (∃ c, s.calls k = some c ∧ c.request = r) ∨ (r.scheduled && r.subject.exclusive) = false)
      (hlooked : phase.looked = true →
        (∃ c, s.calls k = some c ∧ c.request = r ∧ c.phase.looked = true) ∨
          inFlight s.tasks r.subject r.statuses = none)
  /-- A call inserts a task, and returns it. -/
  | created (k : ℕ) (now : Time) (taken : Bool) (r : Request) (e : Entry) (ha : a = .commit k now taken)
      (hcall : s.calls k = some ⟨r, .admitted⟩) (hsubject : e.subject = r.subject)
      (hpending : e.row.status = .pending) (htasks : s'.tasks = s.tasks ++ [e])
      (hcalls : s'.calls = Function.update s.calls k (some ⟨r, .returned (.task s.tasks.length)⟩))
  /-- A statement writes a task. -/
  | written (id : ℕ) (w : Write) (e : Entry) (row : Task) (ha : a = .write id w) (he : s.tasks[id]? = some e)
      (hreopens : reopens w = false) (hrun : w.run e.row = some row)
      (htasks : s'.tasks = s.tasks.set id { e with row }) (hcalls : s'.calls = s.calls)

/-- Every step is one of these. -/
theorem step_change {a : Act} (hs : step s a = some s') : Change s a s' := by
  cases a with
  -- A call goes on or returns, whatever it finds.
  | request k r =>
    rw [TaskAdmission.step] at hs
    split at hs
    · contradiction
    · next hnew =>
      rw [← Option.some.inj hs]
      refine .moved k r .waiting nofun rfl rfl (.inr ?_) nofun
      rw [Bool.or_eq_true, not_or] at hnew
      exact Bool.eq_false_iff.mpr hnew.2
  | lock k owner =>
    rw [TaskAdmission.step] at hs
    split at hs
    · next r hc =>
      split at hs
      · contradiction
      · split at hs
        · rw [← Option.some.inj hs]
          exact .moved k r _ nofun rfl rfl (.inl ⟨_, hc, rfl⟩) nofun
        · rw [← Option.some.inj hs]
          exact .moved k r _ nofun rfl rfl (.inl ⟨_, hc, rfl⟩) nofun
    · contradiction
  -- It goes past the look with nothing found.
  | look k =>
    rw [TaskAdmission.step] at hs
    split at hs
    · next r owner hc =>
      split at hs
      · rw [← Option.some.inj hs]
        exact .moved k r _ nofun rfl rfl (.inl ⟨_, hc, rfl⟩) nofun
      · next hnone =>
        rw [← Option.some.inj hs]
        exact .moved k r _ nofun rfl rfl (.inl ⟨_, hc, rfl⟩) fun _ => .inr hnone
    · contradiction
  | settle k now =>
    rw [TaskAdmission.step] at hs
    split at hs
    · next r owner hc =>
      split at hs
      · rw [← Option.some.inj hs]
        exact .moved k r _ nofun rfl rfl (.inl ⟨_, hc, rfl⟩) nofun
      · rw [← Option.some.inj hs]
        exact .moved k r _ nofun rfl rfl (.inl ⟨_, hc, rfl⟩) fun _ => .inl ⟨_, hc, rfl, rfl⟩
    · contradiction
  -- It inserts a task where the key is not taken.
  | commit k now taken =>
    rw [TaskAdmission.step] at hs
    split at hs
    · next r hc =>
      split at hs
      · rw [← Option.some.inj hs]
        exact .moved k r _ nofun rfl rfl (.inl ⟨_, hc, rfl⟩) nofun
      · rw [← Option.some.inj hs]
        exact .created k now taken r _ rfl hc rfl rfl rfl rfl
    · contradiction
  | abort k =>
    rw [TaskAdmission.step] at hs
    split at hs
    · next r phase hc =>
      split at hs
      · rw [← Option.some.inj hs]
        exact .moved k r _ nofun rfl rfl (.inl ⟨_, hc, rfl⟩) nofun
      · contradiction
    · contradiction
  -- The queue writes a task, and makes none active that had ended.
  | write id w =>
    rw [TaskAdmission.step] at hs
    split at hs
    · next e he =>
      split at hs
      · contradiction
      · next hreopens =>
        obtain ⟨row, hrun, rfl⟩ := Option.map_eq_some_iff.mp hs
        exact .written id w e row rfl he (Bool.eq_false_iff.mpr hreopens) hrun rfl rfl
    · contradiction

/-- A call after another one has moved. -/
theorem call_cases {c : Call} {k' : ℕ} {c' : Call} (hcalls : s'.calls = Function.update s.calls k (some c))
    (hc' : s'.calls k' = some c') : (k' = k ∧ c' = c) ∨ (k' ≠ k ∧ s.calls k' = some c') := by
  rw [hcalls] at hc'
  by_cases hk : k' = k
  · subst hk
    rw [Function.update_self] at hc'
    exact .inl ⟨rfl, (Option.some.inj hc').symm⟩
  · rw [Function.update_of_ne hk] at hc'
    exact .inr ⟨hk, hc'⟩

/-- A task after a write: the one that was written, or one that is as it was. -/
theorem task_cases {id : ℕ} {e : Entry} {row : Task} (he : s.tasks[id]? = some e)
    (htasks : s'.tasks = s.tasks.set id { e with row }) {i : ℕ} {e' : Entry} (he' : s'.tasks[i]? = some e') :
    (i = id ∧ e' = { e with row }) ∨ (i ≠ id ∧ s.tasks[i]? = some e') := by
  rw [htasks] at he'
  by_cases hi : id = i
  · subst hi
    rw [List.getElem?_set_self (List.getElem?_eq_some_iff.mp he).1] at he'
    exact .inl ⟨rfl, (Option.some.inj he').symm⟩
  · rw [List.getElem?_set_ne hi] at he'
    exact .inr ⟨fun h => hi h.symm, he'⟩

/-- A task after an insertion: the new one, or one that was there. -/
theorem append_cases {e : Entry} (htasks : s'.tasks = s.tasks ++ [e]) {i : ℕ} {e' : Entry}
    (he' : s'.tasks[i]? = some e') : (i = s.tasks.length ∧ e' = e) ∨ s.tasks[i]? = some e' := by
  rw [htasks] at he'
  by_cases hi : i < s.tasks.length
  · rw [List.getElem?_append_left hi] at he'
    exact .inr he'
  · rw [List.getElem?_append_right (Nat.le_of_not_lt hi), List.getElem?_singleton] at he'
    split at he'
    · next hzero => exact .inl ⟨by omega, (Option.some.inj he').symm⟩
    · contradiction

/-- The invariant at the start. -/
theorem State.Inv.empty : State.empty.Inv where
  locked _ _ h := by simp [State.empty] at h
  scheduled _ _ h := by simp [State.empty] at h
  clear _ _ h := by simp [State.empty] at h
  one _ _ _ _ h := by simp [State.empty] at h

/-- A call that goes on, or returns, keeps the invariant. -/
theorem State.Inv.moved (hinv : s.Inv) (hlocked : s'.Locked) {phase : Phase} (htasks : s'.tasks = s.tasks)
    (hcalls : s'.calls = Function.update s.calls k (some ⟨r, phase⟩))
    (hrequest : (∃ c, s.calls k = some c ∧ c.request = r) ∨ (r.scheduled && r.subject.exclusive) = false)
    (hlooked : phase.looked = true →
      (∃ c, s.calls k = some c ∧ c.request = r ∧ c.phase.looked = true) ∨
        inFlight s.tasks r.subject r.statuses = none) : s'.Inv := by
  refine ⟨hlocked, fun k' c' hc' hexclusive => ?_, fun k' c' hc' hscheduled hlook e he hsubject => ?_, ?_⟩
  · rcases call_cases hcalls hc' with ⟨-, rfl⟩ | ⟨-, hc'⟩
    · rcases hrequest with ⟨c, hc, rfl⟩ | hfalse
      · exact hinv.scheduled k c hc hexclusive
      · simpa [hexclusive] using hfalse
    · exact hinv.scheduled k' c' hc' hexclusive
  · rw [htasks] at he
    rcases call_cases hcalls hc' with ⟨-, rfl⟩ | ⟨-, hc'⟩
    · rcases hlooked hlook with ⟨c, hc, rfl, hclook⟩ | hnone
      · exact hinv.clear k c hc hscheduled hclook e he hsubject
      · have hstatus := inFlight_eq_none hnone he hsubject
        have hunscheduled : r.scheduled = false := hscheduled
        simpa [Request.statuses, hunscheduled] using hstatus
    · exact hinv.clear k' c' hc' hscheduled hlook e he hsubject
  · rw [htasks]
    exact hinv.one

/-- A call that inserts keeps the invariant: it alone has the row, and it has found nothing. -/
theorem State.Inv.created (hinv : s.Inv) (hlocked : s'.Locked) {e : Entry}
    (hcall : s.calls k = some ⟨r, .admitted⟩) (hsubject : e.subject = r.subject)
    (htasks : s'.tasks = s.tasks ++ [e])
    (hcalls : s'.calls = Function.update s.calls k (some ⟨r, .returned (.task s.tasks.length)⟩)) : s'.Inv := by
  refine ⟨hlocked, fun k' c' hc' hexclusive => ?_, fun k' c' hc' hscheduled hlook f hf hfs => ?_,
    fun i j f f' hf hf' heq hexclusive hactive hactive' => ?_⟩
  · rcases call_cases hcalls hc' with ⟨-, rfl⟩ | ⟨-, hc'⟩
    · exact hinv.scheduled k ⟨r, .admitted⟩ hcall hexclusive
    · exact hinv.scheduled k' c' hc' hexclusive
  · rcases call_cases hcalls hc' with ⟨-, rfl⟩ | ⟨hk, hc'⟩
    · contradiction
    · rw [htasks] at hf
      rcases List.mem_append.mp hf with hf | hf
      · exact hinv.clear k' c' hc' hscheduled hlook f hf hfs
      -- Another call that has looked would have the same row.
      · obtain rfl := List.mem_singleton.mp hf
        have hsame := hinv.locked.unique hcall hc' rfl (Phase.holds_of_looked hlook) (hfs.symm.trans hsubject)
        exact absurd hsame hk
  · have hnone : r.subject.exclusive = true → ∀ g ∈ s.tasks, g.subject = r.subject →
        g.row.status.active = false := fun hr => hinv.clear k _ hcall (hinv.scheduled k _ hcall hr) rfl
    rcases append_cases htasks hf with ⟨rfl, rfl⟩ | hf
    · rcases append_cases htasks hf' with ⟨rfl, -⟩ | hf'
      · rfl
      · rw [hsubject] at heq hexclusive
        have hno := hnone hexclusive f' (List.mem_of_getElem? hf') heq.symm
        rw [hactive'] at hno
        contradiction
    · rcases append_cases htasks hf' with ⟨rfl, rfl⟩ | hf'
      · rw [heq, hsubject] at hexclusive
        have hno := hnone hexclusive f (List.mem_of_getElem? hf) (heq.trans hsubject)
        rw [hactive] at hno
        contradiction
      · exact hinv.one i j f f' hf hf' heq hexclusive hactive hactive'

/-- A statement keeps the invariant if it makes no task active that was not, or does no harm by it. -/
theorem State.Inv.written (hinv : s.Inv) (hlocked : s'.Locked) {id : ℕ} {e : Entry} {row : Task}
    (he : s.tasks[id]? = some e) (htasks : s'.tasks = s.tasks.set id { e with row }) (hcalls : s'.calls = s.calls)
    (hactive : row.status.active = true → e.row.status.active = true ∨
      (e.subject.exclusive = true → ∀ (j : ℕ) (e' : Entry), s.tasks[j]? = some e' → j ≠ id →
        e'.subject = e.subject → e'.row.status.active = false) ∧
      ∀ k c, s.calls k = some c → c.request.subject = e.subject → c.phase.looked = false) : s'.Inv := by
  have hmem : e ∈ s.tasks := List.mem_of_getElem? he
  refine ⟨hlocked, ?_, fun k' c' hc' hscheduled hlook f hf hfs => ?_,
    fun i j f f' hf hf' heq hexclusive ha ha' => ?_⟩
  · rw [hcalls]
    exact hinv.scheduled
  · rw [hcalls] at hc'
    obtain ⟨i, hi⟩ := List.getElem?_of_mem hf
    rcases task_cases he htasks hi with ⟨-, rfl⟩ | ⟨-, hi⟩
    · by_contra hrow
      rcases hactive (Bool.not_eq_false _ ▸ hrow) with hwas | ⟨-, hcalm⟩
      · have hno := hinv.clear k' c' hc' hscheduled hlook e hmem hfs
        rw [hwas] at hno
        contradiction
      · have hno := hcalm k' c' hc' hfs.symm
        rw [hlook] at hno
        contradiction
    · exact hinv.clear k' c' hc' hscheduled hlook f (List.mem_of_getElem? hi) hfs
  · rcases task_cases he htasks hf with ⟨rfl, rfl⟩ | ⟨hi, hf⟩
    · rcases task_cases he htasks hf' with ⟨rfl, -⟩ | ⟨hj, hf'⟩
      · rfl
      · rcases hactive ha with hwas | ⟨hothers, -⟩
        · exact hinv.one i j e f' he hf' heq hexclusive hwas ha'
        · have hno := hothers hexclusive j f' hf' hj heq.symm
          rw [ha'] at hno
          contradiction
    · rcases task_cases he htasks hf' with ⟨rfl, rfl⟩ | ⟨-, hf'⟩
      · rcases hactive ha' with hwas | ⟨hothers, -⟩
        · exact hinv.one i j f e hf he heq hexclusive ha hwas
        · have hno := hothers (heq ▸ hexclusive) i f hf hi heq
          rw [ha] at hno
          contradiction
      · exact hinv.one i j f f' hf hf' heq hexclusive ha ha'

/-- One step that does no harm keeps the invariant. -/
theorem State.Inv.step (hinv : s.Inv) {a : Act} (hok : Unharmed s a) (hs : step s a = some s') : s'.Inv := by
  have hlocked := hinv.locked.step a hs
  cases step_change hs with
  | moved k r phase hwrite htasks hcalls hrequest hlooked =>
    exact hinv.moved hlocked htasks hcalls hrequest hlooked
  | created k now taken r e ha hcall hsubject hpending htasks hcalls =>
    exact hinv.created hlocked hcall hsubject htasks hcalls
  | written id w e row ha he hreopens hrun htasks hcalls =>
    refine hinv.written hlocked he htasks hcalls fun hactive => ?_
    by_cases hretry : ∃ accepted has_results, w = .retry accepted has_results
    · obtain ⟨accepted, has_results, rfl⟩ := hretry
      rw [ha] at hok
      exact .inr (hok e he)
    · refine .inl (active_of_run hreopens (fun accepted has_results heq => ?_) hrun hactive)
      exact hretry ⟨accepted, has_results, heq⟩

end Invariant

/-! ## Pulls of a source -/

/-- No task of the subject leaves the queue: a statement on one that is pending leaves it pending. -/
def StaysPending (subject : Subject) (s : State) : Act → Prop
  | .write id w => ∀ e row, s.tasks[id]? = some e → w.run e.row = some row → e.subject = subject →
      e.row.status = .pending → row.status = .pending
  | _ => True

/-- From the `n`-th task on, at most one is of the subject; once there is one, it is pending, and no call on the
subject is past its look. -/
structure AtMostOne (subject : Subject) (n : ℕ) (s : State) : Prop where
  locked : s.Locked
  length : n ≤ s.tasks.length
  one : (∀ (i : ℕ) (e : Entry), n ≤ i → s.tasks[i]? = some e → e.subject ≠ subject) ∨
    ∃ (i : ℕ) (e : Entry), s.tasks[i]? = some e ∧ e.subject = subject ∧ e.row.status = .pending ∧
      (∀ (j : ℕ) (f : Entry), n ≤ j → s.tasks[j]? = some f → f.subject = subject → j = i) ∧
      ∀ k c, s.calls k = some c → c.request.subject = subject → c.phase.looked = false

section Pulls

variable {s s' : State} {subject : Subject} {n : ℕ}

/-- One step keeps it, unless it takes a task of the subject out of the queue. -/
theorem AtMostOne.step (h : AtMostOne subject n s) {a : Act} (hok : StaysPending subject s a)
    (hs : step s a = some s') : AtMostOne subject n s' := by
  have hlocked := h.locked.step a hs
  cases step_change hs with
  -- A call that goes on inserts nothing.
  | moved k r phase hwrite htasks hcalls hrequest hlooked =>
    refine ⟨hlocked, htasks ▸ h.length, ?_⟩
    rw [htasks]
    rcases h.one with hnone | ⟨i, e, he, hsubject, hpending, hunique, hcalm⟩
    · exact .inl hnone
    · refine .inr ⟨i, e, he, hsubject, hpending, hunique, fun k' c' hc' hc's => ?_⟩
      rcases call_cases hcalls hc' with ⟨-, rfl⟩ | ⟨-, hc'⟩
      · by_contra hlook
        have hlook : phase.looked = true := Bool.not_eq_false _ ▸ hlook
        rcases hlooked hlook with ⟨c, hc, rfl, hclook⟩ | hfree
        · rw [hcalm k c hc hc's] at hclook
          contradiction
        -- The pending task is found by every look.
        · have hstatus := inFlight_eq_none hfree (List.mem_of_getElem? he) (hsubject.trans hc's.symm)
          rw [hpending] at hstatus
          cases hscheduled : r.scheduled <;> simp [Request.statuses, hscheduled, Status.active] at hstatus
      · exact hcalm k' c' hc' hc's
  -- A call of the subject inserts the first one, and another call one of its own subject.
  | created k now taken r e ha hcall hsubject hpending htasks hcalls =>
    refine ⟨hlocked, ?_, ?_⟩
    · rw [htasks, List.length_append]
      exact Nat.le_add_right_of_le h.length
    · by_cases hr : r.subject = subject
      · rcases h.one with hnone | ⟨-, -, -, -, -, -, hcalm⟩
        · refine .inr ⟨s.tasks.length, e, ?_, hsubject.trans hr, hpending, fun j f hj hf hfs => ?_, ?_⟩
          · rw [htasks]
            exact List.getElem?_concat_length
          · rcases append_cases htasks hf with ⟨rfl, -⟩ | hf
            · rfl
            · exact absurd hfs (hnone j f hj hf)
          -- The call that inserted had the row, so that no other one has looked.
          · intro k' c' hc' hc's
            rcases call_cases hcalls hc' with ⟨-, rfl⟩ | ⟨hk, hc'⟩
            · rfl
            · by_contra hlook
              have hholds := Phase.holds_of_looked (Bool.not_eq_false _ ▸ hlook)
              exact hk (h.locked.unique hcall hc' rfl hholds (hc's.trans hr.symm))
        · have hlook := hcalm k _ hcall hr
          contradiction
      · have hother : ∀ (j : ℕ) (f : Entry), s'.tasks[j]? = some f → f.subject = subject →
            s.tasks[j]? = some f := by
          intro j f hf hfs
          rcases append_cases htasks hf with ⟨-, rfl⟩ | hf
          · exact absurd (hsubject.symm.trans hfs) hr
          · exact hf
        rcases h.one with hnone | ⟨i, f, hf, hfs, hfp, hunique, hcalm⟩
        · exact .inl fun j f hj hf hfs => hnone j f hj (hother j f hf hfs) hfs
        · refine .inr ⟨i, f, ?_, hfs, hfp, fun j g hj hg hgs => hunique j g hj (hother j g hg hgs) hgs, ?_⟩
          · rw [htasks, List.getElem?_append_left (List.getElem?_eq_some_iff.mp hf).1]
            exact hf
          · intro k' c' hc' hc's
            rcases call_cases hcalls hc' with ⟨-, rfl⟩ | ⟨-, hc'⟩
            · rfl
            · exact hcalm k' c' hc' hc's
  -- A statement of the queue keeps the subjects, and the pending task pending.
  | written id w e row ha he hreopens hrun htasks hcalls =>
    have hsame : ∀ (j : ℕ) (f : Entry), s'.tasks[j]? = some f → ∃ f₀, s.tasks[j]? = some f₀ ∧
        f₀.subject = f.subject := by
      intro j f hf
      rcases task_cases he htasks hf with ⟨rfl, rfl⟩ | ⟨-, hf⟩
      · exact ⟨e, he, rfl⟩
      · exact ⟨f, hf, rfl⟩
    refine ⟨hlocked, ?_, ?_⟩
    · rw [htasks, List.length_set]
      exact h.length
    · rcases h.one with hnone | ⟨i, f, hf, hfs, hfp, hunique, hcalm⟩
      · refine .inl fun j g hj hg => ?_
        obtain ⟨g₀, hg₀, hgs⟩ := hsame j g hg
        exact hgs ▸ hnone j g₀ hj hg₀
      · rw [ha] at hok
        have hunique' : ∀ (j : ℕ) (g : Entry), n ≤ j → s'.tasks[j]? = some g → g.subject = subject → j = i := by
          intro j g hj hg hgs
          obtain ⟨g₀, hg₀, hg₀s⟩ := hsame j g hg
          exact hunique j g₀ hj hg₀ (hg₀s.trans hgs)
        by_cases hi : id = i
        · subst hi
          obtain rfl := Option.some.inj (he.symm.trans hf)
          refine .inr ⟨id, { e with row }, ?_, hfs, hok e row he hrun hfs hfp, hunique', hcalls ▸ hcalm⟩
          rw [htasks]
          exact List.getElem?_set_self (List.getElem?_eq_some_iff.mp he).1
        · refine .inr ⟨i, f, ?_, hfs, hfp, hunique', hcalls ▸ hcalm⟩
          rw [htasks, List.getElem?_set_ne hi]
          exact hf

/-- A whole run keeps it. -/
theorem AtMostOne.run (hlocked : s.Locked) (h : Run TaskAdmission.step (StaysPending subject) s s') :
    AtMostOne subject s.tasks.length s' := by
  refine h.invariant (I := AtMostOne subject s.tasks.length) ⟨hlocked, Nat.le_refl _, .inl ?_⟩
    fun _ _ _ hi hok hs => hi.step hok hs
  intro i e hi he
  have hlt := (List.getElem?_eq_some_iff.mp he).1
  omega

end Pulls

/-- In every run whose recoveries do no harm, a draft or an extraction is one at a time per subject; a call that is
not scheduled inserts only when no task of its subject is active; and from any state on, for as long as no pending
pull of a source is taken, at most one task of that source is created, whatever calls there are. -/
theorem one_live_task_per_subject {s : State} (h : Run step Unharmed State.empty s) :
    (∀ (i j : ℕ) (e e' : Entry), s.tasks[i]? = some e → s.tasks[j]? = some e' → e.subject = e'.subject →
      e.subject.exclusive = true → e.row.status.active = true → e'.row.status.active = true → i = j) ∧
    (∀ (k : ℕ) (r : Request) (now : Time) (taken : Bool) (s' : State), s.calls k = some ⟨r, .admitted⟩ →
      r.scheduled = false → step s (.commit k now taken) = some s' →
      s'.calls k = some ⟨r, .returned (.task s.tasks.length)⟩ →
        ∀ e ∈ s.tasks, e.subject = r.subject → e.row.status.active = false) ∧
    ∀ (source : String) (s' : State), Run step (StaysPending (.ingestSource source)) s s' →
      ∀ (i j : ℕ) (e e' : Entry), s.tasks.length ≤ i → s.tasks.length ≤ j → s'.tasks[i]? = some e →
        s'.tasks[j]? = some e' → e.subject = .ingestSource source → e'.subject = .ingestSource source → i = j := by
  have hinv : s.Inv := h.invariant (I := State.Inv) .empty fun _ _ _ hi hok hs => hi.step hok hs
  refine ⟨hinv.one, fun k r now taken s' hcall hscheduled _ _ => hinv.clear k _ hcall hscheduled rfl, ?_⟩
  intro source s' hrun i j e e' hi hj he he' hes hes'
  rcases (AtMostOne.run hinv.locked hrun).one with hnone | ⟨i₀, -, -, -, -, hunique, -⟩
  · exact absurd hes (hnone i e hi he)
  · rw [hunique i e hi he hes, hunique j e' hj he' hes']

/-- The acts of a call that finds its row, up to its insert. -/
def admits (k : ℕ) : List Act := [.lock k (some {}), .look k, .settle k 0, .commit k 0 false]

/-- A draft of posting 7 for user 1. -/
def draft : Request := { subject := .applicationDraft 1 7 }

/-- A worker for the three kinds. -/
def claims : Write := .claim ⟨["application_draft", "extract_upload", "ingest_source"], [], [], []⟩ "w" 1

/-- The act is not a recovery. -/
def Act.isRetry : Act → Bool
  | .write _ (.retry ..) => true
  | _ => false

/-- A draft that is claimed, and requeued by the reaper, while it is asked for again. -/
def reapedDraft : List Act :=
  .request 0 draft :: admits 0 ++
    [.write 0 claims, .request 1 draft, .lock 1 (some {}), .write 0 (.reapRequeue ⟨3, 5⟩ 1000), .look 1]

/-- The second request is refused, and the draft stays the only one. -/
theorem one_live_task_per_subject_reaped :
    ∃ s, Run step Unharmed State.empty s ∧ s.calls 1 = some ⟨draft, .returned (.conflict 0)⟩ ∧
      ∀ (i j : ℕ) (e e' : Entry), s.tasks[i]? = some e → s.tasks[j]? = some e' → e.subject = e'.subject →
        e.subject.exclusive = true → e.row.status.active = true → e'.row.status.active = true → i = j := by
  have hacts : (runList (guarded step fun _ a => a.isRetry = false) State.empty reapedDraft).any (fun s =>
      s.calls 1 = some ⟨draft, .returned (.conflict 0)⟩) = true := by
    decide +kernel
  obtain ⟨s, hrun, hs⟩ := exists_run_of_any hacts
  have hunharmed : ∀ (s : State) (a : Act), a.isRetry = false → Unharmed s a := by
    intro s a ha
    unfold Act.isRetry at ha
    unfold Unharmed
    split
    · exact absurd ha Bool.true_eq_false.mp
    · trivial
  have hrun := (run_of_guarded hrun).mono hunharmed
  exact ⟨s, hrun, of_decide_eq_true hs, (one_live_task_per_subject hrun).1⟩

/-- A draft whose payload is gone, asked for again, and recovered. -/
def recoveredDraft : List Act :=
  .request 0 draft :: admits 0 ++
    [.write 0 claims, .write 0 (.failUnavailable ⟨0, "w", 1⟩ "Payload unavailable from object storage" 2),
      .request 1 draft] ++ admits 1 ++ [.write 0 (.retry false false)]

/-- A scheduled pull of a source in a cycle. -/
def pull (cycle : String) : Request :=
  { subject := .ingestSource "a", scheduled := true, dedupe_key := some ("ingest:a:" ++ cycle) }

/-- A recovery leaves two live drafts of one posting for one user. And of two scheduled pulls of a source that has
no task, both under way together, the second is queued behind the first, which a worker has claimed. -/
theorem admitted_twice :
    (∃ s e e', Run step Always State.empty s ∧ s.tasks[0]? = some e ∧ s.tasks[1]? = some e' ∧
      e.subject = draft.subject ∧ e'.subject = draft.subject ∧ e.row.status.active = true ∧
      e'.row.status.active = true) ∧
    ∃ s s', Run step Always State.empty s ∧ s.tasks = [] ∧ s.calls 0 = some ⟨pull "10", .waiting⟩ ∧
      s.calls 1 = some ⟨pull "11", .waiting⟩ ∧ Run step Always s s' ∧
      s'.calls 0 = some ⟨pull "10", .returned (.task 0)⟩ ∧ s'.calls 1 = some ⟨pull "11", .returned (.task 1)⟩ := by
  constructor
  · have hacts : (runList step State.empty recoveredDraft).any (fun s =>
        (s.tasks[0]?).any (fun e => e.subject = draft.subject && e.row.status.active) &&
          (s.tasks[1]?).any fun e => e.subject = draft.subject && e.row.status.active) = true := by
      decide +kernel
    obtain ⟨s, hrun, hs⟩ := exists_run_of_any hacts
    rw [Bool.and_eq_true, Option.any_eq_true, Option.any_eq_true] at hs
    obtain ⟨⟨e, he, hboth⟩, e', he', hboth'⟩ := hs
    rw [Bool.and_eq_true, decide_eq_true_eq] at hboth hboth'
    exact ⟨s, e, e', hrun, he, he', hboth.1, hboth'.1, hboth.2, hboth'.2⟩
  · have hstart : (runList step State.empty [.request 0 (pull "10"), .request 1 (pull "11")]).any (fun s =>
        (runList step s (admits 0 ++ .write 0 claims :: admits 1)).any fun s' =>
          s.tasks = [] && s.calls 0 = some ⟨pull "10", .waiting⟩ && s.calls 1 = some ⟨pull "11", .waiting⟩ &&
            s'.calls 0 = some ⟨pull "10", .returned (.task 0)⟩ &&
            s'.calls 1 = some ⟨pull "11", .returned (.task 1)⟩) = true := by
      decide +kernel
    obtain ⟨s, hrun, hs⟩ := exists_run_of_any hstart
    obtain ⟨s', hrun', hs'⟩ := exists_run_of_any hs
    simp only [Bool.and_eq_true, decide_eq_true_eq] at hs'
    obtain ⟨⟨⟨⟨htasks, hfirst⟩, hsecond⟩, hcreated⟩, hcreated'⟩ := hs'
    exact ⟨s, s', hrun, htasks, hfirst, hsecond, hrun', hcreated, hcreated'⟩

end JobScripts.Queue.TaskAdmission

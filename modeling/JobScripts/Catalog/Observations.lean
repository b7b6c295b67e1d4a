import Mathlib.Data.List.Dedup
import Mathlib.Data.List.MinMax
import JobScripts.Lib.Run

/-!
# What sources say and what is stored of it

`core/catalog/observations.py`. A pull appends to `source_observations` what it says about each posting
(`observe`), an administrator's correction is one more observation (`set_active`), and whether a posting
is available is a rule over them (`AVAILABLE`, `_STORED`) that is stored in `jobs.available` for the
readers. `_refresh_available` stores it: it locks the rows, evaluates the rule in a second statement, and
commits. `reconcile_available` does the same over the whole catalog, passing over locked rows.

Every statement is a step of its own, over a table of committed observations and row locks that are held
until the transaction ends. An evaluated value is not committed yet, and observations may be committed
meanwhile. The invariant says that a stored value is the rule's, or that some `observe` has still to
refresh the row; and the same of an evaluated value, with an `observe` of another process. So a value
from an old snapshot is never the last one (`available_follows_observations`).
-/

namespace JobScripts.Catalog

open Lib

/-! ## The rule -/

/-- `source_observations.kind`: what was seen of a posting. -/
inductive Kind
  | appeared | reappeared | filtered | unlisted | notListed
  deriving DecidableEq

/-- A row of `source_observations`. -/
structure Observation where
  id : ℕ
  job_id : ℕ
  source : String
  kind : Kind
  deriving DecidableEq

/-- The columns of `jobs` that are not written here: `active` is frozen. -/
structure Job where
  id : ℕ
  url : String
  source : String
  active : Bool
  deriving DecidableEq

/-- What is fixed: the postings, whether each source that has a row is switched on, and whether title
patterns are enforced. -/
structure Env where
  jobs : List Job
  sources : String → Option Bool
  patterns_enforced : Bool

/-- A posting by its id. -/
def Env.job (e : Env) (id : ℕ) : Option Job := e.jobs.find? fun j => j.id == id

/-- `CORRECTION_SOURCE`: the source of what an administrator corrects. -/
def correctionSource : String := "admin"

/-- `ORDER BY id DESC LIMIT 1`: the observation with the highest id. -/
def latest (os : List Observation) : Option Observation := os.argmax Observation.id

/-- The kinds by which a source's latest observation admits a posting. -/
def Env.admits (e : Env) : Kind → Bool
  | .appeared | .reappeared | .notListed => true
  | .filtered => !e.patterns_enforced
  | .unlisted => false

/-- Some switched-on source's latest observation admits the posting. -/
def Env.admitted (e : Env) (os : List Observation) : Bool :=
  os.any fun o => latest (os.filter fun o' => o'.source == o.source) == some o &&
    e.sources o.source == some true && e.admits o.kind

/-- `AVAILABLE`, given the observations of the posting; `none` is SQL's null. -/
def Env.available (e : Env) (job : Job) (os : List Observation) : Option Bool :=
  let correction := (latest os).bind fun o =>
    if o.source = correctionSource then some (o.kind == .reappeared) else none
  correction.or <|
    if e.admitted os then some true
    else if !os.isEmpty then some false
    else if e.sources job.source = some false then some false
    else if job.source = "sheet_import" then some false
    else none

/-- `_STORED`: whether a posting is available as its row has it, or is active where the row does not say. -/
def Env.stored (e : Env) (job : Job) (os : List Observation) : Bool :=
  (e.available job os).getD job.active

/-! ## What a pull observes -/

/-- The fields of a `JobPosting` that `observe` reads. -/
structure Posting where
  url : String
  active : Bool
  deriving DecidableEq

/-- The arguments of `observe`. -/
structure Pull where
  source : String
  postings : List Posting
  kept : List String
  absence : Option Kind

/-- `posting_by_url`: of two postings with one url the later counts. -/
def Pull.postingByUrl (p : Pull) (url : String) : Option Posting :=
  (p.postings.reverse.filter fun q => q.url != "").find? fun q => q.url == url

/-- `_ADMITTED`: a source shows the posting after such an observation. -/
def Kind.admitted : Kind → Bool
  | .appeared | .reappeared => true
  | _ => false

/-- The kind observed of a listed posting, `none` when there is nothing new to say. -/
def observedKind (active kept : Bool) (previous : Option Kind) : Option Kind :=
  let kind := if !active then some Kind.unlisted else if !kept then some .filtered else
    match previous with
    | none => some .appeared
    | some k => if k.admitted then none else some .reappeared
  kind.filter fun k => some k != previous

/-- The latest kind that the source observed of a posting. -/
def lastKind (os : List Observation) (source : String) (job : ℕ) : Option Kind :=
  (latest (os.filter fun o => o.source == source && o.job_id == job)).map Observation.kind

/-- The rows that `observe` decides to insert, in url order: `last` is what its first statement read of
the source's latest observations, the other arguments are what its later statements read. -/
def observationRows (e : Env) (available : ℕ → Option Bool) (os : List Observation) (p : Pull)
    (last : ℕ → Option Kind) : List (ℕ × Kind) :=
  let listed := e.jobs.filterMap fun j => (p.postingByUrl j.url).bind fun q =>
    (observedKind q.active (p.kept.contains j.url) (last j.id)).map fun k => (j, k)
  let absent := e.jobs.filter fun j => (p.postingByUrl j.url).isNone
  let dropped := if p.absence = some .unlisted then
    absent.filter fun j => j.source == p.source && available j.id == some true &&
      os.all fun o => !(o.job_id == j.id && o.source == p.source)
    else []
  let missing := absent.filter fun j =>
    (last j.id).any fun k => k.admitted || k == .filtered
  let rows := listed ++ match p.absence with
    | none => []
    | some k => (dropped ++ missing).map fun j => (j, k)
  (rows.mergeSort fun a b => a.1.url ≤ b.1.url).map fun r => (r.1.id, r.2)

/-! ## The processes -/

/-- A transaction of `_refresh_available`: the rows still to lock and those locked, or the values
evaluated for the locked rows, not yet committed. -/
inductive Tx
  | locking (todo locked : List ℕ)
  | evaluated (values : List (ℕ × Bool))

/-- The rows that the transaction has locked. -/
def Tx.locked : Tx → List ℕ
  | .locking _ locked => locked
  | .evaluated values => values.map Prod.fst

/-- The rows that the transaction is about. -/
def Tx.rows : Tx → List ℕ
  | .locking todo locked => todo ++ locked
  | .evaluated values => values.map Prod.fst

/-- A process between two statements. -/
inductive Proc
  /-- `observe` after its first statement. -/
  | reading (pull : Pull) (last : ℕ → Option Kind)
  /-- `observe` in the transaction of its inserts. -/
  | inserting (source : String) (rows : List (ℕ × Kind)) (inserted : List Observation)
  /-- `refresh_available`: the postings whose observations the process has committed (none, when it
  is called on its own), the batches to come, and the current one. -/
  | refreshing (observed : List ℕ) (later : List (List ℕ)) (tx : Tx)
  /-- `set_active` after its insert. -/
  | correcting (own : Observation) (tx : Tx)
  /-- `reconcile_available`: the chunks of ids to come, and the current one after its selection. -/
  | reconciling (later : List (ℕ × ℕ)) (tx : Option Tx)
  /-- An `observe` that failed after its inserts were committed. It does not return. -/
  | died (observed : List ℕ)

/-- The transaction of `_refresh_available` that the process is in. -/
def Proc.tx : Proc → Option Tx
  | .refreshing _ _ tx | .correcting _ tx => some tx
  | .reconciling _ tx => tx
  | _ => none

/-- The observations that only the process itself sees when it evaluates. -/
def Proc.own : Proc → List Observation
  | .correcting o _ => [o]
  | _ => []

/-- An `observe` that has committed an observation of the posting and has not returned. -/
def Proc.unreturned (j : ℕ) : Proc → Bool
  | .refreshing observed _ _ | .died observed => observed.contains j
  | _ => false

/-- An `observe` that has committed an observation of the posting and has still to commit its refresh of
the row. -/
def Proc.owes (j : ℕ) : Proc → Bool
  | .refreshing observed later tx =>
    observed.contains j && (later.any (·.contains j) || tx.rows.contains j)
  | .died observed => observed.contains j
  | _ => false

/-- The stored column, the committed observations, the next id, the row locks and the processes. -/
structure State where
  available : ℕ → Option Bool
  observations : List Observation
  next : ℕ
  locks : ℕ → Option ℕ
  procs : ℕ → Option Proc

/-- The committed observations of a posting. -/
def State.about (s : State) (j : ℕ) : List Observation :=
  s.observations.filter fun o => o.job_id == j

/-- What `_refresh_available` stores for a posting when the process evaluates it now. -/
def State.evaluate (e : Env) (s : State) (own : List Observation) (j : ℕ) : Bool :=
  match e.job j with
  | none => false
  | some job => e.stored job ((s.observations ++ own).filter fun o => o.job_id == j)

/-- `_BATCH`: the postings that one statement takes. -/
def batch : ℕ := 500

/-- The slices of `refresh_available`. -/
def batches (ids : List ℕ) : List (List ℕ) :=
  (List.range ((ids.length + batch - 1) / batch)).map fun i => (ids.drop (batch * i)).take batch

/-- The rows that the lock statement of `_refresh_available` finds, in url order. -/
def Env.lockOrder (e : Env) (ids : List ℕ) : List ℕ :=
  let rows := e.jobs.filter fun j => ids.contains j.id
  (rows.mergeSort fun a b => a.url ≤ b.url).map Job.id

/-- `_RECONCILE_CHUNK`: the postings that one pass of the reconciliation takes. -/
def reconcileChunk : ℕ := 20000

/-- The id chunks of `reconcile_available`. -/
def Env.chunks (e : Env) : List (ℕ × ℕ) :=
  match (e.jobs.map Job.id).min?, (e.jobs.map Job.id).max? with
  | some lo, some hi => (List.range ((hi - lo) / reconcileChunk + 1)).map fun i =>
      (lo + reconcileChunk * i, lo + reconcileChunk * (i + 1))
  | _, _ => []

/-- The rows of a chunk whose stored value differs. -/
def State.stale (e : Env) (s : State) (chunk : ℕ × ℕ) : List ℕ :=
  (e.jobs.filter fun j => chunk.1 ≤ j.id && j.id < chunk.2 &&
    s.available j.id != some (s.evaluate e [] j.id)).map Job.id

/-- A process goes on as `proc`, with the locks that it holds there. -/
def State.move (s : State) (k : ℕ) (proc : Option Proc) : State :=
  { s with
    locks := fun j =>
      if (proc.bind Proc.tx).any fun tx => tx.locked.contains j then some k
      else if s.locks j = some k then none else s.locks j
    procs := Function.update s.procs k proc }

/-- `refresh_available` at its next batch, or its end. -/
def Env.refreshing (e : Env) (observed : List ℕ) : List (List ℕ) → Option Proc
  | [] => none
  | ids :: later => some (.refreshing observed later (.locking (e.lockOrder ids) []))

/-- The stored column after a commit. -/
def commitValues (values : List (ℕ × Bool)) (available : ℕ → Option Bool) : ℕ → Option Bool :=
  fun j => (values.lookup j).or (available j)

/-- The next statement of `_refresh_available`: a lock, which waits for the row or passes over it, or
the evaluation. -/
def Tx.next (e : Env) (s : State) (own : List Observation) (skip_locked : Bool) : Tx → Option Tx
  | .locking (j :: todo) locked =>
    if s.locks j = none then some (.locking todo (locked ++ [j]))
    else if skip_locked then some (.locking todo locked) else none
  | .locking [] locked => some (.evaluated (locked.map fun j => (j, s.evaluate e own j)))
  | .evaluated _ => none

/-- What happens next. -/
inductive Act
  /-- `observe`, its first statement. -/
  | observe (k : ℕ) (pull : Pull)
  /-- `set_active`, up to its insert. -/
  | setActive (k job_id : ℕ) (active : Bool)
  /-- `refresh_available` on its own. -/
  | refresh (k : ℕ) (ids : List ℕ)
  /-- `reconcile_available`: the stored flags are compared with the observations. -/
  | reconcile (k : ℕ)
  /-- The next statement of a process. -/
  | next (k : ℕ)
  /-- A statement of a process fails, or the process dies; its transaction is rolled back. -/
  | fail (k : ℕ)

/-- The next statement of a process. -/
def Proc.next (e : Env) (s : State) (k : ℕ) : Proc → Option State
  | .reading pull last =>
    match observationRows e s.available s.observations pull last with
    | [] => some (s.move k none)
    | rows => some (s.move k (some (.inserting pull.source rows [])))
  | .inserting source ((j, kind) :: rows) inserted =>
    some { s.move k (some (.inserting source rows (inserted ++ [⟨s.next, j, source, kind⟩]))) with
      next := s.next + 1 }
  | .inserting _ [] inserted =>
    let ids := (inserted.map Observation.job_id).dedup.mergeSort
    some { s.move k (e.refreshing ids (batches ids)) with
      observations := s.observations ++ inserted }
  | .refreshing observed later tx =>
    match tx with
    | .evaluated values => some { s.move k (e.refreshing observed later) with
        available := commitValues values s.available }
    | tx => (tx.next e s [] false).map fun tx' => s.move k (some (.refreshing observed later tx'))
  | .correcting own tx =>
    match tx with
    | .evaluated values => some { s.move k none with
        available := commitValues values s.available
        observations := s.observations ++ [own] }
    | tx => (tx.next e s [own] false).map fun tx' => s.move k (some (.correcting own tx'))
  | .reconciling later tx =>
    match later, tx with
    | _, some (.evaluated values) => some { s.move k (some (.reconciling later none)) with
        available := commitValues values s.available }
    | _, some tx => (tx.next e s [] true).map fun tx' => s.move k (some (.reconciling later (some tx')))
    | chunk :: later, none =>
      some (s.move k (some (.reconciling later (some (.locking (e.lockOrder (s.stale e chunk)) [])))))
    | [], none => some (s.move k none)
  | .died _ => none

/-- What a failure leaves of a process. -/
def Proc.failed : Proc → Option Proc
  | .refreshing observed _ _ | .died observed =>
    if observed.isEmpty then none else some (.died observed)
  | _ => none

/-- One step. -/
def step (e : Env) (s : State) : Act → Option State
  | .observe k pull =>
    if s.procs k = none then
      some (s.move k (some (.reading pull (lastKind s.observations pull.source))))
    else none
  | .setActive k job_id active =>
    if s.procs k = none ∧ (e.job job_id).isSome then
      let own := ⟨s.next, job_id, correctionSource, if active then .reappeared else .unlisted⟩
      some { s.move k (some (.correcting own (.locking (e.lockOrder [job_id]) []))) with
        next := s.next + 1 }
    else none
  | .refresh k ids =>
    if s.procs k = none then some (s.move k (e.refreshing [] (batches ids))) else none
  | .reconcile k =>
    if s.procs k = none then some (s.move k (some (.reconciling e.chunks none))) else none
  | .next k => (s.procs k).bind (Proc.next e s k)
  | .fail k => (s.procs k).map fun proc => s.move k proc.failed

/-! ## Batches and locks -/

/-- Every id is in some batch. -/
theorem mem_batches {ids : List ℕ} {j : ℕ} (h : j ∈ ids) :
    (batches ids).any (·.contains j) = true := by
  obtain ⟨n, hn, rfl⟩ := List.mem_iff_getElem.mp h
  have hpos : 0 < batch := by decide
  have hdiv : batch * (n / batch) + n % batch = n := Nat.div_add_mod n batch
  have hmod : n % batch < batch := Nat.mod_lt n hpos
  rw [List.any_eq_true]
  refine ⟨(ids.drop (batch * (n / batch))).take batch, ?_, ?_⟩
  · refine List.mem_map.mpr ⟨n / batch, List.mem_range.mpr ?_, rfl⟩
    rw [Nat.div_lt_iff_lt_mul hpos]
    have := Nat.lt_mul_div_succ (ids.length + batch - 1) hpos
    have hb : batch = 500 := rfl
    rw [hb] at this ⊢
    omega
  · rw [List.contains_iff_mem, List.mem_iff_getElem]
    refine ⟨n % batch, ?_, ?_⟩
    · rw [List.length_take, List.length_drop]
      omega
    · rw [List.getElem_take, List.getElem_drop]
      congr 1

/-- The lock statement finds every posting that is there. -/
theorem Env.mem_lockOrder {e : Env} {ids : List ℕ} {j : ℕ} (h : j ∈ ids)
    (hj : (e.job j).isSome = true) : j ∈ e.lockOrder ids := by
  obtain ⟨job, hjob⟩ := Option.isSome_iff_exists.mp hj
  have hid : job.id = j := by
    have := List.find?_some hjob
    simpa using this
  refine List.mem_map.mpr ⟨job, ?_, hid⟩
  rw [List.mem_mergeSort, List.mem_filter]
  refine ⟨List.mem_of_find?_eq_some hjob, ?_⟩
  rw [hid]
  exact List.contains_iff_mem.mpr h

/-- A refresh with the posting in a batch to come owes it. -/
theorem Env.refreshing_owes {e : Env} {observed : List ℕ} {later : List (List ℕ)} {j : ℕ}
    (ho : observed.contains j = true) (hl : later.any (·.contains j) = true)
    (hj : (e.job j).isSome = true) :
    ∃ q, e.refreshing observed later = some q ∧ q.owes j = true := by
  cases later with
  | nil => contradiction
  | cons ids later =>
    refine ⟨_, rfl, ?_⟩
    rw [List.any_cons, Bool.or_eq_true] at hl
    unfold Proc.owes
    rw [Bool.and_eq_true, Bool.or_eq_true]
    refine ⟨ho, ?_⟩
    rcases hl with hids | hlater
    · right
      have hmem := e.mem_lockOrder (List.contains_iff_mem.mp hids) hj
      exact List.contains_iff_mem.mpr (List.mem_append_left _ hmem)
    · exact .inl hlater

/-- A committed value is one of those evaluated. -/
theorem commitValues_of_mem {values : List (ℕ × Bool)} (av : ℕ → Option Bool) {j : ℕ}
    (h : j ∈ values.map Prod.fst) :
    ∃ v, (j, v) ∈ values ∧ commitValues values av j = some v := by
  unfold commitValues
  induction values with
  | nil => contradiction
  | cons jv values ih =>
    obtain ⟨j', v⟩ := jv
    by_cases hj : j = j'
    · subst hj
      exact ⟨v, List.mem_cons_self, by simp⟩
    · have hmem : j ∈ values.map Prod.fst := by
        rcases List.mem_cons.mp h with h | h
        · exact absurd h hj
        · exact h
      obtain ⟨v', hv', hc⟩ := ih hmem
      refine ⟨v', List.mem_cons_of_mem _ hv', ?_⟩
      rw [List.lookup_cons, beq_false_of_ne hj]
      exact hc

/-- The other rows keep their values. -/
theorem commitValues_of_not_mem {values : List (ℕ × Bool)} (av : ℕ → Option Bool) {j : ℕ}
    (h : j ∉ values.map Prod.fst) : commitValues values av j = av j := by
  have hnone : values.lookup j = none := by
    rw [List.lookup_eq_none_iff]
    intro jv hjv
    rw [bne_iff_ne]
    rintro rfl
    exact h (List.mem_map.mpr ⟨jv, hjv, rfl⟩)
  unfold commitValues
  rw [hnone]
  rfl

/-- One statement of `_refresh_available`: it locks a free row, it loses no row unless it passes over
locked ones, and what it evaluates is the rule over what it sees. -/
theorem Tx.next_spec {e : Env} {s : State} {own : List Observation} {skip : Bool} {tx tx' : Tx}
    (h : tx.next e s own skip = some tx') :
    (∀ j ∈ tx'.locked, j ∈ tx.locked ∨ s.locks j = none) ∧
      (skip = false → ∀ j ∈ tx.rows, j ∈ tx'.rows) ∧
      ∀ values, tx' = .evaluated values → ∀ j v, (j, v) ∈ values → v = s.evaluate e own j := by
  match tx, h with
  | .locking (j :: todo) locked, h =>
    simp only [Tx.next] at h
    split at h
    · next hfree =>
      obtain rfl := Option.some.inj h
      refine ⟨fun j' hj' => ?_, fun _ j' hj' => ?_, fun values hv => ?_⟩
      · rcases List.mem_append.mp hj' with hold | hnew
        · exact .inl hold
        · rw [List.mem_singleton] at hnew
          rw [hnew]
          exact .inr hfree
      · simp only [Tx.rows, List.cons_append, List.mem_cons, List.mem_append, List.not_mem_nil,
          or_false] at hj' ⊢
        tauto
      · contradiction
    · rw [Option.ite_none_right_eq_some] at h
      obtain ⟨hskip, h⟩ := h
      obtain rfl := Option.some.inj h
      refine ⟨fun j' hj' => .inl hj', fun hno => ?_, fun values hv => ?_⟩
      · rw [hskip] at hno
        contradiction
      · contradiction
  | .locking [] locked, h =>
    obtain rfl := Option.some.inj h
    have hkeys : (locked.map fun j => (j, s.evaluate e own j)).map Prod.fst = locked := by
      rw [List.map_map]
      exact List.map_id locked
    refine ⟨fun j hj => .inl ?_, fun _ j hj => ?_, fun values hv j v hjv => ?_⟩
    · rw [Tx.locked, hkeys] at hj
      exact hj
    · rw [Tx.rows, hkeys]
      exact hj
    · obtain rfl := Tx.evaluated.inj hv
      obtain ⟨j', -, heq⟩ := List.mem_map.mp hjv
      obtain ⟨rfl, rfl⟩ := Prod.mk.inj heq
      rfl

/-! ## The invariant -/

section

variable {e : Env} {s₀ s s' : State} {k j : ℕ}

/-- The stored value of a posting is the rule's. -/
def State.Stored (e : Env) (s : State) (j : ℕ) : Prop :=
  ∀ job, e.job j = some job → s.available j = some (e.stored job (s.about j))

/-- Some process other than `k` owes the posting's refresh. -/
def State.OwedBeside (s : State) (k : Option ℕ) (j : ℕ) : Prop :=
  ∃ k' proc, some k' ≠ k ∧ s.procs k' = some proc ∧ proc.owes j = true

/-- The posting was stored at the start, or an observation of it was committed since. -/
def State.Counts (e : Env) (s₀ s : State) (j : ℕ) : Prop :=
  s₀.Stored e j ∨ ∃ o ∈ s.observations, o.job_id = j ∧ o ∉ s₀.observations

/-- What every reachable state satisfies. -/
structure State.Inv (e : Env) (s₀ s : State) : Prop where
  /-- A process holds the rows that it has locked. -/
  held : ∀ k proc tx, s.procs k = some proc → proc.tx = some tx →
    ∀ j ∈ tx.locked, s.locks j = some k
  /-- A correction refreshes its posting. -/
  mine : ∀ k own tx, s.procs k = some (.correcting own tx) →
    (e.job own.job_id).isSome = true → own.job_id ∈ tx.rows
  /-- An evaluated value is the rule's, or another process has still to refresh the row. -/
  value : ∀ k proc values, s.procs k = some proc → proc.tx = some (.evaluated values) →
    ∀ j v, (j, v) ∈ values → (e.job j).isSome = true →
      v = s.evaluate e proc.own j ∨ s.OwedBeside (some k) j
  /-- A stored value is the rule's, or some process has still to refresh the row. -/
  stored : ∀ j, State.Counts e s₀ s j → s.Stored e j ∨ s.OwedBeside none j

/-- The rule over observations none of which is about the posting adds nothing. -/
theorem filter_about_append {os more : List Observation} (h : ∀ o ∈ more, o.job_id ≠ j) :
    ((os ++ more).filter fun o => o.job_id == j) = os.filter fun o => o.job_id == j := by
  have hnil : (more.filter fun o => o.job_id == j) = [] := by
    rw [List.filter_eq_nil_iff]
    intro o ho
    simpa using h o ho
  rw [List.filter_append, hnil, List.append_nil]

/-- The locks that a process holds after a move of another. -/
theorem State.move_locks_of_ne {proc : Option Proc} {k' : ℕ} (hl : s.locks j = some k')
    (hne : k' ≠ k) (hfree : ∀ q tx, proc = some q → q.tx = some tx → j ∉ tx.locked) :
    (s.move k proc).locks j = some k' := by
  have hno : ((proc.bind Proc.tx).any fun tx => tx.locked.contains j) = false := by
    rw [Option.any_eq_false]
    intro tx htx
    obtain ⟨q, hq, htx⟩ := Option.bind_eq_some_iff.mp htx
    rw [← Bool.not_eq_true, List.contains_iff_mem]
    exact hfree q tx hq htx
  unfold State.move
  dsimp only
  rw [hno, hl]
  simp [hne]

/-- A process can go on as `proc`: it takes free rows, and a correction keeps its posting. -/
structure State.Moved (e : Env) (s : State) (k : ℕ) (proc : Option Proc) : Prop where
  free : ∀ q tx, proc = some q → q.tx = some tx →
    ∀ j ∈ tx.locked, s.locks j = none ∨ s.locks j = some k
  mine : ∀ own tx, proc = some (.correcting own tx) → (e.job own.job_id).isSome = true →
    own.job_id ∈ tx.rows

/-- A process moves on. -/
theorem State.Inv.move_held (h : State.Inv e s₀ s) {proc : Option Proc}
    (hm : State.Moved e s k proc) :
    (∀ k' q tx, (s.move k proc).procs k' = some q → q.tx = some tx →
      ∀ j ∈ tx.locked, (s.move k proc).locks j = some k') ∧
    ∀ k' own tx, (s.move k proc).procs k' = some (.correcting own tx) →
      (e.job own.job_id).isSome = true → own.job_id ∈ tx.rows := by
  constructor
  · intro k' q tx hq htx j hj
    have hq : Function.update s.procs k proc k' = some q := hq
    by_cases hk : k' = k
    · subst hk
      rw [Function.update_self] at hq
      subst hq
      simp [State.move, htx, hj]
    · rw [Function.update_of_ne hk] at hq
      have hlock := h.held k' q tx hq htx j hj
      refine State.move_locks_of_ne hlock hk fun q' tx' hq' htx' hmem => ?_
      rcases hm.free q' tx' hq' htx' j hmem with hnone | hsome
      · rw [hlock] at hnone
        contradiction
      · rw [hlock] at hsome
        exact hk (Option.some.inj hsome)
  · intro k' own tx hq hjob
    have hq : Function.update s.procs k proc k' = some (.correcting own tx) := hq
    by_cases hk : k' = k
    · subst hk
      rw [Function.update_self] at hq
      exact hm.mine own tx hq hjob
    · rw [Function.update_of_ne hk] at hq
      exact h.mine k' own tx hq hjob

/-- Who owes is the process itself or one beside it. -/
theorem State.OwedBeside.cases {except : Option ℕ} (k : ℕ) (h : s.OwedBeside except j) :
    (some k ≠ except ∧ ∃ q, s.procs k = some q ∧ q.owes j = true) ∨
      ∃ k' q, k' ≠ k ∧ some k' ≠ except ∧ s.procs k' = some q ∧ q.owes j = true := by
  obtain ⟨k', q, hne, hq, ho⟩ := h
  by_cases hk : k' = k
  · subst hk
    exact .inl ⟨hne, q, hq, ho⟩
  · exact .inr ⟨k', q, hk, hne, hq, ho⟩

/-- What a step of the process `k` does to one posting. -/
inductive State.Effect (e : Env) (s : State) (k : ℕ) (proc : Option Proc) (av' : ℕ → Option Bool)
    (os' : List Observation) (j : ℕ) : Prop
  /-- The posting is left alone, and if the process owed its refresh it still does. -/
  | kept (hos : (os'.filter fun o => o.job_id == j) = s.about j) (hav : av' j = s.available j)
      (howes : ∀ q, s.procs k = some q → q.owes j = true → ∃ q', proc = some q' ∧ q'.owes j = true)
  /-- The process owes the posting's refresh. -/
  | owed (q : Proc) (hq : proc = some q) (ho : q.owes j = true)
  /-- The process commits a value for a row that it holds: the rule's, or another process owes the
  posting's refresh. -/
  | written (hl : s.locks j = some k)
      (hv : (∀ job, e.job j = some job →
        av' j = some (e.stored job (os'.filter fun o => o.job_id == j))) ∨ s.OwedBeside (some k) j)

/-- A step of one process keeps the invariant when every posting has one of these effects. -/
theorem State.Inv.step_of (h : State.Inv e s₀ s) {proc : Option Proc} {av' : ℕ → Option Bool}
    {os' : List Observation} {n : ℕ} (hm : State.Moved e s k proc)
    (hown : ∀ q values, proc = some q → q.tx = some (.evaluated values) →
      ∀ j v, (j, v) ∈ values → v = s.evaluate e q.own j ∧ os' = s.observations)
    (hjob : ∀ j, (e.job j).isSome = true → State.Effect e s k proc av' os' j) :
    State.Inv e s₀ { s.move k proc with available := av', observations := os', next := n } := by
  obtain ⟨hheld, hmine⟩ := h.move_held hm
  have hprocs : ∀ {k' q}, k' ≠ k → s.procs k' = some q →
      Function.update s.procs k proc k' = some q := fun hne hq =>
    (Function.update_of_ne hne _ _).trans hq
  have hself : Function.update s.procs k proc k = proc := Function.update_self _ _ _
  -- What another process owed, and what this one owes now, is owed after the step.
  have howed : ∀ j except, (e.job j).isSome = true →
      (∀ q, s.procs k = some q → q.owes j = true → ∃ q', proc = some q' ∧ q'.owes j = true) →
      s.OwedBeside except j → State.OwedBeside
        { s.move k proc with available := av', observations := os', next := n } except j := by
    intro j except _ hkeep ho
    rcases ho.cases k with ⟨hne, q, hq, hqo⟩ | ⟨k', q, hk', hne, hq, hqo⟩
    · obtain ⟨q', rfl, hq'⟩ := hkeep q hq hqo
      exact ⟨k, q', hne, hself, hq'⟩
    · exact ⟨k', q, hne, hprocs hk' hq, hqo⟩
  refine ⟨hheld, hmine, ?_, ?_⟩
  -- What a transaction has evaluated is what it would evaluate now, or it is owed.
  · intro k' q values hq htx j v hjv hj
    have hq : Function.update s.procs k proc k' = some q := hq
    by_cases hk : k' = k
    · subst hk
      rw [hself] at hq
      obtain ⟨hv, rfl⟩ := hown q values hq htx j v hjv
      exact .inl hv
    · rw [Function.update_of_ne hk] at hq
      -- The row of an evaluated posting is locked by the process that evaluated it.
      have hlock := h.held k' q _ hq htx j (List.mem_map.mpr ⟨(j, v), hjv, rfl⟩)
      cases hjob j hj with
      | kept hos hav howes =>
        rcases h.value k' q values hq htx j v hjv hj with hv | ho
        · left
          rw [hv]
          unfold State.evaluate
          dsimp only
          rw [List.filter_append, List.filter_append, hos]
          rfl
        · exact .inr (howed j _ hj howes ho)
      | owed q' hq' ho =>
        right
        have hne : (some k : Option ℕ) ≠ some k' := fun heq => hk (Option.some.inj heq).symm
        exact ⟨k, q', hne, by rw [← hq']; exact hself, ho⟩
      | written hl _ =>
        rw [hlock] at hl
        exact absurd (Option.some.inj hl) hk
  -- The flag of a posting that counts is what the observations say, or it is owed.
  · intro j hc
    by_cases hj : (e.job j).isSome = true
    swap
    · left
      intro job hjob'
      rw [hjob'] at hj
      exact absurd rfl hj
    cases hjob j hj with
    | kept hos hav howes =>
      have hc' : State.Counts e s₀ s j := by
        rcases hc with h₀ | ⟨o, ho, hoj, hnew⟩
        · exact .inl h₀
        · have hmem : o ∈ s.about j := by
            rw [← hos]
            exact List.mem_filter.mpr ⟨ho, by simpa using hoj⟩
          exact .inr ⟨o, (List.mem_filter.mp hmem).1, hoj, hnew⟩
      rcases h.stored j hc' with hst | ho
      · left
        intro job hjob'
        have heq := hst job hjob'
        rw [← hos, ← hav] at heq
        exact heq
      · exact .inr (howed j _ hj howes ho)
    | owed q' hq' ho =>
      exact .inr ⟨k, q', nofun, by rw [← hq']; exact hself, ho⟩
    | written hl hv =>
      rcases hv with hv | ⟨k', q, hne, hq, ho⟩
      · exact .inl hv
      · have hk' : k' ≠ k := fun heq => hne (by rw [heq])
        exact .inr ⟨k', q, nofun, hprocs hk' hq, ho⟩

/-- A process moves on without a write and still owes what it owed. -/
theorem State.Inv.move (h : State.Inv e s₀ s) {proc : Option Proc} (n : ℕ)
    (hm : State.Moved e s k proc)
    (hown : ∀ q values, proc = some q → q.tx = some (.evaluated values) →
      ∀ j v, (j, v) ∈ values → v = s.evaluate e q.own j)
    (howes : ∀ j, (e.job j).isSome = true → ∀ q, s.procs k = some q → q.owes j = true →
      ∃ q', proc = some q' ∧ q'.owes j = true) :
    State.Inv e s₀ { s.move k proc with next := n } :=
  h.step_of hm (fun q values hq htx j v hjv => ⟨hown q values hq htx j v hjv, rfl⟩)
    fun j hj => .kept rfl rfl (howes j hj)

/-- A place without a transaction, of no correction, can always be moved to. -/
theorem State.Moved.of_no_tx {proc : Option Proc} (h : ∀ q, proc = some q → q.tx = none) :
    State.Moved e s k proc := by
  refine ⟨fun q tx hq htx => ?_, fun own tx hq => ?_⟩
  · rw [h q hq] at htx
    contradiction
  · have := h _ hq
    contradiction

/-- The start of a refresh has locked nothing. -/
theorem State.Moved.refreshing (observed : List ℕ) (later : List (List ℕ)) :
    State.Moved e s k (e.refreshing observed later) := by
  cases later with
  | nil => exact .of_no_tx nofun
  | cons ids later =>
    refine ⟨fun q tx hq htx j hj => ?_, fun own tx hq => ?_⟩
    · obtain rfl := Option.some.inj hq
      obtain rfl := Option.some.inj htx
      contradiction
    · exact absurd (Option.some.inj hq) nofun

/-- The start of a refresh has evaluated nothing. -/
theorem Env.refreshing_tx {observed : List ℕ} {later : List (List ℕ)} {q : Proc}
    {values : List (ℕ × Bool)} (hq : e.refreshing observed later = some q) :
    q.tx ≠ some (.evaluated values) := by
  cases later with
  | nil => contradiction
  | cons ids later =>
    obtain rfl := Option.some.inj hq
    nofun

/-- A process between two transactions starts without owing, and owes nothing before. -/
theorem State.Inv.start (h : State.Inv e s₀ s) (n : ℕ) {proc : Option Proc} (hk : s.procs k = none)
    (hm : State.Moved e s k proc)
    (hown : ∀ q values, proc = some q → q.tx ≠ some (.evaluated values)) :
    State.Inv e s₀ { s.move k proc with next := n } := by
  refine h.move n hm (fun q values hq htx => absurd htx (hown q values hq)) fun j _ q hq => ?_
  rw [hk] at hq
  contradiction

/-- One more statement of a refresh that waits for its rows. -/
theorem Tx.next_owes {own : List Observation} {tx tx' : Tx}
    (h : tx.next e s own false = some tx') {observed : List ℕ} {later : List (List ℕ)}
    (ho : (Proc.refreshing observed later tx).owes j = true) :
    (Proc.refreshing observed later tx').owes j = true := by
  unfold Proc.owes at ho ⊢
  rw [Bool.and_eq_true, Bool.or_eq_true] at ho ⊢
  refine ⟨ho.1, ?_⟩
  rcases ho.2 with hl | hr
  · exact .inl hl
  · right
    exact List.contains_iff_mem.mpr ((Tx.next_spec h).2.1 rfl j (List.contains_iff_mem.mp hr))

/-- The rows that a process holds after one more statement were its own or free. -/
theorem State.Inv.next_free (h : State.Inv e s₀ s) {proc : Proc} {own : List Observation}
    {skip : Bool} {tx tx' : Tx} (hk : s.procs k = some proc) (htx : proc.tx = some tx)
    (hn : tx.next e s own skip = some tx') (hj : j ∈ tx'.locked) :
    s.locks j = none ∨ s.locks j = some k := by
  rcases (Tx.next_spec hn).1 j hj with hold | hfree
  · exact .inr (h.held k proc tx hk htx j hold)
  · exact .inl hfree

/-- What a commit of a refresh does to a posting: the rows that it evaluated are written. -/
theorem State.Inv.commit_effect (h : State.Inv e s₀ s) {proc : Proc} {values : List (ℕ × Bool)}
    {os' : List Observation} {proc' : Option Proc} (hk : s.procs k = some proc)
    (htx : proc.tx = some (.evaluated values)) (hos : os' = s.observations ++ proc.own)
    (hj : (e.job j).isSome = true)
    (hother : j ∉ values.map Prod.fst → (∀ o ∈ proc.own, o.job_id ≠ j) ∧
      (proc.owes j = true → ∃ q', proc' = some q' ∧ q'.owes j = true)) :
    State.Effect e s k proc' (commitValues values s.available) os' j := by
  by_cases hmem : j ∈ values.map Prod.fst
  · obtain ⟨v, hjv, hav⟩ := commitValues_of_mem s.available hmem
    refine .written (h.held k proc _ hk htx j hmem) ?_
    rcases h.value k proc values hk htx j v hjv hj with hv | ho
    · left
      intro job hjob
      rw [hav, hv, hos]
      unfold State.evaluate
      rw [hjob]
    · exact .inr ho
  · obtain ⟨hown, howes⟩ := hother hmem
    refine .kept ?_ (commitValues_of_not_mem _ hmem) fun q hq hqo => ?_
    · rw [hos, filter_about_append hown]
      rfl
    · rw [hk] at hq
      obtain rfl := Option.some.inj hq
      exact howes hqo

/-- The next statement of a process keeps the invariant. -/
theorem State.Inv.next (h : State.Inv e s₀ s) {proc : Proc} (hk : s.procs k = some proc)
    (hs : proc.next e s k = some s') : State.Inv e s₀ s' := by
  -- A process that owed nothing moves to a place where it has evaluated nothing.
  have hplain : ∀ n (proc' : Option Proc), State.Moved e s k proc' →
      (∀ q values, proc' = some q → q.tx ≠ some (.evaluated values)) →
      (∀ j, proc.owes j = false) → State.Inv e s₀ { s.move k proc' with next := n } := by
    intro n proc' hm hown hno
    refine h.move n hm (fun q values hq htx => absurd htx (hown q values hq)) fun j _ q hq ho => ?_
    rw [hk] at hq
    obtain rfl := Option.some.inj hq
    rw [hno j] at ho
    contradiction
  match proc, hs with
  -- `observe` reads the rows of its pull and writes the observations one by one.
  | .reading pull last, hs =>
    simp only [Proc.next] at hs
    split at hs <;> obtain rfl := Option.some.inj hs
    · exact hplain s.next none (.of_no_tx nofun) nofun fun _ => rfl
    · refine hplain s.next (some (.inserting _ _ _)) (.of_no_tx ?_) ?_ fun _ => rfl
      · rintro q hq
        obtain rfl := Option.some.inj hq
        rfl
      · rintro q values hq
        obtain rfl := Option.some.inj hq
        nofun
  | .inserting source ((j, kind) :: rows) inserted, hs =>
    obtain rfl := Option.some.inj hs
    refine hplain (s.next + 1) _ (.of_no_tx ?_) ?_ fun _ => rfl
    · rintro q hq
      obtain rfl := Option.some.inj hq
      rfl
    · rintro q values hq
      obtain rfl := Option.some.inj hq
      nofun
  -- With the observations committed, the flags of their postings are owed.
  | .inserting source [] inserted, hs =>
    obtain rfl := Option.some.inj hs
    refine h.step_of (n := s.next) (.refreshing _ _) ?_ fun j hj => ?_
    · intro q values hq htx
      exact absurd htx (Env.refreshing_tx hq)
    · by_cases hmem : j ∈ inserted.map Observation.job_id
      · have hids : j ∈ (inserted.map Observation.job_id).dedup.mergeSort :=
          List.mem_mergeSort.mpr (List.mem_dedup.mpr hmem)
        obtain ⟨q, hq, ho⟩ := Env.refreshing_owes (List.contains_iff_mem.mpr hids)
          (mem_batches hids) hj
        exact .owed q hq ho
      · refine .kept (filter_about_append fun o ho heq => ?_) rfl fun q hq ho => ?_
        · exact hmem (List.mem_map.mpr ⟨o, ho, heq⟩)
        · rw [hk] at hq
          obtain rfl := Option.some.inj hq
          contradiction
  -- A batch of flags is committed, and the next one begins.
  | .refreshing observed later (.evaluated values), hs =>
    obtain rfl := Option.some.inj hs
    refine h.step_of (n := s.next) (.refreshing _ _) ?_ fun j hj => ?_
    · intro q values' hq htx
      exact absurd htx (Env.refreshing_tx hq)
    · refine h.commit_effect hk rfl (List.append_nil _).symm hj fun hmem => ⟨nofun, fun ho => ?_⟩
      -- What is owed still is locked by a later batch, or was in this one.
      unfold Proc.owes at ho
      rw [Bool.and_eq_true, Bool.or_eq_true] at ho
      rcases ho.2 with hl | hr
      · exact Env.refreshing_owes ho.1 hl hj
      · exact absurd (List.contains_iff_mem.mp hr) hmem
  -- A row is locked, or the last of them is and the batch is evaluated.
  | .refreshing observed later (.locking todo locked), hs =>
    obtain ⟨tx', htx', rfl⟩ := Option.map_eq_some_iff.mp hs
    refine h.move s.next ⟨?_, ?_⟩ ?_ ?_
    · intro q tx hq htx j hj
      obtain rfl := Option.some.inj hq
      obtain rfl := Option.some.inj htx
      exact h.next_free hk rfl htx' hj
    · intro own tx hq
      exact absurd (Option.some.inj hq) nofun
    · intro q values hq htx
      obtain rfl := Option.some.inj hq
      exact (Tx.next_spec htx').2.2 values (Option.some.inj htx)
    · intro j _ q hq ho
      rw [hk] at hq
      obtain rfl := Option.some.inj hq
      exact ⟨_, rfl, Tx.next_owes htx' ho⟩
  -- A correction commits its observation with the flag of the posting, for which it holds the lock.
  | .correcting own (.evaluated values), hs =>
    obtain rfl := Option.some.inj hs
    refine h.step_of (n := s.next) (.of_no_tx nofun) nofun fun j hj => ?_
    refine h.commit_effect hk rfl rfl hj fun hmem => ⟨fun o ho heq => ?_, fun ho => ?_⟩
    · obtain rfl := List.mem_singleton.mp ho
      subst heq
      exact hmem (h.mine k o _ hk hj)
    · contradiction
  | .correcting own (.locking todo locked), hs =>
    obtain ⟨tx', htx', rfl⟩ := Option.map_eq_some_iff.mp hs
    refine h.move s.next ⟨?_, ?_⟩ ?_ ?_
    · intro q tx hq htx j hj
      obtain rfl := Option.some.inj hq
      obtain rfl := Option.some.inj htx
      exact h.next_free hk rfl htx' hj
    · intro own' tx hq hjob
      obtain ⟨rfl, rfl⟩ := Proc.correcting.inj (Option.some.inj hq)
      exact (Tx.next_spec htx').2.1 rfl _ (h.mine k own _ hk hjob)
    · intro q values hq htx
      obtain rfl := Option.some.inj hq
      exact (Tx.next_spec htx').2.2 values (Option.some.inj htx)
    · intro j _ q hq ho
      rw [hk] at hq
      obtain rfl := Option.some.inj hq
      contradiction
  -- The reconciliation writes flags too, but owes none.
  | .reconciling later (some (.evaluated values)), hs =>
    have hs : some { s.move k (some (.reconciling later none)) with
        available := commitValues values s.available } = some s' := by
      cases later <;> exact hs
    obtain rfl := Option.some.inj hs
    refine h.step_of (n := s.next) (.of_no_tx ?_) ?_ fun j hj => ?_
    · rintro q hq
      obtain rfl := Option.some.inj hq
      rfl
    · rintro q values' hq htx
      obtain rfl := Option.some.inj hq
      contradiction
    · refine h.commit_effect hk rfl (List.append_nil _).symm hj fun _ => ⟨nofun, fun ho => ?_⟩
      contradiction
  | .reconciling later (some (.locking todo locked)), hs =>
    have hs : (Tx.next e s [] true (.locking todo locked)).map
        (fun tx' => s.move k (some (.reconciling later (some tx')))) = some s' := by
      cases later <;> exact hs
    obtain ⟨tx', htx', rfl⟩ := Option.map_eq_some_iff.mp hs
    refine h.move s.next ⟨?_, ?_⟩ ?_ ?_
    · intro q tx hq htx j hj
      obtain rfl := Option.some.inj hq
      obtain rfl := Option.some.inj htx
      exact h.next_free hk rfl htx' hj
    · intro own tx hq
      exact absurd (Option.some.inj hq) nofun
    · intro q values hq htx
      obtain rfl := Option.some.inj hq
      exact (Tx.next_spec htx').2.2 values (Option.some.inj htx)
    · intro j _ q hq ho
      rw [hk] at hq
      obtain rfl := Option.some.inj hq
      contradiction
  | .reconciling (chunk :: later) none, hs =>
    obtain rfl := Option.some.inj hs
    refine hplain s.next (some (.reconciling later
      (some (.locking (e.lockOrder (s.stale e chunk)) [])))) ⟨?_, ?_⟩ ?_ fun _ => rfl
    · intro q tx hq htx j hj
      obtain rfl := Option.some.inj hq
      obtain rfl := Option.some.inj htx
      contradiction
    · intro own tx hq
      exact absurd (Option.some.inj hq) nofun
    · rintro q values hq
      obtain rfl := Option.some.inj hq
      nofun
  | .reconciling [] none, hs =>
    obtain rfl := Option.some.inj hs
    exact hplain s.next none (.of_no_tx nofun) nofun fun _ => rfl

/-- What is owed is owed by an `observe` that has not returned. -/
theorem Proc.unreturned_of_owes {proc : Proc} (h : proc.owes j = true) :
    proc.unreturned j = true := by
  match proc, h with
  | .refreshing observed later tx, h =>
    unfold Proc.owes at h
    rw [Bool.and_eq_true] at h
    exact h.1
  | .died observed, h => exact h

/-- What a failed `observe` owed it owes for good. -/
theorem Proc.failed_owes {proc : Proc} (h : proc.owes j = true) :
    ∃ q, proc.failed = some q ∧ q.owes j = true := by
  have hdied : ∀ observed : List ℕ, observed.contains j = true →
      ∃ q, (if observed.isEmpty then none else some (Proc.died observed)) = some q ∧
        q.owes j = true := by
    intro observed hc
    cases observed with
    | nil => contradiction
    | cons i observed => exact ⟨.died (i :: observed), rfl, hc⟩
  match proc, h with
  | .refreshing observed later tx, h =>
    unfold Proc.owes at h
    rw [Bool.and_eq_true] at h
    exact hdied observed h.1
  | .died observed, h => exact hdied observed h

/-- A failed process is in no transaction. -/
theorem Proc.failed_tx {proc q : Proc} (h : proc.failed = some q) : q.tx = none := by
  have hdied : ∀ observed : List ℕ,
      (if observed.isEmpty then none else some (Proc.died observed)) = some q → q.tx = none := by
    intro observed hq
    split at hq
    · contradiction
    · obtain rfl := Option.some.inj hq
      rfl
  match proc, h with
  | .refreshing observed later tx, h => exact hdied observed h
  | .died observed, h => exact hdied observed h

/-- Every step keeps the invariant. -/
theorem State.Inv.step {a : Act} (h : State.Inv e s₀ s) (hs : step e s a = some s') :
    State.Inv e s₀ s' := by
  cases a with
  | observe k pull =>
    simp only [Catalog.step] at hs
    rw [Option.ite_none_right_eq_some] at hs
    obtain ⟨hk, hs⟩ := hs
    obtain rfl := Option.some.inj hs
    have hm : State.Moved e s k (some (.reading pull (lastKind s.observations pull.source))) := by
      refine .of_no_tx fun q hq => ?_
      obtain rfl := Option.some.inj hq
      rfl
    refine h.start s.next hk hm fun q values hq => ?_
    obtain rfl := Option.some.inj hq
    nofun
  | setActive k job_id active =>
    simp only [Catalog.step] at hs
    rw [Option.ite_none_right_eq_some] at hs
    obtain ⟨⟨hk, hjob⟩, hs⟩ := hs
    obtain rfl := Option.some.inj hs
    refine h.start (s.next + 1) hk ⟨?_, ?_⟩ ?_
    · intro q tx hq htx j hj
      obtain rfl := Option.some.inj hq
      obtain rfl := Option.some.inj htx
      contradiction
    · intro own tx hq hj
      obtain ⟨rfl, rfl⟩ := Proc.correcting.inj (Option.some.inj hq)
      exact List.mem_append_left _ (e.mem_lockOrder List.mem_cons_self hj)
    · rintro q values hq
      obtain rfl := Option.some.inj hq
      nofun
  | refresh k ids =>
    simp only [Catalog.step] at hs
    rw [Option.ite_none_right_eq_some] at hs
    obtain ⟨hk, hs⟩ := hs
    obtain rfl := Option.some.inj hs
    exact h.start s.next hk (.refreshing _ _) fun q values hq => Env.refreshing_tx hq
  | reconcile k =>
    simp only [Catalog.step] at hs
    rw [Option.ite_none_right_eq_some] at hs
    obtain ⟨hk, hs⟩ := hs
    obtain rfl := Option.some.inj hs
    have hm : State.Moved e s k (some (.reconciling e.chunks none)) := by
      refine .of_no_tx fun q hq => ?_
      obtain rfl := Option.some.inj hq
      rfl
    refine h.start s.next hk hm fun q values hq => ?_
    obtain rfl := Option.some.inj hq
    nofun
  | next k =>
    obtain ⟨proc, hk, hnext⟩ := Option.bind_eq_some_iff.mp hs
    exact h.next hk hnext
  | fail k =>
    obtain ⟨proc, hk, rfl⟩ := Option.map_eq_some_iff.mp hs
    refine h.move s.next (.of_no_tx fun q hq => Proc.failed_tx hq) ?_ fun j _ q hq ho => ?_
    · intro q values hq htx
      rw [Proc.failed_tx hq] at htx
      contradiction
    · rw [hk] at hq
      obtain rfl := Option.some.inj hq
      exact Proc.failed_owes ho

end

/-- The catalog between runs: no process and no lock. -/
structure Start where
  available : ℕ → Option Bool
  observations : List Observation
  next : ℕ

/-- The state that a run starts from. -/
def Start.state (c : Start) : State :=
  ⟨c.available, c.observations, c.next, fun _ => none, fun _ => none⟩

/-- Whatever runs beside whatever: a posting that was stored at the start, or of which an observation was
committed since, has the rule's value over the committed observations in every state in which each
`observe` that committed an observation of it has returned. (`set_active` commits its observation and
the value together, as it returns.) -/
theorem available_follows_observations (e : Env) (c : Start) {s : State}
    (h : Run (step e) Always c.state s) (j : ℕ) (hj : State.Counts e c.state s j)
    (hreturned : ∀ k proc, s.procs k = some proc → proc.unreturned j = false) : s.Stored e j := by
  have hstart : State.Inv e c.state c.state := by
    refine ⟨fun k proc tx hk => ?_, fun k own tx hk => ?_, fun k proc values hk => ?_, ?_⟩
    · contradiction
    · contradiction
    · contradiction
    · rintro j (hst | ⟨o, ho, -, hnew⟩)
      · exact .inl hst
      · exact absurd ho hnew
  have hinv := h.invariant hstart fun s a s' hi _ hs => hi.step hs
  rcases hinv.stored j hj with hst | ⟨k, proc, -, hk, ho⟩
  · exact hst
  · have hun := hreturned k proc hk
    rw [Proc.unreturned_of_owes ho] at hun
    contradiction

/-- The process that a step is of. -/
def Act.proc : Act → ℕ
  | .observe k _ | .setActive k _ _ | .refresh k _ | .reconcile k | .next k | .fail k => k

/-- The next statement of a process leaves the other processes alone. -/
theorem Proc.next_procs {e : Env} {s s' : State} {k k' : ℕ} {proc : Proc} (hne : k' ≠ k)
    (hs : proc.next e s k = some s') : s'.procs k' = s.procs k' := by
  match proc, hs with
  | .reading pull last, hs =>
    simp only [Proc.next] at hs
    split at hs <;> obtain rfl := Option.some.inj hs <;> exact Function.update_of_ne hne _ _
  | .inserting source (_ :: rows) inserted, hs =>
    obtain rfl := Option.some.inj hs
    exact Function.update_of_ne hne _ _
  | .inserting source [] inserted, hs =>
    obtain rfl := Option.some.inj hs
    exact Function.update_of_ne hne _ _
  | .refreshing observed later (.evaluated values), hs =>
    obtain rfl := Option.some.inj hs
    exact Function.update_of_ne hne _ _
  | .refreshing observed later (.locking todo locked), hs =>
    obtain ⟨tx', -, rfl⟩ := Option.map_eq_some_iff.mp hs
    exact Function.update_of_ne hne _ _
  | .correcting own (.evaluated values), hs =>
    obtain rfl := Option.some.inj hs
    exact Function.update_of_ne hne _ _
  | .correcting own (.locking todo locked), hs =>
    obtain ⟨tx', -, rfl⟩ := Option.map_eq_some_iff.mp hs
    exact Function.update_of_ne hne _ _
  | .reconciling later tx, hs =>
    simp only [Proc.next] at hs
    split at hs
    · obtain rfl := Option.some.inj hs
      exact Function.update_of_ne hne _ _
    · obtain ⟨tx', -, rfl⟩ := Option.map_eq_some_iff.mp hs
      exact Function.update_of_ne hne _ _
    · obtain rfl := Option.some.inj hs
      exact Function.update_of_ne hne _ _
    · obtain rfl := Option.some.inj hs
      exact Function.update_of_ne hne _ _

/-- A run leaves alone the processes that no step of it is of. -/
theorem procs_of_runList {e : Env} {k : ℕ} :
    ∀ {as : List Act} {s s' : State}, runList (step e) s as = some s' → k ∉ as.map Act.proc →
      s'.procs k = s.procs k
  | [], s, s', h, _ => by
    obtain rfl := Option.some.inj h
    rfl
  | a :: as, s, s', h, hk => by
    obtain ⟨t, ht, hrest⟩ := Option.bind_eq_some_iff.mp h
    rw [List.map_cons, List.mem_cons, not_or] at hk
    rw [procs_of_runList hrest hk.2]
    have hne : k ≠ a.proc := hk.1
    cases a with
    | observe k' pull =>
      simp only [step] at ht
      rw [Option.ite_none_right_eq_some] at ht
      obtain rfl := Option.some.inj ht.2
      exact Function.update_of_ne hne _ _
    | setActive k' job_id active =>
      simp only [step] at ht
      rw [Option.ite_none_right_eq_some] at ht
      obtain rfl := Option.some.inj ht.2
      exact Function.update_of_ne hne _ _
    | refresh k' ids =>
      simp only [step] at ht
      rw [Option.ite_none_right_eq_some] at ht
      obtain rfl := Option.some.inj ht.2
      exact Function.update_of_ne hne _ _
    | reconcile k' =>
      simp only [step] at ht
      rw [Option.ite_none_right_eq_some] at ht
      obtain rfl := Option.some.inj ht.2
      exact Function.update_of_ne hne _ _
    | next k' =>
      obtain ⟨proc, -, hnext⟩ := Option.bind_eq_some_iff.mp ht
      exact Proc.next_procs hne hnext
    | fail k' =>
      obtain ⟨proc, -, rfl⟩ := Option.map_eq_some_iff.mp ht
      exact Function.update_of_ne hne _ _

/-- One posting of one board. -/
def oneBoard : Env where
  jobs := [⟨1, "https://jobs.example/1", "board", true⟩]
  sources name := if name = "board" then some true else none
  patterns_enforced := true

/-- Nothing is stored and nothing observed. -/
def unobserved : Start := ⟨fun _ => none, [], 1⟩

/-- A pull drops the posting while an administrator marks it available: the correction takes its id and
locks the row first, the pull's observation is committed before the correction, and its refresh waits for
the row. -/
def correctionBesidePull : List Act :=
  let listed : Pull := ⟨"board", [⟨"https://jobs.example/1", true⟩], ["https://jobs.example/1"],
    some .unlisted⟩
  let dropped : Pull := ⟨"board", [], [], some .unlisted⟩
  [.observe 0 listed, .next 0, .next 0, .next 0, .next 0, .next 0, .next 0,
    .observe 1 dropped, .setActive 2 1 true, .next 2, .next 2, .next 1, .next 1, .next 1, .next 2,
    .next 1, .next 1, .next 1]

/-- Afterwards the stored value is the rule's over the three observations. -/
theorem available_follows_observations_beside_correction :
    ∃ s, Run (step oneBoard) Always unobserved.state s ∧ s.observations.length = 3 ∧
      s.Stored oneBoard 1 := by
  have hp : (runList (step oneBoard) unobserved.state correctionBesidePull).any (fun s =>
      decide (s.observations.length = 3) && s.observations.any (fun o => o.job_id == 1) &&
      [0, 1, 2].all fun k => (s.procs k).isNone) = true := by decide +kernel
  rw [Option.any_eq_true] at hp
  obtain ⟨s, hs, hp⟩ := hp
  simp only [Bool.and_eq_true, decide_eq_true_eq, List.any_eq_true, beq_iff_eq] at hp
  obtain ⟨⟨hlen, o, ho, hoj⟩, hprocs⟩ := hp
  refine ⟨s, run_of_runList hs, hlen, ?_⟩
  refine available_follows_observations oneBoard unobserved (run_of_runList hs) 1
    (.inr ⟨o, ho, hoj, List.not_mem_nil⟩) fun k proc hk => ?_
  by_cases hmem : k ∈ correctionBesidePull.map Act.proc
  · have hk3 : k ∈ [0, 1, 2] := by
      have hsub : ∀ k ∈ correctionBesidePull.map Act.proc, k ∈ [0, 1, 2] := by decide
      exact hsub k hmem
    have := List.all_eq_true.mp hprocs k hk3
    rw [hk] at this
    contradiction
  · rw [procs_of_runList hs hmem] at hk
    contradiction

end JobScripts.Catalog

import Mathlib.Data.List.Sort
import JobScripts.Ledger.Triggers
import JobScripts.Lib.Run

/-!
# The refresh of the hourly sums among writers

The system of `ledger_rollup.py`: any number of transactions writing the source tables, and the refresh,
of which the advisory lock lets one run at a time. Each statement of the refresh reads the tables as
they are then committed, so any number of transactions may commit between two of them. Its own writes
(the groups it deletes and stores, the rows of the log it deletes, the watermark) show when it commits.

A stored hour is fresh when no row of the log names it, and the invariant carries this through the
refresh: every hour below its watermark is exact in the groups it holds unless a row of the log names
the hour that it has not yet dealt with (`Kept`). The refresh deletes the rows it read by their ids, and
a transaction that commits later brings rows of other ids.
-/

namespace JobScripts.Ledger

open Lib

/-! ## The refresh -/

/-- What the refresh has done last: taken the lock, read the state, read the log, deleted the groups of
the dirty hours, stored them again, deleted the rows of the log, deleted the groups of the hours it
advances over, stored those, written the watermark. -/
inductive Phase
  | locked
  | stated
  | logged
  | cleared
  | recomputed
  | forgot
  | emptied
  | stored
  | recorded
  deriving DecidableEq

/-- A refresh in flight: its clock and span in whole hours, `answer_usage_hourly` as its transaction
sees it, what it has read, and the rows of the log that it has deleted. -/
structure Refresher where
  now : ℤ
  maxSpan : ℤ
  phase : Phase := .locked
  hourly : List HourGroup
  untilHour : ℤ := 0
  logged : List (ℕ × ℤ) := []
  deleted : List ℕ := []

/-- `first_hour`: the earliest hour of an answer or a fetch. -/
def firstHour (D : Tables) : Option ℤ :=
  Option.merge min ((D.ai_queries.map Answer.created_at).min?.map hourOf)
    ((D.page_fetches.map Fetch.created_at).min?.map hourOf)

/-- `until`: the watermark, else the first hour there is, else the current one. -/
def startHour (r : Rollup) (D : Tables) (now : ℤ) : ℤ :=
  (r.computed_until.or (firstHour D)).getD (hourOf now)

/-- `dirty`: the hours below the watermark that the log read names. -/
def Refresher.dirty (r : Refresher) : List ℤ :=
  ((r.logged.map Prod.snd).filter fun h => decide (h < r.untilHour)).dedup.insertionSort (· ≤ ·)

/-- `target`: where the watermark moves to, when that is ahead. -/
def Refresher.target (r : Refresher) : ℤ := min (hourOf r.now) (r.untilHour + r.maxSpan)

/-- The next statement of the refresh, on the tables as they are committed when it runs. -/
def Refresher.next (r : Refresher) (rollup : Rollup) (D : Tables) : Option Refresher :=
  match r.phase with
  | .locked => some { r with phase := .stated, untilHour := startHour rollup D r.now }
  | .stated => some { r with phase := .logged, logged := rollup.dirty }
  | .logged => some
    { r with phase := .cleared, hourly := r.hourly.filter fun g => decide (g.1.1 ∉ r.dirty) }
  | .cleared => some
    { r with
      phase := .recomputed
      hourly := r.hourly ++
        aggregate (r.dirty.map fun h => ⟨.time (startOf h), .time (startOf (h + 1))⟩) D }
  | .recomputed => some { r with phase := .forgot, deleted := r.logged.map Prod.fst }
  | .forgot => some
    { r with
      phase := .emptied
      hourly := r.hourly.filter fun g => !decide (r.untilHour ≤ g.1.1 ∧ g.1.1 < r.target) }
  | .emptied => some
    { r with
      phase := .stored
      hourly := if r.untilHour < r.target then
          r.hourly ++ aggregate [⟨.time (startOf r.untilHour), .time (startOf r.target)⟩] D
        else r.hourly }
  | .stored => some { r with phase := .recorded }
  | .recorded => none

/-! ## The system -/

/-- The committed tables, the next id of the log, the transactions in flight and the refresh that holds
the lock. -/
structure State where
  tables : Tables
  rollup : Rollup := {}
  seq : ℕ := 0
  writers : List Writer := []
  refresher : Option Refresher := none

/-- The rollup tables as the migration creates them, over whatever the source tables hold. -/
def init (D : Tables) : State := { tables := D }

/-- What happens next: a transaction begins, runs a statement, commits or rolls back, named by its place
among those in flight; a refresh is called, runs its next statement, commits or fails. -/
inductive Action
  | begin
  | statement (i : ℕ) (st : Statement)
  | commit (i : ℕ)
  | rollback (i : ℕ)
  | refresh (now maxSpan : ℤ)
  | refreshStatement
  | refreshCommit
  | refreshAbort

/-- A statement of the transaction in place `i`. -/
def runStatement (s : State) (i : ℕ) (st : Statement) : Option State :=
  match s.writers[i]? with
  | none => none
  | some w =>
    if Admitted w s.tables (s.writers.eraseIdx i) st then
      some { s with
        writers := s.writers.set i (w.execute s.tables s.seq st)
        seq := s.seq + (w.logs s.tables st).length }
    else none

/-- The commit of the transaction in place `i`: its rows and its rows of the log show. -/
def runCommit (s : State) (i : ℕ) : Option State :=
  match s.writers[i]? with
  | none => none
  | some w => some { s with
      tables := w.view s.tables
      rollup := { s.rollup with dirty := s.rollup.dirty ++ w.dirty }
      writers := s.writers.eraseIdx i }

/-- The commit of the refresh. -/
def commitRefresh (s : State) (r : Refresher) : State :=
  { s with
    rollup :=
      { hourly := r.hourly
        dirty := s.rollup.dirty.filter fun e => decide (e.1 ∉ r.deleted)
        computed_until := some (max r.untilHour r.target) }
    refresher := none }

/-- One step of the system. A refresh called while another holds the lock returns at once. -/
def step (s : State) : Action → Option State
  | .begin => some { s with writers := s.writers ++ [{}] }
  | .statement i st => runStatement s i st
  | .commit i => runCommit s i
  | .rollback i => some { s with writers := s.writers.eraseIdx i }
  | .refresh now maxSpan =>
    match s.refresher with
    | some _ => some s
    | none => some { s with
        refresher := some { now := now, maxSpan := maxSpan, hourly := s.rollup.hourly } }
  | .refreshStatement =>
    match s.refresher with
    | none => none
    | some r => (r.next s.rollup s.tables).map fun r' => { s with refresher := some r' }
  | .refreshCommit =>
    match s.refresher with
    | none => none
    | some r => if r.phase = .recorded then some (commitRefresh s r) else none
  | .refreshAbort => some { s with refresher := none }

/-- A commit that the insert triggers suffice for: of the answers it inserts none takes the place of the
first answer of its call in an hour that the commit does not log, it inserts no call that an answer in
such an hour already names, and it brings no answer of a call whose answers another transaction in flight
has already looked up, in an hour that one has not logged. -/
def CommitCovered (s : State) : Action → Prop
  | .commit i => ∀ w ∈ s.writers[i]?, Covered s.tables w ∧ ∀ v ∈ s.writers.eraseIdx i, Unseen w v
  | _ => True

instance (s : State) (a : Action) : Decidable (CommitCovered s a) :=
  match a with
  | .commit i => inferInstanceAs (Decidable (∀ w ∈ s.writers[i]?, _ ∧ _))
  | .begin | .statement .. | .rollback _ | .refresh .. | .refreshStatement | .refreshCommit
  | .refreshAbort => inferInstanceAs (Decidable True)

/-! ## The invariant -/

/-- Below an hour, the groups that the refresh holds are exact in every hour that no row of the log
names, other than rows of the given ids. -/
def Kept (s : State) (r : Refresher) (u : ℤ) (ids : List ℕ) : Prop :=
  ∀ h, h < u → (∀ e ∈ s.rollup.dirty, e.2 = h → e.1 ∈ ids) →
    ∀ d, tally r.hourly (h, d) = ledgerTally s.tables (h, d)

/-- The rows of the log that the refresh has read are still there, and a row of such an id is one of
them. -/
def LogRead (s : State) (r : Refresher) : Prop :=
  (∀ e ∈ r.logged, e ∈ s.rollup.dirty) ∧
  ∀ e ∈ s.rollup.dirty, e.1 ∈ r.logged.map Prod.fst → e.2 ∈ r.logged.map Prod.snd

/-- What holds of the refresh after each of its statements. -/
def PhaseOk (s : State) (r : Refresher) : Prop :=
  match r.phase with
  | .locked => r.hourly = s.rollup.hourly
  | .stated => Kept s r r.untilHour []
  | .logged => Kept s r r.untilHour [] ∧ LogRead s r
  | .cleared => Kept s r r.untilHour [] ∧ LogRead s r ∧
      ∀ h ∈ r.dirty, ∀ d, tally r.hourly (h, d) = 0
  | .recomputed => Kept s r r.untilHour (r.logged.map Prod.fst)
  | .forgot => Kept s r r.untilHour (r.logged.map Prod.fst) ∧ r.deleted = r.logged.map Prod.fst
  | .emptied => (Kept s r r.untilHour (r.logged.map Prod.fst) ∧ r.deleted = r.logged.map Prod.fst) ∧
      ∀ h, r.untilHour ≤ h ∧ h < r.target → ∀ d, tally r.hourly (h, d) = 0
  | .stored | .recorded =>
    Kept s r (max r.untilHour r.target) (r.logged.map Prod.fst) ∧ r.deleted = r.logged.map Prod.fst

/-- The ids that a transaction has drawn for its rows of the log. -/
def Writer.drawn (w : Writer) : List ℕ := w.dirty.map Prod.fst

/-- The invariant of the system. The stored hours are fresh, the log of every transaction in flight
covers what it has done, the ids of the log are drawn once, and the refresh keeps what it holds. -/
structure Sound (s : State) : Prop where
  fresh : Fresh s.rollup s.tables
  empty : s.rollup.computed_until = none → s.rollup.hourly = []
  writers : ∀ w ∈ s.writers, WriterOk s.tables w
  apart : s.writers.Pairwise Apart
  drawn : ∀ w ∈ s.writers, ∀ i ∈ w.drawn, i < s.seq ∧ i ∉ s.rollup.dirty.map Prod.fst
  log : ∀ i ∈ s.rollup.dirty.map Prod.fst, i < s.seq
  read : ∀ r ∈ s.refresher, (∀ i ∈ r.logged.map Prod.fst, i < s.seq) ∧
    ∀ w ∈ s.writers, ∀ i ∈ w.drawn, i ∉ r.logged.map Prod.fst
  phase : ∀ r ∈ s.refresher, PhaseOk s r

/-- The rollup tables start empty, over any source tables. -/
theorem sound_init (D : Tables) : Sound (init D) where
  fresh := by intro u hu; cases hu
  empty := fun _ => rfl
  writers := by simp [init]
  apart := List.Pairwise.nil
  drawn := by simp [init]
  log := by simp [init]
  read := by simp [init]
  phase := by simp [init]

/-! ## Steps of the transactions -/

/-- A transaction begins. -/
theorem Sound.begin {s : State} (h : Sound s) : Sound { s with writers := s.writers ++ [{}] } := by
  have hnew : WriterOk s.tables {} := by constructor <;> simp
  refine ⟨h.fresh, h.empty, ?_, ?_, ?_, h.log, fun r hr => ⟨(h.read r hr).1, ?_⟩, h.phase⟩
  · intro w hw
    rcases List.mem_append.1 hw with hw | hw
    · exact h.writers w hw
    · rw [List.mem_singleton.1 hw]
      exact hnew
  · rw [List.pairwise_append]
    refine ⟨h.apart, List.pairwise_singleton _ _, fun w _ v hv => ?_⟩
    rw [List.mem_singleton.1 hv]
    constructor <;> simp [Versions.touched]
  · intro w hw
    rcases List.mem_append.1 hw with hw | hw
    · exact h.drawn w hw
    · rw [List.mem_singleton.1 hw]
      simp [Writer.drawn]
  · intro w hw
    rcases List.mem_append.1 hw with hw | hw
    · exact (h.read r hr).2 w hw
    · rw [List.mem_singleton.1 hw]
      simp [Writer.drawn]

/-- A transaction rolls back, and what it wrote is gone. -/
theorem Sound.rollback {s : State} (h : Sound s) (i : ℕ) :
    Sound { s with writers := s.writers.eraseIdx i } := by
  have hsub : ∀ w ∈ s.writers.eraseIdx i, w ∈ s.writers := fun w hw => List.mem_of_mem_eraseIdx hw
  exact ⟨h.fresh, h.empty, fun w hw => h.writers w (hsub w hw),
    h.apart.sublist (List.eraseIdx_sublist _ _), fun w hw => h.drawn w (hsub w hw), h.log,
    fun r hr => ⟨(h.read r hr).1, fun w hw => (h.read r hr).2 w (hsub w hw)⟩, h.phase⟩

/-- A transaction in flight and the others. -/
theorem Sound.others {s : State} (h : Sound s) {i : ℕ} {w : Writer} (hw : s.writers[i]? = some w) :
    w ∈ s.writers ∧ (∀ v ∈ s.writers.eraseIdx i, v ∈ s.writers ∧ Apart w v) := by
  obtain ⟨hi, rfl⟩ := List.getElem?_eq_some_iff.1 hw
  have hperm := List.getElem_cons_eraseIdx_perm hi
  have hpair := (hperm.pairwise_iff fun h => h.symm).2 h.apart
  rw [List.pairwise_cons] at hpair
  exact ⟨List.getElem_mem hi, fun v hv => ⟨List.mem_of_mem_eraseIdx hv, hpair.1 v hv⟩⟩

/-- A transaction runs a statement. -/
theorem Sound.statement {s s' : State} (h : Sound s) {i : ℕ} {st : Statement}
    (hs : runStatement s i st = some s') : Sound s' := by
  unfold runStatement at hs
  split at hs
  · contradiction
  rename_i w hw
  split at hs
  swap
  · contradiction
  rename_i hadm
  obtain rfl := Option.some.inj hs
  obtain ⟨hmem, hothers⟩ := h.others hw
  obtain ⟨hi, -⟩ := List.getElem?_eq_some_iff.1 hw
  have hperm := List.set_perm_cons_eraseIdx hi (w.execute s.tables s.seq st)
  -- The ids that the statement draws are from the sequence's next value on.
  have hdrawn : ∀ j ∈ (w.execute s.tables s.seq st).drawn,
      j ∈ w.drawn ∨ (s.seq ≤ j ∧ j < s.seq + (w.logs s.tables st).length) := by
    intro j hj
    have hj' : j ∈ (w.dirty ++ numbered s.seq (w.logs s.tables st)).map Prod.fst := hj
    rw [List.map_append, List.mem_append] at hj'
    exact hj'.imp id mem_numbered
  have hcases : ∀ v ∈ s.writers.set i (w.execute s.tables s.seq st),
      v = w.execute s.tables s.seq st ∨ v ∈ s.writers.eraseIdx i := fun v hv =>
    List.mem_cons.1 (hperm.mem_iff.1 hv)
  refine ⟨h.fresh, h.empty, ?_, ?_, ?_, ?_, fun r hr => ⟨?_, ?_⟩, h.phase⟩
  · intro v hv
    rcases hcases v hv with rfl | hv
    · exact (h.writers w hmem).execute hadm
    · exact h.writers v (hothers v hv).1
  · refine (hperm.pairwise_iff fun h => h.symm).2 (List.pairwise_cons.2 ⟨fun v hv => ?_, ?_⟩)
    · refine (hothers v hv).2.execute hv hadm fun j hj => ?_
      exact (h.drawn v (hothers v hv).1 j hj).1
    · exact h.apart.sublist (List.eraseIdx_sublist _ _)
  · intro v hv j hj
    rcases hcases v hv with rfl | hv
    · rcases hdrawn j hj with hj | hj
      · exact ⟨Nat.lt_add_right _ (h.drawn w hmem j hj).1, (h.drawn w hmem j hj).2⟩
      · exact ⟨hj.2, fun hlog => absurd (h.log j hlog) (not_lt.2 hj.1)⟩
    · obtain ⟨hlt, hlog⟩ := h.drawn v (hothers v hv).1 j hj
      exact ⟨Nat.lt_add_right _ hlt, hlog⟩
  · exact fun j hj => Nat.lt_add_right _ (h.log j hj)
  · exact fun j hj => Nat.lt_add_right _ ((h.read r hr).1 j hj)
  · intro v hv j hj
    rcases hcases v hv with rfl | hv
    · rcases hdrawn j hj with hj | hj
      · exact (h.read r hr).2 w hmem j hj
      · exact fun hlog => absurd ((h.read r hr).1 j hlog) (not_lt.2 hj.1)
    · exact (h.read r hr).2 v (hothers v hv).1 j hj

/-- The state after a transaction has committed, seen by the refresh. -/
def committed (s : State) (w : Writer) : State :=
  { s with
    tables := w.view s.tables
    rollup := { s.rollup with dirty := s.rollup.dirty ++ w.dirty } }

/-- A commit keeps what the refresh holds: the hours that it changes are named by new rows of the log. -/
theorem Kept.commit {s : State} {r : Refresher} {u : ℤ} {ids : List ℕ} {w : Writer}
    (h : Kept s r u ids) (hw : WriterOk s.tables w) (hcov : Covered s.tables w)
    (hids : ∀ i ∈ w.drawn, i ∉ ids) : Kept (committed s w) r u ids := by
  intro g hg hrows d
  have hlog : g ∉ w.logged := by
    intro hmem
    obtain ⟨e, he, heq⟩ := List.mem_map.1 hmem
    exact hids e.1 (List.mem_map_of_mem he) (hrows e (List.mem_append_right _ he) heq)
  show _ = ledgerTally (w.view s.tables) (g, d)
  rw [ledgerTally_commit hw hcov hlog]
  exact h g hg (fun e he heq => hrows e (List.mem_append_left _ he) heq) d

/-- A commit adds to the log only rows of ids that the refresh has not read. -/
theorem LogRead.commit {s : State} {r : Refresher} {w : Writer} (h : LogRead s r)
    (hids : ∀ i ∈ w.drawn, i ∉ r.logged.map Prod.fst) : LogRead (committed s w) r := by
  refine ⟨fun e he => List.mem_append_left _ (h.1 e he), fun e he hid => ?_⟩
  rcases List.mem_append.1 he with he | he
  · exact h.2 e he hid
  · exact absurd hid (hids e.1 (List.mem_map_of_mem he))

/-- A commit keeps what holds of the refresh, whatever it has done last. -/
theorem PhaseOk.commit {s : State} {r : Refresher} {w : Writer} (h : PhaseOk s r)
    (hw : WriterOk s.tables w) (hcov : Covered s.tables w)
    (hids : ∀ i ∈ w.drawn, i ∉ r.logged.map Prod.fst) : PhaseOk (committed s w) r := by
  have hkept : ∀ {u : ℤ} {ids : List ℕ}, (ids = [] ∨ ids = r.logged.map Prod.fst) →
      Kept s r u ids → Kept (committed s w) r u ids := by
    intro u ids hor hk
    refine hk.commit hw hcov fun i hi => ?_
    rcases hor with rfl | rfl
    · exact List.not_mem_nil
    · exact hids i hi
  unfold PhaseOk at h ⊢
  split at h
  · exact h
  · exact hkept (.inl rfl) h
  · exact ⟨hkept (.inl rfl) h.1, h.2.commit hids⟩
  · exact ⟨hkept (.inl rfl) h.1, h.2.1.commit hids, h.2.2⟩
  · exact hkept (.inr rfl) h
  · exact ⟨hkept (.inr rfl) h.1, h.2⟩
  · exact ⟨⟨hkept (.inr rfl) h.1.1, h.1.2⟩, h.2⟩
  · exact ⟨hkept (.inr rfl) h.1, h.2⟩
  · exact ⟨hkept (.inr rfl) h.1, h.2⟩

/-- A transaction commits, where the insert triggers suffice. -/
theorem Sound.commit {s s' : State} (h : Sound s) {i : ℕ} (hok : CommitCovered s (.commit i))
    (hs : runCommit s i = some s') : Sound s' := by
  unfold runCommit at hs
  split at hs
  · contradiction
  rename_i w hw
  obtain rfl := Option.some.inj hs
  obtain ⟨hcov, hunseen⟩ := hok w hw
  obtain ⟨hmem, hothers⟩ := h.others hw
  have hwok := h.writers w hmem
  refine ⟨?_, h.empty, ?_, ?_, ?_, ?_, ?_, ?_⟩
  · intro u hu g hg hclean d
    rw [List.map_append, List.mem_append, not_or] at hclean
    rw [ledgerTally_commit hwok hcov hclean.2]
    exact h.fresh u hu g hg hclean.1 d
  · exact fun v hv => (h.writers v (hothers v hv).1).commit (hothers v hv).2 (hunseen v hv)
  · exact h.apart.sublist (List.eraseIdx_sublist _ _)
  · intro v hv j hj
    obtain ⟨hlt, hlog⟩ := h.drawn v (hothers v hv).1 j hj
    refine ⟨hlt, fun hmem' => ?_⟩
    rw [List.map_append, List.mem_append] at hmem'
    rcases hmem' with hmem' | hmem'
    · exact hlog hmem'
    · exact (hothers v hv).2.dirty j hmem' hj
  · intro j hj
    rw [List.map_append, List.mem_append] at hj
    rcases hj with hj | hj
    · exact h.log j hj
    · exact (h.drawn w hmem j hj).1
  · exact fun r hr => ⟨(h.read r hr).1, fun v hv => (h.read r hr).2 v (hothers v hv).1⟩
  · exact fun r hr => (h.phase r hr).commit hwok hcov ((h.read r hr).2 w hmem)

/-! ## Steps of the refresh -/

/-- No entry of the ledger is earlier than the first hour. -/
theorem firstHour_le {D : Tables} {a : Entry} (ha : a ∈ ledger D) :
    ∃ f, firstHour D = some f ∧ f ≤ hourOf a.created_at := by
  have hmono : ∀ {t t' : ℤ}, t ≤ t' → hourOf t ≤ hourOf t' := by
    intro t t' h
    unfold hourOf hourMicros
    omega
  have hmin : ∀ {l : List ℤ} {t : ℤ}, t ∈ l → ∃ m, l.min? = some m ∧ m ≤ t := by
    intro l t ht
    cases hl : l.min? with
    | none =>
      rw [List.min?_eq_none_iff.1 hl] at ht
      contradiction
    | some m => exact ⟨m, rfl, (List.min?_eq_some_iff.1 hl).2 t ht⟩
  unfold firstHour
  rcases List.mem_append.1 ha with ha | ha
  · obtain ⟨q, hq, rfl⟩ := List.mem_map.1 ha
    obtain ⟨m, hm, hle⟩ := hmin (List.mem_map_of_mem (f := Answer.created_at) hq)
    rw [hm]
    cases (D.page_fetches.map Fetch.created_at).min? with
    | none => exact ⟨_, rfl, hmono hle⟩
    | some m' => exact ⟨_, rfl, (min_le_left _ _).trans (hmono hle)⟩
  · obtain ⟨f, hf, rfl⟩ := List.mem_map.1 ha
    obtain ⟨m, hm, hle⟩ := hmin (List.mem_map_of_mem (f := Fetch.created_at) (List.mem_of_mem_filter hf))
    rw [hm]
    cases (D.ai_queries.map Answer.created_at).min? with
    | none => exact ⟨_, rfl, hmono hle⟩
    | some m' => exact ⟨_, rfl, (min_le_right _ _).trans (hmono hle)⟩

/-- Where there is no watermark, nothing is stored and nothing is recorded before the hour that the
refresh starts from. -/
theorem ledgerTally_before_start {r : Rollup} {D : Tables} {now h : ℤ}
    (hnone : r.computed_until = none) (hlt : h < startHour r D now) (d : Dims) :
    ledgerTally D (h, d) = 0 := by
  refine tally_eq_zero fun e he hk => ?_
  obtain ⟨a, ha, rfl⟩ := List.mem_map.1 he
  obtain ⟨f, hf, hle⟩ := firstHour_le ha
  unfold startHour at hlt
  rw [hnone, hf, Option.none_or, Option.getD_some] at hlt
  have := hourOf_of_row hk
  omega

/-- The hours that the refresh recomputes: those of the log it read that are below the watermark. -/
theorem mem_dirty {r : Refresher} {h : ℤ} :
    h ∈ r.dirty ↔ h ∈ r.logged.map Prod.snd ∧ h < r.untilHour := by
  unfold Refresher.dirty
  rw [List.mem_insertionSort, List.mem_dedup, List.mem_filter, decide_eq_true_eq]

/-- They are distinct. -/
theorem nodup_dirty (r : Refresher) : r.dirty.Nodup :=
  (List.perm_insertionSort _ _).nodup_iff.2 (List.nodup_dedup _)

/-- The state is read: below the hour that the refresh starts from, what is stored is fresh. -/
theorem Kept.readState {s : State} (h : Sound s) {r : Refresher} (hr : r.hourly = s.rollup.hourly) :
    Kept s { r with phase := .stated, untilHour := startHour s.rollup s.tables r.now }
      (startHour s.rollup s.tables r.now) [] := by
  intro g hg hrows d
  show tally r.hourly (g, d) = _
  rw [hr]
  cases hu : s.rollup.computed_until with
  | none =>
    rw [h.empty hu, tally_nil]
    exact (ledgerTally_before_start hu hg d).symm
  | some u =>
    have hstart : startHour s.rollup s.tables r.now = u := by
      unfold startHour
      rw [hu]
      rfl
    refine h.fresh u hu g (hstart ▸ hg) (fun hmem => ?_) d
    obtain ⟨e, he, heq⟩ := List.mem_map.1 hmem
    exact absurd (hrows e he heq) List.not_mem_nil

/-- The groups of the dirty hours are deleted: the others are as they were, and a dirty hour is named by
a row of the log. -/
theorem Kept.clearDirty {s : State} {r : Refresher} (h : Kept s r r.untilHour [])
    (hread : LogRead s r) :
    Kept s { r with phase := .cleared, hourly := r.hourly.filter fun g => decide (g.1.1 ∉ r.dirty) }
      r.untilHour [] := by
  intro g hg hrows d
  have hnd : g ∉ r.dirty := by
    intro hmem
    obtain ⟨e, he, heq⟩ := List.mem_map.1 (mem_dirty.1 hmem).1
    exact absurd (hrows e (hread.1 e he) heq) List.not_mem_nil
  show tally (r.hourly.filter fun g => decide (g.1.1 ∉ r.dirty)) (g, d) = _
  rw [tally_filter_key (fun k : ℤ × Dims => decide (k.1 ∉ r.dirty)), if_pos (by simpa using hnd)]
  exact h g hg hrows d

/-- The dirty hours are stored again, from the tables as they are now: what is left to deal with are the
rows of the log that were not read. -/
theorem Kept.storeDirty {s : State} {r : Refresher} (h : Kept s r r.untilHour [])
    (hread : LogRead s r) (hvacant : ∀ h ∈ r.dirty, ∀ d, tally r.hourly (h, d) = 0) :
    Kept s { r with
        phase := .recomputed
        hourly := r.hourly ++ aggregate (r.dirty.map fun h =>
          ⟨.time (startOf h), .time (startOf (h + 1))⟩) s.tables }
      r.untilHour (r.logged.map Prod.fst) := by
  intro g hg hrows d
  show tally (r.hourly ++ _) (g, d) = _
  rw [tally_append, tally_aggregate_hours (nodup_dirty r)]
  by_cases hmem : g ∈ r.dirty
  · rw [if_pos hmem, hvacant g hmem, zero_add]
  · rw [if_neg hmem, add_zero]
    refine h g hg (fun e he heq => absurd ?_ hmem) d
    exact mem_dirty.2 ⟨heq ▸ hread.2 e he (hrows e he heq), hg⟩

/-- The groups of the hours that the refresh advances over are deleted: those below are as they were. -/
theorem Kept.emptySpan {s : State} {r : Refresher} {ids : List ℕ} (h : Kept s r r.untilHour ids) :
    Kept s { r with
        phase := .emptied
        hourly := r.hourly.filter fun g => !decide (r.untilHour ≤ g.1.1 ∧ g.1.1 < r.target) }
      r.untilHour ids := by
  intro g hg hrows d
  show tally (r.hourly.filter _) (g, d) = _
  rw [tally_filter_key (fun k : ℤ × Dims => !decide (r.untilHour ≤ k.1 ∧ k.1 < r.target)),
    if_pos (by simp; omega)]
  exact h g hg hrows d

/-- The hours that the refresh advances over are stored, from the tables as they are now. -/
theorem Kept.storeSpan {s : State} {r : Refresher} {ids : List ℕ} (h : Kept s r r.untilHour ids)
    (hvacant : ∀ h, r.untilHour ≤ h ∧ h < r.target → ∀ d, tally r.hourly (h, d) = 0) :
    Kept s { r with
        phase := .stored
        hourly := if r.untilHour < r.target then
            r.hourly ++
              aggregate [⟨.time (startOf r.untilHour), .time (startOf r.target)⟩] s.tables
          else r.hourly }
      (max r.untilHour r.target) ids := by
  intro g hg hrows d
  show tally (if _ then _ else _) (g, d) = _
  split
  · rw [tally_append, tally_aggregate_span]
    by_cases hspan : r.untilHour ≤ g ∧ g < r.target
    · rw [if_pos hspan, hvacant g hspan, zero_add]
    · rw [if_neg hspan, add_zero]
      exact h g (by omega) hrows d
  · exact h g (by omega) hrows d

/-- A statement of the refresh keeps what holds of it. -/
theorem PhaseOk.next {s : State} (h : Sound s) {r r' : Refresher} (hr : s.refresher = some r)
    (hs : r.next s.rollup s.tables = some r') : PhaseOk s r' := by
  have hp := h.phase r hr
  unfold PhaseOk at hp
  unfold Refresher.next at hs
  split at hs
  all_goals
    rename_i hphase
    rw [hphase] at hp
  · obtain rfl := Option.some.inj hs
    exact Kept.readState h hp
  · obtain rfl := Option.some.inj hs
    exact ⟨hp, fun e he => he, fun e he _ => List.mem_map_of_mem he⟩
  · obtain rfl := Option.some.inj hs
    refine ⟨hp.1.clearDirty hp.2, hp.2, fun g hg d => ?_⟩
    show tally (r.hourly.filter fun g => decide (g.1.1 ∉ r.dirty)) (g, d) = 0
    rw [tally_filter_key (fun k : ℤ × Dims => decide (k.1 ∉ r.dirty)), if_neg]
    have hg' : g ∈ r.dirty := hg
    simpa using hg'
  · obtain rfl := Option.some.inj hs
    exact hp.1.storeDirty hp.2.1 hp.2.2
  · obtain rfl := Option.some.inj hs
    exact ⟨hp, rfl⟩
  · obtain rfl := Option.some.inj hs
    refine ⟨⟨hp.1.emptySpan, hp.2⟩, fun g hg d => ?_⟩
    have hg' : r.untilHour ≤ g ∧ g < r.target := hg
    show tally (r.hourly.filter _) (g, d) = 0
    rw [tally_filter_key (fun k : ℤ × Dims => !decide (r.untilHour ≤ k.1 ∧ k.1 < r.target)), if_neg]
    simp [hg']
  · obtain rfl := Option.some.inj hs
    exact ⟨hp.1.1.storeSpan hp.2, hp.1.2⟩
  · obtain rfl := Option.some.inj hs
    exact hp
  · contradiction

/-- The log that the refresh has read has ids of the sequence, which no transaction in flight has
drawn. -/
theorem Sound.readLog {s : State} (h : Sound s) {r r' : Refresher} (hr : s.refresher = some r)
    (hs : r.next s.rollup s.tables = some r') :
    (∀ i ∈ r'.logged.map Prod.fst, i < s.seq) ∧
      ∀ w ∈ s.writers, ∀ i ∈ w.drawn, i ∉ r'.logged.map Prod.fst := by
  have hold := h.read r hr
  unfold Refresher.next at hs
  split at hs
  case h_2 =>
    obtain rfl := Option.some.inj hs
    exact ⟨h.log, fun w hw i hi => (h.drawn w hw i hi).2⟩
  case h_9 => contradiction
  all_goals
    obtain rfl := Option.some.inj hs
    exact hold

/-- The refresh commits: what it holds is stored, and the rows of the log that it read are gone. -/
theorem Sound.refreshCommit {s : State} (h : Sound s) {r : Refresher} (hr : s.refresher = some r)
    (hphase : r.phase = .recorded) : Sound (commitRefresh s r) := by
  have hp := h.phase r hr
  unfold PhaseOk at hp
  rw [hphase] at hp
  obtain ⟨hkept, hdel⟩ := hp
  have hsub : ∀ i ∈ (commitRefresh s r).rollup.dirty.map Prod.fst,
      i ∈ s.rollup.dirty.map Prod.fst := by
    intro i hi
    obtain ⟨e, he, rfl⟩ := List.mem_map.1 hi
    exact List.mem_map_of_mem (List.mem_of_mem_filter he)
  refine ⟨?_, ?_, h.writers, h.apart, ?_, fun i hi => h.log i (hsub i hi), ?_, ?_⟩
  · intro u hu g hg hclean d
    obtain rfl : max r.untilHour r.target = u := Option.some.inj hu
    refine hkept g hg (fun e he heq => ?_) d
    by_contra hnot
    refine hclean (List.mem_map.2 ⟨e, List.mem_filter.2 ⟨he, ?_⟩, heq⟩)
    rw [hdel]
    exact decide_eq_true hnot
  · exact fun hnone => absurd hnone (by simp [commitRefresh])
  · intro w hw i hi
    exact ⟨(h.drawn w hw i hi).1, fun hmem => (h.drawn w hw i hi).2 (hsub i hmem)⟩
  · simp [commitRefresh]
  · simp [commitRefresh]

/-! ## Runs -/

/-- Every step keeps the invariant, a commit where the insert triggers suffice. -/
theorem sound_step {s s' : State} {a : Action} (h : Sound s) (hok : CommitCovered s a)
    (hs : step s a = some s') : Sound s' := by
  match a, hs with
  | .begin, hs =>
    obtain rfl := Option.some.inj hs
    exact h.begin
  | .statement i st, hs => exact h.statement hs
  | .commit i, hs => exact h.commit hok hs
  | .rollback i, hs =>
    obtain rfl := Option.some.inj hs
    exact h.rollback i
  | .refresh now maxSpan, hs =>
    simp only [step] at hs
    split at hs
    · obtain rfl := Option.some.inj hs
      exact h
    · obtain rfl := Option.some.inj hs
      refine ⟨h.fresh, h.empty, h.writers, h.apart, h.drawn, h.log, ?_, ?_⟩
      · simp
      · rintro r hr
        obtain rfl := Option.some.inj hr
        exact rfl
  | .refreshStatement, hs =>
    simp only [step] at hs
    split at hs
    · contradiction
    rename_i r hr
    obtain ⟨r', hr', rfl⟩ := Option.map_eq_some_iff.1 hs
    refine ⟨h.fresh, h.empty, h.writers, h.apart, h.drawn, h.log, ?_, ?_⟩
    · rintro _ hmem
      obtain rfl := Option.some.inj hmem
      exact h.readLog hr hr'
    · rintro _ hmem
      obtain rfl := Option.some.inj hmem
      exact PhaseOk.next h hr hr'
  | .refreshCommit, hs =>
    simp only [step] at hs
    split at hs
    · contradiction
    rename_i r hr
    split at hs
    · rename_i hphase
      obtain rfl := Option.some.inj hs
      exact h.refreshCommit hr hphase
    · contradiction
  | .refreshAbort, hs =>
    obtain rfl := Option.some.inj hs
    exact ⟨h.fresh, h.empty, h.writers, h.apart, h.drawn, h.log, by simp, by simp⟩

/-- In every run whose commits the insert triggers suffice for, over any source tables, every read of
every window is exact: summed by any dimensions it is the aggregate of the source tables over the window,
summed by them. -/
theorem rollup_reads_exact (D : Tables) {s : State} (hrun : Run step CommitCovered (init D) s)
    (start stop : Bound) (keep : Dims → Bool) (cut : List Dimension) :
    (summed cut (groups s.rollup s.tables start stop keep)).Perm
      (summed cut (direct s.tables start stop keep)) := by
  have hsound : Sound s :=
    hrun.invariant (sound_init D) fun _ _ _ h hok hs => sound_step h hok hs
  exact groups_exact hsound.fresh start stop keep cut

/-- A call of a hundred tokens with no price. -/
def someCall : Call := ⟨1, 60, 40, 100, 0, none, none, none⟩

/-- An answer naming that call, in a given hour. -/
def someAnswer (id : ℕ) (hour : ℤ) : Answer :=
  ⟨id, startOf hour, some 1, some "m1", some "closed", some "passed", some "verify-batch", none, none⟩

/-- The nine statements of a refresh. -/
def refreshed (now : ℤ) : List Action :=
  .refresh now 48 :: List.replicate 8 .refreshStatement ++ [.refreshCommit]

/-- Two transactions: the second answers in hour 1 and commits, the refresh stores the hour, the first
prices the call and its answer in hour 2 is linked by an update while a second refresh runs. -/
def pricedLate : List Action :=
  [.begin, .begin, .statement 1 (.answers (.insert [someAnswer 2 1])), .commit 1] ++
  refreshed (startOf 5) ++
  [.statement 0 (.calls (.update [{ someCall with cost_usd := some 2 }])),
    .statement 0 (.answers (.insert [{ someAnswer 1 2 with model_call_id := none }])),
    .statement 0 (.answers (.update [someAnswer 1 2])),
    .refresh (startOf 6) 48, .refreshStatement, .refreshStatement, .commit 0, .refreshStatement,
    .refreshStatement, .refreshStatement]

/-- Reads are exact after that run, the sums of the whole ledger for one. -/
theorem rollup_reads_exact_priced_late :
    ∃ s, runList (guarded step CommitCovered) (init { model_calls := [someCall] }) pricedLate = some s ∧
      (summed [.model] (groups s.rollup s.tables .negInfinity .infinity fun _ => true)).Perm
        (summed [.model] (direct s.tables .negInfinity .infinity fun _ => true)) := by
  have hsome : (runList (guarded step CommitCovered) (init { model_calls := [someCall] })
      pricedLate).isSome = true := by decide +kernel
  obtain ⟨s, hs⟩ := Option.isSome_iff_exists.1 hsome
  exact ⟨s, hs, rollup_reads_exact _ (run_of_guarded (run_of_runList hs)) _ _ _ _⟩

/-- Two transactions draw their ids, the one of the greater id answers in hour 1 and commits, the refresh
stores that hour, and the other commits its answer of the same call in hour 2. -/
def lowerIdLate : List Action :=
  [.begin, .begin, .statement 1 (.answers (.insert [someAnswer 2 1])), .commit 1] ++
  refreshed (startOf 5) ++ [.statement 0 (.answers (.insert [someAnswer 1 2])), .commit 0]

/-- The insert trigger does not log the hour of the answer that is no longer the call's first, so a read
counts the call's tokens twice. -/
theorem late_lower_id_counted_twice :
    ¬ ∀ (D : Tables) (s : State), Run step Always (init D) s →
      ∀ (start stop : Bound) (keep : Dims → Bool) (cut : List Dimension),
        (summed cut (groups s.rollup s.tables start stop keep)).Perm
          (summed cut (direct s.tables start stop keep)) := by
  intro hall
  have hread : (runList step (init { model_calls := [someCall] }) lowerIdLate).any (fun s =>
      !decide ((summed [] (groups s.rollup s.tables .negInfinity .infinity fun _ => true)).Perm
        (summed [] (direct s.tables .negInfinity .infinity fun _ => true)))) = true := by
    decide +kernel
  obtain ⟨s, hrun, hne⟩ := exists_run_of_any hread
  simp only [Bool.not_eq_true', decide_eq_false_iff_not] at hne
  exact hne (hall _ s hrun _ _ _ _)

end JobScripts.Ledger

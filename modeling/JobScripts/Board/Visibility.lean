import Mathlib.Algebra.Order.Ring.Int
import Mathlib.Data.List.Dedup
import Mathlib.Logic.Function.Basic
import JobScripts.Lib.Run
import JobScripts.Queue.Task

/-!
# The visible board

`api/board/visibility.py` keeps the postings that a person may see. `FULL` is the predicate; a `recompute_board` task
evaluates it and stores the ids in `board_visible`, and `FAST` reads them back. A preference write asks for a task by
`request_refresh`, the scheduler by the clock.

`FAST` selects what `FULL` selects wherever the stored ids are those of `FULL` (`fast_eq_full`). A recompute reads
before it takes the lock that it stores under, and a request's key names every task of its minute, also one that has
read already. So the newest facts win, and no request is lost, in the runs in which recomputes store in the order in
which they read and no request meets such a task (`settles_on_newest`), and not in all (`older_read_stored`).
-/

namespace JobScripts.Board.Visibility

open Lib
open Queue (Status)

/-! ## What the predicate reads -/

/-- A posting. `date_posted` is the start of its day. -/
structure Job where
  id : ℕ
  url : ℕ
  source : ℕ
  available : Option Bool := some true
  date_posted : Option ℤ := none
  created_at : ℤ := 0
  locations : List ℕ := []
  terms : List ℕ := []

/-- `check_type` of a verdict. -/
inductive Check
  | closed
  | clearance
  | custom (prompt_hash : ℕ)
  deriving DecidableEq

/-- A row of `verdicts`; the list of them is in the order of `id`. -/
structure Verdict where
  url : ℕ
  check_type : Check
  passed : Bool

/-- A row of `user_jobs`. -/
structure UserJob where
  user_id : ℕ
  job_id : ℕ
  status : Option String := none
  notes : Option String := none

/-- What `criteria.params` and `settings_params` give for a person. -/
structure Settings where
  date_posted_after : Option ℤ := none
  max_age_days : Option ℤ := none
  excluded_locations : List ℕ := []
  included_locations : List ℕ := []
  included_terms : List ℕ := []
  bypass_sponsorship_filter : Bool := true

/-- The tables, with their keys: a posting has one row, and the persons of the other tables are `users`. -/
structure Facts where
  users : List ℕ
  jobs : List Job
  /-- `job_id` and `uploaded_by` of `posting_uploads`: who uploaded which posting. -/
  uploads : List (ℕ × ℕ)
  user_jobs : List UserJob
  /-- `user_id` and `job_id` of the applications with a day. -/
  applied : List (ℕ × ℕ)
  settings : ℕ → Settings
  /-- `user_id`, `prompt_hash` and `enabled` of `user_filters`. -/
  filters : List (ℕ × ℕ × Bool)
  verdicts : List Verdict
  /-- `user_sources`: which person picked which source. -/
  picks : List (ℕ × ℕ)
  /-- `user_followed_sources`: which source a person has through a bundle. -/
  followed : List (ℕ × ℕ)
  /-- Whether the place of a criterion matches that of a location. -/
  place : ℕ → ℕ → Bool
  keyed : (jobs.map Job.id).Nodup
  uploaders : ∀ upload ∈ uploads, upload.2 ∈ users
  persons : ∀ uj ∈ user_jobs, uj.user_id ∈ users

variable (f : Facts)

/-! ## The predicate -/

/-- `criteria.SQL`: a posting meets the dates, the places and the terms that a person asks for. -/
def Settings.admits (c : Settings) (place : ℕ → ℕ → Bool) (now : ℤ) (j : Job) : Bool :=
  (c.date_posted_after.all fun day => j.date_posted.any fun posted => day ≤ posted) &&
    (c.max_age_days.all fun days => now - 86400 * days ≤ j.date_posted.getD j.created_at) &&
    (c.excluded_locations.isEmpty || !j.locations.any fun l => c.excluded_locations.any fun x => place x l) &&
    (c.included_locations.isEmpty || j.locations.isEmpty ||
      j.locations.any fun l => c.included_locations.any fun x => place x l) &&
    (c.included_terms.isEmpty || j.terms.any fun t => c.included_terms.contains t)

/-- `latest_check` and `_LATEST_FILTER`: the latest answer of a check passed. -/
def Facts.latestPassed (url : ℕ) (check : Check) : Bool :=
  ((f.verdicts.filter fun v => v.url = url ∧ v.check_type = check).getLast?.map (·.passed)).getD false

/-- `ENABLED_FILTERS`: the filters that a person has on. -/
def Facts.enabledFilters (u : ℕ) : List ℕ :=
  ((f.filters.filter fun (user, _, enabled) => user = u && enabled).map fun (_, hash, _) => hash).dedup

/-- `STRUCTURAL`: a posting is available, meets the settings of a person, and passed the checks that these need. -/
def Facts.structural (now : ℤ) (u : ℕ) (j : Job) : Bool :=
  j.available.getD false && (f.settings u).admits f.place now j && f.latestPassed j.url .closed &&
    ((f.settings u).bypass_sponsorship_filter || f.latestPassed j.url .clearance)

/-- `SUBSCRIBED`: a person has the source of a posting. -/
def Facts.subscribed (u : ℕ) (j : Job) : Bool := f.picks.contains (u, j.source) || f.followed.contains (u, j.source)

/-- `filter_pass` counts as many filters as there are. -/
def Facts.filtersPass (u : ℕ) (j : Job) : Bool :=
  (f.enabledFilters u).length = 0 ||
    ((f.enabledFilters u).filter fun hash => f.latestPassed j.url (.custom hash)).length = (f.enabledFilters u).length

/-- `_ACTED_ON`: a person did something with a posting. -/
def Facts.actedOn (uj : UserJob) : Bool :=
  uj.status.getD "" != "" || uj.notes.getD "" != "" || f.applied.contains (uj.user_id, uj.job_id)

/-- The condition of `FULL`. -/
def Facts.admits (now : ℤ) (u : ℕ) (j : Job) : Bool :=
  f.uploads.contains (j.id, u) ||
    (f.user_jobs.any fun uj => uj.user_id = u && uj.job_id = j.id && f.actedOn uj) ||
    (f.structural now u j && f.subscribed u j && f.filtersPass u j)

/-- `member_ids`: the ids that `FULL` selects. -/
def Facts.full (now : ℤ) (u : ℕ) : List ℕ := (f.jobs.filter (f.admits now u)).map (·.id)

/-! ## The stored ids -/

/-- A row of `board_visible`. -/
structure Visible where
  user_id : ℕ
  job_id : ℕ
  computed_at : ℤ

/-- The ids that are stored for a person. -/
def members (rows : List Visible) (u : ℕ) : List ℕ := (rows.filter fun row => row.user_id = u).map (·.job_id)

/-- `visible_ids` of `FAST`: the stored members, with what a person uploaded or acted on. -/
def Facts.visibleIds (rows : List Visible) (u : ℕ) : List ℕ :=
  members rows u ++ (f.uploads.filter fun upload => upload.2 = u).map Prod.fst ++
    (f.user_jobs.filter fun uj => uj.user_id = u && f.actedOn uj).map (·.job_id)

/-- The ids that `FAST` selects. -/
def Facts.fast (rows : List Visible) (u : ℕ) : List ℕ :=
  (f.jobs.filter fun j => (f.visibleIds rows u).contains j.id).map (·.id)

/-- The ids that `across_users` selects. -/
def Facts.acrossUsers (rows : List Visible) : List ℕ :=
  (f.jobs.filter fun j => (rows.map (·.job_id) ++ f.uploads.map Prod.fst ++
    (f.user_jobs.filter fun uj => f.actedOn uj).map (·.job_id)).contains j.id).map (·.id)

/-- `SET computed_at = now()` where it is later. -/
def Visible.clamp (u : ℕ) (now : ℤ) (row : Visible) : Visible :=
  if row.user_id = u ∧ row.computed_at > now then { row with computed_at := now } else row

/-- The statements of `store` on `board_visible`: what has left is deleted, what is new is inserted, and no row is newer
than the transaction. -/
def storeRows (rows : List Visible) (u : ℕ) (ids : List ℕ) (now : ℤ) : List Visible :=
  let kept := rows.filter fun row => row.user_id ≠ u || ids.contains row.job_id
  let added := ids.dedup.filter fun id => !kept.any fun row => row.user_id = u && row.job_id = id
  (kept ++ added.map fun id => (⟨u, id, now⟩ : Visible)).map (Visible.clamp u now)

/-- `computed_at`: the latest time of the rows and of the record of the last recompute. -/
def computedAt (rows : List Visible) (recomputed : Option ℤ) (u : ℕ) : Option ℤ :=
  ((rows.filter fun row => row.user_id = u).map fun row => max row.computed_at (recomputed.getD row.computed_at)).max?

section Rows

variable {f} {rows : List Visible} {u : ℕ}

/-- An id is stored for a person if there is a row. -/
theorem mem_members {id : ℕ} : id ∈ members rows u ↔ ∃ row ∈ rows, row.user_id = u ∧ row.job_id = id := by
  simp [members, and_assoc]

/-- The ids of `FULL` are those of the postings that it admits. -/
theorem Facts.mem_full {now : ℤ} {j : Job} (hj : j ∈ f.jobs) : j.id ∈ f.full now u ↔ f.admits now u j = true := by
  unfold Facts.full
  rw [List.mem_map]
  refine ⟨fun ⟨j', hj', hid⟩ => ?_, fun h => ⟨j, List.mem_filter.mpr ⟨hj, h⟩, rfl⟩⟩
  obtain ⟨hmem, hadmits⟩ := List.mem_filter.mp hj'
  -- The id is the key of `jobs`.
  rw [← List.inj_on_of_nodup_map f.keyed hmem hj hid]
  exact hadmits

/-- Where the stored ids are those of `FULL`, `FAST` selects the same postings. -/
theorem fast_eq_full {now : ℤ} (h : ∀ id, id ∈ members rows u ↔ id ∈ f.full now u) : f.fast rows u = f.full now u := by
  have hcongr : f.jobs.filter (fun j => (f.visibleIds rows u).contains j.id) = f.jobs.filter (f.admits now u) := by
    refine List.filter_congr fun j hj => ?_
    rw [Bool.eq_iff_iff, List.contains_iff_mem, ← Facts.mem_full hj]
    constructor
    · intro hvisible
      rcases List.mem_append.mp hvisible with hvisible | hacted
      · rcases List.mem_append.mp hvisible with hmember | hupload
        · exact (h j.id).mp hmember
        · obtain ⟨⟨id, user⟩, hmem, hid⟩ := List.mem_map.mp hupload
          obtain ⟨hmem, huser⟩ := List.mem_filter.mp hmem
          rw [Facts.mem_full hj, Facts.admits, Bool.or_eq_true, Bool.or_eq_true, List.contains_iff_mem]
          rw [decide_eq_true_eq] at huser
          dsimp only at hid huser
          exact .inl (.inl (hid ▸ huser ▸ hmem))
      · obtain ⟨uj, hmem, hid⟩ := List.mem_map.mp hacted
        obtain ⟨hmem, hacted⟩ := List.mem_filter.mp hmem
        rw [Facts.mem_full hj, Facts.admits, Bool.or_eq_true, Bool.or_eq_true, List.any_eq_true]
        rw [Bool.and_eq_true] at hacted
        exact .inl (.inr ⟨uj, hmem, by rw [hacted.1, hacted.2, decide_eq_true hid]; rfl⟩)
    · intro hfull
      exact List.mem_append_left _ (List.mem_append_left _ ((h j.id).mpr hfull))
  unfold Facts.fast Facts.full
  rw [hcongr]

/-- `across_users` selects what `FAST` selects for any person. -/
theorem mem_acrossUsers (hrows : ∀ row ∈ rows, row.user_id ∈ f.users) (id : ℕ) :
    id ∈ f.acrossUsers rows ↔ ∃ u ∈ f.users, id ∈ f.fast rows u := by
  have hvisible : ∀ id, id ∈ rows.map (·.job_id) ++ f.uploads.map Prod.fst ++
      (f.user_jobs.filter fun uj => f.actedOn uj).map (·.job_id) ↔ ∃ u ∈ f.users, id ∈ f.visibleIds rows u := by
    intro id
    constructor
    · intro h
      rcases List.mem_append.mp h with h | h
      · rcases List.mem_append.mp h with h | h
        · obtain ⟨row, hrow, hid⟩ := List.mem_map.mp h
          refine ⟨row.user_id, hrows row hrow, List.mem_append_left _ (List.mem_append_left _ ?_)⟩
          exact mem_members.mpr ⟨row, hrow, rfl, hid⟩
        · obtain ⟨upload, hupload, hid⟩ := List.mem_map.mp h
          refine ⟨upload.2, f.uploaders upload hupload, List.mem_append_left _ (List.mem_append_right _ ?_)⟩
          exact List.mem_map.mpr ⟨upload, List.mem_filter.mpr ⟨hupload, decide_eq_true rfl⟩, hid⟩
      · obtain ⟨uj, huj, hid⟩ := List.mem_map.mp h
        obtain ⟨hmem, hacted⟩ := List.mem_filter.mp huj
        refine ⟨uj.user_id, f.persons uj hmem, List.mem_append_right _ ?_⟩
        refine List.mem_map.mpr ⟨uj, List.mem_filter.mpr ⟨hmem, ?_⟩, hid⟩
        rw [hacted, decide_eq_true rfl]
        rfl
    · rintro ⟨u, -, h⟩
      rcases List.mem_append.mp h with h | h
      · rcases List.mem_append.mp h with h | h
        · obtain ⟨row, hrow, -, hid⟩ := mem_members.mp h
          exact List.mem_append_left _ (List.mem_append_left _ (List.mem_map.mpr ⟨row, hrow, hid⟩))
        · obtain ⟨upload, hupload, hid⟩ := List.mem_map.mp h
          refine List.mem_append_left _ (List.mem_append_right _ ?_)
          exact List.mem_map.mpr ⟨upload, (List.mem_filter.mp hupload).1, hid⟩
      · obtain ⟨uj, huj, hid⟩ := List.mem_map.mp h
        obtain ⟨hmem, hacted⟩ := List.mem_filter.mp huj
        rw [Bool.and_eq_true] at hacted
        exact List.mem_append_right _ (List.mem_map.mpr ⟨uj, List.mem_filter.mpr ⟨hmem, hacted.2⟩, hid⟩)
  unfold Facts.acrossUsers Facts.fast
  simp only [List.mem_map, List.mem_filter, List.contains_iff_mem, hvisible]
  constructor
  · rintro ⟨j, ⟨hj, u, hu, hid⟩, rfl⟩
    exact ⟨u, hu, j, ⟨hj, hid⟩, rfl⟩
  · rintro ⟨u, hu, j, ⟨hj, hid⟩, rfl⟩
    exact ⟨j, ⟨hj, u, hu, hid⟩, rfl⟩

/-- Clamping changes no person and no id. -/
theorem members_clamp {now : ℤ} {u' : ℕ} (rows : List Visible) :
    members (rows.map (Visible.clamp u now)) u' = members rows u' := by
  have hkeep : ∀ row, (Visible.clamp u now row).user_id = row.user_id ∧
      (Visible.clamp u now row).job_id = row.job_id := by
    intro row
    unfold Visible.clamp
    split <;> exact ⟨rfl, rfl⟩
  unfold members
  rw [List.filter_map, List.map_map]
  have hfilter : rows.filter ((fun row => decide (row.user_id = u')) ∘ Visible.clamp u now) =
      rows.filter fun row => decide (row.user_id = u') :=
    List.filter_congr fun row _ => by rw [Function.comp_apply, (hkeep row).1]
  rw [hfilter]
  exact List.map_congr_left fun row _ => (hkeep row).2

/-- A store leaves a person's ids as they were read, and the others' as they are. -/
theorem mem_members_storeRows {ids : List ℕ} {now : ℤ} {u' id : ℕ} :
    id ∈ members (storeRows rows u ids now) u' ↔ if u' = u then id ∈ ids else id ∈ members rows u' := by
  unfold storeRows
  rw [members_clamp]
  simp only [mem_members, List.mem_append, List.mem_filter, List.mem_map, List.mem_dedup]
  split
  · next heq =>
    subst heq
    constructor
    · rintro ⟨row, hrow | ⟨id', ⟨hid', -⟩, rfl⟩, huser, hid⟩
      · have hkept := hrow.2
        simp only [ne_eq, huser, not_true, decide_false, Bool.false_or, List.contains_iff_mem] at hkept
        exact hid ▸ hkept
      · exact hid ▸ hid'
    · intro hid
      by_cases hkept : ∃ row ∈ rows, row.user_id = u' ∧ row.job_id = id
      · obtain ⟨row, hrow, huser, hjob⟩ := hkept
        refine ⟨row, .inl ⟨hrow, ?_⟩, huser, hjob⟩
        rw [hjob, List.contains_iff_mem.mpr hid, Bool.or_true]
      · refine ⟨⟨u', id, now⟩, .inr ⟨id, ⟨hid, ?_⟩, rfl⟩, rfl, rfl⟩
        rw [Bool.not_eq_true', List.any_eq_false]
        intro row hrow hand
        rw [Bool.and_eq_true, decide_eq_true_eq, decide_eq_true_eq] at hand
        exact hkept ⟨row, (List.mem_filter.mp hrow).1, hand.1, hand.2⟩
  · next hne =>
    constructor
    · rintro ⟨row, hrow | ⟨id', -, rfl⟩, huser, hid⟩
      · exact ⟨row, hrow.1, huser, hid⟩
      · exact absurd huser.symm hne
    · rintro ⟨row, hrow, huser, hid⟩
      refine ⟨row, .inl ⟨hrow, ?_⟩, huser, hid⟩
      rw [Bool.or_eq_true, decide_eq_true_eq]
      exact .inl fun h => hne (huser.symm.trans h)

/-- The time that readers see is that of the last recompute, where the board is not empty. -/
theorem computedAt_storeRows {ids : List ℕ} {now : ℤ} :
    computedAt (storeRows rows u ids now) (some now) u = if ids = [] then none else some now := by
  obtain ⟨times, htimes⟩ : ∃ times, times = ((storeRows rows u ids now).filter fun row => row.user_id = u).map
      fun row => max row.computed_at ((some now).getD row.computed_at) := ⟨_, rfl⟩
  have hnow : ∀ t ∈ times, t = now := by
    intro t ht
    rw [htimes, List.mem_map] at ht
    obtain ⟨row, hrow, rfl⟩ := ht
    obtain ⟨hrow, huser⟩ := List.mem_filter.mp hrow
    rw [storeRows, List.mem_map] at hrow
    obtain ⟨row', -, rfl⟩ := hrow
    rw [decide_eq_true_eq] at huser
    -- The rows of the person were clamped.
    have hclamped : (Visible.clamp u now row').computed_at ≤ now := by
      unfold Visible.clamp at huser ⊢
      split at huser
      · next h => rw [if_pos h]
      · next h =>
        rw [if_neg h]
        exact Int.not_lt.mp fun hlt => h ⟨huser, hlt⟩
    rw [Option.getD_some]
    exact max_eq_right hclamped
  have hempty : times = [] ↔ ids = [] := by
    have hmembers : ∀ id, id ∈ members (storeRows rows u ids now) u ↔ id ∈ ids := by
      intro id
      rw [mem_members_storeRows, if_pos rfl]
    have hnil : times = [] ↔ members (storeRows rows u ids now) u = [] := by
      rw [htimes, members, List.map_eq_nil_iff, List.map_eq_nil_iff]
    rw [hnil, List.eq_nil_iff_forall_not_mem, List.eq_nil_iff_forall_not_mem]
    exact forall_congr' fun id => not_congr (hmembers id)
  unfold computedAt
  rw [← htimes]
  split
  · next hids => rw [hempty.mpr hids, List.max?_nil]
  · next hids =>
    rw [List.max?_eq_some_iff]
    obtain ⟨t, ht⟩ := List.exists_mem_of_ne_nil times fun h => hids (hempty.mp h)
    exact ⟨hnow t ht ▸ ht, fun t ht => (hnow t ht).le⟩

end Rows

/-! ## Recomputes and requests -/

/-- A `recompute_board` task. Its key is `board:{user_id}:{minute}`. `read` is when the run that has claimed it read. -/
structure Entry where
  user_id : ℕ
  minute : ℤ
  status : Status
  run : Option ℕ
  read : Option ℕ
  deriving DecidableEq

/-- How far a run of `recompute` is. -/
inductive Phase
  | claimed
  /-- `member_ids` has returned: which of the reads it was, and the ids. -/
  | read (n : ℕ) (ids : List ℕ)
  | stored

/-- A run of `handle_recompute_board`. -/
structure Recompute where
  task : ℕ
  user_id : ℕ
  phase : Phase

/-- A call of `request_refresh`. `start` is how many reads there had been when it was made. -/
structure Call where
  user_id : ℕ
  start : ℕ
  /-- It has found no task pending. -/
  clear : Bool := false
  returned : Bool := false
  deriving DecidableEq

/-- What a `member_ids` read. -/
structure Read where
  user_id : ℕ
  facts : Facts
  now : ℤ

/-- The tables, the queue, the runs and the calls. `reads` and `stores` are logs: what was read, in order, and which of
the reads were stored, for whom. -/
structure State where
  facts : Facts
  now : ℤ
  board_visible : List Visible
  /-- `board_visible_recomputes`: when the members of a person were last stored. -/
  recomputes : ℕ → Option ℤ
  tasks : List Entry
  runs : ℕ → Option Recompute
  calls : ℕ → Option Call
  reads : List Read
  stores : List (ℕ × ℕ)

/-- What can happen next. -/
inductive Act
  /-- Anything that the predicate reads is written, or time passes. -/
  | write (facts : Facts) (now : ℤ)
  /-- The scheduler enqueues a task. -/
  | schedule (u : ℕ) (minute : ℤ)
  /-- A worker claims a task. -/
  | claim (i r : ℕ)
  /-- `member_ids`: a run reads who is visible. -/
  | read (r : ℕ)
  /-- `store` commits, in a transaction that began at a time. -/
  | store (r : ℕ) (now : ℤ)
  /-- The task is done. -/
  | finish (r : ℕ)
  /-- A run ends without more. -/
  | crash (r : ℕ)
  /-- A task that was claimed goes back to the queue. -/
  | requeue (i : ℕ)
  /-- `request_refresh` is called. -/
  | request (k u : ℕ)
  /-- It looks for a task that is pending. -/
  | check (k : ℕ)
  /-- It enqueues a task, under the key of a minute. -/
  | enqueue (k : ℕ) (minute : ℤ)

/-- `RECOMPUTE_PENDING`: a task to recompute the members of a person is waiting. -/
def State.recomputePending (s : State) (u : ℕ) : Bool := s.tasks.any fun t => t.user_id = u && t.status = .pending

/-- `enqueue`: at most one task per key. -/
def State.enqueue (s : State) (u : ℕ) (minute : ℤ) : State :=
  if s.tasks.any fun t => t.user_id = u && t.minute = minute then s
  else { s with tasks := s.tasks ++ [⟨u, minute, .pending, none, none⟩] }

/-- A run goes on. -/
def State.go (s : State) (r : ℕ) (run : Option Recompute) : State := { s with runs := Function.update s.runs r run }

/-- A call goes on. -/
def State.call (s : State) (k : ℕ) (call : Call) : State := { s with calls := Function.update s.calls k (some call) }

/-- The task's run has read. -/
def Entry.hasRead (n : ℕ) (t : Entry) : Entry := { t with read := some n }

/-- The task is done. -/
def Entry.done (t : Entry) : Entry := if t.status = .running then { t with status := .done } else t

/-- A write of a run to its task, while it has the claim. -/
def writeEntry (tasks : List Entry) (i r : ℕ) (write : Entry → Entry) : List Entry :=
  tasks.mapIdx fun n t => if n = i ∧ t.run = some r then write t else t

/-- One step. -/
def step (s : State) : Act → Option State
  | .write facts now =>
    if (∀ j ∈ s.facts.jobs, j.id ∈ facts.jobs.map (·.id)) ∧ ∀ u ∈ s.facts.users, u ∈ facts.users then
      some { s with facts := facts, now := now }
    else none
  | .schedule u minute => some (s.enqueue u minute)
  | .claim i r =>
    match s.tasks[i]?, s.runs r with
    | some t, none =>
      if t.status = .pending then
        some ({ s with tasks := s.tasks.set i { t with status := .running, run := some r, read := none } }.go r
          (some ⟨i, t.user_id, .claimed⟩))
      else none
    | _, _ => none
  | .read r =>
    match s.runs r with
    | some ⟨i, u, .claimed⟩ =>
      let read : Read := ⟨u, s.facts, s.now⟩
      some ({ s with
        reads := s.reads ++ [read]
        tasks := writeEntry s.tasks i r (Entry.hasRead s.reads.length)
        }.go r (some ⟨i, u, .read s.reads.length (s.facts.full s.now u)⟩))
    | _ => none
  | .store r now =>
    match s.runs r with
    | some ⟨i, u, .read n ids⟩ =>
      -- The rows name a person and postings that are there.
      if u ∈ s.facts.users ∧ ∀ id ∈ ids, id ∈ s.facts.jobs.map (·.id) then
        some ({ s with
          board_visible := storeRows s.board_visible u ids now
          recomputes := Function.update s.recomputes u (some now)
          stores := s.stores ++ [(u, n)]
          }.go r (some ⟨i, u, .stored⟩))
      else none
    | _ => none
  | .finish r =>
    match s.runs r with
    | some ⟨i, _, .stored⟩ =>
      -- A claim that has been lost writes nothing.
      some ({ s with
        tasks := writeEntry s.tasks i r Entry.done
        }.go r none)
    | _ => none
  | .crash r => some (s.go r none)
  | .requeue i =>
    match s.tasks[i]? with
    | some t =>
      if t.status = .running then
        some { s with tasks := s.tasks.set i { t with status := .pending, run := none, read := none } }
      else none
    | none => none
  | .request k u =>
    match s.calls k with
    | none => some (s.call k { user_id := u, start := s.reads.length })
    | some _ => none
  | .check k =>
    match s.calls k with
    | some c =>
      if c.clear || c.returned then none
      else some (s.call k (if s.recomputePending c.user_id then { c with returned := true } else { c with clear := true }))
    | none => none
  | .enqueue k minute =>
    match s.calls k with
    | some c =>
      if c.clear && !c.returned then some ((s.enqueue c.user_id minute).call k { c with returned := true }) else none
    | none => none

/-! ## The newest facts -/

/-- A recompute stores while none of the person that read later has stored. A request enqueues while the task that has
the key of the minute, if there is one, has not read before the request was made. -/
def inOrder (s : State) : Act → Bool
  | .store r _ =>
    match s.runs r with
    | some ⟨_, u, .read n _⟩ => s.stores.all fun (user, m) => user ≠ u || m ≤ n
    | _ => true
  | .enqueue k minute =>
    match s.calls k with
    | some c => s.tasks.all fun t => !(t.user_id = c.user_id && t.minute = minute) || t.read.all (c.start ≤ ·)
    | none => true
  | _ => true

/-- The same as a side condition of runs. -/
def InOrder (s : State) (a : Act) : Prop := inOrder s a = true

/-- It is computed. -/
instance (s : State) (a : Act) : Decidable (InOrder s a) := inferInstanceAs (Decidable (inOrder s a = true))

/-- The task is pending, or will read, or has read since there had been as many reads. -/
def Entry.Serves (t : Entry) (start : ℕ) : Prop :=
  t.status = .pending ∨ (t.status = .running ∧ t.read = none) ∨ ∃ n, t.read = some n ∧ start ≤ n

/-- A task serves a request. -/
def State.Served (s : State) (u start : ℕ) : Prop :=
  ∃ (i : ℕ) (t : Entry), s.tasks[i]? = some t ∧ t.user_id = u ∧ t.Serves start

/-- The read of a person that was last of those that were stored. -/
def State.Latest (s : State) (u n : ℕ) : Prop := (u, n) ∈ s.stores ∧ ∀ m, (u, m) ∈ s.stores → m ≤ n

/-- The stored ids of a person are those that `FULL` gave to a read. -/
def State.Holds (s : State) (u n : ℕ) : Prop :=
  ∃ read, s.reads[n]? = some read ∧ read.user_id = u ∧
    ∀ id, id ∈ members s.board_visible u ↔ id ∈ read.facts.full read.now u

/-- The invariant. -/
structure State.Inv (s : State) : Prop where
  rows : ∀ row ∈ s.board_visible, row.user_id ∈ s.facts.users
  read : ∀ r i u n ids, s.runs r = some ⟨i, u, .read n ids⟩ →
    ∃ read, s.reads[n]? = some read ∧ read.user_id = u ∧ ids = read.facts.full read.now u
  latest : ∀ u n, s.Latest u n → s.Holds u n
  ended : ∀ (i : ℕ) (t : Entry), s.tasks[i]? = some t → t.status = .pending ∨ t.status = .running ∨ t.read ≠ none
  ran : ∀ r i u phase, s.runs r = some ⟨i, u, phase⟩ → phase ≠ .claimed →
    ∀ t : Entry, s.tasks[i]? = some t → t.run = some r → t.read ≠ none
  start : ∀ k c, s.calls k = some c → c.start ≤ s.reads.length
  served : ∀ k c, s.calls k = some c → c.returned = true → s.Served c.user_id c.start

/-- What a step does to the tasks: they stay, and go on serving. -/
def Goes (s s' : State) : Prop :=
  ∀ (i : ℕ) (t : Entry), s.tasks[i]? = some t → ∃ t' : Entry, s'.tasks[i]? = some t' ∧ t'.user_id = t.user_id ∧
    ∀ start ≤ s.reads.length, t.Serves start → t'.Serves start

section Steps

variable {s s' : State}

/-- A state goes to itself. -/
theorem Goes.of_eq (h : s'.tasks = s.tasks) : Goes s s' :=
  fun _ t ht => ⟨t, h ▸ ht, rfl, fun _ _ hserves => hserves⟩

/-- A request that is served stays so. -/
theorem State.Served.goes {u start : ℕ} (h : s.Served u start) (hgoes : Goes s s') (hstart : start ≤ s.reads.length) :
    s'.Served u start := by
  obtain ⟨i, t, ht, huser, hserves⟩ := h
  obtain ⟨t', ht', huser', hserves'⟩ := hgoes i t ht
  exact ⟨i, t', ht', huser'.trans huser, hserves' start hstart hserves⟩

/-- The runs, when one goes on. -/
theorem State.go_runs (s : State) (r : ℕ) (run : Option Recompute) (r' : ℕ) :
    (s.go r run).runs r' = if r' = r then run else s.runs r' := Function.update_apply ..

/-- The calls, when one goes on. -/
theorem State.call_calls (s : State) (k : ℕ) (call : Call) (k' : ℕ) :
    (s.call k call).calls k' = if k' = k then some call else s.calls k' := Function.update_apply ..

/-- The tasks that a run writes. -/
theorem getElem?_writeEntry (tasks : List Entry) (i r : ℕ) (write : Entry → Entry) (n : ℕ) :
    (writeEntry tasks i r write)[n]? =
      tasks[n]?.map fun t => if n = i ∧ t.run = some r then write t else t := List.getElem?_mapIdx

/-- The tasks after an enqueue: the ones before it, and perhaps one that is pending. -/
theorem getElem?_enqueue {u : ℕ} {minute : ℤ} {i : ℕ} {t : Entry} (h : (s.enqueue u minute).tasks[i]? = some t) :
    s.tasks[i]? = some t ∨ t = ⟨u, minute, .pending, none, none⟩ := by
  unfold State.enqueue at h
  split at h
  · exact .inl h
  · rcases Nat.lt_or_ge i s.tasks.length with hlt | hge
    · exact .inl ((List.getElem?_append_left hlt).symm.trans h)
    · dsimp only at h
      rw [List.getElem?_append_right hge, List.getElem?_singleton] at h
      split at h
      · exact .inr (Option.some.inj h).symm
      · contradiction

/-- An enqueue keeps the tasks. -/
theorem Goes.enqueue (u : ℕ) (minute : ℤ) : Goes s (s.enqueue u minute) := by
  intro i t ht
  refine ⟨t, ?_, rfl, fun _ _ hserves => hserves⟩
  unfold State.enqueue
  split
  · exact ht
  · exact (List.getElem?_append_left (List.getElem?_eq_some_iff.mp ht).1).trans ht

/-- An enqueue leaves a task that has the key. -/
theorem exists_enqueue (s : State) (u : ℕ) (minute : ℤ) : ∃ (i : ℕ) (t : Entry),
    (s.enqueue u minute).tasks[i]? = some t ∧ t.user_id = u ∧
      (t.status = .pending ∨ t ∈ s.tasks ∧ t.minute = minute) := by
  unfold State.enqueue
  split
  · next h =>
    obtain ⟨t, ht, hkey⟩ := List.any_eq_true.mp h
    rw [Bool.and_eq_true, decide_eq_true_eq, decide_eq_true_eq] at hkey
    obtain ⟨i, hi⟩ := List.getElem?_of_mem ht
    exact ⟨i, t, hi, hkey.1, .inr ⟨ht, hkey.2⟩⟩
  · exact ⟨s.tasks.length, _, List.getElem?_concat_length, rfl, .inl rfl⟩

/-- A step that neither reads nor stores: what it does to the tasks, the runs and the calls decides. -/
theorem State.Inv.move (h : s.Inv) (hgoes : Goes s s') (husers : ∀ u ∈ s.facts.users, u ∈ s'.facts.users)
    (hboard : s'.board_visible = s.board_visible) (hreads : s'.reads = s.reads) (hstores : s'.stores = s.stores)
    (hread : ∀ r i u n ids, s'.runs r = some ⟨i, u, .read n ids⟩ → s.runs r = some ⟨i, u, .read n ids⟩)
    (hended : ∀ (i : ℕ) (t : Entry), s'.tasks[i]? = some t →
      t.status = .pending ∨ t.status = .running ∨ t.read ≠ none)
    (hran : ∀ r i u phase, s'.runs r = some ⟨i, u, phase⟩ → phase ≠ .claimed →
      ∀ t : Entry, s'.tasks[i]? = some t → t.run = some r → t.read ≠ none)
    (hcalls : ∀ k c, s'.calls k = some c → s.calls k = some c ∨
      c.start ≤ s.reads.length ∧ (c.returned = true → s'.Served c.user_id c.start)) : s'.Inv where
  rows row hrow := husers _ (h.rows row (hboard ▸ hrow))
  read r i u n ids hrun := by
    rw [hreads]
    exact h.read r i u n ids (hread r i u n ids hrun)
  latest u n hlatest := by
    unfold State.Latest at hlatest
    unfold State.Holds
    rw [hstores] at hlatest
    rw [hreads, hboard]
    exact h.latest u n hlatest
  ended := hended
  ran := hran
  start k c hc := by
    rw [hreads]
    rcases hcalls k c hc with hc | ⟨hstart, -⟩
    · exact h.start k c hc
    · exact hstart
  served k c hc hreturned := by
    rcases hcalls k c hc with hc | ⟨-, hserved⟩
    · exact (h.served k c hc hreturned).goes hgoes (h.start k c hc)
    · exact hserved hreturned

/-- A run that goes on without reading: the runs that have read are as they were. -/
theorem read_go {r : ℕ} {run : Option Recompute} (hrun : ∀ i u n ids, run ≠ some ⟨i, u, .read n ids⟩) :
    ∀ r' i u n ids, (s.go r run).runs r' = some ⟨i, u, .read n ids⟩ → s.runs r' = some ⟨i, u, .read n ids⟩ := by
  intro r' i u n ids hr
  rw [State.go_runs] at hr
  split at hr
  · exact absurd hr (hrun i u n ids)
  · exact hr

/-- A worker claims a task. -/
theorem State.Inv.claim (h : s.Inv) {i r : ℕ} {t : Entry} (ht : s.tasks[i]? = some t) :
    (State.go { s with tasks := s.tasks.set i { t with status := .running, run := some r, read := none } } r
      (some ⟨i, t.user_id, .claimed⟩)).Inv := by
  obtain ⟨hlt, -⟩ := List.getElem?_eq_some_iff.mp ht
  have hset : ∀ (n : ℕ) (t' : Entry),
      (s.tasks.set i { t with status := .running, run := some r, read := none })[n]? = some t' →
        n = i ∧ t' = { t with status := .running, run := some r, read := none } ∨ n ≠ i ∧ s.tasks[n]? = some t' := by
    intro n t' hn
    rw [List.getElem?_set] at hn
    split at hn
    · next heq =>
      exact .inl ⟨heq.symm, (Option.some.inj hn).symm⟩
    · next hne => exact .inr ⟨fun heq => hne heq.symm, hn⟩
  refine h.move ?_ (fun _ hu => hu) rfl rfl rfl (read_go fun _ _ _ _ => nofun) ?_ ?_ fun k c hc => .inl hc
  · intro n t' hn
    rcases eq_or_ne i n with rfl | hne
    · obtain rfl := Option.some.inj (ht.symm.trans hn)
      exact ⟨_, List.getElem?_set_self hlt, rfl, fun _ _ _ => .inr (.inl ⟨rfl, rfl⟩)⟩
    · exact ⟨t', (List.getElem?_set_ne hne).trans hn, rfl, fun _ _ hserves => hserves⟩
  · intro n t' hn
    rcases hset n t' hn with ⟨-, rfl⟩ | ⟨-, hn⟩
    · exact .inr (.inl rfl)
    · exact h.ended n t' hn
  · intro r' j u phase hrun hphase t' hj hclaim
    rw [State.go_runs] at hrun
    rcases hset j t' hj with ⟨rfl, rfl⟩ | ⟨hne, hj⟩
    · -- The claim is that of the run, which has not read.
      rw [if_pos (Option.some.inj hclaim).symm] at hrun
      obtain rfl := (Recompute.mk.inj (Option.some.inj hrun)).2.2
      exact absurd rfl hphase
    · split at hrun
      · obtain rfl := (Recompute.mk.inj (Option.some.inj hrun)).1
        exact absurd rfl hne
      · exact h.ran r' j u phase hrun hphase t' hj hclaim

/-- A task goes back to the queue. -/
theorem State.Inv.requeue (h : s.Inv) {i : ℕ} {t : Entry} (ht : s.tasks[i]? = some t) :
    State.Inv { s with tasks := s.tasks.set i { t with status := .pending, run := none, read := none } } := by
  obtain ⟨hlt, -⟩ := List.getElem?_eq_some_iff.mp ht
  refine h.move ?_ (fun _ hu => hu) rfl rfl rfl (fun _ _ _ _ _ hrun => hrun) ?_ ?_ fun k c hc => .inl hc
  · intro n t' hn
    rcases eq_or_ne i n with rfl | hne
    · obtain rfl := Option.some.inj (ht.symm.trans hn)
      exact ⟨_, List.getElem?_set_self hlt, rfl, fun _ _ _ => .inl rfl⟩
    · exact ⟨t', (List.getElem?_set_ne hne).trans hn, rfl, fun _ _ hserves => hserves⟩
  · intro n t' hn
    rw [List.getElem?_set] at hn
    split at hn
    · rw [← Option.some.inj hn]
      exact .inl rfl
    · exact h.ended n t' hn
  · intro r j u phase hrun hphase t' hj hclaim
    rw [List.getElem?_set] at hj
    split at hj
    · rw [← Option.some.inj hj] at hclaim
      contradiction
    · exact h.ran r j u phase hrun hphase t' hj hclaim

/-- `member_ids` reads. -/
theorem State.Inv.reads (h : s.Inv) {r i u : ℕ} {read : Read} (hread : read.user_id = u)
    {ids : List ℕ} (hids : ids = read.facts.full read.now u) :
    (State.go { s with
      reads := s.reads ++ [read]
      tasks := writeEntry s.tasks i r (Entry.hasRead s.reads.length) } r
      (some ⟨i, u, .read s.reads.length ids⟩)).Inv := by
  -- The reads before stay, and the entry of the run, if it is still its own, names the new one.
  have hold : ∀ (n : ℕ) (rd : Read), s.reads[n]? = some rd → (s.reads ++ [read])[n]? = some rd := fun n rd hn =>
    (List.getElem?_append_left (List.getElem?_eq_some_iff.mp hn).1).trans hn
  have hentry : ∀ (n : ℕ) (t' : Entry), (writeEntry s.tasks i r (Entry.hasRead s.reads.length))[n]? = some t' →
      ∃ t, s.tasks[n]? = some t ∧ t'.status = t.status ∧ t'.run = t.run ∧
        (t' = t ∧ ¬ (n = i ∧ t.run = some r) ∨ t'.read = some s.reads.length) := by
    intro n t' hn
    rw [getElem?_writeEntry, Option.map_eq_some_iff] at hn
    obtain ⟨t, ht, rfl⟩ := hn
    refine ⟨t, ht, ?_⟩
    split
    · exact ⟨rfl, rfl, .inr rfl⟩
    · next hnot => exact ⟨rfl, rfl, .inl ⟨rfl, hnot⟩⟩
  have hgoes : Goes s (State.go { s with
      reads := s.reads ++ [read]
      tasks := writeEntry s.tasks i r (Entry.hasRead s.reads.length) } r
      (some ⟨i, u, .read s.reads.length ids⟩)) := by
    -- A call that is served by the entry is served still, by the read.
    intro n t ht
    refine ⟨_, (getElem?_writeEntry ..).trans (congrArg (Option.map _) ht), ?_, ?_⟩
    · dsimp only
      split <;> rfl
    · intro start hstart hserves
      dsimp only
      split
      · exact .inr (.inr ⟨s.reads.length, rfl, hstart⟩)
      · exact hserves
  -- What the invariant says, one by one.
  constructor
  case rows => exact h.rows
  case read =>
    intro r' j u' n ids' hrun
    rw [State.go_runs] at hrun
    split at hrun
    · obtain ⟨-, rfl, hphase⟩ := Recompute.mk.inj (Option.some.inj hrun)
      obtain ⟨rfl, rfl⟩ := Phase.read.inj hphase
      exact ⟨read, List.getElem?_concat_length, hread, hids⟩
    · obtain ⟨rd, hrd, hrest⟩ := h.read r' j u' n ids' hrun
      exact ⟨rd, hold n rd hrd, hrest⟩
  case latest =>
    intro u' n hlatest
    obtain ⟨rd, hrd, hrest⟩ := h.latest u' n hlatest
    exact ⟨rd, hold n rd hrd, hrest⟩
  case ended =>
    intro n t' hn
    obtain ⟨t, ht, hstatus, -, hsame | hread⟩ := hentry n t' hn
    · exact hsame.1 ▸ h.ended n t ht
    · exact .inr (.inr (by rw [hread]; nofun))
  case ran =>
    intro r' j u' phase hrun hphase t' hj hclaim
    obtain ⟨t, ht, -, hrunt, ⟨hsame, hnot⟩ | hread⟩ := hentry j t' hj
    · rw [State.go_runs] at hrun
      split at hrun
      · next heq =>
        obtain ⟨rfl, -⟩ := Recompute.mk.inj (Option.some.inj hrun)
        rw [heq, hrunt] at hclaim
        exact absurd ⟨rfl, hclaim⟩ hnot
      · rw [hsame]
        exact h.ran r' j u' phase hrun hphase t ht (hsame ▸ hclaim)
    · rw [hread]
      nofun
  case start =>
    intro k c hc
    have hle := h.start k c hc
    show c.start ≤ (s.reads ++ [read]).length
    rw [List.length_append]
    omega
  case served => exact fun k c hc hreturned => (h.served k c hc hreturned).goes hgoes (h.start k c hc)

/-- `store` commits, in the order of the reads. -/
theorem State.Inv.store (h : s.Inv) {r i u n : ℕ} {ids : List ℕ} {now : ℤ}
    (hrun : s.runs r = some ⟨i, u, .read n ids⟩) (hu : u ∈ s.facts.users) (hlast : ∀ m, (u, m) ∈ s.stores → m ≤ n) :
    (State.go { s with
      board_visible := storeRows s.board_visible u ids now
      recomputes := Function.update s.recomputes u (some now)
      stores := s.stores ++ [(u, n)] } r (some ⟨i, u, .stored⟩)).Inv := by
  constructor
  case rows =>
    intro row hrow
    -- The persons of the rows are those of the rows before, and the one stored for.
    have hmember : row.job_id ∈ members (storeRows s.board_visible u ids now) row.user_id :=
      mem_members.mpr ⟨row, hrow, rfl, rfl⟩
    rw [mem_members_storeRows] at hmember
    split at hmember
    · next heq => exact heq ▸ hu
    · obtain ⟨row', hrow', huser, -⟩ := mem_members.mp hmember
      exact huser ▸ h.rows row' hrow'
  case read =>
    intro r' j u' m ids' hrun'
    rw [State.go_runs] at hrun'
    split at hrun'
    · exact absurd (Recompute.mk.inj (Option.some.inj hrun')).2.2 nofun
    · exact h.read r' j u' m ids' hrun'
  case latest =>
    intro u' m hlatest
    obtain ⟨hmem, hmax⟩ := hlatest
    -- The stored read is the newest of its person's; the others keep theirs.
    rcases eq_or_ne u' u with rfl | hne
    · obtain ⟨rd, hrd, huser, hids⟩ := h.read r i u' n ids hrun
      have hm : m = n := by
        have hge := hmax n (List.mem_append_right _ (List.mem_singleton_self _))
        rcases List.mem_append.mp hmem with hmem | hmem
        · have hle := hlast m hmem
          omega
        · exact (Prod.mk.inj (List.mem_singleton.mp hmem)).2
      refine ⟨rd, hm ▸ hrd, huser, fun id => ?_⟩
      show id ∈ members (storeRows s.board_visible u' ids now) u' ↔ _
      rw [mem_members_storeRows, if_pos rfl, hids]
    · have hmem' : (u', m) ∈ s.stores := by
        rcases List.mem_append.mp hmem with hmem | hmem
        · exact hmem
        · exact absurd (Prod.mk.inj (List.mem_singleton.mp hmem)).1 hne
      obtain ⟨rd, hrd, huser, hids⟩ := h.latest u' m ⟨hmem', fun m' hm' => hmax m' (List.mem_append_left _ hm')⟩
      refine ⟨rd, hrd, huser, fun id => ?_⟩
      show id ∈ members (storeRows s.board_visible u ids now) u' ↔ _
      rw [mem_members_storeRows, if_neg hne]
      exact hids id
  case ended => exact h.ended
  case ran =>
    intro r' j u' phase hrun' hphase t ht hclaim
    rw [State.go_runs] at hrun'
    split at hrun'
    · next heq =>
      obtain ⟨rfl, -⟩ := Recompute.mk.inj (Option.some.inj hrun')
      exact h.ran r i u (.read n ids) hrun nofun t ht (heq ▸ hclaim)
    · exact h.ran r' j u' phase hrun' hphase t ht hclaim
  case start => exact h.start
  case served => exact fun k c hc hreturned => (h.served k c hc hreturned).goes (Goes.of_eq rfl) (h.start k c hc)

/-- A run that has stored ends. -/
theorem State.Inv.finish (h : s.Inv) {r i u : ℕ} (hrun : s.runs r = some ⟨i, u, .stored⟩) :
    (State.go { s with tasks := writeEntry s.tasks i r Entry.done } r none).Inv := by
  -- An entry that is done keeps its person, its run and its read.
  have hdone : ∀ (t : Entry), t.done.user_id = t.user_id ∧ t.done.run = t.run ∧ t.done.read = t.read := by
    intro t
    unfold Entry.done
    split <;> exact ⟨rfl, rfl, rfl⟩
  have hentry : ∀ (n : ℕ) (t' : Entry), (writeEntry s.tasks i r Entry.done)[n]? = some t' →
      ∃ t, s.tasks[n]? = some t ∧ t'.run = t.run ∧ t'.read = t.read ∧
        (t' = t ∨ t.read ≠ none) := by
    intro n t' hn
    rw [getElem?_writeEntry, Option.map_eq_some_iff] at hn
    obtain ⟨t, ht, rfl⟩ := hn
    refine ⟨t, ht, ?_⟩
    split
    · next hclaim =>
      exact ⟨(hdone t).2.1, (hdone t).2.2, .inr (h.ran r i u .stored hrun nofun t (hclaim.1 ▸ ht) hclaim.2)⟩
    · exact ⟨rfl, rfl, .inl rfl⟩
  -- The entry of the run serves whom it served.
  refine h.move ?_ (fun _ hu => hu) rfl rfl rfl (read_go fun _ _ _ _ => nofun) ?_ ?_ fun k c hc => .inl hc
  · intro n t ht
    refine ⟨_, (getElem?_writeEntry ..).trans (congrArg (Option.map _) ht), ?_, ?_⟩
    · dsimp only
      split
      · exact (hdone t).1
      · rfl
    · intro start _ hserves
      dsimp only
      split
      · next hclaim =>
        -- The run has read, so the task serves by that read, or is pending.
        have hread := h.ran r i u .stored hrun nofun t (hclaim.1 ▸ ht) hclaim.2
        rcases hserves with hpending | ⟨-, hnone⟩ | hserves
        · refine .inl ?_
          unfold Entry.done
          rw [hpending, if_neg nofun]
          exact hpending
        · exact absurd hnone hread
        · refine .inr (.inr ?_)
          rw [(hdone t).2.2]
          exact hserves
      · exact hserves
  · intro n t' hn
    obtain ⟨t, ht, -, hread, rfl | hsome⟩ := hentry n t' hn
    · exact h.ended n t' ht
    · exact .inr (.inr (hread ▸ hsome))
  · intro r' j u' phase hrun' hphase t' hj hclaim
    rw [State.go_runs] at hrun'
    split at hrun'
    · contradiction
    · obtain ⟨t, ht, hrunt, hread, -⟩ := hentry j t' hj
      rw [hread]
      exact h.ran r' j u' phase hrun' hphase t ht (hrunt ▸ hclaim)

/-- A run ends without more. -/
theorem State.Inv.crash (h : s.Inv) (r : ℕ) : (s.go r none).Inv := by
  refine h.move (.of_eq rfl) (fun _ hu => hu) rfl rfl rfl (read_go fun _ _ _ _ => nofun) h.ended ?_
    fun k c hc => .inl hc
  intro r' j u phase hrun hphase
  rw [State.go_runs] at hrun
  split at hrun
  · contradiction
  · exact h.ran r' j u phase hrun hphase

/-- A task is enqueued. -/
theorem State.Inv.enqueue (h : s.Inv) (u : ℕ) (minute : ℤ) : (s.enqueue u minute).Inv := by
  have hsame : ∀ {A : Type} (p : State → A), (∀ tasks, p { s with tasks := tasks } = p s) →
      p (s.enqueue u minute) = p s := by
    intro A p hp
    unfold State.enqueue
    split
    · rfl
    · exact hp _
  have hruns : (s.enqueue u minute).runs = s.runs := hsame State.runs fun _ => rfl
  refine h.move (.enqueue u minute) ?_ (hsame State.board_visible fun _ => rfl) (hsame State.reads fun _ => rfl)
    (hsame State.stores fun _ => rfl) ?_ ?_ ?_ ?_
  · rw [hsame State.facts fun _ => rfl]
    exact fun _ hu => hu
  · rw [hruns]
    exact fun _ _ _ _ _ hrun => hrun
  · intro i t ht
    rcases getElem?_enqueue ht with ht | rfl
    · exact h.ended i t ht
    · exact .inl rfl
  · rw [hruns]
    intro r i u' phase hrun hphase t ht hclaim
    rcases getElem?_enqueue ht with ht | rfl
    · exact h.ran r i u' phase hrun hphase t ht hclaim
    · contradiction
  · rw [hsame State.calls fun _ => rfl]
    exact fun k c hc => .inl hc

/-- A call goes on; where it returns, it is served. -/
theorem State.Inv.call (h : s.Inv) {k : ℕ} {call : Call} (hstart : call.start ≤ s.reads.length)
    (hserved : call.returned = true → s.Served call.user_id call.start) : (s.call k call).Inv := by
  refine h.move (.of_eq rfl) (fun _ hu => hu) rfl rfl rfl (fun _ _ _ _ _ hrun => hrun) h.ended h.ran ?_
  intro k' c hc
  rw [State.call_calls] at hc
  split at hc
  · obtain rfl := Option.some.inj hc
    exact .inr ⟨hstart, fun hreturned => hserved hreturned⟩
  · exact .inl hc

/-- A step of a run in which recomputes store in order keeps the invariant. -/
theorem State.Inv.step (h : s.Inv) {a : Act} (hok : InOrder s a) (hs : step s a = some s') : s'.Inv := by
  unfold InOrder at hok
  cases a with
  -- What the members are made of changes, and the tasks that recompute them.
  | write facts now =>
    dsimp only [Visibility.step] at hs
    split at hs
    · next hkeep =>
      obtain rfl := Option.some.inj hs
      exact h.move (.of_eq rfl) hkeep.2 rfl rfl rfl (fun _ _ _ _ _ hrun => hrun) h.ended h.ran fun k c hc => .inl hc
    · contradiction
  | schedule u minute =>
    obtain rfl := Option.some.inj hs
    exact h.enqueue u minute
  | claim i r =>
    dsimp only [Visibility.step] at hs
    split at hs
    · next t ht hrun =>
      split at hs
      · obtain rfl := Option.some.inj hs
        exact h.claim ht
      · contradiction
    · contradiction
  -- The run reads, and stores what it has read in the order of the reads.
  | read r =>
    dsimp only [Visibility.step] at hs
    split at hs
    · next i u hrun =>
      obtain rfl := Option.some.inj hs
      exact h.reads rfl rfl
    · contradiction
  | store r now =>
    dsimp only [Visibility.step] at hs
    split at hs
    · next i u n ids hrun =>
      split at hs
      · next hthere =>
        obtain rfl := Option.some.inj hs
        dsimp only [inOrder] at hok
        rw [hrun] at hok
        refine h.store hrun hthere.1 fun m hm => ?_
        have hle := List.all_eq_true.mp hok (u, m) hm
        simpa using hle
      · contradiction
    · contradiction
  -- The run ends, or another takes its task over.
  | finish r =>
    dsimp only [Visibility.step] at hs
    split at hs
    · next i u hrun =>
      obtain rfl := Option.some.inj hs
      exact h.finish hrun
    · contradiction
  | crash r =>
    obtain rfl := Option.some.inj hs
    exact h.crash r
  | requeue i =>
    dsimp only [Visibility.step] at hs
    split at hs
    · next t ht =>
      split at hs
      · obtain rfl := Option.some.inj hs
        exact h.requeue ht
      · contradiction
    · contradiction
  -- A call looks for a pending task, and enqueues one where there is none.
  | request k u =>
    dsimp only [Visibility.step] at hs
    split at hs
    · obtain rfl := Option.some.inj hs
      exact h.call le_rfl nofun
    · contradiction
  | check k =>
    dsimp only [Visibility.step] at hs
    split at hs
    · next c hc =>
      split at hs
      · contradiction
      next hopen =>
      obtain rfl := Option.some.inj hs
      rw [Bool.or_eq_true, not_or] at hopen
      split
      · next hpending =>
        refine h.call (h.start k c hc) fun _ => ?_
        obtain ⟨t, ht, hkey⟩ := List.any_eq_true.mp hpending
        rw [Bool.and_eq_true, decide_eq_true_eq, decide_eq_true_eq] at hkey
        obtain ⟨i, hi⟩ := List.getElem?_of_mem ht
        exact ⟨i, t, hi, hkey.1, .inl hkey.2⟩
      · exact h.call (h.start k c hc) fun hreturned => absurd hreturned hopen.2
    · contradiction
  | enqueue k minute =>
    dsimp only [Visibility.step] at hs
    split at hs
    · next c hc =>
      split at hs
      · obtain rfl := Option.some.inj hs
        have hinv := h.enqueue c.user_id minute
        have hcall : (s.enqueue c.user_id minute).calls k = some c := by
          unfold State.enqueue
          split <;> exact hc
        refine hinv.call (hinv.start k c hcall) fun _ => ?_
        -- The task with the key of the minute serves: it is new, or has not read before the call.
        obtain ⟨i, t, ht, huser, hpending | ⟨hmem, hminute⟩⟩ := exists_enqueue s c.user_id minute
        · exact ⟨i, t, ht, huser, .inl hpending⟩
        · refine ⟨i, t, ht, huser, ?_⟩
          dsimp only [inOrder] at hok
          rw [hc] at hok
          have hread := List.all_eq_true.mp hok t hmem
          rw [huser, hminute, decide_eq_true rfl, decide_eq_true rfl, Bool.and_self, Bool.not_true, Bool.false_or,
            Option.all_eq_true] at hread
          rcases hn : t.read with _ | n
          · rcases hinv.ended i t ht with hpending | hrunning | hsome
            · exact .inl hpending
            · exact .inr (.inl ⟨hrunning, hn⟩)
            · exact absurd hn hsome
          · exact .inr (.inr ⟨n, hn, of_decide_eq_true (hread n hn)⟩)
      · contradiction
    · contradiction

/-- The queue and the runs before anything happens. The boards may hold anything. -/
structure State.Fresh (s : State) : Prop where
  rows : ∀ row ∈ s.board_visible, row.user_id ∈ s.facts.users
  tasks : s.tasks = []
  runs : ∀ r, s.runs r = none
  calls : ∀ k, s.calls k = none
  stores : s.stores = []

/-- They meet the invariant. -/
theorem State.Fresh.inv (h : s.Fresh) : s.Inv := by
  constructor
  case rows => exact h.rows
  case read =>
    intro r i u n ids hrun
    rw [h.runs r] at hrun
    contradiction
  case latest =>
    intro u n hlatest
    rw [State.Latest, h.stores] at hlatest
    exact absurd hlatest.1 List.not_mem_nil
  case ended =>
    intro i t ht
    rw [h.tasks] at ht
    contradiction
  case ran =>
    intro r i u phase hrun
    rw [h.runs r] at hrun
    contradiction
  case start =>
    intro k c hc
    rw [h.calls k] at hc
    contradiction
  case served =>
    intro k c hc
    rw [h.calls k] at hc
    contradiction

end Steps

/-- In every run in which recomputes store in the order in which they read, and no request meets a task of its minute
that has read before it: the ids that are stored for a person are those that `FULL` gave to the last read of those that
were stored; a call that has returned is served; and wherever the stored ids are those of `FULL`, `FAST` selects what
`FULL` selects, and `across_users` what `FAST` selects for any person. -/
theorem settles_on_newest {s₀ s : State} (h₀ : s₀.Fresh) (h : Run step InOrder s₀ s) :
    (∀ u n, s.Latest u n → s.Holds u n) ∧
    (∀ k c, s.calls k = some c → c.returned = true → s.Served c.user_id c.start) ∧
    (∀ u now, (∀ id, id ∈ members s.board_visible u ↔ id ∈ s.facts.full now u) →
      s.facts.fast s.board_visible u = s.facts.full now u) ∧
    ∀ id, id ∈ s.facts.acrossUsers s.board_visible ↔ ∃ u ∈ s.facts.users, id ∈ s.facts.fast s.board_visible u := by
  have hinv : s.Inv := h.invariant h₀.inv fun _ _ _ hinv hok hs => hinv.step hok hs
  exact ⟨hinv.latest, hinv.served, fun u now => fast_eq_full, mem_acrossUsers hinv.rows⟩

/-- One person, who follows the source of one posting, with or without a filter on it. -/
def oneBoard (filtered : Bool) : Facts where
  users := [1]
  jobs := [{ id := 10, url := 5, source := 3 }]
  uploads := []
  user_jobs := []
  applied := []
  settings _ := {}
  filters := [(1, 77, filtered)]
  verdicts := [⟨5, .closed, true⟩]
  picks := [(1, 3)]
  followed := []
  place _ _ := false
  keyed := List.nodup_singleton 10
  uploaders _ := nofun
  persons _ := nofun

/-- Nothing is queued, and nothing stored. -/
def idle : State where
  facts := oneBoard false
  now := 0
  board_visible := []
  recomputes _ := none
  tasks := []
  runs _ := none
  calls _ := none
  reads := []
  stores := []

/-- Nothing has happened. -/
theorem idle_fresh : idle.Fresh := ⟨fun _ => nofun, rfl, fun _ => rfl, fun _ => rfl, rfl⟩

/-- A person enables a filter while the scheduler's recompute runs, and asks for another. -/
def refreshed : List Act :=
  [.schedule 1 0, .claim 0 0, .read 0, .store 0 0, .write (oneBoard true) 60, .request 0 1, .check 0, .enqueue 0 1,
    .finish 0, .claim 1 1, .read 1, .store 1 60, .finish 1]

/-- The board is empty then, as `FULL` is. -/
theorem settles_on_newest_refreshed : ∃ s, Run step InOrder idle s ∧ s.Holds 1 1 ∧ s.Served 1 1 := by
  have hacts : (runList (guarded step InOrder) idle refreshed).any (fun s =>
      s.stores = [(1, 0), (1, 1)] && (s.calls 0 = some ⟨1, 1, true, true⟩ : Bool)) = true := by
    decide +kernel
  obtain ⟨s, hrun, hs⟩ := exists_run_of_any hacts
  rw [Bool.and_eq_true, decide_eq_true_eq, decide_eq_true_eq] at hs
  have hrun' := run_of_guarded hrun
  obtain ⟨hlatest, hserved, -⟩ := settles_on_newest idle_fresh hrun'
  refine ⟨s, hrun', hlatest 1 1 ?_, hserved 0 _ hs.2 rfl⟩
  unfold State.Latest
  rw [hs.1]
  refine ⟨by decide, fun m hm => ?_⟩
  simp only [List.mem_cons, Prod.mk.injEq, List.not_mem_nil, or_false, true_and] at hm
  omega

/-- A recompute reads, the person enables a filter, and a second recompute reads and stores. Then the first one
stores. -/
def overtaken : List Act :=
  [.schedule 1 0, .claim 0 0, .read 0, .write (oneBoard true) 60, .request 0 1, .check 0, .enqueue 0 1, .claim 1 1,
    .read 1, .store 1 60, .store 0 0]

/-- The second recompute is asked for in the minute of the first, which runs. -/
def sameMinute : List Act :=
  [.schedule 1 0, .claim 0 0, .read 0, .write (oneBoard true) 10, .request 0 1, .check 0, .enqueue 0 0]

/-- The posting that the filter hides is stored after the read that left it out; and a call returns with no task pending
that reads after it. -/
theorem older_read_stored :
    (∃ s, Run step Always idle s ∧ s.Latest 1 1 ∧ ¬ s.Holds 1 1) ∧
      ∃ s c, Run step Always idle s ∧ s.calls 0 = some c ∧ c.returned = true ∧ ¬ s.Served c.user_id c.start := by
  constructor
  · have hacts : (runList step idle overtaken).any (fun s =>
        s.stores = [(1, 1), (1, 0)] && (members s.board_visible 1).contains 10 &&
          s.reads[1]?.any fun read => !(read.facts.full read.now 1).contains 10) = true := by
      decide +kernel
    obtain ⟨s, hrun, hs⟩ := exists_run_of_any hacts
    rw [Bool.and_eq_true, Bool.and_eq_true, decide_eq_true_eq, Option.any_eq_true] at hs
    obtain ⟨⟨hstores, hmember⟩, read, hread, hfull⟩ := hs
    refine ⟨s, hrun, ?_, ?_⟩
    · unfold State.Latest
      rw [hstores]
      refine ⟨by decide, fun m hm => ?_⟩
      simp only [List.mem_cons, Prod.mk.injEq, List.not_mem_nil, or_false, true_and] at hm
      omega
    · rintro ⟨read', hread', -, hids⟩
      obtain rfl := Option.some.inj (hread.symm.trans hread')
      have hin := (hids 10).mp (List.contains_iff_mem.mp hmember)
      rw [← List.contains_iff_mem] at hin
      rw [hin] at hfull
      contradiction
  · have hacts : (runList step idle sameMinute).any (fun s =>
        s.tasks = [⟨1, 0, .running, some 0, some 0⟩] && (s.calls 0 = some ⟨1, 1, true, true⟩ : Bool)) = true := by
      decide +kernel
    obtain ⟨s, hrun, hs⟩ := exists_run_of_any hacts
    rw [Bool.and_eq_true, decide_eq_true_eq, decide_eq_true_eq] at hs
    refine ⟨s, _, hrun, hs.2, rfl, ?_⟩
    rintro ⟨i, t, ht, -, hserves⟩
    rw [hs.1] at ht
    obtain rfl := List.mem_singleton.mp (List.mem_of_getElem? ht)
    -- The only task runs, and read before the call.
    rcases hserves with hpending | ⟨-, hnone⟩ | ⟨n, hn, hle⟩
    · contradiction
    · contradiction
    · have hzero := Option.some.inj hn
      dsimp only at hle
      omega

end JobScripts.Board.Visibility

import JobScripts.Catalog.Observations
import Mathlib.Data.List.Chain

/-!
# What a source's pulls say, one after another

`observe` appends to `source_observations` what a pull says about each posting that differs from what
its source said last. It goes through the postings that the board listed and then through those it left
out: the ones it was the last to admit or to filter, and after a complete pull of an authoritative board
also the ones the source owns that it never observed. `said` is the rule for one posting, and
`kindsOf_observe` says that a pull appends exactly that to the posting's log for the source.

`History` is the table over the pulls of one source, with the observations of other sources between them.
-/

namespace JobScripts.Catalog

open Lib

/-! ## The rule for one posting -/

/-- The kinds that a source observed of a posting, in order. -/
def kindsOf (os : List Observation) (source : String) (job : ℕ) : List Kind :=
  (os.filter fun o => o.source == source && o.job_id == job).map Observation.kind

/-- The posting is dropped by a complete pull of an authoritative board though the source never observed
it: the source owns it, and it is available. -/
def Pull.drops (p : Pull) (available : Option Bool) (last : Option Kind) (j : Job) : Bool :=
  p.absence == some .unlisted && j.source == p.source && available == some true && last.isNone

/-- What a pull says about a posting of which its source said `last`, `none` when that is nothing new. -/
def Pull.said (p : Pull) (available : Option Bool) (last : Option Kind) (j : Job) : Option Kind :=
  match p.postingByUrl j.url with
  | some q => observedKind q.active (p.kept.contains j.url) last
  | none =>
    if p.drops available last j || last.any fun k => k.admitted || k == .filtered then p.absence else none

/-- The latest of some observations whose ids grow is the last of them. -/
theorem latest_eq_getLast? {os : List Observation} (h : (os.map Observation.id).Pairwise (· < ·)) :
    latest os = os.getLast? := by
  induction os using List.reverseRecOn with
  | nil => rfl
  | append_singleton os o ih =>
    rw [List.map_append, List.pairwise_append] at h
    obtain ⟨hos, -, hlt⟩ := h
    rw [latest, List.argmax_concat, List.getLast?_concat]
    specialize ih hos
    rw [latest] at ih
    rw [ih]
    cases hlast : os.getLast? with
    | none => rfl
    | some o' =>
      have hmem : o'.id ∈ os.map Observation.id := List.mem_map_of_mem (List.mem_of_getLast? hlast)
      have hid : o'.id < o.id := hlt o'.id hmem o.id (List.mem_singleton.mpr rfl)
      exact if_pos hid

/-- What a source said last is the end of the posting's log. -/
theorem lastKind_eq_getLast? {os : List Observation} {source : String}
    (h : ((os.filter fun o => o.source == source).map Observation.id).Pairwise (· < ·)) (j : ℕ) :
    lastKind os source j = (kindsOf os source j).getLast? := by
  have hsub : (os.filter fun o => o.source == source && o.job_id == j).Sublist
      (os.filter fun o => o.source == source) := by
    refine List.monotone_filter_right os fun o ho => ?_
    exact (Bool.and_eq_true_iff.mp ho).1
  have hgrow := h.sublist (hsub.map Observation.id)
  rw [lastKind, latest_eq_getLast? hgrow, kindsOf, List.getLast?_map]

/-! ## The rows of a pull -/

/-- The rows of a posting's id are the posting. -/
theorem filter_id_eq_singleton {jobs : List Job} (hnodup : (jobs.map Job.id).Nodup) {j : Job}
    (hj : j ∈ jobs) : (jobs.filter fun j' => j'.id == j.id) = [j] := by
  obtain ⟨before, after, rfl⟩ := List.append_of_mem hj
  rw [List.map_append, List.map_cons, List.nodup_append, List.nodup_cons] at hnodup
  obtain ⟨-, ⟨hafter, -⟩, hbefore⟩ := hnodup
  have hnil : ∀ l : List Job, j.id ∉ l.map Job.id → (l.filter fun j' => j'.id == j.id) = [] := by
    intro l hl
    refine List.filter_eq_nil_iff.mpr fun j' hj' heq => hl ?_
    exact List.mem_map.mpr ⟨j', hj', beq_iff_eq.mp heq⟩
  have hbefore' : j.id ∉ before.map Job.id := fun h => hbefore j.id h j.id List.mem_cons_self rfl
  rw [List.filter_append, List.filter_cons_of_pos (by simp), hnil before hbefore',
    hnil after hafter, List.nil_append]

/-- Of rows made from postings, each under the posting it was made from, those of one posting. -/
theorem filter_filterMap_job {jobs : List Job} (hnodup : (jobs.map Job.id).Nodup) {j : Job} (hj : j ∈ jobs)
    (g : Job → Option Kind) :
    (jobs.filterMap fun j' => (g j').map fun k => (j', k)).filter (fun r => r.1.id == j.id) =
      ((g j).map fun k => (j, k)).toList := by
  have hrow : (fun j' => ((g j').map fun k => (j', k)).filter fun r => r.1.id == j.id) =
      fun j' => if j'.id == j.id then (g j').map fun k => (j', k) else none := by
    funext j'
    cases g j' with
    | none => simp
    | some k => rfl
  rw [List.filter_filterMap, hrow, ← List.filterMap_filter, filter_id_eq_singleton hnodup hj]
  cases hg : g j <;> simp [hg]

/-- A selection of postings under one kind is made of them one by one. -/
theorem map_filter_eq_filterMap (jobs : List Job) (c : Job → Bool) (k : Kind) :
    ((jobs.filter c).map fun j => (j, k)) =
      jobs.filterMap fun j => (if c j then some k else none).map fun k => (j, k) := by
  rw [← List.filterMap_eq_map, List.filterMap_filter]
  refine List.filterMap_congr fun j _ => ?_
  split <;> rfl

/-- A source has said nothing of a posting exactly when no observation of it is the source's. -/
theorem lastKind_isNone (os : List Observation) (source : String) (j : ℕ) :
    (lastKind os source j).isNone = os.all fun o => !(o.job_id == j && o.source == source) := by
  have hnil : (lastKind os source j).isNone = true ↔
      (os.filter fun o => o.source == source && o.job_id == j) = [] := by
    simp [lastKind, latest, List.argmax_eq_none]
  rw [Bool.eq_iff_iff, hnil, List.filter_eq_nil_iff, List.all_eq_true]
  refine forall₂_congr fun o _ => ?_
  simp [or_comm, imp_iff_not_or]

/-- Of a selection of postings under one kind, the row of one posting. -/
theorem filter_map_filter_job {jobs : List Job} (hnodup : (jobs.map Job.id).Nodup) {j : Job} (hj : j ∈ jobs)
    (c : Job → Bool) (k : Kind) :
    ((jobs.filter c).map fun j' => (j', k)).filter (fun r => r.1.id == j.id) =
      if c j then [(j, k)] else [] := by
  rw [map_filter_eq_filterMap, filter_filterMap_job hnodup hj]
  split <;> rfl

/-- The postings that a pull left out and has something to say of: those dropped, then those missing. -/
def leftOut (e : Env) (available : ℕ → Option Bool) (os : List Observation) (p : Pull)
    (last : ℕ → Option Kind) : List Job :=
  let absent := e.jobs.filter fun j => (p.postingByUrl j.url).isNone
  (if p.absence = some .unlisted then
    absent.filter fun j => j.source == p.source && available j.id == some true &&
      os.all fun o => !(o.job_id == j.id && o.source == p.source)
  else []) ++ absent.filter fun j => (last j.id).any fun k => k.admitted || k == .filtered

/-- A posting left out is dropped or missing, and not both: what is dropped was never observed. -/
theorem filter_leftOut {e : Env} (hnodup : (e.jobs.map Job.id).Nodup) {j : Job} (hj : j ∈ e.jobs)
    (available : ℕ → Option Bool) (os : List Observation) (p : Pull) (a : Kind) :
    ((leftOut e available os p (lastKind os p.source)).map fun j' => (j', a)).filter
        (fun r => r.1.id == j.id) =
      if (p.postingByUrl j.url).isNone && (p.drops (available j.id) (lastKind os p.source j.id) j ||
        (lastKind os p.source j.id).any fun k => k.admitted || k == .filtered) then [(j, a)] else [] := by
  simp only [leftOut]
  rw [List.map_append, List.filter_append]
  by_cases ha : p.absence = some .unlisted
  · rw [if_pos ha, List.filter_filter, List.filter_filter, filter_map_filter_job hnodup hj,
      filter_map_filter_job hnodup hj, ← lastKind_isNone]
    cases hlast : lastKind os p.source j.id <;> cases hq : p.postingByUrl j.url <;>
      simp [Pull.drops, ha]
  · rw [if_neg ha, List.map_nil, List.filter_nil, List.nil_append, List.filter_filter,
      filter_map_filter_job hnodup hj]
    have hdrops : p.drops (available j.id) (lastKind os p.source j.id) j = false := by
      simp [Pull.drops, ha]
    rw [hdrops, Bool.false_or, Bool.and_comm]

/-- The rows that a pull inserts of a posting are what it says of it. -/
theorem map_filter_observationRows {e : Env} (hnodup : (e.jobs.map Job.id).Nodup) {j : Job}
    (hj : j ∈ e.jobs) (available : ℕ → Option Bool) (os : List Observation) (p : Pull) :
    ((observationRows e available os p (lastKind os p.source)).filter fun r => r.1 == j.id).map Prod.snd =
      (p.said (available j.id) (lastKind os p.source j.id) j).toList := by
  have hperm : ∀ (rows : List (Job × Kind)) (o : Option Kind),
      rows.filter (fun r => r.1.id == j.id) = (o.map fun k => (j, k)).toList →
        ((((rows.mergeSort fun a b => a.1.url ≤ b.1.url).map fun r => (r.1.id, r.2)).filter
          fun r => r.1 == j.id).map Prod.snd) = o.toList := by
    intro rows o hrows
    rw [List.filter_map, List.map_map]
    have hsort := (List.mergeSort_perm rows fun a b => a.1.url ≤ b.1.url).filter fun r => r.1.id == j.id
    rw [hrows] at hsort
    have heq : (rows.mergeSort fun a b => a.1.url ≤ b.1.url).filter (fun r => r.1.id == j.id) =
        (o.map fun k => (j, k)).toList := by
      cases o with
      | none => exact List.perm_nil.mp hsort
      | some k => exact List.perm_singleton.mp hsort
    show (((rows.mergeSort fun a b => a.1.url ≤ b.1.url).filter fun r => r.1.id == j.id).map _) = _
    rw [heq]
    cases o <;> rfl
  refine hperm _ _ ?_
  have hlisted := filter_filterMap_job hnodup hj fun j => (p.postingByUrl j.url).bind fun q =>
    observedKind q.active (p.kept.contains j.url) (lastKind os p.source j.id)
  simp only [Option.map_bind, Function.comp_def] at hlisted
  rw [List.filter_append, hlisted, Pull.said]
  cases habsence : p.absence with
  | none => cases p.postingByUrl j.url <;> simp
  | some a =>
    have hleft := filter_leftOut hnodup hj available os p a
    simp only [leftOut, habsence] at hleft
    dsimp only
    rw [hleft]
    cases p.postingByUrl j.url with
    | some q => simp
    | none =>
      simp only [Option.bind_none, Option.toList_none, List.nil_append, Option.isNone_none, Bool.true_and]
      split <;> rfl

/-! ## The history -/

/-- The table of observations, and the next id. -/
structure History where
  observations : List Observation
  next : ℕ

/-- The rows that a pull inserts. -/
def History.inserted (h : History) (source : String) (rows : List (ℕ × Kind)) : List Observation :=
  rows.zipIdx.map fun r => ⟨h.next + r.2, r.1.1, source, r.1.2⟩

/-- `observe`, with the catalog and the stored availability that it reads. -/
def History.observe (h : History) (e : Env) (available : ℕ → Option Bool) (p : Pull) : History :=
  let rows := observationRows e available h.observations p (lastKind h.observations p.source)
  ⟨h.observations ++ h.inserted p.source rows, h.next + rows.length⟩

/-- What happens to the history. -/
inductive Event
  /-- A pull, over the catalog as it is then. -/
  | pull (e : Env) (available : ℕ → Option Bool) (p : Pull)
  /-- Others observe, and take ids. -/
  | other (os : List Observation) (next : ℕ)

/-- One step of the history of a source. -/
def History.step (source : String) (h : History) : Event → Option History
  | .pull e available p => if p.source = source then some (h.observe e available p) else none
  | .other os next =>
    if (∀ o ∈ os, o.source ≠ source) ∧ h.next ≤ next then some ⟨h.observations ++ os, next⟩ else none

/-- A pull as the ingest makes it: the ids of the catalog are a key, and the absence is one of three. -/
structure Pull.Proper (e : Env) (p : Pull) : Prop where
  nodup : (e.jobs.map Job.id).Nodup
  absence : p.absence = none ∨ p.absence = some .unlisted ∨ p.absence = some .notListed

/-- Every pull of the history is one that the ingest makes. -/
def Properly (_ : History) : Event → Prop
  | .pull e _ p => p.Proper e
  | .other _ _ => True

/-- A log in which no kind follows itself, no admitted kind follows another, and `appeared` is first. -/
structure WellLogged (kinds : List Kind) : Prop where
  chain : kinds.IsChain fun k k' => k ≠ k' ∧ ¬(k.admitted = true ∧ k'.admitted = true)
  appeared : Kind.appeared ∉ kinds.tail

/-- What holds of the history of a source: its ids grow, and every posting's log is in order. -/
structure History.Inv (source : String) (h : History) : Prop where
  grow : ((h.observations.filter fun o => o.source == source).map Observation.id).Pairwise (· < ·)
  below : ∀ o ∈ h.observations, o.source = source → o.id < h.next
  logs : ∀ j, WellLogged (kindsOf h.observations source j)

variable {source : String} {h h' : History}

/-- Observations of other sources are none of the source's. -/
theorem filter_source_other {os : List Observation} (hos : ∀ o ∈ os, o.source ≠ source) :
    (os.filter fun o => o.source == source) = [] :=
  List.filter_eq_nil_iff.mpr fun o ho heq => hos o ho (beq_iff_eq.mp heq)

/-- The log of a posting after more observations. -/
theorem kindsOf_append (os more : List Observation) (source : String) (j : ℕ) :
    kindsOf (os ++ more) source j = kindsOf os source j ++ kindsOf more source j := by
  simp [kindsOf]

/-- The log of a posting in what a pull inserts. -/
theorem kindsOf_inserted (h : History) (source : String) (rows : List (ℕ × Kind)) (j : ℕ) :
    kindsOf (h.inserted source rows) source j = (rows.filter fun r => r.1 == j).map Prod.snd := by
  have hfst : rows = rows.zipIdx.map Prod.fst := (List.zipIdx_map_fst 0 rows).symm
  conv_rhs => rw [hfst, List.filter_map, List.map_map]
  rw [kindsOf, History.inserted, List.filter_map, List.map_map]
  simp [Function.comp_def]

/-- A pull appends to a posting's log what it says of it. -/
theorem kindsOf_observe {e : Env} (hnodup : (e.jobs.map Job.id).Nodup) {j : Job} (hj : j ∈ e.jobs)
    (available : ℕ → Option Bool) (p : Pull) :
    kindsOf (h.observe e available p).observations p.source j.id =
      kindsOf h.observations p.source j.id ++
        (p.said (available j.id) (lastKind h.observations p.source j.id) j).toList := by
  simp only [History.observe]
  rw [kindsOf_append, kindsOf_inserted, map_filter_observationRows hnodup hj]

/-- The rows that a pull inserts are of postings of the catalog. -/
theorem mem_of_mem_observationRows {e : Env} {available : ℕ → Option Bool} {os : List Observation} {p : Pull}
    {last : ℕ → Option Kind} {r : ℕ × Kind} (hr : r ∈ observationRows e available os p last) :
    ∃ j ∈ e.jobs, j.id = r.1 := by
  obtain ⟨⟨j, k⟩, hrow, rfl⟩ := List.mem_map.mp hr
  rw [List.mem_mergeSort, List.mem_append] at hrow
  refine ⟨j, ?_, rfl⟩
  rcases hrow with hlisted | habsent
  · obtain ⟨j', hj', hg⟩ := List.mem_filterMap.mp hlisted
    obtain ⟨q, -, hg⟩ := Option.bind_eq_some_iff.mp hg
    obtain ⟨k', -, hjk⟩ := Option.map_eq_some_iff.mp hg
    obtain rfl : j' = j := congrArg Prod.fst hjk
    exact hj'
  · split at habsent
    · exact absurd habsent List.not_mem_nil
    · obtain ⟨j', hj', hjk⟩ := List.mem_map.mp habsent
      obtain rfl : j' = j := congrArg Prod.fst hjk
      rcases List.mem_append.mp hj' with hdropped | hmissing
      · split at hdropped
        · exact List.mem_of_mem_filter (List.mem_of_mem_filter hdropped)
        · exact absurd hdropped List.not_mem_nil
      · exact List.mem_of_mem_filter (List.mem_of_mem_filter hmissing)

/-- A pull appends nothing to the log of what is not in the catalog. -/
theorem kindsOf_observe_of_not_mem {e : Env} {j : ℕ} (hj : ∀ j' ∈ e.jobs, j'.id ≠ j)
    (available : ℕ → Option Bool) (p : Pull) :
    kindsOf (h.observe e available p).observations p.source j = kindsOf h.observations p.source j := by
  simp only [History.observe]
  rw [kindsOf_append, kindsOf_inserted]
  have hnil : ((observationRows e available h.observations p (lastKind h.observations p.source)).filter
      fun r => r.1 == j) = [] := by
    refine List.filter_eq_nil_iff.mpr fun r hr heq => ?_
    obtain ⟨j', hj', hid⟩ := mem_of_mem_observationRows hr
    exact hj j' hj' (hid.trans (beq_iff_eq.mp heq))
  rw [hnil, List.map_nil, List.append_nil]

/-! ## What a pull may say after what was said -/

/-- What may follow in a log. -/
structure Follows (last : Option Kind) (k : Kind) : Prop where
  new : last ≠ some k
  admitted : ∀ k' ∈ last, ¬(k'.admitted = true ∧ k.admitted = true)
  first : k = .appeared → last = none

/-- Of a listed posting, what is observed follows. -/
theorem follows_of_observedKind {active kept : Bool} {last : Option Kind} {k : Kind}
    (h : observedKind active kept last = some k) : Follows last k := by
  obtain ⟨hkind, hnew⟩ := Option.filter_eq_some_iff.mp h
  have hne : last ≠ some k := fun heq => by simp [heq] at hnew
  split at hkind
  · obtain rfl := Option.some.inj hkind
    exact ⟨hne, fun _ _ hand => absurd hand.2 nofun, nofun⟩
  · split at hkind
    · obtain rfl := Option.some.inj hkind
      exact ⟨hne, fun _ _ hand => absurd hand.2 nofun, nofun⟩
    · cases hlast : last with
      | none =>
        rw [hlast] at hkind
        obtain rfl := Option.some.inj hkind
        exact ⟨nofun, nofun, fun _ => rfl⟩
      | some k' =>
        rw [hlast] at hkind
        dsimp only at hkind
        split at hkind
        · exact absurd hkind nofun
        · next hnot =>
          obtain rfl := Option.some.inj hkind
          refine ⟨hlast ▸ hne, fun k'' hk'' hand => hnot ?_, nofun⟩
          obtain rfl : k' = k'' := Option.some.inj hk''
          exact hand.1

/-- What a pull says follows what its source said last. -/
theorem follows_of_said {e : Env} {p : Pull} (hp : p.Proper e) {available : Option Bool}
    {last : Option Kind} {j : Job} {k : Kind} (h : p.said available last j = some k) : Follows last k := by
  unfold Pull.said at h
  split at h
  · exact follows_of_observedKind h
  · split at h
    · next hsays =>
      -- An absence is no admitted kind, and only follows nothing, an admitted kind or `filtered`.
      have habsence : k = .unlisted ∨ k = .notListed := by
        rcases hp.absence with hnone | hun | hnot
        · exact absurd (hnone.symm.trans h) nofun
        · exact .inl (Option.some.inj (h.symm.trans hun))
        · exact .inr (Option.some.inj (h.symm.trans hnot))
      have hnot : k.admitted = false ∧ k ≠ .filtered ∧ k ≠ .appeared := by
        rcases habsence with rfl | rfl <;> exact ⟨rfl, nofun, nofun⟩
      obtain ⟨hadm, hfil, hfirst⟩ := hnot
      refine ⟨?_, fun _ _ hand => absurd (hadm.symm.trans hand.2) nofun, fun heq => absurd heq hfirst⟩
      intro hlast
      simp [hlast, Pull.drops, hadm, hfil] at hsays
    · exact absurd h nofun

/-- A log goes on in order. -/
theorem WellLogged.append {kinds : List Kind} (h : WellLogged kinds) {o : Option Kind}
    (ho : ∀ k ∈ o, Follows kinds.getLast? k) : WellLogged (kinds ++ o.toList) := by
  cases o with
  | none => simpa using h
  | some k =>
    have hk := ho k rfl
    refine ⟨?_, ?_⟩
    · refine List.isChain_append.mpr ⟨h.chain, List.isChain_singleton k, fun k' hk' k'' hk'' => ?_⟩
      obtain rfl : k = k'' := by simpa using hk''
      exact ⟨fun heq => hk.new (by rw [← heq]; exact hk'), hk.admitted k' hk'⟩
    · cases kinds with
      | nil => exact List.not_mem_nil
      | cons k₀ kinds =>
        rw [List.cons_append, List.tail_cons, Option.toList_some, List.mem_append, List.mem_singleton]
        rintro (hmem | heq)
        · exact h.appeared hmem
        · exact absurd (hk.first heq.symm) (by simp)

/-! ## Every history of a source -/

/-- The ids that a pull takes grow, from the next one on. -/
theorem map_id_inserted (h : History) (source : String) (rows : List (ℕ × Kind)) :
    (h.inserted source rows).map Observation.id = (List.range' 0 rows.length).map fun i => h.next + i := by
  rw [← List.zipIdx_map_snd, History.inserted, List.map_map, List.map_map]
  rfl

/-- What a pull inserts is of its source. -/
theorem source_of_mem_inserted {rows : List (ℕ × Kind)} {o : Observation}
    (ho : o ∈ h.inserted source rows) : o.source = source := by
  obtain ⟨r, -, rfl⟩ := List.mem_map.mp ho
  rfl

/-- A pull keeps the invariant. -/
theorem History.Inv.observe (hinv : h.Inv source) {e : Env} {available : ℕ → Option Bool} {p : Pull}
    (hsource : p.source = source) (hp : p.Proper e) : (h.observe e available p).Inv source := by
  subst hsource
  set rows := observationRows e available h.observations p (lastKind h.observations p.source) with hrows
  have hall : (h.inserted p.source rows).filter (fun o => o.source == p.source) =
      h.inserted p.source rows :=
    List.filter_eq_self.mpr fun o ho => beq_iff_eq.mpr (source_of_mem_inserted ho)
  have hid : ∀ o ∈ h.inserted p.source rows, h.next ≤ o.id ∧ o.id < h.next + rows.length := by
    intro o ho
    have hmem : o.id ∈ (h.inserted p.source rows).map Observation.id := List.mem_map_of_mem ho
    rw [map_id_inserted] at hmem
    obtain ⟨i, hi, heq⟩ := List.mem_map.mp hmem
    have hlt : i < rows.length := by simpa using hi
    omega
  refine ⟨?_, ?_, fun j => ?_⟩
  · simp only [History.observe]
    rw [List.filter_append, hall, List.map_append, List.pairwise_append]
    refine ⟨hinv.grow, ?_, ?_⟩
    · rw [map_id_inserted, List.pairwise_map]
      exact (List.pairwise_lt_range' 1).imp fun hlt => by omega
    · intro a ha b hb
      obtain ⟨o, ho, rfl⟩ := List.mem_map.mp ha
      obtain ⟨o', ho', rfl⟩ := List.mem_map.mp hb
      obtain ⟨ho, hsrc⟩ := List.mem_filter.mp ho
      have hbelow := hinv.below o ho (beq_iff_eq.mp hsrc)
      have hfrom := (hid o' ho').1
      omega
  · intro o ho hsrc
    rcases List.mem_append.mp ho with hold | hnew
    · exact (hinv.below o hold hsrc).trans_le (Nat.le_add_right _ _)
    · exact (hid o hnew).2
  · by_cases hj : ∃ j' ∈ e.jobs, j'.id = j
    · obtain ⟨j', hj', rfl⟩ := hj
      rw [kindsOf_observe hp.nodup hj', lastKind_eq_getLast? hinv.grow]
      exact (hinv.logs j'.id).append fun k hk => follows_of_said hp hk
    · rw [kindsOf_observe_of_not_mem fun j' hj' heq => hj ⟨j', hj', heq⟩]
      exact hinv.logs j

/-- What others observe keeps the invariant. -/
theorem History.Inv.other (hinv : h.Inv source) {os : List Observation} {next : ℕ}
    (hos : ∀ o ∈ os, o.source ≠ source) (hnext : h.next ≤ next) :
    History.Inv source ⟨h.observations ++ os, next⟩ := by
  have hlog : ∀ j, kindsOf os source j = [] := by
    intro j
    rw [kindsOf, ← List.filter_filter, List.filter_comm, filter_source_other hos]
    rfl
  refine ⟨?_, ?_, fun j => ?_⟩
  · rw [List.filter_append, filter_source_other hos, List.append_nil]
    exact hinv.grow
  · intro o ho hsrc
    rcases List.mem_append.mp ho with hold | hnew
    · exact (hinv.below o hold hsrc).trans_le hnext
    · exact absurd hsrc (hos o hnew)
  · rw [kindsOf_append, hlog, List.append_nil]
    exact hinv.logs j

/-- A history that begins has nothing of the source. -/
def History.Begins (source : String) (h : History) : Prop := ∀ o ∈ h.observations, o.source ≠ source

/-- Every history of the source meets the invariant. -/
theorem inv_of_history (hbegins : h.Begins source) (hrun : Run (History.step source) Properly h h') :
    h'.Inv source := by
  have hstart : h.Inv source := by
    refine ⟨?_, fun o ho hsrc => absurd hsrc (hbegins o ho), fun j => ?_⟩
    · rw [filter_source_other hbegins]
      exact List.Pairwise.nil
    · have hlog : kindsOf h.observations source j = [] := by
        rw [kindsOf, ← List.filter_filter, List.filter_comm, filter_source_other hbegins]
        rfl
      rw [hlog]
      exact ⟨List.isChain_nil, List.not_mem_nil⟩
  refine hrun.invariant hstart fun s a s' hinv hok hstep => ?_
  cases a with
  | pull e available p =>
    dsimp only [History.step] at hstep
    split at hstep
    · next hsource =>
      obtain rfl := Option.some.inj hstep
      exact hinv.observe hsource hok
    · exact absurd hstep nofun
  | other os next =>
    dsimp only [History.step] at hstep
    split at hstep
    · next hos =>
      obtain rfl := Option.some.inj hstep
      exact hinv.other hos.1 hos.2
    · exact absurd hstep nofun

/-- What was observed of a listed posting is not observed again. -/
theorem observedKind_again {active kept : Bool} {last : Option Kind} {k : Kind}
    (h : observedKind active kept last = some k) : observedKind active kept (some k) = none := by
  obtain ⟨hkind, -⟩ := Option.filter_eq_some_iff.mp h
  unfold observedKind
  split at hkind
  · next hactive =>
    obtain rfl := Option.some.inj hkind
    rw [if_pos hactive]
    rfl
  · next hactive =>
    rw [if_neg hactive]
    split at hkind
    · next hkept =>
      obtain rfl := Option.some.inj hkind
      rw [if_pos hkept]
      rfl
    · next hkept =>
      rw [if_neg hkept]
      have hadm : k.admitted = true := by
        split at hkind
        · obtain rfl := Option.some.inj hkind
          rfl
        · split at hkind
          · exact absurd hkind nofun
          · obtain rfl := Option.some.inj hkind
            rfl
      simp [hadm]

/-- A pull again says nothing of a posting: what it said is the last that was said, and where it said
nothing all is as it was. -/
theorem said_again {e : Env} {p : Pull} (hp : p.Proper e) {available available' : Option Bool}
    {last : Option Kind} {j : Job} (hsame : p.said available last j = none → available' = available) :
    p.said available' ((p.said available last j).or last) j = none := by
  cases hsaid : p.said available last j with
  | none => rw [hsame hsaid, Option.none_or, hsaid]
  | some k =>
    rw [Option.some_or]
    have hfollows := follows_of_said hp hsaid
    unfold Pull.said at hsaid ⊢
    split at hsaid
    · exact observedKind_again hsaid
    · split at hsaid
      · have hnot : k.admitted = false ∧ (k == .filtered) = false := by
          rcases hp.absence with hnone | hun | hnot
          · exact absurd (hnone.symm.trans hsaid) nofun
          · obtain rfl := Option.some.inj (hsaid.symm.trans hun)
            exact ⟨rfl, rfl⟩
          · obtain rfl := Option.some.inj (hsaid.symm.trans hnot)
            exact ⟨rfl, rfl⟩
        rw [if_neg]
        simp [Pull.drops, hnot.1, hnot.2]
      · exact absurd hsaid nofun

/-- What the source said last after a pull: what the pull says, and else what it was. -/
theorem lastKind_observe (hinv : h.Inv source) {e : Env} {available : ℕ → Option Bool} {p : Pull}
    (hsource : p.source = source) (hp : p.Proper e) {j : Job} (hj : j ∈ e.jobs) :
    lastKind (h.observe e available p).observations source j.id =
      (p.said (available j.id) (lastKind h.observations source j.id) j).or
        (lastKind h.observations source j.id) := by
  subst hsource
  rw [lastKind_eq_getLast? (hinv.observe rfl hp).grow, kindsOf_observe hp.nodup hj,
    List.getLast?_append, ← lastKind_eq_getLast? hinv.grow]
  cases p.said (available j.id) (lastKind h.observations p.source j.id) j <;> rfl

/-- What is observed of a listed posting, or was already, is by its activity and the pattern. -/
theorem observedKind_or (active kept : Bool) (last : Option Kind) :
    ∃ k, (observedKind active kept last).or last = some k ∧
      if active = false then k = .unlisted else if kept = false then k = .filtered else k.admitted = true := by
  cases hactive : active with
  | false =>
    refine ⟨.unlisted, ?_, rfl⟩
    by_cases hlast : last = some .unlisted
    · rw [hlast]
      rfl
    · have hne : (some Kind.unlisted != last) = true := bne_iff_ne.mpr fun heq => hlast heq.symm
      simp [observedKind, Option.filter, hne]
  | true =>
    cases hkept : kept with
    | false =>
      refine ⟨.filtered, ?_, rfl⟩
      by_cases hlast : last = some .filtered
      · rw [hlast]
        rfl
      · have hne : (some Kind.filtered != last) = true := bne_iff_ne.mpr fun heq => hlast heq.symm
        simp [observedKind, Option.filter, hne]
    | true =>
      cases last with
      | none => exact ⟨.appeared, rfl, rfl⟩
      | some k =>
        by_cases hadm : k.admitted = true
        · refine ⟨k, ?_, hadm⟩
          simp [observedKind, hadm]
        · refine ⟨.reappeared, ?_, rfl⟩
          have hne : (some Kind.reappeared != some k) = true := by
            refine bne_iff_ne.mpr fun heq => hadm ?_
            obtain rfl := Option.some.inj heq
            rfl
          simp [observedKind, Option.filter, hadm, hne]

/-- In every history of a source that its pulls and others make: each posting's log for the source has no
kind twice in a row, no two admitted kinds in a row, and `appeared` only at its beginning. After one more
pull the source's latest observation of a posting that the pull listed is by its activity and the
pattern; of one it left out it is the absence, where that was last admitted or filtered, or never
observed, owned, available and missed by a complete pull of an authoritative board, and else what it was.
And the same pull again appends nothing, the availability of what it said nothing about being the
same. -/
theorem observe_says_what_changed (source : String) {h₀ h : History} (hbegins : h₀.Begins source)
    (hrun : Run (History.step source) Properly h₀ h) :
    (∀ j, WellLogged (kindsOf h.observations source j)) ∧
    ∀ (e : Env) (available : ℕ → Option Bool) (p : Pull), p.source = source → p.Proper e →
      (∀ j ∈ e.jobs, ∀ q, p.postingByUrl j.url = some q →
        ∃ k, lastKind (h.observe e available p).observations source j.id = some k ∧
          if q.active = false then k = .unlisted
          else if j.url ∉ p.kept then k = .filtered else k.admitted = true) ∧
      (∀ j ∈ e.jobs, p.postingByUrl j.url = none →
        lastKind (h.observe e available p).observations source j.id =
          match p.absence with
          | none => lastKind h.observations source j.id
          | some a =>
            if (∃ k, lastKind h.observations source j.id = some k ∧ (k.admitted = true ∨ k = .filtered)) ∨
              (a = .unlisted ∧ j.source = source ∧ available j.id = some true ∧
                lastKind h.observations source j.id = none) then some a
            else lastKind h.observations source j.id) ∧
      (∀ j, (∀ j' ∈ e.jobs, j'.id ≠ j) →
        kindsOf (h.observe e available p).observations source j = kindsOf h.observations source j) ∧
      ∀ available' : ℕ → Option Bool,
        (∀ j, kindsOf (h.observe e available p).observations source j = kindsOf h.observations source j →
          available' j = available j) →
        ((h.observe e available p).observe e available' p).observations =
          (h.observe e available p).observations := by
  have hinv := inv_of_history hbegins hrun
  refine ⟨hinv.logs, fun e available p hsource hp => ⟨?_, ?_, ?_, ?_⟩⟩
  -- A posting that is listed.
  · intro j hj q hq
    rw [lastKind_observe hinv hsource hp hj, Pull.said, hq]
    obtain ⟨k, hk, hkind⟩ := observedKind_or q.active (p.kept.contains j.url)
      (lastKind h.observations source j.id)
    refine ⟨k, hk, ?_⟩
    simpa using hkind
  -- A job that is not.
  · intro j hj hq
    rw [lastKind_observe hinv hsource hp hj, Pull.said, hq]
    dsimp only
    cases habsence : p.absence with
    | none => simp
    | some a =>
      dsimp only
      have hiff : (p.drops (available j.id) (lastKind h.observations source j.id) j ||
          (lastKind h.observations source j.id).any fun k => k.admitted || k == .filtered) = true ↔
          (∃ k, lastKind h.observations source j.id = some k ∧ (k.admitted = true ∨ k = .filtered)) ∨
            (a = .unlisted ∧ j.source = source ∧ available j.id = some true ∧
              lastKind h.observations source j.id = none) := by
        cases hlast : lastKind h.observations source j.id <;>
          simp [Pull.drops, habsence, hsource, and_assoc]
      by_cases hsays : (p.drops (available j.id) (lastKind h.observations source j.id) j ||
          (lastKind h.observations source j.id).any fun k => k.admitted || k == .filtered) = true
      · rw [if_pos hsays, if_pos (hiff.mp hsays), Option.some_or]
      · rw [if_neg hsays, if_neg fun hc => hsays (hiff.mpr hc), Option.none_or]
  -- What the pull is not given.
  · intro j hj
    subst hsource
    exact kindsOf_observe_of_not_mem hj available p
  -- The pull again.
  · intro available' hsame
    subst hsource
    have hnil : observationRows e available' (h.observe e available p).observations p
        (lastKind (h.observe e available p).observations p.source) = [] := by
      refine List.eq_nil_iff_forall_not_mem.mpr fun r hr => ?_
      obtain ⟨j, hj, hid⟩ := mem_of_mem_observationRows hr
      have hmem : r.2 ∈ ((observationRows e available' (h.observe e available p).observations p
          (lastKind (h.observe e available p).observations p.source)).filter
            fun r => r.1 == j.id).map Prod.snd :=
        List.mem_map_of_mem (List.mem_filter.mpr ⟨hr, beq_iff_eq.mpr hid.symm⟩)
      rw [map_filter_observationRows hp.nodup hj, lastKind_observe hinv rfl hp hj, said_again hp] at hmem
      · exact absurd hmem List.not_mem_nil
      · intro hsaid
        refine hsame j.id ?_
        rw [kindsOf_observe hp.nodup hj, hsaid, Option.toList_none, List.append_nil]
    simp only [History.observe] at hnil ⊢
    rw [hnil]
    simp [History.inserted]

/-- A catalog of four available postings of a board. -/
def fourPostings : Env :=
  ⟨[⟨1, "u", "board", true⟩, ⟨2, "v", "board", true⟩, ⟨3, "w", "board", true⟩, ⟨4, "x", "board", true⟩],
    fun _ => some true, true⟩

/-- Another source has observed one of them. -/
def observedElsewhere : History := ⟨[⟨1, 2, "aggregator", .appeared⟩], 2⟩

/-- A pull with three of them: one that the pattern admits, one that it does not, and one that is closed. -/
def partialPull : Pull := ⟨"board", [⟨"u", true⟩, ⟨"v", true⟩, ⟨"w", false⟩], ["u"], none⟩

/-- A complete pull of an authoritative board, with one that the pattern now admits. -/
def completePull : Pull := ⟨"board", [⟨"v", true⟩], ["v"], some .unlisted⟩

/-- A complete pull of a board that is not authoritative, with one that it left out before and one that it never
listed. -/
def laterPull : Pull := ⟨"board", [⟨"u", true⟩, ⟨"x", true⟩], ["u"], some .notListed⟩

/-- Three pulls: of what the first listed, the second leaves out the admitted and finds the filtered admitted, and it
unlists what was never observed. The third finds what was left out again, and leaves out what was admitted. -/
theorem observe_says_what_changed_of_three_pulls :
    ∃ h, Run (History.step "board") Properly observedElsewhere h ∧
      (lastKind h.observations "board" 1 = some .unlisted ∧
        (∃ k, lastKind h.observations "board" 2 = some k ∧ k.admitted = true) ∧
        lastKind h.observations "board" 3 = some .unlisted ∧ lastKind h.observations "board" 4 = some .unlisted) ∧
      let h' := h.observe fourPostings (fun _ => some true) laterPull
      (∃ k, lastKind h'.observations "board" 1 = some k ∧ k.admitted = true) ∧
        lastKind h'.observations "board" 2 = some .notListed ∧
        lastKind h'.observations "board" 3 = some .unlisted ∧ lastKind h'.observations "board" 4 = some .filtered ∧
        (h'.observe fourPostings (fun _ => some true) laterPull).observations = h'.observations := by
  have hbegins : observedElsewhere.Begins "board" := by
    intro o ho
    obtain rfl := List.mem_singleton.mp ho
    decide
  have hpartial : partialPull.Proper fourPostings := ⟨by decide, .inl rfl⟩
  have hcomplete : completePull.Proper fourPostings := ⟨by decide, .inr (.inl rfl)⟩
  have hlater : laterPull.Proper fourPostings := ⟨by decide, .inr (.inr rfl)⟩
  -- The first pull says nothing of what it left out.
  obtain ⟨-, hpull⟩ := observe_says_what_changed "board" hbegins .start
  obtain ⟨hlisted, habsent, -⟩ := hpull fourPostings (fun _ => some true) partialPull rfl hpartial
  set h₁ := observedElsewhere.observe fourPostings (fun _ => some true) partialPull
  obtain ⟨u, hu, hadmitted⟩ := hlisted ⟨1, "u", "board", true⟩ (by decide) ⟨"u", true⟩ (by decide)
  obtain ⟨v, hv, hfiltered⟩ := hlisted ⟨2, "v", "board", true⟩ (by decide) ⟨"v", true⟩ (by decide)
  obtain ⟨w, hw, hclosed⟩ := hlisted ⟨3, "w", "board", true⟩ (by decide) ⟨"w", false⟩ (by decide)
  have hx : lastKind h₁.observations "board" 4 = none := habsent ⟨4, "x", "board", true⟩ (by decide) (by decide)
  replace hadmitted : u.admitted = true := hadmitted
  obtain rfl : v = .filtered := hfiltered
  obtain rfl : w = .unlisted := hclosed
  have hrun₁ : Run (History.step "board") Properly observedElsewhere h₁ :=
    .next (.pull fourPostings (fun _ => some true) partialPull) .start hpartial rfl
  -- The second unlists what it left out and was admitted, and what was never observed.
  obtain ⟨-, hpull⟩ := observe_says_what_changed "board" hbegins hrun₁
  obtain ⟨hlisted, habsent, -⟩ := hpull fourPostings (fun _ => some true) completePull rfl hcomplete
  set h₂ := h₁.observe fourPostings (fun _ => some true) completePull
  have hu₂ : lastKind h₂.observations "board" 1 = some .unlisted :=
    (habsent ⟨1, "u", "board", true⟩ (by decide) (by decide)).trans (if_pos (.inl ⟨u, hu, .inl hadmitted⟩))
  obtain ⟨v₂, hv₂, hadmitted₂⟩ := hlisted ⟨2, "v", "board", true⟩ (by decide) ⟨"v", true⟩ (by decide)
  replace hadmitted₂ : v₂.admitted = true := hadmitted₂
  have hw₂ : lastKind h₂.observations "board" 3 = some .unlisted := by
    refine (habsent ⟨3, "w", "board", true⟩ (by decide) (by decide)).trans ?_
    rw [hw]
    exact ite_self _
  have hx₂ : lastKind h₂.observations "board" 4 = some .unlisted :=
    (habsent ⟨4, "x", "board", true⟩ (by decide) (by decide)).trans (if_pos (.inr ⟨rfl, rfl, rfl, hx⟩))
  have hrun₂ : Run (History.step "board") Properly observedElsewhere h₂ :=
    .next (.pull fourPostings (fun _ => some true) completePull) hrun₁ hcomplete rfl
  -- The third leaves what it does not list, if that was not listed before.
  obtain ⟨-, hpull⟩ := observe_says_what_changed "board" hbegins hrun₂
  obtain ⟨hlisted, habsent, -, hagain⟩ := hpull fourPostings (fun _ => some true) laterPull rfl hlater
  obtain ⟨u₃, hu₃, hadmitted₃⟩ := hlisted ⟨1, "u", "board", true⟩ (by decide) ⟨"u", true⟩ (by decide)
  obtain ⟨x₃, hx₃, hfiltered₃⟩ := hlisted ⟨4, "x", "board", true⟩ (by decide) ⟨"x", true⟩ (by decide)
  obtain rfl : x₃ = .filtered := hfiltered₃
  have hv₃ := (habsent ⟨2, "v", "board", true⟩ (by decide) (by decide)).trans
    (if_pos (.inl ⟨v₂, hv₂, .inl hadmitted₂⟩))
  have hw₃ := (habsent ⟨3, "w", "board", true⟩ (by decide) (by decide)).trans (if_neg ?_)
  · exact ⟨h₂, hrun₂, ⟨hu₂, ⟨v₂, hv₂, hadmitted₂⟩, hw₂, hx₂⟩, ⟨u₃, hu₃, hadmitted₃⟩, hv₃, hw₃.trans hw₂, hx₃,
      hagain (fun _ => some true) fun _ _ => rfl⟩
  · rintro (⟨k, hk, hkind⟩ | ⟨hunlisted, -⟩)
    · obtain rfl := Option.some.inj (hw₂.symm.trans hk)
      exact absurd hkind (by decide)
    · exact absurd hunlisted (by decide)

end JobScripts.Catalog

import JobScripts.Catalog.Listings

/-!
# Which rows are on their source's latest pull

Rows of `listings` are never deleted, and a pull rewrites a row that it lists only when something of it
changed or its `last_seen_at` is older than `refresh_hours`. `LISTED_NOW` says of a row that its
`last_seen_at` is within `refresh_hours` of the newest of its source. Boards share urls, so a row's source
is that of the last pull that wrote it.

The pulls are those of `Listings.step`, statement by statement, with a clock beside them: all that a pull's
transaction writes is of the time at which it began. Pulls of one source may overlap. One that began before
another and completes after it can leave a row that it listed behind the rows of the other
(`listed_beside_newer`), unless it began too late for that, or wrote the row (`InOrder`).

`Recent` is what a pull makes true of what it listed, and what every step keeps until the next pull of its
source completes.
-/

namespace JobScripts.Catalog.Listings

open Lib

variable {V D : Type} [DecidableEq V] [DecidableEq D]

/-! ## Pulls in time -/

/-- A pull that has completed: its source, the time of its transaction, the urls that it listed, and those
whose rows it wrote. -/
structure Pull where
  source : String
  now : ℕ
  listed : List String
  refreshed : List String
  deriving DecidableEq

/-- The table and the processes with a clock, in seconds; of each process the source that it pulls, and when
its transaction began, if it has; and the pulls that have completed, in order. -/
structure Timed (V D : Type) where
  state : State V D
  clock : ℕ
  source : ℕ → String
  began : ℕ → Option ℕ
  completed : List Pull

/-- What happens next. -/
inductive Event (V D : Type)
  /-- Time goes by. -/
  | wait (seconds : ℕ)
  /-- A process begins to record what a source listed. -/
  | pull (k : ℕ) (source : String) (listed : List (Posting V))
  /-- The next statement of a pull's transaction, or its commit. -/
  | statement (k : ℕ)
  /-- Any other step: an upload, a failure, a step of a migration. -/
  | other (a : Act V D)

/-- `now()` in the transaction of a process: when it began, which is now for its first statement. -/
def Timed.now (s : Timed V D) (k : ℕ) : ℕ := (s.began k).getD s.clock

/-- The pull that a process is about to commit. -/
def Timed.ready (s : Timed V D) (k : ℕ) : Option Pull :=
  match s.state.procs k with
  | some (.upserting listed [] written) =>
    some ⟨s.source k, s.now k, listed.map Posting.url, written.map fun w => w.posting.url⟩
  | _ => none

/-- The steps that have events of their own. -/
def Act.ofPull : Act V D → Bool
  | .pull .. | .upsert .. => true
  | _ => false

/-- One step; `record_listings` writes what is listed under the source. -/
def Timed.step (cd : Coding V D) (refresh_hours : ℕ) (s : Timed V D) : Event V D → Option (Timed V D)
  | .wait seconds => some { s with clock := s.clock + seconds }
  | .pull k source listed =>
    if listed.all fun p => p.listing.source == source then
      (Listings.step cd s.state (.pull k listed)).map fun state =>
        { s with
          state := state
          source := Function.update s.source k source
          began := Function.update s.began k none }
    else none
  | .statement k =>
    (Listings.step cd s.state (.upsert k (s.now k) refresh_hours)).map fun state =>
      { s with
        state := state
        began := Function.update s.began k (some (s.now k))
        completed := s.completed ++ (s.ready k).toList }
  | .other a =>
    if a.ofPull then none else (Listings.step cd s.state a).map fun state => { s with state := state }

/-- A new database. -/
def Timed.start (cd : Coding V D) : Timed V D := ⟨(Start.empty cd).state, 0, fun _ => "", fun _ => none, []⟩

/-- The urls that have a row: a pull wrote it. -/
def Timed.urls (s : Timed V D) : List String := s.completed.flatMap Pull.refreshed

/-- The `last_seen_at` of the rows of a source. -/
def Timed.times (s : Timed V D) (source : String) : List ℕ :=
  ((s.urls.filterMap s.state.rows).filter fun l => l.listing.source == source).map Row.last_seen_at

/-- The newest of them. -/
def Timed.newest (s : Timed V D) (source : String) : Option ℕ := (s.times source).max?

/-- `LISTED_NOW`, of a row and a source. -/
def Timed.listedNow (refresh_hours : ℕ) (s : Timed V D) (source : String) (l : Row V D) : Bool :=
  (s.newest source).any fun seen => seen ≤ l.last_seen_at + 3600 * refresh_hours

/-- The latest pull of a source that has completed. -/
def Timed.latest (s : Timed V D) (source : String) : Option Pull :=
  s.completed.reverse.find? fun p => p.source == source

/-- The process is in the transaction of a pull. -/
def Proc.inTransaction : Proc V D → Bool
  | .upserting .. | .changing .. => true
  | _ => false

/-- Pulls of a source complete in the order in which they began: where one commits, no row of the source was
seen after it began, and none is open that began more than `refresh_hours` later. -/
def InOrder (refresh_hours : ℕ) (s : Timed V D) : Event V D → Prop
  | .statement k => ∀ p, s.ready k = some p →
    (∀ url l, s.state.rows url = some l → l.listing.source = p.source → l.last_seen_at ≤ p.now) ∧
    ∀ k' t, k' ≠ k → s.source k' = p.source → (s.state.procs k').any Proc.inTransaction = true →
      s.began k' = some t → t ≤ p.now + 3600 * refresh_hours
  | _ => True

/-! ## The invariant -/

/-- Who saw the row of a url last, and when. -/
def State.seen (s : State V D) (url : String) : Option (String × ℕ) :=
  (s.rows url).map fun l => (l.listing.source, l.last_seen_at)

/-- What the latest pull of a source leaves: every url that it listed has a row, which is within
`refresh_hours` of every row of the source, unless another source has taken it; and every row that it wrote
is as it wrote it, unless another source has taken it. -/
structure Recent (refresh_hours : ℕ) (seen : String → Option (String × ℕ)) (p : Pull) : Prop where
  listed : ∀ url ∈ p.listed, ∃ x, seen url = some x ∧
    (x.1 = p.source → ∀ url' y, seen url' = some y → y.1 = p.source → y.2 ≤ x.2 + 3600 * refresh_hours)
  refreshed : ∀ url ∈ p.refreshed, ∃ x, seen url = some x ∧ (x.1 = p.source → x.2 = p.now)

/-- A transaction of a pull of a source that began at a time, with the rows to come and those written: all
are of the source and listed; and a url that it listed is still to come, or is written, or has a row that is
fresh, unless another source has taken it. -/
structure Open (refresh_hours : ℕ) (source : String) (began : Option ℕ) (seen : String → Option (String × ℕ))
    (listed : List (Posting V)) (todo : List (Incoming V D)) (written : List (Written V D)) : Prop where
  owned : ∀ e ∈ todo, e.posting.listing.source = source ∧ e.posting.url ∈ listed.map Posting.url
  wrote : ∀ w ∈ written, w.posting.url ∈ listed.map Posting.url ∧ w.row.listing.source = source ∧
    began = some w.row.last_seen_at
  covered : ∀ url ∈ listed.map Posting.url, (∃ e ∈ todo, e.posting.url = url) ∨
    (∃ w ∈ written, w.posting.url = url) ∨
    ∃ t x, began = some t ∧ seen url = some x ∧ (x.1 = source → t ≤ x.2 + 3600 * refresh_hours)

/-- What a process relies on. -/
def Proc.Fair (refresh_hours : ℕ) (source : String) (began : Option ℕ)
    (seen : String → Option (String × ℕ)) : Proc V D → Prop
  | .linked listed _ => ∀ p ∈ listed, p.listing.source = source
  | .upserting listed todo written => Open refresh_hours source began seen listed todo written
  | .changing listed e todo written => Open refresh_hours source began seen listed (e :: todo) written
  | _ => True

/-- A row is of a pull of its source that listed and wrote it, and what the latest pull of every source and the
open ones rely on is so. -/
structure Timed.Inv (refresh_hours : ℕ) (s : Timed V D) : Prop where
  seen : ∀ url x, s.state.seen url = some x → ∃ p ∈ s.completed,
    p.source = x.1 ∧ p.now = x.2 ∧ url ∈ p.listed ∧ url ∈ p.refreshed
  latest : ∀ source p, s.latest source = some p → Recent refresh_hours s.state.seen p
  procs : ∀ k proc, s.state.procs k = some proc → proc.Fair refresh_hours (s.source k) (s.began k) s.state.seen

section Steps

variable {cd : Coding V D} {s : State V D} {s' : State V D} {refresh_hours : ℕ} {source : String}
  {began : Option ℕ} {seen seen' : String → Option (String × ℕ)} {listed : List (Posting V)}
  {todo : List (Incoming V D)} {written : List (Written V D)}

/-- The process that a step is of. -/
def Act.proc : Act V D → ℕ
  | .pull k _ | .upload k _ | .upsert k _ _ | .page k _ _ | .resolve k _ | .swap k | .fail k => k

/-- What a statement of a pull does: it commits, passes a row over, finds one changed, or writes it. -/
theorem statement_cases {k now : ℕ} (hs : Listings.step cd s (.upsert k now refresh_hours) = some s') :
    (∃ listed written, s.procs k = some (.upserting listed [] written) ∧ s' = s.commitPull k listed written) ∨
    (∃ listed e todo written l, s.procs k = some (.upserting listed (e :: todo) written) ∧
      view written s.rows e.posting.url = some l ∧ unchanged cd now refresh_hours e l = true ∧
      s' = s.move k (some (.upserting listed todo written))) ∨
    (∃ listed e todo written, s.procs k = some (.upserting listed (e :: todo) written) ∧
      s' = s.move k (some (.changing listed e todo written))) ∨
    ∃ listed e todo written, s.procs k = some (.changing listed e todo written) ∧
      s' = s.move k (some (.upserting listed todo (written ++
        [⟨e.posting, upsert cd now e (view written s.rows e.posting.url)⟩]))) := by
  simp only [Listings.step] at hs
  split at hs
  · next listed written hk =>
    exact .inl ⟨listed, written, hk, (Option.some.inj hs).symm⟩
  · next listed e todo written hk =>
    rw [Option.ite_none_right_eq_some] at hs
    obtain ⟨-, hs⟩ := hs
    split at hs
    · next hany =>
      obtain ⟨l, hl, hsame⟩ := (Option.any_eq_true _ _).mp hany
      exact .inr (.inl ⟨listed, e, todo, written, l, hk, hl, hsame, (Option.some.inj hs).symm⟩)
    · exact .inr (.inr (.inl ⟨listed, e, todo, written, hk, (Option.some.inj hs).symm⟩))
  · next listed e todo written hk =>
    rw [Option.ite_none_right_eq_some] at hs
    exact .inr (.inr (.inr ⟨listed, e, todo, written, hk, (Option.some.inj hs.2).symm⟩))
  · contradiction

/-- Any other step of a process leaves who saw the rows. The process goes on to what no pull relies on, or to
the statements of the pull that it is at. -/
theorem other_cases {a : Act V D} (ha : a.ofPull = false) (hs : Listings.step cd s a = some s') :
    s'.seen = s.seen ∧ ∃ proc, s'.procs = Function.update s.procs a.proc proc ∧ ∀ q, proc = some q →
      (∀ refresh_hours source began seen, q.Fair refresh_hours source began seen) ∨
      ∃ listed links put, s.procs a.proc = some (.linked listed links) ∧
        q = .upserting listed ((cd.incoming put links listed).mergeSort fun a b =>
          a.posting.url ≤ b.posting.url) [] := by
  constructor
  · have hbeside := step_beside (a := a) (fun k now hours heq => by rw [heq] at ha; cases ha) hs
    funext url
    have hmap := congrArg (Option.map fun x : Listing × ℕ => (x.1.source, x.2)) (hbeside url)
    rw [Option.map_map, Option.map_map] at hmap
    exact hmap
  have hnone : ∀ proc : Proc V D, none = some proc → False := fun _ h => Option.some_ne_none _ h.symm
  cases a with
  | pull | upsert => cases ha
  | upload k put =>
    simp only [Listings.step] at hs
    split at hs
    · next listed links hk =>
      obtain rfl := Option.some.inj hs
      exact ⟨_, rfl, fun q hq => .inr ⟨listed, links, put, hk, (Option.some.inj hq).symm⟩⟩
    · split at hs
      · obtain rfl := Option.some.inj hs
        exact ⟨none, rfl, fun q hq => (hnone q hq).elim⟩
      · obtain rfl := Option.some.inj hs
        refine ⟨_, rfl, fun q hq => .inl fun _ _ _ _ => ?_⟩
        rw [← Option.some.inj hq]
        trivial
    · contradiction
  | page k mode urls =>
    simp only [Listings.step] at hs
    split at hs
    · obtain rfl := Option.some.inj hs
      refine ⟨_, rfl, fun q hq => .inl fun _ _ _ _ => ?_⟩
      rw [← Option.some.inj hq]
      trivial
    · contradiction
  | resolve k store =>
    simp only [Listings.step] at hs
    split at hs
    · split at hs
      · obtain rfl := Option.some.inj hs
        exact ⟨none, rfl, fun q hq => (hnone q hq).elim⟩
      · obtain rfl := Option.some.inj hs
        refine ⟨_, rfl, fun q hq => .inl fun _ _ _ _ => ?_⟩
        rw [← Option.some.inj hq]
        trivial
    · contradiction
  | swap k =>
    simp only [Listings.step] at hs
    split at hs
    · split at hs
      all_goals
        obtain rfl := Option.some.inj hs
        refine ⟨_, rfl, fun q hq => .inl fun _ _ _ _ => ?_⟩
        rw [← Option.some.inj hq]
        trivial
    · obtain rfl := Option.some.inj hs
      exact ⟨none, rfl, fun q hq => (hnone q hq).elim⟩
    · contradiction
  | fail k =>
    obtain rfl := Option.some.inj hs
    exact ⟨none, rfl, fun q hq => (hnone q hq).elim⟩

/-- The rows that an upload leaves to be written are those listed. -/
theorem mem_incoming {put : List (D × V) → Option (Link D)} {links : List (D × Link D)} {e : Incoming V D} :
    e ∈ (cd.incoming put links listed).mergeSort (fun a b => a.posting.url ≤ b.posting.url) →
      e.posting ∈ listed := by
  intro he
  obtain ⟨p, hp, rfl⟩ := List.mem_map.mp (List.mem_mergeSort.mp he)
  exact hp

/-- A transaction with all its rows to come. -/
theorem Open.upload {put : List (D × V) → Option (Link D)} {links : List (D × Link D)}
    (h : ∀ p ∈ listed, p.listing.source = source) :
    Open refresh_hours source began seen listed
      ((cd.incoming put links listed).mergeSort fun a b => a.posting.url ≤ b.posting.url) [] := by
  refine ⟨fun e he => ⟨h _ (mem_incoming he), List.mem_map_of_mem (mem_incoming he)⟩,
    fun w hw => absurd hw List.not_mem_nil, fun url hurl => .inl ?_⟩
  obtain ⟨p, hp, rfl⟩ := List.mem_map.mp hurl
  exact ⟨_, List.mem_mergeSort.mpr (List.mem_map_of_mem hp), rfl⟩

omit [DecidableEq V] [DecidableEq D] in
/-- A row that a transaction sees: one that it wrote, or a committed one. -/
theorem view_cases (written : List (Written V D)) (rows : String → Option (Row V D)) (url : String) :
    (∃ w ∈ written, w.posting.url = url ∧ view written rows url = some w.row) ∨
      (∀ w ∈ written, w.posting.url ≠ url) ∧ view written rows url = rows url := by
  unfold view
  cases hfind : written.reverse.find? fun w => w.posting.url == url with
  | none =>
    refine .inr ⟨fun w hw heq => ?_, rfl⟩
    have hno := List.find?_eq_none.mp hfind w (List.mem_reverse.mpr hw)
    exact hno (beq_iff_eq.mpr heq)
  | some w =>
    have hurl := List.find?_some hfind
    rw [beq_iff_eq] at hurl
    exact .inl ⟨w, List.mem_reverse.mp (List.mem_of_find?_eq_some hfind), hurl, rfl⟩

/-- A row that is passed over is of the source, and fresh. -/
theorem fresh_of_unchanged {now : ℕ} {e : Incoming V D} {l : Row V D}
    (h : unchanged cd now refresh_hours e l = true) : now ≤ l.last_seen_at + 3600 * refresh_hours := by
  unfold unchanged at h
  exact of_decide_eq_true (Bool.and_eq_true_iff.mp h).2

omit [DecidableEq V] [DecidableEq D] in
/-- The first statement of a transaction sets its time. -/
theorem Open.begin (h : Open refresh_hours source began seen listed todo written) (clock : ℕ) :
    Open refresh_hours source (some (began.getD clock)) seen listed todo written := by
  cases began with
  | some t => exact h
  | none =>
    refine ⟨h.owned, fun w hw => absurd (h.wrote w hw).2.2.symm (Option.some_ne_none _), fun url hurl => ?_⟩
    rcases h.covered url hurl with htodo | hwritten | ⟨t, x, hbegan, -⟩
    · exact .inl htodo
    · exact .inr (.inl hwritten)
    · exact absurd hbegan.symm (Option.some_ne_none t)

/-- A row is passed over: the transaction wrote it, or it is fresh. -/
theorem Open.pass {now : ℕ} {e : Incoming V D} {l : Row V D}
    (h : Open refresh_hours source (some now) s.seen listed (e :: todo) written)
    (hl : view written s.rows e.posting.url = some l) (hsame : unchanged cd now refresh_hours e l = true) :
    Open refresh_hours source (some now) s.seen listed todo written := by
  refine ⟨fun e' he' => h.owned e' (List.mem_cons_of_mem _ he'), h.wrote, fun url hurl => ?_⟩
  rcases h.covered url hurl with ⟨e', he', rfl⟩ | hdone
  · rcases List.mem_cons.mp he' with rfl | he'
    · rcases view_cases written s.rows e'.posting.url with ⟨w, hw, heq, -⟩ | ⟨-, hview⟩
      · exact .inr (.inl ⟨w, hw, heq⟩)
      · rw [hview] at hl
        refine .inr (.inr ⟨now, (l.listing.source, l.last_seen_at), rfl, ?_, fun _ => fresh_of_unchanged hsame⟩)
        unfold State.seen
        rw [hl]
        rfl
    · exact .inl ⟨e', he', rfl⟩
  · exact .inr hdone

/-- A row is written, under the source and at the time of the transaction. -/
theorem Open.write {now : ℕ} {e : Incoming V D}
    (h : Open refresh_hours source (some now) seen listed (e :: todo) written) (old : Option (Row V D)) :
    Open refresh_hours source (some now) seen listed todo (written ++ [⟨e.posting, upsert cd now e old⟩]) := by
  obtain ⟨hsource, hlisted⟩ := h.owned e List.mem_cons_self
  refine ⟨fun e' he' => h.owned e' (List.mem_cons_of_mem _ he'), fun w hw => ?_, fun url hurl => ?_⟩
  · rcases List.mem_append.mp hw with hw | hw
    · exact h.wrote w hw
    · obtain rfl := List.mem_singleton.mp hw
      cases old with
      | none => exact ⟨hlisted, hsource, rfl⟩
      | some l => exact ⟨hlisted, hsource, rfl⟩
  · rcases h.covered url hurl with ⟨e', he', rfl⟩ | ⟨w, hw, heq⟩ | hfresh
    · rcases List.mem_cons.mp he' with rfl | he'
      · exact .inr (.inl ⟨_, List.mem_append_right _ (List.mem_singleton.mpr rfl), rfl⟩)
      · exact .inl ⟨e', he', rfl⟩
    · exact .inr (.inl ⟨w, List.mem_append_left _ hw, heq⟩)
    · exact .inr (.inr hfresh)

omit [DecidableEq V] [DecidableEq D] in
/-- What others do is not noticed, unless a row becomes the source's that is not fresh. -/
theorem Open.keep (h : Open refresh_hours source began seen listed todo written)
    (hseen : ∀ url x, seen url = some x → ∃ x', seen' url = some x' ∧
      (x' = x ∨ (x'.1 = source → ∀ t, began = some t → t ≤ x'.2 + 3600 * refresh_hours))) :
    Open refresh_hours source began seen' listed todo written := by
  refine ⟨h.owned, h.wrote, fun url hurl => ?_⟩
  rcases h.covered url hurl with htodo | hwritten | ⟨t, x, hbegan, hx, hfresh⟩
  · exact .inl htodo
  · exact .inr (.inl hwritten)
  · obtain ⟨x', hx', hcase⟩ := hseen url x hx
    refine .inr (.inr ⟨t, x', hbegan, hx', fun hsource => ?_⟩)
    rcases hcase with rfl | hlater
    · exact hfresh hsource
    · exact hlater hsource t hbegan

omit [DecidableEq V] [DecidableEq D] in
/-- A process in the transaction of a pull relies on no more than that. -/
theorem Proc.Fair.keep {proc : Proc V D} (h : proc.Fair refresh_hours source began seen)
    (hseen : proc.inTransaction = true → ∀ url x, seen url = some x → ∃ x', seen' url = some x' ∧
      (x' = x ∨ (x'.1 = source → ∀ t, began = some t → t ≤ x'.2 + 3600 * refresh_hours))) :
    proc.Fair refresh_hours source began seen' :=
  match proc, h with
  | .upserting _ _ _, h => Open.keep h (hseen rfl)
  | .changing _ _ _ _, h => Open.keep h (hseen rfl)
  | .linked _ _, h => h
  | .read _ _, _ => trivial
  | .locking _ _, _ => trivial

omit [DecidableEq V] [DecidableEq D] in
/-- A commit leaves the rows that the pull wrote as of the source and its time, and the others as they were. -/
theorem seen_commitPull {k now : ℕ} (h : Open refresh_hours source began s.seen listed todo written)
    (hnow : ∀ t, began = some t → t = now) (url : String) :
    (url ∈ written.map (fun w => w.posting.url) ∧ (s.commitPull k listed written).seen url = some (source, now)) ∨
      url ∉ written.map (fun w => w.posting.url) ∧ (s.commitPull k listed written).seen url = s.seen url := by
  rcases view_cases written s.rows url with ⟨w, hw, rfl, hview⟩ | ⟨hno, hview⟩
  · obtain ⟨-, hsource, hbegan⟩ := h.wrote w hw
    refine .inl ⟨List.mem_map_of_mem hw, ?_⟩
    show (view written s.rows w.posting.url).map _ = _
    rw [hview, Option.map_some, hsource, hnow _ hbegan]
  · refine .inr ⟨fun hmem => ?_, ?_⟩
    · obtain ⟨w, hw, heq⟩ := List.mem_map.mp hmem
      exact hno w hw heq
    · show (view written s.rows url).map _ = _
      rw [hview]
      rfl

omit [DecidableEq V] [DecidableEq D] in
/-- What a pull listed is recent once it commits, where no row of its source was seen after it began. -/
theorem Open.recent {k now : ℕ} (h : Open refresh_hours source began s.seen listed [] written)
    (hnow : ∀ t, began = some t → t = now)
    (hnewest : ∀ url x, s.seen url = some x → x.1 = source → x.2 ≤ now) :
    Recent refresh_hours (s.commitPull k listed written).seen
      ⟨source, now, listed.map Posting.url, written.map fun w => w.posting.url⟩ := by
  have hle : ∀ url x, (s.commitPull k listed written).seen url = some x → x.1 = source → x.2 ≤ now := by
    intro url x hx hsource
    rcases seen_commitPull (k := k) h hnow url with ⟨-, hnew⟩ | ⟨-, hold⟩
    · obtain rfl := Option.some.inj (hnew.symm.trans hx)
      exact le_rfl
    · exact hnewest url x (hold ▸ hx) hsource
  have hnew : ∀ url, url ∈ written.map (fun w => w.posting.url) →
      (s.commitPull k listed written).seen url = some (source, now) := by
    intro url hurl
    rcases seen_commitPull (k := k) h hnow url with ⟨-, hnew⟩ | ⟨hno, -⟩
    · exact hnew
    · exact absurd hurl hno
  refine ⟨fun url hurl => ?_, fun url hurl => ⟨_, hnew url hurl, fun _ => rfl⟩⟩
  rcases h.covered url hurl with ⟨e, he, -⟩ | ⟨w, hw, rfl⟩ | ⟨t, x, hbegan, hx, hfresh⟩
  · exact absurd he List.not_mem_nil
  · exact ⟨_, hnew _ (List.mem_map_of_mem hw), fun _ url' y hy hsource =>
      (hle url' y hy hsource).trans (Nat.le_add_right _ _)⟩
  · rcases seen_commitPull (k := k) h hnow url with ⟨-, hnew⟩ | ⟨-, hold⟩
    · exact ⟨_, hnew, fun _ url' y hy hsource => (hle url' y hy hsource).trans (Nat.le_add_right _ _)⟩
    · obtain rfl := hnow t hbegan
      exact ⟨x, hold.trans hx, fun hsource url' y hy hsource' => (hle url' y hy hsource').trans (hfresh hsource)⟩

/-- What is recent stays so while other sources take rows. -/
theorem Recent.keep {p : Pull} (h : Recent refresh_hours seen p)
    (hseen : ∀ url, seen' url = seen url ∨ ∃ x, seen' url = some x ∧ x.1 ≠ p.source) :
    Recent refresh_hours seen' p := by
  have hback : ∀ url y, seen' url = some y → y.1 = p.source → seen url = some y := by
    intro url y hy hsource
    rcases hseen url with hsame | ⟨x, hx, hother⟩
    · exact hsame.symm.trans hy
    · obtain rfl := Option.some.inj (hx.symm.trans hy)
      exact absurd hsource hother
  constructor
  · intro url hurl
    rcases hseen url with hsame | ⟨x, hx, hother⟩
    · obtain ⟨x, hx, hall⟩ := h.listed url hurl
      exact ⟨x, hsame.trans hx, fun hsource url' y hy hsource' => hall hsource url' y (hback url' y hy hsource') hsource'⟩
    · exact ⟨x, hx, fun hsource => absurd hsource hother⟩
  · intro url hurl
    rcases hseen url with hsame | ⟨x, hx, hother⟩
    · obtain ⟨x, hx, hnow⟩ := h.refreshed url hurl
      exact ⟨x, hsame.trans hx, hnow⟩
    · exact ⟨x, hx, fun hsource => absurd hsource hother⟩

end Steps

/-! ## Steps in time -/

section Timed

variable {cd : Coding V D} {s s' : Timed V D} {refresh_hours : ℕ}

omit [DecidableEq V] [DecidableEq D] in
/-- A process goes on, in a transaction that began or none, and who saw the rows stays as it is. -/
theorem Timed.Inv.go (h : s.Inv refresh_hours) (k : ℕ) (source : String) (began : Option ℕ) {state : State V D}
    {proc : Option (Proc V D)} (hseen : state.seen = s.state.seen)
    (hprocs : state.procs = Function.update s.state.procs k proc)
    (hproc : ∀ q, proc = some q → q.Fair refresh_hours source began s.state.seen) :
    Timed.Inv refresh_hours ⟨state, s.clock, Function.update s.source k source,
      Function.update s.began k began, s.completed⟩ := by
  refine ⟨fun url x hx => ?_, fun source' p hp => ?_, fun k' q hq => ?_⟩
  · rw [hseen] at hx
    exact h.seen url x hx
  · show Recent refresh_hours state.seen p
    rw [hseen]
    exact h.latest source' p hp
  · show q.Fair refresh_hours (Function.update s.source k source k') (Function.update s.began k began k') state.seen
    rw [hseen]
    have hq : state.procs k' = some q := hq
    rw [hprocs] at hq
    by_cases heq : k' = k
    · subst heq
      rw [Function.update_self] at hq ⊢
      rw [Function.update_self]
      exact hproc q hq
    · rw [Function.update_of_ne heq] at hq ⊢
      rw [Function.update_of_ne heq]
      exact h.procs k' q hq

/-- The latest pull of a source, with one more. -/
theorem latest_concat (completed : List Pull) (p : Pull) (source : String) :
    ((completed ++ [p]).reverse.find? fun q => q.source == source) =
      if p.source = source then some p else completed.reverse.find? fun q => q.source == source := by
  rw [List.reverse_append, List.reverse_singleton, List.singleton_append, List.find?_cons]
  by_cases h : p.source = source
  · rw [if_pos h, beq_iff_eq.mpr h]
  · rw [if_neg h, beq_eq_false_iff_ne.mpr h]

omit [DecidableEq V] [DecidableEq D] in
/-- A pull commits. -/
theorem Timed.Inv.commit (h : s.Inv refresh_hours) {k : ℕ} {listed : List (Posting V)}
    {written : List (Written V D)} (hk : s.state.procs k = some (.upserting listed [] written))
    (hinOrder : InOrder refresh_hours s (.statement k)) :
    Timed.Inv refresh_hours ⟨s.state.commitPull k listed written, s.clock, s.source,
      Function.update s.began k (some (s.now k)), s.completed ++ (s.ready k).toList⟩ := by
  have hready : s.ready k =
      some ⟨s.source k, s.now k, listed.map Posting.url, written.map fun w => w.posting.url⟩ := by
    unfold Timed.ready
    rw [hk]
  obtain ⟨hnewest, hothers⟩ := hinOrder _ hready
  have hopen : Open refresh_hours (s.source k) (s.began k) s.state.seen listed [] written := h.procs k _ hk
  have hnow : ∀ t, s.began k = some t → t = s.now k := by
    intro t ht
    unfold Timed.now
    rw [ht]
    rfl
  have hcommit := seen_commitPull (k := k) hopen hnow
  have hmine : ∀ url, url ∈ written.map (fun w => w.posting.url) → url ∈ listed.map Posting.url := by
    intro url hurl
    obtain ⟨w, hw, rfl⟩ := List.mem_map.mp hurl
    exact (hopen.wrote w hw).1
  rw [hready]
  refine ⟨fun url x hx => ?_, fun source p hp => ?_, fun k' proc hproc => ?_⟩
  · rcases hcommit url with ⟨hurl, hnew⟩ | ⟨-, hold⟩
    · obtain rfl := Option.some.inj (hnew.symm.trans hx)
      exact ⟨_, List.mem_append_right _ (List.mem_singleton.mpr rfl), rfl, rfl, hmine url hurl, hurl⟩
    · obtain ⟨p, hp, hrest⟩ := h.seen url x (hold ▸ hx)
      exact ⟨p, List.mem_append_left _ hp, hrest⟩
  · have hp : ((s.completed ++ [_]).reverse.find? fun q => q.source == source) = some p := hp
    rw [latest_concat] at hp
    split at hp
    · -- The pull that commits is the latest of its source.
      obtain rfl := Option.some.inj hp
      refine hopen.recent hnow fun url x hx hsource => ?_
      obtain ⟨l, hl, rfl⟩ := Option.map_eq_some_iff.mp hx
      exact hnewest url l hl hsource
    · next hother =>
      -- The rows that it takes from another source are that source's no longer.
      have hsource := List.find?_some hp
      rw [beq_iff_eq] at hsource
      refine (h.latest source p hp).keep fun url => ?_
      rcases hcommit url with ⟨-, hnew⟩ | ⟨-, hold⟩
      · exact .inr ⟨_, hnew, fun heq => hother (heq.trans hsource)⟩
      · exact .inl hold
  · have hproc : (Function.update s.state.procs k none) k' = some proc := hproc
    by_cases heq : k' = k
    · subst heq
      rw [Function.update_self] at hproc
      exact absurd hproc.symm (Option.some_ne_none proc)
    · rw [Function.update_of_ne heq] at hproc
      show proc.Fair refresh_hours (s.source k') (Function.update s.began k (some (s.now k)) k') _
      rw [Function.update_of_ne heq]
      refine (h.procs k' proc hproc).keep fun htransaction url x hx => ?_
      rcases hcommit url with ⟨-, hnew⟩ | ⟨-, hold⟩
      · refine ⟨_, hnew, .inr fun hsource t ht => ?_⟩
        exact hothers k' t heq hsource.symm (by rw [hproc]; exact htransaction) ht
      · exact ⟨x, hold.trans hx, .inl rfl⟩

omit [DecidableEq V] [DecidableEq D] in
/-- A statement leaves the transaction open. -/
theorem Timed.Inv.stay (h : s.Inv refresh_hours) {k : ℕ} {proc : Proc V D} (hready : s.ready k = none)
    (hproc : proc.Fair refresh_hours (s.source k) (some (s.now k)) s.state.seen) :
    Timed.Inv refresh_hours ⟨s.state.move k (some proc), s.clock, s.source,
      Function.update s.began k (some (s.now k)), s.completed ++ (s.ready k).toList⟩ := by
  have hgo : Timed.Inv refresh_hours ⟨s.state.move k (some proc), _, _, _, _⟩ :=
    h.go k (s.source k) (some (s.now k)) rfl rfl fun q hq => Option.some.inj hq ▸ hproc
  rw [Function.update_eq_self] at hgo
  rw [hready, Option.toList_none, List.append_nil]
  exact hgo

/-- One step keeps the invariant, where the pulls of a source complete in the order in which they began. -/
theorem Timed.Inv.step (h : s.Inv refresh_hours) {e : Event V D} (hinOrder : InOrder refresh_hours s e)
    (hs : s.step cd refresh_hours e = some s') : s'.Inv refresh_hours := by
  cases e with
  | wait seconds =>
    obtain rfl := Option.some.inj hs
    exact ⟨h.seen, h.latest, h.procs⟩
  | pull k source listed =>
    simp only [Timed.step, Option.ite_none_right_eq_some] at hs
    obtain ⟨hsource, hs⟩ := hs
    obtain ⟨state, hstate, rfl⟩ := Option.map_eq_some_iff.mp hs
    simp only [Listings.step] at hstate
    split at hstate
    · obtain rfl := Option.some.inj hstate
      refine h.go k source none (by rfl) (by rfl) fun q hq => ?_
      obtain rfl := Option.some.inj hq
      intro p hp
      exact beq_iff_eq.mp (List.all_eq_true.mp hsource p (List.mem_of_mem_filter hp))
    · contradiction
  | statement k =>
    obtain ⟨state, hstate, rfl⟩ := Option.map_eq_some_iff.mp hs
    rcases statement_cases hstate with ⟨listed, written, hk, rfl⟩ |
      ⟨listed, e, todo, written, l, hk, hl, hsame, rfl⟩ | ⟨listed, e, todo, written, hk, rfl⟩ |
      ⟨listed, e, todo, written, hk, rfl⟩
    · exact h.commit hk hinOrder
    · have hopen := Open.begin (h.procs k _ hk) s.clock
      exact h.stay (by rw [Timed.ready, hk]) (hopen.pass hl hsame)
    · have hopen := Open.begin (h.procs k _ hk) s.clock
      exact h.stay (by rw [Timed.ready, hk]) hopen
    · have hopen := Open.begin (h.procs k _ hk) s.clock
      exact h.stay (by rw [Timed.ready, hk]) (hopen.write _)
  | other a =>
    simp only [Timed.step] at hs
    split at hs
    · contradiction
    · next ha =>
      obtain ⟨state, hstate, rfl⟩ := Option.map_eq_some_iff.mp hs
      obtain ⟨hseen, proc, hprocs, hproc⟩ := other_cases (Bool.not_eq_true _ ▸ ha) hstate
      have hgo := h.go a.proc (s.source a.proc) (s.began a.proc) hseen hprocs fun q hq => ?_
      · rw [Function.update_eq_self, Function.update_eq_self] at hgo
        exact hgo
      · rcases hproc q hq with hany | ⟨listed, links, put, hk, rfl⟩
        · exact hany _ _ _ _
        · exact Open.upload (h.procs a.proc _ hk)

omit [DecidableEq D] in
/-- Nothing has happened. -/
theorem inv_start (cd : Coding V D) : Timed.Inv refresh_hours (Timed.start cd) where
  seen := fun _ x hx => absurd hx.symm (Option.some_ne_none x)
  latest := fun _ p hp => absurd hp.symm (Option.some_ne_none p)
  procs := fun _ proc hproc => absurd hproc.symm (Option.some_ne_none proc)

/-- The process that an event is of. -/
def Event.proc : Event V D → Option ℕ
  | .wait _ => none
  | .pull k _ _ | .statement k => some k
  | .other a => some a.proc

/-- A step of one process leaves the others where they are. -/
theorem procs_of_ne {e : Event V D} (hs : s.step cd refresh_hours e = some s') {k : ℕ} (hk : e.proc ≠ some k) :
    s'.state.procs k = s.state.procs k := by
  cases e with
  | wait seconds =>
    obtain rfl := Option.some.inj hs
    rfl
  | pull k' source listed =>
    simp only [Timed.step, Option.ite_none_right_eq_some] at hs
    obtain ⟨state, hstate, rfl⟩ := Option.map_eq_some_iff.mp hs.2
    simp only [Listings.step] at hstate
    split at hstate
    · obtain rfl := Option.some.inj hstate
      exact Function.update_of_ne (fun heq => hk (congrArg some heq.symm)) _ _
    · contradiction
  | statement k' =>
    obtain ⟨state, hstate, rfl⟩ := Option.map_eq_some_iff.mp hs
    have hne : k ≠ k' := fun heq => hk (congrArg some heq.symm)
    rcases statement_cases hstate with ⟨_, _, -, rfl⟩ | ⟨_, _, _, _, _, -, -, -, rfl⟩ | ⟨_, _, _, _, -, rfl⟩ |
      ⟨_, _, _, _, -, rfl⟩
    all_goals exact Function.update_of_ne hne _ _
  | other a =>
    simp only [Timed.step] at hs
    split at hs
    · contradiction
    · next ha =>
      obtain ⟨state, hstate, rfl⟩ := Option.map_eq_some_iff.mp hs
      obtain ⟨-, proc, hprocs, -⟩ := other_cases (Bool.not_eq_true _ ▸ ha) hstate
      show state.procs k = _
      rw [hprocs]
      exact Function.update_of_ne (fun heq => hk (congrArg some heq.symm)) _ _

/-- `InOrder` of an event of the first `n` processes, where the others are idle. -/
def inOrder (refresh_hours n : ℕ) (s : Timed V D) (e : Event V D) : Bool :=
  e.proc.all (· < n) && match e with
    | .statement k => (s.ready k).all fun p =>
      (s.times p.source).all (· ≤ p.now) &&
        (List.range n).all fun k' => k' == k || s.source k' != p.source ||
          !(s.state.procs k').any Proc.inTransaction || (s.began k').all (· ≤ p.now + 3600 * refresh_hours)
    | _ => true

end Timed

/-! ## Main results -/

section Main

variable {cd : Coding V D} {s : Timed V D} {refresh_hours : ℕ}

omit [DecidableEq V] [DecidableEq D] in
/-- They are those of every row of the source. -/
theorem Timed.Inv.mem_times (h : s.Inv refresh_hours) {source : String} {seen : ℕ} :
    seen ∈ s.times source ↔
      ∃ url l, s.state.rows url = some l ∧ l.listing.source = source ∧ l.last_seen_at = seen := by
  constructor
  · intro hseen
    obtain ⟨l, hrow, rfl⟩ := List.mem_map.mp hseen
    obtain ⟨hrow, hsource⟩ := List.mem_filter.mp hrow
    obtain ⟨url, -, hl⟩ := List.mem_filterMap.mp hrow
    exact ⟨url, l, hl, beq_iff_eq.mp hsource, rfl⟩
  · rintro ⟨url, l, hl, hsource, rfl⟩
    obtain ⟨p, hp, -, -, -, hurl⟩ := h.seen url _ (Option.map_eq_some_iff.mpr ⟨l, hl, rfl⟩)
    refine List.mem_map.mpr ⟨l, List.mem_filter.mpr ⟨?_, beq_iff_eq.mpr hsource⟩, rfl⟩
    exact List.mem_filterMap.mpr ⟨url, List.mem_flatMap.mpr ⟨p, hp, hurl⟩, hl⟩

omit [DecidableEq V] [DecidableEq D] in
/-- `LISTED_NOW` compares a row with every row of its source. -/
theorem Timed.Inv.listedNow_iff (h : s.Inv refresh_hours) {source url : String} {l : Row V D}
    (hl : s.state.rows url = some l) (hsource : l.listing.source = source) :
    s.listedNow refresh_hours source l = true ↔
      ∀ url' l', s.state.rows url' = some l' → l'.listing.source = source →
        l'.last_seen_at ≤ l.last_seen_at + 3600 * refresh_hours := by
  unfold Timed.listedNow Timed.newest
  cases hmax : (s.times source).max? with
  | none =>
    -- The row itself is one of its source's.
    have hself := h.mem_times.mpr ⟨url, l, hl, hsource, rfl⟩
    rw [List.max?_eq_none_iff.mp hmax] at hself
    exact absurd hself List.not_mem_nil
  | some seen =>
    rw [Option.any_some, decide_eq_true_eq, List.max?_le_iff hmax]
    constructor
    · intro hall url' l' hl' hsource'
      exact hall _ (h.mem_times.mpr ⟨url', l', hl', hsource', rfl⟩)
    · intro hall seen' hseen'
      obtain ⟨url', l', hl', hsource', rfl⟩ := h.mem_times.mp hseen'
      exact hall url' l' hl' hsource'

omit [DecidableEq V] [DecidableEq D] in
/-- What a pull listed and no later pull of its source left out is listed by the latest. -/
theorem latest_lists {before after : List Pull} {p : Pull} {url : String}
    (hcompleted : s.completed = before ++ p :: after) (hurl : url ∈ p.listed)
    (hafter : ∀ q ∈ after, q.source = p.source → url ∈ q.listed) :
    ∃ q, s.latest p.source = some q ∧ q.source = p.source ∧ url ∈ q.listed := by
  unfold Timed.latest
  rw [hcompleted, List.reverse_append, List.reverse_cons, List.append_assoc, List.find?_append]
  cases hfind : after.reverse.find? fun q => q.source == p.source with
  | none =>
    refine ⟨p, ?_, rfl, hurl⟩
    rw [Option.none_or, List.singleton_append, List.find?_cons, beq_self_eq_true]
  | some q =>
    have hsource := List.find?_some hfind
    rw [beq_iff_eq] at hsource
    exact ⟨q, rfl, hsource, hafter q (List.mem_reverse.mp (List.mem_of_find?_eq_some hfind)) hsource⟩

/-- Over every interleaving of pulls, uploads and migrations in which the pulls of a source complete in the
order in which they began: from the commit of a pull that lists a url until that of a later pull of the source
that leaves it out, the url has a row, and it satisfies `LISTED_NOW` unless another source has taken it. And
where the latest pull of a source wrote a row that is still the source's, a row of the source that the source's
pulls have not listed for more than `refresh_hours` does not. -/
theorem listedNow_of_pulls (cd : Coding V D) (refresh_hours : ℕ) {s : Timed V D}
    (hrun : Run (Timed.step cd refresh_hours) (InOrder refresh_hours) (Timed.start cd) s) :
    (∀ (before after : List Pull) (p : Pull) (url : String), s.completed = before ++ p :: after →
      url ∈ p.listed → (∀ q ∈ after, q.source = p.source → url ∈ q.listed) →
      ∃ l, s.state.rows url = some l ∧
        (l.listing.source = p.source → s.listedNow refresh_hours p.source l = true)) ∧
    ∀ (source : String) (p : Pull), s.latest source = some p →
      (∃ url ∈ p.refreshed, ∃ l, s.state.rows url = some l ∧ l.listing.source = source) →
      ∀ url l, s.state.rows url = some l → l.listing.source = source →
        (∀ q ∈ s.completed, q.source = source → url ∈ q.listed → q.now + 3600 * refresh_hours < p.now) →
        s.listedNow refresh_hours source l = false := by
  have hinv : s.Inv refresh_hours :=
    hrun.invariant (inv_start cd) fun _ _ _ h hinOrder hs => h.step hinOrder hs
  constructor
  · intro before after p url hcompleted hurl hafter
    obtain ⟨q, hq, hsource, hlists⟩ := latest_lists hcompleted hurl hafter
    obtain ⟨x, hx, hall⟩ := (hinv.latest _ q hq).listed url hlists
    obtain ⟨l, hl, rfl⟩ := Option.map_eq_some_iff.mp hx
    refine ⟨l, hl, fun hmine => (hinv.listedNow_iff hl hmine).mpr fun url' l' hl' hsource' => ?_⟩
    exact hall (hmine.trans hsource.symm) url' (l'.listing.source, l'.last_seen_at)
      (Option.map_eq_some_iff.mpr ⟨l', hl', rfl⟩) (hsource'.trans hsource.symm)
  · rintro source p hp ⟨url', hurl', l', hl', hsource'⟩ url l hl hsource hstopped
    -- The row that the pull wrote is newer than the pulls that listed the other.
    obtain ⟨q, hq, hqsource, hqnow, hqlisted, -⟩ := hinv.seen url _ (Option.map_eq_some_iff.mpr ⟨l, hl, rfl⟩)
    have hold := hstopped q hq (hqsource.trans hsource) hqlisted
    have hpsource := List.find?_some hp
    rw [beq_iff_eq] at hpsource
    obtain ⟨x, hx, hnow⟩ := (hinv.latest source p hp).refreshed url' hurl'
    obtain rfl := Option.some.inj (hx.symm.trans (Option.map_eq_some_iff.mpr ⟨l', hl', rfl⟩))
    have hnew : l'.last_seen_at = p.now := hnow (hsource'.trans hpsource.symm)
    rw [Bool.eq_false_iff, Ne, hinv.listedNow_iff hl hsource]
    intro hall
    have hle := hall url' l' hl' hsource'
    have hqnow : q.now = l.last_seen_at := hqnow
    omega

/-- A run of the first `n` processes that is in order as far as they are concerned is in order. -/
theorem run_inOrder {n : ℕ}
    (hrun : Run (Timed.step cd refresh_hours) (fun s e => inOrder refresh_hours n s e = true) (Timed.start cd) s) :
    Run (Timed.step cd refresh_hours) (InOrder refresh_hours) (Timed.start cd) s := by
  have hin : ∀ (s : Timed V D) e, (s.Inv refresh_hours ∧ ∀ k, n ≤ k → s.state.procs k = none) →
      inOrder refresh_hours n s e = true → InOrder refresh_hours s e := by
    rintro s e ⟨hinv, hidle⟩ he
    cases e with
    | statement k =>
      intro p hp
      obtain ⟨-, he⟩ := Bool.and_eq_true_iff.mp he
      obtain ⟨hnewest, hothers⟩ := Bool.and_eq_true_iff.mp (Option.all_eq_true _ _ |>.mp he p hp)
      refine ⟨fun url l hl hsource => ?_, fun k' t hne hsource hopen ht => ?_⟩
      · have hle := List.all_eq_true.mp hnewest _ (hinv.mem_times.mpr ⟨url, l, hl, hsource, rfl⟩)
        exact of_decide_eq_true hle
      · have hlt : k' < n := by
          by_contra hge
          rw [hidle k' (not_lt.mp hge)] at hopen
          exact Bool.false_ne_true hopen
        have hcase := List.all_eq_true.mp hothers k' (List.mem_range.mpr hlt)
        rw [hopen, ht, beq_eq_false_iff_ne.mpr hne, bne_eq_false_iff_eq.mpr hsource] at hcase
        exact of_decide_eq_true hcase
    | wait | pull | other => trivial
  refine hrun.mono_of_invariant (I := fun s => s.Inv refresh_hours ∧ ∀ k, n ≤ k → s.state.procs k = none)
    ⟨inv_start cd, fun k _ => rfl⟩ (fun s e s' hs he hstep => ?_) hin
  refine ⟨hs.1.step (hin s e hs he) hstep, fun k hk => ?_⟩
  rw [procs_of_ne hstep fun heq => ?_]
  · exact hs.2 k hk
  · obtain ⟨hlt, -⟩ := Bool.and_eq_true_iff.mp he
    rw [heq] at hlt
    exact absurd (of_decide_eq_true hlt) (not_lt.mpr hk)

end Main

/-! ## A board in time -/

/-- A process begins to record what a source listed, while object storage is down. -/
def listing (k : ℕ) (source : String) (urls : List String) : List (Event String String) :=
  [.pull k source (urls.map fun url =>
      { posting "a" with url := url, listing := { (posting "a").listing with source := source } }),
    .other (.upload k fun _ => none)]

/-- The next statements of a pull. -/
def statements (k n : ℕ) : List (Event String String) := List.replicate n (.statement k)

/-- A board lists two postings, and a third that another board takes over while it lists the first two. A day later it
lists one of them, in two pulls that overlap. That one is listed now, the other is not. -/
theorem listedNow_of_pulls_overlapping :
    ∃ s : Timed String String, Run (Timed.step plain 24) (InOrder 24) (Timed.start plain) s ∧
      (∃ l, s.state.rows "v" = some l ∧ l.last_seen_at = 90060 ∧ s.listedNow 24 "board" l = true) ∧
      (∃ l, s.state.rows "u" = some l ∧ l.listing.source = "board" ∧ s.listedNow 24 "board" l = false) ∧
      ∃ l, s.state.rows "w" = some l ∧ l.listing.source = "other" := by
  let events : List (Event String String) := listing 0 "board" ["w"] ++ statements 0 3 ++
    listing 0 "board" ["u"] ++ statements 0 1 ++ listing 1 "other" ["w"] ++ statements 1 3 ++ statements 0 2 ++
    listing 1 "board" ["v"] ++ statements 1 3 ++ [.wait 90000] ++ listing 2 "board" ["v"] ++ statements 2 2 ++
    [.wait 60] ++ listing 3 "board" ["v"] ++ statements 3 1 ++ statements 2 1 ++ statements 3 2
  have hp : (runList (guarded (Timed.step plain 24) fun s e => inOrder 24 4 s e = true)
      (Timed.start plain) events).any (fun s =>
      s.completed == [⟨"board", 0, ["w"], ["w"]⟩, ⟨"other", 0, ["w"], ["w"]⟩, ⟨"board", 0, ["u"], ["u"]⟩,
          ⟨"board", 0, ["v"], ["v"]⟩, ⟨"board", 90000, ["v"], ["v"]⟩, ⟨"board", 90060, ["v"], ["v"]⟩] &&
        (s.state.rows "u").any (fun l => l.listing.source == "board") &&
        (s.state.rows "v").any (fun l => l.listing.source == "board" && l.last_seen_at == 90060) &&
        (s.state.rows "w").any fun l => l.listing.source == "other") = true := by
    decide +kernel
  obtain ⟨s, hrun, hs⟩ := exists_run_of_any hp
  have hrun := run_inOrder (run_of_guarded hrun)
  simp only [Bool.and_eq_true, beq_iff_eq, Option.any_eq_true] at hs
  obtain ⟨⟨⟨hcompleted, lu, hu, husource⟩, lv, hv, hvsource, hvseen⟩, hw⟩ := hs
  obtain ⟨hlisted, hdropped⟩ := listedNow_of_pulls plain 24 hrun
  refine ⟨s, hrun, ?_, ⟨lu, hu, husource, ?_⟩, hw⟩
  · -- It was listed by the first of the two, and not left out by the second.
    obtain ⟨l, hl, hnow⟩ := hlisted [_, _, _, _] [⟨"board", 90060, ["v"], ["v"]⟩] ⟨"board", 90000, ["v"], ["v"]⟩ "v"
      hcompleted (List.mem_singleton.mpr rfl) fun q hq _ => by
        rw [List.mem_singleton.mp hq]
        exact List.mem_singleton.mpr rfl
    obtain rfl := Option.some.inj (hv.symm.trans hl)
    exact ⟨lv, hv, hvseen, hnow hvsource⟩
  · have hlatest : s.latest "board" = some ⟨"board", 90060, ["v"], ["v"]⟩ := by
      unfold Timed.latest
      rw [hcompleted]
      rfl
    refine hdropped "board" _ hlatest ⟨"v", List.mem_singleton.mpr rfl, lv, hv, hvsource⟩ "u" lu hu husource ?_
    rw [hcompleted]
    decide

/-- A pull finds the row of what it lists fresh. Before it commits, another pull of the board, that began after it
and lists another posting only, completes. Once the first completes, what it listed is not listed now. -/
theorem listed_beside_newer :
    ¬ ∀ s : Timed String String, Run (Timed.step plain 24) Always (Timed.start plain) s →
      ∀ (before after : List Pull) (p : Pull) (url : String), s.completed = before ++ p :: after →
        url ∈ p.listed → (∀ q ∈ after, q.source = p.source → url ∈ q.listed) →
        ∃ l, s.state.rows url = some l ∧ (l.listing.source = p.source → s.listedNow 24 p.source l = true) := by
  intro hall
  let events : List (Event String String) := listing 0 "board" ["u"] ++ statements 0 3 ++ [.wait 86390] ++
    listing 1 "board" ["u"] ++ statements 1 1 ++ [.wait 20] ++
    listing 2 "board" ["v"] ++ statements 2 3 ++ statements 1 1
  have hp : (runList (Timed.step plain 24) (Timed.start plain) events).any (fun s =>
      s.completed == [⟨"board", 0, ["u"], ["u"]⟩, ⟨"board", 86410, ["v"], ["v"]⟩, ⟨"board", 86390, ["u"], []⟩] &&
        (s.state.rows "u").all fun l => l.listing.source == "board" && !s.listedNow 24 "board" l) = true := by
    decide +kernel
  obtain ⟨s, hrun, hs⟩ := exists_run_of_any hp
  simp only [Bool.and_eq_true, beq_iff_eq] at hs
  obtain ⟨hcompleted, hrow⟩ := hs
  obtain ⟨l, hl, hlisted⟩ := hall s hrun [_, _] [] ⟨"board", 86390, ["u"], []⟩ "u" hcompleted
    (List.mem_singleton.mpr rfl) fun q hq => absurd hq List.not_mem_nil
  rw [hl, Option.all_some, Bool.and_eq_true, beq_iff_eq, Bool.not_eq_true'] at hrow
  exact Bool.false_ne_true (hrow.2.symm.trans (hlisted hrow.1))

end JobScripts.Catalog.Listings

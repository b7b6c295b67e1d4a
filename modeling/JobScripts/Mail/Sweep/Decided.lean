import JobScripts.Mail.Sweep.Steps

/-!
# A sweep decides what a full one would

A sweep that is over leaves every message up to date (`sweep_decides_what_full_sweep_would`). An edited date is not
seen: `edited_date_not_seen`.
-/

namespace JobScripts.Mail.Sweep

open Lib

/-- Every message that is about a job, holds no application and was not decided by a person has the decision
that `match_message` makes against the applications as they are. -/
def State.UpToDate (R : Reader) (s : State) : Prop :=
  ∀ id m e, s.jobEvent id = some (m, e) → s.unattached id = true →
    (∀ c, s.current id = some c → c.actor_user_id = none) →
    ∃ c, s.current id = some c ∧ c.verdict = verdictOf (R.decision s.applications m e)

/-- A sweep without a limit is over with matching, or had nothing to match. -/
def State.isOver (s : State) (k : ℕ) : Bool :=
  (s.sweeps k).any fun run => !run.partly && match run.phase with
    | .matched | .skipped => true
    | _ => false

section Decided

variable {R : Reader} {s s' : State}

/-- Every open message is right, so the mail is up to date. -/
theorem upToDate_of_right
    (h : ∀ id v, s.isOpen id = true → s.wanted R id = some v → s.Right R id) : s.UpToDate R := by
  intro id m e hje hunattached hactor
  have hopen : s.isOpen id = true := by
    unfold State.unattached at hunattached
    unfold State.isOpen
    rw [Option.all_eq_true] at hunattached ⊢
    intro c hc
    rw [Bool.and_eq_true, Option.isNone_iff_eq_none (o := c.actor_user_id)]
    exact ⟨hunattached c hc, hactor c hc⟩
  have hwanted : s.wanted R id = some (verdictOf (R.decision s.applications m e)) := by
    unfold State.wanted
    rw [hje]
    rfl
  obtain ⟨c, hc, hv⟩ := h id _ hopen hwanted
  rw [hwanted] at hv
  exact ⟨c, hc, (Option.some.inj hv).symm⟩

/-- What a full sweep would select from mail that is up to date, it would not decide otherwise. -/
theorem State.UpToDate.full (h : s.UpToDate R) (hlisted : ∀ id m, s.messages id = some m → m.id = id) :
    ∀ row ∈ s.pendingRows none none, goesOn (rowDecision R s.applications row) (s.current row.id) = false := by
  intro row hrow
  have hrow : row ∈ s.ids.filterMap (s.selected none) := List.mem_mergeSort.mp hrow
  obtain ⟨id, -, hsel⟩ := List.mem_filterMap.mp hrow
  unfold State.selected at hsel
  rw [Option.ite_none_right_eq_some, Bool.and_eq_true] at hsel
  obtain ⟨⟨hunattached, -⟩, hsel⟩ := hsel
  obtain ⟨⟨m, e⟩, hje, rfl⟩ := Option.map_eq_some_iff.mp hsel
  have hid : m.id = id := by
    obtain ⟨m', hm, he⟩ := Option.bind_eq_some_iff.mp hje
    obtain ⟨e', -, heq⟩ := Option.map_eq_some_iff.mp he
    obtain rfl := congrArg Prod.fst heq
    exact hlisted id _ hm
  -- `record` goes on only where no person decided and the verdict is another.
  by_contra hgo
  rw [Bool.not_eq_false] at hgo
  unfold goesOn at hgo
  rw [Option.all_eq_true] at hgo
  have hcur : s.current (rowOf m e).id = s.current id := congrArg s.current hid
  rw [hcur] at hgo
  obtain ⟨c, hc, hv⟩ := h id m e hje hunattached fun c hc => by
    have hboth := hgo c hc
    rw [Bool.and_eq_true, Option.isNone_iff_eq_none] at hboth
    exact hboth.1
  have hboth := hgo c hc
  rw [Bool.and_eq_true, bne_iff_ne] at hboth
  exact hboth.2 hv

/-- In every run whose writes the sweeps see, a sweep without a limit that ends its matching stage, or finds
that nothing has changed, leaves the mail up to date; a full sweep would record nothing. -/
theorem sweep_decides_what_full_sweep_would (h : Lib.Run (step R) (Calm R) State.empty s) {k : ℕ} {a : Act}
    (ha : a = .endStage k ∨ ∃ other, a = .look k other) (hs : step R s a = some s')
    (hover : s'.isOver k = true) :
    s'.UpToDate R ∧ ∀ row ∈ s'.pendingRows none none,
      goesOn (rowDecision R s'.applications row) (s'.current row.id) = false := by
  have hinv := State.Inv.run h
  suffices hup : s'.UpToDate R from
    ⟨hup, hup.full fun id m hm => ((hinv.step (by rcases ha with rfl | ⟨other, rfl⟩ <;> trivial) hs).listed
      id m hm).2⟩
  rcases ha with rfl | ⟨other, rfl⟩ <;> simp only [step] at hs <;> split at hs
  · next t st limit hk =>
    obtain rfl := Option.some.inj hs
    have hlimit : limit.any (· ≠ 0) = false := by
      simpa [State.isOver, State.goOn, SweepRun.partly] using hover
    exact upToDate_of_right (hinv.right_of_endStage hk hlimit)
  · contradiction
  · next t st limit since hk =>
    obtain rfl := Option.some.inj hs
    cases hchanged : s.changedSince since other with
    | true => simp [State.isOver, State.goOn, hchanged] at hover
    | false => exact upToDate_of_right (hinv.right_of_unchanged (.inr ⟨k, _, hk, rfl⟩) hchanged)
  · contradiction

end Decided

/-! ## Runs -/

/-- A write beside no sweep is seen when every message that it leaves with a decision is newer than the last
sweep. -/
theorem noticed_of_idle {R : Reader} {s s' : State} (hidle : ∀ k, s.sweeps k = none)
    (hnewer : ∀ id v, s'.wanted R id = some v → s'.newer id s.lastSweepStart = true) : Noticed R s s' := by
  refine ⟨fun id v _ hwanted => .inr fun t ht => ?_, fun k run id v hk => ?_, fun k run row v hk => ?_,
    fun k run row hk => ?_⟩
  · rcases ht with rfl | ⟨k, run, hk, -⟩
    · exact hnewer id v hwanted
    · rw [hidle k] at hk
      contradiction
  all_goals
    rw [hidle k] at hk
    contradiction

/-- The sweep of an action. -/
def Act.sweep : Act → Option ℕ
  | .start k _ _ _ | .since k | .look k _ | .detach k | .floors k | .lower k | .select k | .take k | .ask k
  | .check k | .append k _ | .endStage k | .finish k | .leave k => some k
  | .create _ | .edit _ _ | .arrive _ | .classify _ _ | .decide _ _ => none

/-- A way to meet the condition with one message and one sweep at a time: nothing is written beside a sweep,
no date is lowered, and what is written is newer than the last sweep. -/
def calm (R : Reader) (s : State) (a : Act) : Bool :=
  a.sweep.all (· = 0) &&
  match a with
  | .create _ | .edit _ _ | .classify _ _ => (s.sweeps 0).isNone && (step R s a).all fun s' =>
      (s'.wanted R 1).isNone || s'.newer 1 s.lastSweepStart
  | .arrive m => m.id = 1 && m.event.isNone && (s.sweeps 0).isNone
  | .lower _ => false
  | _ => true

/-- There is one message, and one sweep at a time. -/
def Single (s : State) : Prop := (∀ k, k ≠ 0 → s.sweeps k = none) ∧ ∀ id, id ≠ 1 → s.messages id = none

/-- It stays so. -/
theorem single_step {R : Reader} {s s' : State} {a : Act} (h : Single s) (hok : calm R s a = true)
    (hs : step R s a = some s') : Single s' := by
  obtain ⟨hsweeps, hmessages⟩ := h
  have hup : ∀ k₀ (run : Option SweepRun), k₀ = 0 → ∀ k, k ≠ 0 →
      Function.update s.sweeps k₀ run k = none := by
    rintro k₀ run rfl k hk
    rw [Function.update_of_ne hk]
    exact hsweeps k hk
  have hmsg : ∀ id₀ (m : Option Message), id₀ = 1 → ∀ id, id ≠ 1 →
      Function.update s.messages id₀ m id = none := by
    rintro id₀ m rfl id hid
    rw [Function.update_of_ne hid]
    exact hmessages id hid
  unfold calm at hok
  rw [Bool.and_eq_true] at hok
  have hlt := hok.1
  cases a <;> simp only [Act.sweep, Option.all_some, decide_eq_true_eq] at hlt <;> simp only [step] at hs
  case create | edit =>
    obtain rfl := Option.some.inj hs
    exact ⟨hsweeps, hmessages⟩
  case arrive m =>
    split at hs
    · obtain rfl := Option.some.inj hs
      have hid : m.id = 1 := by simpa using (Bool.and_eq_true _ _ |>.mp (Bool.and_eq_true _ _ |>.mp hok.2).1).1
      exact ⟨hsweeps, hmsg _ _ hid⟩
    · contradiction
  case classify id e =>
    split at hs
    · next m hm =>
      obtain rfl := Option.some.inj hs
      have hid : id = 1 := by
        by_contra hne
        rw [hmessages id hne] at hm
        contradiction
      exact ⟨hsweeps, hmsg _ _ hid⟩
    · contradiction
  case decide id st =>
    rw [Option.ite_none_right_eq_some] at hs
    obtain rfl := Option.some.inj hs.2
    exact ⟨hsweeps, hmessages⟩
  case leave =>
    obtain rfl := Option.some.inj hs
    exact ⟨hup _ _ hlt, hmessages⟩
  all_goals
    repeat' split at hs
    all_goals first
      | contradiction
      | (obtain rfl := Option.some.inj hs; exact ⟨hup _ _ hlt, hmessages⟩)

/-- It does meet the condition. -/
theorem calm_condition {R : Reader} {s : State} {a : Act} (h : Single s) (hok : calm R s a = true) :
    Calm R s a := by
  -- The state after the write has one message too, with no sweep beside.
  have hwrite : ∀ s', step R s a = some s' → (s.sweeps 0).isNone = true →
      ((s'.wanted R 1).isNone || s'.newer 1 s.lastSweepStart) = true → Noticed R s s' := by
    intro s' hs hidle hnewer
    refine noticed_of_idle (fun k => ?_) fun id v hwanted => ?_
    · by_cases hk : k = 0
      · rw [hk]
        exact Option.isNone_iff_eq_none.mp hidle
      · exact h.1 k hk
    · have hid : id = 1 := by
        by_contra hne
        unfold State.wanted State.jobEvent at hwanted
        rw [(single_step h hok hs).2 id hne] at hwanted
        contradiction
      subst hid
      rw [hwanted, Option.isNone_some, Bool.false_or] at hnewer
      exact hnewer
  have hok' := hok
  unfold calm at hok'
  rw [Bool.and_eq_true] at hok'
  cases a with
  | create | edit | classify =>
    intro s' hs
    have hcond := hok'.2
    dsimp only at hcond
    rw [Bool.and_eq_true, hs, Option.all_some] at hcond
    exact hwrite s' hs hcond.1 hcond.2
  | arrive m =>
    intro s' hs
    have hcond := hok'.2
    dsimp only at hcond
    rw [Bool.and_eq_true, Bool.and_eq_true, decide_eq_true_eq] at hcond
    obtain ⟨⟨hid, hevent⟩, hidle⟩ := hcond
    refine hwrite s' hs hidle ?_
    -- A message without an event is not decided.
    simp only [step] at hs
    split at hs
    · obtain rfl := Option.some.inj hs
      unfold State.wanted State.jobEvent
      dsimp only
      rw [← hid, Function.update_self, Option.bind_some, Option.isNone_iff_eq_none.mp hevent]
      rfl
    · contradiction
  | lower => exact absurd hok'.2 Bool.false_ne_true
  | decide | start | since | look | detach | floors | select | take | ask | check | append | endStage
  | finish | leave => trivial

/-- An application to Acme. -/
def acme (applied_at : Option ℕ) (created_at : ℕ) : Application :=
  ⟨7, some "Acme", some "Engineer", none, "tracker", applied_at, created_at⟩

/-- An acknowledgement of an application to Acme, and its event. -/
def mail : List Act :=
  [.arrive ⟨1, none, some 100, none, none⟩, .classify 1 ⟨"acknowledgement", some "Acme, Inc.", none, 2⟩]

/-- A sweep up to its selection. -/
def opening (task_id started_at : ℕ) : List Act :=
  [.start 0 task_id started_at none, .since 0, .look 0 false, .detach 0, .floors 0, .select 0]

/-- The first sweep finds no application, and records that at 11. -/
def firstSweep : List Act :=
  opening 1 10 ++ [.take 0, .ask 0, .ask 0, .ask 0, .check 0, .append 0 11, .endStage 0, .finish 0]

/-- An application is created between two sweeps: the second one selects the message and attaches it. -/
theorem sweep_decides_what_full_sweep_would_created :
    ∃ s s' : State, Run (step asciiReader) (Calm asciiReader) State.empty s ∧
      step asciiReader s (.endStage 0) = some s' ∧ s'.isOver 0 = true ∧
      (s'.current 1).map Standing.verdict = some (some 7, "ats_company", "medium") ∧
      s'.UpToDate asciiReader := by
  let acts : List Act := mail ++ firstSweep ++ [.create (acme none 12)] ++ opening 2 20 ++
    [.take 0, .ask 0, .ask 0, .check 0, .append 0 21]
  have hp : (runList (guarded (step asciiReader) fun s a => calm asciiReader s a = true) State.empty
      acts).any (fun s => (step asciiReader s (.endStage 0)).any fun s' => s'.isOver 0 &&
        (s'.current 1).map Standing.verdict == some (some 7, "ats_company", "medium")) = true := by
    decide +kernel
  obtain ⟨s, hrun, hs⟩ := exists_run_of_any hp
  have hcalm : Run (step asciiReader) (Calm asciiReader) State.empty s :=
    (run_of_guarded hrun).mono_of_invariant ⟨fun _ _ => rfl, fun _ _ => rfl⟩
      (fun s a s' hi hok hs => single_step hi hok hs) fun s a hi hok => calm_condition hi hok
  rw [Option.any_eq_true] at hs
  obtain ⟨s', hstep, hs⟩ := hs
  rw [Bool.and_eq_true, beq_iff_eq] at hs
  exact ⟨s, s', hcalm, hstep, hs.1, hs.2,
    (sweep_decides_what_full_sweep_would hcalm (.inl rfl) hstep hs.1).1⟩

/-- The day of the application is set back between two sweeps: the second one does not select the message,
although `match_message` would now attach it. -/
theorem edited_date_not_seen :
    ¬ ∀ (s s' : State) (k : ℕ) (a : Act), Run (step asciiReader) Always State.empty s →
      (a = .endStage k ∨ ∃ other, a = .look k other) → step asciiReader s a = some s' →
      s'.isOver k = true → s'.UpToDate asciiReader := by
  intro hall
  let acts : List Act := [.create (acme (some 1000000) 1)] ++ mail ++ firstSweep ++ [.edit 7 (some 50)] ++
    opening 2 20
  have hp : (runList (step asciiReader) State.empty acts).any (fun s =>
      (step asciiReader s (.endStage 0)).any fun s' => s'.isOver 0 && s'.unattached 1 &&
        (s'.current 1).all (fun c => c.actor_user_id.isNone) && (s'.jobEvent 1).any fun me =>
          (s'.current 1).all fun c =>
            c.verdict != verdictOf (asciiReader.decision s'.applications me.1 me.2)) = true := by
    decide +kernel
  obtain ⟨s, hrun, hs⟩ := exists_run_of_any hp
  simp only [Option.any_eq_true, Option.all_eq_true, Bool.and_eq_true, bne_iff_ne,
    Option.isNone_iff_eq_none] at hs
  obtain ⟨s', hstep, ⟨⟨hover, hunattached⟩, hactor⟩, ⟨m, e⟩, hje, hne⟩ := hs
  obtain ⟨c, hc, hv⟩ := hall s s' 0 _ hrun (.inl rfl) hstep hover 1 m e hje hunattached hactor
  exact hne c hc hv

end JobScripts.Mail.Sweep

import JobScripts.Mail.Sweep.Invariant

/-!
# The steps of a sweep

Each statement of a sweep keeps the invariant, and so does each write beside it that is noticed
(`State.Inv.step`).
-/

namespace JobScripts.Mail.Sweep

open Lib

section Invariant

variable {R : Reader} {s s' : State}

/-- Newer than a time is newer than none. -/
theorem newer_none {id : ℕ} {t : Option ℕ} (h : s.newer id t = true) : s.newer id none = true := by
  have hlater : ∀ x, later x [(s.current id).map Standing.created_at, t] = true →
      later x [(s.current id).map Standing.created_at, none] = true := by
    intro x hx
    simp only [later, List.all_cons, List.all_nil, Bool.and_true, Bool.and_eq_true] at hx ⊢
    exact ⟨hx.1, rfl⟩
  unfold State.newer at h ⊢
  dsimp only at h ⊢
  rw [Bool.or_eq_true, Option.any_eq_true, List.any_eq_true] at h ⊢
  rcases h with ⟨e, he, hl⟩ | ⟨a, ha, hl⟩
  · exact .inl ⟨e, he, hlater _ hl⟩
  · exact .inr ⟨a, ha, hlater _ hl⟩

/-- The row of a message is decided as the message is wanted. -/
theorem State.Inv.wanted_row (h : s.Inv R) {id : ℕ} {me : Message × Event}
    (hje : s.jobEvent id = some me) :
    (rowOf me.1 me.2).id = id ∧ s.wanted R id = some (rowVerdict R s.applications (rowOf me.1 me.2)) := by
  obtain ⟨m, hm, he⟩ := Option.bind_eq_some_iff.mp hje
  obtain ⟨e, -, rfl⟩ := Option.map_eq_some_iff.mp he
  refine ⟨(h.listed id m hm).2, ?_⟩
  unfold State.wanted
  rw [hje]
  rfl

/-- A message with a wanted decision is there. -/
theorem State.Inv.listed_of_wanted (h : s.Inv R) {id : ℕ} {v : Verdict} (hw : s.wanted R id = some v) :
    id ∈ s.ids ∧ ∃ me, s.jobEvent id = some me := by
  obtain ⟨me, hje, -⟩ := Option.map_eq_some_iff.mp hw
  obtain ⟨m, hm, -⟩ := Option.bind_eq_some_iff.mp hje
  exact ⟨(h.listed id m hm).1, me, hje⟩

/-- When nothing was created since a time that sweeps look back to, every message is right. -/
theorem State.Inv.right_of_unchanged (h : s.Inv R) {since : Option ℕ} {other : Bool}
    (hsince : s.Horizon since) (hno : s.changedSince since other = false) :
    ∀ id v, s.isOpen id = true → s.wanted R id = some v → s.Right R id := by
  intro id v hopen hwanted
  rcases h.of_horizon hsince id v hopen hwanted with hr | hnewer
  · exact hr
  · -- What is newer was created since, so something has changed.
    obtain ⟨hid, -⟩ := h.listed_of_wanted hwanted
    cases since with
    | none => contradiction
    | some t =>
      simp only [State.changedSince, Bool.or_eq_false_iff, List.any_eq_false] at hno
      obtain ⟨⟨-, happs⟩, hids⟩ := hno
      have hlt : ∀ x, later x [(s.current id).map Standing.created_at, some t] = true → t < x := by
        intro x hx
        simp only [later, List.all_cons, List.all_nil, Option.all_some, Bool.and_true,
          Bool.and_eq_true, decide_eq_true_eq] at hx
        exact hx.2
      unfold State.newer at hnewer
      dsimp only at hnewer
      rw [Bool.or_eq_true, Option.any_eq_true, List.any_eq_true] at hnewer
      rcases hnewer with ⟨e, he, hl⟩ | ⟨a, ha, hl⟩
      · have hnone := hids id hid
        rw [Bool.or_eq_true, not_or] at hnone
        refine absurd ?_ hnone.1
        rw [Option.any_eq_true]
        exact ⟨e, he, decide_eq_true (hlt _ hl)⟩
      · exact absurd (decide_eq_true (hlt _ hl)) (happs a ha)

/-- The rows of a selection are of their messages. -/
theorem State.Inv.agrees_rows (h : s.Inv R) {rows : List Row}
    (hrows : ∀ row ∈ rows, ∃ id me, s.jobEvent id = some me ∧ row = rowOf me.1 me.2) :
    ∀ row ∈ rows, ∀ v, s.wanted R row.id = some v → v = rowVerdict R s.applications row := by
  intro row hrow v hwanted
  obtain ⟨id, me, hje, rfl⟩ := hrows row hrow
  obtain ⟨hid, hrow⟩ := h.wanted_row hje
  rw [hid, hrow] at hwanted
  exact (Option.some.inj hwanted).symm

/-- A row of `match_pending`'s selection. -/
theorem mem_pendingRows {since limit : Option ℕ} {row : Row} (h : row ∈ s.pendingRows since limit) :
    ∃ id me, s.jobEvent id = some me ∧ row = rowOf me.1 me.2 := by
  have hall : row ∈ s.ids.filterMap (s.selected since) := by
    unfold State.pendingRows at h
    dsimp only at h
    split at h
    · split at h
      · exact List.mem_mergeSort.mp h
      · exact List.mem_mergeSort.mp (List.mem_of_mem_take h)
    · exact List.mem_mergeSort.mp h
  obtain ⟨id, -, hsel⟩ := List.mem_filterMap.mp hall
  unfold State.selected at hsel
  rw [Option.ite_none_right_eq_some] at hsel
  obtain ⟨me, hje, rfl⟩ := Option.map_eq_some_iff.mp hsel.2
  exact ⟨id, me, hje, rfl⟩

/-- Without a limit, an open message that is newer than the cutoff is selected. -/
theorem State.Inv.selected_of_newer (h : s.Inv R) {since limit : Option ℕ}
    (hlimit : limit.any (· ≠ 0) = false) {id : ℕ} {v : Verdict} (hopen : s.isOpen id = true)
    (hwanted : s.wanted R id = some v) (hnewer : s.newer id since = true) :
    id ∈ (s.pendingRows since limit).map Row.id := by
  obtain ⟨hid, me, hje⟩ := h.listed_of_wanted hwanted
  have hunattached : s.unattached id = true := by
    unfold State.unattached State.isOpen at *
    rw [Option.all_eq_true] at hopen ⊢
    exact fun c hc => (Bool.and_eq_true _ _ |>.mp (hopen c hc)).1
  have hsel : s.selected since id = some (rowOf me.1 me.2) := by
    unfold State.selected
    rw [hunattached, hnewer, Bool.or_true, hje]
    rfl
  have hmem : rowOf me.1 me.2 ∈ (s.ids.filterMap (s.selected since)).mergeSort notLater :=
    List.mem_mergeSort.mpr (List.mem_filterMap.mpr ⟨id, hid, hsel⟩)
  refine List.mem_map.mpr ⟨rowOf me.1 me.2, ?_, (h.wanted_row hje).1⟩
  unfold State.pendingRows
  dsimp only
  split
  · next n =>
    have hzero : n = 0 := by simpa using hlimit
    rw [if_pos hzero]
    exact hmem
  · exact hmem

/-- The steps of a sweep up to its selection. -/
theorem State.Inv.before (h : s.Inv R) {k : ℕ} {a : Act}
    (ha : (∃ task_id started_at limit, a = .start k task_id started_at limit) ∨ a = .since k ∨
      (∃ other, a = .look k other) ∨ a = .detach k ∨ a = .floors k)
    (hs : step R s a = some s') : s'.Inv R := by
  rcases ha with ⟨task_id, started_at, limit, rfl⟩ | rfl | ⟨other, rfl⟩ | rfl | rfl <;>
    simp only [step] at hs <;> split at hs
  · obtain rfl := Option.some.inj hs
    refine h.goTo (fun t ht => ?_) (fun hst => ?_) (fun row hrow => ?_) trivial
    · contradiction
    · simp [SweepRun.inStage] at hst
    · contradiction
  · contradiction
  · next t st limit hk =>
    obtain rfl := Option.some.inj hs
    refine h.goTo (fun t' ht => ?_) (fun hst => ?_) (fun row hrow => ?_) trivial
    · obtain rfl := Option.some.inj ht
      split
      · -- A sweep with a limit looks back to nothing.
        intro id v hopen hwanted
        rcases h.of_horizon (.inl rfl) id v hopen hwanted with hr | hnewer
        · exact .inl hr
        · exact .inr (newer_none hnewer)
      · exact h.of_horizon (.inl rfl)
    · simp [SweepRun.inStage] at hst
    · contradiction
  · contradiction
  · next t st limit since hk =>
    obtain rfl := Option.some.inj hs
    have hsince : s.Horizon since := .inr ⟨k, _, hk, rfl⟩
    cases hchanged : s.changedSince since other with
    | true =>
      refine h.goTo (fun t' ht => ?_) (fun hst => ?_) (fun row hrow => ?_) trivial
      · obtain rfl := Option.some.inj ht
        exact h.of_horizon hsince
      · simp [SweepRun.inStage] at hst
      · contradiction
    | false =>
      have hright := h.right_of_unchanged hsince hchanged
      refine h.goTo (fun t' ht id v hopen hwanted => .inl (hright id v hopen hwanted)) (fun hst => ?_)
        (fun row hrow => ?_) trivial
      · simp [SweepRun.inStage] at hst
      · contradiction
  · contradiction
  · next t st limit since hk =>
    obtain rfl := Option.some.inj hs
    have hrows : ∀ row ∈ s.unattachableRows, (∃ id me, s.jobEvent id = some me ∧
        row = rowOf me.1 me.2) ∧ unattachableKinds.contains row.kind = true := by
      intro row hrow
      obtain ⟨id, -, hrow⟩ := List.mem_filterMap.mp hrow
      obtain ⟨me, hje, hrow⟩ := Option.bind_eq_some_iff.mp hrow
      rw [Option.ite_none_right_eq_some, Bool.and_eq_true] at hrow
      obtain ⟨⟨hkind, -⟩, hrow⟩ := hrow
      obtain rfl := Option.some.inj hrow
      exact ⟨⟨id, me, hje, rfl⟩, hkind⟩
    refine h.goTo (fun t' ht => ?_) (fun hst => ?_) (h.agrees_rows fun row hrow => (hrows row hrow).1)
      fun _ row hrow => (hrows row hrow).2
    · obtain rfl := Option.some.inj ht
      exact h.of_horizon (.inr ⟨k, _, hk, rfl⟩)
    · simp [SweepRun.inStage] at hst
  · contradiction
  · next t st limit since hk =>
    obtain rfl := Option.some.inj hs
    refine h.goTo (fun t' ht => ?_) (fun hst => ?_) (fun row hrow => ?_) trivial
    · obtain rfl := Option.some.inj ht
      exact h.of_horizon (.inr ⟨k, _, hk, rfl⟩)
    · simp [SweepRun.inStage] at hst
    · contradiction
  · contradiction

/-- The selection. -/
theorem State.Inv.select (h : s.Inv R) {k : ℕ} (hs : step R s (.select k) = some s') : s'.Inv R := by
  simp only [step] at hs
  split at hs
  · next t st limit since hk =>
    obtain rfl := Option.some.inj hs
    refine h.goTo (fun t' ht => ?_) (fun hst id v hopen hwanted => ?_)
      (h.agrees_rows fun row hrow => mem_pendingRows hrow) fun hne => absurd rfl hne
    · contradiction
    · have hlimit : limit.any (· ≠ 0) = false := by
        simpa [SweepRun.inStage, SweepRun.partly] using hst
      rcases h.of_horizon (.inr ⟨k, _, hk, rfl⟩) id v hopen hwanted with hr | hnewer
      · exact .inl hr
      · exact .inr (h.selected_of_newer hlimit hopen hwanted hnewer)
  · contradiction

/-- A sweep with its rows goes on with the same rows: it looks back to the same time, and is as far in its
stage. -/
theorem State.Inv.keepRows (h : s.Inv R) {k : ℕ} {run : SweepRun} (hk : s.sweeps k = some run)
    {phase : Phase} (hhorizon : ∀ t, SweepRun.horizon { run with phase := phase } = some t →
      run.horizon = some t)
    (hstage : SweepRun.inStage { run with phase := phase } = true → run.inStage = true)
    (htodo : phase.todo = run.phase.todo) (hok : phase.Ok R s.applications) :
    (s.goOn k (some { run with phase := phase })).Inv R := by
  refine h.goTo (fun t ht => h.of_horizon (.inr ⟨k, run, hk, hhorizon t ht⟩))
    (fun hst id v hopen hwanted => ?_) (fun row hrow v hwanted => ?_) hok
  · dsimp only
    rw [htodo]
    exact h.staged k run id v hk (hstage hst) hopen hwanted
  · dsimp only at hrow
    rw [htodo] at hrow
    exact h.agrees k run row v hk hrow hwanted

/-- The next row. -/
theorem State.Inv.take (h : s.Inv R) {k : ℕ} (hs : step R s (.take k) = some s') : s'.Inv R := by
  simp only [step] at hs
  split at hs
  · next t st limit stage row todo hk =>
    obtain rfl := Option.some.inj hs
    have hfits : stage.Fits (row :: todo) := h.inHand k _ hk
    split
    · next hkind =>
      -- The kind of the row is one that a sweep refuses.
      have hrefused : unattachableKinds.contains row.kind = true :=
        hkind.elim (fun hne => hfits hne row List.mem_cons_self) id
      refine h.keepRows hk (fun t' ht => by cases stage <;> exact ht)
        (fun hst => by cases stage <;> exact hst) rfl ⟨?_, fun hne row' hrow' =>
          hfits hne row' (List.mem_cons_of_mem _ hrow')⟩
      unfold rowVerdict rowDecision
      rw [if_pos hrefused]
    · next hkind =>
      rw [not_or, not_not, Bool.not_eq_true] at hkind
      obtain ⟨rfl, hkind⟩ := hkind
      exact h.keepRows hk (fun t' ht => ht) (fun hst => hst) rfl ⟨hkind, trivial⟩
  · contradiction

/-- A query of `match_message`. -/
theorem State.Inv.ask (h : s.Inv R) {k : ℕ} (hs : step R s (.ask k) = some s') : s'.Inv R := by
  simp only [step] at hs
  split at hs
  · next t st limit tier row todo hk =>
    obtain rfl := Option.some.inj hs
    obtain ⟨hkind, hbefore⟩ : unattachableKinds.contains row.kind = false ∧
      tier.NoneBefore R s.applications row := h.inHand k _ hk
    have heq : rowDecision R s.applications row = _ := rowDecision_eq hkind
    have hfits : Stage.pending.Fits todo := fun hne => absurd rfl hne
    split
    · next d hfind =>
      refine h.keepRows hk (fun t' ht => ht) (fun hst => hst) rfl ⟨?_, hfits⟩
      -- The first tier that finds something decides.
      unfold rowVerdict
      rw [heq]
      cases tier with
      | exactLink =>
        rw [hfind]
        rfl
      | company =>
        have hl : Tier.exactLink.find R s.applications row = none := hbefore
        rw [hl, hfind]
        rfl
      | companyAndTitle =>
        rw [hbefore.1, hbefore.2, hfind]
        rfl
    · next tier' hfind hnext =>
      refine h.keepRows hk (fun t' ht => ht) (fun hst => hst) rfl ⟨hkind, ?_⟩
      cases tier with
      | exactLink =>
        obtain rfl := Option.some.inj hnext
        exact hfind
      | company =>
        obtain rfl := Option.some.inj hnext
        exact ⟨hbefore, hfind⟩
      | companyAndTitle => contradiction
    · next hfind hnext =>
      refine h.keepRows hk (fun t' ht => ht) (fun hst => hst) rfl ⟨?_, hfits⟩
      cases tier with
      | exactLink | company => contradiction
      | companyAndTitle =>
        unfold rowVerdict
        rw [heq, hbefore.1, hbefore.2, hfind]
        rfl
  · contradiction

/-- A sweep is done with the row in hand: the message is right if it is open. -/
theorem State.Inv.dropRow (h : s.Inv R) {k : ℕ} {run : SweepRun} (hk : s.sweeps k = some run)
    {stage : Stage} {row : Row} {todo : List Row} (htodo : run.phase.todo = row :: todo)
    (hhorizon : ∀ t, SweepRun.horizon { run with phase := .rows stage todo } = some t →
      run.horizon = some t)
    (hstage : SweepRun.inStage { run with phase := .rows stage todo } = true → run.inStage = true)
    (hright : ∀ v, s.isOpen row.id = true → s.wanted R row.id = some v → s.Right R row.id)
    (hfits : stage.Fits todo) : (s.goOn k (some { run with phase := .rows stage todo })).Inv R := by
  refine h.goTo (fun t ht => h.of_horizon (.inr ⟨k, run, hk, hhorizon t ht⟩))
    (fun hst id v hopen hwanted => ?_) (fun row' hrow' v hwanted => ?_) hfits
  · rcases h.staged k run id v hk (hstage hst) hopen hwanted with hr | hmem
    · exact .inl hr
    · rw [htodo, List.map_cons] at hmem
      rcases List.mem_cons.mp hmem with rfl | hmem
      · exact .inl (hright v hopen hwanted)
      · exact .inr hmem
  · refine h.agrees k run row' v hk ?_ hwanted
    rw [htodo]
    exact List.mem_cons_of_mem _ hrow'

/-- The check of `record`. -/
theorem State.Inv.check (h : s.Inv R) {k : ℕ} (hs : step R s (.check k) = some s') : s'.Inv R := by
  simp only [step] at hs
  split at hs
  · next t st limit stage row d todo hk =>
    obtain rfl := Option.some.inj hs
    obtain ⟨hverdict, hfits⟩ : verdictOf d = rowVerdict R s.applications row ∧ stage.Fits todo :=
      h.inHand k _ hk
    split
    · exact h.keepRows hk (fun t' ht => by cases stage <;> exact ht)
        (fun hst => by cases stage <;> exact hst) rfl ⟨hverdict, hfits⟩
    · next hno =>
      refine h.dropRow hk rfl (fun t' ht => by cases stage <;> exact ht)
        (fun hst => by cases stage <;> exact hst) (fun v hopen hwanted => ?_) hfits
      have hv := h.agrees k _ row v hk List.mem_cons_self hwanted
      -- No person decided, so the decision repeats.
      rw [Bool.not_eq_true] at hno
      unfold goesOn at hno
      rw [Option.all_eq_false] at hno
      obtain ⟨c, hc, hno⟩ := hno
      have hactor : c.actor_user_id.isNone = true := by
        unfold State.isOpen at hopen
        rw [hc, Option.all_some, Bool.and_eq_true] at hopen
        exact hopen.2
      rw [hactor, Bool.true_and, bne_eq_false_iff_eq] at hno
      refine ⟨c, hc, ?_⟩
      rw [hwanted, hv, hno, hverdict]
  · contradiction

/-- The row of `record`. -/
theorem State.Inv.append (h : s.Inv R) {k now : ℕ} (hs : step R s (.append k now) = some s') :
    s'.Inv R := by
  simp only [step] at hs
  split at hs
  · next t st limit stage row d todo hk =>
    obtain rfl := Option.some.inj hs
    obtain ⟨hverdict, hfits⟩ : verdictOf d = rowVerdict R s.applications row ∧ stage.Fits todo :=
      h.inHand k _ hk
    have hv : ∀ v, s.wanted R row.id = some v → v = verdictOf d := fun v hwanted => by
      rw [hverdict]
      exact h.agrees k _ row v hk List.mem_cons_self hwanted
    have hrec : State.Inv R { s with
        current := Function.update s.current row.id (some ⟨verdictOf d, none, now⟩) } :=
      h.record fun _ v hwanted => hv v hwanted
    refine hrec.dropRow hk rfl (fun t' ht => by cases stage <;> exact ht)
      (fun hst => by cases stage <;> exact hst) (fun v hopen hwanted => ?_) hfits
    refine ⟨⟨verdictOf d, none, now⟩, Function.update_self _ _ _, ?_⟩
    rw [← hv v hwanted]
    exact hwanted
  · contradiction

/-- The end of the matching stage of a sweep without a limit: every open message is right. -/
theorem State.Inv.right_of_endStage (h : s.Inv R) {k t st : ℕ} {limit : Option ℕ}
    (hk : s.sweeps k = some ⟨t, st, limit, .rows .pending []⟩) (hlimit : limit.any (· ≠ 0) = false) :
    ∀ id v, s.isOpen id = true → s.wanted R id = some v → s.Right R id := by
  intro id v hopen hwanted
  have hst : SweepRun.inStage ⟨t, st, limit, .rows .pending []⟩ = true := by
    unfold SweepRun.inStage SweepRun.partly
    rw [hlimit]
    rfl
  rcases h.staged k _ id v hk hst hopen hwanted with hr | htodo
  · exact hr
  · -- Nothing is left to decide.
    exact absurd htodo List.not_mem_nil

/-- The end of the matching stage. -/
theorem State.Inv.endStage (h : s.Inv R) {k : ℕ} (hs : step R s (.endStage k) = some s') : s'.Inv R := by
  simp only [step] at hs
  split at hs
  · next t st limit hk =>
    obtain rfl := Option.some.inj hs
    refine h.goTo (fun t' ht id v hopen hwanted => .inl ?_) (fun hst => ?_) (fun row hrow => ?_) trivial
    · -- Only a sweep without a limit leaves a time to look back to.
      have hnone : limit = none := by
        unfold SweepRun.horizon at ht
        exact (Option.ite_none_right_eq_some.mp ht).1
      subst hnone
      exact h.right_of_endStage hk rfl id v hopen hwanted
    · simp [SweepRun.inStage] at hst
    · contradiction
  · contradiction

/-- The last sweep after one more has finished. -/
theorem lastSweepStart_cons {t st : ℕ} {finished : List (ℕ × ℕ)} :
    (((t, st) :: finished).argmax Prod.fst).map Prod.snd = some st ∨
      (((t, st) :: finished).argmax Prod.fst).map Prod.snd = (finished.argmax Prod.fst).map Prod.snd := by
  rw [List.argmax_cons]
  cases finished.argmax Prod.fst with
  | none => exact .inl rfl
  | some c =>
    by_cases hlt : t < c.1
    · exact .inr (by simp [hlt])
    · exact .inl (by simp [hlt])

/-- A sweep finishes: the next ones may look back to its start. -/
theorem State.Inv.finish (h : s.Inv R) {k : ℕ} (hs : step R s (.finish k) = some s') : s'.Inv R := by
  have hdone : ∀ run, s.sweeps k = some run →
      run.horizon = (if run.limit = none then some (some run.started_at) else none) →
      State.Inv R { s.goOn k none with
        finished := if run.limit = none then (run.task_id, run.started_at) :: s.finished
          else s.finished } := by
    intro run hk hhor
    have hleft : (s.goOn k none).Inv R := h.leave
    refine ⟨fun id v hopen hwanted => ?_, hleft.staged, hleft.agrees, hleft.inHand, hleft.listed⟩
    rcases h.selected id v hopen hwanted with hr | hsel
    · exact .inl hr
    · refine .inr fun t ht => hsel t ?_
      rcases ht with hlast | ⟨k', run', hk', hhor'⟩
      · -- The last sweep is the one that finishes, or the last one before it.
        subst hlast
        unfold State.lastSweepStart
        dsimp only
        split
        · next hnone =>
          rw [if_pos hnone] at hhor
          rcases lastSweepStart_cons with heq | heq
          · rw [heq]
            exact .inr ⟨k, run, hk, hhor⟩
          · rw [heq]
            exact .inl rfl
        · exact .inl rfl
      · rcases sweeps_goOn hk' with hx | hx
        · contradiction
        · exact .inr ⟨k', run', hx, hhor'⟩
  simp only [step] at hs
  split at hs
  · next t st limit hk =>
    obtain rfl := Option.some.inj hs
    exact hdone _ hk rfl
  · next t st limit hk =>
    obtain rfl := Option.some.inj hs
    exact hdone _ hk rfl
  · contradiction

/-- A person decides, or a message is attached: it is open no longer. -/
theorem State.Inv.decide (h : s.Inv R) {id : ℕ} {st : Standing}
    (hs : step R s (.decide id st) = some s') : s'.Inv R := by
  simp only [step] at hs
  rw [Option.ite_none_right_eq_some] at hs
  obtain ⟨hcond, hs⟩ := hs
  obtain rfl := Option.some.inj hs
  refine h.record fun hopen => ?_
  unfold State.isOpen at hopen
  dsimp only at hopen
  rw [Function.update_self, Option.all_some, Bool.and_eq_true, Option.isNone_iff_eq_none,
    Option.isNone_iff_eq_none] at hopen
  rcases hcond with hne | hne
  · exact absurd hopen.2 hne
  · exact absurd hopen.1 hne

/-- The next date is lowered. -/
theorem State.Inv.lower (h : s.Inv R) {k : ℕ} (hs : step R s (.lower k) = some s')
    (hn : Noticed R s s') : s'.Inv R := by
  simp only [step] at hs
  split at hs
  · next t st limit since app floor todo hk =>
    obtain rfl := Option.some.inj hs
    -- The sweep goes on to the dates that are left, then the date is written.
    have hgo : (s.goOn k (some ⟨t, st, limit, .lowering since todo⟩)).Inv R := by
      refine h.goTo (fun t' ht => ?_) (fun hst => ?_) (fun row hrow => ?_) trivial
      · obtain rfl := Option.some.inj ht
        exact h.of_horizon (.inr ⟨k, _, hk, rfl⟩)
      · simp [SweepRun.inStage] at hst
      · contradiction
    refine hgo.write h.listed ?_
    have hback : ∀ k' run, (s.goOn k (some ⟨t, st, limit, .lowering since todo⟩)).sweeps k' = some run →
        s.sweeps k' = some run ∨ run = ⟨t, st, limit, .lowering since todo⟩ := by
      intro k' run hk'
      rcases sweeps_goOn hk' with hx | hx
      · exact .inr (Option.some.inj hx).symm
      · exact .inl hx
    refine ⟨fun id v hopen hwanted => ?_, fun k' run id v hk' hst hopen hwanted => ?_,
      fun k' run row v hk' hrow hwanted => ?_, fun k' run row hk' hrow => ?_⟩
    · rcases hn.selected id v hopen hwanted with hold | hsel
      · exact .inl hold
      · refine .inr fun t' ht => hsel t' ?_
        rcases ht with hlast | ⟨k', run, hk', hhor⟩
        · exact .inl hlast
        · rcases hback k' run hk' with hx | rfl
          · exact .inr ⟨k', run, hx, hhor⟩
          · exact .inr ⟨k, _, hk, hhor⟩
    · rcases hback k' run hk' with hx | rfl
      · exact hn.staged k' run id v hx hst hopen hwanted
      · simp [SweepRun.inStage] at hst
    · rcases hback k' run hk' with hx | rfl
      · exact hn.agrees k' run row v hx hrow hwanted
      · contradiction
    · rcases hback k' run hk' with hx | rfl
      · exact hn.inHand k' run row hx hrow
      · contradiction
  · contradiction

/-- A message is there under its own id after it arrives, or after it gets an event. -/
theorem listed_update (h : s.Inv R) {id : ℕ} {m : Message} {ids : List ℕ} (hm : m.id = id)
    (hid : id ∈ ids) (hids : ∀ x ∈ s.ids, x ∈ ids) :
    ∀ id' m', Function.update s.messages id (some m) id' = some m' → id' ∈ ids ∧ m'.id = id' := by
  intro id' m' hm'
  by_cases hne : id' = id
  · subst hne
    rw [Function.update_self] at hm'
    obtain rfl := Option.some.inj hm'
    exact ⟨hid, hm⟩
  · rw [Function.update_of_ne hne] at hm'
    exact ⟨hids id' (h.listed id' m' hm').1, (h.listed id' m' hm').2⟩

/-- Every step keeps the invariant. -/
theorem State.Inv.step (h : s.Inv R) {a : Act} (hcalm : Calm R s a) (hs : step R s a = some s') :
    s'.Inv R := by
  cases a with
  | create app =>
    have hn := hcalm s' hs
    obtain rfl := Option.some.inj hs
    exact h.write h.listed hn
  | edit app applied_at =>
    have hn := hcalm s' hs
    obtain rfl := Option.some.inj hs
    exact h.write h.listed hn
  | arrive m =>
    have hn := hcalm s' hs
    simp only [Sweep.step] at hs
    split at hs
    · obtain rfl := Option.some.inj hs
      refine h.write (listed_update h rfl ?_ fun x hx => ?_) hn
      · exact List.mem_append_right _ List.mem_cons_self
      · exact List.mem_append_left _ hx
    · contradiction
  | classify id e =>
    have hn := hcalm s' hs
    simp only [Sweep.step] at hs
    split at hs
    · next m hm =>
      obtain rfl := Option.some.inj hs
      refine h.write (listed_update h (h.listed id m hm).2 (h.listed id m hm).1 fun x hx => hx) hn
    · contradiction
  | decide id st => exact h.decide hs
  | start k task_id started_at limit => exact h.before (.inl ⟨task_id, started_at, limit, rfl⟩) hs
  | since k => exact h.before (.inr (.inl rfl)) hs
  | look k other => exact h.before (.inr (.inr (.inl ⟨other, rfl⟩))) hs
  | detach k => exact h.before (.inr (.inr (.inr (.inl rfl)))) hs
  | floors k => exact h.before (.inr (.inr (.inr (.inr rfl)))) hs
  | lower k => exact h.lower hs (hcalm s' hs)
  | select k => exact h.select hs
  | take k => exact h.take hs
  | ask k => exact h.ask hs
  | check k => exact h.check hs
  | append k now => exact h.append hs
  | endStage k => exact h.endStage hs
  | finish k => exact h.finish hs
  | leave k =>
    obtain rfl := Option.some.inj hs
    exact h.leave

/-- The invariant holds where nothing is there. -/
theorem State.Inv.empty : State.empty.Inv R := by
  refine ⟨fun id v hopen hwanted => ?_, fun k run id v hk => ?_, fun k run row v hk => ?_,
    fun k run hk => ?_, fun id m hm => ?_⟩ <;> contradiction

/-- The invariant holds along every run whose writes the sweeps see. -/
theorem State.Inv.run (h : Lib.Run (Sweep.step R) (Calm R) State.empty s) : s.Inv R :=
  h.invariant State.Inv.empty fun _ _ _ hinv hcalm hs => hinv.step hcalm hs

end Invariant

end JobScripts.Mail.Sweep

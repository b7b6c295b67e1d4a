import JobScripts.Queue.Parents.Recoveries

/-!
# The steps of a family

Each step changes the table in one of few ways (`Family.step_change`), and keeps the invariant
(`Family.Inv.step`).
-/

namespace JobScripts.Queue

open Lib

/-- A row of a table to which one was added. -/
theorem Table.add_rows_cases {tb : Table} {t u : Task} {id : ℕ}
    (hu : (tb.add t).rows id = some u) : (id = tb.next ∧ u = t) ∨ tb.rows id = some u := by
  have hu : Function.update tb.rows tb.next (some t) id = some u := hu
  by_cases hid : id = tb.next
  · subst hid
    rw [Function.update_self] at hu
    exact .inl ⟨rfl, (Option.some.inj hu).symm⟩
  · rw [Function.update_of_ne hid] at hu
    exact .inr hu

/-- The rows that were there stay when one is added. -/
theorem Table.add_rows_of_some {tb : Table} {t u : Task} {id : ℕ} (hu : tb.rows id = some u) :
    (tb.add t).rows id = some u := by
  have hid : id ≠ tb.next := by
    rintro rfl
    rw [tb.fresh _ le_rfl] at hu
    contradiction
  exact (Function.update_of_ne hid _ _).trans hu

/-- `enqueue` keeps the invariant: a new chunk's parent runs, so no finalizer holds it. -/
theorem Family.Inv.enqueue {s : Family} (h : s.Inv) {t : Task} (hst : t.status = .pending)
    (hparent : ∀ p, t.parent_id = some p → t.chunkOf p = true ∧ ∃ tp, s.table.rows p = some tp ∧
      tp.status = .running ∧ chunkKinds.contains tp.kind = false) :
    Family.Inv { s with table := s.table.add t } := by
  refine h.change ⟨fun id u _ hu => Table.add_rows_of_some hu, ?_⟩ ⟨?_, ?_, ?_, ?_⟩
  · rintro q - ⟨tq, htq, hw⟩ hnq id
    by_cases hid : id = s.table.next
    · subst hid
      have hnew : (s.table.add t).rows s.table.next = some t := Function.update_self _ _ _
      have hnot : t.chunkOf q = false := by
        by_contra hc
        rw [Bool.not_eq_false] at hc
        simp only [Task.chunkOf, Bool.and_eq_true, beq_iff_eq] at hc
        obtain ⟨-, tp, htp, hrun, -⟩ := hparent q hc.2
        rw [htq] at htp
        obtain rfl := Option.some.inj htp
        rw [hw] at hrun
        contradiction
      rw [hnew, s.table.fresh _ le_rfl]
      simp [RowKept, hnot]
    · have hsame : (s.table.add t).rows id = s.table.rows id := Function.update_of_ne hid _ _
      rw [hsame]
      exact .of_eq hnq id
  · intro id u hu hc
    rcases Table.add_rows_cases hu with ⟨-, rfl⟩ | hu'
    · rw [hst]
      intro hwaiting
      contradiction
    · exact h.tidy.chunk id u hu' hc
  · intro id u q hu hq
    rcases Table.add_rows_cases hu with ⟨-, rfl⟩ | hu'
    · obtain ⟨hc, tp, htp, -, hk⟩ := hparent q hq
      exact ⟨hc, tp, Table.add_rows_of_some htp, hk⟩
    · obtain ⟨hc, tp, htp, hk⟩ := h.tidy.parent id u q hu' hq
      exact ⟨hc, tp, Table.add_rows_of_some htp, hk⟩
  · intro id hid
    obtain ⟨u, hu⟩ := h.tidy.there id hid
    exact ⟨u, Table.add_rows_of_some hu⟩
  · intro id u q hro hu hlive hq
    have hu' : s.table.rows id = some u := by
      obtain ⟨v, hv⟩ := h.tidy.there id hro
      rw [Table.add_rows_of_some hv] at hu
      rw [hv]
      exact hu
    obtain ⟨tp, htp, hs⟩ := h.tidy.reopened id u q hro hu' hlive hq
    exact ⟨tp, Table.add_rows_of_some htp, hs⟩

/-- A process that held a row and moves to a place where it does not has released it. -/
theorem Family.move_locks_of_held {s : Family} {k id : ℕ} {proc : Option Proc}
    (hl : s.locks id = some k) (hproc : (proc.any fun p => p.holds id) = false) :
    (s.move k proc).locks id = none := by
  simp [Family.move, hproc, hl]

/-- A row that is free stays free when a process moves to a place where it does not hold it. -/
theorem Family.move_locks_of_free {s : Family} {k id : ℕ} {proc : Option Proc}
    (hl : s.locks id = none) (hproc : (proc.any fun p => p.holds id) = false) :
    (s.move k proc).locks id = none := by
  simp [Family.move, hproc, hl]

/-- `update_parent_progress` keeps everything but the progress and the heartbeat. -/
theorem updateParentProgress_moves {done : ℤ} {now : Time} {t t' : Task}
    (h : updateParentProgress done now t = some t') : Moves t t' := by
  simp only [updateParentProgress, Option.ite_none_right_eq_some, Option.some.injEq] at h
  obtain ⟨-, rfl⟩ := h
  exact .of_same rfl rfl rfl

/-- The next statement of a pass or of a finalizer keeps the invariant. -/
theorem Family.Inv.next_call {s s' : Family} (h : s.Inv) {k p : ℕ} {now : Time} {phase : Phase}
    {rest : List ℕ} (hk : s.procs k = some (.finalizing p phase rest))
    (hs : Proc.next s k now (.finalizing p phase rest) = some s') : s'.Inv := by
  have hsound := h.sound k _ hk
  have hheld := h.held k _ hk
  have hcalls : (s.move k (some (.calls rest))).Inv := h.moveTo nofun trivial
  cases phase with
  | summed done =>
    have hinv : (s.move k (some (.finalizing p .progressed rest))).Inv := h.moveTo nofun trivial
    simp only [Proc.next] at hs
    split at hs
    · obtain rfl := Option.some.inj hs
      exact hinv
    · next t hup =>
      rw [Option.ite_none_right_eq_some] at hs
      obtain ⟨hl, hs⟩ := hs
      obtain rfl := Option.some.inj hs
      obtain ⟨u, hu, hup⟩ := Option.bind_eq_some_iff.mp hup
      have hm : s.table.Moved (s.table.write p t)
          (s.move k (some (.finalizing p .progressed rest))).locks :=
        .write hu (updateParentProgress_moves hup) (Family.move_locks_of_free hl rfl)
      exact hinv.change (Table.Moved.keeps hm hinv.tidy) (hm.tidy hinv.tidy)
  | progressed =>
    simp only [Proc.next] at hs
    split at hs
    · obtain rfl := Option.some.inj hs
      exact hcalls
    · next t ht =>
      rw [Option.ite_none_right_eq_some] at hs
      obtain ⟨hl, hs⟩ := hs
      split at hs <;> obtain rfl := Option.some.inj hs
      · next hw =>
        refine h.moveTo (fun id hid => ?_) ⟨t, ht, hw⟩
        simp only [Proc.holds, beq_iff_eq] at hid
        rw [hid]
        exact .inl hl
      · exact hcalls
  | locked =>
    simp only [Proc.next] at hs
    split at hs <;> obtain rfl := Option.some.inj hs
    · next hlive =>
      refine h.moveTo (fun id hid => .inr (hheld id hid)) ⟨hsound, ?_⟩
      exact (Table.liveChunks_eq_zero_iff _ _).mp hlive
    · exact hcalls
  | noneLive =>
    obtain rfl := Option.some.inj hs
    exact h.moveTo (fun id hid => .inr (hheld id hid)) ⟨hsound.1, hsound.2, rfl⟩
  | counted n =>
    simp only [Proc.next] at hs
    split at hs <;> obtain rfl := Option.some.inj hs
    · exact hcalls
    · next t hf =>
      obtain ⟨u, hu, hf⟩ := Option.bind_eq_some_iff.mp hf
      have hl : (s.move k (some (.calls rest))).locks p = none :=
        Family.move_locks_of_held (hheld p (by simp [Proc.holds])) rfl
      exact hcalls.change (finalize_keeps hcalls.tidy hu hl hf)
        (finalize_tidy hcalls.tidy hu hsound.2.1 hf)

/-- The next statement of a process keeps the invariant. -/
theorem Family.Inv.next {s s' : Family} (h : s.Inv) {k : ℕ} {now : Time} {proc : Proc}
    (hk : s.procs k = some proc) (hs : proc.next s k now = some s') : s'.Inv := by
  have hsound := h.sound k proc hk
  have hheld := h.held k proc hk
  cases proc with
  | reconciling =>
    obtain rfl := Option.some.inj hs
    exact h.moveTo nofun trivial
  | calls parents =>
    cases parents with
    | nil => contradiction
    | cons p rest =>
      obtain rfl := Option.some.inj hs
      exact h.moveTo nofun trivial
  | finalizing p phase rest => exact h.next_call hk hs
  | reading task source p =>
    simp only [Proc.next] at hs
    split at hs <;> obtain rfl := Option.some.inj hs
    · exact h.leave
    · next t ht =>
      obtain ⟨-, hrec⟩ := Option.filter_eq_some_iff.mp ht
      refine h.moveTo nofun ⟨hsound.1, hsound.2.1, hsound.2.2, fun p' t' hp => ?_⟩
      obtain ⟨rfl, rfl⟩ := Prod.mk.inj (Option.some.inj hp)
      exact hrec
  | read r =>
    simp only [Proc.next] at hs
    split at hs
    · next hr =>
      obtain rfl := Option.some.inj hs
      refine h.moveTo (fun id hid => ?_) ⟨hsound, fun p t hp => ?_⟩
      · simp [Proc.holds, hr] at hid
      · rw [hr] at hp
        contradiction
    · next p t hr =>
      rw [Option.ite_none_right_eq_some] at hs
      obtain ⟨hl, hs⟩ := hs
      split at hs <;> obtain rfl := Option.some.inj hs
      · next hrow =>
        refine h.moveTo (fun id hid => ?_) ⟨hsound, fun p' t' hp => ?_⟩
        · simp only [Proc.holds, hr, Option.any_some, beq_iff_eq] at hid
          rw [hid]
          exact .inl hl
        · rw [hr] at hp
          obtain ⟨rfl, rfl⟩ := Prod.mk.inj (Option.some.inj hp)
          exact hrow
      · exact h.leave
  | parentLocked r =>
    simp only [Proc.next] at hs
    rw [Option.ite_none_right_eq_some] at hs
    obtain ⟨hl, hs⟩ := hs
    split at hs <;> obtain rfl := Option.some.inj hs
    · next hrow =>
      refine h.moveTo (fun id hid => ?_) ⟨hsound.1, hsound.2, hrow⟩
      simp only [Proc.holds, Bool.or_eq_true, beq_iff_eq] at hid
      rcases hid with rfl | hid
      · exact .inl hl
      · exact .inr (hheld id hid)
    · exact h.leave
  | taskLocked r => contradiction

/-- A recovery whose both rows are locked is ready once it lets them go. -/
theorem Family.Inv.ready {s : Family} (h : s.Inv) {k : ℕ} {r : Recovery}
    (hk : s.procs k = some (.taskLocked r)) : r.Ready (s.move k none) := by
  obtain ⟨hc, hparent, htask⟩ := h.sound k _ hk
  have hheld := h.held k _ hk
  refine ⟨hc, htask, hparent, ?_, fun p tp hr => ?_⟩
  · exact Family.move_locks_of_held (hheld r.task (by simp [Proc.holds])) rfl
  · exact Family.move_locks_of_held (hheld p (by simp [Proc.holds, hr])) rfl

/-- What the table holds after the commit of a recovery. -/
theorem Family.Inv.commit_spec {s : Family} (h : s.Inv) {k : ℕ} {r : Recovery}
    (hk : s.procs k = some (.taskLocked r)) (t : Task) :
    (r.commit s.table t).rows r.task = some t ∧
      (∀ p tp, r.parent = some (p, tp) → ∃ tp', (r.commit s.table t).rows p = some tp' ∧
        tp'.kind = tp.kind ∧ tp'.parent_id = tp.parent_id ∧ tp'.status = .waiting) ∧
      ∀ id, id ≠ r.task → (∀ p tp, r.parent = some (p, tp) → id ≠ p) →
        (r.commit s.table t).rows id = s.table.rows id :=
  (h.ready hk).commit_spec h.leave.tidy t

/-- What a step can do to the table. -/
inductive Family.Change (s : Family) (a : FamilyAct) (tb' : Table) : Prop
  /-- Plain statements; only a statement on the row itself takes a parent out of its wait. -/
  | moved (h : s.table.Moved tb' s.locks)
      (hw : ∀ p t t', s.table.rows p = some t → tb'.rows p = some t' → t.status = .waiting →
        t'.status = .waiting ∨ ∃ w, a = .write p w ∧ w.run t = some t')
  /-- The commit of a finalizer. -/
  | finalized (k p n : ℕ) (now : Time) (rest : List ℕ) (t t' : Task) (ha : a = .next k now)
      (hk : s.procs k = some (.finalizing p (.counted n) rest)) (hrow : s.table.rows p = some t)
      (hf : finalizeParent n now t = some t') (htb : tb' = s.table.write p t')
  /-- The commit of a recovery. -/
  | recovered (k : ℕ) (r : Recovery) (x y : Bool) (t : Task) (ha : a = .reopen k x y)
      (hk : s.procs k = some (.taskLocked r)) (hre : Queue.retry x y r.source = some t)
      (htb : tb' = r.commit s.table t)
  /-- `enqueue`. -/
  | enqueued (t : Task) (hst : t.status = .pending)
      (hparent : ∀ p, t.parent_id = some p → ∃ tp, s.table.rows p = some tp ∧
        tp.status = .running) (htb : tb' = s.table.add t)

/-- A step that leaves the table alone. -/
theorem Family.Change.same (s : Family) (a : FamilyAct) : s.Change a s.table := by
  refine .moved ⟨fun _ h => h, fun id t ht => ⟨t, ht, .inl rfl⟩⟩ fun p t t' ht ht' hw => .inl ?_
  rw [ht] at ht'
  obtain rfl := Option.some.inj ht'
  exact hw

/-- What the next statement of a process does to the table. -/
theorem Proc.next_change {s s' : Family} {k : ℕ} {now : Time} {proc : Proc}
    (hk : s.procs k = some proc) (hs : proc.next s k now = some s') :
    s.Change (.next k now) s'.table := by
  cases proc with
  -- What only reads, or moves the process, leaves the table.
  | reconciling =>
    obtain rfl := Option.some.inj hs
    exact .same s _
  | calls parents =>
    cases parents with
    | nil => contradiction
    | cons p rest =>
      obtain rfl := Option.some.inj hs
      exact .same s _
  | finalizing p phase rest =>
    cases phase with
    | summed done =>
      simp only [Proc.next] at hs
      split at hs
      · obtain rfl := Option.some.inj hs
        exact .same s _
      -- The progress of the parent is written, and its status is not.
      · next t hup =>
        rw [Option.ite_none_right_eq_some] at hs
        obtain ⟨hl, hs⟩ := hs
        obtain rfl := Option.some.inj hs
        obtain ⟨u, hu, hup⟩ := Option.bind_eq_some_iff.mp hup
        have hm := updateParentProgress_moves hup
        have hst : t.status = u.status := by
          simp only [updateParentProgress, Option.ite_none_right_eq_some, Option.some.injEq] at hup
          obtain ⟨-, rfl⟩ := hup
          rfl
        refine .moved (.write hu hm hl) fun q v v' hv hv' hw => .inl ?_
        rcases Table.write_rows_cases hv' with ⟨rfl, rfl⟩ | ⟨-, hrow⟩
        · rw [hu] at hv
          obtain rfl := Option.some.inj hv
          rw [hst, hw]
        · rw [hv] at hrow
          obtain rfl := Option.some.inj hrow
          exact hw
    | progressed =>
      simp only [Proc.next] at hs
      split at hs
      · obtain rfl := Option.some.inj hs
        exact .same s _
      · rw [Option.ite_none_right_eq_some] at hs
        obtain ⟨-, hs⟩ := hs
        split at hs <;> obtain rfl := Option.some.inj hs <;> exact .same s _
    | locked =>
      simp only [Proc.next] at hs
      split at hs <;> obtain rfl := Option.some.inj hs <;> exact .same s _
    | noneLive =>
      obtain rfl := Option.some.inj hs
      exact .same s _
    | counted n =>
      simp only [Proc.next] at hs
      split at hs <;> obtain rfl := Option.some.inj hs
      · exact .same s _
      -- The one statement of a pass that ends a parent.
      · next t hf =>
        obtain ⟨u, hu, hf⟩ := Option.bind_eq_some_iff.mp hf
        exact .finalized k p n now rest u t rfl hk hu hf rfl
  -- A recovery reads and locks; its commit is a step of its own.
  | reading task source p =>
    simp only [Proc.next] at hs
    split at hs <;> obtain rfl := Option.some.inj hs <;> exact .same s _
  | read r =>
    simp only [Proc.next] at hs
    split at hs
    · obtain rfl := Option.some.inj hs
      exact .same s _
    · rw [Option.ite_none_right_eq_some] at hs
      obtain ⟨-, hs⟩ := hs
      split at hs <;> obtain rfl := Option.some.inj hs <;> exact .same s _
  | parentLocked r =>
    simp only [Proc.next] at hs
    rw [Option.ite_none_right_eq_some] at hs
    obtain ⟨-, hs⟩ := hs
    split at hs <;> obtain rfl := Option.some.inj hs <;> exact .same s _
  | taskLocked r => contradiction

/-- The first statement of `reconcile_chunks` is a plain statement on every row that it matches. -/
theorem reconcile_moved {s : Family} (now : Time)
    (hfree : ((List.range s.table.next).all fun id =>
      !s.table.orphaned id || s.locks id == none) = true) :
    s.table.Moved (s.table.map fun id t =>
      if s.table.orphaned id then (reconcileChunk now t).getD t else t) s.locks where
  none id h := by simp only [Table.map, h, Option.map_none]
  some id t ht := by
    refine ⟨if s.table.orphaned id then (reconcileChunk now t).getD t else t, ?_, ?_⟩
    · simp only [Table.map, ht, Option.map_some]
    split
    · next ho =>
      have hl : s.locks id = none := by
        have hlt : id < s.table.next := by
          by_contra hge
          rw [s.table.fresh id (by omega)] at ht
          contradiction
        have := List.all_eq_true.mp hfree id (List.mem_range.mpr hlt)
        simpa [ho] using this
      cases hr : reconcileChunk now t with
      | none => exact .inl rfl
      | some t' =>
        have hrun : (Write.reconcile now).run t = some t' := hr
        exact .inr ⟨Write.run_moves rfl hrun, hl⟩
    · exact .inl rfl

/-- The first statement of `reconcile_chunks` takes no parent out of its wait. -/
theorem reconcile_waiting {s : Family} {now : Time} {p : ℕ} {t t' : Task}
    (ht : s.table.rows p = some t)
    (ht' : (s.table.map fun id t =>
      if s.table.orphaned id then (reconcileChunk now t).getD t else t).rows p = some t')
    (hw : t.status = .waiting) : t'.status = .waiting := by
  simp only [Table.map, ht, Option.map_some, Option.some.injEq] at ht'
  subst ht'
  have hno : reconcileChunk now t = none := by simp [reconcileChunk, hw]
  rw [hno]
  simpa using hw

/-- Every step changes the table in one of these ways. -/
theorem Family.step_change {s s' : Family} {a : FamilyAct} (hs : s.step a = some s') :
    s.Change a s'.table := by
  cases a with
  | enqueue kind host source rest parent_id =>
    simp only [Family.step] at hs
    rw [Option.ite_none_right_eq_some] at hs
    obtain ⟨hg, hs⟩ := hs
    obtain rfl := Option.some.inj hs
    refine .enqueued _ rfl (fun p hp => ?_) rfl
    have hp : parent_id = some p := hp
    rw [hp] at hg
    simp only [Option.all_some, Bool.and_eq_true, Option.any_eq_true_iff_get] at hg
    obtain ⟨-, hsome, hrun⟩ := hg
    exact ⟨_, (Option.some_get hsome).symm, by simpa using hrun.1⟩
  -- A row that waits goes on to, unless it is the one that is written.
  | write id w =>
    simp only [Family.step] at hs
    split at hs
    · contradiction
    · next t ht =>
      rw [Option.ite_none_right_eq_some] at hs
      obtain ⟨⟨hfits, hl⟩, hs⟩ := hs
      obtain ⟨t', hrun, rfl⟩ := Option.map_eq_some_iff.mp hs
      refine .moved (.write ht (Write.run_moves hfits hrun) hl) fun p u u' hu hu' hw => ?_
      rcases Table.write_rows_cases hu' with ⟨rfl, rfl⟩ | ⟨-, hrow⟩
      · rw [ht] at hu
        obtain rfl := Option.some.inj hu
        exact .inr ⟨w, rfl, hrun⟩
      · rw [hu] at hrow
        obtain rfl := Option.some.inj hrow
        exact .inl hw
  | chunkEnded k parent =>
    simp only [Family.step] at hs
    rw [Option.ite_none_right_eq_some] at hs
    obtain rfl := Option.some.inj hs.2
    exact .same s _
  | reconcile k now =>
    simp only [Family.step] at hs
    rw [Option.ite_none_right_eq_some] at hs
    obtain ⟨⟨-, hfree⟩, hs⟩ := hs
    obtain rfl := Option.some.inj hs
    exact .moved (reconcile_moved now hfree) fun p t t' ht ht' hw =>
      .inl (reconcile_waiting ht ht' hw)
  | retry k task =>
    simp only [Family.step] at hs
    split at hs
    · contradiction
    · rw [Option.ite_none_right_eq_some] at hs
      obtain ⟨-, hs⟩ := hs
      split at hs
      · obtain rfl := Option.some.inj hs
        exact .same s _
      · rw [Option.ite_none_right_eq_some] at hs
        obtain rfl := Option.some.inj hs.2
        exact .same s _
  | next k now =>
    obtain ⟨proc, hk, hnext⟩ := Option.bind_eq_some_iff.mp hs
    exact Proc.next_change hk hnext
  -- The commit of a recovery.
  | reopen k x y =>
    simp only [Family.step] at hs
    split at hs
    · next r hk =>
      split at hs <;> obtain rfl := Option.some.inj hs
      · exact .same s _
      · next t hre => exact .recovered k r x y t rfl hk hre rfl
    · contradiction
  | abort k =>
    obtain rfl := Option.some.inj hs
    exact .same s _

/-- Every step keeps the invariant. -/
theorem Family.Inv.step {s s' : Family} {a : FamilyAct} (h : s.Inv) (hs : s.step a = some s') :
    s'.Inv := by
  cases a with
  -- A chunk is enqueued by a running parent only.
  | enqueue kind host source rest parent_id =>
    simp only [Family.step] at hs
    rw [Option.ite_none_right_eq_some] at hs
    obtain ⟨hg, hs⟩ := hs
    obtain rfl := Option.some.inj hs
    refine h.enqueue rfl fun p hp => ?_
    have hp : parent_id = some p := hp
    subst hp
    simp only [Option.all_some, Bool.and_eq_true, Option.any_eq_true_iff_get] at hg
    obtain ⟨hkind, hsome, hrun⟩ := hg
    refine ⟨?_, _, (Option.some_get hsome).symm, by simpa using hrun.1, by simpa using hrun.2⟩
    unfold Task.chunkOf Queue.enqueue
    rw [Bool.and_eq_true, beq_iff_eq]
    exact ⟨hkind, rfl⟩
  | write id w =>
    simp only [Family.step] at hs
    split at hs
    · contradiction
    · next t ht =>
      rw [Option.ite_none_right_eq_some] at hs
      obtain ⟨⟨hfits, hl⟩, hs⟩ := hs
      obtain ⟨t', hrun, rfl⟩ := Option.map_eq_some_iff.mp hs
      have hm : s.table.Moved (s.table.write id t') s.locks :=
        .write ht (Write.run_moves hfits hrun) hl
      exact h.change (Table.Moved.keeps hm h.tidy) (hm.tidy h.tidy)
  | chunkEnded k parent =>
    simp only [Family.step] at hs
    rw [Option.ite_none_right_eq_some] at hs
    obtain rfl := Option.some.inj hs.2
    exact h.moveTo nofun trivial
  -- Two statements of one act: the chunks are reconciled, and the pass begins.
  | reconcile k now =>
    simp only [Family.step] at hs
    rw [Option.ite_none_right_eq_some] at hs
    obtain ⟨⟨-, hfree⟩, hs⟩ := hs
    obtain rfl := Option.some.inj hs
    have hm := reconcile_moved now hfree
    have hinv := h.change (Table.Moved.keeps hm h.tidy) (hm.tidy h.tidy)
    have hmoved := hinv.moveTo (k := k) (q := .reconciling) nofun trivial
    exact hmoved
  -- What the recovery has checked when it begins: with a parent or without.
  | retry k task =>
    simp only [Family.step] at hs
    split at hs
    · contradiction
    · next t ht =>
      rw [Option.ite_none_right_eq_some] at hs
      obtain ⟨⟨-, hfail, hmark⟩, hs⟩ := hs
      split at hs
      · next hp =>
        obtain rfl := Option.some.inj hs
        refine h.moveTo nofun ⟨hfail, hmark, hp, fun p tp hr => ?_⟩
        contradiction
      · next p hp =>
        rw [Option.ite_none_right_eq_some] at hs
        obtain rfl := Option.some.inj hs.2
        exact h.moveTo nofun ⟨hfail, hmark, hp⟩
  | next k now =>
    obtain ⟨proc, hk, hnext⟩ := Option.bind_eq_some_iff.mp hs
    exact h.next hk hnext
  -- The family stays tidy by what the recovery has checked.
  | reopen k x y =>
    simp only [Family.step] at hs
    split at hs
    · next r hk =>
      split at hs <;> obtain rfl := Option.some.inj hs
      · exact h.leave
      · next t hre =>
        have hready := h.ready hk
        have hinv : (s.move k none).Inv := h.leave
        exact hinv.change (hready.keeps hinv.tidy hre) (hready.tidy hinv.tidy hre)
    · contradiction
  | abort k =>
    obtain rfl := Option.some.inj hs
    exact h.leave

/-- Every reachable family keeps the invariant. -/
theorem Family.inv_of_run {s : Family} (h : Run Family.step Always Family.empty s) : s.Inv := by
  have hrow : ∀ id t, Family.empty.table.rows id ≠ some t := by
    intro id t ht
    contradiction
  have hproc : ∀ k proc, Family.empty.procs k ≠ some proc := by
    intro k proc hk
    contradiction
  have hempty : Family.empty.Inv := by
    refine ⟨⟨fun id t ht => ?_, fun id t p ht => ?_, fun id hid => ?_, fun id t p _ ht => ?_⟩,
      fun k proc hk => ?_, fun k proc hk => ?_⟩
    · exact absurd ht (hrow id t)
    · exact absurd ht (hrow id t)
    · contradiction
    · exact absurd ht (hrow id t)
    · exact absurd hk (hproc k proc)
    · exact absurd hk (hproc k proc)
  exact h.invariant hempty fun s a s' hi _ hs => hi.step hs

end JobScripts.Queue

import JobScripts.Queue.Parents.Invariant

/-!
# The ends and the recoveries

What `maybe_finalize_parent` and `payload_recovery.retry` write keeps the invariant: an end, because no
chunk is live, and a recovery, because it has locked the parent before the chunk.
-/

namespace JobScripts.Queue

/-- A row that is no chunk of the parent before and after does not count. -/
theorem RowKept.of_not_chunk {p : ℕ} {t t' : Task} (h : t.chunkOf p = false)
    (h' : t'.chunkOf p = false) : RowKept p (some t) (some t') := by
  simp [RowKept, h, h']

/-- A row that stays as it is counts as it did. -/
theorem RowKept.of_eq {tb : Table} {p : ℕ} (hn : tb.NoneLive p) (id : ℕ) :
    RowKept p (tb.rows id) (tb.rows id) := by
  refine ⟨?_, rfl⟩
  cases hrow : tb.rows id with
  | none => rfl
  | some t =>
    cases hc : t.chunkOf p with
    | false => simp [hc]
    | true => simp [hc, hn id t hrow hc]

/-- A task whose kind is no chunk's is no chunk. -/
theorem Task.chunkOf_of_kind {t : Task} (h : chunkKinds.contains t.kind = false) (p : ℕ) :
    t.chunkOf p = false := by
  unfold Task.chunkOf
  rw [h]
  rfl

/-- A waiting row is no chunk. -/
theorem Tidy.not_chunk_of_waiting {tb : Table} {ro : ℕ → Bool} (ht : Tidy tb ro) {id : ℕ}
    {t : Task} (hrow : tb.rows id = some t) (hw : t.status = .waiting) :
    chunkKinds.contains t.kind = false := by
  by_contra hc
  rw [Bool.not_eq_false] at hc
  exact ht.chunk id t hrow hc hw

/-- A row of a table in which one row was written. -/
theorem Table.write_rows_cases {tb : Table} {id id' : ℕ} {t u : Task}
    (hu : (tb.write id t).rows id' = some u) :
    (id' = id ∧ u = t) ∨ (id' ≠ id ∧ tb.rows id' = some u) := by
  by_cases hid : id' = id
  · left
    rw [write_rows, Option.map_eq_some_iff] at hu
    obtain ⟨v, -, hv⟩ := hu
    rw [if_pos hid] at hv
    exact ⟨hid, hv.symm⟩
  · rw [write_rows_of_ne hid] at hu
    exact .inr ⟨hid, hu⟩

/-- What `maybe_finalize_parent` writes. -/
theorem finalizeParent_spec {n : ℕ} {now : Time} {t t' : Task}
    (h : finalizeParent n now t = some t') :
    t.status = .waiting ∧ t'.kind = t.kind ∧ t'.parent_id = t.parent_id ∧
      t'.status = if n = 0 then .done else .failed := by
  simp only [finalizeParent, Option.ite_none_right_eq_some, Option.some.injEq, beq_iff_eq] at h
  obtain ⟨hw, rfl⟩ := h
  exact ⟨hw, rfl, rfl, rfl⟩

/-- The end of a parent without a live chunk, on a row that no other process holds: the others do not
notice. -/
theorem finalize_keeps {s : Family} {p n : ℕ} {now : Time} {t t' : Task}
    (ht : Tidy s.table s.reopened) (hrow : s.table.rows p = some t) (hl : s.locks p = none)
    (hf : finalizeParent n now t = some t') : Keeps s (s.table.write p t') := by
  obtain ⟨hw, hkind, -, -⟩ := finalizeParent_spec hf
  have hnot := ht.not_chunk_of_waiting hrow hw
  refine ⟨fun id u hid hu => ?_, fun q _ _ hnq id => ?_⟩
  · have hne : id ≠ p := by
      rintro rfl
      exact hid hl
    rw [Table.write_rows_of_ne hne]
    exact hu
  · by_cases hid : id = p
    · subst hid
      rw [Table.write_rows_self hrow, hrow]
      exact .of_not_chunk (Task.chunkOf_of_kind hnot q)
        (Task.chunkOf_of_kind (by rw [hkind]; exact hnot) q)
    · rw [Table.write_rows_of_ne hid]
      exact .of_eq hnq id

/-- The end of a parent without a live chunk keeps the rows tidy. -/
theorem finalize_tidy {tb : Table} {ro : ℕ → Bool} {p n : ℕ} {now : Time} {t t' : Task}
    (ht : Tidy tb ro) (hrow : tb.rows p = some t) (hn : tb.NoneLive p)
    (hf : finalizeParent n now t = some t') : Tidy (tb.write p t') ro := by
  obtain ⟨hw, hkind, hpid, hst⟩ := finalizeParent_spec hf
  have hnw : t'.status ≠ .waiting ∧ t'.status.live = false := by
    rw [hst]
    split <;> exact ⟨nofun, rfl⟩
  refine ht.of_framed (.write hrow hkind hpid) ?_ ht.there ?_
  · intro id u hu hc
    rcases Table.write_rows_cases hu with ⟨-, rfl⟩ | ⟨-, hu'⟩
    · exact hnw.1
    · exact ht.chunk id u hu' hc
  · intro id u q hro hu hlive hq
    rcases Table.write_rows_cases hu with ⟨-, rfl⟩ | ⟨-, hu'⟩
    · rw [hnw.2] at hlive
      contradiction
    · obtain ⟨tp, htp, hs⟩ := ht.reopened id u q hro hu' hlive hq
      have hqp : q ≠ p := by
        -- The task would be a live chunk of the parent.
        rintro rfl
        have := hn id u hu' (ht.parent id u q hu' hq).1
        rw [hlive] at this
        contradiction
      exact ⟨tp, by rw [Table.write_rows_of_ne hqp]; exact htp, hs⟩

/-- What a recovery writes on the task. -/
theorem retry_spec {accepted has_results : Bool} {t t' : Task}
    (h : retry accepted has_results t = some t') :
    t.status = .failed ∧ t'.kind = t.kind ∧ t'.parent_id = t.parent_id ∧ t'.status = .pending := by
  simp only [retry, Option.ite_none_right_eq_some, Option.some.injEq, Bool.and_eq_true,
    beq_iff_eq] at h
  obtain ⟨hc, rfl⟩ := h
  exact ⟨hc.1.1, rfl, rfl, rfl⟩

/-- What a recovery writes on a parent that had failed. -/
theorem reopenParent_spec {t t' : Task} (h : reopenParent t = some t') :
    t.status = .failed ∧ t'.kind = t.kind ∧ t'.parent_id = t.parent_id ∧ t'.status = .waiting := by
  simp only [reopenParent, Option.ite_none_right_eq_some, Option.some.injEq, Bool.and_eq_true,
    beq_iff_eq] at h
  obtain ⟨hc, rfl⟩ := h
  exact ⟨hc.1, rfl, rfl, rfl⟩

/-- The table after a recovery: the task's row is the one written, its parent waits, and the other rows
are as they were. -/
theorem Recovery.commit_spec {r : Recovery} {tb : Table} {t : Task} (hc : r.Checked)
    (htask : tb.rows r.task = some r.source)
    (hparent : ∀ p tp, r.parent = some (p, tp) → tb.rows p = some tp ∧ p ≠ r.task) :
    (r.commit tb t).rows r.task = some t ∧
      (∀ p tp, r.parent = some (p, tp) → ∃ tp', (r.commit tb t).rows p = some tp' ∧
        tp'.kind = tp.kind ∧ tp'.parent_id = tp.parent_id ∧ tp'.status = .waiting) ∧
      ∀ id, id ≠ r.task → (∀ p tp, r.parent = some (p, tp) → id ≠ p) →
        (r.commit tb t).rows id = tb.rows id := by
  match hr : r.parent with
  | none =>
    have hcm : r.commit tb t = tb.write r.task t := by
      unfold Recovery.commit
      rw [hr]
    rw [hcm]
    refine ⟨Table.write_rows_self htask, fun p tp h => ?_, fun id hid _ => ?_⟩
    · cases h
    · exact Table.write_rows_of_ne hid
  | some (p, tp) =>
    obtain ⟨hp, hne⟩ := hparent p tp hr
    match hre : reopenParent tp with
    | none =>
      have hcm : r.commit tb t = tb.write r.task t := by
        unfold Recovery.commit
        rw [hr]
        dsimp only
        rw [hre]
      rw [hcm]
      refine ⟨Table.write_rows_self htask, fun p' tp' h => ?_, fun id hid _ => ?_⟩
      · obtain ⟨rfl, rfl⟩ := Prod.mk.inj (Option.some.inj h)
        refine ⟨tp, by rw [Table.write_rows_of_ne hne]; exact hp, rfl, rfl, ?_⟩
        have hrec := hc.recoverable p tp hr
        simp only [recoverableParent, Bool.or_eq_true, beq_iff_eq] at hrec
        rcases hrec with hw | hfail
        · exact hw
        · simp [reopenParent, hfail] at hre
      · exact Table.write_rows_of_ne hid
    | some tp₂ =>
      obtain ⟨-, hk, hpid, hw⟩ := reopenParent_spec hre
      have hcm : r.commit tb t = (tb.write p tp₂).write r.task t := by
        unfold Recovery.commit
        rw [hr]
        dsimp only
        rw [hre]
      have htask' : (tb.write p tp₂).rows r.task = some r.source := by
        rw [Table.write_rows_of_ne (Ne.symm hne)]
        exact htask
      rw [hcm]
      refine ⟨Table.write_rows_self htask', fun p' tp' h => ?_, fun id hid hid' => ?_⟩
      · obtain ⟨rfl, rfl⟩ := Prod.mk.inj (Option.some.inj h)
        refine ⟨tp₂, ?_, hk, hpid, hw⟩
        rw [Table.write_rows_of_ne hne]
        exact Table.write_rows_self hp
      · rw [Table.write_rows_of_ne hid, Table.write_rows_of_ne (hid' p tp rfl)]

/-- What a recovery finds in its transaction, when no other process holds its rows. -/
structure Recovery.Ready (s : Family) (r : Recovery) : Prop where
  checked : r.Checked
  task : s.table.rows r.task = some r.source
  parent : ∀ p tp, r.parent = some (p, tp) → s.table.rows p = some tp
  task_free : s.locks r.task = none
  parent_free : ∀ p tp, r.parent = some (p, tp) → s.locks p = none

namespace Recovery.Ready

variable {s : Family} {r : Recovery}

/-- The parent is no chunk, and not the task itself. -/
theorem parent_kind (h : r.Ready s) (ht : Tidy s.table s.reopened) {p : ℕ} {tp : Task}
    (hr : r.parent = some (p, tp)) :
    chunkKinds.contains tp.kind = false ∧ p ≠ r.task := by
  have hpid : r.source.parent_id = some p := by rw [h.checked.parent_id, hr]; rfl
  obtain ⟨hc, tp', htp', hk⟩ := ht.parent r.task r.source p h.task hpid
  have htp := h.parent p tp hr
  rw [htp] at htp'
  obtain rfl := Option.some.inj htp'
  refine ⟨hk, ?_⟩
  rintro rfl
  rw [h.task] at htp
  obtain rfl := Option.some.inj htp
  rw [Task.chunkOf_of_kind hk] at hc
  contradiction

/-- What the table holds after the commit. -/
theorem commit_spec (h : r.Ready s) (ht : Tidy s.table s.reopened) (t : Task) :
    (r.commit s.table t).rows r.task = some t ∧
      (∀ p tp, r.parent = some (p, tp) → ∃ tp', (r.commit s.table t).rows p = some tp' ∧
        tp'.kind = tp.kind ∧ tp'.parent_id = tp.parent_id ∧ tp'.status = .waiting) ∧
      ∀ id, id ≠ r.task → (∀ p tp, r.parent = some (p, tp) → id ≠ p) →
        (r.commit s.table t).rows id = s.table.rows id :=
  Recovery.commit_spec h.checked h.task fun p tp hr =>
    ⟨h.parent p tp hr, (h.parent_kind ht hr).2⟩

/-- A recovery's task is a chunk of its own parent only. -/
theorem not_chunk (h : r.Ready s) {q : ℕ} (hq : ∀ p tp, r.parent = some (p, tp) → q ≠ p) :
    r.source.chunkOf q = false := by
  unfold Task.chunkOf
  rw [h.checked.parent_id, Bool.and_eq_false_iff]
  right
  cases hr : r.parent with
  | none => rfl
  | some pt =>
    have hne := hq pt.1 pt.2 hr
    rw [Option.map_some, beq_eq_false_iff_ne]
    intro heq
    exact hne (Option.some.inj heq).symm

/-- A row is the task's, its parent's or another. -/
theorem rows_cases (r : Recovery) (id : ℕ) :
    id = r.task ∨ (∃ p tp, r.parent = some (p, tp) ∧ id = p ∧ id ≠ r.task) ∨
      (id ≠ r.task ∧ ∀ p tp, r.parent = some (p, tp) → id ≠ p) := by
  by_cases hid : id = r.task
  · exact .inl hid
  · by_cases hp : ∃ p tp, r.parent = some (p, tp) ∧ id = p
    · obtain ⟨p, tp, hr, hidp⟩ := hp
      exact .inr (.inl ⟨p, tp, hr, hidp, hid⟩)
    · push Not at hp
      exact .inr (.inr ⟨hid, hp⟩)

/-- A recovery is not noticed by the processes that hold other rows. -/
theorem keeps (h : r.Ready s) (ht : Tidy s.table s.reopened) {a b : Bool} {t : Task}
    (hre : retry a b r.source = some t) : Keeps s (r.commit s.table t) := by
  obtain ⟨htask, hpar, hother⟩ := h.commit_spec ht t
  obtain ⟨-, hk, hpid, -⟩ := retry_spec hre
  refine ⟨fun id u hid hu => ?_, fun q hq _ hnq id => ?_⟩
  · rw [hother id ?_ ?_]
    · exact hu
    · rintro rfl
      exact hid h.task_free
    · rintro p tp hr rfl
      exact hid (h.parent_free id tp hr)
  · have hqp : ∀ p tp, r.parent = some (p, tp) → q ≠ p := by
      rintro p tp hr rfl
      exact hq (h.parent_free q tp hr)
    rcases rows_cases r id with rfl | ⟨p, tp, hr, rfl, -⟩ | ⟨hid, hid'⟩
    · rw [htask, h.task]
      exact .of_not_chunk (h.not_chunk hqp)
        (by rw [Task.chunkOf_congr hk hpid]; exact h.not_chunk hqp)
    · obtain ⟨tp', htp', hk', -, -⟩ := hpar id tp hr
      have hnot := (h.parent_kind ht hr).1
      rw [htp', h.parent id tp hr]
      exact .of_not_chunk (Task.chunkOf_of_kind hnot q)
        (Task.chunkOf_of_kind (by rw [hk']; exact hnot) q)
    · rw [hother id hid hid']
      exact .of_eq hnq id

/-- A recovery keeps the rows tidy: the parent of the task that it reopens waits. -/
theorem tidy (h : r.Ready s) (ht : Tidy s.table s.reopened) {a b : Bool} {t : Task}
    (hre : retry a b r.source = some t) :
    Tidy (r.commit s.table t) (Function.update s.reopened r.task true) := by
  obtain ⟨htask, hpar, hother⟩ := h.commit_spec ht t
  obtain ⟨hfail, hk, hpid, hpend⟩ := retry_spec hre
  -- No row goes away, and kinds and parents stay.
  have hframed : s.table.Framed (r.commit s.table t) := by
    constructor
    · intro id hid
      rw [hother id ?_ ?_]
      · exact hid
      · rintro rfl
        rw [h.task] at hid
        contradiction
      · rintro p tp hr rfl
        rw [h.parent id tp hr] at hid
        contradiction
    · intro id u hu
      rcases rows_cases r id with rfl | ⟨p, tp, hr, rfl, -⟩ | ⟨hid, hid'⟩
      · rw [h.task] at hu
        obtain rfl := Option.some.inj hu
        exact ⟨t, htask, hk, hpid⟩
      · rw [h.parent id tp hr] at hu
        obtain rfl := Option.some.inj hu
        obtain ⟨tp', htp', hk', hpid', -⟩ := hpar id tp hr
        exact ⟨tp', htp', hk', hpid'⟩
      · exact ⟨u, by rw [hother id hid hid']; exact hu, rfl, rfl⟩
  refine ht.of_framed hframed ?_ ?_ ?_
  -- A chunk that is written is pending, so that its parent does not wait for nothing.
  · intro id u hu hc
    rcases rows_cases r id with rfl | ⟨p, tp, hr, rfl, -⟩ | ⟨hid, hid'⟩
    · rw [htask] at hu
      obtain rfl := Option.some.inj hu
      rw [hpend]
      nofun
    · obtain ⟨tp', htp', hk', -, -⟩ := hpar id tp hr
      rw [htp'] at hu
      obtain rfl := Option.some.inj hu
      rw [hk', (h.parent_kind ht hr).1] at hc
      contradiction
    · rw [hother id hid hid'] at hu
      exact ht.chunk id u hu hc
  -- What is reopened is a row of the table.
  · intro id hid
    by_cases hne : id = r.task
    · subst hne
      exact ⟨r.source, h.task⟩
    · rw [Function.update_of_ne hne] at hid
      exact ht.there id hid
  · intro id u q hro hu hlive hq
    rcases rows_cases r id with rfl | ⟨p, tp, hr, rfl, -⟩ | ⟨hid, hid'⟩
    · -- The task itself: its parent was reopened with it.
      rw [htask] at hu
      obtain rfl := Option.some.inj hu
      rw [hpid, h.checked.parent_id, Option.map_eq_some_iff] at hq
      obtain ⟨⟨p, tp⟩, hr, rfl⟩ := hq
      obtain ⟨tp', htp', -, -, hw⟩ := hpar p tp hr
      exact ⟨tp', htp', .inl hw⟩
    · obtain ⟨tp', htp', -, -, hw⟩ := hpar id tp hr
      rw [htp'] at hu
      obtain rfl := Option.some.inj hu
      rw [hw] at hlive
      contradiction
    · rw [hother id hid hid'] at hu
      rw [Function.update_of_ne hid] at hro
      obtain ⟨tq, htq, hst⟩ := ht.reopened id u q hro hu hlive hq
      rcases rows_cases r q with rfl | ⟨p, tp, hr, rfl, -⟩ | ⟨hq1, hq2⟩
      · -- The task is failed, so it is not the waiting parent of another.
        rw [h.task] at htq
        obtain rfl := Option.some.inj htq
        rw [hfail] at hst
        rcases hst with hst | hst <;> contradiction
      · obtain ⟨tp', htp', -, -, hw⟩ := hpar q tp hr
        exact ⟨tp', htp', .inl hw⟩
      · exact ⟨tq, by rw [hother q hq1 hq2]; exact htq, hst⟩

end Recovery.Ready

end JobScripts.Queue

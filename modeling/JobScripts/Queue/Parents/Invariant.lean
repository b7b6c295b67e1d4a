import JobScripts.Queue.Parents.Family

/-!
# The invariant of parents and chunks

While a process holds the parent's row, no chunk of the parent becomes live and no finished chunk
changes its end (`RowKept`), so that what the process has counted holds until it commits
(`Proc.Sound`). Statements outside of the two transactions keep this (`Table.Moved`), and that the
parent of a chunk which was reopened and is live waits, unless it was cancelled (`Tidy`).
-/

namespace JobScripts.Queue

/-! ## Counts as statements about rows -/

namespace Table

variable {tb tb' : Table} {p : ℕ}

/-- A count does not depend on where the ids end. -/
theorem count_eq_countP (tb : Table) (P : Task → Bool) {n : ℕ} (hn : tb.next ≤ n) :
    tb.count P = (List.range n).countP fun id => (tb.rows id).any P := by
  obtain ⟨m, rfl⟩ := Nat.exists_eq_add_of_le hn
  have htail : ((List.range m).map (tb.next + ·)).countP (fun id => (tb.rows id).any P) = 0 := by
    rw [List.countP_eq_zero]
    intro id hid
    obtain ⟨i, -, rfl⟩ := List.mem_map.mp hid
    rw [tb.fresh _ (Nat.le_add_right _ _)]
    simp
  rw [List.range_add, List.countP_append, htail]
  rfl

/-- Tables whose rows agree on a property count the same. -/
theorem count_congr {P : Task → Bool} (h : ∀ id, (tb'.rows id).any P = (tb.rows id).any P) :
    tb'.count P = tb.count P := by
  rw [tb'.count_eq_countP P (Nat.le_max_left _ tb.next),
    tb.count_eq_countP P (Nat.le_max_right tb'.next _)]
  refine List.countP_congr fun id _ => ?_
  rw [h id]

/-- A count is zero when no row has the property. -/
theorem count_eq_zero_iff (tb : Table) (P : Task → Bool) :
    tb.count P = 0 ↔ ∀ id t, tb.rows id = some t → P t = false := by
  unfold count
  rw [List.countP_eq_zero]
  constructor
  · intro h id t ht
    have hlt : id < tb.next := by
      by_contra hge
      rw [tb.fresh id (by omega)] at ht
      contradiction
    have := h id (List.mem_range.mpr hlt)
    rw [ht] at this
    simpa using this
  · intro h id _
    cases ht : tb.rows id with
    | none => simp
    | some t => simp [h id t ht]

/-- No chunk of the parent is live. -/
def NoneLive (tb : Table) (p : ℕ) : Prop :=
  ∀ id t, tb.rows id = some t → t.chunkOf p = true → t.status.live = false

/-- The count of live chunks is zero when no chunk is live. -/
theorem liveChunks_eq_zero_iff (tb : Table) (p : ℕ) : tb.liveChunks p = 0 ↔ tb.NoneLive p := by
  unfold liveChunks
  rw [count_eq_zero_iff]
  simp only [Bool.and_eq_false_imp]
  rfl

/-- Some chunk of the parent has failed. -/
def SomeFailed (tb : Table) (p : ℕ) : Prop :=
  ∃ id t, tb.rows id = some t ∧ t.chunkOf p = true ∧ t.status = .failed

/-- The count of failed chunks is zero when no chunk has failed. -/
theorem failedChunks_eq_zero_iff (tb : Table) (p : ℕ) :
    tb.failedChunks p = 0 ↔ ¬ tb.SomeFailed p := by
  unfold failedChunks SomeFailed
  rw [count_eq_zero_iff]
  push Not
  simp only [Bool.and_eq_false_imp, beq_eq_false_iff_ne, ne_eq]

/-- The parent's row is waiting. -/
def Waits (tb : Table) (p : ℕ) : Prop := ∃ t, tb.rows p = some t ∧ t.status = .waiting

/-- What a written table holds. -/
theorem write_rows (tb : Table) (id : ℕ) (t : Task) (id' : ℕ) :
    (tb.write id t).rows id' = (tb.rows id').map fun t' => if id' = id then t else t' := rfl

/-- The row that was written. -/
theorem write_rows_self {id : ℕ} {t t' : Task} (h : tb.rows id = some t') :
    (tb.write id t).rows id = some t := by
  rw [write_rows, h]
  simp

/-- The other rows. -/
theorem write_rows_of_ne {id id' : ℕ} {t : Task} (h : id' ≠ id) :
    (tb.write id t).rows id' = tb.rows id' := by
  rw [write_rows]
  cases tb.rows id' <;> simp [h]

end Table

/-! ## What a process relies on -/

/-- What `payload_recovery.retry` checked of the rows that it read: the task is failed and marked, and
a task with a parent is a chunk whose parent waits, or failed for its chunks. -/
structure Recovery.Checked (r : Recovery) : Prop where
  failed : r.source.status = .failed
  marked : r.source.payload.payload_recovery = true
  parent_id : r.source.parent_id = r.parent.map Prod.fst
  recoverable : ∀ p t, r.parent = some (p, t) → recoverableParent t = true

/-- What a process relies on at each place. -/
def Proc.Sound (tb : Table) : Proc → Prop
  | .finalizing p .locked _ => tb.Waits p
  | .finalizing p .noneLive _ => tb.Waits p ∧ tb.NoneLive p
  | .finalizing p (.counted n) _ => tb.Waits p ∧ tb.NoneLive p ∧ n = tb.failedChunks p
  | .reading _ source p =>
    source.status = .failed ∧ source.payload.payload_recovery = true ∧ source.parent_id = some p
  | .read r => r.Checked
  | .parentLocked r => r.Checked ∧ ∀ p t, r.parent = some (p, t) → tb.rows p = some t
  | .taskLocked r => r.Checked ∧ (∀ p t, r.parent = some (p, t) → tb.rows p = some t) ∧
      tb.rows r.task = some r.source
  | _ => True

/-- A row across a change of the table, for the counts of a parent without a live chunk: it is no live
chunk, and it is a failed chunk if it was one. -/
def RowKept (p : ℕ) (o o' : Option Task) : Prop :=
  (o'.any fun t => t.chunkOf p && t.status.live) = false ∧
    (o'.any fun t => t.chunkOf p && t.status == .failed) =
      o.any fun t => t.chunkOf p && t.status == .failed

/-- A change of the table that the processes do not notice: the rows that they hold are as they were,
and so are the counts of a waiting parent that one of them holds. -/
structure Keeps (s : Family) (tb' : Table) : Prop where
  rows : ∀ id t, s.locks id ≠ none → s.table.rows id = some t → tb'.rows id = some t
  chunks : ∀ p, s.locks p ≠ none → s.table.Waits p → s.table.NoneLive p →
    ∀ id, RowKept p (s.table.rows id) (tb'.rows id)

/-- What a process relies on survives a change that it does not notice. -/
theorem Proc.Sound.keep {s : Family} {tb' : Table} {proc : Proc} (h : proc.Sound s.table)
    (hl : ∀ id, proc.holds id = true → s.locks id ≠ none) (hk : Keeps s tb') :
    proc.Sound tb' := by
  have hwaits : ∀ p, s.locks p ≠ none → s.table.Waits p → tb'.Waits p := by
    rintro p hp ⟨t, ht, hw⟩
    exact ⟨t, hk.rows p t hp ht, hw⟩
  have hlive : ∀ p, s.locks p ≠ none → s.table.Waits p → s.table.NoneLive p → tb'.NoneLive p := by
    intro p hp hw hn id t ht hc
    have := (hk.chunks p hp hw hn id).1
    rw [ht] at this
    simpa [hc] using this
  have hfailed : ∀ p, s.locks p ≠ none → s.table.Waits p → s.table.NoneLive p →
      tb'.failedChunks p = s.table.failedChunks p := fun p hp hw hn =>
    Table.count_congr fun id => (hk.chunks p hp hw hn id).2
  match proc, h with
  | .finalizing p .locked rest, h => exact hwaits p (hl p (by simp [Proc.holds])) h
  | .finalizing p .noneLive rest, h =>
    have hp := hl p (by simp [Proc.holds])
    exact ⟨hwaits p hp h.1, hlive p hp h.1 h.2⟩
  | .finalizing p (.counted n) rest, h =>
    have hp := hl p (by simp [Proc.holds])
    exact ⟨hwaits p hp h.1, hlive p hp h.1 h.2.1, by rw [hfailed p hp h.1 h.2.1]; exact h.2.2⟩
  | .parentLocked r, h =>
    exact ⟨h.1, fun p t hr => hk.rows p t (hl p (by simp [Proc.holds, hr])) (h.2 p t hr)⟩
  | .taskLocked r, h =>
    refine ⟨h.1, fun p t hr => ?_, ?_⟩
    · exact hk.rows p t (hl p (by simp [Proc.holds, hr])) (h.2.1 p t hr)
    · exact hk.rows r.task r.source (hl r.task (by simp [Proc.holds])) h.2.2
  | .reading _ _ _, h => exact h
  | .read _, h => exact h
  | .reconciling, _ => trivial
  | .calls _, _ => trivial
  | .finalizing _ (.summed _) _, _ => trivial
  | .finalizing _ .progressed _, _ => trivial

/-! ## The invariant -/

/-- What holds of the rows alone. No chunk waits as a parent does, the parent of a chunk is there and
is not a chunk, and while a task that a recovery reopened is live its parent waits, unless it was
cancelled. -/
structure Tidy (tb : Table) (reopened : ℕ → Bool) : Prop where
  chunk : ∀ id t, tb.rows id = some t → chunkKinds.contains t.kind = true → t.status ≠ .waiting
  parent : ∀ id t p, tb.rows id = some t → t.parent_id = some p →
    t.chunkOf p = true ∧ ∃ tp, tb.rows p = some tp ∧ chunkKinds.contains tp.kind = false
  there : ∀ id, reopened id = true → ∃ t, tb.rows id = some t
  reopened : ∀ id t p, reopened id = true → tb.rows id = some t → t.status.live = true →
    t.parent_id = some p →
    ∃ tp, tb.rows p = some tp ∧ (tp.status = .waiting ∨ tp.status = .cancelled)

/-- A change of the table that keeps every row's kind and parent. -/
structure Table.Framed (tb tb' : Table) : Prop where
  none : ∀ id, tb.rows id = none → tb'.rows id = none
  some : ∀ id t, tb.rows id = some t →
    ∃ t', tb'.rows id = some t' ∧ t'.kind = t.kind ∧ t'.parent_id = t.parent_id

namespace Table.Framed

variable {tb tb' tb'' : Table}

/-- One row is written. -/
theorem write {id : ℕ} {t t' : Task} (ht : tb.rows id = .some t) (hk : t'.kind = t.kind)
    (hp : t'.parent_id = t.parent_id) : tb.Framed (tb.write id t') where
  none id' h := by
    rw [write_rows, h]
    rfl
  some id' u hu := by
    by_cases hid : id' = id
    · subst hid
      rw [ht] at hu
      obtain rfl := Option.some.inj hu
      exact ⟨t', write_rows_self ht, hk, hp⟩
    · exact ⟨u, by rw [write_rows_of_ne hid, hu], rfl, rfl⟩

/-- A row of the new table comes from one of the old. -/
theorem source (h : tb.Framed tb') {id : ℕ} {t' : Task} (ht' : tb'.rows id = .some t') :
    ∃ t, tb.rows id = .some t ∧ t'.kind = t.kind ∧ t'.parent_id = t.parent_id := by
  cases ht : tb.rows id with
  | none =>
    rw [h.none id ht] at ht'
    contradiction
  | some t =>
    obtain ⟨t'', ht'', hmove⟩ := h.some id t ht
    rw [ht''] at ht'
    obtain rfl := Option.some.inj ht'
    exact ⟨t, rfl, hmove⟩

end Table.Framed

/-- A row is a chunk by its kind and its parent. -/
theorem Task.chunkOf_congr {t t' : Task} (hk : t'.kind = t.kind) (hp : t'.parent_id = t.parent_id)
    (p : ℕ) : t'.chunkOf p = t.chunkOf p := by
  unfold Task.chunkOf
  rw [hk, hp]

/-- What is left to show when a change keeps kinds and parents: no chunk waits, and the parents of
reopened tasks do. -/
theorem Tidy.of_framed {tb tb' : Table} {ro ro' : ℕ → Bool} (ht : Tidy tb ro) (hf : tb.Framed tb')
    (hchunk : ∀ id t', tb'.rows id = some t' → chunkKinds.contains t'.kind = true →
      t'.status ≠ .waiting)
    (hthere : ∀ id, ro' id = true → ∃ t, tb.rows id = some t)
    (hreopened : ∀ id t' p, ro' id = true → tb'.rows id = some t' → t'.status.live = true →
      t'.parent_id = some p →
      ∃ tp, tb'.rows p = some tp ∧ (tp.status = .waiting ∨ tp.status = .cancelled)) :
    Tidy tb' ro' where
  chunk := hchunk
  parent id t' p ht' hp := by
    obtain ⟨t, hrow, hk, hpid⟩ := hf.source ht'
    obtain ⟨hc, tp, htp, hkind⟩ := ht.parent id t p hrow (by rw [← hpid]; exact hp)
    obtain ⟨tp', htp', hk', -⟩ := hf.some p tp htp
    exact ⟨by rw [Task.chunkOf_congr hk hpid]; exact hc, tp', htp', by rw [hk']; exact hkind⟩
  there id hid := by
    obtain ⟨t, hrow⟩ := hthere id hid
    obtain ⟨t', ht', -⟩ := hf.some id t hrow
    exact ⟨t', ht'⟩
  reopened := hreopened

/-- The rows are tidy, a process holds the locks that it took, and what it relies on is so. -/
structure Family.Inv (s : Family) : Prop where
  tidy : Tidy s.table s.reopened
  held : ∀ k proc, s.procs k = some proc → ∀ id, proc.holds id = true → s.locks id = some k
  sound : ∀ k proc, s.procs k = some proc → proc.Sound s.table

namespace Family.Inv

variable {s : Family} {k : ℕ}

/-- A process moves on: it takes only rows that are free, and what it relies on next is so. -/
theorem move (h : s.Inv) (proc : Option Proc)
    (hfree : ∀ q, proc = some q → ∀ id, q.holds id = true → s.locks id = none ∨ s.locks id = some k)
    (hsound : ∀ q, proc = some q → q.Sound s.table) : (s.move k proc).Inv where
  tidy := h.tidy
  held k' q hq id hid := by
    have hq : Function.update s.procs k proc k' = some q := hq
    by_cases hk : k' = k
    · subst hk
      rw [Function.update_self] at hq
      subst hq
      simp [Family.move, hid]
    · rw [Function.update_of_ne hk] at hq
      have hlock := h.held k' q hq id hid
      have hno : (proc.any fun q => q.holds id) = false := by
        rw [Option.any_eq_false]
        intro q' hq'
        by_contra hheld
        rw [Bool.not_eq_false] at hheld
        have hk' : (some k' : Option ℕ) ≠ some k := by simpa using hk
        rcases hfree q' hq' id hheld with hnone | hsome
        · rw [hlock] at hnone
          contradiction
        · exact hk' (hlock.symm.trans hsome)
      simp [Family.move, hno, hlock, hk]
  sound k' q hq := by
    have hq : Function.update s.procs k proc k' = some q := hq
    by_cases hk : k' = k
    · subst hk
      rw [Function.update_self] at hq
      exact hsound q hq
    · rw [Function.update_of_ne hk] at hq
      exact h.sound k' q hq

/-- The table changes in a way that no process notices. -/
theorem change (h : s.Inv) {tb' : Table} {ro' : ℕ → Bool} (hk : Keeps s tb') (ht : Tidy tb' ro') :
    Family.Inv { s with table := tb', reopened := ro' } where
  tidy := ht
  held := h.held
  sound k' q hq := (h.sound k' q hq).keep (fun id hid => by rw [h.held k' q hq id hid]; simp) hk

/-- A process moves to another place. -/
theorem moveTo (h : s.Inv) {q : Proc}
    (hfree : ∀ id, q.holds id = true → s.locks id = none ∨ s.locks id = some k)
    (hsound : q.Sound s.table) : (s.move k (some q)).Inv := by
  refine h.move (some q) (fun q' hq => ?_) fun q' hq => ?_
  · obtain rfl := Option.some.inj hq
    exact hfree
  · obtain rfl := Option.some.inj hq
    exact hsound

/-- A process is over. -/
theorem leave (h : s.Inv) : (s.move k none).Inv := by
  refine h.move none (fun q hq => ?_) fun q hq => ?_
  · contradiction
  · contradiction

end Family.Inv

/-- The table after plain statements on rows that nobody holds. -/
structure Table.Moved (tb tb' : Table) (locks : ℕ → Option ℕ) : Prop where
  none : ∀ id, tb.rows id = none → tb'.rows id = none
  some : ∀ id t, tb.rows id = some t →
    ∃ t', tb'.rows id = some t' ∧ (t' = t ∨ Moves t t' ∧ locks id = .none)

namespace Table.Moved

variable {tb tb' : Table} {locks : ℕ → Option ℕ}

/-- A row of the new table comes from one of the old. -/
theorem source (h : tb.Moved tb' locks) {id : ℕ} {t' : Task} (ht' : tb'.rows id = .some t') :
    ∃ t, tb.rows id = .some t ∧ (t' = t ∨ Moves t t' ∧ locks id = .none) := by
  cases ht : tb.rows id with
  | none =>
    rw [h.none id ht] at ht'
    contradiction
  | some t =>
    obtain ⟨t'', ht'', hmove⟩ := h.some id t ht
    rw [ht''] at ht'
    obtain rfl := Option.some.inj ht'
    exact ⟨t, rfl, hmove⟩

/-- Plain statements keep kinds and parents. -/
theorem framed (h : tb.Moved tb' locks) : tb.Framed tb' where
  none := h.none
  some id t ht := by
    obtain ⟨t', ht', rfl | ⟨hm, -⟩⟩ := h.some id t ht
    · exact ⟨t', ht', rfl, rfl⟩
    · exact ⟨t', ht', hm.kind, hm.parent_id⟩

/-- One plain statement. -/
theorem write {id : ℕ} {t t' : Task} (ht : tb.rows id = .some t) (hm : Moves t t')
    (hl : locks id = .none) : tb.Moved (tb.write id t') locks where
  none id' h := by
    rw [write_rows, h]
    rfl
  some id' u hu := by
    by_cases hid : id' = id
    · subst hid
      rw [ht] at hu
      obtain rfl := Option.some.inj hu
      exact ⟨t', write_rows_self ht, .inr ⟨hm, hl⟩⟩
    · exact ⟨u, by rw [write_rows_of_ne hid, hu], .inl rfl⟩

/-- Plain statements keep the rows tidy. -/
theorem tidy (h : tb.Moved tb' locks) {ro : ℕ → Bool} (ht : Tidy tb ro) : Tidy tb' ro := by
  refine ht.of_framed h.framed ?_ ht.there ?_
  · intro id t' ht' hc hw
    obtain ⟨t, hrow, rfl | ⟨hm, -⟩⟩ := h.source ht'
    · exact ht.chunk id t' hrow hc hw
    · have hc' : chunkKinds.contains t.kind = true := by rw [← hm.kind]; exact hc
      rcases hm.parks hw with hw' | hno
      · exact ht.chunk id t hrow hc' hw'
      · rw [hc'] at hno
        contradiction
  · intro id t' p hro ht' hlive hp
    obtain ⟨t, hrow, hmove⟩ := h.source ht'
    have hold : t.status.live = true ∧ t.parent_id = .some p := by
      rcases hmove with rfl | ⟨hm, -⟩
      · exact ⟨hlive, hp⟩
      · exact ⟨hm.live hlive, by rw [← hm.parent_id]; exact hp⟩
    obtain ⟨tp, htp, hst⟩ := ht.reopened id t p hro hrow hold.1 hold.2
    obtain ⟨tp', htp', rfl | ⟨hm, -⟩⟩ := h.some p tp htp
    · exact ⟨tp', htp', hst⟩
    · refine ⟨tp', htp', ?_⟩
      rcases hst with hw | hc
      · exact hm.waiting hw
      · right
        rw [hm.ended (by rw [hc]; rfl), hc]

/-- Plain statements are not noticed. -/
theorem keeps {s : Family} (h : s.table.Moved tb' s.locks) (ht : Tidy s.table s.reopened) :
    Keeps s tb' where
  rows id t hid hrow := by
    obtain ⟨t', ht', rfl | ⟨-, hl⟩⟩ := h.some id t hrow
    · exact ht'
    · exact absurd hl hid
  chunks p _ _ hn id := by
    cases hrow : s.table.rows id with
    | none =>
      rw [h.none id hrow]
      exact ⟨rfl, rfl⟩
    | some t =>
      obtain ⟨t', ht', hmove⟩ := h.some id t hrow
      rw [ht']
      have hlive := hn id t hrow
      rcases hmove with rfl | ⟨hm, -⟩
      · refine ⟨?_, rfl⟩
        cases hc : t'.chunkOf p <;> simp_all
      · have hchunk := Task.chunkOf_congr hm.kind hm.parent_id p
        unfold RowKept
        simp only [Option.any_some, hchunk]
        cases hc : t.chunkOf p with
        | false => exact ⟨rfl, rfl⟩
        | true =>
          -- A chunk that is not live has ended, and its end stays.
          have hkind : chunkKinds.contains t.kind = true := by
            simp only [Task.chunkOf, Bool.and_eq_true] at hc
            exact hc.1
          have hended := Status.ended_of_not_live (hlive hc) (ht.chunk id t hrow hkind)
          rw [hm.ended hended, hlive hc]
          exact ⟨rfl, rfl⟩

end Table.Moved

end JobScripts.Queue

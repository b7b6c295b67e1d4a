import JobScripts.Queue.Parents.Steps

/-!
# A pass of `reconcile_chunks`

A pass that has read a waiting parent without a live chunk owes it an end (`Proc.owes`), whatever the
others do meanwhile. A pass that runs alone, with no row locked against it, returns.
-/

namespace JobScripts.Queue

open Lib

/-- The parent waits and none of its chunks is live. -/
def Family.Idle (s : Family) (p : ℕ) : Prop := s.table.Waits p ∧ s.table.NoneLive p

/-- The parent has ended as done or failed. -/
def Family.Ended (s : Family) (p : ℕ) : Prop :=
  ∃ t, s.table.rows p = some t ∧ (t.status = .done ∨ t.status = .failed)

/-- A step that leaves the pass `k` over the parent alone: it does not cancel the parent, it is not a
recovery of the parent or of a chunk of it, and it does not kill the pass. -/
def Undisturbed (p k : ℕ) (s : Family) (a : FamilyAct) : Prop :=
  (∀ w t t', a = .write p w → s.table.rows p = some t → w.run t = some t' →
    t'.status ≠ .cancelled) ∧
  (∀ k' x y r, a = .reopen k' x y → s.procs k' = some (.taskLocked r) →
    r.task ≠ p ∧ ∀ q tq, r.parent = some (q, tq) → q ≠ p) ∧
  a ≠ .abort k

/-- The steps of passes and finalizers disturb nobody. -/
theorem Undisturbed.of_ne {p k : ℕ} {s : Family} {a : FamilyAct} (hw : ∀ w, a ≠ .write p w)
    (hr : ∀ k' x y, a ≠ .reopen k' x y) (ha : a ≠ .abort k) : Undisturbed p k s a :=
  ⟨fun w _ _ h => absurd h (hw w), fun k' x y _ h => absurd h (hr k' x y), ha⟩

/-- The process has still to end the call for the parent. -/
def Proc.owes (p : ℕ) : Proc → Prop
  | .reconciling => True
  | .calls parents => p ∈ parents
  | .finalizing q _ rest => q = p ∨ p ∈ rest
  | _ => False

/-- A parent that has ended stays so. -/
theorem Family.Ended.step {s s' : Family} {a : FamilyAct} {p k : ℕ} (hinv : s.Inv)
    (he : s.Ended p) (hu : Undisturbed p k s a) (hs : s.step a = some s') : s'.Ended p := by
  obtain ⟨t, ht, hst⟩ := he
  have hend : t.status.ended = true := by
    rcases hst with hst | hst <;> rw [hst] <;> rfl
  unfold Family.Ended
  cases Family.step_change hs with
  | moved h _ =>
    obtain ⟨t', ht', rfl | ⟨hm, -⟩⟩ := h.some p t ht
    · exact ⟨t', ht', hst⟩
    · exact ⟨t', ht', by rw [hm.ended hend]; exact hst⟩
  | finalized k' q n now rest v v' ha hk hrow hf htb =>
    have hpq : p ≠ q := by
      rintro rfl
      rw [ht] at hrow
      obtain rfl := Option.some.inj hrow
      rw [(finalizeParent_spec hf).1] at hend
      contradiction
    rw [htb, Table.write_rows_of_ne hpq]
    exact ⟨t, ht, hst⟩
  | recovered k' r x y v ha hk hre htb =>
    obtain ⟨hp, hq⟩ := hu.2.1 k' x y r ha hk
    rw [htb, (hinv.commit_spec hk v).2.2 p (Ne.symm hp) fun q tq hr => (hq q tq hr).symm]
    exact ⟨t, ht, hst⟩
  | enqueued v _ _ htb =>
    rw [htb]
    exact ⟨t, Table.add_rows_of_some ht, hst⟩

/-- A waiting parent without a live chunk stays so until it ends. -/
theorem Family.Idle.step {s s' : Family} {a : FamilyAct} {p k : ℕ} (hinv : s.Inv)
    (hi : s.Idle p) (hu : Undisturbed p k s a) (hs : s.step a = some s') :
    s'.Idle p ∨ s'.Ended p := by
  obtain ⟨⟨t, ht, hw⟩, hn⟩ := hi
  unfold Family.Idle Family.Ended Table.Waits Table.NoneLive
  cases Family.step_change hs with
  -- A plain statement: the parent waits on unless it was cancelled, and no dead chunk comes to
  -- life.
  | moved h hwait =>
    left
    obtain ⟨t', ht', hmove⟩ := h.some p t ht
    refine ⟨⟨t', ht', ?_⟩, fun id u' hu' hc => ?_⟩
    · rcases hwait p t t' ht ht' hw with hw' | ⟨w, ha, hrun⟩
      · exact hw'
      · rcases hmove with rfl | ⟨hm, -⟩
        · exact hw
        · rcases hm.waiting hw with hw' | hcan
          · exact hw'
          · exact absurd hcan (hu.1 w t t' ha ht hrun)
    · obtain ⟨u, hrow, rfl | ⟨hm, -⟩⟩ := h.source hu'
      · exact hn id u' hrow hc
      · rw [Task.chunkOf_congr hm.kind hm.parent_id] at hc
        have hdead := hn id u hrow hc
        by_contra hlive
        rw [Bool.not_eq_false] at hlive
        rw [hm.live hlive] at hdead
        contradiction
  -- A parent was finalized, this one or another.
  | finalized k' q n now rest v v' ha hk hrow hf htb =>
    rw [htb]
    obtain ⟨-, hkind, hpid, hst⟩ := finalizeParent_spec hf
    by_cases hpq : p = q
    · subst hpq
      refine .inr ⟨v', Table.write_rows_self hrow, ?_⟩
      rw [hst]
      split
      · exact .inl rfl
      · exact .inr rfl
    · refine .inl ⟨⟨t, by rw [Table.write_rows_of_ne hpq]; exact ht, hw⟩, fun id u hu' hc => ?_⟩
      rcases Table.write_rows_cases hu' with ⟨-, rfl⟩ | ⟨-, hold⟩
      · rw [hst]
        split <;> rfl
      · exact hn id u hold hc
  -- A recovery that is not of this parent's family.
  | recovered k' r x y v ha hk hre htb =>
    have hready := hinv.ready hk
    obtain ⟨hp, hq⟩ := hu.2.1 k' x y r ha hk
    obtain ⟨htask, hpar, hother⟩ := hinv.commit_spec hk v
    obtain ⟨-, hkind, hpid, -⟩ := retry_spec hre
    rw [htb]
    left
    refine ⟨⟨t, ?_, hw⟩, fun id u hu' hc => ?_⟩
    · rw [hother p (Ne.symm hp) fun q tq hr => (hq q tq hr).symm]
      exact ht
    · rcases Recovery.Ready.rows_cases r id with rfl | ⟨q, tq, hr, rfl, -⟩ | ⟨hid, hid'⟩
      · rw [htask] at hu'
        obtain rfl := Option.some.inj hu'
        rw [Task.chunkOf_congr hkind hpid,
          hready.not_chunk fun q tq hr => (hq q tq hr).symm] at hc
        contradiction
      · obtain ⟨tq', htq', -, -, hwq⟩ := hpar id tq hr
        rw [htq'] at hu'
        obtain rfl := Option.some.inj hu'
        rw [hwq]
        rfl
      · rw [hother id hid hid'] at hu'
        exact hn id u hu' hc
  -- A new row is no chunk of the parent, as its own parent was running.
  | enqueued v hst hparent htb =>
    rw [htb]
    refine .inl ⟨⟨t, Table.add_rows_of_some ht, hw⟩, fun id u hu' hc => ?_⟩
    rcases Table.add_rows_cases hu' with ⟨-, rfl⟩ | hold
    · simp only [Task.chunkOf, Bool.and_eq_true, beq_iff_eq] at hc
      obtain ⟨tp, htp, hrun⟩ := hparent p hc.2
      rw [ht] at htp
      obtain rfl := Option.some.inj htp
      rw [hw] at hrun
      contradiction
    · exact hn id u hold hc

/-- The next statement of a process moves that process only. -/
theorem Proc.next_procs {s s' : Family} {k : ℕ} {now : Time} {proc : Proc}
    (hs : proc.next s k now = some s') : ∃ q, s'.procs = (s.move k q).procs := by
  cases proc with
  | reconciling => exact ⟨_, by rw [← Option.some.inj hs]⟩
  | calls parents =>
    cases parents with
    | nil => contradiction
    | cons p rest => exact ⟨_, by rw [← Option.some.inj hs]⟩
  | finalizing p phase rest =>
    cases phase with
    | summed done =>
      simp only [Proc.next] at hs
      split at hs
      · exact ⟨_, by rw [← Option.some.inj hs]⟩
      · rw [Option.ite_none_right_eq_some] at hs
        exact ⟨some (.finalizing p .progressed rest), by rw [← Option.some.inj hs.2]⟩
    | progressed =>
      simp only [Proc.next] at hs
      split at hs
      · exact ⟨_, by rw [← Option.some.inj hs]⟩
      · rw [Option.ite_none_right_eq_some] at hs
        obtain ⟨-, hs⟩ := hs
        split at hs <;> exact ⟨_, by rw [← Option.some.inj hs]⟩
    | locked =>
      simp only [Proc.next] at hs
      split at hs <;> exact ⟨_, by rw [← Option.some.inj hs]⟩
    | noneLive => exact ⟨_, by rw [← Option.some.inj hs]⟩
    | counted n =>
      simp only [Proc.next] at hs
      split at hs
      · exact ⟨_, by rw [← Option.some.inj hs]⟩
      · exact ⟨some (.calls rest), by rw [← Option.some.inj hs]⟩
  | reading task source p =>
    simp only [Proc.next] at hs
    split at hs <;> exact ⟨_, by rw [← Option.some.inj hs]⟩
  | read r =>
    simp only [Proc.next] at hs
    split at hs
    · exact ⟨_, by rw [← Option.some.inj hs]⟩
    · rw [Option.ite_none_right_eq_some] at hs
      obtain ⟨-, hs⟩ := hs
      split at hs <;> exact ⟨_, by rw [← Option.some.inj hs]⟩
  | parentLocked r =>
    simp only [Proc.next] at hs
    rw [Option.ite_none_right_eq_some] at hs
    obtain ⟨-, hs⟩ := hs
    split at hs <;> exact ⟨_, by rw [← Option.some.inj hs]⟩
  | taskLocked r => contradiction

/-- A process is at another place after its own steps only. -/
theorem Family.step_procs {s s' : Family} {a : FamilyAct} {k : ℕ} {proc : Proc}
    (hs : s.step a = some s') (hk : s.procs k = some proc) :
    s'.procs k = some proc ∨ (∃ now, a = .next k now) ∨ (∃ x y, a = .reopen k x y) ∨
      a = .abort k := by
  -- The steps of a process `k'` touch no other.
  have hmove : ∀ k' q, k ≠ k' → (s.move k' q).procs k = some proc := by
    intro k' q hne
    exact (Function.update_of_ne hne _ _).trans hk
  have hnew : ∀ k', s.procs k' = none → k ≠ k' := by
    rintro k' hnone rfl
    rw [hk] at hnone
    contradiction
  cases a with
  | enqueue kind host source rest parent_id =>
    simp only [Family.step] at hs
    rw [Option.ite_none_right_eq_some] at hs
    obtain rfl := Option.some.inj hs.2
    exact .inl hk
  | write id w =>
    simp only [Family.step] at hs
    split at hs
    · contradiction
    · rw [Option.ite_none_right_eq_some] at hs
      obtain ⟨t', -, rfl⟩ := Option.map_eq_some_iff.mp hs.2
      exact .inl hk
  | chunkEnded k' parent =>
    simp only [Family.step] at hs
    rw [Option.ite_none_right_eq_some] at hs
    obtain rfl := Option.some.inj hs.2
    exact .inl (hmove k' _ (hnew k' hs.1))
  | reconcile k' now =>
    simp only [Family.step] at hs
    rw [Option.ite_none_right_eq_some] at hs
    obtain rfl := Option.some.inj hs.2
    exact .inl (hmove k' _ (hnew k' hs.1.1))
  | retry k' task =>
    simp only [Family.step] at hs
    split at hs
    · contradiction
    · rw [Option.ite_none_right_eq_some] at hs
      obtain ⟨hfree, hs⟩ := hs
      split at hs
      · obtain rfl := Option.some.inj hs
        exact .inl (hmove k' _ (hnew k' hfree.1))
      · rw [Option.ite_none_right_eq_some] at hs
        obtain rfl := Option.some.inj hs.2
        exact .inl (hmove k' _ (hnew k' hfree.1))
  | next k' now =>
    by_cases hkk : k = k'
    · subst hkk
      exact .inr (.inl ⟨now, rfl⟩)
    · left
      obtain ⟨q, -, hnext⟩ := Option.bind_eq_some_iff.mp hs
      obtain ⟨q', hq'⟩ := Proc.next_procs hnext
      rw [hq']
      exact hmove k' q' hkk
  | reopen k' x y =>
    by_cases hkk : k = k'
    · subst hkk
      exact .inr (.inr (.inl ⟨x, y, rfl⟩))
    · left
      simp only [Family.step] at hs
      split at hs
      · split at hs <;> obtain rfl := Option.some.inj hs <;> exact hmove k' none hkk
      · contradiction
  | abort k' =>
    by_cases hkk : k = k'
    · subst hkk
      exact .inr (.inr (.inr rfl))
    · obtain rfl := Option.some.inj hs
      exact .inl (hmove k' none hkk)

/-- A pass that owes the call for a waiting parent without a live chunk goes on to owe it, or has ended
the parent. -/
theorem Proc.owes.next {s s' : Family} {k p : ℕ} {now : Time} {proc : Proc}
    (ho : proc.owes p) (hi : s.Idle p) (hs : proc.next s k now = some s') :
    (∃ proc', s'.procs k = some proc' ∧ proc'.owes p) ∨ s'.Ended p := by
  obtain ⟨⟨t, ht, hw⟩, hn⟩ := hi
  have hself : ∀ q, (s.move k q).procs k = q := fun q => Function.update_self _ _ _
  cases proc with
  -- The list of the pass is what has no live chunk, the parent among it.
  | reconciling =>
    obtain rfl := Option.some.inj hs
    refine .inl ⟨.calls s.table.childless, hself _, ?_⟩
    have hlt : p < s.table.next := by
      by_contra hge
      rw [s.table.fresh p (by omega)] at ht
      contradiction
    have hlive := (Table.liveChunks_eq_zero_iff s.table p).mpr hn
    refine List.mem_filter.mpr ⟨List.mem_range.mpr hlt, ?_⟩
    simp [ht, hw, hlive]
  -- The next of the list is called.
  | calls parents =>
    cases parents with
    | nil => contradiction
    | cons q rest =>
      obtain rfl := Option.some.inj hs
      refine .inl ⟨_, hself _, ?_⟩
      rcases List.mem_cons.mp ho with rfl | hmem
      · exact .inl rfl
      · exact .inr hmem
  | finalizing q phase rest =>
    -- Once the call is over the parent is among the rest, or it was the parent of the call.
    have hrest : q ≠ p → (Proc.calls rest).owes p := fun hne => ho.resolve_left hne
    cases phase with
    | summed done =>
      simp only [Proc.next] at hs
      split at hs
      · obtain rfl := Option.some.inj hs
        exact .inl ⟨_, hself _, ho⟩
      · rw [Option.ite_none_right_eq_some] at hs
        obtain rfl := Option.some.inj hs.2
        exact .inl ⟨.finalizing q .progressed rest, hself _, ho⟩
    | progressed =>
      simp only [Proc.next] at hs
      split at hs
      · next hnone =>
        obtain rfl := Option.some.inj hs
        refine .inl ⟨_, hself _, hrest ?_⟩
        rintro rfl
        rw [ht] at hnone
        contradiction
      · next u hu =>
        rw [Option.ite_none_right_eq_some] at hs
        obtain ⟨-, hs⟩ := hs
        split at hs <;> obtain rfl := Option.some.inj hs
        · exact .inl ⟨_, hself _, ho⟩
        · next hnw =>
          refine .inl ⟨_, hself _, hrest ?_⟩
          rintro rfl
          rw [ht] at hu
          obtain rfl := Option.some.inj hu
          exact hnw hw
    | locked =>
      simp only [Proc.next] at hs
      split at hs <;> obtain rfl := Option.some.inj hs
      · exact .inl ⟨_, hself _, ho⟩
      · next hlive =>
        refine .inl ⟨_, hself _, hrest ?_⟩
        rintro rfl
        exact hlive ((Table.liveChunks_eq_zero_iff s.table q).mpr hn)
    | noneLive =>
      obtain rfl := Option.some.inj hs
      exact .inl ⟨_, hself _, ho⟩
    | counted n =>
      by_cases hqp : q = p
      · -- The commit of the call: the row is waiting, so it is written.
        subst hqp
        right
        simp only [Proc.next, ht, Option.bind_some, finalizeParent, hw, beq_self_eq_true,
          if_true] at hs
        obtain rfl := Option.some.inj hs
        refine ⟨_, Table.write_rows_self ht, ?_⟩
        dsimp only
        split
        · exact .inl rfl
        · exact .inr rfl
      · simp only [Proc.next] at hs
        split at hs <;> obtain rfl := Option.some.inj hs
        · exact .inl ⟨_, hself _, hrest hqp⟩
        · exact .inl ⟨.calls rest, hself _, hrest hqp⟩
  | reading task source q => contradiction
  | read r => contradiction
  | parentLocked r => contradiction
  | taskLocked r => contradiction

/-- What a pass leaves open for a parent: it has ended, or it still waits without a live chunk and the
pass owes its call. -/
def Family.Due (p k : ℕ) (s : Family) : Prop :=
  s.Ended p ∨ s.Idle p ∧ ∃ proc, s.procs k = some proc ∧ proc.owes p

/-- One step of the others, or of the pass. -/
theorem Family.Due.step {s s' : Family} {a : FamilyAct} {p k : ℕ} (hinv : s.Inv)
    (hd : s.Due p k) (hu : Undisturbed p k s a) (hs : s.step a = some s') : s'.Due p k := by
  rcases hd with he | ⟨hi, proc, hk, ho⟩
  · exact .inl (he.step hinv hu hs)
  rcases hi.step hinv hu hs with hi' | he'
  · rcases Family.step_procs hs hk with hk' | ⟨now, rfl⟩ | ⟨x, y, rfl⟩ | ha
    · exact .inr ⟨hi', proc, hk', ho⟩
    · obtain ⟨q, hq, hnext⟩ := Option.bind_eq_some_iff.mp hs
      rw [hk] at hq
      obtain rfl := Option.some.inj hq
      rcases ho.next hi hnext with howes | he'
      · exact .inr ⟨hi', howes⟩
      · exact .inl he'
    · -- The pass is not a recovery.
      simp only [Family.step, hk] at hs
      cases proc <;> simp only [Proc.owes] at ho <;> contradiction
    · exact absurd ha hu.2.2
  · exact .inl he'

/-! ## A pass comes to its end -/

/-- A step of the process itself. -/
def Own (k : ℕ) (_ : Family) (a : FamilyAct) : Prop := ∃ now, a = .next k now

/-- The process left to itself comes to the calls in `rest`, with no row locked. -/
def Family.Returns (s : Family) (k : ℕ) (rest : List ℕ) : Prop :=
  ∃ s', Run Family.step (Own k) s s' ∧ s'.procs k = some (.calls rest) ∧ ∀ id, s'.locks id = none

section Returns

variable {s s' : Family} {k p : ℕ} {rest : List ℕ}

/-- One statement more. -/
theorem Family.Returns.of_next {proc : Proc} (hk : s.procs k = some proc)
    (hn : proc.next s k 0 = some s') (h : s'.Returns k rest) : s.Returns k rest := by
  obtain ⟨s₂, hrun, hproc, hl⟩ := h
  have hstep : s.step (.next k 0) = some s' := by
    simp only [Family.step, hk, Option.bind_some]
    exact hn
  exact ⟨s₂, (Run.start.next (.next k 0) ⟨0, rfl⟩ hstep).trans hrun, hproc, hl⟩

/-- The process that alone holds rows lets them go at a place where it holds none. -/
theorem Family.move_free {q : Proc} (hl : ∀ id, s.locks id = none ∨ s.locks id = some k)
    (hq : ∀ id, q.holds id = false) (id : ℕ) : (s.move k (some q)).locks id = none := by
  rcases hl id with h | h
  · exact Family.move_locks_of_free h (by simp [hq])
  · exact Family.move_locks_of_held h (by simp [hq])

/-- The process that alone holds rows goes on to hold them alone. -/
theorem Family.move_mine (hl : ∀ id, s.locks id = none ∨ s.locks id = some k) (q : Proc) (id : ℕ) :
    (s.move k (some q)).locks id = none ∨ (s.move k (some q)).locks id = some k := by
  unfold Family.move
  dsimp only
  split
  · exact .inr rfl
  · split
    · exact .inl rfl
    · exact hl id

/-- The end of a call. -/
theorem Family.Returns.of_calls (hl : ∀ id, s.locks id = none ∨ s.locks id = some k)
    (hs' : s'.procs = (s.move k (some (.calls rest))).procs)
    (hl' : s'.locks = (s.move k (some (.calls rest))).locks) : s'.Returns k rest := by
  refine ⟨s', .start, ?_, fun id => ?_⟩
  · rw [hs']
    exact Function.update_self _ _ _
  · rw [hl']
    exact Family.move_free hl (fun _ => rfl) id

/-- A call that has counted returns. -/
theorem returns_of_counted {n : ℕ} (hk : s.procs k = some (.finalizing p (.counted n) rest))
    (hl : ∀ id, s.locks id = none ∨ s.locks id = some k) : s.Returns k rest := by
  cases hf : (s.table.rows p).bind (finalizeParent n 0) with
  | none =>
    have hn : Proc.next s k 0 (.finalizing p (.counted n) rest) =
        some (s.move k (some (.calls rest))) := by simp only [Proc.next, hf]
    exact .of_next hk hn (.of_calls hl rfl rfl)
  | some t =>
    have hn : Proc.next s k 0 (.finalizing p (.counted n) rest) =
        some { s.move k (some (.calls rest)) with table := s.table.write p t } := by
      simp only [Proc.next, hf]
    exact .of_next hk hn (.of_calls hl rfl rfl)

/-- A call that has locked its row returns. -/
theorem returns_of_locked (hk : s.procs k = some (.finalizing p .locked rest))
    (hl : ∀ id, s.locks id = none ∨ s.locks id = some k) : s.Returns k rest := by
  by_cases hlive : s.table.liveChunks p = 0
  · have hn : Proc.next s k 0 (.finalizing p .locked rest) =
        some (s.move k (some (.finalizing p .noneLive rest))) := by
      simp only [Proc.next]
      rw [if_pos hlive]
    refine .of_next hk hn (.of_next (Function.update_self _ _ _) rfl ?_)
    exact returns_of_counted (Function.update_self _ _ _)
      (Family.move_mine (Family.move_mine hl _) _)
  · have hn : Proc.next s k 0 (.finalizing p .locked rest) =
        some (s.move k (some (.calls rest))) := by
      simp only [Proc.next]
      rw [if_neg hlive]
    exact .of_next hk hn (.of_calls hl rfl rfl)

/-- A call that has written the parent's progress returns. -/
theorem returns_of_progressed (hk : s.procs k = some (.finalizing p .progressed rest))
    (hl : ∀ id, s.locks id = none) : s.Returns k rest := by
  have hl' : ∀ id, s.locks id = none ∨ s.locks id = some k := fun id => .inl (hl id)
  cases ht : s.table.rows p with
  | none =>
    have hn : Proc.next s k 0 (.finalizing p .progressed rest) =
        some (s.move k (some (.calls rest))) := by simp only [Proc.next, ht]
    exact .of_next hk hn (.of_calls hl' rfl rfl)
  | some t =>
    by_cases hw : t.status = .waiting
    · have hn : Proc.next s k 0 (.finalizing p .progressed rest) =
          some (s.move k (some (.finalizing p .locked rest))) := by
        simp only [Proc.next, ht]
        rw [if_pos (hl p), if_pos hw]
      exact .of_next hk hn
        (returns_of_locked (Function.update_self _ _ _) (Family.move_mine hl' _))
    · have hn : Proc.next s k 0 (.finalizing p .progressed rest) =
          some (s.move k (some (.calls rest))) := by
        simp only [Proc.next, ht]
        rw [if_pos (hl p), if_neg hw]
      exact .of_next hk hn (.of_calls hl' rfl rfl)

/-- A call that has summed the chunks' progress returns. -/
theorem returns_of_summed {done : ℤ} (hk : s.procs k = some (.finalizing p (.summed done) rest))
    (hl : ∀ id, s.locks id = none) : s.Returns k rest := by
  have hfree := Family.move_free (k := k) (q := .finalizing p .progressed rest)
    (fun id => .inl (hl id)) fun _ => rfl
  cases hup : (s.table.rows p).bind (updateParentProgress done 0) with
  | none =>
    have hn : Proc.next s k 0 (.finalizing p (.summed done) rest) =
        some (s.move k (some (.finalizing p .progressed rest))) := by simp only [Proc.next, hup]
    exact .of_next hk hn (returns_of_progressed (Function.update_self _ _ _) hfree)
  | some t =>
    have hn : Proc.next s k 0 (.finalizing p (.summed done) rest) =
        some { s.move k (some (.finalizing p .progressed rest)) with
          table := s.table.write p t } := by
      simp only [Proc.next, hup]
      rw [if_pos (hl p)]
    exact .of_next hk hn (returns_of_progressed (Function.update_self _ _ _) hfree)

/-- A call returns when no row is locked. -/
theorem returns_of_call (hk : s.procs k = some (.calls (p :: rest)))
    (hl : ∀ id, s.locks id = none) : s.Returns k rest := by
  refine .of_next hk rfl (returns_of_summed (Function.update_self _ _ _) ?_)
  exact Family.move_free (fun id => .inl (hl id)) fun _ => rfl

/-- A pass returns when no row is locked. -/
theorem returns_of_calls (parents : List ℕ) :
    ∀ s : Family, s.procs k = some (.calls parents) → (∀ id, s.locks id = none) →
      s.Returns k [] := by
  induction parents with
  | nil => exact fun s hk hl => ⟨s, .start, hk, hl⟩
  | cons p rest ih =>
    intro s hk hl
    obtain ⟨s₁, hrun, hk₁, hl₁⟩ := returns_of_call hk hl
    obtain ⟨s₂, hrun₂, hk₂, hl₂⟩ := ih s₁ hk₁ hl₁
    exact ⟨s₂, hrun.trans hrun₂, hk₂, hl₂⟩

end Returns

end JobScripts.Queue

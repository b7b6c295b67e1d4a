import JobScripts.Queue.Parents.Passes

/-!
# The ends of parents

A waiting parent ends when no chunk of it is live: as failed, if one of its chunks failed, and as done
otherwise. One whose chunks have all ended is ended by the next pass over the waiting parents that
completes (`waiting_parent_ends_with_chunks`).
-/

namespace JobScripts.Queue

open Lib

/-- A step that takes a parent out of its wait other than by cancelling it is the commit of a finalizer,
at which no chunk is live and the end says whether one has failed. -/
theorem Family.Inv.finalized {s s' : Family} {a : FamilyAct} {p : ℕ} {t t' : Task} (h : s.Inv)
    (hs : s.step a = some s') (ht : s.table.rows p = some t) (hw : t.status = .waiting)
    (ht' : s'.table.rows p = some t') (hw' : t'.status ≠ .waiting)
    (hc' : t'.status ≠ .cancelled) :
    s.table.NoneLive p ∧ (s.table.SomeFailed p ∧ t'.status = .failed ∨
      ¬ s.table.SomeFailed p ∧ t'.status = .done) := by
  cases Family.step_change hs with
  | moved hm _ =>
    obtain ⟨u, hu, hmove⟩ := hm.source ht'
    rw [ht] at hu
    obtain rfl := Option.some.inj hu
    rcases hmove with rfl | ⟨hmv, -⟩
    · exact absurd hw hw'
    · rcases hmv.waiting hw with hw'' | hc
      · exact absurd hw'' hw'
      · exact absurd hc hc'
  | finalized k q n now rest v v' ha hk hrow hf htb =>
    rw [htb] at ht'
    rcases Table.write_rows_cases ht' with ⟨rfl, rfl⟩ | ⟨-, hold⟩
    · obtain ⟨-, hn, hcount⟩ := h.sound k _ hk
      refine ⟨hn, ?_⟩
      obtain ⟨-, -, -, hst⟩ := finalizeParent_spec hf
      have hzero := Table.failedChunks_eq_zero_iff s.table p
      rw [← hcount] at hzero
      by_cases hnz : n = 0
      · exact .inr ⟨hzero.mp hnz, by rw [hst, if_pos hnz]⟩
      · refine .inl ⟨?_, by rw [hst, if_neg hnz]⟩
        by_contra hno
        exact hnz (hzero.mpr hno)
    · rw [ht] at hold
      obtain rfl := Option.some.inj hold
      exact absurd hw hw'
  | recovered k r x y v ha hk hre htb =>
    rw [htb] at ht'
    obtain ⟨htask, hpar, hother⟩ := h.commit_spec hk v
    have hsource := (h.ready hk).task
    have hfail := (h.ready hk).checked.failed
    rcases Recovery.Ready.rows_cases r p with rfl | ⟨q, tq, hr, rfl, -⟩ | ⟨hid, hid'⟩
    · have hrow : s.table.rows r.task = some r.source := hsource
      rw [ht] at hrow
      obtain rfl := Option.some.inj hrow
      rw [hw] at hfail
      contradiction
    · obtain ⟨tq', htq', -, -, hwq⟩ := hpar p tq hr
      rw [htq'] at ht'
      obtain rfl := Option.some.inj ht'
      exact absurd hwq hw'
    · rw [hother p hid hid', ht] at ht'
      obtain rfl := Option.some.inj ht'
      exact absurd hw hw'
  | enqueued v _ _ htb =>
    rw [htb, Table.add_rows_of_some ht] at ht'
    obtain rfl := Option.some.inj ht'
    exact absurd hw hw'

/-- The pass that starts at a waiting parent without a live chunk has ended it when it is over, whatever
else runs beside it. -/
theorem Family.Inv.pass_ends {s s₁ s₂ : Family} {p k : ℕ} {now : Time} (h : s.Inv)
    (hi : s.Idle p) (hs : s.step (.reconcile k now) = some s₁)
    (hrun : Run Family.step (Undisturbed p k) s₁ s₂) (hover : s₂.procs k = some (.calls [])) :
    s₂.Ended p := by
  have hk : s₁.procs k = some .reconciling := by
    simp only [Family.step] at hs
    rw [Option.ite_none_right_eq_some] at hs
    rw [← Option.some.inj hs.2]
    exact Function.update_self _ _ _
  have hu : Undisturbed p k s (.reconcile k now) :=
    .of_ne (fun _ => FamilyAct.noConfusion) (fun _ _ _ => FamilyAct.noConfusion) FamilyAct.noConfusion
  have hstart : s₁.Inv ∧ s₁.Due p k := by
    refine ⟨h.step hs, ?_⟩
    rcases hi.step h hu hs with hi' | he
    · exact .inr ⟨hi', .reconciling, hk, trivial⟩
    · exact .inl he
  obtain ⟨-, hdue⟩ := hrun.invariant (I := fun s => s.Inv ∧ s.Due p k) hstart
    fun s a s' hd hok hstep => ⟨hd.1.step hstep, hd.2.step hd.1 hok hstep⟩
  rcases hdue with he | ⟨-, proc, hproc, ho⟩
  · exact he
  · rw [hover] at hproc
    obtain rfl := Option.some.inj hproc
    contradiction

/-- A pass that starts while no row is locked can run to its end. -/
theorem Family.pass_runs {s : Family} {k : ℕ} (now : Time) (hk : s.procs k = none)
    (hl : ∀ id, s.locks id = none) :
    ∃ s₁, s.step (.reconcile k now) = some s₁ ∧ s₁.Returns k [] := by
  have hall : ((List.range s.table.next).all fun id =>
      !s.table.orphaned id || s.locks id == none) = true := by
    rw [List.all_eq_true]
    intro id _
    rw [hl id]
    simp
  refine ⟨_, by simp only [Family.step]; rw [if_pos ⟨hk, hall⟩], ?_⟩
  refine .of_next (Function.update_self _ _ _) rfl ?_
  refine returns_of_calls _ _ (Function.update_self _ _ _) ?_
  refine Family.move_free (fun id => .inl ?_) fun _ => rfl
  exact Family.move_free (k := k) (q := .reconciling) (fun id => .inl (hl id)) (fun _ => rfl) id

/-- In every reachable state: a parent leaves its wait by an end only when none of its chunks is live, as
failed if one of them has failed and as done otherwise; a parent has not ended while a chunk of it that a
recovery reopened is live; and a pass of `reconcile_chunks` that starts while a parent waits without a
live chunk ends it, beside any other steps that do not cancel or recover it. -/
theorem waiting_parent_ends_with_chunks {s : Family}
    (h : Run Family.step Always Family.empty s) :
    (∀ a s' p t t', s.step a = some s' → s.table.rows p = some t → t.status = .waiting →
      s'.table.rows p = some t' → t'.status ≠ .waiting → t'.status ≠ .cancelled →
      s.table.NoneLive p ∧ (s.table.SomeFailed p ∧ t'.status = .failed ∨
        ¬ s.table.SomeFailed p ∧ t'.status = .done)) ∧
    (∀ id t p, s.reopened id = true → s.table.rows id = some t → t.chunkOf p = true →
      t.status.live = true → ¬ s.Ended p) ∧
    (∀ p k now s₁ s₂, s.Idle p → s.step (.reconcile k now) = some s₁ →
      Run Family.step (Undisturbed p k) s₁ s₂ → s₂.procs k = some (.calls []) → s₂.Ended p) ∧
    (∀ p k now, s.Idle p → s.procs k = none → (∀ id, s.locks id = none) →
      ∃ s₁ s₂, s.step (.reconcile k now) = some s₁ ∧ Run Family.step (Own k) s₁ s₂ ∧
        s₂.procs k = some (.calls []) ∧ s₂.Ended p) := by
  have hinv := Family.inv_of_run h
  refine ⟨?_, ?_, ?_, ?_⟩
  · intro a s' p t t' hs ht hw ht' hw' hc'
    exact hinv.finalized hs ht hw ht' hw' hc'
  · rintro id t p hro ht hc hlive ⟨tp, htp, hst⟩
    simp only [Task.chunkOf, Bool.and_eq_true, beq_iff_eq] at hc
    obtain ⟨tp', htp', hst'⟩ := hinv.tidy.reopened id t p hro ht hlive hc.2
    rw [htp] at htp'
    obtain rfl := Option.some.inj htp'
    rcases hst with hst | hst <;> rw [hst] at hst' <;> rcases hst' with h' | h' <;> contradiction
  · intro p k now s₁ s₂ hi hs hrun hover
    exact hinv.pass_ends hi hs hrun hover
  · intro p k now hi hk hl
    obtain ⟨s₁, hs, s₂, hrun, hover, -⟩ := Family.pass_runs now hk hl
    refine ⟨s₁, s₂, hs, hrun, hover, ?_⟩
    -- The pass's own steps do not disturb it.
    refine hinv.pass_ends hi hs (hrun.mono fun s' a ha => ?_) hover
    obtain ⟨now', rfl⟩ := ha
    exact .of_ne (fun _ => FamilyAct.noConfusion) (fun _ _ _ => FamilyAct.noConfusion) FamilyAct.noConfusion

/-- A parent whose only chunk fails for an unavailable payload, ends as failed, and is reopened with the
chunk. -/
def reopenedChunk : List FamilyAct :=
  let parent : TaskClaim := ⟨0, "w", 1⟩
  let chunk : TaskClaim := ⟨1, "w", 1⟩
  let f : ClaimFilter := { known := ["run_filters", "run_filter_chunk"] }
  [.enqueue "run_filters" none none [] none, .write 0 (.claim f "w" 1),
    .enqueue "run_filter_chunk" none none [] (some 0), .write 0 (.parkWaiting parent 1 "1 chunk"),
    .write 1 (.claim f "w" 2), .write 1 (.failUnavailable chunk "Payload unavailable" 3),
    .chunkEnded 0 0, .next 0 4, .next 0 4, .next 0 4, .next 0 4, .next 0 4, .next 0 4,
    .retry 1 1, .next 1 5, .next 1 5, .next 1 5, .reopen 1 false false]

/-- After it the chunk is live and its parent has not ended. -/
theorem waiting_parent_ends_with_chunks_reopened :
    ∃ s, Run Family.step Always Family.empty s ∧ s.reopened 1 = true ∧
      (∃ t, s.table.rows 1 = some t ∧ t.status.live = true) ∧ ¬ s.Ended 0 := by
  have hp : (runList Family.step Family.empty reopenedChunk).any (fun s => s.reopened 1 &&
      (s.table.rows 1).any fun t => t.chunkOf 0 && t.status.live) = true := by decide +kernel
  obtain ⟨s, hrun, hs⟩ := exists_run_of_any hp
  simp only [Bool.and_eq_true, Option.any_eq_true] at hs
  obtain ⟨hro, t, ht, hc, hlive⟩ := hs
  exact ⟨s, hrun, hro, ⟨t, ht, hlive⟩,
    (waiting_parent_ends_with_chunks hrun).2.1 1 t 0 hro ht hc hlive⟩

end JobScripts.Queue

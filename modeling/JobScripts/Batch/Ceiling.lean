import Mathlib.Algebra.Order.BigOperators.Group.List
import Mathlib.Data.Rat.Cast.Order
import Mathlib.Tactic.Linarith
import JobScripts.Lib.Run

/-!
# The weekly fleet ceiling

Fleet work is checked against the week's ceiling before it is submitted: `check_fleet_budget` of
`fleet.py` compares the spend booked so far, with what the submission is estimated to cost, with the
ceiling. A submission then goes out wave by wave, and on a refusal what is left is priced on the next
model of the chain, with what the waves before it have committed, and checked again. Collecting a batch
books what its requests cost. Any number of workers do this at once.

The check reads what is booked, and a batch is booked when it is collected. So the ceiling bounds the
fleet's commitments (booked spend and the estimates of accepted batches not yet collected) as long as
every wave is accepted while the check before it still counts all of them (`Counts`).
-/

namespace JobScripts.Ceiling

open Lib

/-- An accepted batch that is not yet collected: what a request of it is estimated to cost, and its
requests. -/
structure Batch where
  per_call : ℚ
  requests : ℕ

/-- What a batch is estimated to cost. -/
def Batch.estimate (b : Batch) : ℚ := b.per_call * b.requests

/-- A worker between its check and the end of its submission. On the current model: the estimate of a
request, the requests not yet answered, those answered (`sent`) and the ones of them in accepted waves. Of
the models before it: the committed spend. Known to the proofs only is what the last check compared with
the ceiling besides the requests it was for. -/
structure Worker where
  per_call : ℚ
  left : ℕ
  sent : ℕ := 0
  accepted : ℕ := 0
  committed : ℚ := 0
  counted : ℚ

/-- The ceiling, the fleet spend booked this week, the batches accepted and not yet collected, and the
workers that are submitting. -/
structure State where
  ceiling : ℚ
  booked : ℚ
  outstanding : List Batch
  workers : ℕ → Option Worker

/-- The estimated cost of what is accepted and not yet collected. -/
def State.uncollected (s : State) : ℚ := (s.outstanding.map Batch.estimate).sum

/-- `check_fleet_budget`: whether the projected cost is refused. A ceiling of zero disables it. -/
def budgetExceeded (ceiling spent projected : ℚ) : Bool :=
  decide (ceiling > 0) && (decide (spent + projected > ceiling) || decide (spent ≥ ceiling))

/-- What happens next. A worker prices its requests and checks; a wave of it is accepted, or fails for
another reason than exhaustion; it is refused for exhaustion and checks what is left on the next model; it
ends. A batch is collected, each of its requests at a cost. A week ends. -/
inductive Act
  | check (w : ℕ) (per_call : ℚ) (requests : ℕ)
  | accept (w requests : ℕ)
  | fail (w requests : ℕ)
  | fallback (w : ℕ) (per_call : ℚ)
  | finish (w : ℕ)
  | collect (i : ℕ) (costs : List ℚ)
  | newWeek

/-- A worker's next step. -/
def State.put (s : State) (w : ℕ) (worker : Option Worker) : State :=
  { s with workers := Function.update s.workers w worker }

/-- The committed spend after a model has refused: what it was sent counts when a wave was accepted. -/
def Worker.commits (worker : Worker) : ℚ :=
  if worker.accepted ≠ 0 then worker.committed + worker.per_call * worker.sent else worker.committed

/-- One step of the fleet. Estimates are not negative, and a collected request costs at most its
estimate. -/
def step (s : State) : Act → Option State
  | .check w per_call requests =>
    match s.workers w with
    | some _ => none
    | none =>
      if 0 ≤ per_call ∧ budgetExceeded s.ceiling s.booked (per_call * requests) = false then
        some (s.put w (some { per_call := per_call, left := requests, counted := s.booked }))
      else none
  | .accept w requests =>
    match s.workers w with
    | none => none
    | some worker =>
      if requests ≤ worker.left then
        some { s.put w (some { worker with
            left := worker.left - requests
            sent := worker.sent + requests
            accepted := worker.accepted + requests }) with
          outstanding := ⟨worker.per_call, requests⟩ :: s.outstanding }
      else none
  | .fail w requests =>
    match s.workers w with
    | none => none
    | some worker =>
      if requests ≤ worker.left then
        some (s.put w (some { worker with
          left := worker.left - requests
          sent := worker.sent + requests }))
      else none
  | .fallback w per_call =>
    match s.workers w with
    | none => none
    | some worker =>
      if 0 ≤ per_call ∧
          budgetExceeded s.ceiling s.booked (worker.commits + per_call * worker.left) = false then
        some (s.put w (some {
          per_call := per_call
          left := worker.left
          committed := worker.commits
          counted := s.booked + worker.commits }))
      else none
  | .finish w => some (s.put w none)
  | .collect i costs =>
    match s.outstanding[i]? with
    | none => none
    | some batch =>
      if costs.length = batch.requests ∧ ∀ c ∈ costs, 0 ≤ c ∧ c ≤ batch.per_call then
        some { s with booked := s.booked + costs.sum, outstanding := s.outstanding.eraseIdx i }
      else none
  | .newWeek => some { s with booked := 0 }

/-- The fleet's commitments are within the ceiling. -/
def Within (s : State) : Prop := s.booked + s.uncollected ≤ s.ceiling

/-- A wave is accepted while its worker's last check still counts every commitment of the fleet but the
waves accepted for this worker on this model since. -/
def Counts (s : State) : Act → Prop
  | .accept w _ => ∀ worker ∈ s.workers w,
      s.booked + s.uncollected ≤ worker.counted + worker.per_call * worker.accepted
  | _ => True

instance (s : State) (a : Act) : Decidable (Counts s a) :=
  match a with
  | .accept w _ => inferInstanceAs (Decidable (∀ worker ∈ s.workers w, _ ≤ _))
  | .check .. | .fail .. | .fallback .. | .finish _ | .collect .. | .newWeek =>
    inferInstanceAs (Decidable True)

/-! ## Runs -/

/-- What a worker's last check promises: what it counted, the waves accepted since and all requests left
are within the ceiling. -/
structure WorkerOk (ceiling : ℚ) (worker : Worker) : Prop where
  nonneg : 0 ≤ worker.per_call
  within : worker.counted + worker.per_call * worker.accepted + worker.per_call * worker.left ≤ ceiling

/-- The invariant of the fleet while the ceiling is enabled. -/
structure Sound (s : State) : Prop where
  enabled : 0 < s.ceiling
  booked : 0 ≤ s.booked
  within : Within s
  workers : ∀ w worker, s.workers w = some worker → WorkerOk s.ceiling worker

/-- A check that passes leaves room for what it projected. -/
theorem le_of_budgetExceeded {ceiling spent projected : ℚ} (hpos : 0 < ceiling)
    (h : budgetExceeded ceiling spent projected = false) : spent + projected ≤ ceiling := by
  unfold budgetExceeded at h
  rw [decide_eq_true hpos, Bool.true_and, Bool.or_eq_false_iff, decide_eq_false_iff_not] at h
  exact not_lt.1 h.1

/-- Only the worker that moves changes. -/
theorem Sound.put {s : State} (h : Sound s) (w : ℕ) {worker : Option Worker}
    (hw : ∀ x, worker = some x → WorkerOk s.ceiling x) : Sound (s.put w worker) := by
  refine ⟨h.enabled, h.booked, h.within, fun v x hx => ?_⟩
  have hx : Function.update s.workers w worker v = some x := hx
  by_cases hv : v = w
  · subst hv
    rw [Function.update_self] at hx
    exact hw x hx
  · rw [Function.update_of_ne hv] at hx
    exact h.workers v x hx

/-- A collected batch costs at most its estimate. -/
theorem sum_le_estimate {b : Batch} {costs : List ℚ} (hlen : costs.length = b.requests)
    (hle : ∀ c ∈ costs, 0 ≤ c ∧ c ≤ b.per_call) : costs.sum ≤ b.estimate := by
  have hsum := List.sum_le_card_nsmul costs b.per_call fun c hc => (hle c hc).2
  unfold Batch.estimate
  rw [hlen, nsmul_eq_mul, mul_comm] at hsum
  exact hsum

/-- What is left to collect after a batch is collected. -/
theorem uncollected_eraseIdx {l : List Batch} {i : ℕ} {b : Batch} (h : l[i]? = some b) :
    ((l.eraseIdx i).map Batch.estimate).sum + b.estimate = (l.map Batch.estimate).sum := by
  obtain ⟨hi, rfl⟩ := List.getElem?_eq_some_iff.1 h
  have hperm := (List.getElem_cons_eraseIdx_perm hi).map Batch.estimate
  rw [← hperm.sum_eq, List.map_cons, List.sum_cons, add_comm]

/-- Every step keeps the invariant, an accepted wave where the check counts the fleet's commitments. -/
theorem sound_step {s s' : State} {a : Act} (h : Sound s) (hok : Counts s a)
    (hs : step s a = some s') : Sound s' := by
  match a, hs with
  -- A check that passes leaves room for all that the worker may send.
  | .check w per_call requests, hs =>
    simp only [step] at hs
    split at hs
    · contradiction
    split at hs
    swap
    · contradiction
    rename_i hcheck
    obtain rfl := Option.some.inj hs
    refine h.put w fun x hx => ?_
    obtain rfl := Option.some.inj hx
    refine ⟨hcheck.1, ?_⟩
    have hle := le_of_budgetExceeded h.enabled hcheck.2
    simpa using hle
  | .accept w requests, hs =>
    simp only [step] at hs
    split at hs
    · contradiction
    rename_i worker hw
    split at hs
    swap
    · contradiction
    rename_i hleft
    obtain rfl := Option.some.inj hs
    have hwok := h.workers w worker hw
    have hcounts := hok worker hw
    -- The wave is within what the worker's last check left room for.
    have hwave : worker.per_call * requests ≤ worker.per_call * worker.left :=
      mul_le_mul_of_nonneg_left (by exact_mod_cast hleft) hwok.nonneg
    have hafter : ∀ x, some { worker with
        left := worker.left - requests
        sent := worker.sent + requests
        accepted := worker.accepted + requests } = some x → WorkerOk s.ceiling x := by
      intro x hx
      obtain rfl := Option.some.inj hx
      refine ⟨hwok.nonneg, ?_⟩
      have hroom := hwok.within
      push_cast [Nat.cast_sub hleft]
      linarith
    -- The wave is one more batch to collect, and the room that the worker has left is smaller by
    -- it.
    have hput := h.put w hafter
    refine ⟨h.enabled, h.booked, ?_, hput.workers⟩
    have hroom := hwok.within
    show s.booked + ((⟨worker.per_call, requests⟩ :: s.outstanding).map Batch.estimate).sum ≤ s.ceiling
    have huncollected : ((⟨worker.per_call, requests⟩ :: s.outstanding).map Batch.estimate).sum =
        worker.per_call * requests + s.uncollected := rfl
    rw [huncollected]
    linarith
  -- A wave that fails leaves more room than the worker needs.
  | .fail w requests, hs =>
    simp only [step] at hs
    split at hs
    · contradiction
    rename_i worker hw
    split at hs
    swap
    · contradiction
    rename_i hleft
    obtain rfl := Option.some.inj hs
    refine h.put w fun x hx => ?_
    obtain rfl := Option.some.inj hx
    have hwok := h.workers w worker hw
    refine ⟨hwok.nonneg, ?_⟩
    have hroom := hwok.within
    have hnonneg : 0 ≤ worker.per_call * requests :=
      mul_nonneg hwok.nonneg (Nat.cast_nonneg requests)
    push_cast [Nat.cast_sub hleft]
    linarith
  -- The fallback is checked again, from nothing.
  | .fallback w per_call, hs =>
    simp only [step] at hs
    split at hs
    · contradiction
    split at hs
    swap
    · contradiction
    rename_i hcheck
    obtain rfl := Option.some.inj hs
    refine h.put w fun x hx => ?_
    obtain rfl := Option.some.inj hx
    refine ⟨hcheck.1, ?_⟩
    have hle := le_of_budgetExceeded h.enabled hcheck.2
    simp only [Nat.cast_zero, mul_zero, add_zero]
    linarith
  | .finish w, hs =>
    obtain rfl := Option.some.inj hs
    exact h.put w fun x hx => by cases hx
  -- What a batch costs is booked in place of its estimate.
  | .collect i costs, hs =>
    simp only [step] at hs
    split at hs
    · contradiction
    rename_i batch hbatch
    split at hs
    swap
    · contradiction
    rename_i hcosts
    obtain rfl := Option.some.inj hs
    have hsum := sum_le_estimate hcosts.1 hcosts.2
    have hleft := uncollected_eraseIdx hbatch
    have hwithin := h.within
    refine ⟨h.enabled, ?_, ?_, h.workers⟩
    · have hnonneg : 0 ≤ costs.sum := List.sum_nonneg fun c hc => (hcosts.2 c hc).1
      have hbooked := h.booked
      show 0 ≤ s.booked + costs.sum
      linarith
    · unfold Within State.uncollected at hwithin ⊢
      show s.booked + costs.sum + ((s.outstanding.eraseIdx i).map Batch.estimate).sum ≤ s.ceiling
      linarith
  -- What was booked falls out of the week.
  | .newWeek, hs =>
    obtain rfl := Option.some.inj hs
    refine ⟨h.enabled, le_refl _, ?_, h.workers⟩
    have hwithin := h.within
    have hbooked := h.booked
    unfold Within State.uncollected at hwithin ⊢
    show 0 + (s.outstanding.map Batch.estimate).sum ≤ s.ceiling
    linarith

/-- A fleet that is not submitting, with what is booked and uncollected within its ceiling. -/
structure Start where
  ceiling : ℚ
  booked : ℚ
  outstanding : List Batch
  enabled : 0 < ceiling
  nonneg : 0 ≤ booked
  within : booked + (outstanding.map Batch.estimate).sum ≤ ceiling

/-- The state that such a fleet starts in. -/
def Start.state (f : Start) : State := ⟨f.ceiling, f.booked, f.outstanding, fun _ => none⟩

/-- In every run in which each wave is accepted while the check before it still counts the fleet's
commitments, what is booked and what is estimated for the batches not yet collected stay within the
ceiling. -/
theorem commitments_within_ceiling (f : Start) {s : State} (hrun : Run step Counts f.state s) :
    s.booked + s.uncollected ≤ s.ceiling := by
  have hstart : Sound f.state := ⟨f.enabled, f.nonneg, f.within, fun _ _ h => by cases h⟩
  exact (hrun.invariant hstart fun _ _ _ h hok hs => sound_step h hok hs).within

/-- A ceiling of ten, nothing booked and nothing outstanding. -/
def emptyFleet : Start where
  ceiling := 10
  booked := 0
  outstanding := []
  enabled := by norm_num
  nonneg := le_refl _
  within := by norm_num

/-- One worker after another: the first falls back to a dearer model for part of its requests, its batches
are collected, and then the second submits. -/
def oneAfterAnother : List Act :=
  [.check 0 1 4, .accept 0 2, .fallback 0 3, .accept 0 2, .finish 0, .collect 0 [3, 2],
    .collect 0 [1, 1], .check 1 1 3, .accept 1 3, .finish 1]

/-- After it the fleet is within its ceiling. -/
theorem commitments_within_ceiling_in_turn :
    ∃ s, runList (guarded step Counts) emptyFleet.state oneAfterAnother = some s ∧
      s.booked + s.uncollected ≤ s.ceiling := by
  have hsome : (runList (guarded step Counts) emptyFleet.state oneAfterAnother).isSome = true := by
    decide +kernel
  obtain ⟨s, hs⟩ := Option.isSome_iff_exists.1 hsome
  exact ⟨s, hs, commitments_within_ceiling emptyFleet (run_of_guarded (run_of_runList hs))⟩

/-- Two submissions that each fit in the ceiling, the second checked while the first is not collected. -/
def twoUncollected : List Act :=
  [.check 0 1 6, .accept 0 6, .finish 0, .check 1 1 6, .accept 1 6, .finish 1]

/-- The check does not see what is accepted and not yet collected, so the second submission takes the fleet
past its ceiling. -/
theorem uncollected_batches_not_counted :
    ¬ ∀ (f : Start) (s : State), Run step Always f.state s → s.booked + s.uncollected ≤ s.ceiling := by
  intro hall
  have hover : (runList step emptyFleet.state twoUncollected).any
      (fun s => decide (s.ceiling < s.booked + s.uncollected)) = true := by decide +kernel
  obtain ⟨s, hrun, hlt⟩ := exists_run_of_any hover
  exact absurd (hall _ s hrun) (not_le.2 (of_decide_eq_true hlt))

end JobScripts.Ceiling

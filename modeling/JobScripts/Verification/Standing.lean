import JobScripts.Lib.Run
import Mathlib.Data.Fintype.Basic
import Mathlib.Data.List.Nodup

/-!
# Standing verdicts

The verdicts on one posting, as `tasks/verification` writes them. A batch of `verify_new` or `reverify` reads the
page as it was when the batch was submitted, and its result is consumed hours later, in any order. A result of
`verify_new` writes the checks that it was asked for and that have no verdict yet (`_record_result`); one of
`reverify` writes both, unless either was decided after its batch was submitted (`_record_reverify_results`).
`record_manual` writes what an admin or the job board says.

The latest verdict on a check stands. It has the newest evidence of those that were written
(`State.Inv.latest_newest`), but the guards go by when a verdict was created, and not by its evidence. So a result
can be passed by for an older page that was consumed first (`older_page_passes_newer_by`). The latest verdict rests
on the newest evidence that answered as long as a result is passed by for newer evidence only
(`latest_rests_on_newest`).
-/

namespace JobScripts.Verification.Standing

open Lib

/-! ## Answers -/

/-- The two checks that one request answers. -/
inductive Check
  | closed
  | clearance
  deriving DecidableEq

/-- There are no others. -/
instance : Fintype Check := ⟨{.closed, .clearance}, fun check => by cases check <;> decide⟩

/-- `VERIFICATION_REQUEST.response_model`: what an answer to verification says. -/
structure Answer where
  is_closed : Bool
  closed_reason : String
  requires_clearance_or_restrictions : Bool
  clearance_reason : String

/-- What an answer says on a check: whether it rejects the posting, and why. -/
def Answer.on (answer : Answer) : Check → Bool × String
  | .closed => (answer.is_closed, answer.closed_reason)
  | .clearance => (answer.requires_clearance_or_restrictions, answer.clearance_reason)

/-- What a collected line holds. -/
inductive Result
  /-- Its request is not known. -/
  | unknown
  /-- The provider gave an error, or no text. -/
  | failed
  /-- The text is not an answer. -/
  | invalid
  | answered (answer : Answer)

/-- The result is an answer. -/
def Result.isAnswer : Result → Bool
  | .answered _ => true
  | .unknown | .failed | .invalid => false

/-- `outcome` of a receipt. -/
inductive Outcome
  | unknown_request
  | failed
  | superseded
  | invalid_output
  | written
  deriving DecidableEq

/-- Which handler asked, and for `verify_new` which checks were missing. -/
inductive Asked
  | verifyNew (needs_closed needs_clearance : Bool)
  | reverify
  deriving DecidableEq

/-- `job.get(f"needs_{check}")`; `reverify` asks for both. -/
def Asked.needs : Asked → Check → Bool
  | .verifyNew needs_closed _, .closed => needs_closed
  | .verifyNew _ needs_clearance, .clearance => needs_clearance
  | .reverify, _ => true

/-- A row of `ai_batches` with the posting's line in it: what was collected, and the outcome of its receipt. -/
structure Batch where
  asked : Asked
  submitted_at : ℕ
  result : Option Result
  outcome : Option Outcome

/-- A row of `verdicts` on the posting. -/
structure Verdict where
  check_type : Check
  rejected : Bool
  reason : String
  created_at : ℕ
  batch_id : Option ℕ

/-- The clock of the database, the batches by id, and the verdicts in the order of their ids. -/
structure State where
  now : ℕ
  batches : List Batch
  verdicts : List Verdict

/-- Nothing is known of the posting. -/
def State.empty : State := ⟨0, [], []⟩

/-- When the evidence of a verdict was taken: at the submission of its batch, or when it was decided. -/
def State.evidence (s : State) (v : Verdict) : ℕ :=
  match v.batch_id with
  | none => v.created_at
  | some i => (s.batches[i]?).elim 0 (·.submitted_at)

/-- The verdict on a check that stands: the one with the last id. -/
def State.latest (s : State) (check : Check) : Option Verdict :=
  (s.verdicts.filter fun v => v.check_type = check).getLast?

/-! ## Consuming -/

/-- `_newer_evidence`: a verdict on the check was written after the batch was submitted. -/
def newerEvidence (verdicts : List Verdict) (submitted_at : ℕ) (check : Check) : Bool :=
  verdicts.any fun v => v.check_type = check && submitted_at < v.created_at

/-- The checks that have a verdict: `settled` of `_record_result`. -/
def settled (verdicts : List Verdict) (check : Check) : Bool := verdicts.any fun v => v.check_type = check

/-- The verdict that an answer gives on a check. -/
def verdictOf (answer : Answer) (i now : ℕ) (check : Check) : Verdict :=
  ⟨check, (answer.on check).1, (answer.on check).2, now, some i⟩

/-- `_record_reverify_results`, on one result that is pending: its outcome, and what it writes. -/
def recordReverify (verdicts : List Verdict) (i submitted_at now : ℕ) : Result → Outcome × List Verdict
  | .unknown => (.unknown_request, [])
  | .failed => (.failed, [])
  | result =>
    -- Stale on one axis is stale on both.
    if [Check.closed, .clearance].any (newerEvidence verdicts submitted_at) then (.superseded, [])
    else
      match result with
      | .answered answer => (.written, [Check.closed, .clearance].map (verdictOf answer i now))
      | _ => (.invalid_output, [])

/-- `_record_result`, on one result that is pending. `board` says whether a verdict for one of the boards of a
joint request is written. -/
def recordResult (verdicts : List Verdict) (i : ℕ) (asked : Asked) (now : ℕ) (board : Bool) :
    Result → Outcome × List Verdict
  | .unknown => (.unknown_request, [])
  | .failed => (.failed, [])
  | .invalid => (.invalid_output, [])
  | .answered answer =>
    let missing := [Check.closed, .clearance].filter fun check => asked.needs check && !settled verdicts check
    (if missing.isEmpty && !board then .superseded else .written, missing.map (verdictOf answer i now))

/-- What is done to a posting. -/
inductive Act
  /-- A batch with the posting is submitted. -/
  | submit (asked : Asked) (now : ℕ)
  /-- A result is checkpointed. -/
  | collect (i : ℕ) (result : Result)
  /-- A result is consumed. -/
  | consume (i now : ℕ) (board : Bool)
  /-- `record_manual`, by an admin or because the job board reports the posting gone. -/
  | decide (check : Check) (rejected : Bool) (reason : String) (now : ℕ)

/-- `consume_result` around the handler's record of a result: a receipt that has an outcome keeps it. -/
def consume (s : State) (i : ℕ) (b : Batch) (result : Result) (now : ℕ) (board : Bool) : State :=
  match b.outcome with
  | some _ => { s with now }
  | none =>
    let (outcome, rows) :=
      match b.asked with
      | .reverify => recordReverify s.verdicts i b.submitted_at now result
      | asked => recordResult s.verdicts i asked now board result
    ⟨now, s.batches.set i { b with outcome := some outcome }, s.verdicts ++ rows⟩

/-- One step. The clock does not go back. -/
def step (s : State) : Act → Option State
  | .submit asked now =>
    if now < s.now then none else some { s with now, batches := s.batches ++ [⟨asked, now, none, none⟩] }
  | .collect i result =>
    match s.batches[i]? with
    | some b =>
      if b.result.isSome then some s
      else some { s with batches := s.batches.set i { b with result := some result } }
    | none => none
  | .consume i now board =>
    if now < s.now then none
    else
      match s.batches[i]? with
      | some b => b.result.map fun result => consume s i b result now board
      | none => none
  | .decide check rejected reason now =>
    if now < s.now then none
    else some { s with now, verdicts := s.verdicts ++ [⟨check, rejected, reason, now, none⟩] }

/-! ## The property and the condition -/

/-- The request answered a check that it was asked for. -/
def Batch.Answers (b : Batch) (check : Check) : Prop :=
  b.result.any Result.isAnswer = true ∧ b.asked.needs check = true

/-- Evidence of a time has answered a check: a decision, or the result of a batch that was consumed. -/
def State.Answered (s : State) (check : Check) (time : ℕ) : Prop :=
  (∃ v ∈ s.verdicts, v.check_type = check ∧ v.batch_id = none ∧ v.created_at = time) ∨
    ∃ b ∈ s.batches, b.outcome.isSome = true ∧ b.Answers check ∧ b.submitted_at = time

/-- The verdict that stands on a check comes from the newest evidence that answered the check, and what is superseded
is so for newer evidence. Once every result is consumed this is about all results. -/
structure State.Rests (s : State) : Prop where
  newest : ∀ check v, s.latest check = some v →
    s.Answered check (s.evidence v) ∧ ∀ time, s.Answered check time → time ≤ s.evidence v
  superseded : ∀ b ∈ s.batches, b.outcome = some .superseded → ∃ v ∈ s.verdicts, b.submitted_at < s.evidence v

/-- Either check was decided after the submission. -/
def Batch.stale (verdicts : List Verdict) (b : Batch) : Bool :=
  [Check.closed, .clearance].any (newerEvidence verdicts b.submitted_at)

/-- The guard of the batch's handler keeps its result from a check. -/
def Batch.guarded (verdicts : List Verdict) (b : Batch) (check : Check) : Bool :=
  match b.asked with
  | .reverify => b.stale verdicts
  | .verifyNew .. => settled verdicts check

/-- The guards pass the whole result by. -/
def Batch.passedBy (verdicts : List Verdict) (b : Batch) (board : Bool) : Result → Bool
  | .unknown | .failed => false
  | .invalid => b.asked = .reverify && b.stale verdicts
  | .answered _ =>
    match b.asked with
    | .reverify => b.stale verdicts
    | asked => !board && [Check.closed, .clearance].all fun check => !asked.needs check || settled verdicts check

/-- The condition on a result that is about to be consumed. Where the guard keeps an answer from a check that has a
verdict, one of its verdicts rests on evidence that is not older; a result is passed by as a whole only where some
verdict rests on newer evidence; and the first verdict of a check is not older than what has answered the check. -/
@[mk_iff]
structure Batch.FreshAt (s : State) (b : Batch) (board : Bool) : Prop where
  kept : ∀ check, b.Answers check → b.guarded s.verdicts check = true → settled s.verdicts check = true →
    ∃ v ∈ s.verdicts, v.check_type = check ∧ b.submitted_at ≤ s.evidence v
  passed : ∀ result ∈ b.result, b.passedBy s.verdicts board result = true →
    ∃ v ∈ s.verdicts, b.submitted_at < s.evidence v
  first : ∀ check, b.Answers check → b.guarded s.verdicts check = false → settled s.verdicts check = false →
    ∀ c ∈ s.batches, c.outcome.isSome = true → c.Answers check → c.submitted_at ≤ b.submitted_at

/-- The condition on a step. -/
def Fresh (s : State) : Act → Prop
  | .consume i _ board => ∀ b ∈ s.batches[i]?, b.outcome = none → b.FreshAt s board
  | .submit .. | .collect .. | .decide .. => True

/-- Whether a request answered a check can be decided. -/
instance (b : Batch) (check : Check) : Decidable (b.Answers check) := inferInstanceAs (Decidable (_ ∧ _))

/-- So can the condition on a result. -/
instance (s : State) (b : Batch) (board : Bool) : Decidable (b.FreshAt s board) :=
  @decidable_of_iff _ _ (Batch.freshAt_iff s b board).symm
    (@instDecidableAnd _ _ inferInstance (@instDecidableAnd _ _ inferInstance inferInstance))

/-- And the condition on a step. -/
instance decidableFresh (s : State) : ∀ a, Decidable (Fresh s a)
  | .consume i _ board => inferInstanceAs (Decidable (∀ b ∈ s.batches[i]?, b.outcome = none → b.FreshAt s board))
  | .submit .. | .collect .. | .decide .. => isTrue trivial

/-! ## What a result writes -/

/-- What the two recorders have in common, for a result of a batch over the verdicts that are there. -/
structure Records (verdicts : List Verdict) (i : ℕ) (b : Batch) (now : ℕ) (board : Bool) (result : Result)
    (outcome : Outcome) (rows : List Verdict) : Prop where
  /-- Rows are written from an answer, where the guard lets it. -/
  rows_from : ∀ v ∈ rows, outcome = .written ∧ b.guarded verdicts v.check_type = false ∧
    b.asked.needs v.check_type = true ∧
      ∃ answer, result = .answered answer ∧ v = verdictOf answer i now v.check_type
  /-- What is there on the check of a row was decided when the batch was submitted. -/
  decided : ∀ v ∈ rows, ∀ w ∈ verdicts, w.check_type = v.check_type → w.created_at ≤ b.submitted_at
  /-- A check is written once. -/
  once : rows.Pairwise fun v w => v.check_type ≠ w.check_type
  writes : result.isAnswer = true → ∀ check, b.asked.needs check = true → b.guarded verdicts check = false →
    ∃ v ∈ rows, v.check_type = check
  superseded : outcome = .superseded ↔ b.passedBy verdicts board result = true

section Records

variable {verdicts : List Verdict} {i now : ℕ} {b : Batch} {board : Bool} {outcome : Outcome}

/-- Nothing is written where the guard keeps the answer from all that is asked, or there is none. -/
theorem Records.nothing {result : Result}
    (hguarded : result.isAnswer = true → ∀ check, b.asked.needs check = true → b.guarded verdicts check = true)
    (hsuperseded : outcome = .superseded ↔ b.passedBy verdicts board result = true) :
    Records verdicts i b now board result outcome [] where
  rows_from _ hv := absurd hv List.not_mem_nil
  decided _ hv := absurd hv List.not_mem_nil
  once := .nil
  writes hanswer check hneeds hfree := by
    rw [hguarded hanswer check hneeds] at hfree
    contradiction
  superseded := hsuperseded

/-- A result that is no answer and is not passed by. -/
theorem Records.no_answer {result : Result} (hanswer : result.isAnswer = false) (houtcome : outcome ≠ .superseded)
    (hpassed : b.passedBy verdicts board result = false) : Records verdicts i b now board result outcome [] := by
  refine .nothing (fun h => ?_) ⟨fun h => absurd h houtcome, fun h => ?_⟩
  · rw [hanswer] at h
    contradiction
  · rw [hpassed] at h
    contradiction

/-- The rows of an answer on the checks that are asked for and that the guard lets it write, none of which was
decided since. -/
theorem Records.checks {answer : Answer} {checks : List Check} (hnodup : checks.Nodup)
    (hmem : ∀ check, check ∈ checks ↔ b.asked.needs check = true ∧ b.guarded verdicts check = false)
    (hdecided : ∀ check ∈ checks, ∀ w ∈ verdicts, w.check_type = check → w.created_at ≤ b.submitted_at)
    (hpassed : b.passedBy verdicts board (.answered answer) = false) :
    Records verdicts i b now board (.answered answer) .written (checks.map (verdictOf answer i now)) where
  rows_from v hv := by
    obtain ⟨check, hcheck, rfl⟩ := List.mem_map.mp hv
    obtain ⟨hneeds, hfree⟩ := (hmem check).mp hcheck
    exact ⟨rfl, hfree, hneeds, answer, rfl, rfl⟩
  decided v hv w hw heq := by
    obtain ⟨check, hcheck, rfl⟩ := List.mem_map.mp hv
    exact hdecided check hcheck w hw heq
  once := by
    rw [List.pairwise_map]
    exact hnodup
  writes _ check hneeds hfree :=
    ⟨verdictOf answer i now check, List.mem_map_of_mem ((hmem check).mpr ⟨hneeds, hfree⟩), rfl⟩
  superseded := by
    rw [hpassed]
    exact ⟨nofun, nofun⟩

/-- A verdict on a check after the submission. -/
theorem newerEvidence_iff {submitted_at : ℕ} {check : Check} :
    newerEvidence verdicts submitted_at check = true ↔
      ∃ v ∈ verdicts, v.check_type = check ∧ submitted_at < v.created_at := by
  unfold newerEvidence
  simp only [List.any_eq_true, Bool.and_eq_true, decide_eq_true_eq]

/-- A check that has a verdict. -/
theorem settled_iff_exists {check : Check} :
    settled verdicts check = true ↔ ∃ v ∈ verdicts, v.check_type = check := by
  unfold settled
  simp only [List.any_eq_true, decide_eq_true_eq]

/-- Every check is one of the two. -/
theorem mem_checks (check : Check) : check ∈ [Check.closed, .clearance] := by
  cases check <;> decide

/-- `_record_reverify_results` records. -/
theorem records_reverify (hasked : b.asked = .reverify) (board : Bool) (result : Result) :
    Records verdicts i b now board result (recordReverify verdicts i b.submitted_at now result).1
      (recordReverify verdicts i b.submitted_at now result).2 := by
  have hguarded : ∀ check, b.guarded verdicts check = b.stale verdicts := by
    intro check
    unfold Batch.guarded
    rw [hasked]
  have hanswered : ∀ answer, b.passedBy verdicts board (.answered answer) = b.stale verdicts := by
    intro answer
    simp only [Batch.passedBy, hasked]
  have hinvalid : b.passedBy verdicts board .invalid = b.stale verdicts := by
    simp only [Batch.passedBy, hasked, decide_true, Bool.true_and]
  cases result with
  | unknown => exact .no_answer rfl Outcome.noConfusion rfl
  | failed => exact .no_answer rfl Outcome.noConfusion rfl
  | invalid =>
    unfold recordReverify
    dsimp only
    split
    · next h => exact .nothing (fun h => absurd h Bool.false_ne_true) ⟨fun _ => hinvalid.trans h, fun _ => rfl⟩
    · next h => exact .no_answer rfl Outcome.noConfusion (hinvalid.trans (Bool.eq_false_iff.mpr h))
  | answered answer =>
    unfold recordReverify
    dsimp only
    split
    · next h =>
      exact .nothing (fun _ check _ => (hguarded check).trans h) ⟨fun _ => (hanswered answer).trans h, fun _ => rfl⟩
    · next h =>
      have hfresh : b.stale verdicts = false := Bool.eq_false_iff.mpr h
      refine .checks (by decide) (fun check => ?_) (fun check hcheck w hw heq => ?_) ((hanswered answer).trans hfresh)
      · rw [hasked, hguarded]
        exact ⟨fun _ => ⟨rfl, hfresh⟩, fun _ => mem_checks check⟩
      · by_contra hlt
        have hnewer := newerEvidence_iff.mpr ⟨w, hw, heq, Nat.lt_of_not_le hlt⟩
        exact h (List.any_eq_true.mpr ⟨check, hcheck, hnewer⟩)

/-- `_record_result` records. -/
theorem records_result (hasked : b.asked ≠ .reverify) (board : Bool) (result : Result) :
    Records verdicts i b now board result (recordResult verdicts i b.asked now board result).1
      (recordResult verdicts i b.asked now board result).2 := by
  have hguarded : ∀ check, b.guarded verdicts check = settled verdicts check := by
    intro check
    unfold Batch.guarded
    split
    · next h => exact absurd h hasked
    · rfl
  cases result with
  | unknown => exact .no_answer rfl Outcome.noConfusion rfl
  | failed => exact .no_answer rfl Outcome.noConfusion rfl
  | invalid =>
    refine .no_answer rfl Outcome.noConfusion ?_
    simp only [Batch.passedBy, hasked, decide_false, Bool.false_and]
  | answered answer =>
    unfold recordResult
    dsimp only
    generalize hmissing : [Check.closed, .clearance].filter
      (fun check => b.asked.needs check && !settled verdicts check) = missing
    have hmem : ∀ check, check ∈ missing ↔ b.asked.needs check = true ∧ settled verdicts check = false := by
      intro check
      rw [← hmissing, List.mem_filter, Bool.and_eq_true, Bool.not_eq_true']
      exact and_iff_right (mem_checks check)
    have hpassed : b.passedBy verdicts board (.answered answer) = (missing.isEmpty && !board) := by
      have hempty : missing.isEmpty =
          [Check.closed, .clearance].all fun check => !b.asked.needs check || settled verdicts check := by
        rw [Bool.eq_iff_iff, List.isEmpty_iff, ← hmissing, List.filter_eq_nil_iff, List.all_eq_true]
        refine forall₂_congr fun check _ => ?_
        cases b.asked.needs check <;> cases settled verdicts check <;> decide
      unfold Batch.passedBy
      dsimp only
      split
      · next h => exact absurd h hasked
      · rw [hempty, Bool.and_comm]
    split
    · next h =>
      have hnil : missing = [] := List.isEmpty_iff.mp (Bool.and_eq_true _ _ ▸ h).1
      rw [hnil]
      refine .nothing (fun _ check hneeds => ?_) ⟨fun _ => hpassed.trans h, fun _ => rfl⟩
      by_contra hfree
      have hin := (hmem check).mpr ⟨hneeds, (hguarded check).symm.trans (Bool.eq_false_iff.mpr hfree)⟩
      rw [hnil] at hin
      exact absurd hin List.not_mem_nil
    · next h =>
      refine .checks ?_ (fun check => ?_) (fun check hcheck w hw heq => ?_) (hpassed.trans (Bool.eq_false_iff.mpr h))
      · rw [← hmissing]
        exact List.Nodup.filter _ (by decide)
      · rw [hmem, hguarded]
      · have hyes := settled_iff_exists.mpr ⟨w, hw, heq⟩
        rw [((hmem check).mp hcheck).2] at hyes
        contradiction

end Records

/-! ## Invariant -/

/-- From one state to the next the batches keep what they have. -/
def Grows (s s' : State) : Prop :=
  ∀ (i : ℕ) (b : Batch), s.batches[i]? = some b → ∃ b' : Batch, s'.batches[i]? = some b' ∧ b'.asked = b.asked ∧
    b'.submitted_at = b.submitted_at ∧ (b.result.isSome → b'.result = b.result) ∧
    (b.outcome.isSome → b'.outcome = b.outcome)

/-- A verdict with a batch comes from what the batch answered. -/
def Verdict.From (s : State) (v : Verdict) : Prop :=
  ∀ i, v.batch_id = some i → ∃ b answer, s.batches[i]? = some b ∧ b.submitted_at ≤ v.created_at ∧
    b.outcome = some .written ∧ b.result = some (.answered answer) ∧ b.asked.needs v.check_type = true ∧
      (v.rejected, v.reason) = answer.on v.check_type

/-- The invariant. -/
structure State.Inv (s : State) : Prop where
  created : ∀ v ∈ s.verdicts, v.created_at ≤ s.now
  submitted : ∀ b ∈ s.batches, b.submitted_at ≤ s.now
  rows : ∀ v ∈ s.verdicts, v.From s
  /-- On a check the evidence never gets older. -/
  order : s.verdicts.Pairwise fun v w => v.check_type = w.check_type → s.evidence v ≤ s.evidence w
  /-- What is consumed was collected. -/
  collected : ∀ b ∈ s.batches, b.outcome.isSome → b.result.isSome

section Invariant

variable {s s' : State} {v : Verdict} {b : Batch}

/-- The evidence of a verdict was there when the verdict was created. -/
theorem Verdict.From.evidence_le (h : v.From s) : s.evidence v ≤ v.created_at := by
  unfold State.evidence
  cases hbatch : v.batch_id with
  | none => exact Nat.le_refl _
  | some i =>
    obtain ⟨b, -, hb, hle, -⟩ := h i hbatch
    simp only [hb, Option.elim_some]
    exact hle

/-- A verdict still comes from its batch. -/
theorem Verdict.From.mono (h : v.From s) (hgrows : Grows s s') : v.From s' := by
  intro i hi
  obtain ⟨b, answer, hb, hle, hwritten, hresult, hneeds, hon⟩ := h i hi
  obtain ⟨b', hb', hasked, hsubmitted, hresult', houtcome'⟩ := hgrows i b hb
  refine ⟨b', answer, hb', hsubmitted ▸ hle, ?_, ?_, hasked ▸ hneeds, hon⟩
  · rw [houtcome' (by simp [hwritten]), hwritten]
  · rw [hresult' (by simp [hresult]), hresult]

/-- Its evidence is the same. -/
theorem Verdict.From.evidence_eq (h : v.From s) (hgrows : Grows s s') : s'.evidence v = s.evidence v := by
  unfold State.evidence
  cases hbatch : v.batch_id with
  | none => rfl
  | some i =>
    obtain ⟨b, -, hb, -⟩ := h i hbatch
    obtain ⟨b', hb', -, hsubmitted, -⟩ := hgrows i b hb
    simp only [hb, hb', Option.elim_some]
    exact hsubmitted

/-- The verdicts that were there keep their order. -/
theorem State.Inv.order_mono (hinv : s.Inv) (hgrows : Grows s s') :
    s.verdicts.Pairwise fun v w => v.check_type = w.check_type → s'.evidence v ≤ s'.evidence w := by
  refine hinv.order.imp_of_mem fun {v w} hv hw h heq => ?_
  rw [(hinv.rows v hv).evidence_eq hgrows, (hinv.rows w hw).evidence_eq hgrows]
  exact h heq

/-- A batch that is replaced keeps the others, and what it has itself. -/
theorem grows_set {i now : ℕ} {b' : Batch} {verdicts : List Verdict} (hb : s.batches[i]? = some b)
    (hasked : b'.asked = b.asked) (hsubmitted : b'.submitted_at = b.submitted_at)
    (hresult : b.result.isSome → b'.result = b.result) (houtcome : b.outcome.isSome → b'.outcome = b.outcome) :
    Grows s ⟨now, s.batches.set i b', verdicts⟩ := by
  intro j c hc
  dsimp only
  by_cases hij : i = j
  · subst hij
    obtain rfl := Option.some.inj (hb.symm.trans hc)
    refine ⟨b', ?_, hasked, hsubmitted, hresult, houtcome⟩
    exact List.getElem?_set_self (List.getElem?_eq_some_iff.mp hb).1
  · exact ⟨c, (List.getElem?_set_ne hij).trans hc, rfl, rfl, fun _ => rfl, fun _ => rfl⟩

/-- A state whose batches are as they were. -/
theorem grows_refl {now : ℕ} {verdicts : List Verdict} : Grows s ⟨now, s.batches, verdicts⟩ :=
  fun _ b hb => ⟨b, hb, rfl, rfl, fun _ => rfl, fun _ => rfl⟩

/-- The invariant at the start. -/
theorem State.Inv.empty : State.empty.Inv where
  created _ hv := absurd hv List.not_mem_nil
  submitted _ hb := absurd hb List.not_mem_nil
  rows _ hv := absurd hv List.not_mem_nil
  order := .nil
  collected _ hb := absurd hb List.not_mem_nil

/-- The clock moves on. -/
theorem State.Inv.tick (hinv : s.Inv) {now : ℕ} (hnow : s.now ≤ now) : State.Inv { s with now } where
  created v hv := Nat.le_trans (hinv.created v hv) hnow
  submitted b hb := Nat.le_trans (hinv.submitted b hb) hnow
  rows v hv := (hinv.rows v hv).mono grows_refl
  order := hinv.order_mono grows_refl
  collected := hinv.collected

/-- A batch is submitted. -/
theorem State.Inv.submit (hinv : s.Inv) (asked : Asked) {now : ℕ} (hnow : s.now ≤ now) :
    State.Inv { s with now, batches := s.batches ++ [⟨asked, now, none, none⟩] } := by
  have hgrows : Grows s { s with now, batches := s.batches ++ [⟨asked, now, none, none⟩] } := by
    intro i b hb
    refine ⟨b, ?_, rfl, rfl, fun _ => rfl, fun _ => rfl⟩
    dsimp only
    rw [List.getElem?_append_left (List.getElem?_eq_some_iff.mp hb).1]
    exact hb
  refine ⟨fun v hv => ?_, fun b hb => ?_, fun v hv => (hinv.rows v hv).mono hgrows, hinv.order_mono hgrows,
    fun b hb hconsumed => ?_⟩
  · exact Nat.le_trans (hinv.created v hv) hnow
  · rcases List.mem_append.mp hb with hb | hb
    · exact Nat.le_trans (hinv.submitted b hb) hnow
    · obtain rfl := List.mem_singleton.mp hb
      exact Nat.le_refl _
  · rcases List.mem_append.mp hb with hb | hb
    · exact hinv.collected b hb hconsumed
    -- The new batch has no receipt yet.
    · obtain rfl := List.mem_singleton.mp hb
      contradiction

/-- A batch is replaced by one with the result, or with an outcome and its verdicts. -/
theorem State.Inv.set (hinv : s.Inv) {i now : ℕ} (b' : Batch) (rows : List Verdict) (hnow : s.now ≤ now)
    (hb : s.batches[i]? = some b) (hgrows : Grows s ⟨now, s.batches.set i b', s.verdicts ++ rows⟩)
    (hsubmitted : b'.submitted_at = b.submitted_at) (hcollected : b'.outcome.isSome → b'.result.isSome)
    (hrows : ∀ v ∈ rows, v.From ⟨now, s.batches.set i b', s.verdicts ++ rows⟩ ∧ v.created_at = now ∧
      State.evidence ⟨now, s.batches.set i b', s.verdicts ++ rows⟩ v = b.submitted_at ∧
      ∀ w ∈ s.verdicts, w.check_type = v.check_type → w.created_at ≤ b.submitted_at)
    (honce : rows.Pairwise fun v w => v.check_type ≠ w.check_type) :
    State.Inv ⟨now, s.batches.set i b', s.verdicts ++ rows⟩ := by
  have hle : b.submitted_at ≤ now :=
    Nat.le_trans (hinv.submitted b (List.mem_of_getElem? hb)) hnow
  refine ⟨fun v hv => ?_, fun c hc => ?_, fun v hv => ?_, ?_, fun c hc => ?_⟩
  · rcases List.mem_append.mp hv with hv | hv
    · exact Nat.le_trans (hinv.created v hv) hnow
    · exact Nat.le_of_eq (hrows v hv).2.1
  · rcases List.mem_or_eq_of_mem_set hc with hc | rfl
    · exact Nat.le_trans (hinv.submitted c hc) hnow
    · rw [hsubmitted]
      exact hle
  · rcases List.mem_append.mp hv with hv | hv
    · exact (hinv.rows v hv).mono hgrows
    · exact (hrows v hv).1
  · -- The evidence of a new row is the batch's, and all there is on its check was decided before.
    refine List.pairwise_append.mpr ⟨hinv.order_mono hgrows, ?_, fun v hv w hw heq => ?_⟩
    · exact honce.imp fun hne heq => absurd heq hne
    · obtain ⟨-, -, hevidence, hdecided⟩ := hrows w hw
      have hfrom := hinv.rows v hv
      calc State.evidence _ v = s.evidence v := hfrom.evidence_eq hgrows
        _ ≤ v.created_at := hfrom.evidence_le
        _ ≤ b.submitted_at := hdecided v hv heq
        _ = State.evidence _ w := hevidence.symm
  · rcases List.mem_or_eq_of_mem_set hc with hc | rfl
    · exact hinv.collected c hc
    · exact hcollected

/-- A result is collected. -/
theorem State.Inv.collect (hinv : s.Inv) {i : ℕ} (hb : s.batches[i]? = some b) (hnone : b.result = none)
    (result : Result) : State.Inv { s with batches := s.batches.set i { b with result := some result } } := by
  have hgrows : Grows s { s with batches := s.batches.set i { b with result := some result } } :=
    grows_set hb rfl rfl (fun h => by simp [hnone] at h) fun _ => rfl
  have hset := hinv.set { b with result := some result } [] (Nat.le_refl _) hb
    (by rw [List.append_nil]; exact hgrows) rfl (fun _ => rfl) (fun v hv => absurd hv List.not_mem_nil) .nil
  rw [List.append_nil] at hset
  exact hset

/-- A pending result is consumed with what it records. -/
theorem State.Inv.record (hinv : s.Inv) {i now : ℕ} (hnow : s.now ≤ now) (hb : s.batches[i]? = some b)
    {result : Result} (hresult : b.result = some result) (hpending : b.outcome = none) {board : Bool}
    {outcome : Outcome} {rows : List Verdict} (hrecords : Records s.verdicts i b now board result outcome rows) :
    State.Inv ⟨now, s.batches.set i { b with outcome := some outcome }, s.verdicts ++ rows⟩ := by
  have hset : (s.batches.set i { b with outcome := some outcome })[i]? =
      some { b with outcome := some outcome } :=
    List.getElem?_set_self (List.getElem?_eq_some_iff.mp hb).1
  have hle : b.submitted_at ≤ now := Nat.le_trans (hinv.submitted b (List.mem_of_getElem? hb)) hnow
  refine hinv.set _ rows hnow hb (grows_set hb rfl rfl (fun _ => rfl) ?_) rfl ?_ (fun v hv => ?_) hrecords.once
  · intro h
    simp [hpending] at h
  · exact fun _ => by simp [hresult]
  · obtain ⟨hwritten, -, hneeds, answer, hanswer, hv'⟩ := hrecords.rows_from v hv
    have hid : v.batch_id = some i := by rw [hv']; rfl
    have hcreated : v.created_at = now := by rw [hv']; rfl
    refine ⟨fun j hj => ?_, hcreated, ?_, hrecords.decided v hv⟩
    · obtain rfl := Option.some.inj (hid.symm.trans hj)
      refine ⟨_, answer, hset, ?_, congrArg some hwritten, hresult.trans (congrArg some hanswer), hneeds, ?_⟩
      · rw [hcreated]
        exact hle
      · rw [hv']
        rfl
    · unfold State.evidence
      rw [hid]
      simp only [hset, Option.elim_some]

/-- An admin or the job board decides a check. -/
theorem State.Inv.decide (hinv : s.Inv) {now : ℕ} (hnow : s.now ≤ now) (check : Check) (rejected : Bool)
    (reason : String) :
    State.Inv { s with now, verdicts := s.verdicts ++ [⟨check, rejected, reason, now, none⟩] } := by
  refine ⟨fun v hv => ?_, fun b hb => Nat.le_trans (hinv.submitted b hb) hnow, fun v hv => ?_, ?_,
    hinv.collected⟩
  · rcases List.mem_append.mp hv with hv | hv
    · exact Nat.le_trans (hinv.created v hv) hnow
    · obtain rfl := List.mem_singleton.mp hv
      exact Nat.le_refl now
  · rcases List.mem_append.mp hv with hv | hv
    · exact (hinv.rows v hv).mono grows_refl
    · obtain rfl := List.mem_singleton.mp hv
      exact nofun
  -- What is decided now rests on what is seen now.
  · refine List.pairwise_append.mpr ⟨hinv.order_mono grows_refl, List.pairwise_singleton _ _, ?_⟩
    intro v hv w hw _
    rw [List.mem_singleton.mp hw]
    have hfrom := hinv.rows v hv
    calc State.evidence _ v = s.evidence v := hfrom.evidence_eq grows_refl
      _ ≤ v.created_at := hfrom.evidence_le
      _ ≤ s.now := hinv.created v hv
      _ ≤ now := hnow

/-- One step keeps the invariant. -/
theorem State.Inv.step (hinv : s.Inv) (a : Act) (h : step s a = some s') : s'.Inv := by
  unfold Standing.step at h
  cases a with
  | submit asked now =>
    dsimp only at h
    split at h
    · contradiction
    · next hnow =>
      rw [← Option.some.inj h]
      exact hinv.submit asked (Nat.le_of_not_lt hnow)
  | collect i result =>
    dsimp only at h
    split at h
    · next b hb =>
      split at h
      · rw [← Option.some.inj h]
        exact hinv
      · next hnone =>
        rw [← Option.some.inj h]
        exact hinv.collect hb (Option.not_isSome_iff_eq_none.mp hnone) result
    · contradiction
  | consume i now board =>
    dsimp only at h
    split at h
    · contradiction
    · next hnow =>
      split at h
      · next b hb =>
        obtain ⟨result, hresult, rfl⟩ := Option.map_eq_some_iff.mp h
        have hnow := Nat.le_of_not_lt hnow
        unfold consume
        split
        · exact hinv.tick hnow
        · next hpending =>
          dsimp only
          split
          · next hasked => exact hinv.record hnow hb hresult hpending (records_reverify hasked board result)
          · next hasked => exact hinv.record hnow hb hresult hpending (records_result hasked board result)
      · contradiction
  | decide check rejected reason now =>
    dsimp only at h
    split at h
    · contradiction
    · next hnow =>
      rw [← Option.some.inj h]
      exact hinv.decide (Nat.le_of_not_lt hnow) check rejected reason

/-- Every run keeps the invariant. -/
theorem State.Inv.run (h : Run Standing.step Always State.empty s) : s.Inv :=
  h.invariant (I := State.Inv) .empty fun _ a _ hi _ hs => hi.step a hs

/-- The verdict that stands has the newest evidence of those on its check. -/
theorem State.Inv.latest_newest (hinv : s.Inv) {check : Check} (h : s.latest check = some v) :
    v ∈ s.verdicts ∧ v.check_type = check ∧
      ∀ w ∈ s.verdicts, w.check_type = check → s.evidence w ≤ s.evidence v := by
  unfold State.latest at h
  obtain ⟨front, hfront⟩ := List.getLast?_eq_some_iff.mp h
  have hmem : v ∈ s.verdicts.filter fun v => v.check_type = check := by
    rw [hfront]
    exact List.mem_append_right _ (List.mem_singleton_self v)
  have hcheck : v.check_type = check := by simpa using (List.mem_filter.mp hmem).2
  refine ⟨(List.mem_filter.mp hmem).1, hcheck, fun w hw heq => ?_⟩
  have horder := hinv.order.filter fun v => v.check_type = check
  rw [hfront] at horder
  have hw' : w ∈ s.verdicts.filter fun v => v.check_type = check :=
    List.mem_filter.mpr ⟨hw, decide_eq_true heq⟩
  rw [hfront] at hw'
  rcases List.mem_append.mp hw' with hw' | hw'
  · exact (List.pairwise_append.mp horder).2.2 w hw' v (List.mem_singleton_self v) (heq.trans hcheck.symm)
  · obtain rfl := List.mem_singleton.mp hw'
    exact Nat.le_refl _

end Invariant

/-! ## The property over a run -/

section Property

variable {s s' : State} {b : Batch}

/-- A check with a verdict has one for all that has answered it. -/
def State.Covered (s : State) : Prop :=
  ∀ check time, settled s.verdicts check = true → s.Answered check time →
    ∃ v ∈ s.verdicts, v.check_type = check ∧ time ≤ s.evidence v

/-- The verdict that stands rests on the newest evidence where some verdict does, as it is the newest itself. -/
theorem State.Inv.rests_iff (hinv : s.Inv) : s.Rests ↔ s.Covered ∧
    ∀ b ∈ s.batches, b.outcome = some .superseded → ∃ v ∈ s.verdicts, b.submitted_at < s.evidence v := by
  constructor
  · rintro ⟨hnewest, hsuperseded⟩
    refine ⟨fun check time hsettled htime => ?_, hsuperseded⟩
    obtain ⟨w, hw, hcheck⟩ := settled_iff_exists.mp hsettled
    have hne : (s.verdicts.filter fun v => v.check_type = check) ≠ [] :=
      List.ne_nil_of_mem (List.mem_filter.mpr ⟨hw, decide_eq_true hcheck⟩)
    have hlatest : s.latest check = some _ := List.getLast?_eq_some_getLast hne
    obtain ⟨hmem, heq, -⟩ := hinv.latest_newest hlatest
    exact ⟨_, hmem, heq, (hnewest check _ hlatest).2 time htime⟩
  · rintro ⟨hcovered, hsuperseded⟩
    refine ⟨fun check v hlatest => ?_, hsuperseded⟩
    obtain ⟨hv, hcheck, hmost⟩ := hinv.latest_newest hlatest
    refine ⟨?_, fun time htime => ?_⟩
    · unfold State.evidence
      cases hbatch : v.batch_id with
      | none => exact .inl ⟨v, hv, hcheck, hbatch, rfl⟩
      | some i =>
        obtain ⟨b, answer, hb, -, hwritten, hresult, hneeds, -⟩ := hinv.rows v hv i hbatch
        refine .inr ⟨b, List.mem_of_getElem? hb, by rw [hwritten]; rfl, ⟨by rw [hresult]; rfl, hcheck ▸ hneeds⟩, ?_⟩
        simp only [hb, Option.elim_some]
    · obtain ⟨w, hw, heq, hle⟩ := hcovered check time (settled_iff_exists.mpr ⟨v, hv, hcheck⟩) htime
      exact Nat.le_trans hle (hmost w hw heq)

/-- A step that consumes nothing and decides nothing. -/
theorem State.Rests.same (h : s.Rests) (hinv : s.Inv) (hinv' : s'.Inv) (hgrows : Grows s s')
    (hverdicts : s'.verdicts = s.verdicts) (hbatches : ∀ b ∈ s'.batches, b.outcome.isSome = true → b ∈ s.batches) :
    s'.Rests := by
  obtain ⟨hcovered, hsuperseded⟩ := hinv.rests_iff.mp h
  have hevidence : ∀ v ∈ s.verdicts, s'.evidence v = s.evidence v := fun v hv => (hinv.rows v hv).evidence_eq hgrows
  refine hinv'.rests_iff.mpr ⟨fun check time hsettled htime => ?_, fun b hb houtcome => ?_⟩
  · rw [hverdicts] at hsettled ⊢
    have hanswered : s.Answered check time := by
      rcases htime with ⟨v, hv, hrest⟩ | ⟨b, hb, hconsumed, hrest⟩
      · exact .inl ⟨v, hverdicts ▸ hv, hrest⟩
      · exact .inr ⟨b, hbatches b hb hconsumed, hconsumed, hrest⟩
    obtain ⟨v, hv, hcheck, hle⟩ := hcovered check time hsettled hanswered
    exact ⟨v, hv, hcheck, (hevidence v hv).symm ▸ hle⟩
  · obtain ⟨v, hv, hlt⟩ := hsuperseded b (hbatches b hb (by rw [houtcome]; rfl)) houtcome
    exact ⟨v, hverdicts ▸ hv, (hevidence v hv).symm ▸ hlt⟩

/-- What is decided now is newer than all there is. -/
theorem State.Rests.decide (h : s.Rests) (hinv : s.Inv) {now : ℕ} (hnow : s.now ≤ now) (check : Check)
    (rejected : Bool) (reason : String) :
    State.Rests { s with now, verdicts := s.verdicts ++ [⟨check, rejected, reason, now, none⟩] } := by
  obtain ⟨hcovered, hsuperseded⟩ := hinv.rests_iff.mp h
  have hevidence : ∀ v ∈ s.verdicts,
      State.evidence { s with now, verdicts := s.verdicts ++ [⟨check, rejected, reason, now, none⟩] } v =
        s.evidence v := fun v hv => (hinv.rows v hv).evidence_eq grows_refl
  refine (hinv.decide hnow check rejected reason).rests_iff.mpr
    ⟨fun check' time hsettled htime => ?_, fun b hb ho => ?_⟩
  · rcases htime with ⟨v, hv, hcheck, hbatch, htime⟩ | ⟨b, hb, hconsumed, hanswers, rfl⟩
    · refine ⟨v, hv, hcheck, Nat.le_of_eq ?_⟩
      unfold State.evidence
      rw [hbatch]
      exact htime.symm
    · by_cases heq : check = check'
      · refine ⟨_, List.mem_append_right _ (List.mem_singleton_self _), heq, ?_⟩
        exact Nat.le_trans (hinv.submitted b hb) hnow
      · obtain ⟨w, hw, hcheck⟩ := settled_iff_exists.mp hsettled
        have hw : w ∈ s.verdicts := by
          rcases List.mem_append.mp hw with hw | hw
          · exact hw
          · rw [List.mem_singleton.mp hw] at hcheck
            exact absurd hcheck heq
        obtain ⟨v, hv, hcheck, hle⟩ := hcovered check' _ (settled_iff_exists.mpr ⟨w, hw, hcheck⟩)
          (.inr ⟨b, hb, hconsumed, hanswers, rfl⟩)
        exact ⟨v, List.mem_append_left _ hv, hcheck, (hevidence v hv).symm ▸ hle⟩
  · obtain ⟨v, hv, hlt⟩ := hsuperseded b hb ho
    exact ⟨v, List.mem_append_left _ hv, (hevidence v hv).symm ▸ hlt⟩

/-- After a pending result is consumed the property holds exactly where the condition did. -/
theorem State.Rests.record_iff (h : s.Rests) (hinv : s.Inv) {i now : ℕ} (hnow : s.now ≤ now)
    (hb : s.batches[i]? = some b) {result : Result} (hresult : b.result = some result) (hpending : b.outcome = none)
    {board : Bool} {outcome : Outcome} {rows : List Verdict}
    (hrecords : Records s.verdicts i b now board result outcome rows) :
    State.Rests ⟨now, s.batches.set i { b with outcome := some outcome }, s.verdicts ++ rows⟩ ↔
      b.FreshAt s board := by
  have hinv' := hinv.record hnow hb hresult hpending hrecords
  obtain ⟨hlt, hget⟩ := List.getElem?_eq_some_iff.mp hb
  -- What the row of the batch holds now.
  have hset : (s.batches.set i { b with outcome := some outcome })[i]? = some { b with outcome := some outcome } :=
    List.getElem?_set_self hlt
  have hself := List.mem_of_getElem? hset
  have hgrows : Grows s ⟨now, s.batches.set i { b with outcome := some outcome }, s.verdicts ++ rows⟩ :=
    grows_set hb rfl rfl (fun _ => rfl) fun hsome => by simp [hpending] at hsome
  -- Every batch that was consumed before is there still.
  have hother : ∀ c ∈ s.batches, c.outcome.isSome = true →
      c ∈ s.batches.set i { b with outcome := some outcome } := by
    intro c hc hconsumed
    obtain ⟨j, hj⟩ := List.mem_iff_getElem?.mp hc
    have hij : i ≠ j := by
      rintro rfl
      rw [Option.some.inj (hj.symm.trans hb), hpending] at hconsumed
      contradiction
    exact List.mem_of_getElem? ((List.getElem?_set_ne hij).trans hj)
  -- The evidence of a verdict, old and new.
  have hold : ∀ v ∈ s.verdicts,
      State.evidence ⟨now, s.batches.set i { b with outcome := some outcome }, s.verdicts ++ rows⟩ v = s.evidence v :=
    fun v hv => (hinv.rows v hv).evidence_eq hgrows
  have hrow : ∀ v ∈ rows,
      State.evidence ⟨now, s.batches.set i { b with outcome := some outcome }, s.verdicts ++ rows⟩ v =
        b.submitted_at := by
    intro v hv
    obtain ⟨-, -, -, answer, -, hv'⟩ := hrecords.rows_from v hv
    have hid : v.batch_id = some i := by rw [hv']; rfl
    unfold State.evidence
    rw [hid]
    simp only [hset, Option.elim_some]
  have hanswer : ∀ check, b.Answers check → result.isAnswer = true := by
    rintro check ⟨hanswer, -⟩
    rwa [hresult] at hanswer
  rw [hinv'.rests_iff]
  obtain ⟨hcovered, hsuperseded⟩ := hinv.rests_iff.mp h
  constructor
  -- The property after the step gives each part of the condition.
  · rintro ⟨hcovered', hsuperseded'⟩
    refine ⟨fun check hanswers hguarded hsettled => ?_, fun result' hresult' hpassed => ?_,
      fun check hanswers hfree hunsettled c hc hconsumed hanswers' => ?_⟩
    · obtain ⟨w, hw, hcheck⟩ := settled_iff_exists.mp hsettled
      obtain ⟨v, hv, hcheck, hle⟩ := hcovered' check b.submitted_at
        (settled_iff_exists.mpr ⟨w, List.mem_append_left _ hw, hcheck⟩) (.inr ⟨_, hself, rfl, hanswers, rfl⟩)
      rcases List.mem_append.mp hv with hv | hv
      · exact ⟨v, hv, hcheck, hold v hv ▸ hle⟩
      -- The guard keeps the answer from the check.
      · obtain ⟨-, hfree, -⟩ := hrecords.rows_from v hv
        rw [hcheck, hguarded] at hfree
        contradiction
    · obtain rfl := Option.some.inj (hresult.symm.trans hresult')
      have houtcome := hrecords.superseded.mpr hpassed
      obtain ⟨v, hv, hlt⟩ := hsuperseded' _ hself (congrArg some houtcome)
      rcases List.mem_append.mp hv with hv | hv
      · exact ⟨v, hv, hold v hv ▸ hlt⟩
      · rw [houtcome] at hrecords
        exact absurd (hrecords.rows_from v hv).1 (by decide)
    · obtain ⟨w, hw, hcheck⟩ := hrecords.writes (hanswer check hanswers) check hanswers.2 hfree
      obtain ⟨v, hv, hcheck, hle⟩ := hcovered' check c.submitted_at
        (settled_iff_exists.mpr ⟨w, List.mem_append_right _ hw, hcheck⟩)
        (.inr ⟨c, hother c hc hconsumed, hconsumed, hanswers', rfl⟩)
      rcases List.mem_append.mp hv with hv | hv
      · rw [settled_iff_exists.mpr ⟨v, hv, hcheck⟩] at hunsettled
        contradiction
      · exact hrow v hv ▸ hle
  -- The condition gives the property of what was and of the rows that come.
  · intro hfresh
    refine ⟨fun check time hsettled htime => ?_, fun c hc houtcome => ?_⟩
    · rcases htime with ⟨v, hv, hcheck, hbatch, rfl⟩ | ⟨c, hc, hconsumed, hanswers, rfl⟩
      · refine ⟨v, hv, hcheck, Nat.le_of_eq ?_⟩
        unfold State.evidence
        rw [hbatch]
      cases hbefore : settled s.verdicts check with
      | true =>
        rcases List.mem_or_eq_of_mem_set hc with hc | rfl
        · obtain ⟨v, hv, hcheck, hle⟩ := hcovered check _ hbefore (.inr ⟨c, hc, hconsumed, hanswers, rfl⟩)
          exact ⟨v, List.mem_append_left _ hv, hcheck, (hold v hv).symm ▸ hle⟩
        · cases hguarded : b.guarded s.verdicts check with
          | true =>
            obtain ⟨v, hv, hcheck, hle⟩ := hfresh.kept check hanswers hguarded hbefore
            exact ⟨v, List.mem_append_left _ hv, hcheck, (hold v hv).symm ▸ hle⟩
          | false =>
            obtain ⟨v, hv, hcheck⟩ := hrecords.writes (hanswer check hanswers) check hanswers.2 hguarded
            exact ⟨v, List.mem_append_right _ hv, hcheck, (hrow v hv).symm ▸ Nat.le_refl _⟩
      | false =>
        -- The first verdict of the check is a row of the result.
        obtain ⟨v, hv, hcheck⟩ := settled_iff_exists.mp hsettled
        have hv : v ∈ rows := by
          rcases List.mem_append.mp hv with hv | hv
          · rw [settled_iff_exists.mpr ⟨v, hv, hcheck⟩] at hbefore
            contradiction
          · exact hv
        refine ⟨v, List.mem_append_right _ hv, hcheck, (hrow v hv).symm ▸ ?_⟩
        rcases List.mem_or_eq_of_mem_set hc with hc | rfl
        · obtain ⟨-, hfree, hneeds, answer, hanswer, -⟩ := hrecords.rows_from v hv
          rw [hcheck] at hfree hneeds
          exact hfresh.first check ⟨by rw [hresult, hanswer]; rfl, hneeds⟩ hfree hbefore c hc hconsumed hanswers
        · exact Nat.le_refl _
    · rcases List.mem_or_eq_of_mem_set hc with hc | rfl
      · obtain ⟨v, hv, hlt⟩ := hsuperseded c hc houtcome
        exact ⟨v, List.mem_append_left _ hv, (hold v hv).symm ▸ hlt⟩
      · obtain ⟨v, hv, hlt⟩ := hfresh.passed result hresult (hrecords.superseded.mp (Option.some.inj houtcome))
        exact ⟨v, List.mem_append_left _ hv, (hold v hv).symm ▸ hlt⟩

/-- After a step the property holds exactly where the step meets the condition. -/
theorem State.Rests.step_iff (h : s.Rests) (hinv : s.Inv) {a : Act} (hs : Standing.step s a = some s') :
    s'.Rests ↔ Fresh s a := by
  have hinv' := hinv.step a hs
  unfold Standing.step at hs
  cases a with
  -- A batch that is submitted answers nothing yet.
  | submit asked now =>
    dsimp only at hs
    split at hs
    · contradiction
    · obtain rfl := Option.some.inj hs
      refine iff_of_true (h.same hinv hinv' ?_ rfl fun b hb hconsumed => ?_) trivial
      · intro i b hb
        exact ⟨b, (List.getElem?_append_left (List.getElem?_eq_some_iff.mp hb).1).trans hb, rfl, rfl, fun _ => rfl,
          fun _ => rfl⟩
      · rcases List.mem_append.mp hb with hb | hb
        · exact hb
        -- The new batch is not consumed.
        · rw [List.mem_singleton.mp hb] at hconsumed
          contradiction
  -- A result that is collected is not consumed.
  | collect i result =>
    dsimp only at hs
    split at hs
    · next b hb =>
      split at hs
      · obtain rfl := Option.some.inj hs
        exact iff_of_true h trivial
      · next hnone =>
        obtain rfl := Option.some.inj hs
        rw [Option.not_isSome_iff_eq_none] at hnone
        refine iff_of_true (h.same hinv hinv' ?_ rfl fun c hc hconsumed => ?_) trivial
        · exact grows_set hb rfl rfl (fun h => by simp [hnone] at h) fun _ => rfl
        · rcases List.mem_or_eq_of_mem_set hc with hc | rfl
          · exact hc
          -- What is not collected is not consumed.
          · have hcollected := hinv.collected b (List.mem_of_getElem? hb) hconsumed
            rw [hnone] at hcollected
            contradiction
    · contradiction
  -- The one step that can break the property.
  | consume i now board =>
    dsimp only at hs
    split at hs
    · contradiction
    · next hnow =>
      have hnow := Nat.le_of_not_lt hnow
      split at hs
      · next b hb =>
        obtain ⟨result, hresult, rfl⟩ := Option.map_eq_some_iff.mp hs
        have hfresh : Fresh s (.consume i now board) ↔ (b.outcome = none → b.FreshAt s board) := by
          constructor
          · exact fun hfresh => hfresh b hb
          · intro hfresh c hc
            obtain rfl := Option.some.inj (hb.symm.trans hc)
            exact hfresh
        rw [hfresh]
        unfold consume at hinv' ⊢
        split
        · next o houtcome =>
          refine iff_of_true (h.same hinv (hinv.tick hnow) grows_refl rfl fun _ hc _ => hc) fun hnone => ?_
          rw [houtcome] at hnone
          contradiction
        · next hpending =>
          rw [forall_prop_of_true hpending]
          dsimp only
          split
          · next hasked => exact h.record_iff hinv hnow hb hresult hpending (records_reverify hasked board result)
          · next hasked => exact h.record_iff hinv hnow hb hresult hpending (records_result hasked board result)
      · contradiction
  | decide check rejected reason now =>
    dsimp only at hs
    split at hs
    · contradiction
    · next hnow =>
      obtain rfl := Option.some.inj hs
      exact iff_of_true (h.decide hinv (Nat.le_of_not_lt hnow) check rejected reason) trivial

end Property

/-- In every run in which results are passed by for newer evidence only, the verdict that stands on a check comes from
the newest evidence that answered the check, and what is superseded is so for newer evidence; and the first step that
does not meet the condition breaks the property. -/
theorem latest_rests_on_newest {s : State} (h : Run step Fresh State.empty s) :
    s.Rests ∧ ∀ a s', step s a = some s' → (s'.Rests ↔ Fresh s a) := by
  have hstart : State.empty.Rests := by
    constructor
    · intro check v hlatest
      simp only [State.latest, State.empty, List.filter_nil, List.getLast?_nil] at hlatest
      contradiction
    · exact fun _ hb => absurd hb List.not_mem_nil
  have hinv : s.Inv ∧ s.Rests := by
    refine h.invariant (I := fun s => s.Inv ∧ s.Rests) ⟨.empty, hstart⟩ fun s a s' hinv hfresh hs => ?_
    exact ⟨hinv.1.step a hs, (hinv.2.step_iff hinv.1 hs).mpr hfresh⟩
  exact ⟨hinv.2, fun a s' hs => hinv.2.step_iff hinv.1 hs⟩

/-- A posting is read open. While it is read again the job board reports it gone, and an admin says that it needs a
clearance; the second reading is superseded. A third finds it open. -/
def reopened : List Act :=
  [.submit .reverify 1, .collect 0 (.answered ⟨false, "", false, ""⟩), .consume 0 2 false,
    .submit .reverify 3, .decide .closed true "ATS reports posting gone" 4, .decide .clearance true "clearance" 4,
    .collect 1 (.answered ⟨false, "", false, ""⟩), .consume 1 5 false,
    .submit .reverify 6, .collect 2 (.answered ⟨false, "listed again", false, ""⟩), .consume 2 7 false]

/-- In that run the third reading stands. -/
theorem latest_rests_on_newest_reopened :
    ∃ s v, Run step Fresh State.empty s ∧ s.latest .closed = some v ∧ v.reason = "listed again" ∧
      ∀ time, s.Answered .closed time → time ≤ s.evidence v := by
  have hacts : (runList (guarded step Fresh) State.empty reopened).any (fun s =>
      (s.latest .closed).any fun v => v.reason = "listed again") = true := by
    decide +kernel
  obtain ⟨s, hrun, hs⟩ := exists_run_of_any hacts
  rw [Option.any_eq_true] at hs
  obtain ⟨v, hlatest, hreason⟩ := hs
  have hfresh := run_of_guarded hrun
  exact ⟨s, v, hfresh, hlatest, of_decide_eq_true hreason,
    ((latest_rests_on_newest hfresh).1.newest .closed v hlatest).2⟩

/-- A posting is read twice, and says at the second time that it is closed. The first result is consumed first. -/
def olderFirst : List Act :=
  [.submit .reverify 1, .submit .reverify 2, .collect 0 (.answered ⟨false, "open", false, ""⟩),
    .collect 1 (.answered ⟨true, "closed", false, ""⟩), .consume 0 3 false, .consume 1 4 false]

/-- In that run every result is consumed, and the second is superseded though all verdicts rest on the older page. -/
theorem older_page_passes_newer_by :
    ∃ s, Run step Always State.empty s ∧ (∀ b ∈ s.batches, b.outcome.isSome = true) ∧ ¬s.Rests := by
  have hacts : (runList step State.empty olderFirst).any (fun s =>
      (s.batches.all fun b => b.outcome.isSome) && s.batches.any fun b =>
        b.outcome = some .superseded && s.verdicts.all fun v => s.evidence v < b.submitted_at) = true := by
    decide +kernel
  obtain ⟨s, hrun, hs⟩ := exists_run_of_any hacts
  rw [Bool.and_eq_true, List.all_eq_true, List.any_eq_true] at hs
  obtain ⟨hconsumed, b, hb, hpassed⟩ := hs
  rw [Bool.and_eq_true, decide_eq_true_eq, List.all_eq_true] at hpassed
  refine ⟨s, hrun, hconsumed, fun hrests => ?_⟩
  obtain ⟨v, hv, hlt⟩ := hrests.superseded b hb hpassed.1
  exact Nat.lt_asymm hlt (of_decide_eq_true (hpassed.2 v hv))

end JobScripts.Verification.Standing

import JobScripts.Apply.Submissions.Armed

/-!
# Submissions count once

The submission of a form counts once on the table, with one application of its attempt, whatever is lost and retried
(`counted_once`). A submission that is asked for again finds what it recorded (`State.Inv.submit_again`).
-/

namespace JobScripts.Apply.Submissions

open Lib
open Fills (Field ResolvedField)

section Runs

variable {s s' : State} {origin : String → String} {user : ℕ}

/-- A table in which no submission has moved yet, and an extension that has armed none. -/
structure State.Fresh (s : State) : Prop where
  ids : (s.server.rows.map Row.id).Nodup
  application : ∀ r ∈ s.server.rows, r.submitted_at = none → r.application_id = none
  superseded : ∀ r ∈ s.server.rows, r.superseded_by = none
  attempts : ∀ a ∈ s.server.applications, a.attempt = none
  storage : s.storage = none
  waiting : s.waiting = none
  requests : s.requests = []
  responses : ∀ q, s.responses q = none
  writes : s.writes = []

/-- It meets the invariant. -/
theorem State.Fresh.inv (h : s.Fresh) : s.Inv := by
  have hnone : ∀ {A : Sort _} (a : Armed), s.storage = some a → A := by
    intro A a ha
    rw [h.storage] at ha
    contradiction
  have hsent : ∀ {attempt id : ℕ}, ¬ s.Sent attempt id := by
    rintro attempt id ⟨q, fields, hq⟩
    rw [h.requests] at hq
    contradiction
  constructor
  case rows =>
    refine ⟨h.ids, h.application, fun r hr b hb => ?_⟩
    rw [h.superseded r hr] at hb
    contradiction
  case attempts =>
    intro q r hq
    rw [h.requests] at hq
    contradiction
  case storage => exact fun a ha => hnone a ha
  case one_fill => exact fun _ _ _ hs => absurd hs hsent
  case armed => exact fun a ha => hnone a ha
  case waiting =>
    intro q hq
    rw [h.waiting] at hq
    contradiction
  case answered => exact fun q hq => absurd (h.responses q) hq
  case resolved =>
    intro q id hq
    rw [h.responses q] at hq
    contradiction
  case submitted =>
    intro q hq
    rw [h.responses q] at hq
    contradiction
  case recorded => exact fun a ha => hnone a ha
  case writes =>
    intro attempt id hw
    rw [h.writes] at hw
    exact absurd hw List.not_mem_nil
  case once =>
    intro attempt
    rw [h.writes]
    exact Nat.zero_le _
  case applications =>
    intro attempt
    rw [h.writes, List.countP_nil, Nat.le_zero, List.countP_eq_zero]
    intro a ha
    rw [h.attempts a ha]
    nofun

/-- A run keeps the invariant, and the fills go on. -/
theorem State.Inv.runs (h : s.Inv) (hrun : Run (Submissions.step origin user) Always s s') :
    s'.Inv ∧ RowsLater s.server.rows s'.server.rows := by
  refine hrun.invariant (I := fun t => t.Inv ∧ RowsLater s.server.rows t.server.rows) ⟨h, .refl _⟩ ?_
  intro t a t' ht _ hs
  obtain ⟨hinv, hlater⟩ := ht.1.step hs
  exact ⟨hinv, ht.2.trans hlater⟩

/-- A submit whose submission was recorded before changes nothing. -/
theorem State.Inv.submit_again (h : s.Inv) {u : ℕ} {attempt : Option ℕ} {c : Submit}
    (hsent : ∀ a, attempt = some a → s.Sent a c.fill_id) (hsettled : Settled s.server.rows c.fill_id)
    (hs : s.submitted u attempt c = some s') : s' = s := by
  obtain ⟨-, -, -, -, -, -, -, -, hsame⟩ := h.submits hsent hs
  exact hsame hsettled

/-- Each form submission is counted once. A fill that is superseded has no submission, application or fields, and gets
none later; it names an earlier fill of the same person and url, which holds fields. However often an armed submission
is confirmed and retried, it asks for the submission of one fill, records at most once, creates at most one application,
and counts once when it has succeeded. A submit of a fill that was submitted changes nothing. A second repair changes
nothing, and none changes the number of submissions. -/
theorem counted_once {s₀ : State} (h₀ : s₀.Fresh) (hrun : Run (Submissions.step origin user) Always s₀ s) :
    (∀ r ∈ s.server.rows, ∀ b, r.superseded_by = some b →
      (∃ t ∈ s.server.rows, t.id = b ∧ t.id < r.id ∧ t.user_id = r.user_id ∧ t.url = r.url ∧ t.fields ≠ []) ∧
      ∀ s₁, Run (Submissions.step origin user) Always s s₁ → ∃ r₁ ∈ s₁.server.rows, r₁.id = r.id ∧
        r₁.superseded_by = some b ∧ r₁.submitted_at = none ∧ r₁.application_id = none ∧ r₁.fields = []) ∧
    (∀ attempt,
      (∀ id id', s.Sent attempt id → s.Sent attempt id' → id = id') ∧
      (s.writes.countP fun w => w.1 = some attempt) ≤ 1 ∧
      (s.server.applications.countP fun a => a.attempt = some attempt) ≤ 1) ∧
    (∀ q attempt id fields, s.requests[q]? = some (.submitted attempt id fields) → s.responses q = some .submitted →
      CountedOnce s.server.rows id) ∧
    (∀ a, s.storage = some a → a.status = .recorded →
      ∃ id, a.fillId = some id ∧ s.Sent a.attempt id ∧ CountedOnce s.server.rows id) ∧
    (∀ u c s₁, Submissions.step origin user s (.submit u c) = some s₁ →
      ∀ s₂, Run (Submissions.step origin user) Always s₁ s₂ →
        (∀ u' c' s₃, c'.fill_id = c.fill_id → Submissions.step origin user s₂ (.submit u' c') = some s₃ → s₃ = s₂) ∧
        ∀ q attempt fields c' c'' s₃, s₂.requests[q]? = some (.submitted attempt c.fill_id fields) →
          Submissions.step origin user s₂ (.serve q c' c'') = some s₃ → s₃.server = s₂.server) ∧
    repair (repair s.server.rows).1 = ((repair s.server.rows).1, []) ∧
    ∀ listed seen, submissions (repairSeeing listed seen s.server.rows).1 = submissions s.server.rows := by
  obtain ⟨hinv, -⟩ := h₀.inv.runs hrun
  refine ⟨fun r hr b hb => ⟨?_, fun s₁ hrun₁ => ?_⟩, fun attempt => ⟨hinv.one_fill attempt, hinv.once attempt, ?_⟩,
    fun q attempt id fields hq hanswer => ?_, fun a ha hrecorded => ?_, fun u c s₁ hs s₂ hrun₂ => ?_,
    hinv.rows.repair_repair, fun listed seen => (hinv.rows.repairing listed seen).count⟩
  · obtain ⟨-, -, t, ht, htb, hold⟩ := hinv.rows.superseded r hr b hb
    exact ⟨t, ht, htb, hold.earlier, hold.user, hold.url, hold.fields⟩
  · obtain ⟨hinv₁, hlater⟩ := hinv.runs hrun₁
    obtain ⟨r₁, hr₁, hr₁'⟩ := hlater r hr
    have hb₁ := hr₁'.superseded b hb
    obtain ⟨hnone, hfields, -⟩ := hinv₁.rows.superseded r₁ hr₁ b hb₁
    exact ⟨r₁, hr₁, hr₁'.id, hb₁, hnone, hinv₁.rows.application r₁ hr₁ hnone, hfields⟩
  · exact (hinv.applications attempt).trans (hinv.once attempt)
  · obtain ⟨r, id', hr, hid, hsettled⟩ := hinv.submitted q hanswer
    obtain rfl := Option.some.inj (hq.symm.trans hr)
    obtain rfl := Option.some.inj hid
    exact hinv.rows.countedOnce hsettled
  · obtain ⟨id, hid, hsent, hsettled⟩ := hinv.recorded a ha hrecorded
    exact ⟨id, hid, hsent, hinv.rows.countedOnce hsettled⟩
  · obtain ⟨hinv₁, -, hsettled₁, -⟩ := hinv.submits (fun a ha => absurd (ha : none = some a) nofun) hs
    obtain ⟨hinv₂, hlater₂⟩ := hinv₁.runs hrun₂
    have hsettled₂ := hsettled₁.later hlater₂
    constructor
    · intro u' c' s₃ hid hs₃
      exact hinv₂.submit_again (fun a ha => absurd (ha : none = some a) nofun) (hid ▸ hsettled₂) hs₃
    · intro q attempt fields c' c'' s₃ hq hs₃
      dsimp only [Submissions.step] at hs₃
      split at hs₃
      · contradiction
      rw [hq] at hs₃
      obtain ⟨s', hsub, rfl⟩ := Option.map_eq_some_iff.mp hs₃
      have hsent : ∀ a, some attempt = some a → s₂.Sent a c.fill_id := by
        intro a ha
        obtain rfl := Option.some.inj ha
        exact ⟨q, fields, hq⟩
      obtain rfl := hinv₂.submit_again (c := { c'' with fill_id := c.fill_id, finals := finalsOf fields }) hsent hsettled₂ hsub
      rfl

end Runs

/-- A field of a form. -/
def nameField : Field where
  key := "name"
  label := ""
  kind := "text"
  required := true
  options := []
  fact := none
  rung := "none"
  value := some "A"
  hint := none

/-- A person has filled a form, and not submitted it. -/
def filledForm : State where
  server := ⟨[⟨⟨"form", none, [nameField], none, none⟩, 1, 7, none⟩], []⟩
  storage := none
  waiting := none
  requests := []
  responses _ := none
  attempts := 0
  writes := []

/-- The extension has lost track of the fill. It confirms a submission, loses the answer of the first request, opens a
second fill, loses the answer of the submit and retries it. -/
def confirms : List Act :=
  let page (action : Action) (fillId : Option ℕ) : Act := .message ⟨action, "", fillId, "form", "", []⟩ 0
  let found (id : ℕ) : Resolve := { url := "form", job_id := none, fields := [], new_id := id }
  let submits : Submit := { fill_id := 0, new_id := 40, finals := fun _ => none }
  [page .arm none, page .confirm none, .serve 0 (found 2) submits, .lose, page .retry none, .serve 1 (found 3) submits,
    .deliver, .serve 2 (found 0) submits, .crash, page .retry (some 3), .serve 3 (found 0) submits, .deliver]

/-- No submission has moved on it. -/
theorem filledForm_fresh : filledForm.Fresh := by
  have hrow : ∀ r ∈ filledForm.server.rows, r.superseded_by = none ∧ r.application_id = none := by
    intro r hr
    rw [List.mem_singleton.mp hr]
    exact ⟨rfl, rfl⟩
  exact ⟨List.nodup_singleton _, fun r hr _ => (hrow r hr).2, fun r hr => (hrow r hr).1,
    fun a ha => absurd ha List.not_mem_nil, rfl, rfl, rfl, fun _ => rfl, rfl⟩

/-- The submission of the third fill counts once, on the first one. -/
theorem counted_once_confirms : ∃ s, Run (step (fun _ => "") 7) Always filledForm s ∧
    CountedOnce s.server.rows 3 ∧ submissions s.server.rows = 1 ∧ s.server.applications.length = 1 ∧
    (s.server.applications.countP fun a => a.attempt = some 0) ≤ 1 := by
  have hacts : (runList (step (fun _ => "") 7) filledForm confirms).any (fun s =>
      s.storage.any (fun a => a.status = .recorded && a.fillId = some 3) && submissions s.server.rows = 1 &&
        s.server.applications.length = 1) = true := by
    decide +kernel
  obtain ⟨s, hrun, hs⟩ := exists_run_of_any hacts
  rw [Bool.and_eq_true, Bool.and_eq_true, decide_eq_true_eq, decide_eq_true_eq, Option.any_eq_true] at hs
  obtain ⟨⟨⟨a, ha, hrecorded⟩, hsubmissions⟩, happlications⟩ := hs
  rw [Bool.and_eq_true, decide_eq_true_eq, decide_eq_true_eq] at hrecorded
  obtain ⟨-, hattempts, -, hcounted, -⟩ := counted_once filledForm_fresh hrun
  obtain ⟨id, hid, -, hcounts⟩ := hcounted a ha hrecorded.1
  obtain rfl := Option.some.inj (hrecorded.2.symm.trans hid)
  exact ⟨s, hrun, hcounts, hsubmissions, happlications, (hattempts 0).2.2⟩

end JobScripts.Apply.Submissions

import JobScripts.Lib.Run
import Mathlib.Data.List.MinMax

/-!
# The match of a message and who wrote it

`application_matches` is append-only: the newest row of a message, the one with the greatest id, is
its current match. The same row is named by `email_messages.current_match_id`, which every append
moves with `GREATEST`. Ids come from a sequence when the row is inserted, and the row becomes
visible when its transaction commits, in any order.

`record` appends for the matcher and for people. The matcher reads `latest` first and stands down
when a person wrote it, but the read and the append are two statements. `matcher_stands_down`
proves that the matcher never overturns a person in a run whose matcher appends are clear: no row of
a person for the message has been inserted yet. `person_overturned_between_check_and_append` is a
run with an append that is not.
-/

namespace JobScripts.Mail

open Lib

/-! ## Decisions -/

/-- The methods of a decision that attaches no application. -/
def nullMethods : List String := ["unmatched", "not_an_application", "detached", "manual"]

/-- The methods that a decision attaching an application may not have. -/
def attachedForbiddenMethods : List String := ["unmatched", "not_an_application", "detached"]

/-- The recorded outcome of matching one message, with the check of `__post_init__`. -/
structure MatchDecision where
  application_id : Option ℕ
  method : String
  confidence : String
  rationale : String
  null_method : application_id = none → method ∈ nullMethods
  attached_method : application_id ≠ none → method ∉ attachedForbiddenMethods
  deriving DecidableEq

/-- The matcher's miss. -/
def MatchDecision.unmatched (rationale : String) : MatchDecision where
  application_id := none
  method := "unmatched"
  confidence := "none"
  rationale := rationale
  null_method := by simp [nullMethods]
  attached_method := by simp

/-- A person's detach. -/
def MatchDecision.detached (rationale : String) : MatchDecision where
  application_id := none
  method := "detached"
  confidence := "none"
  rationale := rationale
  null_method := by simp [nullMethods]
  attached_method := by simp

/-- A repeated machine outcome ignores the rationale, which is only prose. -/
def MatchDecision.repeats (d : MatchDecision) (application_id : Option ℕ) (method : String)
    (confidence : Option String) : Bool :=
  d.application_id = application_id && d.method = method && some d.confidence = confidence

/-- A row of `application_matches`. A null `actor_user_id` means the matcher wrote it. -/
structure CurrentMatch where
  id : ℕ
  message_id : ℕ
  application_id : Option ℕ
  method : String
  confidence : Option String
  rationale : Option String
  actor_user_id : Option ℕ
  deriving DecidableEq

/-- The row that `record` inserts. -/
def MatchDecision.row (d : MatchDecision) (id message_id : ℕ) (actor_user_id : Option ℕ) :
    CurrentMatch :=
  { id, message_id, application_id := d.application_id, method := d.method,
    confidence := some d.confidence, rationale := some d.rationale, actor_user_id }

/-- PostgreSQL's `GREATEST` of a nullable pointer and an id: a null is passed over. -/
def greatest : Option ℕ → ℕ → ℕ
  | none, id => id
  | some p, id => max p id

/-! ## The log -/

/-- The log of matches, its writers, and the pointers of the messages. -/
structure MatchLog where
  /-- The next id of the sequence. -/
  sequence : ℕ
  /-- The visible rows. -/
  committed : List CurrentMatch
  /-- The rows inserted by transactions that have not ended. -/
  inFlight : List CurrentMatch
  /-- The matcher's calls of `record` that passed the check and have not inserted yet. -/
  passed : List (ℕ × MatchDecision)
  /-- `email_messages.current_match_id`: the match that a message points at. -/
  current_match_id : ℕ → Option ℕ

/-- No match recorded yet. -/
def MatchLog.empty : MatchLog := ⟨1, [], [], [], fun _ => none⟩

/-- Every row inserted and not rolled back. -/
def MatchLog.rows (s : MatchLog) : List CurrentMatch := s.committed ++ s.inFlight

/-- The current match of a message: its visible row with the greatest id. -/
def MatchLog.latest (s : MatchLog) (message_id : ℕ) : Option CurrentMatch :=
  (s.committed.filter fun r => r.message_id = message_id).argmax (·.id)

/-- The current match by the pointer: the visible row that `current_match_id` names. -/
def MatchLog.currentMatch (s : MatchLog) (message_id : ℕ) : Option CurrentMatch :=
  (s.current_match_id message_id).bind fun id => s.committed.find? fun r => r.id = id

/-- The matcher's check in `record`: it goes on to append unless a person wrote the current match or
the decision repeats it. -/
def MatchDecision.goesOn (d : MatchDecision) : Option CurrentMatch → Bool
  | none => true
  | some current =>
    current.actor_user_id.isNone &&
      !d.repeats current.application_id current.method current.confidence

/-- The insert: the row draws its id, and is not visible yet. -/
def MatchLog.insert (s : MatchLog) (message_id : ℕ) (d : MatchDecision)
    (actor_user_id : Option ℕ) : MatchLog :=
  { s with
    sequence := s.sequence + 1
    inFlight := d.row s.sequence message_id actor_user_id :: s.inFlight }

/-- What can happen next. -/
inductive MatchAct
  /-- A matcher sweep calls `record` for a message: it reads `latest` and decides. -/
  | check (message_id : ℕ) (d : MatchDecision)
  /-- A matcher sweep that passed the check appends. -/
  | append (passed : ℕ × MatchDecision)
  /-- A person calls `record`, which appends at once. -/
  | decide (message_id : ℕ) (d : MatchDecision) (actor_user_id : ℕ)
  /-- The transaction of an inserted row commits, and with it the move of the pointer. -/
  | commit (row : CurrentMatch)
  /-- The transaction of an inserted row is rolled back, or its worker dies. -/
  | rollback (row : CurrentMatch)

/-- One step. -/
def MatchLog.step (s : MatchLog) : MatchAct → Option MatchLog
  | .check message_id d =>
    some (if d.goesOn (s.latest message_id) then { s with passed := (message_id, d) :: s.passed }
      else s)
  | .append p =>
    if p ∈ s.passed then
      some { s.insert p.1 p.2 none with passed := s.passed.erase p }
    else none
  | .decide message_id d actor_user_id => some (s.insert message_id d (some actor_user_id))
  | .commit row =>
    if row ∈ s.inFlight then
      some { s with
        committed := row :: s.committed
        inFlight := s.inFlight.erase row
        current_match_id := Function.update s.current_match_id row.message_id
          (some (greatest (s.current_match_id row.message_id) row.id)) }
    else none
  | .rollback row =>
    if row ∈ s.inFlight then some { s with inFlight := s.inFlight.erase row } else none

/-! ## The invariant -/

/-- The condition on a step: the matcher appends for a message only while no person has inserted a
row for it, visible or in flight. -/
def MatchLog.Clear (s : MatchLog) : MatchAct → Prop
  | .append p => ∀ r ∈ s.rows, r.message_id = p.1 → r.actor_user_id = none
  | _ => True

/-- The invariant of a clear run: ids are fresh and distinct, a person's row is newer than every row
of the matcher for the same message, and the pointer of a message names its newest visible row. -/
structure MatchLog.Ordered (s : MatchLog) : Prop where
  fresh : ∀ r ∈ s.rows, r.id < s.sequence
  distinct : ∀ r ∈ s.rows, ∀ r' ∈ s.rows, r.id = r'.id → r = r'
  newer : ∀ r ∈ s.rows, ∀ p ∈ s.rows, r.message_id = p.message_id →
    r.actor_user_id = none → p.actor_user_id ≠ none → r.id < p.id
  pointer : ∀ m, s.current_match_id m = (s.latest m).map (·.id)

/-- A row that is inserted or was there. -/
theorem MatchLog.mem_rows_insert {s : MatchLog} {m : ℕ} {d : MatchDecision} {u : Option ℕ}
    {r : CurrentMatch} : r ∈ (s.insert m d u).rows ↔ r = d.row s.sequence m u ∨ r ∈ s.rows := by
  simp only [rows, insert, List.mem_append, List.mem_cons]
  tauto

/-- An insert keeps the invariant when a row of the matcher finds no row of a person before it. -/
theorem MatchLog.Ordered.insert {s : MatchLog} (h : s.Ordered) {m : ℕ} {d : MatchDecision}
    {u : Option ℕ}
    (hu : u = none → ∀ r ∈ s.rows, r.message_id = m → r.actor_user_id = none) :
    (s.insert m d u).Ordered := by
  have hlt := h.fresh
  refine ⟨fun r hr => ?_, fun r hr r' hr' heq => ?_, fun r hr p hp hm hnone hsome => ?_, h.pointer⟩
  · rcases mem_rows_insert.mp hr with rfl | hr
    · exact Nat.lt_succ_self _
    · exact Nat.lt_succ_of_lt (hlt r hr)
  · rcases mem_rows_insert.mp hr with rfl | hr <;> rcases mem_rows_insert.mp hr' with rfl | hr'
    · rfl
    · exact absurd heq (Nat.ne_of_gt (hlt r' hr'))
    · exact absurd heq (Nat.ne_of_lt (hlt r hr))
    · exact h.distinct r hr r' hr' heq
  · rcases mem_rows_insert.mp hr with rfl | hr <;> rcases mem_rows_insert.mp hp with rfl | hp
    · exact absurd hnone hsome
    · -- The matcher inserts after a person: excluded.
      exact absurd (hu hnone p hp hm.symm) hsome
    · exact hlt r hr
    · exact h.newer r hr p hp hm hnone hsome

/-- The invariant reads the set of rows only, so rows may be dropped and the check's list may
change. -/
theorem MatchLog.Ordered.of_rows {s s' : MatchLog} (h : s.Ordered) (hseq : s'.sequence = s.sequence)
    (hrows : ∀ r ∈ s'.rows, r ∈ s.rows)
    (hptr : ∀ m, s'.current_match_id m = (s'.latest m).map (·.id)) : s'.Ordered :=
  ⟨fun r hr => hseq ▸ h.fresh r (hrows r hr),
    fun r hr r' hr' => h.distinct r (hrows r hr) r' (hrows r' hr'),
    fun r hr p hp => h.newer r (hrows r hr) p (hrows p hp), hptr⟩

/-- The newest of a row and the rows before it. -/
theorem argmax_cons_map_id (r : CurrentMatch) (l : List CurrentMatch) :
    ((r :: l).argmax (·.id)).map (·.id) =
      some (greatest ((l.argmax (·.id)).map (·.id)) r.id) := by
  rw [List.argmax_cons]
  cases hl : l.argmax (·.id) with
  | none => rfl
  | some c =>
    simp only [Option.map_some, greatest]
    by_cases hlt : r.id < c.id
    · rw [if_pos hlt, Option.map_some, max_eq_left hlt.le]
    · rw [if_neg hlt, Option.map_some, max_eq_right (Nat.le_of_not_lt hlt)]

/-- A commit moves the pointer to the newest visible row. -/
theorem MatchLog.pointer_commit {s : MatchLog} (h : s.Ordered) (row : CurrentMatch) (m : ℕ) :
    Function.update s.current_match_id row.message_id
        (some (greatest (s.current_match_id row.message_id) row.id)) m =
      (((row :: s.committed).filter fun r => r.message_id = m).argmax (·.id)).map (·.id) := by
  by_cases hm : m = row.message_id
  · subst hm
    rw [Function.update_self, h.pointer, List.filter_cons_of_pos (by simp), argmax_cons_map_id]
    rfl
  · rw [Function.update_of_ne hm, h.pointer, List.filter_cons_of_neg (by simpa using Ne.symm hm)]
    rfl

/-- One clear step keeps the invariant. -/
theorem MatchLog.ordered_step (s : MatchLog) (a : MatchAct) (s' : MatchLog) (h : s.Ordered)
    (ha : s.Clear a) (hs : s.step a = some s') : s'.Ordered := by
  cases a with
  | check m d =>
    simp only [step, Option.some.injEq] at hs
    subst hs
    split
    · exact h.of_rows rfl (fun _ hr => hr) h.pointer
    · exact h
  | append p =>
    simp only [step, Option.ite_none_right_eq_some, Option.some.injEq] at hs
    obtain ⟨-, rfl⟩ := hs
    have hins := h.insert (d := p.2) (u := none) fun _ => ha
    exact hins.of_rows rfl (fun _ hr => hr) hins.pointer
  | decide m d u =>
    simp only [step, Option.some.injEq] at hs
    subst hs
    exact h.insert fun hu => by simp at hu
  | commit row =>
    simp only [step, Option.ite_none_right_eq_some, Option.some.injEq] at hs
    obtain ⟨hmem, rfl⟩ := hs
    refine h.of_rows rfl (fun r hr => ?_) (pointer_commit h row)
    simp only [rows, List.cons_append, List.mem_cons, List.mem_append] at hr ⊢
    rcases hr with rfl | hr | hr
    · exact .inr hmem
    · exact .inl hr
    · exact .inr (List.mem_of_mem_erase hr)
  | rollback row =>
    simp only [step, Option.ite_none_right_eq_some, Option.some.injEq] at hs
    obtain ⟨-, rfl⟩ := hs
    refine h.of_rows rfl (fun r hr => ?_) h.pointer
    simp only [rows, List.mem_append] at hr ⊢
    exact hr.imp_right List.mem_of_mem_erase

/-- Every state of a clear run is ordered. -/
theorem MatchLog.ordered_of_run {s : MatchLog} (h : Run step Clear .empty s) : s.Ordered :=
  h.invariant (by constructor <;> simp [empty, rows, latest]) ordered_step

/-- The pointer and `latest` name the same row. -/
theorem MatchLog.Ordered.currentMatch_eq_latest {s : MatchLog} (h : s.Ordered) {m : ℕ}
    {r : CurrentMatch} (hr : s.latest m = some r) : s.currentMatch m = some r := by
  have hmem : r ∈ s.committed := List.mem_of_mem_filter (List.argmax_mem hr)
  rw [currentMatch, h.pointer, hr, Option.map_some, Option.bind_some]
  cases hfind : s.committed.find? fun r' => r'.id = r.id with
  | none => simpa using List.find?_eq_none.mp hfind r hmem
  | some r' =>
    have hid : r'.id = r.id := by simpa using List.find?_some hfind
    have hmem' : r' ∈ s.committed := List.mem_of_find?_eq_some hfind
    rw [h.distinct r' (List.mem_append_left _ hmem') r (List.mem_append_left _ hmem) hid]

/-- The matcher never overturns a person, in a clear run: once a person's row for a message is
visible, the row `latest` returns is a person's, and `current_match_id` names that row. -/
theorem matcher_stands_down {s : MatchLog} (h : Run MatchLog.step MatchLog.Clear .empty s)
    (message_id : ℕ) (p : CurrentMatch) (hp : p ∈ s.committed) (hm : p.message_id = message_id)
    (hactor : p.actor_user_id ≠ none) :
    ∃ r, s.latest message_id = some r ∧ s.currentMatch message_id = some r ∧
      r.actor_user_id ≠ none := by
  have hord := MatchLog.ordered_of_run h
  have hpm : p ∈ s.committed.filter fun r => r.message_id = message_id := by
    simpa [hm] using hp
  cases hr : s.latest message_id with
  | none => simp [List.argmax_eq_none.mp hr] at hpm
  | some r =>
    refine ⟨r, rfl, hord.currentMatch_eq_latest hr, fun hnone => ?_⟩
    obtain ⟨hrmem, hrm⟩ : r ∈ s.committed ∧ r.message_id = message_id := by
      simpa using List.argmax_mem hr
    have hle : p.id ≤ r.id := List.le_of_mem_argmax hpm hr
    have hlt := hord.newer r (List.mem_append_left _ hrmem) p (List.mem_append_left _ hp)
      (hrm.trans hm.symm) hnone hactor
    omega

/-- A sweep checks a message that has no match yet, and a person attaches it before the sweep
appends its miss. -/
def overturnedRun : List MatchAct :=
  let manual : MatchDecision :=
    ⟨some 2507, "manual", "high", "resolved by hand", by simp, by simp [attachedForbiddenMethods]⟩
  let miss := MatchDecision.unmatched "no candidate matched"
  [.check 126111 miss, .decide 126111 manual 7, .commit (manual.row 1 126111 (some 7)),
    .append (126111, miss), .commit (miss.row 2 126111 none)]

/-- Without the condition the claim fails: after `overturnedRun` a person's row is visible and the
current match is the matcher's. -/
theorem person_overturned_between_check_and_append :
    ¬ ∀ s, Run MatchLog.step Always .empty s → ∀ p ∈ s.committed, p.actor_user_id ≠ none →
      ∃ r, s.latest p.message_id = some r ∧ s.currentMatch p.message_id = some r ∧
        r.actor_user_id ≠ none := by
  intro hall
  have hrun : runList MatchLog.step .empty overturnedRun =
      some ((runList MatchLog.step .empty overturnedRun).get (by decide)) := by simp
  have hp : (⟨1, 126111, some 2507, "manual", some "high", some "resolved by hand", some 7⟩ :
      CurrentMatch) ∈ ((runList MatchLog.step .empty overturnedRun).get (by decide)).committed := by
    decide
  obtain ⟨r, hr, -, hactor⟩ := hall _ (run_of_runList hrun) _ hp (by decide)
  obtain rfl : r = ⟨2, 126111, none, "unmatched", some "none", some "no candidate matched", none⟩ :=
    Option.some.inj (hr.symm.trans (by decide))
  exact hactor rfl

/-- A clear run: the matcher's miss is in flight when a person attaches the message, and becomes
visible after the person's row. The person's stands. -/
theorem matcher_stands_down_late_commit :
    ∃ s r, Run MatchLog.step MatchLog.Clear .empty s ∧ s.committed.length = 2 ∧
      s.latest 126111 = some r ∧ s.currentMatch 126111 = some r ∧ r.actor_user_id ≠ none := by
  let miss := MatchDecision.unmatched "no candidate matched"
  let gone := MatchDecision.detached "rejected by a person"
  have h₁ : Run MatchLog.step MatchLog.Clear .empty _ :=
    .next (.check 126111 miss) .start trivial rfl
  have h₂ := h₁.next (MatchAct.append (126111, miss))
    (by simp [MatchLog.Clear, MatchLog.rows, MatchLog.empty, MatchDecision.goesOn, MatchLog.latest])
    rfl
  have h₃ := h₂.next (MatchAct.decide 126111 gone 7) trivial rfl
  have h₄ := h₃.next (MatchAct.commit (gone.row 2 126111 (some 7))) trivial rfl
  have h₅ := h₄.next (MatchAct.commit (miss.row 1 126111 none)) trivial rfl
  obtain ⟨r, hr⟩ := matcher_stands_down h₅ 126111 (gone.row 2 126111 (some 7)) (by decide) rfl
    (by decide)
  exact ⟨_, r, h₅, by decide, hr⟩

end JobScripts.Mail

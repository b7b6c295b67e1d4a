import JobScripts.Lib.Versions
import JobScripts.Ledger.Read

/-!
# Writers and the triggers that log dirty hours

A transaction that writes the source tables keeps its row versions and, through the statement-level
triggers of the migration, the rows it adds to `ledger_dirty_hours`. The triggers log the hours of the
rows written and replaced and, for an update or a delete, the hours of the answers naming the same
calls, as the transaction sees them when the statement ends. The insert trigger of `ai_queries` logs
the new rows' own hours and nothing else, and `model_calls` has no insert trigger.

`WriterOk` says what the log of a transaction in flight covers: the hours of all it has written over
and, for the calls its triggers have looked up (`watched`), the hours of every committed answer naming
one. `Covered` is what the insert triggers leave open. Together they make a commit safe: an hour that it
does not log sums to the same after it (`ledgerTally_commit`).
-/

namespace JobScripts.Ledger

open Lib

/-- A statement of a transaction, on one of the source tables. -/
inductive Statement
  | answers (ch : Change Answer)
  | calls (ch : Change Call)
  | fetches (ch : Change Fetch)

/-- A transaction in flight: its row versions, the rows of `ledger_dirty_hours` that its triggers
added, and (known to the proofs only) the calls whose answers its triggers have looked up. -/
structure Writer where
  answers : Versions Answer := {}
  calls : Versions Call := {}
  fetches : Versions Fetch := {}
  dirty : List (ℕ × ℤ) := []
  watched : List ℕ := []

/-- What the transaction reads. -/
def Writer.view (w : Writer) (D : Tables) : Tables where
  ai_queries := w.answers.view Answer.id D.ai_queries
  model_calls := w.calls.view Call.id D.model_calls
  page_fetches := w.fetches.view Fetch.id D.page_fetches

/-- The hours that the transaction has logged. -/
def Writer.logged (w : Writer) : List ℤ := w.dirty.map Prod.snd

/-! ## The triggers -/

/-- `SELECT DISTINCT` the hours of some answers. -/
def answerHours (rows : List Answer) : List ℤ := (rows.map fun q => hourOf q.created_at).dedup

/-- `SELECT DISTINCT` the hours of some fetches. -/
def fetchHours (rows : List Fetch) : List ℤ := (rows.map fun f => hourOf f.created_at).dedup

/-- The calls that some answers name. -/
def callsNamed (rows : List Answer) : List ℕ := rows.filterMap Answer.model_call_id

/-- The hours of the answers naming one of some calls. -/
def siblingHours (D : Tables) (calls : List ℕ) : List ℤ :=
  answerHours (D.ai_queries.filter fun o => o.model_call_id.any fun c => decide (c ∈ calls))

/-- `ledger_dirty_answers()`: the hours logged after a statement on `ai_queries`, from its transition
tables and what the transaction then sees. -/
def ledgerDirtyAnswers (ch : Change Answer) (old : List Answer) (D : Tables) : List ℤ :=
  match ch with
  | .insert new => answerHours new
  | .update new =>
    answerHours new ++ answerHours old ++ siblingHours D (callsNamed old) ++
      siblingHours D (callsNamed new)
  | .delete _ => answerHours old ++ siblingHours D (callsNamed old)

/-- `ledger_dirty_calls()`, which an update or a delete of `model_calls` runs and an insert does
not. -/
def ledgerDirtyCalls (ch : Change Call) (old : List Call) (D : Tables) : List ℤ :=
  match ch with
  | .insert _ => []
  | .update _ => siblingHours D (old.map Call.id)
  | .delete _ => siblingHours D (old.map Call.id)

/-- `ledger_dirty_fetches()`: the hours that a change of fetches makes dirty. -/
def ledgerDirtyFetches (ch : Change Fetch) (old : List Fetch) : List ℤ :=
  match ch with
  | .insert new => fetchHours new
  | .update new => fetchHours new ++ fetchHours old
  | .delete _ => fetchHours old

/-- The calls whose answers the trigger of a statement on `ai_queries` looks up. -/
def watchedAnswers (ch : Change Answer) (old : List Answer) : List ℕ :=
  match ch with
  | .insert _ => []
  | .update new => callsNamed old ++ callsNamed new
  | .delete _ => callsNamed old

/-- The row versions after a statement. -/
def Writer.write (w : Writer) : Statement → Writer
  | .answers ch => { w with answers := w.answers.write Answer.id ch }
  | .calls ch => { w with calls := w.calls.write Call.id ch }
  | .fetches ch => { w with fetches := w.fetches.write Fetch.id ch }

/-- The hours that the triggers of a statement log, over the committed tables as they then are. -/
def Writer.logs (w : Writer) (D : Tables) (st : Statement) : List ℤ :=
  match st with
  | .answers ch =>
    ledgerDirtyAnswers ch (ch.old Answer.id (w.view D).ai_queries) ((w.write st).view D)
  | .calls ch => ledgerDirtyCalls ch (ch.old Call.id (w.view D).model_calls) ((w.write st).view D)
  | .fetches ch => ledgerDirtyFetches ch (ch.old Fetch.id (w.view D).page_fetches)

/-- The calls whose answers the triggers of a statement look up. -/
def Writer.watches (w : Writer) (D : Tables) : Statement → List ℕ
  | .answers ch => watchedAnswers ch (ch.old Answer.id (w.view D).ai_queries)
  | .calls ch => (ch.old Call.id (w.view D).model_calls).map Call.id
  | .fetches _ => []

/-- Rows of `ledger_dirty_hours` with ids drawn from its sequence. -/
def numbered (seq : ℕ) (hours : List ℤ) : List (ℕ × ℤ) := (hours.zipIdx seq).map Prod.swap

/-- A statement with its triggers. -/
def Writer.execute (w : Writer) (D : Tables) (seq : ℕ) (st : Statement) : Writer :=
  { w.write st with
    dirty := w.dirty ++ numbered seq (w.logs D st)
    watched := w.watched ++ w.watches D st }

/-- A statement can run: its rows are there, the ids of new rows are new, and no other transaction
holds one of them. -/
def Admitted (w : Writer) (D : Tables) (others : List Writer) : Statement → Prop
  | .answers ch => ch.Admitted Answer.id D.ai_queries w.answers (w.view D).ai_queries
      (others.flatMap fun v => v.answers.touched Answer.id)
  | .calls ch => ch.Admitted Call.id D.model_calls w.calls (w.view D).model_calls
      (others.flatMap fun v => v.calls.touched Call.id)
  | .fetches ch => ch.Admitted Fetch.id D.page_fetches w.fetches (w.view D).page_fetches
      (others.flatMap fun v => v.fetches.touched Fetch.id)

/-- Whether a statement can run is decidable. -/
instance (w : Writer) (D : Tables) (others : List Writer) (st : Statement) :
    Decidable (Admitted w D others st) :=
  match st with
  | .answers ch => inferInstanceAs (Decidable (ch.Admitted ..))
  | .calls ch => inferInstanceAs (Decidable (ch.Admitted ..))
  | .fetches ch => inferInstanceAs (Decidable (ch.Admitted ..))

/-! ## What a transaction's log covers -/

/-- The hour of every row that the transaction has written over or written is logged, and so is the
hour of every committed answer naming a call that its triggers have looked up. Those calls are the ones
named by the answers it has written over, before and after, and the ones it has written over. -/
structure WriterOk (D : Tables) (w : Writer) : Prop where
  hidden_answer : ∀ q ∈ D.ai_queries, q.id ∈ w.answers.hidden → hourOf q.created_at ∈ w.logged
  hidden_call : ∀ q ∈ D.ai_queries, q.id ∈ w.answers.hidden →
    ∀ c ∈ q.model_call_id, c ∈ w.watched
  added_answer : ∀ q ∈ w.answers.added, hourOf q.created_at ∈ w.logged
  added_call : ∀ q ∈ w.answers.added, q.id ∈ w.answers.hidden → ∀ c ∈ q.model_call_id, c ∈ w.watched
  hidden_fetch : ∀ f ∈ D.page_fetches, f.id ∈ w.fetches.hidden → hourOf f.created_at ∈ w.logged
  added_fetch : ∀ f ∈ w.fetches.added, hourOf f.created_at ∈ w.logged
  call : ∀ c ∈ w.calls.hidden, c ∈ w.watched
  sibling : ∀ q ∈ D.ai_queries, ∀ c ∈ q.model_call_id, c ∈ w.watched → hourOf q.created_at ∈ w.logged

/-- What the insert triggers leave open. An answer that the transaction inserts under a lower id than
the first committed answer of its call takes the call's usage from it, so the hour of that answer must be
logged for another reason, and so must the hours of the answers that name a call it inserts. -/
def Covered (D : Tables) (w : Writer) : Prop :=
  (∀ n ∈ w.answers.added, n.id ∉ w.answers.hidden → ∀ c ∈ n.model_call_id,
    ∀ f ∈ D.ai_queries, f.model_call_id = some c → firstId D c = some f.id → n.id < f.id →
      hourOf f.created_at ∈ w.logged) ∧
  ∀ m ∈ w.calls.added, m.id ∉ w.calls.hidden → ∀ q ∈ D.ai_queries,
    q.model_call_id = some m.id → hourOf q.created_at ∈ w.logged

instance (D : Tables) (w : Writer) : Decidable (Covered D w) :=
  inferInstanceAs (Decidable (_ ∧ _))

/-- An answer is the first of its call when no answer naming the call has a lower id. -/
theorem firstId_eq_iff {D : Tables} {q : Answer} {c : ℕ} (hq : q ∈ D.ai_queries)
    (hc : q.model_call_id = some c) :
    some q.id = firstId D c ↔ ∀ o ∈ D.ai_queries, o.model_call_id = some c → q.id ≤ o.id := by
  unfold firstId
  rw [eq_comm, List.min?_eq_some_iff]
  simp only [List.mem_map, List.mem_filter, decide_eq_true_eq]
  constructor
  · intro h o ho hoc
    exact h.2 o.id ⟨o, ⟨ho, hoc⟩, rfl⟩
  · intro h
    refine ⟨⟨q, ⟨hq, hc⟩, rfl⟩, ?_⟩
    rintro _ ⟨o, ⟨ho, hoc⟩, rfl⟩
    exact h o ho hoc

section Commit

variable {D : Tables} {w : Writer}

/-- An answer whose hour is not logged names no call that the triggers have looked up. -/
theorem WriterOk.not_watched (hw : WriterOk D w) {q : Answer} (hq : q ∈ D.ai_queries)
    (hlog : hourOf q.created_at ∉ w.logged) {c : ℕ} (hc : q.model_call_id = some c) :
    c ∉ w.watched :=
  fun hwatch => hlog (hw.sibling q hq c hc hwatch)

/-- An answer whose hour is not logged keeps its place among the answers of its call. -/
theorem first_commit (hw : WriterOk D w) (hcov : Covered D w) {q : Answer}
    (hq : q ∈ D.ai_queries) (hlog : hourOf q.created_at ∉ w.logged) {c : ℕ}
    (hc : q.model_call_id = some c) :
    some q.id = firstId (w.view D) c ↔ some q.id = firstId D c := by
  have hnw := hw.not_watched hq hlog hc
  have hview : q ∈ (w.view D).ai_queries :=
    Versions.mem_view.2 (.inl ⟨hq, fun hh => hlog (hw.hidden_answer q hq hh)⟩)
  rw [firstId_eq_iff hview hc, firstId_eq_iff hq hc]
  constructor
  · -- The committed answers of the call are all still there: none of them is hidden.
    intro h o ho hoc
    refine h o (Versions.mem_view.2 (.inl ⟨ho, fun hh => ?_⟩)) hoc
    exact hnw (hw.hidden_call o ho hh c hoc)
  · -- An answer that the transaction added under a lower id would be an insert ahead of `q`.
    intro h o ho hoc
    rcases Versions.mem_view.1 ho with ⟨ho, -⟩ | ho
    · exact h o ho hoc
    · by_contra hlt
      have hins : o.id ∉ w.answers.hidden := fun hh => hnw (hw.added_call o ho hh c hoc)
      have hfirst : firstId D c = some q.id := ((firstId_eq_iff hq hc).2 h).symm
      exact hlog (hcov.1 o ho hins c hoc q hq hc hfirst (not_le.1 hlt))

/-- An answer whose hour is not logged keeps the row of its call. -/
theorem callOf_commit (hw : WriterOk D w) (hcov : Covered D w) {q : Answer}
    (hq : q ∈ D.ai_queries) (hlog : hourOf q.created_at ∉ w.logged) :
    callOf (w.view D) q = callOf D q := by
  unfold callOf
  cases hc : q.model_call_id with
  | none => rfl
  | some c =>
    have hnw := hw.not_watched hq hlog hc
    have hnh : c ∉ w.calls.hidden := fun hh => hnw (hw.call c hh)
    have hadd : w.calls.added.find? (fun m => decide (m.id = c)) = none := by
      rw [List.find?_eq_none]
      intro m hm
      rw [decide_eq_true_eq]
      rintro rfl
      exact hlog (hcov.2 m hm hnh q hq hc)
    show (w.calls.view Call.id D.model_calls).find? _ = _
    unfold Versions.view
    rw [List.find?_append, hadd, Option.or_none, List.find?_filter]
    congr 1
    funext m
    by_cases hm : m.id = c
    · simp [hm, hnh]
    · simp [hm]

/-- An answer whose hour is not logged keeps its usage. -/
theorem usageOf_commit (hw : WriterOk D w) (hcov : Covered D w) {q : Answer}
    (hq : q ∈ D.ai_queries) (hlog : hourOf q.created_at ∉ w.logged) :
    usageOf (w.view D) q = usageOf D q := by
  have hcol : ∀ {α : Type} (own sibling : Option α),
      usageColumn (w.view D) q own sibling = usageColumn D q own sibling := by
    intro α own sibling
    unfold usageColumn
    cases hc : q.model_call_id with
    | none => rfl
    | some c => simp only [first_commit hw hcov hq hlog hc]
  unfold usageOf
  simp only [hcol, callOf_commit hw hcov hq hlog]

/-- A commit changes what the ledger sums to only in the hours that it logs. -/
theorem ledgerTally_commit (hw : WriterOk D w) (hcov : Covered D w) {h : ℤ} (hlog : h ∉ w.logged)
    (d : Dims) : ledgerTally (w.view D) (h, d) = ledgerTally D (h, d) := by
  have hans : (w.view D).ai_queries.filter (fun q => decide (hourOf q.created_at = h)) =
      D.ai_queries.filter fun q => decide (hourOf q.created_at = h) := by
    refine Versions.filter_view (fun q hq hh => ?_) fun q hq => ?_
    · exact decide_eq_false fun heq => hlog (heq ▸ hw.hidden_answer q hq hh)
    · exact decide_eq_false fun heq => hlog (heq ▸ hw.added_answer q hq)
  have hfet : (w.view D).page_fetches.filter (fun f => decide (hourOf f.created_at = h)) =
      D.page_fetches.filter fun f => decide (hourOf f.created_at = h) := by
    refine Versions.filter_view (fun f hf hh => ?_) fun f hf => ?_
    · exact decide_eq_false fun heq => hlog (heq ▸ hw.hidden_fetch f hf hh)
    · exact decide_eq_false fun heq => hlog (heq ▸ hw.added_fetch f hf)
  have hsplit : ∀ D' : Tables, ledgerTally D' (h, d) =
      tally (((D'.ai_queries.filter fun q => decide (hourOf q.created_at = h)).map fun q =>
        (answerEntry D' q).row)) (h, d) +
      tally ((((D'.page_fetches.filter fun f => decide (hourOf f.created_at = h)).filter fun f =>
        decide (f.method ≠ "verification")).map fun f => (fetchEntry f).row)) (h, d) := by
    intro D'
    unfold ledgerTally ledger answerEntries fetchEntries
    rw [List.map_append, tally_append, List.map_map, List.map_map]
    congr 1
    · exact (tally_filter_of_forall fun q _ hk => decide_eq_true (congrArg Prod.fst hk)).symm
    · rw [List.filter_filter]
      refine tally_filter_congr fun f _ hk => ?_
      have hh : hourOf f.created_at = h := congrArg Prod.fst hk
      simp [hh]
  rw [hsplit, hsplit, hans, hfet]
  congr 2
  refine List.map_congr_left fun q hq => ?_
  obtain ⟨hq, hh⟩ := List.mem_filter.1 hq
  unfold answerEntry
  rw [usageOf_commit hw hcov hq (by rw [of_decide_eq_true hh]; exact hlog)]

end Commit

/-! ## Statements keep the log covering -/

/-- The rows of the log carry the hours logged, in order. -/
theorem numbered_hours (seq : ℕ) (hours : List ℤ) : (numbered seq hours).map Prod.snd = hours := by
  unfold numbered
  rw [List.map_map]
  exact List.zipIdx_map_fst seq hours

/-- The ids drawn for rows of the log start at the sequence's next value. -/
theorem mem_numbered {seq i : ℕ} {hours : List ℤ} (h : i ∈ (numbered seq hours).map Prod.fst) :
    seq ≤ i ∧ i < seq + hours.length := by
  unfold numbered at h
  simp only [List.map_map, List.mem_map, Function.comp_apply, Prod.fst_swap] at h
  obtain ⟨⟨x, j⟩, hx, rfl⟩ := h
  have hle := List.le_snd_of_mem_zipIdx hx
  have hlt := List.snd_lt_add_of_mem_zipIdx hx
  simp only at hle hlt ⊢
  omega

/-- A statement adds to the log what its triggers log. -/
theorem logged_execute (w : Writer) (D : Tables) (seq : ℕ) (st : Statement) :
    (w.execute D seq st).logged = w.logged ++ w.logs D st := by
  unfold Writer.logged Writer.execute
  rw [List.map_append, numbered_hours]

/-- The hours of a list of answers are among those selected. -/
theorem mem_answerHours {q : Answer} {rows : List Answer} (h : q ∈ rows) :
    hourOf q.created_at ∈ answerHours rows :=
  List.mem_dedup.2 (List.mem_map_of_mem h)

/-- The hours of a list of fetches are among those selected. -/
theorem mem_fetchHours {f : Fetch} {rows : List Fetch} (h : f ∈ rows) :
    hourOf f.created_at ∈ fetchHours rows :=
  List.mem_dedup.2 (List.mem_map_of_mem h)

/-- The hour of an answer naming one of the calls is selected. -/
theorem mem_siblingHours {D : Tables} {q : Answer} {c : ℕ} {calls : List ℕ} (hq : q ∈ D.ai_queries)
    (hc : c ∈ q.model_call_id) (hcalls : c ∈ calls) :
    hourOf q.created_at ∈ siblingHours D calls := by
  refine mem_answerHours (List.mem_filter.2 ⟨hq, ?_⟩)
  rw [Option.mem_def.1 hc]
  simpa using hcalls

/-- A call named by an answer of a list is among those the list names. -/
theorem mem_callsNamed {q : Answer} {c : ℕ} {rows : List Answer} (hq : q ∈ rows)
    (hc : c ∈ q.model_call_id) : c ∈ callsNamed rows :=
  List.mem_filterMap.2 ⟨q, hq, hc⟩

section Answers

variable {ch : Change Answer} {old : List Answer} {D : Tables} {q : Answer}

/-- The trigger logs the hours of the rows replaced. -/
theorem ledgerDirtyAnswers_old (hq : q ∈ old) (hrep : q.id ∈ ch.replaced Answer.id) :
    hourOf q.created_at ∈ ledgerDirtyAnswers ch old D := by
  have h := mem_answerHours hq
  unfold ledgerDirtyAnswers
  match ch, hrep with
  | .update new, _ => simp [h]
  | .delete ks, _ => simp [h]

/-- The trigger logs the hours of the rows written. -/
theorem ledgerDirtyAnswers_new (hq : q ∈ ch.new) :
    hourOf q.created_at ∈ ledgerDirtyAnswers ch old D := by
  have h := mem_answerHours hq
  unfold ledgerDirtyAnswers
  match ch, h with
  | .insert new, h => exact h
  | .update new, h => simp only [List.mem_append]; exact .inl (.inl (.inl h))

/-- The trigger looks up the calls of the rows replaced. -/
theorem watchedAnswers_old {c : ℕ} (hq : q ∈ old) (hrep : q.id ∈ ch.replaced Answer.id)
    (hc : c ∈ q.model_call_id) : c ∈ watchedAnswers ch old := by
  have h := mem_callsNamed hq hc
  unfold watchedAnswers
  match ch, hrep with
  | .update new, _ => simp [h]
  | .delete ks, _ => exact h

/-- The trigger logs the hours of the answers of the calls that it looks up. -/
theorem ledgerDirtyAnswers_sibling {c : ℕ} (hq : q ∈ D.ai_queries) (hc : c ∈ q.model_call_id)
    (hwatch : c ∈ watchedAnswers ch old) : hourOf q.created_at ∈ ledgerDirtyAnswers ch old D := by
  unfold watchedAnswers at hwatch
  unfold ledgerDirtyAnswers
  match ch, hwatch with
  | .update new, hwatch =>
    rcases List.mem_append.1 hwatch with h | h
    · simp [mem_siblingHours hq hc h]
    · simp [mem_siblingHours hq hc h]
  | .delete ks, hwatch => simp [mem_siblingHours hq hc hwatch]

end Answers

/-- A statement on `ai_queries` keeps the log covering. -/
theorem WriterOk.executeAnswers {D : Tables} {w : Writer} {others : List Writer} {seq : ℕ}
    {ch : Change Answer} (hw : WriterOk D w) (hadm : Admitted w D others (.answers ch)) :
    WriterOk D (w.execute D seq (.answers ch)) := by
  have hmono : ∀ {h : ℤ}, h ∈ w.logged → h ∈ (w.execute D seq (.answers ch)).logged := by
    intro h hh
    rw [logged_execute]
    exact List.mem_append_left _ hh
  have hnew : ∀ {h : ℤ}, h ∈ w.logs D (.answers ch) →
      h ∈ (w.execute D seq (.answers ch)).logged := by
    intro h hh
    rw [logged_execute]
    exact List.mem_append_right _ hh
  have hhid : ∀ q ∈ D.ai_queries, q.id ∈ (w.answers.write Answer.id ch).hidden →
      hourOf q.created_at ∈ (w.execute D seq (.answers ch)).logged := by
    intro q hq hh
    rcases Versions.mem_hidden_write hq hh with hh | hold
    · exact hmono (hw.hidden_answer q hq hh)
    · exact hnew (ledgerDirtyAnswers_old hold (by simpa using (List.mem_filter.1 hold).2))
  refine ⟨hhid, ?_, ?_, ?_, ?_, ?_, ?_, ?_⟩
  · intro q hq hh c hc
    rcases Versions.mem_hidden_write hq hh with hh | hold
    · exact List.mem_append_left _ (hw.hidden_call q hq hh c hc)
    · refine List.mem_append_right _ (watchedAnswers_old hold ?_ hc)
      simpa using (List.mem_filter.1 hold).2
  · intro q hq
    rcases Versions.mem_added_write hq with ⟨hq, -⟩ | hq
    · exact hmono (hw.added_answer q hq)
    · exact hnew (ledgerDirtyAnswers_new hq)
  · -- A row of the transaction with an id that it has replaced is from an update, which looks up its call.
    intro q hq hh c hc
    rcases Versions.mem_added_write hq with ⟨hq, hrep⟩ | hq
    · have hh : q.id ∈ w.answers.hidden := (List.mem_append.1 hh).resolve_right hrep
      exact List.mem_append_left _ (hw.added_call q hq hh c hc)
    · refine List.mem_append_right _ ?_
      match ch, hadm, hh, hq with
      | .insert new, hadm, hh, hq =>
        have hnh := (hadm.2 q.id (List.mem_map_of_mem hq)).2.1
        exact absurd ((List.mem_append.1 hh).resolve_right (by simp [Change.replaced])) hnh
      | .update new, _, _, hq => exact List.mem_append_right _ (mem_callsNamed hq hc)
  · exact fun f hf hh => hmono (hw.hidden_fetch f hf hh)
  · exact fun f hf => hmono (hw.added_fetch f hf)
  · exact fun c hc => List.mem_append_left _ (hw.call c hc)
  · intro q hq c hc hwatch
    rcases List.mem_append.1 hwatch with hwatch | hwatch
    · exact hmono (hw.sibling q hq c hc hwatch)
    · -- A committed answer of the call is either written over, or one that the trigger sees.
      by_cases hh : q.id ∈ (w.answers.write Answer.id ch).hidden
      · exact hhid q hq hh
      · refine hnew (ledgerDirtyAnswers_sibling ?_ hc hwatch)
        exact Versions.mem_view.2 (.inl ⟨hq, hh⟩)

/-- A statement on `model_calls` keeps the log covering. -/
theorem WriterOk.executeCalls {D : Tables} {w : Writer} {others : List Writer} {seq : ℕ}
    {ch : Change Call} (hw : WriterOk D w) (hadm : Admitted w D others (.calls ch)) :
    WriterOk D (w.execute D seq (.calls ch)) := by
  have hmono : ∀ {h : ℤ}, h ∈ w.logged → h ∈ (w.execute D seq (.calls ch)).logged := by
    intro h hh
    rw [logged_execute]
    exact List.mem_append_left _ hh
  refine ⟨fun q hq hh => hmono (hw.hidden_answer q hq hh), ?_,
    fun q hq => hmono (hw.added_answer q hq), ?_, fun f hf hh => hmono (hw.hidden_fetch f hf hh),
    fun f hf => hmono (hw.added_fetch f hf), ?_, ?_⟩
  · exact fun q hq hh c hc => List.mem_append_left _ (hw.hidden_call q hq hh c hc)
  · exact fun q hq hh c hc => List.mem_append_left _ (hw.added_call q hq hh c hc)
  · intro c hc
    rcases List.mem_append.1 hc with hc | hc
    · exact List.mem_append_left _ (hw.call c hc)
    · -- The rows that the statement replaces are there, so their ids are in its `OLD TABLE`.
      refine List.mem_append_right _ ?_
      have hthere : c ∈ (w.view D).model_calls.map Call.id := by
        match ch, hadm, hc with
        | .update new, hadm, hc => exact (hadm.2 c hc).1
        | .delete ks, hadm, hc => exact (hadm.2 c hc).1
      obtain ⟨m, hm, rfl⟩ := List.mem_map.1 hthere
      exact List.mem_map_of_mem (List.mem_filter.2 ⟨hm, decide_eq_true hc⟩)
  · intro q hq c hc hwatch
    rcases List.mem_append.1 hwatch with hwatch | hwatch
    · exact hmono (hw.sibling q hq c hc hwatch)
    · by_cases hh : q.id ∈ w.answers.hidden
      · exact hmono (hw.hidden_answer q hq hh)
      · have hview : q ∈ ((w.write (.calls ch)).view D).ai_queries :=
          Versions.mem_view.2 (.inl ⟨hq, hh⟩)
        rw [logged_execute]
        refine List.mem_append_right _ ?_
        match ch, hwatch with
        | .insert new, hwatch => simp [Writer.watches, Change.old, Change.replaced] at hwatch
        | .update new, hwatch => exact mem_siblingHours hview hc hwatch
        | .delete ks, hwatch => exact mem_siblingHours hview hc hwatch

/-- A statement on `page_fetches` keeps the log covering. -/
theorem WriterOk.executeFetches {D : Tables} {w : Writer} {seq : ℕ} {ch : Change Fetch}
    (hw : WriterOk D w) : WriterOk D (w.execute D seq (.fetches ch)) := by
  have hmono : ∀ {h : ℤ}, h ∈ w.logged → h ∈ (w.execute D seq (.fetches ch)).logged := by
    intro h hh
    rw [logged_execute]
    exact List.mem_append_left _ hh
  have hnew : ∀ {h : ℤ}, h ∈ w.logs D (.fetches ch) →
      h ∈ (w.execute D seq (.fetches ch)).logged := by
    intro h hh
    rw [logged_execute]
    exact List.mem_append_right _ hh
  have hwatch : ∀ {c : ℕ}, c ∈ (w.execute D seq (.fetches ch)).watched ↔ c ∈ w.watched := by
    intro c
    unfold Writer.execute Writer.watches
    simp
  refine ⟨fun q hq hh => hmono (hw.hidden_answer q hq hh),
    fun q hq hh c hc => hwatch.2 (hw.hidden_call q hq hh c hc),
    fun q hq => hmono (hw.added_answer q hq),
    fun q hq hh c hc => hwatch.2 (hw.added_call q hq hh c hc), ?_, ?_,
    fun c hc => hwatch.2 (hw.call c hc),
    fun q hq c hc hcw => hmono (hw.sibling q hq c hc (hwatch.1 hcw))⟩
  · intro f hf hh
    rcases Versions.mem_hidden_write hf hh with hh | hold
    · exact hmono (hw.hidden_fetch f hf hh)
    · have h := mem_fetchHours hold
      have hrep : f.id ∈ ch.replaced Fetch.id := by simpa using (List.mem_filter.1 hold).2
      refine hnew ?_
      unfold Writer.logs ledgerDirtyFetches
      match ch, hrep, h with
      | .update new, _, h => exact List.mem_append_right _ h
      | .delete ks, _, h => exact h
  · intro f hf
    rcases Versions.mem_added_write hf with ⟨hf, -⟩ | hf
    · exact hmono (hw.added_fetch f hf)
    · have h := mem_fetchHours hf
      refine hnew ?_
      unfold Writer.logs ledgerDirtyFetches
      match ch, h with
      | .insert new, h => exact h
      | .update new, h => exact List.mem_append_left _ h

/-- A statement keeps the log covering. -/
theorem WriterOk.execute {D : Tables} {w : Writer} {others : List Writer} {seq : ℕ} {st : Statement}
    (hw : WriterOk D w) (hadm : Admitted w D others st) : WriterOk D (w.execute D seq st) :=
  match st, hadm with
  | .answers _, hadm => hw.executeAnswers hadm
  | .calls _, hadm => hw.executeCalls hadm
  | .fetches _, _ => hw.executeFetches

/-! ## Commits of other transactions -/

/-- Two transactions in flight hold different answers and fetches and have drawn different ids of the
log. -/
structure Apart (w v : Writer) : Prop where
  answers : ∀ i ∈ w.answers.touched Answer.id, i ∉ v.answers.touched Answer.id
  fetches : ∀ i ∈ w.fetches.touched Fetch.id, i ∉ v.fetches.touched Fetch.id
  dirty : ∀ i ∈ w.dirty.map Prod.fst, i ∉ v.dirty.map Prod.fst

/-- Being apart is symmetric. -/
theorem Apart.symm {w v : Writer} (h : Apart w v) : Apart v w where
  answers i hv hw := h.answers i hw hv
  fetches i hv hw := h.fetches i hw hv
  dirty i hv hw := h.dirty i hw hv

/-- No answer that a transaction commits names a call whose answers another transaction in flight has
already looked up, unless that one has logged the answer's hour: it would not see the answer. -/
def Unseen (w v : Writer) : Prop :=
  ∀ q ∈ w.answers.added, ∀ c ∈ q.model_call_id, c ∈ v.watched → hourOf q.created_at ∈ v.logged

instance (w v : Writer) : Decidable (Unseen w v) :=
  inferInstanceAs (Decidable (∀ q ∈ w.answers.added, ∀ c ∈ q.model_call_id, _ → _))

/-- The commit of another transaction keeps the log covering. -/
theorem WriterOk.commit {D : Tables} {w v : Writer} (hv : WriterOk D v) (hapart : Apart w v)
    (hunseen : Unseen w v) : WriterOk (w.view D) v := by
  -- The other transaction's rows are not ones that this one has written over.
  have hans : ∀ q ∈ (w.view D).ai_queries, q.id ∈ v.answers.hidden → q ∈ D.ai_queries := by
    intro q hq hh
    rcases Versions.mem_view.1 hq with ⟨hq, -⟩ | hq
    · exact hq
    · have hwt : q.id ∈ w.answers.touched Answer.id :=
        List.mem_append_right _ (List.mem_map_of_mem hq)
      exact absurd (List.mem_append_left _ hh) (hapart.answers q.id hwt)
  have hfet : ∀ f ∈ (w.view D).page_fetches, f.id ∈ v.fetches.hidden → f ∈ D.page_fetches := by
    intro f hf hh
    rcases Versions.mem_view.1 hf with ⟨hf, -⟩ | hf
    · exact hf
    · have hwt : f.id ∈ w.fetches.touched Fetch.id :=
        List.mem_append_right _ (List.mem_map_of_mem hf)
      exact absurd (List.mem_append_left _ hh) (hapart.fetches f.id hwt)
  refine ⟨fun q hq hh => hv.hidden_answer q (hans q hq hh) hh,
    fun q hq hh => hv.hidden_call q (hans q hq hh) hh, hv.added_answer, hv.added_call,
    fun f hf hh => hv.hidden_fetch f (hfet f hf hh) hh, hv.added_fetch, hv.call, ?_⟩
  intro q hq c hc hwatch
  rcases Versions.mem_view.1 hq with ⟨hq, -⟩ | hq
  · exact hv.sibling q hq c hc hwatch
  · exact hunseen q hq c hc hwatch

/-- A statement that can run keeps the transaction apart from another, when the ids that it draws for
the log are new. -/
theorem Apart.execute {D : Tables} {w v : Writer} {others : List Writer} {seq : ℕ} {st : Statement}
    (h : Apart w v) (hv : v ∈ others) (hadm : Admitted w D others st)
    (hseq : ∀ i ∈ v.dirty.map Prod.fst, i < seq) : Apart (w.execute D seq st) v := by
  have hdirty : ∀ i ∈ (w.execute D seq st).dirty.map Prod.fst, i ∉ v.dirty.map Prod.fst := by
    intro i hi hvi
    have hi' : i ∈ (w.dirty ++ numbered seq (w.logs D st)).map Prod.fst := hi
    rw [List.map_append, List.mem_append] at hi'
    rcases hi' with hi' | hi'
    · exact h.dirty i hi' hvi
    · have := mem_numbered hi'
      have := hseq i hvi
      omega
  match st, hadm, hdirty with
  | .answers ch, hadm, hdirty =>
    refine ⟨fun i hi hvi => ?_, h.fetches, hdirty⟩
    rcases Versions.mem_touched_write hi with hi | hi
    · exact h.answers i hi hvi
    · exact Change.Admitted.not_locked hadm hi (List.mem_flatMap.2 ⟨v, hv, hvi⟩)
  | .calls ch, _, hdirty => exact ⟨h.answers, h.fetches, hdirty⟩
  | .fetches ch, hadm, hdirty =>
    refine ⟨h.answers, fun i hi hvi => ?_, hdirty⟩
    rcases Versions.mem_touched_write hi with hi | hi
    · exact h.fetches i hi hvi
    · exact Change.Admitted.not_locked hadm hi (List.mem_flatMap.2 ⟨v, hv, hvi⟩)

end JobScripts.Ledger

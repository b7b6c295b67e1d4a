import JobScripts.Batch.Collection
import JobScripts.Lib.Decimals
import JobScripts.Lib.Run
import JobScripts.Models.Pricing

/-!
# The ledger of paid model calls

`api/model_calls.py`: a row of `model_calls` for every request that a provider was paid for. The results of a batch
come through the receipt checkpoint, as often and in as many parts as they are collected, and `ON CONFLICT DO NOTHING`
keeps the first row of each. A batch that nobody is known to pay for is skipped, and may be paid for later on. What a
row costs is kept to six decimals.

`batch_totals_exact`: the totals of a batch are those of its answers that were recorded, each counted once.
-/

namespace JobScripts.Billing.ModelCalls

open Lib Lib.Decimals Models.Pricing
open Batch.Collection (BatchResult Usage batchUsage)

/-! ## The rows -/

/-- Who pays for a call: a person, a board, or the fleet. -/
inductive Payer
  | user (user_id : ℕ)
  | managedBoard (managed_board_id : ℕ)
  | fleet
  deriving DecidableEq

/-- The name of who pays, as the column `payer` has it. -/
def Payer.kind : Payer → String
  | .user _ => "user"
  | .managedBoard _ => "managed_board"
  | .fleet => "fleet"

/-- The person who pays, if it is one. -/
def Payer.userId : Payer → Option ℕ
  | .user id => some id
  | .managedBoard _ | .fleet => none

/-- The board that pays, if it is one. -/
def Payer.managedBoardId : Payer → Option ℕ
  | .managedBoard id => some id
  | .user _ | .fleet => none

/-- A call of a model as its caller reports it; the usage is `none` where the provider reported none. -/
structure Call where
  purpose : String
  model : Option String
  payer : Payer
  key_source : String
  usage : Option Usage
  task_id : Option ℕ
  provider_batch_id : Option String
  custom_id : Option String
  created_at : Option ℤ
  source : String
  duration_ms : Option ℕ

/-- A row of `model_calls`. -/
structure Row where
  created_at : ℤ
  source : String
  purpose : String
  model : Option String
  payer : String
  batched : Bool
  user_id : Option ℕ
  managed_board_id : Option ℕ
  key_source : String
  task_id : Option ℕ
  provider_batch_id : Option String
  custom_id : Option String
  prompt_tokens : ℤ
  completion_tokens : ℤ
  total_tokens : ℤ
  cached_tokens : ℤ
  cache_write_tokens : Option ℤ
  reasoning_tokens : ℤ
  cost_usd : Option ℚ
  duration_ms : Option ℕ

/-- The published rates of a model, `none` for one that is not known or has no price. -/
abbrev RatesFor := Option String → Option Rates

/-- What a call costs, as the column keeps it: `cost_usd` is a `Numeric(12, 6)`. -/
def costUsd (ratesFor : RatesFor) (model : Option String) (batched : Bool) (usage : Usage) : Option ℚ :=
  (estimateCostUsd (ratesFor model) usage.prompt_tokens usage.completion_tokens usage.cached_tokens batched none
    (.receipt usage.cache_write_tokens)).map (numeric 6)

/-- The row that a call is written as at a time, `_row`, if it was billed. -/
def row (ratesFor : RatesFor) (now : ℤ) (call : Call) : Option Row :=
  call.usage.bind fun usage =>
    -- Without tokens the call was not billed, and is not a row.
    if usage.total_tokens = 0 then none
    else some {
      created_at := call.created_at.getD now
      source := call.source
      purpose := call.purpose
      model := call.model
      payer := call.payer.kind
      batched := call.provider_batch_id.isSome
      user_id := call.payer.userId
      managed_board_id := call.payer.managedBoardId
      key_source := call.key_source
      task_id := call.task_id
      provider_batch_id := call.provider_batch_id
      custom_id := call.custom_id
      prompt_tokens := usage.prompt_tokens
      completion_tokens := usage.completion_tokens
      total_tokens := usage.total_tokens
      cached_tokens := usage.cached_tokens
      cache_write_tokens := usage.cache_write_tokens
      reasoning_tokens := usage.reasoning_tokens
      cost_usd := costUsd ratesFor call.model call.provider_batch_id.isSome usage
      duration_ms := call.duration_ms }

/-- What is unique: a batch and a request of it, where neither is null. -/
def Row.key (row : Row) : Option (String × String) :=
  row.provider_batch_id.bind fun batch => row.custom_id.map fun custom => (batch, custom)

/-- The column holds the cost of a row: six digits before the point. -/
def Row.fits (row : Row) : Bool := row.cost_usd.all fun cost => |cost| < 10 ^ 6

/-- A row is written, `_INSERT`; one that conflicts is left out. -/
def insert (rows : List Row) (row : Row) : List Row :=
  -- A live call has no key, and conflicts with nothing.
  if row.key.isSome && rows.any fun r => r.key == row.key then rows else rows ++ [row]

/-- The rows after those of some calls are written. -/
def written (ratesFor : RatesFor) (now : ℤ) (rows : List Row) (calls : List Call) : List Row :=
  (calls.filterMap (row ratesFor now)).foldl insert rows

/-- Calls are written in one transaction, `record`: a cost that the column does not hold fails all of them. -/
def record (ratesFor : RatesFor) (now : ℤ) (rows : List Row) (calls : List Call) : Option (List Row) :=
  if (calls.filterMap (row ratesFor now)).all Row.fits then some (written ratesFor now rows calls) else none

/-- A live call is written, `record_live`; an item of a batch is an error. -/
def recordLive (ratesFor : RatesFor) (now : ℤ) (rows : List Row) (call : Call) : Option (List Row) :=
  if call.provider_batch_id.isSome then none else record ratesFor now rows [call]

/-! ## The batches -/

/-- A row of `ai_batches`; an old one has no payer. -/
structure Batch where
  task_id : ℕ
  purpose : String
  model : Option String
  payer : Option Payer
  deriving DecidableEq

/-- The call of a result, where its batch is there and has a payer. -/
def callOf (batches : String → Option Batch) (result : BatchResult) : Option Call :=
  if result.batch_id ≠ "" && result.usage.isSome then
    (batches result.batch_id).bind fun batch => batch.payer.map fun payer => {
      purpose := batch.purpose
      model := batch.model
      payer := payer
      -- A batch runs on the server's key; the share of a person or a board is the owner's.
      key_source := if payer = .fleet then "server" else "owner"
      usage := batchUsage result.usage
      task_id := some batch.task_id
      provider_batch_id := some result.batch_id
      custom_id := some result.custom_id
      created_at := none
      source := "call"
      duration_ms := none }
  else none

/-- The results of batches are written, each with what its batch says, `record_batch_items`. -/
def recordBatchItems (ratesFor : RatesFor) (now : ℤ) (batches : String → Option Batch) (rows : List Row)
    (results : List BatchResult) : Option (List Row) :=
  record ratesFor now rows (results.filterMap (callOf batches))

/-- An event of a batch is written, `record_event`, in the columns that the ledger reads: it keeps its first payer. -/
def recordEvent (batches : String → Option Batch) (id : String) (batch : Batch) : String → Option Batch :=
  -- `COALESCE`: the payer is written once, and the rest of an old row stays.
  Function.update batches id (some (match batches id with
    | none => batch
    | some old => { old with payer := old.payer.orElse fun _ => batch.payer }))

/-- The ledger, the batches, and the results that a payer was known for when they came. -/
structure State where
  clock : ℤ
  batches : String → Option Batch
  rows : List Row
  collected : List BatchResult

/-- Nothing is recorded. -/
def State.start (clock : ℤ) (batches : String → Option Batch) : State := ⟨clock, batches, [], []⟩

/-- What can happen next. -/
inductive Act
  | tick (seconds : ℕ)
  /-- An event of a batch. -/
  | event (id : String) (batch : Batch)
  /-- Results are collected, maybe again. -/
  | collect (results : List BatchResult)
  /-- A live call. -/
  | live (call : Call)

/-- One transaction at a time. -/
def step (ratesFor : RatesFor) (s : State) : Act → Option State
  | .tick seconds => some { s with clock := s.clock + seconds }
  | .event id batch => some { s with batches := recordEvent s.batches id batch }
  | .collect results =>
    (recordBatchItems ratesFor s.clock s.batches s.rows results).map fun rows =>
      { s with
        rows
        collected := s.collected ++ results.filter fun result => (callOf s.batches result).isSome }
  | .live call => (recordLive ratesFor s.clock s.rows call).map fun rows => { s with rows }

/-! ## The totals -/

/-- What a call adds to the totals of its batch. -/
structure Measure where
  prompt_tokens : ℤ
  completion_tokens : ℤ
  cache_write_tokens : Option ℤ
  cost_usd : Option ℚ

/-- The sum of values that are all known, and of one at least: `CASE WHEN bool_and(v IS NOT NULL) THEN sum(v) END`. -/
def sumKnown {α : Type} [Add α] [Zero α] (values : List (Option α)) : Option α :=
  if values ≠ [] ∧ values.all Option.isSome then some (values.filterMap id).sum else none

/-- What a batch has used and cost. -/
structure Totals where
  input_tokens : ℤ
  output_tokens : ℤ
  cache_write_tokens : Option ℤ
  est_cost_usd : Option ℚ
  deriving DecidableEq

/-- The totals of what calls add. -/
def Totals.of (measures : List Measure) : Totals where
  input_tokens := (measures.map Measure.prompt_tokens).sum
  output_tokens := (measures.map Measure.completion_tokens).sum
  cache_write_tokens := sumKnown (measures.map Measure.cache_write_tokens)
  est_cost_usd := sumKnown (measures.map Measure.cost_usd)

/-- What a row adds. -/
def Row.measure (row : Row) : Measure :=
  ⟨row.prompt_tokens, row.completion_tokens, row.cache_write_tokens, row.cost_usd⟩

/-- The totals of a batch, by its rows: `BATCH_TOTALS`. -/
def batchTotals (rows : List Row) (id : String) : Totals :=
  .of ((rows.filter fun row => row.provider_batch_id == some id).map Row.measure)

/-- What an answer costs on a model, where it was billed. -/
def measureOf (ratesFor : RatesFor) (model : Option String) (answer : BatchResult) : Option Measure :=
  (batchUsage answer.usage).bind fun usage =>
    if usage.total_tokens = 0 then none
    else some ⟨usage.prompt_tokens, usage.completion_tokens, usage.cache_write_tokens,
      costUsd ratesFor model true usage⟩

/-- The condition on a step: what is collected is what the provider has answered. -/
def From (answers : List BatchResult) (_ : State) : Act → Prop
  | .collect results => ∀ result ∈ results, result ∈ answers
  | _ => True

instance (answers : List BatchResult) (s : State) : (act : Act) → Decidable (From answers s act)
  | .collect results => inferInstanceAs (Decidable (∀ result ∈ results, result ∈ answers))
  | .tick _ => isTrue trivial
  | .event _ _ => isTrue trivial
  | .live _ => isTrue trivial

section Calls

variable {ratesFor : RatesFor} {batches : String → Option Batch} {answers results items : List BatchResult}
  {rows : List Row} {a : BatchResult} {r : Row} {now : ℤ}

/-- The row is that of a result, with the payer of its batch. -/
def Shows (ratesFor : RatesFor) (batches : String → Option Batch) (r : Row) (a : BatchResult) : Prop :=
  ∃ now call, callOf batches a = some call ∧ row ratesFor now call = some r

/-- The provider was paid for the answer. -/
def billed (a : BatchResult) : Bool := (batchUsage a.usage).any fun usage => usage.total_tokens ≠ 0

/-- What a call of a result is made of. -/
theorem callOf_some {call : Call} (h : callOf batches a = some call) : ∃ batch payer,
    batches a.batch_id = some batch ∧ batch.payer = some payer ∧ call.payer = payer ∧ call.model = batch.model ∧
      call.usage = batchUsage a.usage ∧ call.provider_batch_id = some a.batch_id ∧
        call.custom_id = some a.custom_id := by
  unfold callOf at h
  split at h
  · rw [Option.bind_eq_some_iff] at h
    obtain ⟨batch, hbatch, h⟩ := h
    rw [Option.map_eq_some_iff] at h
    obtain ⟨payer, hpayer, rfl⟩ := h
    exact ⟨batch, payer, hbatch, hpayer, rfl, rfl, rfl, rfl, rfl⟩
  · contradiction

/-- An event of a batch does not change the calls that could be made. -/
theorem callOf_recordEvent {call : Call} {id : String} {batch : Batch} (h : callOf batches a = some call) :
    callOf (recordEvent batches id batch) a = some call := by
  obtain ⟨old, payer, hold, hpayer, -⟩ := callOf_some h
  by_cases hid : a.batch_id = id
  · have hkept : recordEvent batches id batch a.batch_id = some old := by
      rw [hid] at hold ⊢
      rw [recordEvent, Function.update_self, hold]
      dsimp only
      rw [hpayer]
      exact congrArg some (by rw [Option.orElse_some, ← hpayer])
    rw [← h, callOf, callOf, hkept, hold]
  · have hkept : recordEvent batches id batch a.batch_id = batches a.batch_id := Function.update_of_ne hid _ _
    rw [← h, callOf, callOf, hkept]

/-- A row keeps its call's names, and measures its usage. -/
theorem row_some {call : Call} (h : row ratesFor now call = some r) : ∃ usage, call.usage = some usage ∧
    usage.total_tokens ≠ 0 ∧ r.provider_batch_id = call.provider_batch_id ∧ r.custom_id = call.custom_id ∧
      r.payer = call.payer.kind ∧ r.user_id = call.payer.userId ∧
        r.managed_board_id = call.payer.managedBoardId ∧
          r.measure = ⟨usage.prompt_tokens, usage.completion_tokens, usage.cache_write_tokens,
            costUsd ratesFor call.model call.provider_batch_id.isSome usage⟩ := by
  unfold row at h
  rw [Option.bind_eq_some_iff] at h
  obtain ⟨usage, husage, h⟩ := h
  rw [Option.ite_none_left_eq_some] at h
  obtain ⟨htotal, h⟩ := h
  obtain rfl := Option.some_inj.mp h
  exact ⟨usage, husage, htotal, rfl, rfl, rfl, rfl, rfl, rfl⟩

/-- The key of a result's row. -/
theorem Shows.key (h : Shows ratesFor batches r a) : r.key = some (a.batch_id, a.custom_id) := by
  obtain ⟨now, call, hcall, hrow⟩ := h
  obtain ⟨-, -, -, -, -, -, -, hid, hcustom⟩ := callOf_some hcall
  obtain ⟨-, -, -, hrowId, hrowCustom, -⟩ := row_some hrow
  rw [Row.key, hrowId, hrowCustom, hid, hcustom]
  rfl

/-- The batch of a result's row. -/
theorem Shows.batch (h : Shows ratesFor batches r a) : r.provider_batch_id = some a.batch_id := by
  obtain ⟨now, call, hcall, hrow⟩ := h
  obtain ⟨-, -, -, -, -, -, -, hid, -⟩ := callOf_some hcall
  obtain ⟨-, -, -, hrowId, -⟩ := row_some hrow
  rw [hrowId, hid]

/-- What a result's row adds. -/
theorem Shows.measure (h : Shows ratesFor batches r a) {batch : Batch} (hbatch : batches a.batch_id = some batch) :
    measureOf ratesFor batch.model a = some r.measure := by
  obtain ⟨now, call, hcall, hrow⟩ := h
  obtain ⟨batch', payer, hbatch', -, -, hmodel, husage, hid, -⟩ := callOf_some hcall
  obtain rfl := Option.some_inj.mp (hbatch.symm.trans hbatch')
  obtain ⟨usage, husage', htotal, -, -, -, -, -, hmeasure⟩ := row_some hrow
  rw [hmeasure, measureOf, ← husage, husage', Option.bind_some, if_neg htotal, hmodel, hid]
  rfl

/-- A result has a row exactly if it was billed. -/
theorem row_isSome (ratesFor : RatesFor) (now : ℤ) {call : Call} (h : callOf batches a = some call) :
    (row ratesFor now call).isSome = billed a := by
  obtain ⟨-, -, -, -, -, -, husage, -⟩ := callOf_some h
  rw [row, billed, husage]
  cases batchUsage a.usage with
  | none => rfl
  | some usage =>
    rw [Option.bind_some, Option.any_some]
    by_cases htotal : usage.total_tokens = 0
    · simp [htotal]
    · simp [htotal]

/-- Rows that show items: a row of a batch for each, in the order in which they came. -/
def Shown (ratesFor : RatesFor) (batches : String → Option Batch) (rows : List Row) (items : List BatchResult) :
    Prop :=
  List.Forall₂ (Shows ratesFor batches) (rows.filter fun r => r.provider_batch_id.isSome) items

/-- Lists that correspond have what corresponds to each element of either. -/
theorem exists_of_forall₂ {α β : Type} {R : α → β → Prop} {l : List α} {l' : List β} (h : List.Forall₂ R l l') :
    (∀ x ∈ l, ∃ y ∈ l', R x y) ∧ ∀ y ∈ l', ∃ x ∈ l, R x y := by
  induction h with
  | nil => exact ⟨fun _ hx => absurd hx List.not_mem_nil, fun _ hy => absurd hy List.not_mem_nil⟩
  | @cons x y l l' hxy hrest ih =>
    constructor
    · intro z hz
      rcases List.mem_cons.mp hz with rfl | hz
      · exact ⟨y, List.mem_cons_self, hxy⟩
      · obtain ⟨y', hy', hR⟩ := ih.1 z hz
        exact ⟨y', List.mem_cons_of_mem _ hy', hR⟩
    · intro z hz
      rcases List.mem_cons.mp hz with rfl | hz
      · exact ⟨x, List.mem_cons_self, hxy⟩
      · obtain ⟨x', hx', hR⟩ := ih.2 z hz
        exact ⟨x', List.mem_cons_of_mem _ hx', hR⟩

/-- A row of an item that has one is left out, and that of another is written. -/
theorem insert_cases (hshown : Shown ratesFor batches rows items) (hfrom : ∀ i ∈ items, i ∈ answers)
    (hnodup : (answers.map BatchResult.key).Nodup) (ha : a ∈ answers) (hr : Shows ratesFor batches r a) :
    a ∈ items ∧ insert rows r = rows ∨ a ∉ items ∧ insert rows r = rows ++ [r] := by
  have hkey := hr.key
  by_cases hmem : a ∈ items
  · refine .inl ⟨hmem, ?_⟩
    obtain ⟨r', hr', hshows⟩ := (exists_of_forall₂ hshown).2 a hmem
    have hany : (r.key.isSome && rows.any fun r' => r'.key == r.key) = true := by
      rw [hkey, Option.isSome_some, Bool.true_and, List.any_eq_true]
      exact ⟨r', (List.mem_filter.mp hr').1, by rw [hshows.key]; exact beq_self_eq_true _⟩
    rw [insert, if_pos hany]
  · refine .inr ⟨hmem, ?_⟩
    have hany : ¬(r.key.isSome && rows.any fun r' => r'.key == r.key) = true := by
      rw [hkey, Option.isSome_some, Bool.true_and, List.any_eq_true]
      rintro ⟨r', hr', heq⟩
      rw [beq_iff_eq] at heq
      have hbatch : r'.provider_batch_id.isSome = true := by
        cases hid : r'.provider_batch_id with
        | none =>
          rw [Row.key, hid] at heq
          contradiction
        | some id => rfl
      obtain ⟨i, hi, hshows⟩ := (exists_of_forall₂ hshown).1 r' (List.mem_filter.mpr ⟨hr', hbatch⟩)
      have hsame : i.key = a.key := Option.some_inj.mp (hshows.key.symm.trans heq)
      exact hmem (List.inj_on_of_nodup_map hnodup (hfrom i hi) ha hsame ▸ hi)
    rw [insert, if_neg hany]

/-- The results are recorded one after the other. -/
theorem written_cons : written ratesFor now rows ((a :: results).filterMap (callOf batches)) =
    written ratesFor now (((callOf batches a).bind (row ratesFor now)).elim rows (insert rows))
      (results.filterMap (callOf batches)) := by
  unfold written
  rw [List.filterMap_cons]
  cases hcall : callOf batches a with
  | none => rfl
  | some call =>
    dsimp only
    rw [List.filterMap_cons, Option.bind_some]
    cases row ratesFor now call with
    | none => rfl
    | some r => rfl

/-- The items that are shown after a result: it too, if it was billed and its batch has a payer. -/
theorem shown_result (now : ℤ) (hshown : Shown ratesFor batches rows items) (hitems : items.Nodup)
    (hfrom : ∀ i ∈ items, i ∈ answers) (hnodup : (answers.map BatchResult.key).Nodup) (ha : a ∈ answers) :
    ∃ items', Shown ratesFor batches (((callOf batches a).bind (row ratesFor now)).elim rows (insert rows)) items' ∧
      items'.Nodup ∧
        ∀ i, i ∈ items' ↔ i ∈ items ∨ i = a ∧ (callOf batches a).isSome = true ∧ billed a = true := by
  cases hr : (callOf batches a).bind (row ratesFor now) with
  | none =>
    refine ⟨items, hshown, hitems, fun i => ⟨.inl, fun h => ?_⟩⟩
    rcases h with hi | ⟨-, hcall, hbilled⟩
    · exact hi
    obtain ⟨call, hcall⟩ := Option.isSome_iff_exists.mp hcall
    rw [hcall, Option.bind_some] at hr
    rw [← row_isSome ratesFor now hcall, hr] at hbilled
    contradiction
  | some r =>
    obtain ⟨call, hcall, hrow⟩ := Option.bind_eq_some_iff.mp hr
    have hshows : Shows ratesFor batches r a := ⟨now, call, hcall, hrow⟩
    have hbilled : billed a = true := by
      rw [← row_isSome ratesFor now hcall, hrow]
      rfl
    have hsome : (callOf batches a).isSome = true := by rw [hcall]; rfl
    rcases insert_cases hshown hfrom hnodup ha hshows with ⟨hmem, heq⟩ | ⟨hmem, heq⟩
    · refine ⟨items, ?_, hitems, fun i => ⟨.inl, fun h => ?_⟩⟩
      · rw [Option.elim_some, heq]
        exact hshown
      · rcases h with hi | ⟨rfl, -⟩
        · exact hi
        · exact hmem
    · refine ⟨items ++ [a], ?_, ?_, fun i => ?_⟩
      · have hbatch : r.provider_batch_id.isSome = true := by
          rw [hshows.batch]
          rfl
        rw [Option.elim_some, heq, Shown, List.filter_append, List.filter_singleton, hbatch]
        exact List.rel_append hshown (.cons hshows .nil)
      · rw [List.nodup_append]
        refine ⟨hitems, List.nodup_singleton a, fun i hi b hb => ?_⟩
        rw [List.mem_singleton.mp hb]
        rintro rfl
        exact hmem hi
      · rw [List.mem_append, List.mem_singleton]
        exact or_congr_right ⟨fun heq => ⟨heq, hsome, hbilled⟩, And.left⟩

/-- And after all that are collected. -/
theorem shown_results (now : ℤ) (hnodup : (answers.map BatchResult.key).Nodup) :
    ∀ {results items : List BatchResult} {rows : List Row}, Shown ratesFor batches rows items → items.Nodup →
      (∀ i ∈ items, i ∈ answers) → (∀ a ∈ results, a ∈ answers) →
        ∃ items', Shown ratesFor batches (written ratesFor now rows (results.filterMap (callOf batches))) items' ∧
          items'.Nodup ∧
          ∀ i, i ∈ items' ↔ i ∈ items ∨ i ∈ results ∧ (callOf batches i).isSome = true ∧ billed i = true
  | [], items, rows, hshown, hitems, _, _ => by
    refine ⟨items, hshown, hitems, fun i => ⟨.inl, fun h => ?_⟩⟩
    rcases h with hi | ⟨hi, -⟩
    · exact hi
    · exact absurd hi List.not_mem_nil
  | a :: results, items, rows, hshown, hitems, hfrom, hresults => by
    -- The induction is on the results; each shows one item more at most.
    obtain ⟨first, hfirst, hnodupFirst, hmemFirst⟩ :=
      shown_result now hshown hitems hfrom hnodup (hresults a List.mem_cons_self)
    have hfromFirst : ∀ i ∈ first, i ∈ answers := by
      intro i hi
      rcases (hmemFirst i).mp hi with hi | ⟨rfl, -⟩
      · exact hfrom i hi
      · exact hresults i List.mem_cons_self
    obtain ⟨items', hshown', hitems', hmem'⟩ := shown_results now hnodup hfirst hnodupFirst hfromFirst fun b hb =>
      hresults b (List.mem_cons_of_mem _ hb)
    refine ⟨items', written_cons ▸ hshown', hitems', fun i => ?_⟩
    rw [hmem', hmemFirst, List.mem_cons]
    constructor
    · rintro ((hi | ⟨rfl, hi⟩) | ⟨hi, hboth⟩)
      · exact .inl hi
      · exact .inr ⟨.inl rfl, hi⟩
      · exact .inr ⟨.inr hi, hboth⟩
    · rintro (hi | ⟨rfl | hi, hboth⟩)
      · exact .inl (.inl hi)
      · exact .inl (.inr ⟨rfl, hboth⟩)
      · exact .inr ⟨hi, hboth⟩

/-- What the rows of a batch add is what the items of it add. -/
theorem measures_shown {l : List Row} (hshown : List.Forall₂ (Shows ratesFor batches) l items) {id : String}
    {batch : Batch} (hbatch : batches id = some batch) :
    (l.filter fun r => r.provider_batch_id == some id).map Row.measure =
      (items.filter fun a => a.batch_id == id).filterMap (measureOf ratesFor batch.model) := by
  induction hshown with
  | nil => rfl
  | @cons r a l items hr hrest ih =>
    by_cases hid : a.batch_id = id
    · have hrow : (r.provider_batch_id == some id) = true := by rw [hr.batch, hid, beq_self_eq_true]
      have hitem : (a.batch_id == id) = true := by rw [hid, beq_self_eq_true]
      rw [List.filter_cons_of_pos (p := fun r : Row => r.provider_batch_id == some id) hrow,
        List.filter_cons_of_pos (p := fun a : BatchResult => a.batch_id == id) hitem, List.map_cons,
        List.filterMap_cons_some (hr.measure (hid ▸ hbatch)), ih]
    · have hrow : ¬(r.provider_batch_id == some id) = true := by
        rw [hr.batch, beq_iff_eq]
        exact fun heq => hid (Option.some_inj.mp heq)
      have hitem : ¬(a.batch_id == id) = true := by
        rw [beq_iff_eq]
        exact hid
      rw [List.filter_cons_of_neg (p := fun r : Row => r.provider_batch_id == some id) hrow,
        List.filter_cons_of_neg (p := fun a : BatchResult => a.batch_id == id) hitem, ih]

/-- An answer that was not billed adds nothing. -/
theorem measureOf_unbilled {model : Option String} (h : billed a = false) : measureOf ratesFor model a = none := by
  unfold billed at h
  unfold measureOf
  cases husage : batchUsage a.usage with
  | none => rfl
  | some usage =>
    rw [husage, Option.any_some, decide_eq_false_iff_not, not_not] at h
    rw [Option.bind_some, if_pos h]

/-- A sum of values that are known does not depend on their order. -/
theorem sumKnown_perm {α : Type} [AddCommMonoid α] {l l' : List (Option α)} (h : l.Perm l') :
    sumKnown l = sumKnown l' := by
  have hne : l ≠ [] ↔ l' ≠ [] := not_congr ⟨fun heq => (heq ▸ h).nil_eq.symm, fun heq => (heq ▸ h).eq_nil⟩
  unfold sumKnown
  rw [h.all_eq, (h.filterMap id).sum_eq]
  exact if_congr (and_congr_left fun _ => hne) rfl rfl

/-- Nor do totals. -/
theorem totals_perm {l l' : List Measure} (h : l.Perm l') : Totals.of l = Totals.of l' := by
  unfold Totals.of
  rw [(h.map _).sum_eq, (h.map Measure.completion_tokens).sum_eq, sumKnown_perm (h.map Measure.cache_write_tokens),
    sumKnown_perm (h.map Measure.cost_usd)]

end Calls

section Runs

variable {ratesFor : RatesFor} {answers : List BatchResult} {s s' : State} {act : Act}

/-- The rows of batches are those of the results that were collected and billed, each once. -/
structure Recorded (ratesFor : RatesFor) (answers : List BatchResult) (s : State) : Prop where
  collected : ∀ a ∈ s.collected, a ∈ answers
  shown : ∃ items, Shown ratesFor s.batches s.rows items ∧ items.Nodup ∧
    ∀ a, a ∈ items ↔ a ∈ s.collected ∧ billed a = true

/-- Calls that fit are written. -/
theorem eq_written_of_record {now : ℤ} {rows rows' : List Row} {calls : List Call}
    (h : record ratesFor now rows calls = some rows') : written ratesFor now rows calls = rows' := by
  unfold record at h
  rw [Option.ite_none_right_eq_some] at h
  exact Option.some_inj.mp h.2

/-- A live call is not a row of a batch. -/
theorem filter_recordLive {now : ℤ} {rows rows' : List Row} {call : Call}
    (h : recordLive ratesFor now rows call = some rows') :
    (rows'.filter fun r => r.provider_batch_id.isSome) = rows.filter fun r => r.provider_batch_id.isSome := by
  unfold recordLive at h
  rw [Option.ite_none_left_eq_some] at h
  obtain ⟨hlive, h⟩ := h
  obtain rfl := eq_written_of_record h
  rw [Bool.not_eq_true, Option.isSome_eq_false_iff, Option.isNone_iff_eq_none] at hlive
  unfold written
  cases hrow : row ratesFor now call with
  | none => rw [List.filterMap_cons_none hrow, List.filterMap_nil, List.foldl_nil]
  | some r =>
    obtain ⟨-, -, -, hid, -⟩ := row_some hrow
    rw [hlive] at hid
    have hkey : r.key = none := by rw [Row.key, hid, Option.bind_none]
    have hnew : ¬(r.key.isSome && rows.any fun r' => r'.key == r.key) = true := by
      rw [hkey]
      exact Bool.noConfusion
    have hleft : ¬r.provider_batch_id.isSome = true := by
      rw [hid]
      exact Bool.noConfusion
    rw [List.filterMap_cons_some hrow, List.filterMap_nil, List.foldl_cons, List.foldl_nil, insert, if_neg hnew,
      List.filter_append, List.filter_cons_of_neg (p := fun r : Row => r.provider_batch_id.isSome) hleft,
      List.filter_nil, List.append_nil]

/-- Every step keeps the rows of batches so. -/
theorem Recorded.step (h : Recorded ratesFor answers s) (hnodup : (answers.map BatchResult.key).Nodup)
    (hfrom : From answers s act) (hs : ModelCalls.step ratesFor s act = some s') : Recorded ratesFor answers s' := by
  obtain ⟨items, hshown, hitems, hmem⟩ := h.shown
  cases act with
  | tick seconds =>
    obtain rfl := Option.some_inj.mp hs
    exact ⟨h.collected, items, hshown, hitems, hmem⟩
  | event id batch =>
    obtain rfl := Option.some_inj.mp hs
    refine ⟨h.collected, items, hshown.imp fun r a hshows => ?_, hitems, hmem⟩
    obtain ⟨now, call, hcall, hrow⟩ := hshows
    exact ⟨now, call, callOf_recordEvent hcall, hrow⟩
  | collect results =>
    simp only [ModelCalls.step, Option.map_eq_some_iff] at hs
    obtain ⟨rows, hrows, rfl⟩ := hs
    obtain rfl := eq_written_of_record hrows
    have hitemsFrom : ∀ i ∈ items, i ∈ answers := fun i hi => h.collected i ((hmem i).mp hi).1
    obtain ⟨items', hshown', hitems', hmem'⟩ := shown_results s.clock hnodup hshown hitems hitemsFrom hfrom
    refine ⟨fun a ha => ?_, items', hshown', hitems', fun a => ?_⟩
    · rcases List.mem_append.mp ha with ha | ha
      · exact h.collected a ha
      · exact hfrom a (List.mem_filter.mp ha).1
    · rw [hmem', hmem, List.mem_append, List.mem_filter, or_and_right, and_assoc]
  | live call =>
    simp only [ModelCalls.step, Option.map_eq_some_iff] at hs
    obtain ⟨rows, hrows, rfl⟩ := hs
    refine ⟨h.collected, items, ?_, hitems, hmem⟩
    unfold Shown
    rw [filter_recordLive hrows]
    exact hshown

end Runs

/-- In every run of events, live calls and collections of what the provider has answered, in any order, in any parts
and as often as may be: the totals of a batch are those of its answers that came when its payer was known, each
counted once, and what its rows are charged to is its payer. -/
theorem batch_totals_exact {ratesFor : RatesFor} {clock : ℤ} {batches : String → Option Batch}
    {answers : List BatchResult} (hnodup : (answers.map BatchResult.key).Nodup) {s : State}
    (h : Run (step ratesFor) (From answers) (.start clock batches) s) {id : String} {batch : Batch}
    (hbatch : s.batches id = some batch) :
    batchTotals s.rows id =
        .of ((answers.filter fun a => a.batch_id = id ∧ a ∈ s.collected).filterMap (measureOf ratesFor batch.model)) ∧
      ∀ r ∈ s.rows, r.provider_batch_id = some id → ∃ payer, batch.payer = some payer ∧ r.payer = payer.kind ∧
        r.user_id = payer.userId ∧ r.managed_board_id = payer.managedBoardId := by
  have hrecorded : Recorded ratesFor answers s := by
    have hstart : Recorded ratesFor answers (.start clock batches) := by
      refine ⟨fun a ha => absurd ha List.not_mem_nil, [], .nil, List.nodup_nil, fun a => ?_⟩
      exact ⟨fun ha => absurd ha List.not_mem_nil, fun ha => absurd ha.1 List.not_mem_nil⟩
    exact h.invariant hstart fun _ _ _ hrec hfrom hs => hrec.step hnodup hfrom hs
  obtain ⟨items, hshown, hitems, hmem⟩ := hrecorded.shown
  constructor
  · have hrows : (s.rows.filter fun r => r.provider_batch_id == some id) =
        (s.rows.filter fun r => r.provider_batch_id.isSome).filter fun r => r.provider_batch_id == some id := by
      rw [List.filter_filter]
      refine List.filter_congr fun r _ => ?_
      cases hid : r.provider_batch_id with
      | none => rfl
      | some id' => rw [Option.isSome_some, Bool.and_true]
    have hperm : (items.filter fun a => a.batch_id == id).Perm
        ((answers.filter fun a => a.batch_id = id ∧ a ∈ s.collected).filter billed) := by
      refine (List.perm_ext_iff_of_nodup (hitems.filter _) ((hnodup.of_map.filter _).filter _)).mpr fun a => ?_
      simp only [List.mem_filter, hmem, beq_iff_eq, decide_eq_true_eq]
      constructor
      · rintro ⟨⟨hcollected, hbilled⟩, hid⟩
        exact ⟨⟨hrecorded.collected a hcollected, hid, hcollected⟩, hbilled⟩
      · rintro ⟨⟨-, hid, hcollected⟩, hbilled⟩
        exact ⟨⟨hcollected, hbilled⟩, hid⟩
    have hall : ∀ l : List BatchResult, (l.filter billed).filterMap (measureOf ratesFor batch.model) =
        l.filterMap (measureOf ratesFor batch.model) := by
      intro l
      rw [List.filterMap_filter]
      refine List.filterMap_congr fun a _ => ?_
      split
      · rfl
      · next hbilled => exact (measureOf_unbilled (Bool.not_eq_true _ ▸ hbilled)).symm
    rw [batchTotals, hrows, measures_shown hshown hbatch, totals_perm (hperm.filterMap _), hall]
  · intro r hr hid
    have hsome : r.provider_batch_id.isSome = true := by rw [hid]; rfl
    obtain ⟨a, -, now, call, hcall, hrow⟩ := (exists_of_forall₂ hshown).1 r (List.mem_filter.mpr ⟨hr, hsome⟩)
    obtain ⟨batch', payer, hbatch', hpayer, hcharged, -, -, hname, -⟩ := callOf_some hcall
    obtain ⟨-, -, -, hrowId, -, hkind, huser, hboard, -⟩ := row_some hrow
    have hsame : a.batch_id = id := Option.some_inj.mp (hname.symm.trans (hrowId.symm.trans hid))
    rw [hsame] at hbatch'
    obtain rfl := Option.some_inj.mp (hbatch.symm.trans hbatch')
    rw [hcharged] at hkind huser hboard
    exact ⟨payer, hpayer, hkind, huser, hboard⟩

/-- An answer of a batch. -/
def answerOf (custom_id : String) (tokens : ℤ) : BatchResult :=
  ⟨"batch", custom_id, none, none, none, some ⟨some tokens, some 10, some (tokens + 10), none, none, none⟩, none⟩

/-- What the provider has answered. -/
def twoAnswers : List BatchResult := [answerOf "a" 100, answerOf "b" 200]

/-- A batch of the fleet. -/
def fleetBatch : Batch := ⟨1, "verify", some "model", some .fleet⟩

/-- The batches that are there. -/
def fleetBatches (id : String) : Option Batch := if id = "batch" then some fleetBatch else none

/-- Seven cents are not below zero. -/
theorem seven_cents_nonneg : (0 : ℚ) ≤ 7 / 100 := by decide +kernel

/-- Forty cents are not below zero. -/
theorem forty_cents_nonneg : (0 : ℚ) ≤ 2 / 5 := by decide +kernel

/-- Seven cents for a million tokens in and forty for a million out, half of it in a batch. -/
def centRates : Rates where
  tiers :=
    [{ up_to_prompt_tokens := none
       rate_in := 7 / 100
       rate_out := 2 / 5
       rate_cached_in := none
       in_nonneg := seven_cents_nonneg
       out_nonneg := forty_cents_nonneg
       cached_nonneg := none_nonneg
       write_nonneg := none_nonneg }]
  batch_rate := some (1 / 2)
  tiers_ne := List.cons_ne_nil _ _
  batch_nonneg := half_nonneg
  multiplier_nonneg := none_nonneg

/-- Two answers, of which the first is collected again with the second, are both counted once; the first costs 5.5
millionths of a dollar, and six as its row has it, and the second nine. -/
theorem batch_totals_exact_collected_again : ∃ s,
    Run (step fun _ => some centRates) (From twoAnswers) (.start 0 fleetBatches) s ∧
      batchTotals s.rows "batch" = ⟨300, 20, none, some (15 / 1000000)⟩ := by
  have hany : (runList (guarded (step fun _ => some centRates) (From twoAnswers)) (.start 0 fleetBatches)
      [.collect [answerOf "a" 100], .collect twoAnswers]).any (fun s =>
        decide (s.batches "batch" = some fleetBatch ∧ s.collected = answerOf "a" 100 :: twoAnswers)) = true := by
    decide +kernel
  obtain ⟨s, hrun, hs⟩ := exists_run_of_any hany
  obtain ⟨hbatch, hcollected⟩ := of_decide_eq_true hs
  have hrun := run_of_guarded hrun
  have hnodup : (twoAnswers.map BatchResult.key).Nodup := by decide
  have hexact := (batch_totals_exact hnodup hrun hbatch).1
  rw [hcollected] at hexact
  exact ⟨s, hrun, hexact.trans (by decide +kernel)⟩

end JobScripts.Billing.ModelCalls

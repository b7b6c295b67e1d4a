import JobScripts.Lib.Run
import JobScripts.Models.Pricing
import JobScripts.Queue.Receipts

/-!
# Collecting a filter's results

The end of `execute_batch` in `tasks/filtering/execution.py`: the collected results of a batch are consumed in chunks,
each in one transaction with `consume_results`, and a chunk that raises is consumed again result by result with
`consume_result`. The chunk plans every pending result before it writes, interns each text of instructions once, and
acknowledges its receipts in one statement.

`chunked_eq_per_result` shows that chunks of any size leave what the results leave one by one, whichever chunks fail
besides, and that an error leaves the results before it. The step is `collectChunk_cons`: a chunk that goes through is
its first result, and then the chunk of the others.
-/

namespace JobScripts.Batch.Collection

open Lib
open Models.Pricing (Rates CacheWrite estimateCostUsd estimateCostUsd_nonneg)
open Queue.Receipts (Key Row Receipt lineUp lineUp_spec pendingKeys pendingKeys_cons acknowledge acknowledge_key
  acknowledge_of_notMem)

/-! ## Results -/

/-- An exception. -/
inductive Error
  /-- `result must be checkpointed before consumption` -/
  | notCheckpointed
  /-- A `KeyError`. -/
  | missingKey (key : String)
  /-- `Instruction identity collision or missing content` -/
  | instructionUnavailable
  /-- What the database says of a row that it does not take. -/
  | refused (reason : String)
  /-- The `ValueError` of a counter that would go down. -/
  | negative
  /-- The connection is lost. -/
  | interrupted
  deriving DecidableEq

/-- `mapping[key]`: a key that is missing is an error. -/
def field {α : Type} (mapping : List (String × α)) (key : String) : Except Error α :=
  match mapping.lookup key with
  | some value => .ok value
  | none => .error (.missingKey key)

/-- `FilterSnapshot`: the filter as it was when its batch was submitted. -/
structure FilterSnapshot where
  name : String
  prompt : String
  on_ambiguous : String
  prompt_hash : String

/-- `FilterSnapshot.from_mapping`: the snapshot out of what the batch stored of it. -/
def FilterSnapshot.fromMapping (value : List (String × String)) : Except Error FilterSnapshot := do
  let name ← field value "name"
  let prompt ← field value "prompt"
  let on_ambiguous ← field value "on_ambiguous"
  let prompt_hash ← field value "prompt_hash"
  return ⟨name, prompt, on_ambiguous, prompt_hash⟩

/-- `__dict__`: the fields of a snapshot by their names. -/
def FilterSnapshot.dict (snapshot : FilterSnapshot) : List (String × String) :=
  [("name", snapshot.name), ("prompt", snapshot.prompt), ("on_ambiguous", snapshot.on_ambiguous),
    ("prompt_hash", snapshot.prompt_hash)]

/-- A posting, as the context of a request or the run holds it. -/
abbrev Job := List (String × Option String)

/-- The context of a request. -/
structure Context where
  job : Option Job
  filter : Option (List (String × String))
  page_fetch_id : Option ℕ
  reasoning_effort : Option String
  deriving DecidableEq

/-- The request that a result answers, as it was snapshot. -/
structure Request where
  instructions : String
  context : Option Context
  deriving DecidableEq

/-- The `usage` of a response. -/
structure ProviderUsage where
  input_tokens : Option ℤ
  output_tokens : Option ℤ
  total_tokens : Option ℤ
  cached_tokens : Option ℤ
  cache_write_tokens : Option ℤ
  reasoning_tokens : Option ℤ
  deriving DecidableEq

/-- A collected result. -/
structure BatchResult where
  batch_id : String
  custom_id : String
  text : Option String
  error : Option String
  model : Option String
  usage : Option ProviderUsage
  request : Option Request
  deriving DecidableEq

/-- The key of a result's receipt. -/
def BatchResult.key (result : BatchResult) : Key := (result.batch_id, result.custom_id)

/-- The tokens of a call. -/
structure Usage where
  prompt_tokens : ℤ
  completion_tokens : ℤ
  total_tokens : ℤ
  cached_tokens : ℤ
  cache_write_tokens : Option ℤ
  reasoning_tokens : ℤ

/-- `batch_usage`: `none` is the empty `dict`. -/
def batchUsage (usage : Option ProviderUsage) : Option Usage :=
  usage.map fun values =>
    let prompt := values.input_tokens.getD 0
    let completion := values.output_tokens.getD 0
    let total := values.total_tokens.getD 0
    ⟨prompt, completion, if total = 0 then prompt + completion else total, values.cached_tokens.getD 0,
      values.cache_write_tokens, values.reasoning_tokens.getD 0⟩

/-! ## Verdicts -/

/-- `Verdict`, for a custom check of a batch. -/
structure Verdict where
  url : String
  rejected : Option Bool
  reason : Option String
  parsed_json : Option String
  usage : Option Usage
  model : Option String
  key_source : String
  company : Option String
  job_title : Option String
  instructions : Option String
  page_fetch_id : Option ℕ
  filter_name : String
  prompt_hash : String
  batch_id : String
  error : Option String
  reasoning_effort : Option String

/-- `status`: how a verdict counts, where one without a decision has failed. -/
def Verdict.status (v : Verdict) : String :=
  match v.rejected with
  | none => "failed"
  | some true => "rejected"
  | some false => "passed"

/-- A row of `ai_queries`. -/
structure VerdictRow where
  config_name : String
  url : String
  check_type : String
  status : String
  reason : Option String
  model : Option String
  reasoning_effort : Option String
  filter_name : String
  prompt_hash : String
  company : Option String
  job_title : Option String
  instructions_id : Option ℕ
  parsed_json : Option String
  error : Option String
  batch_id : String
  page_fetch_id : Option ℕ

/-- `row`, with the reference of the instructions. -/
def Verdict.row (v : Verdict) (instructions_id : Option ℕ) : VerdictRow :=
  { config_name := "filter-batch"
    url := v.url
    check_type := "custom"
    status := v.status
    reason := v.reason
    model := v.model
    reasoning_effort := v.reasoning_effort
    filter_name := v.filter_name
    prompt_hash := v.prompt_hash
    company := v.company
    job_title := v.job_title
    instructions_id := instructions_id
    parsed_json := v.parsed_json
    error := v.error
    batch_id := v.batch_id
    page_fetch_id := v.page_fetch_id }

/-- What one pending result writes. -/
structure Collected where
  usage : Option Usage
  model : Option String
  outcome : String
  verdict : Option Verdict

/-- `ExecutionHooks`, as far as collection uses them. `record_usage` writes to the ledger of usage, or raises. -/
structure ExecutionHooks (L : Type) where
  verdict_label : String
  key_source : String
  record_usage : Option Usage → Option String → L → Except Error L

/-- What a run collects with. `validate` reads an answer, `digest` identifies a text of instructions, `refuses` says
of a row that the database does not take it, and `rates` are the published ones. -/
structure Collector (L D : Type) where
  task_id : ℕ
  now : ℕ
  snapshot : FilterSnapshot
  by_url : String → Option Job
  hooks : ExecutionHooks L
  validate : String → Option (Bool × Option String)
  digest : String → D
  refuses : VerdictRow → Option String
  rates : String → Option Rates

/-- The ledger of verdicts, with the texts of instructions that its rows refer to. -/
structure Ledger where
  instructions : List String
  verdicts : List VerdictRow

/-- The database. -/
structure State (R L : Type) where
  receipts : List (Row R)
  ledger : Ledger
  usage : L

section Code

variable {L D R : Type} (x : Collector L D)

/-- `_plan`: what is to be written for a result: its usage, whether it answers a request that is known, and the
verdict, if it can be read. -/
def plan (result : BatchResult) : Except Error Collected := do
  let context := (result.request.bind Request.context).getD ⟨none, none, none, none⟩
  let stored ← FilterSnapshot.fromMapping ((context.filter.filter (· ≠ [])).getD x.snapshot.dict)
  let usage := batchUsage result.usage
  match (context.job.filter (· ≠ [])).or (x.by_url result.custom_id) with
  | none => return ⟨usage, result.model, "unknown_request", none⟩
  | some job =>
    let error := result.error.filter (· ≠ "")
    let text := result.text.filter (· ≠ "")
    let parsed := if error.isNone then text.bind x.validate else none
    let reason :=
      if error.isNone && text.isSome then "batch: unparsable output" else "batch: " ++ error.getD "no output"
    let company ← field job "company"
    let job_title ← field job "title"
    let verdict : Verdict :=
      { url := result.custom_id
        rejected := parsed.map Prod.fst
        reason := (parsed.map Prod.snd).getD (some reason)
        parsed_json := if parsed.isSome then result.text else none
        usage := usage
        model := result.model
        key_source := x.hooks.key_source
        company := company
        job_title := job_title
        instructions := result.request.map Request.instructions
        page_fetch_id := context.page_fetch_id
        filter_name := x.hooks.verdict_label
        prompt_hash := stored.prompt_hash
        batch_id := result.batch_id
        error := result.error
        reasoning_effort := context.reasoning_effort }
    return ⟨usage, result.model, if parsed.isSome then "written" else "failed", some verdict⟩

/-- `results[start : start + size] for start in range(0, len(results), size)`: the results in pieces of one size, the
last as long as it is. -/
def chunks (size : ℕ) (results : List BatchResult) : List (List BatchResult) :=
  (List.range ((results.length + size - 1) / size)).map fun i => (results.drop (i * size)).take size

/-- `count`: the counters go up by the price of the call, if it has one. -/
def count (v : Verdict) : Except Error Unit :=
  match v.usage with
  | none => .ok ()
  | some usage =>
    match estimateCostUsd (v.model.bind x.rates) (some usage.prompt_tokens) (some usage.completion_tokens)
      (some usage.cached_tokens) true none (.receipt usage.cache_write_tokens) with
    | none => .ok ()
    | some cost => if cost < 0 then .error .negative else .ok ()

/-- The rows that `consume_results` locks, of whichever keys: it looks up those of its results. -/
def outcomes (receipts : List (Row R)) : List (Key × Option String) :=
  (receipts.filter fun row => row.task_id = x.task_id).map fun row => (row.key, row.outcome)

/-- The plans of the pending results. -/
def planPending : List (BatchResult × Bool) → Except Error (List (Key × Collected))
  | [] => .ok []
  | (result, pending) :: rest =>
    if pending then do
      let planned ← plan x result
      let more ← planPending rest
      return (result.key, planned) :: more
    else planPending rest

/-- The usage of the planned results, in order. -/
def recordUsages : List (Key × Collected) → L → Except Error L
  | [], usage => .ok usage
  | (_, planned) :: rest, usage => do
    let usage ← x.hooks.record_usage planned.usage planned.model usage
    recordUsages rest usage

variable [DecidableEq D]

/-- `query_instructions.intern`: the reference of a text, which is added where it is new. -/
def intern (digest : String → D) (texts : List String) (text : String) : Except Error (ℕ × List String) :=
  match texts.findIdx? fun t => digest t = digest text with
  | some id => if texts[id]? = some text then .ok (id, texts) else .error .instructionUnavailable
  | none => .ok (texts.length, texts ++ [text])

/-- `_interned`: each text of the rows once, in the order of first use. -/
def interned (digest : String → D) : List (String × ℕ) → List String → List (Option String) →
    Except Error (List (Option ℕ) × List String)
  | _, texts, [] => .ok ([], texts)
  | ids, texts, none :: rest => do
    let (more, texts) ← interned digest ids texts rest
    return (none :: more, texts)
  | ids, texts, some text :: rest =>
    match ids.lookup text with
    | some id => do
      let (more, texts) ← interned digest ids texts rest
      return (some id :: more, texts)
    | none => do
      let (id, texts) ← intern digest texts text
      let (more, texts) ← interned digest ((text, id) :: ids) texts rest
      return (some id :: more, texts)

/-- `record_ai_verdicts`: the rows in one round trip. -/
def recordAiVerdicts (ledger : Ledger) (verdicts : List Verdict) : Except Error Ledger := do
  let (ids, texts) ← interned x.digest [] ledger.instructions (verdicts.map Verdict.instructions)
  let rows := List.zipWith Verdict.row verdicts ids
  match rows.findSome? x.refuses with
  | some reason => .error (.refused reason)
  | none => return ⟨texts, ledger.verdicts ++ rows⟩

/-- `record_ai_verdict`, of the verdict that a result has: its row, and the counters. -/
def recordVerdict (ledger : Ledger) : Option Verdict → Except Error Ledger
  | none => .ok ledger
  | some verdict => do
    let ledger ← recordAiVerdicts x ledger [verdict]
    count x verdict
    return ledger

/-- `_collect_one`, in the transaction of `consume_result`. -/
def collectOne (s : State R L) (result : BatchResult) : Except Error (State R L) :=
  match s.receipts.find? fun row => row.task_id = x.task_id && row.key = result.key with
  | none => .error .notCheckpointed
  | some row =>
    if (Receipt.of row.outcome row.outcome.isNone).pending then do
      let planned ← plan x result
      let ledger ← recordVerdict x s.ledger planned.verdict
      let usage ← x.hooks.record_usage planned.usage planned.model s.usage
      return ⟨s.receipts.map (acknowledge x.task_id x.now [(result.key, planned.outcome)]), ledger, usage⟩
    else .ok s

/-- The results one by one, until one raises. What is committed stays. -/
def collectAll : State R L → List BatchResult → State R L × Option Error
  | s, [] => (s, none)
  | s, result :: rest =>
    match collectOne x s result with
    | .ok s' => collectAll s' rest
    | .error e => (s, some e)

/-- The transaction of `_collect_chunk`, with the verdicts that it wrote. -/
def collectChunkTransaction (s : State R L) (results : List BatchResult) :
    Except Error (State R L × List Verdict) :=
  match lineUp (outcomes x s.receipts) [] (results.map BatchResult.key) with
  | none => .error .notCheckpointed
  | some receipts => do
    let collected ← planPending x (results.zip (receipts.map fun receipt => receipt.2.pending))
    let written := collected.filterMap fun planned => planned.2.verdict
    let ledger ← recordAiVerdicts x s.ledger written
    let usage ← recordUsages x collected s.usage
    let acknowledged := collected.map fun planned => (planned.1, planned.2.outcome)
    return (⟨s.receipts.map (acknowledge x.task_id x.now acknowledged), ledger, usage⟩, written)

/-- `_collect_chunk`: the transaction, and the counters once it is committed. -/
def collectChunk (s : State R L) (results : List BatchResult) : State R L × Option Error :=
  match collectChunkTransaction x s results with
  | .error e => (s, some e)
  | .ok (s', written) =>
    match written.forM (count x) with
    | .ok _ => (s', none)
    | .error e => (s', some e)

/-- The chunk loop: a chunk that raises is collected again result by result. The connection may be lost in any
chunk. -/
def collectChunks (down : ℕ → Bool) : ℕ → State R L → List (List BatchResult) → State R L × Option Error
  | _, s, [] => (s, none)
  | i, s, chunk :: rest =>
    match if down i then (s, some .interrupted) else collectChunk x s chunk with
    | (s', none) => collectChunks down (i + 1) s' rest
    | (s', some _) =>
      match collectAll x s' chunk with
      | (s'', none) => collectChunks down (i + 1) s'' rest
      | (s'', some e) => (s'', some e)

end Code

/-! ## Counters -/

section Proofs

variable {L D R : Type} {x : Collector L D}

/-- A verdict is always counted: no price is negative. -/
theorem count_eq_ok (x : Collector L D) (v : Verdict) : count x v = .ok () := by
  unfold count
  split
  · rfl
  · split
    · rfl
    · next cost hcost =>
      rcases hrates : v.model.bind x.rates with _ | rates
      · rw [hrates] at hcost
        exact absurd hcost nofun
      · rw [hrates] at hcost
        rw [if_neg (not_lt.mpr (estimateCostUsd_nonneg hcost))]

/-- And so are many. -/
theorem forM_count_eq_ok (x : Collector L D) : ∀ written : List Verdict, written.forM (count x) = .ok ()
  | [] => rfl
  | v :: written => by
    show (count x v >>= fun _ => written.forM (count x)) = .ok ()
    rw [count_eq_ok]
    exact forM_count_eq_ok x written

/-! ## Receipts -/

/-- The outcome that a consumer reads at a key. -/
def outcomeAt (x : Collector L D) (receipts : List (Row R)) (key : Key) : Option (Option String) :=
  (receipts.find? fun row => row.task_id = x.task_id && row.key = key).map Row.outcome

/-- A consumer reads the rows of its task. -/
theorem find_outcomes (receipts : List (Row R)) (key : Key) :
    ((outcomes x receipts).find? fun row => row.1 = key).map Prod.snd = outcomeAt x receipts key := by
  have hsame : (fun row : Row R => decide (decide (row.task_id = x.task_id) = true ∧
      ((fun row : Key × Option String => decide (row.1 = key)) ∘ fun row : Row R => (row.key, row.outcome)) row =
        true)) = fun row => row.task_id = x.task_id && row.key = key := by
    funext row
    simp only [Function.comp_apply, decide_eq_true_eq, Bool.decide_and]
  rw [outcomes, List.find?_map, List.find?_filter, Option.map_map, outcomeAt, hsame]
  rfl

/-- Whether a key is pending, when some were seen. -/
def flag (x : Collector L D) (receipts : List (Row R)) (seen : List Key) (key : Key) : Option Bool :=
  (outcomeAt x receipts key).map fun outcome => outcome.isNone && key ∉ seen

/-- What is pending in a chunk, key after key. -/
theorem lineUp_cons (receipts : List (Row R)) (seen : List Key) (key : Key) (keys : List Key) :
    (lineUp (outcomes x receipts) seen (key :: keys)).map (List.map fun receipt => receipt.2.pending) =
      (flag x receipts seen key).bind fun pending =>
        ((lineUp (outcomes x receipts) (key :: seen) keys).map (List.map fun receipt => receipt.2.pending)).map
          (pending :: ·) := by
  have hfind := find_outcomes (x := x) receipts key
  rw [lineUp, flag, ← hfind]
  split
  · next hnone =>
    rw [hnone]
    rfl
  · next key' outcome hsome =>
    rw [hsome]
    rcases lineUp (outcomes x receipts) (key :: seen) keys with _ | rest
    · rfl
    · rfl

/-- What is pending in a chunk depends on what is pending at each key. -/
theorem lineUp_congr {receipts receipts' : List (Row R)} : ∀ {seen seen' : List Key} (keys : List Key),
    (∀ key, flag x receipts seen key = flag x receipts' seen' key) →
    (lineUp (outcomes x receipts) seen keys).map (List.map fun receipt => receipt.2.pending) =
      (lineUp (outcomes x receipts') seen' keys).map (List.map fun receipt => receipt.2.pending)
  | _, _, [], _ => rfl
  | seen, seen', key :: keys, h => by
    have hflag (receipts : List (Row R)) (seen : List Key) (k : Key) :
        flag x receipts (key :: seen) k = (flag x receipts seen k).map fun pending => pending && k ≠ key := by
      rw [flag, flag, Option.map_map]
      refine congrArg (fun f => (outcomeAt x receipts k).map f) (funext fun outcome => ?_)
      simp only [Function.comp_apply, List.mem_cons, not_or, Bool.decide_and, Bool.and_assoc]
      rw [Bool.and_comm (decide (k ∉ seen))]
    have hrest : ∀ k, flag x receipts (key :: seen) k = flag x receipts' (key :: seen') k := fun k => by
      rw [hflag, hflag, h]
    rw [lineUp_cons, lineUp_cons, h, lineUp_congr keys hrest]

/-- An acknowledgement at one key. -/
theorem outcomeAt_acknowledge (receipts : List (Row R)) (key k : Key) (outcome : String) :
    outcomeAt x (receipts.map (acknowledge x.task_id x.now [(key, outcome)])) k =
      if k = key then (outcomeAt x receipts key).map fun _ => some outcome else outcomeAt x receipts k := by
  have hsame : ((fun row : Row R => decide (row.task_id = x.task_id) && decide (row.key = k)) ∘
      acknowledge x.task_id x.now [(key, outcome)]) = fun row => row.task_id = x.task_id && row.key = k := by
    funext row
    obtain ⟨hkey, htask⟩ := acknowledge_key x.task_id x.now [(key, outcome)] row
    rw [Function.comp_apply, hkey, htask]
  rw [outcomeAt, List.find?_map, hsame, Option.map_map]
  split
  · next hk =>
    subst hk
    unfold outcomeAt
    rw [Option.map_map]
    refine Option.map_congr fun row hrow => ?_
    have hfound := List.find?_some hrow
    rw [Bool.and_eq_true, decide_eq_true_eq, decide_eq_true_eq] at hfound
    rw [Function.comp_apply, Function.comp_apply, acknowledge, List.find?_cons, decide_eq_true hfound.2.symm]
    dsimp only
    rw [if_pos hfound.1]
  · next hk =>
    unfold outcomeAt
    refine Option.map_congr fun row hrow => ?_
    have hfound := List.find?_some hrow
    rw [Bool.and_eq_true, decide_eq_true_eq, decide_eq_true_eq] at hfound
    have hnot : row.key ∉ ([(key, outcome)].map fun a => a.1) := by
      rw [List.map_singleton, List.mem_singleton, hfound.2]
      exact hk
    rw [Function.comp_apply, acknowledge_of_notMem hnot]

/-- Acknowledging a receipt and then others is acknowledging all, where it is none of the others. -/
theorem acknowledge_cons {task_id now : ℕ} {key : Key} {outcome : String} {acks : List (Key × String)}
    (hnot : key ∉ acks.map fun a => a.1) (row : Row R) :
    acknowledge task_id now acks (acknowledge task_id now [(key, outcome)] row) =
      acknowledge task_id now ((key, outcome) :: acks) row := by
  by_cases hkey : key = row.key
  · subst hkey
    rw [acknowledge_of_notMem (by rw [(acknowledge_key task_id now _ row).1]; exact hnot)]
    rw [acknowledge, acknowledge, List.find?_cons, List.find?_cons, decide_eq_true (rfl : row.key = row.key)]
  · have hone : row.key ∉ ([(key, outcome)].map fun a => a.1) := by
      rw [List.map_singleton, List.mem_singleton]
      exact fun h => hkey h.symm
    rw [acknowledge_of_notMem hone, acknowledge, acknowledge, List.find?_cons, decide_eq_false hkey]

/-- The receipts line up with the keys. -/
theorem lineUp_keys {outcomes : List (Key × Option String)} :
    ∀ {seen keys : List Key} {receipts : List (Key × Receipt)}, lineUp outcomes seen keys = some receipts → receipts.map Prod.fst = keys
  | _, [], receipts, h => by
    obtain rfl : [] = receipts := Option.some_inj.mp h
    rfl
  | seen, key :: keys, receipts, h => by
    rw [lineUp] at h
    split at h
    · contradiction
    · obtain ⟨rest, hrest, rfl⟩ := Option.map_eq_some_iff.mp h
      rw [List.map_cons, lineUp_keys hrest]

/-- The planned results are those whose receipts are pending. -/
theorem planPending_keys : ∀ {results : List BatchResult} {receipts : List (Key × Receipt)}
    {collected : List (Key × Collected)}, receipts.map Prod.fst = results.map BatchResult.key →
    planPending x (results.zip (receipts.map fun receipt => receipt.2.pending)) = .ok collected →
    collected.map Prod.fst = pendingKeys receipts
  | [], [], collected, _, h => by
    obtain rfl := Except.ok.inj h
    rfl
  | result :: results, (key, receipt) :: receipts, collected, hkeys, h => by
    rw [List.map_cons, List.map_cons, List.cons.injEq] at hkeys
    rw [List.map_cons, List.zip_cons_cons, planPending] at h
    rw [pendingKeys_cons]
    split at h
    · next hpending =>
      obtain ⟨planned, -, h⟩ := exists_of_bind_eq_ok h
      obtain ⟨more, hmore, h⟩ := exists_of_bind_eq_ok h
      obtain rfl := Except.ok.inj h
      rw [if_pos hpending, List.map_cons, planPending_keys hkeys.2 hmore]
      exact congrArg (· :: _) hkeys.1.symm
    · next hpending => rw [if_neg hpending, planPending_keys hkeys.2 h]

/-! ## Instructions -/

variable [DecidableEq D]

section Instructions

variable {digest : String → D} {texts texts' : List String} {text : String} {id : ℕ}

/-- A text that is interned has its reference from then on. -/
theorem intern_intern (h : intern digest texts text = .ok (id, texts')) :
    intern digest texts' text = .ok (id, texts') := by
  unfold intern at h
  split at h
  · next found hfound =>
    split at h
    · next hsame =>
      obtain ⟨rfl, rfl⟩ := Prod.mk.inj (Except.ok.inj h)
      rw [intern, hfound]
      exact if_pos hsame
    · contradiction
  · next hnone =>
    obtain ⟨rfl, rfl⟩ := Prod.mk.inj (Except.ok.inj h)
    have hfind : (texts ++ [text]).findIdx? (fun t => digest t = digest text) = some texts.length := by
      rw [List.findIdx?_append, hnone, Option.none_or, List.findIdx?_cons, if_pos (decide_eq_true rfl),
        Option.map_some, Nat.zero_add]
    have hget : (texts ++ [text])[texts.length]? = some text := List.getElem?_concat_length
    rw [intern, hfind]
    exact if_pos hget

/-- A text that has its reference keeps it when another is interned. -/
theorem intern_keep {other : String} {id' : ℕ} (hknown : intern digest texts text = .ok (id, texts))
    (h : intern digest texts other = .ok (id', texts')) : intern digest texts' text = .ok (id, texts') := by
  unfold intern at h
  split at h
  · split at h
    · obtain ⟨-, rfl⟩ := Prod.mk.inj (Except.ok.inj h)
      exact hknown
    · contradiction
  · obtain ⟨-, rfl⟩ := Prod.mk.inj (Except.ok.inj h)
    unfold intern at hknown
    split at hknown
    · next found hfound =>
      split at hknown
      · next hsame =>
        obtain ⟨rfl, -⟩ := Prod.mk.inj (Except.ok.inj hknown)
        have hfind : (texts ++ [other]).findIdx? (fun t => digest t = digest text) = some found := by
          rw [List.findIdx?_append, hfound, Option.some_or]
        have hget : (texts ++ [other])[found]? = some text := by
          rw [List.getElem?_append_left (List.getElem?_eq_some_iff.mp hsame).1, hsame]
        rw [intern, hfind]
        exact if_pos hget
      · contradiction
    · -- A text that is not found makes the table longer.
      have hlength := congrArg List.length (Prod.mk.inj (Except.ok.inj hknown)).2
      rw [List.length_append, List.length_singleton] at hlength
      omega

/-- The references that are remembered are those that the table would give. -/
def Known (digest : String → D) (ids : List (String × ℕ)) (texts : List String) : Prop :=
  ∀ text id, ids.lookup text = some id → intern digest texts text = .ok (id, texts)

/-- Nothing remembered. -/
theorem known_nil : Known digest [] texts := fun _ _ h => nomatch h

/-- A reference that the table gives is remembered. -/
theorem Known.cons {ids : List (String × ℕ)} (hknown : Known digest ids texts)
    (h : intern digest texts text = .ok (id, texts')) : Known digest ((text, id) :: ids) texts' := by
  intro other id' hlookup
  rw [List.lookup_cons] at hlookup
  by_cases hother : other = text
  · subst hother
    rw [beq_self_eq_true] at hlookup
    obtain rfl := Option.some_inj.mp hlookup
    exact intern_intern h
  · rw [beq_eq_false_iff_ne.mpr hother] at hlookup
    exact intern_keep (hknown other id' hlookup) h

/-- Remembering references saves look-ups, and changes nothing. -/
theorem interned_known : ∀ {ids : List (String × ℕ)} {texts : List String} {rows : List (Option String)},
    Known digest ids texts → interned digest ids texts rows = interned digest [] texts rows
  | _, _, [], _ => by rw [interned, interned]
  | ids, texts, none :: rows, h => by
    rw [interned, interned, interned_known h]
  | ids, texts, some text :: rows, h => by
    rw [interned, interned, List.lookup_nil]
    rcases hlookup : ids.lookup text with _ | id
    · refine bind_congr_ok fun found hfound => ?_
      dsimp only
      rw [interned_known (h.cons hfound), interned_known (known_nil.cons hfound)]
    · dsimp only
      rw [h text id hlookup, interned_known h]
      show _ = (do
        let (more, texts) ← interned digest [(text, id)] texts rows
        return (some id :: more, texts))
      rw [interned_known (known_nil.cons (h text id hlookup))]

/-- Interning row after row is interning the first, and then the others. -/
theorem interned_cons {row : Option String} {rows : List (Option String)} {ids : List (Option ℕ)}
    (h : interned digest [] texts (row :: rows) = .ok (ids, texts')) :
    ∃ id texts₁ more, interned digest [] texts [row] = .ok ([id], texts₁) ∧
      interned digest [] texts₁ rows = .ok (more, texts') ∧ ids = id :: more := by
  rcases row with _ | text
  · rw [interned] at h
    obtain ⟨⟨more, texts₁⟩, hmore, h⟩ := exists_of_bind_eq_ok h
    obtain ⟨rfl, rfl⟩ := Prod.mk.inj (Except.ok.inj h)
    exact ⟨none, texts, more, rfl, hmore, rfl⟩
  · rw [interned, List.lookup_nil] at h
    dsimp only at h
    obtain ⟨⟨id, texts₁⟩, hid, h⟩ := exists_of_bind_eq_ok h
    obtain ⟨⟨more, texts₂⟩, hmore, h⟩ := exists_of_bind_eq_ok h
    obtain ⟨rfl, rfl⟩ := Prod.mk.inj (Except.ok.inj h)
    rw [interned_known (known_nil.cons hid)] at hmore
    refine ⟨some id, texts₁, more, ?_, hmore, rfl⟩
    rw [interned, List.lookup_nil]
    dsimp only
    rw [hid]
    rfl

end Instructions

/-- Writing verdicts in one round trip is writing the first, and then the others. -/
theorem recordAiVerdicts_cons {ledger ledger' : Ledger} {v : Verdict} {verdicts : List Verdict}
    (h : recordAiVerdicts x ledger (v :: verdicts) = .ok ledger') :
    ∃ ledger₁, recordAiVerdicts x ledger [v] = .ok ledger₁ ∧ recordAiVerdicts x ledger₁ verdicts = .ok ledger' := by
  unfold recordAiVerdicts at h
  obtain ⟨⟨ids, texts⟩, hids, h⟩ := exists_of_bind_eq_ok h
  rw [List.map_cons] at hids
  obtain ⟨id, texts₁, more, hid, hmore, rfl⟩ := interned_cons hids
  dsimp only at h
  rw [List.zipWith_cons_cons, List.findSome?_cons] at h
  split at h
  · contradiction
  · next hnone =>
    obtain rfl := Except.ok.inj h
    rcases hrefused : x.refuses (v.row id) with _ | reason
    · rw [hrefused] at hnone
      refine ⟨⟨texts₁, ledger.verdicts ++ [v.row id]⟩, ?_, ?_⟩
      · unfold recordAiVerdicts
        rw [List.map_singleton, hid]
        show (match [v.row id].findSome? x.refuses with
          | some reason => (.error (.refused reason) : Except Error Ledger)
          | none => .ok ⟨texts₁, ledger.verdicts ++ [v.row id]⟩) = _
        rw [List.findSome?_singleton, hrefused]
      · unfold recordAiVerdicts
        rw [hmore]
        show (match (List.zipWith Verdict.row verdicts more).findSome? x.refuses with
          | some reason => (.error (.refused reason) : Except Error Ledger)
          | none => .ok ⟨texts, ledger.verdicts ++ [v.row id] ++ List.zipWith Verdict.row verdicts more⟩) = _
        dsimp only at hnone
        rw [hnone, List.append_assoc]
        rfl
    · rw [hrefused] at hnone
      contradiction

/-- Nothing to write. -/
theorem recordAiVerdicts_nil (ledger : Ledger) : recordAiVerdicts x ledger [] = .ok ledger := by
  unfold recordAiVerdicts
  show Except.ok (⟨ledger.instructions, ledger.verdicts ++ []⟩ : Ledger) = _
  rw [List.append_nil]

/-! ## Chunks -/

variable {s s' : State R L} {result : BatchResult} {results : List BatchResult} {written : List Verdict}

/-- A chunk that goes through, in its parts. -/
theorem collectChunkTransaction_eq_ok (h : collectChunkTransaction x s results = .ok (s', written)) :
    ∃ receipts collected ledger usage,
      lineUp (outcomes x s.receipts) [] (results.map BatchResult.key) = some receipts ∧
      planPending x (results.zip (receipts.map fun receipt => receipt.2.pending)) = .ok collected ∧
      recordAiVerdicts x s.ledger (collected.filterMap fun planned => planned.2.verdict) = .ok ledger ∧
      recordUsages x collected s.usage = .ok usage ∧
      s' = ⟨s.receipts.map
          (acknowledge x.task_id x.now (collected.map fun planned => (planned.1, planned.2.outcome))),
        ledger, usage⟩ := by
  unfold collectChunkTransaction at h
  split at h
  · contradiction
  · next receipts hreceipts =>
    obtain ⟨collected, hcollected, h⟩ := exists_of_bind_eq_ok h
    obtain ⟨ledger, hledger, h⟩ := exists_of_bind_eq_ok h
    obtain ⟨usage, husage, h⟩ := exists_of_bind_eq_ok h
    obtain ⟨rfl, rfl⟩ := Prod.mk.inj (Except.ok.inj h)
    exact ⟨receipts, collected, ledger, usage, hreceipts, hcollected, hledger, husage, rfl⟩

/-- A chunk goes through when its parts do. -/
theorem collectChunkTransaction_of {receipts : List (Key × Receipt)} {collected : List (Key × Collected)}
    {ledger : Ledger} {usage : L} {pendings : List Bool}
    (hreceipts : lineUp (outcomes x s.receipts) [] (results.map BatchResult.key) = some receipts)
    (hpendings : receipts.map (fun receipt => receipt.2.pending) = pendings)
    (hcollected : planPending x (results.zip pendings) = .ok collected)
    (hledger : recordAiVerdicts x s.ledger (collected.filterMap fun planned => planned.2.verdict) = .ok ledger)
    (husage : recordUsages x collected s.usage = .ok usage) :
    ∃ written, collectChunkTransaction x s results = .ok
      (⟨s.receipts.map (acknowledge x.task_id x.now (collected.map fun planned => (planned.1, planned.2.outcome))),
        ledger, usage⟩, written) := by
  refine ⟨collected.filterMap fun planned => planned.2.verdict, ?_⟩
  unfold collectChunkTransaction
  rw [hreceipts]
  dsimp only
  rw [hpendings, hcollected]
  show (recordAiVerdicts x s.ledger _ >>= _) = _
  rw [hledger]
  show (recordUsages x collected s.usage >>= _) = _
  rw [husage]
  rfl

/-- A chunk without results does nothing. -/
theorem collectChunkTransaction_nil (s : State R L) : collectChunkTransaction x s [] = .ok (s, []) := by
  have hack : (acknowledge x.task_id x.now [] : Row R → Row R) = id := rfl
  have hlines : lineUp (outcomes x s.receipts) [] (([] : List BatchResult).map BatchResult.key) = some [] := by
    rw [List.map_nil, lineUp]
  unfold collectChunkTransaction
  rw [hlines]
  dsimp only
  rw [List.zip_nil_left, planPending]
  simp only [bind, Except.bind, List.filterMap_nil, recordAiVerdicts_nil, recordUsages, List.map_nil]
  show Except.ok ((⟨s.receipts.map (acknowledge x.task_id x.now []), s.ledger, s.usage⟩ : State R L), []) = _
  rw [hack, List.map_id]

/-- A pending result that goes through, in its parts. -/
theorem collectOne_of_pending {row : Row R} {planned : Collected} {ledger : Ledger} {usage : L}
    (hrow : s.receipts.find? (fun row => row.task_id = x.task_id && row.key = result.key) = some row)
    (hpending : row.outcome = none) (hplan : plan x result = .ok planned)
    (hledger : recordAiVerdicts x s.ledger planned.verdict.toList = .ok ledger)
    (husage : x.hooks.record_usage planned.usage planned.model s.usage = .ok usage) :
    collectOne x s result = .ok
      ⟨s.receipts.map (acknowledge x.task_id x.now [(result.key, planned.outcome)]), ledger, usage⟩ := by
  have hverdict : recordVerdict x s.ledger planned.verdict = .ok ledger := by
    rcases hv : planned.verdict with _ | verdict
    · rw [hv, Option.toList_none, recordAiVerdicts_nil] at hledger
      exact hledger
    · rw [hv, Option.toList_some] at hledger
      rw [recordVerdict, hledger]
      show (count x verdict >>= fun _ => .ok ledger) = _
      rw [count_eq_ok]
      rfl
  unfold collectOne
  rw [hrow]
  dsimp only
  rw [hpending, if_pos (by rfl), hplan]
  show (recordVerdict x s.ledger planned.verdict >>= _) = _
  rw [hverdict]
  show (x.hooks.record_usage planned.usage planned.model s.usage >>= _) = _
  rw [husage]
  rfl

/-- Writing the verdict of the first result, if there is one, and then the others'. -/
theorem recordAiVerdicts_filterMap {ledger ledger' : Ledger} {key : Key} {planned : Collected}
    {collected : List (Key × Collected)}
    (h : recordAiVerdicts x ledger (((key, planned) :: collected).filterMap fun p => p.2.verdict) = .ok ledger') :
    ∃ ledger₁, recordAiVerdicts x ledger planned.verdict.toList = .ok ledger₁ ∧
      recordAiVerdicts x ledger₁ (collected.filterMap fun p => p.2.verdict) = .ok ledger' := by
  rw [List.filterMap_cons] at h
  rcases hverdict : planned.verdict with _ | verdict
  · rw [hverdict] at h
    exact ⟨ledger, recordAiVerdicts_nil ledger, h⟩
  · rw [hverdict] at h
    exact recordAiVerdicts_cons h

/-- A chunk that goes through is its first result, and then the chunk of the others. -/
theorem collectChunkTransaction_cons (h : collectChunkTransaction x s (result :: results) = .ok (s', written)) :
    ∃ s₁ written₁, collectOne x s result = .ok s₁ ∧ collectChunkTransaction x s₁ results = .ok (s', written₁) := by
  obtain ⟨receipts, collected, ledger, usage, hreceipts, hcollected, hledger, husage, rfl⟩ :=
    collectChunkTransaction_eq_ok h
  have hcons := lineUp_cons (x := x) s.receipts [] result.key (results.map BatchResult.key)
  rw [List.map_cons] at hreceipts
  rw [hreceipts, flag, Option.map_some] at hcons
  rcases houtcome : outcomeAt x s.receipts result.key with _ | outcome
  · rw [houtcome] at hcons
    contradiction
  rw [houtcome, Option.map_some, Option.bind_some] at hcons
  obtain ⟨pendings, hpendings, hflags⟩ := Option.map_eq_some_iff.mp hcons.symm
  obtain ⟨rest, hrest, rfl⟩ := Option.map_eq_some_iff.mp hpendings
  rw [← hflags, List.zip_cons_cons, planPending] at hcollected
  -- What the receipt of the first key says.
  obtain ⟨row, hrow, rfl⟩ := Option.map_eq_some_iff.mp houtcome
  rcases hpending : row.outcome with _ | outcome
  · -- The first result is pending: it is planned, and its key is not pending again.
    rw [hpending, if_pos (by simp)] at hcollected
    obtain ⟨planned, hplan, hcollected⟩ := exists_of_bind_eq_ok hcollected
    obtain ⟨more, hmore, hcollected⟩ := exists_of_bind_eq_ok hcollected
    obtain rfl := Except.ok.inj hcollected
    obtain ⟨ledger₁, hledger₁, hledger⟩ := recordAiVerdicts_filterMap hledger
    rw [recordUsages] at husage
    obtain ⟨usage₁, husage₁, husage⟩ := exists_of_bind_eq_ok husage
    have hnot : result.key ∉ (more.map fun p => (p.1, p.2.outcome)).map fun a => a.1 := by
      have hkeys := planPending_keys (lineUp_keys hrest) hmore
      have hseen := (lineUp_spec hrest).2 result.key
      rw [List.map_map]
      rw [← hkeys] at hseen
      exact fun hmem => (hseen hmem).2 List.mem_cons_self
    -- The first result by itself.
    have hone := collectOne_of_pending hrow hpending hplan hledger₁ husage₁
    -- The receipts that the rest of the chunk finds are those that it leaves.
    have hcongr : ∀ k, flag x s.receipts [result.key] k =
        flag x (s.receipts.map (acknowledge x.task_id x.now [(result.key, planned.outcome)])) [] k := by
      intro k
      rw [flag, flag, outcomeAt_acknowledge]
      split
      · next hk =>
        subst hk
        rw [houtcome]
        simp
      · next hk =>
        refine congrArg (fun f => (outcomeAt x s.receipts k).map f) (funext fun outcome => ?_)
        simp [hk]
    have hlines := lineUp_congr (results.map BatchResult.key) hcongr
    rw [hrest, Option.map_some] at hlines
    obtain ⟨receipts₁, hreceipts₁, hsame⟩ := Option.map_eq_some_iff.mp hlines.symm
    obtain ⟨written₁, hchunk⟩ := collectChunkTransaction_of (s := ⟨s.receipts.map (acknowledge x.task_id x.now
      [(result.key, planned.outcome)]), ledger₁, usage₁⟩) hreceipts₁ hsame hmore hledger husage
    refine ⟨_, written₁, hone, ?_⟩
    rw [hchunk, List.map_map, List.map_cons]
    refine congrArg (fun f => Except.ok ((⟨s.receipts.map f, ledger, usage⟩ : State R L), written₁)) ?_
    exact funext fun row => acknowledge_cons hnot row
  · -- It is not: nothing is done for it.
    rw [hpending, if_neg (by simp)] at hcollected
    have hone : collectOne x s result = .ok s := by
      unfold collectOne
      rw [hrow]
      dsimp only
      rw [hpending, if_neg (by simp [Receipt.of])]
    have hcongr : ∀ k, flag x s.receipts [result.key] k = flag x s.receipts [] k := by
      intro k
      by_cases hk : k = result.key
      · subst hk
        rw [flag, flag, houtcome, hpending]
        rfl
      · refine congrArg (fun f => (outcomeAt x s.receipts k).map f) (funext fun outcome => ?_)
        simp [hk]
    have hlines := lineUp_congr (results.map BatchResult.key) hcongr
    rw [hrest, Option.map_some] at hlines
    obtain ⟨receipts₁, hreceipts₁, hsame⟩ := Option.map_eq_some_iff.mp hlines.symm
    obtain ⟨written₁, hchunk⟩ := collectChunkTransaction_of hreceipts₁ hsame hcollected hledger husage
    exact ⟨s, written₁, hone, hchunk⟩

/-- A chunk that goes through leaves what its results leave one by one. -/
theorem collectAll_of_transaction : ∀ {results : List BatchResult} {s : State R L} {written : List Verdict},
    collectChunkTransaction x s results = .ok (s', written) → collectAll x s results = (s', none)
  | [], s, written, h => by
    rw [collectChunkTransaction_nil] at h
    obtain ⟨rfl, -⟩ := Prod.mk.inj (Except.ok.inj h)
    rfl
  | result :: results, s, written, h => by
    obtain ⟨s₁, written₁, hone, hrest⟩ := collectChunkTransaction_cons h
    rw [collectAll, hone]
    exact collectAll_of_transaction hrest

/-- A chunk leaves what its results leave one by one, or nothing. -/
theorem collectChunk_cases (x : Collector L D) (s : State R L) (results : List BatchResult) :
    (∃ s', collectChunk x s results = (s', none) ∧ collectAll x s results = (s', none)) ∨
      ∃ e, collectChunk x s results = (s, some e) := by
  unfold collectChunk
  rcases h : collectChunkTransaction x s results with e | ⟨s', written⟩
  · exact .inr ⟨e, rfl⟩
  · dsimp only
    rw [forM_count_eq_ok]
    exact .inl ⟨s', rfl, collectAll_of_transaction h⟩

/-- Results one by one, in two parts. -/
theorem collectAll_append (x : Collector L D) : ∀ (s : State R L) (results more : List BatchResult),
    collectAll x s (results ++ more) =
      match collectAll x s results with
      | (s', none) => collectAll x s' more
      | (s', some e) => (s', some e)
  | s, [], more => rfl
  | s, result :: results, more => by
    rw [List.cons_append, collectAll, collectAll]
    rcases collectOne x s result with e | s'
    · rfl
    · exact collectAll_append x s' results more

/-- The chunk loop leaves what the results leave one by one, whichever chunks lose the connection. -/
theorem collectChunks_eq (x : Collector L D) (down : ℕ → Bool) : ∀ (i : ℕ) (s : State R L)
    (chunks : List (List BatchResult)), collectChunks x down i s chunks = collectAll x s chunks.flatten
  | _, _, [] => rfl
  | i, s, chunk :: rest => by
    have hcases : (∃ s', (if down i then (s, some Error.interrupted) else collectChunk x s chunk) = (s', none) ∧
        collectAll x s chunk = (s', none)) ∨
        ∃ e, (if down i then (s, some Error.interrupted) else collectChunk x s chunk) = (s, some e) := by
      rcases hdown : down i with _ | _
      · rw [if_neg Bool.false_ne_true]
        exact collectChunk_cases x s chunk
      · exact .inr ⟨.interrupted, if_pos rfl⟩
    rw [List.flatten_cons, collectAll_append, collectChunks]
    rcases hcases with ⟨s', hchunk, hall⟩ | ⟨e, hchunk⟩
    · rw [hchunk, hall]
      exact collectChunks_eq x down (i + 1) s' rest
    · -- The chunk is collected again, from the state before it.
      rw [hchunk]
      dsimp only
      rcases collectAll x s chunk with ⟨s', _ | e'⟩
      · exact collectChunks_eq x down (i + 1) s' rest
      · rfl

end Proofs

/-- The first chunks are the first results. -/
theorem flatten_chunks (size : ℕ) (results : List BatchResult) : ∀ n : ℕ,
    ((List.range n).map fun i => (results.drop (i * size)).take size).flatten = results.take (n * size)
  | 0 => by rw [List.range_zero, Nat.zero_mul, List.take_zero]; rfl
  | n + 1 => by
    rw [List.range_succ, List.map_append, List.flatten_append, flatten_chunks size results n, List.map_singleton,
      List.flatten_singleton, Nat.succ_mul, List.take_add]

/-- The chunks are the results. -/
theorem chunks_flatten {size : ℕ} (hsize : 0 < size) (results : List BatchResult) :
    (chunks size results).flatten = results := by
  rw [chunks, flatten_chunks]
  refine List.take_of_length_le ?_
  have hdiv := Nat.div_add_mod (results.length + size - 1) size
  have hmod := Nat.mod_lt (results.length + size - 1) hsize
  rw [Nat.mul_comm]
  omega

/-- An error leaves the results before it, and nothing of the others. -/
theorem collectAll_error {L D R : Type} [DecidableEq D] {x : Collector L D} {e : Error} :
    ∀ {s s' : State R L} {results : List BatchResult}, collectAll x s results = (s', some e) →
      ∃ before result after, results = before ++ result :: after ∧ collectAll x s before = (s', none) ∧
        collectOne x s' result = .error e
  | _, _, [], h => nomatch h
  | s, s', result :: results, h => by
    rw [collectAll] at h
    rcases hone : collectOne x s result with e' | s₁
    · rw [hone] at h
      obtain ⟨rfl, he⟩ := Prod.mk.inj h
      obtain rfl := Option.some_inj.mp he
      exact ⟨[], result, results, rfl, rfl, hone⟩
    · rw [hone] at h
      obtain ⟨before, failing, after, rfl, hbefore, hfailing⟩ := collectAll_error h
      refine ⟨result :: before, failing, after, rfl, ?_, hfailing⟩
      rw [collectAll, hone]
      exact hbefore

/-- Chunks of any size leave the receipts, the verdicts and the usage that the results leave one by one, with the same
error, whichever chunks fail besides. And an error leaves exactly the results before the one that raised it. -/
theorem chunked_eq_per_result {L D R : Type} [DecidableEq D] (x : Collector L D) (down : ℕ → Bool) {size : ℕ}
    (hsize : 0 < size) (s : State R L) (results : List BatchResult) :
    collectChunks x down 0 s (chunks size results) = collectAll x s results ∧
      ∀ s' e, collectAll x s results = (s', some e) →
        ∃ before result after, results = before ++ result :: after ∧ collectAll x s before = (s', none) ∧
          collectOne x s' result = .error e := by
  refine ⟨?_, fun s' e h => collectAll_error h⟩
  rw [collectChunks_eq, chunks_flatten hsize]

/-- `_book` of a batched call: its row is in the ledger since the checkpoint, and only its tokens are counted. -/
def recordTokens {L : Type} (usage : Option Usage) (_ : Option String) (ledger : L) : Except Error L :=
  match usage with
  | none => .ok ledger
  | some usage => if usage.total_tokens < 0 then .error .negative else .ok ledger

/-- A run whose answers are read from two texts. -/
def twoAnswers : Collector Unit String where
  task_id := 1
  now := 0
  snapshot := ⟨"filter", "prompt", "keep", "hash"⟩
  by_url := fun _ => none
  hooks := ⟨"user1:filter", "owner", recordTokens⟩
  validate := fun text =>
    if text = "keep" then some (false, none) else if text = "drop" then some (true, none) else none
  digest := id
  refuses := fun _ => none
  rates := fun _ => none

/-- A result on a posting with the given fields. -/
def resultOn (custom_id text : String) (job : Job) : BatchResult :=
  ⟨"batch", custom_id, some text, none, none, none, some ⟨"instructions", some ⟨some job, none, none, none⟩⟩⟩

/-- A result that comes twice, one that is not an answer, one on a posting without a company, and one after it. -/
def poisonedResults : List BatchResult :=
  [resultOn "a" "keep" [("company", some "A"), ("title", none)],
    resultOn "a" "drop" [("company", none), ("title", none)],
    resultOn "b" "?" [("company", some "B"), ("title", none)],
    resultOn "c" "keep" [("title", none)],
    resultOn "d" "keep" [("company", some "D"), ("title", none)]]

/-- Their receipts, all pending. -/
def poisonedState : State Unit Unit :=
  ⟨["a", "b", "c", "d"].map fun custom_id =>
    { key := ("batch", custom_id), task_id := 1, response := (), model := none }, ⟨[], []⟩, ()⟩

/-- `chunked_eq_per_result` where a result raises: the ones before it are written, and a second answer is not. -/
theorem chunked_eq_per_result_poisoned :
    collectChunks twoAnswers (fun _ => false) 0 poisonedState (chunks 2 poisonedResults) =
        collectAll twoAnswers poisonedState poisonedResults ∧
      (collectAll twoAnswers poisonedState poisonedResults).2 = some (.missingKey "company") ∧
      (collectAll twoAnswers poisonedState poisonedResults).1.receipts.map Row.outcome =
        [some "written", some "failed", none, none] ∧
      (collectAll twoAnswers poisonedState poisonedResults).1.ledger.verdicts.map VerdictRow.status =
        ["passed", "failed"] :=
  ⟨(chunked_eq_per_result twoAnswers (fun _ => false) (by decide) poisonedState poisonedResults).1,
    by decide +kernel, by decide +kernel, by decide +kernel⟩

end JobScripts.Batch.Collection

import Mathlib.Algebra.Order.Ring.Int
import Mathlib.Data.List.Dedup
import Mathlib.Data.List.Flatten
import Mathlib.Data.Rat.Defs

/-!
# Submitting along the fallback chain

`_submit` of `batching.py` over `submit_batches` of `core/batch`: the requests are cut into waves, each
wave is accepted, refused because the account cannot pay, or fails for another reason, and what a
refusal leaves unsent goes to the next model of the chain. What the providers and the database answer
is a parameter (`World`), one answer for each wave of each model.

A call of `submit_batches` splits its requests into the waves it sent and what it never sent, in order
(`submitBatches_split`), and the next call takes the unsent ones, so the waves of all calls and the last
unsent requests are the requests themselves (`submitLoop_spec`). The count of requests that a call sent is
the requests less the unsent ones, which also counts the waves that failed. The count goes to
`model_fallback.record`, and into the committed spend that `check_fleet_budget` is given before a further
call: `submit_partitions` says that the accounting is right exactly when no call whose count goes to either
has both an accepted and a failed wave.
-/

namespace JobScripts.Batch

/-! ## Requests and waves -/

/-- `BatchEndpoint`: what a batch asks for, texts or embeddings. -/
inductive Endpoint
  | responses
  | embeddings
  deriving DecidableEq

/-- `BatchSpec`. Texts are code points, and `J` stands for JSON objects. -/
structure BatchSpec (J : Type) where
  custom_id : List ℕ
  instructions : List ℕ := []
  input : List ℕ := []
  schema_name : List ℕ := []
  schema : J
  context : Option J := none
  endpoint : Endpoint := .responses
  inputs : Option (List (List ℕ)) := none

/-- `BATCH_MAX_REQUESTS`: the requests that one batch may hold. -/
def batchMaxRequests : ℕ := 50000

/-- `BATCH_TOKEN_BUDGET`: the estimated tokens that one batch may hold. -/
def batchTokenBudget : ℕ := 1800000

/-- `BATCH_CHARS_PER_TOKEN`: the characters that count as one token in an estimate. -/
def batchCharsPerToken : ℕ := 4

variable {J : Type}

/-- `_estimate_tokens`: a token for every four characters of the request, and for a response all that it may
answer. -/
def estimateTokens (spec : BatchSpec J) (max_output_tokens : ℕ) : ℕ :=
  (spec.instructions.length +
    match spec.inputs with
    | some inputs => (inputs.map List.length).sum
    | none => spec.input.length) / batchCharsPerToken +
  if spec.endpoint = .responses then max_output_tokens else 0

/-- The inputs that a request counts for. -/
def inputCount (spec : BatchSpec J) : ℕ :=
  match spec.inputs with
  | some inputs => inputs.length
  | none => 1

/-- The loop of `_chunk_specs`, with the wave being filled and its running totals. -/
def chunkLoop (max_output_tokens : ℕ) : List (BatchSpec J) → List (BatchSpec J) → ℕ → ℕ →
    List (List (BatchSpec J)) → Except String (List (List (BatchSpec J)))
  | [], current, _, _, chunks => .ok (if current = [] then chunks else chunks ++ [current])
  | spec :: specs, current, running, inputs, chunks =>
    let count := inputCount spec
    if count > batchMaxRequests then
      .error "one request exceeds the provider embedding input limit"
    else
      let cost := estimateTokens spec max_output_tokens
      if current ≠ [] ∧ (running + cost > batchTokenBudget ∨ current.length ≥ batchMaxRequests ∨
          inputs + count > batchMaxRequests) then
        chunkLoop max_output_tokens specs [spec] cost count (chunks ++ [current])
      else
        chunkLoop max_output_tokens specs (current ++ [spec]) (running + cost) (inputs + count) chunks

/-- `_chunk_specs`: the waves of a submission. -/
def chunkSpecs (specs : List (BatchSpec J)) (max_output_tokens : ℕ) :
    Except String (List (List (BatchSpec J))) :=
  chunkLoop max_output_tokens specs [] 0 0 []

/-- What a provider answers to a wave: the batch's id, a refusal because the account cannot pay, or
another error. -/
inductive Outcome
  | accepted (id : String)
  | exhausted (reason : String)
  | failed (error : String)

/-- What the providers, the configuration and the database answer. Blocked providers and the ceiling may
differ at each refusal, so those are asked with its number. -/
structure World (J : Type) where
  /-- `batch_capabilities.unavailable_reason` of a model. -/
  unavailable : String → Option String
  /-- `providers.provider_of` a model. -/
  provider : String → Option String
  /-- The provider's client can be made. -/
  client : String → Bool
  /-- `anthropic.request_params` refuses a request before anything is sent. -/
  refuses : String → BatchSpec J → Option String
  /-- The answer to a wave of a model, by its index. -/
  wave : String → ℕ → Outcome
  /-- The models that the purpose may fall back to, in order. -/
  chain : List String
  /-- An entry of the chain that routing accepts and whose provider is neither marked nor without a
  key, at a refusal. -/
  eligible : ℕ → String → Bool
  /-- `check_fleet_budget` raises, at a refusal. -/
  overBudget : ℕ → ℚ → Bool

/-- A wave that a provider answered, other than by a refusal that ends the submission. -/
structure Wave (J : Type) where
  chunk : List (BatchSpec J)
  outcome : Outcome

/-- How `submit_batches` ends. -/
inductive Submitted (J : Type)
  | returned (ids : List String)
  | exhausted (provider reason : String) (accepted : List String) (unsubmitted : List (BatchSpec J))
  | raised (error : String)

/-- The loop of `submit_batches` over its waves, with the waves that were answered. -/
def submitWaves (provider : Option String) (answer : ℕ → Outcome) : ℕ → List (List (BatchSpec J)) →
    List String → Option String → List (Wave J) × Submitted J
  | _, [], ids, refusal =>
    ([], match ids, refusal with
      | [], some error => .raised ("no batches were accepted by the provider: " ++ error)
      | ids, _ => .returned ids)
  | index, chunk :: chunks, ids, refusal =>
    match answer index, provider with
    | .accepted id, _ =>
      let rest := submitWaves provider answer (index + 1) chunks (ids ++ [id]) refusal
      (⟨chunk, .accepted id⟩ :: rest.1, rest.2)
    | .exhausted reason, some vendor => ([], .exhausted vendor reason ids (chunk :: chunks).flatten)
    -- `exhaustion_reason` knows no markers of a model without a provider.
    | .exhausted error, none | .failed error, _ =>
      let rest := submitWaves provider answer (index + 1) chunks ids (some error)
      (⟨chunk, .failed error⟩ :: rest.1, rest.2)

/-- `submit_batches`, with the waves that were answered. -/
def submitBatches (W : World J) (max_output_tokens : ℕ) (specs : List (BatchSpec J))
    (model : String) : List (Wave J) × Submitted J :=
  match W.unavailable model with
  | some reason => ([], .raised ("BATCH_UNSUPPORTED: " ++ model ++ ": " ++ reason))
  | none =>
    if !W.client model || specs.isEmpty then ([], .returned [])
    else if (specs.map BatchSpec.endpoint).dedup.length ≠ 1 then
      ([], .raised "a provider submission must contain exactly one endpoint")
    else match specs.findSome? (W.refuses model) with
      | some error => ([], .raised error)
      | none => match chunkSpecs specs max_output_tokens with
        | .error error => ([], .raised error)
        | .ok chunks => submitWaves (W.provider model) (W.wave model) 1 chunks [] none

/-! ## The loop over the chain -/

/-- The arguments of `_submit`. The shape is given by what `_per_call` estimates for each model. -/
structure Job where
  model : String
  max_output_tokens : ℕ
  shape : Option (String → ℚ)
  purpose : Option String
  fleet : Bool
  primary : String

/-- `_per_call`: what one request of the task costs on a model, nothing where the task has no shape. -/
def perCall (shape : Option (String → ℚ)) (model : String) : ℚ :=
  match shape with
  | some cost => cost model
  | none => 0

/-- One call of `submit_batches`: the model, the requests, the waves that were answered, the requests
that were never sent, and whether `check_fleet_budget` is asked before a further call. -/
structure Call (J : Type) where
  model : String
  specs : List (BatchSpec J)
  waves : List (Wave J)
  unsent : List (BatchSpec J)
  checked : Bool

/-- How `_submit` ends. -/
inductive Ended
  | returned (ids : List String)
  | exhausted (reason : String)
  | overBudget
  | raised (error : String)

/-- What `_submit` did: its calls, the requests it counted as sent on a model for `record` and in the
committed spend that `check_fleet_budget` is given, and how it ended. -/
structure Trace (J : Type) where
  calls : List (Call J)
  recorded : List (String × ℕ)
  committed : List (String × ℕ)
  ended : Ended

/-- One more call in front of what follows it, with its counts. -/
def Trace.cons (call : Call J) (recorded committed : List (String × ℕ)) (rest : Trace J) : Trace J where
  calls := call :: rest.calls
  recorded := recorded ++ rest.recorded
  committed := committed ++ rest.committed
  ended := rest.ended

/-- `next_for`: the first entry of the chain that was not tried, is not of the provider that refused, and
can run. -/
def nextFor (W : World J) (tried : List String) (refused : String) (n : ℕ) : Option String :=
  W.chain.find? fun model =>
    !decide (model ∈ tried) && !decide (W.provider model = some refused) && W.eligible n model

/-- The loop of `_submit`, its calls bounded by fuel: the requests left, the model, the models tried,
the committed spend, the ids accepted and the number of refusals. -/
def submitLoop (W : World J) (job : Job) : ℕ → List (BatchSpec J) → String →
    List String → ℚ → List String → ℕ → Option (Trace J)
  | 0, _, _, _, _, _, _ => none
  | fuel + 1, specs, model, tried, committed, ids, n =>
    let (waves, submitted) := submitBatches W job.max_output_tokens specs model
    match submitted with
    | .raised error =>
      -- Waves that failed were sent; a submission refused before its first wave sent nothing.
      some ⟨[⟨model, specs, waves, if waves = [] then specs else [], false⟩], [], [], .raised error⟩
    | .returned accepted =>
      let sent := specs.length
      let recorded := if accepted ≠ [] ∧ model ≠ job.primary ∧ job.purpose.isSome then [(model, sent)]
        else []
      -- The spend that this call commits is given to nobody.
      some ⟨[⟨model, specs, waves, if waves = [] then specs else [], false⟩], recorded, [],
        .returned (ids ++ accepted)⟩
    | .exhausted provider reason accepted unsent =>
      let sent := specs.length - unsent.length
      let recorded := if accepted ≠ [] ∧ model ≠ job.primary ∧ job.purpose.isSome then [(model, sent)]
        else []
      let committed := if accepted ≠ [] then committed + perCall job.shape model * sent else committed
      let ids := ids ++ accepted
      let call (checked : Bool) : Call J := ⟨model, specs, waves, unsent, checked⟩
      match if job.shape.isSome then nextFor W tried provider n else none with
      | none =>
        some ⟨[call false], recorded, [], if ids ≠ [] then .returned ids else .exhausted reason⟩
      | some choice =>
        -- The ceiling is checked for the fleet only, with the spend committed by this call and before.
        let counted := if accepted ≠ [] ∧ job.fleet then [(model, sent)] else []
        if job.fleet ∧ W.overBudget n (committed + perCall job.shape choice * unsent.length) then
          some ⟨[call job.fleet], recorded, counted, if ids ≠ [] then .returned ids else .overBudget⟩
        else
          (submitLoop W job fuel unsent choice (tried ++ [choice]) committed ids (n + 1)).map
            (Trace.cons (call job.fleet) recorded counted)

/-- `_submit`: the requests are submitted to the first model of the chain that takes them. -/
def submit (W : World J) (job : Job) (specs : List (BatchSpec J)) : Option (Trace J) :=
  submitLoop W job (W.chain.length + 1) specs job.model [job.model] 0 [] 0

/-! ## What a trace shows -/

/-- The wave was accepted. -/
def Wave.isAccepted (w : Wave J) : Bool :=
  match w.outcome with
  | .accepted _ => true
  | _ => false

/-- The accepted waves of a call. -/
def Call.accepted (c : Call J) : List (Wave J) := c.waves.filter Wave.isAccepted

/-- The waves of a call that failed for another reason than exhaustion. -/
def Call.failed (c : Call J) : List (Wave J) := c.waves.filter fun w => !w.isAccepted

/-- The requests of some waves, in order. -/
def requests (waves : List (Wave J)) : List (BatchSpec J) := waves.flatMap Wave.chunk

/-- The id of an accepted wave. -/
def Wave.id? (w : Wave J) : Option String :=
  match w.outcome with
  | .accepted id => some id
  | _ => none

/-- The requests that were unsent when the chain ended: those of the last call. -/
def Trace.unsent (t : Trace J) : List (BatchSpec J) :=
  match t.calls.getLast? with
  | some c => c.unsent
  | none => []

/-- The requests in the accepted waves of a model. -/
def Trace.acceptedOn (t : Trace J) (model : String) : ℕ :=
  (requests ((t.calls.filter fun c => decide (c.model = model)).flatMap Call.accepted)).length

/-- The accounting that `_submit` promises for its requests. -/
structure Partitions (specs : List (BatchSpec J)) (t : Trace J) : Prop where
  /-- No two calls are on one model. -/
  once_per_model : (t.calls.map Call.model).Nodup
  /-- No request is in two accepted waves. -/
  accepted_once : ((requests (t.calls.flatMap Call.accepted)).map BatchSpec.custom_id).Nodup
  /-- A request of an accepted wave is not submitted again. -/
  never_resent : t.calls.Pairwise fun c c' =>
    ∀ spec ∈ requests c.accepted, spec.custom_id ∉ c'.specs.map BatchSpec.custom_id
  /-- A request in no accepted wave was in a wave that failed, or is unsent. -/
  accounted : ∀ spec ∈ specs, spec ∈ requests (t.calls.flatMap Call.accepted) ∨
    spec ∈ requests (t.calls.flatMap Call.failed) ∨ spec ∈ t.unsent
  /-- The ids returned are those of the accepted waves, in order. -/
  ids : ∀ ids, t.ended = .returned ids →
    ids = (t.calls.flatMap Call.accepted).filterMap Wave.id?
  /-- The requests counted as sent on a model are those of its accepted waves. -/
  counted : ∀ e ∈ t.recorded ++ t.committed, e.2 = t.acceptedOn e.1

/-! ## One submission -/

/-- The loop of `_chunk_specs` keeps the requests in order and fills no empty wave. -/
theorem chunkLoop_spec {m : ℕ} {specs current : List (BatchSpec J)} {running inputs : ℕ}
    {chunks out : List (List (BatchSpec J))}
    (h : chunkLoop m specs current running inputs chunks = .ok out) (hne : ∀ c ∈ chunks, c ≠ []) :
    out.flatten = chunks.flatten ++ current ++ specs ∧ ∀ c ∈ out, c ≠ [] := by
  induction specs generalizing current running inputs chunks with
  | nil =>
    unfold chunkLoop at h
    obtain rfl := Except.ok.inj h
    split
    · rename_i hcur
      simpa [hcur] using hne
    · rename_i hcur
      refine ⟨by simp, fun c hc => ?_⟩
      rcases List.mem_append.1 hc with hc | hc
      · exact hne c hc
      · rw [List.mem_singleton.1 hc]
        exact hcur
  | cons spec specs ih =>
    simp only [chunkLoop] at h
    split at h
    · contradiction
    split at h
    · rename_i hfull
      have hne' : ∀ c ∈ chunks ++ [current], c ≠ [] := by
        intro c hc
        rcases List.mem_append.1 hc with hc | hc
        · exact hne c hc
        · rw [List.mem_singleton.1 hc]
          exact hfull.1
      simpa using ih h hne'
    · simpa using ih h hne

/-- The requests that `submit_batches` says it never sent. -/
def Submitted.unsubmitted : Submitted J → List (BatchSpec J)
  | .exhausted _ _ _ unsent => unsent
  | _ => []

/-- The ids that `submit_batches` gives back, also when it raises the refusal. -/
def Submitted.ids : Submitted J → List String
  | .returned ids => ids
  | .exhausted _ _ ids _ => ids
  | .raised _ => []

/-- A first part of the waves is answered, and the ids are those of the accepted ones after the ids there
were. -/
structure WavesSplit (chunks : List (List (BatchSpec J))) (ids : List String)
    (result : List (Wave J) × Submitted J) : Prop where
  requests : requests result.1 ++ result.2.unsubmitted = chunks.flatten
  ids : result.2.ids = ids ++ result.1.filterMap Wave.id?
  chunk : ∀ w ∈ result.1, w.chunk ∈ chunks

/-- One more wave that is answered. -/
theorem WavesSplit.cons {chunks : List (List (BatchSpec J))} {ids : List String} {w : Wave J}
    {result : List (Wave J) × Submitted J} (h : WavesSplit chunks (ids ++ w.id?.toList) result) :
    WavesSplit (w.chunk :: chunks) ids (w :: result.1, result.2) := by
  refine ⟨?_, ?_, fun w' hw' => ?_⟩
  · show w.chunk ++ Batch.requests result.1 ++ _ = _
    rw [List.append_assoc, h.requests, List.flatten_cons]
  · rw [h.ids, List.append_assoc]
    cases hid : w.id? with
    | none => simp [hid]
    | some id => simp [hid]
  · rcases List.mem_cons.1 hw' with rfl | hw'
    · exact List.mem_cons_self
    · exact List.mem_cons_of_mem _ (h.chunk w' hw')

/-- The loop of `submit_batches` answers a first part of the waves. -/
theorem submitWaves_split (provider : Option String) (answer : ℕ → Outcome) (index : ℕ)
    (chunks : List (List (BatchSpec J))) (ids : List String) (refusal : Option String) :
    WavesSplit chunks ids (submitWaves provider answer index chunks ids refusal) := by
  induction chunks generalizing index ids refusal with
  | nil =>
    unfold submitWaves
    constructor
    · cases ids <;> cases refusal <;> simp [requests, Submitted.unsubmitted]
    · cases ids <;> cases refusal <;> simp [Submitted.ids]
    · simp
  | cons chunk chunks ih =>
    have hfail : ∀ error : String, WavesSplit (chunk :: chunks) ids
        (⟨chunk, .failed error⟩ :: (submitWaves provider answer (index + 1) chunks ids
          (some error)).1, (submitWaves provider answer (index + 1) chunks ids (some error)).2) := by
      intro error
      refine WavesSplit.cons (w := ⟨chunk, .failed error⟩) ?_
      simpa [Wave.id?] using ih (index + 1) ids (some error)
    cases hans : answer index with
    | accepted id =>
      simp only [submitWaves, hans]
      exact WavesSplit.cons (w := ⟨chunk, .accepted id⟩) (ih (index + 1) (ids ++ [id]) refusal)
    | failed error =>
      simp only [submitWaves, hans]
      exact hfail error
    | exhausted reason =>
      cases provider with
      | none =>
        simp only [submitWaves, hans]
        exact hfail reason
      | some vendor =>
        simp only [submitWaves, hans]
        constructor <;> simp [requests, Submitted.unsubmitted, Submitted.ids]

/-- What one call never sent: what the refusal says, or all of it when no wave was answered. -/
def unsentOf (specs : List (BatchSpec J)) (waves : List (Wave J)) : Submitted J → List (BatchSpec J)
  | .exhausted _ _ _ unsent => unsent
  | _ => if waves = [] then specs else []

/-- A call splits its requests into the waves that were answered and what was never sent. -/
theorem submitBatches_split (W : World J) (m : ℕ) (specs : List (BatchSpec J)) (model : String) :
    requests (submitBatches W m specs model).1 ++
        unsentOf specs (submitBatches W m specs model).1 (submitBatches W m specs model).2 = specs ∧
      (submitBatches W m specs model).2.ids = (submitBatches W m specs model).1.filterMap Wave.id? ∧
      ∀ w ∈ (submitBatches W m specs model).1, w.chunk ≠ [] := by
  unfold submitBatches
  split
  · simp [requests, unsentOf, Submitted.ids]
  split
  · simp [requests, unsentOf, Submitted.ids]
  split
  · simp [requests, unsentOf, Submitted.ids]
  split
  · simp [requests, unsentOf, Submitted.ids]
  split
  · simp [requests, unsentOf, Submitted.ids]
  rename_i chunks hchunks
  obtain ⟨hflat, hne⟩ := chunkLoop_spec hchunks (by simp)
  simp only [List.flatten_nil, List.nil_append] at hflat
  obtain ⟨hreq, hids, hmem⟩ := submitWaves_split (W.provider model) (W.wave model) 1 chunks [] none
  refine ⟨?_, by simpa using hids, fun w hw => hne _ (hmem w hw)⟩
  rw [hflat] at hreq
  generalize submitWaves (W.provider model) (W.wave model) 1 chunks [] none = result at hreq
  obtain ⟨waves, submitted⟩ := result
  unfold unsentOf
  cases submitted with
  | exhausted => exact hreq
  | returned ids =>
    by_cases hw : waves = []
    · simp [hw, requests]
    · simpa [hw, Submitted.unsubmitted] using hreq
  | raised error =>
    by_cases hw : waves = []
    · simp [hw, requests]
    · simpa [hw, Submitted.unsubmitted] using hreq

/-! ## The calls along the chain -/

/-- A call that `submit_batches` can make: its requests are its waves and what it never sent, and no wave
is empty. -/
structure Call.Ok (c : Call J) : Prop where
  split : requests c.waves ++ c.unsent = c.specs
  nonempty : ∀ w ∈ c.waves, w.chunk ≠ []

/-- What a call counts for `model_fallback.record`: all that it sent, when a wave was accepted. -/
def Call.records (job : Job) (c : Call J) : List (String × ℕ) :=
  if c.accepted ≠ [] ∧ c.model ≠ job.primary ∧ job.purpose.isSome then
    [(c.model, (requests c.waves).length)]
  else []

/-- What a call counts in the committed spend that `check_fleet_budget` is given: all that it sent, when
a wave was accepted. -/
def Call.commits (c : Call J) : List (String × ℕ) :=
  if c.accepted ≠ [] ∧ c.checked then [(c.model, (requests c.waves).length)] else []

/-- The ids of the accepted waves of a call. -/
def Call.ids (c : Call J) : List String := c.waves.filterMap Wave.id?

/-- A call gave ids exactly when a wave was accepted. -/
theorem Call.ids_eq_nil_iff {c : Call J} : c.ids = [] ↔ c.accepted = [] := by
  unfold Call.ids Call.accepted
  rw [List.filterMap_eq_nil_iff, List.filter_eq_nil_iff]
  refine forall₂_congr fun w _ => ?_
  unfold Wave.id? Wave.isAccepted
  cases w.outcome <;> simp

/-- One turn of the loop of `_submit`: a call, and then the end or the next model of the chain. -/
theorem submitLoop_cases {W : World J} {job : Job} {fuel : ℕ} {specs : List (BatchSpec J)}
    {model : String} {tried : List String} {committed : ℚ} {ids : List String} {n : ℕ} {t : Trace J}
    (h : submitLoop W job (fuel + 1) specs model tried committed ids n = some t) :
    ∃ c : Call J, c.Ok ∧ c.model = model ∧ c.specs = specs ∧
      ((t.calls = [c] ∧ t.recorded = c.records job ∧ t.committed = c.commits ∧
          ∀ out, t.ended = .returned out → out = ids ++ c.ids) ∨
        ∃ choice committed' rest, choice ∉ tried ∧
          submitLoop W job fuel c.unsent choice (tried ++ [choice]) committed' (ids ++ c.ids) (n + 1) =
            some rest ∧
          t = rest.cons c (c.records job) (c.commits)) := by
  obtain ⟨hsplit, hids, hne⟩ := submitBatches_split W job.max_output_tokens specs model
  simp only [submitLoop] at h
  generalize submitBatches W job.max_output_tokens specs model = result at h hsplit hids hne
  obtain ⟨waves, submitted⟩ := result
  dsimp only at hsplit hids hne
  -- The call, and whether the budget of the fleet is asked for its sum.
  let c (checked : Bool) : Call J := ⟨model, specs, waves, unsentOf specs waves submitted, checked⟩
  have hok : ∀ checked, (c checked).Ok := fun _ => ⟨hsplit, hne⟩
  have hlen : (requests waves).length =
      specs.length - (unsentOf specs waves submitted).length := by
    have hsum := congrArg List.length hsplit
    rw [List.length_append] at hsum
    omega
  -- The call raised, returned, or found the provider exhausted.
  cases submitted with
  | raised error =>
    refine ⟨c false, hok false, rfl, rfl, .inl ?_⟩
    obtain rfl := Option.some.inj h
    -- A call that raised had no wave accepted.
    have hnone : (c false).accepted = [] := Call.ids_eq_nil_iff.1 hids.symm
    refine ⟨rfl, ?_, ?_, fun out hout => by cases hout⟩
    · simp [Call.records, hnone]
    · simp [Call.commits, hnone]
  | returned accepted =>
    refine ⟨c false, hok false, rfl, rfl, .inl ?_⟩
    obtain rfl := Option.some.inj h
    have hacc : accepted = (c false).ids := hids
    have hiff : accepted ≠ [] ↔ (c false).accepted ≠ [] := by rw [hacc, Ne, Call.ids_eq_nil_iff]
    -- All waves were answered when one was accepted, so nothing is unsent.
    have hsent : (c false).accepted ≠ [] → specs.length = (requests waves).length := by
      intro hne'
      have hw : waves ≠ [] := by
        rintro rfl
        exact hne' rfl
      have hunsent : unsentOf specs waves (.returned accepted) = [] := if_neg hw
      rw [hunsent, List.length_nil, Nat.sub_zero] at hlen
      exact hlen.symm
    refine ⟨rfl, ?_, ?_, ?_⟩
    · unfold Call.records
      simp only [hiff]
      split
      · rename_i hcond
        rw [hsent hcond.1]
      · rfl
    · exact (if_neg fun hcond => Bool.false_ne_true hcond.2).symm
    · intro out hout
      rw [← Ended.returned.inj hout, hacc]
  | exhausted provider reason accepted unsent =>
    have hacc : ∀ checked, accepted = (c checked).ids := fun _ => hids
    have hiff : ∀ checked, accepted ≠ [] ↔ (c checked).accepted ≠ [] := by
      intro checked
      rw [hacc checked, Ne, Call.ids_eq_nil_iff]
    -- What was sent is what was not left unsent.
    have hsent : specs.length - unsent.length = (requests waves).length := hlen.symm
    have hrec : ∀ checked, (if accepted ≠ [] ∧ model ≠ job.primary ∧ job.purpose.isSome then
        [(model, specs.length - unsent.length)] else []) = (c checked).records job := by
      intro checked
      unfold Call.records
      simp only [hiff checked, hsent]
      rfl
    have hcom : (if accepted ≠ [] ∧ job.fleet then
        [(model, specs.length - unsent.length)] else []) = (c job.fleet).commits := by
      unfold Call.commits
      simp only [hiff job.fleet, hsent]
      rfl
    dsimp only at h
    generalize (if accepted ≠ [] then
      committed + perCall job.shape model * (specs.length - unsent.length : ℕ) else committed) =
        committed' at h
    split at h
    -- No model is left to try, and the loop ends with this call.
    · refine ⟨c false, hok false, rfl, rfl, .inl ?_⟩
      rw [hrec false] at h
      obtain rfl := Option.some.inj h
      refine ⟨rfl, rfl, (if_neg fun hcond => Bool.false_ne_true hcond.2).symm, fun out hout => ?_⟩
      simp only at hout
      split at hout
      · rw [← Ended.returned.inj hout, hacc false]
      · cases hout
    · rename_i choice hchoice
      refine ⟨c job.fleet, hok job.fleet, rfl, rfl, ?_⟩
      rw [hrec job.fleet, hcom] at h
      split at h
      -- The budget is exceeded, and the loop ends all the same.
      · left
        obtain rfl := Option.some.inj h
        refine ⟨rfl, rfl, rfl, fun out hout => ?_⟩
        simp only at hout
        split at hout
        · rw [← Ended.returned.inj hout, hacc job.fleet]
        · cases hout
      -- The loop goes on with a model that was not tried.
      · right
        obtain ⟨rest, hrest, rfl⟩ := Option.map_eq_some_iff.1 h
        have hnot : choice ∉ tried := by
          split at hchoice
          · have hfound := List.find?_some hchoice
            simp only [Bool.and_eq_true, Bool.not_eq_true', decide_eq_false_iff_not] at hfound
            exact hfound.1.1
          · contradiction
        rw [hacc job.fleet] at hrest
        exact ⟨choice, _, rest, hnot, hrest, rfl⟩

/-- What the calls of `_submit` have to do with one another: each takes what the one before it left
unsent, on a model that was not tried. -/
structure Chained (job : Job) (specs : List (BatchSpec J)) (model : String) (tried ids : List String)
    (t : Trace J) : Prop where
  whole : requests (t.calls.flatMap Call.waves) ++ t.unsent = specs
  ok : ∀ c ∈ t.calls, c.Ok
  suffix : ∀ c ∈ t.calls, c.specs <:+ specs
  resent : t.calls.Pairwise fun c c' => c'.specs <:+ c.unsent
  models : ∃ rest, t.calls.map Call.model = model :: rest ∧ rest.Nodup ∧ ∀ m ∈ rest, m ∉ tried
  ids : ∀ out, t.ended = .returned out → out = ids ++ t.calls.flatMap Call.ids
  recorded : t.recorded = t.calls.flatMap (Call.records job)
  committed : t.committed = t.calls.flatMap Call.commits

/-- The loop of `_submit` chains its calls. -/
theorem submitLoop_spec {W : World J} {job : Job} {fuel : ℕ} {specs : List (BatchSpec J)}
    {model : String} {tried : List String} {committed : ℚ} {ids : List String} {n : ℕ} {t : Trace J}
    (h : submitLoop W job fuel specs model tried committed ids n = some t) :
    Chained job specs model tried ids t := by
  induction fuel generalizing specs model tried committed ids n t with
  | zero => contradiction
  | succ fuel ih =>
    obtain ⟨c, hok, rfl, rfl, hend | ⟨choice, committed', rest, hnot, hrest, rfl⟩⟩ :=
      submitLoop_cases h
    -- The call is the last one, and there is nothing else to chain.
    · obtain ⟨hcalls, hrec, hcom, hids⟩ := hend
      have hunsent : t.unsent = c.unsent := by
        unfold Trace.unsent
        rw [hcalls]
        rfl
      constructor
      case models => exact ⟨[], by rw [hcalls]; rfl, List.nodup_nil, by simp⟩
      all_goals
        rw [hcalls]
      · rw [List.flatMap_singleton, hunsent]
        exact hok.split
      · simpa using hok
      · simp
      · exact List.pairwise_singleton _ _
      · simpa using hids
      · simpa using hrec
      · simpa using hcom
    · -- The calls that follow take what this one left unsent.
      have hch := ih hrest
      obtain ⟨later, hmodels, hnodup, htried⟩ := hch.models
      have hunsent : (rest.cons c (c.records job) (c.commits)).unsent = rest.unsent := by
        have hne : rest.calls ≠ [] := by
          intro hnil
          rw [hnil] at hmodels
          contradiction
        unfold Trace.unsent Trace.cons
        rw [List.getLast?_cons_of_ne_nil hne]
      have hsuf : ∀ c' ∈ rest.calls, c'.specs <:+ c.specs := fun c' hc' =>
        (hch.suffix c' hc').trans (hok.split ▸ List.suffix_append _ _)
      constructor
      · rw [hunsent]
        show requests (c.waves ++ rest.calls.flatMap Call.waves) ++ rest.unsent = _
        unfold requests
        rw [List.flatMap_append, List.append_assoc]
        have hwhole := hch.whole
        unfold requests at hwhole
        rw [hwhole]
        exact hok.split
      · exact List.forall_mem_cons.2 ⟨hok, hch.ok⟩
      · exact List.forall_mem_cons.2 ⟨List.suffix_refl _, hsuf⟩
      · exact List.pairwise_cons.2 ⟨hch.suffix, hch.resent⟩
      · refine ⟨choice :: later, ?_, List.nodup_cons.2 ⟨fun hmem => ?_, hnodup⟩, ?_⟩
        · show c.model :: rest.calls.map Call.model = _
          rw [hmodels]
        · exact htried choice hmem (by simp)
        · intro m hm
          rcases List.mem_cons.1 hm with rfl | hm
          · exact hnot
          · exact fun hmem => htried m hm (List.mem_append_left _ hmem)
      · intro out hout
        rw [hch.ids out hout, List.append_assoc]
        rfl
      · show c.records job ++ rest.recorded = _
        rw [hch.recorded]
        rfl
      · show c.commits ++ rest.committed = _
        rw [hch.committed]
        rfl

/-- The loop ends: every further call is on an entry of the chain that was not tried. -/
theorem submitLoop_isSome {W : World J} {job : Job} {fuel : ℕ} {specs : List (BatchSpec J)}
    {model : String} {tried : List String} {committed : ℚ} {ids : List String} {n : ℕ}
    (hfuel : (W.chain.filter fun m => !decide (m ∈ tried)).length < fuel) :
    (submitLoop W job fuel specs model tried committed ids n).isSome = true := by
  induction fuel generalizing specs model tried committed ids n with
  | zero => contradiction
  | succ fuel ih =>
    cases hsub : (submitBatches W job.max_output_tokens specs model).2 with
    | raised error => simp only [submitLoop, hsub, Option.isSome_some]
    | returned accepted => simp only [submitLoop, hsub, Option.isSome_some]
    | exhausted provider reason accepted unsent =>
    simp only [submitLoop, hsub]
    generalize (if accepted ≠ [] then
      committed + perCall job.shape model * (specs.length - unsent.length : ℕ) else committed) =
        committed'
    split
    · rfl
    rename_i choice hchoice
    split
    · rfl
    rw [Option.isSome_map]
    refine ih ?_
    -- The model chosen is an entry of the chain that was not tried, and now is.
    have hfound : choice ∈ W.chain ∧ choice ∉ tried := by
      split at hchoice
      · refine ⟨List.mem_of_find?_eq_some hchoice, ?_⟩
        have hp := List.find?_some hchoice
        simp only [Bool.and_eq_true, Bool.not_eq_true', decide_eq_false_iff_not] at hp
        exact hp.1.1
      · contradiction
    have hlt : (W.chain.filter fun m => !decide (m ∈ tried ++ [choice])).length <
        (W.chain.filter fun m => !decide (m ∈ tried)).length := by
      have hff : (W.chain.filter fun m => !decide (m ∈ tried ++ [choice])) =
          (W.chain.filter fun m => !decide (m ∈ tried)).filter fun m => decide (m ≠ choice) := by
        rw [List.filter_filter]
        refine List.filter_congr fun m _ => ?_
        by_cases hm : m ∈ tried <;> by_cases hc : m = choice <;> simp [hm, hc]
      rw [hff, List.length_filter_lt_length_iff_exists]
      exact ⟨choice, List.mem_filter.2 ⟨hfound.1, by simp [hfound.2]⟩, by simp⟩
    omega

/-! ## The accounting -/

/-- The accepted waves and those that failed are the waves of a call. -/
theorem length_requests_waves (c : Call J) :
    (requests c.waves).length = (requests c.accepted).length + (requests c.failed).length := by
  unfold Call.accepted Call.failed requests
  induction c.waves with
  | nil => rfl
  | cons w waves ih =>
    by_cases hw : w.isAccepted
    · simp only [List.flatMap_cons, List.length_append, List.filter_cons, hw, if_true, Bool.not_true,
        Bool.false_eq_true, if_false, ih]
      omega
    · simp only [List.flatMap_cons, List.length_append, List.filter_cons, hw, if_false,
        Bool.not_false, Bool.false_eq_true, if_true, ih]
      omega

/-- A call has counted its requests as sent: a wave was accepted, and the fallback is recorded, or the
committed spend is checked against the ceiling. -/
def Call.Counted (job : Job) (c : Call J) : Prop :=
  c.accepted ≠ [] ∧ ((c.model ≠ job.primary ∧ job.purpose.isSome) ∨ c.checked)

/-- The entries that a call counts. -/
theorem mem_counts_iff {job : Job} {c : Call J} {e : String × ℕ} :
    e ∈ c.records job ++ c.commits ↔
      c.Counted job ∧ e = (c.model, (requests c.waves).length) := by
  unfold Call.records Call.commits Call.Counted
  by_cases hacc : c.accepted = []
  · simp [hacc]
  · by_cases hm : c.model = job.primary <;> by_cases hp : job.purpose.isSome <;>
      by_cases hc : c.checked <;> simp [hacc, hm, hp, hc]

/-- For distinct models, the requests accepted on a model are those of its one call. -/
theorem acceptedOn_eq {t : Trace J} (hnodup : (t.calls.map Call.model).Nodup) {c : Call J}
    (hc : c ∈ t.calls) : t.acceptedOn c.model = (requests c.accepted).length := by
  unfold Trace.acceptedOn
  have hone : t.calls.filter (fun c' => decide (c'.model = c.model)) = [c] := by
    generalize t.calls = calls at hnodup hc
    induction calls with
    | nil => contradiction
    | cons c' calls ih =>
      rw [List.map_cons, List.nodup_cons] at hnodup
      rcases List.mem_cons.1 hc with rfl | hc
      · rw [List.filter_cons_of_pos (by simp)]
        congr 1
        rw [List.filter_eq_nil_iff]
        intro c' hc' heq
        exact hnodup.1 (of_decide_eq_true heq ▸ List.mem_map_of_mem hc')
      · rw [List.filter_cons_of_neg, ih hnodup.2 hc]
        rw [decide_eq_true_eq]
        intro heq
        exact hnodup.1 (heq ▸ List.mem_map_of_mem hc)
  rw [hone, List.flatMap_singleton]

/-- The accepted waves of all calls are a part of all their waves. -/
theorem accepted_eq_filter (t : Trace J) :
    t.calls.flatMap Call.accepted = (t.calls.flatMap Call.waves).filter Wave.isAccepted := by
  rw [List.filter_flatMap]
  rfl

/-- The requests of a part of the waves are a part of their requests. -/
theorem requests_sublist {waves waves' : List (Wave J)} (h : waves.Sublist waves') :
    (requests waves).Sublist (requests waves') :=
  h.flatMap Wave.chunk

/-- A request of one of the waves is of an accepted or of a failed one. -/
theorem mem_requests_cases {t : Trace J} {spec : BatchSpec J}
    (h : spec ∈ requests (t.calls.flatMap Call.waves)) :
    spec ∈ requests (t.calls.flatMap Call.accepted) ∨
      spec ∈ requests (t.calls.flatMap Call.failed) := by
  obtain ⟨w, hw, hspec⟩ := List.mem_flatMap.1 h
  obtain ⟨c, hc, hwc⟩ := List.mem_flatMap.1 hw
  by_cases hacc : w.isAccepted
  · left
    refine List.mem_flatMap.2 ⟨w, List.mem_flatMap.2 ⟨c, hc, ?_⟩, hspec⟩
    exact List.mem_filter.2 ⟨hwc, hacc⟩
  · right
    refine List.mem_flatMap.2 ⟨w, List.mem_flatMap.2 ⟨c, hc, ?_⟩, hspec⟩
    exact List.mem_filter.2 ⟨hwc, by simpa using hacc⟩

/-- The ids of a call are those of its accepted waves. -/
theorem Call.ids_eq (c : Call J) : c.ids = c.accepted.filterMap Wave.id? := by
  unfold Call.ids Call.accepted
  rw [List.filterMap_filter]
  refine List.filterMap_congr fun w _ => ?_
  unfold Wave.id? Wave.isAccepted
  cases w.outcome <;> simp

/-- Of a call whose waves are not empty, no request failed exactly when no wave did. -/
theorem Call.Ok.failed_eq_nil_iff {c : Call J} (h : c.Ok) :
    (requests c.failed).length = 0 ↔ c.failed = [] := by
  rw [List.length_eq_zero_iff]
  constructor
  · intro hreq
    rw [List.eq_nil_iff_forall_not_mem]
    intro w hw
    have hchunk : w.chunk = [] := List.flatMap_eq_nil_iff.1 hreq w hw
    exact h.nonempty w (List.mem_of_mem_filter hw) hchunk
  · intro hnil
    rw [hnil]
    rfl

/-- What `_submit` counts is right exactly when no counted call has a wave that failed. -/
theorem counted_iff {job : Job} {specs : List (BatchSpec J)} {model : String} {tried ids : List String}
    {t : Trace J} (h : Chained job specs model tried ids t) (hnodup : (t.calls.map Call.model).Nodup) :
    (∀ e ∈ t.recorded ++ t.committed, e.2 = t.acceptedOn e.1) ↔
      ∀ c ∈ t.calls, c.Counted job → c.failed = [] := by
  have hentry : ∀ c ∈ t.calls,
      ((requests c.waves).length = t.acceptedOn c.model ↔ c.failed = []) := by
    intro c hc
    rw [acceptedOn_eq hnodup hc, length_requests_waves, ← (h.ok c hc).failed_eq_nil_iff]
    omega
  have hmem : ∀ e, e ∈ t.recorded ++ t.committed ↔
      ∃ c ∈ t.calls, c.Counted job ∧ e = (c.model, (requests c.waves).length) := by
    intro e
    rw [h.recorded, h.committed, List.mem_append, List.mem_flatMap, List.mem_flatMap]
    constructor
    · rintro (⟨c, hc, he⟩ | ⟨c, hc, he⟩)
      · exact ⟨c, hc, mem_counts_iff.1 (List.mem_append_left _ he)⟩
      · exact ⟨c, hc, mem_counts_iff.1 (List.mem_append_right _ he)⟩
    · rintro ⟨c, hc, he⟩
      rcases List.mem_append.1 (mem_counts_iff.2 he) with he | he
      · exact .inl ⟨c, hc, he⟩
      · exact .inr ⟨c, hc, he⟩
  constructor
  · intro hall c hc hcount
    exact (hentry c hc).1 (hall _ ((hmem _).2 ⟨c, hc, hcount, rfl⟩))
  · intro hall e he
    obtain ⟨c, hc, hcount, rfl⟩ := (hmem e).1 he
    exact (hentry c hc).2 (hall c hc hcount)

/-- For requests with distinct ids, `_submit` ends, and it meets its accounting exactly when no call that
is counted has both an accepted wave and one that failed for another reason than exhaustion. -/
theorem submit_partitions (W : World J) (job : Job) (specs : List (BatchSpec J))
    (hdistinct : (specs.map BatchSpec.custom_id).Nodup) :
    ∃ t, submit W job specs = some t ∧
      (Partitions specs t ↔ ∀ c ∈ t.calls, c.Counted job → c.failed = []) := by
  have hsome : (submit W job specs).isSome = true :=
    submitLoop_isSome (Nat.lt_succ_of_le (List.length_filter_le _ _))
  obtain ⟨t, ht⟩ := Option.isSome_iff_exists.1 hsome
  refine ⟨t, ht, ?_⟩
  have hch := submitLoop_spec ht
  have hmodels : (t.calls.map Call.model).Nodup := by
    obtain ⟨rest, hmap, hnodup, htried⟩ := hch.models
    rw [hmap, List.nodup_cons]
    exact ⟨fun hmem => htried _ hmem (by simp), hnodup⟩
  constructor
  · exact fun h => (counted_iff hch hmodels).1 h.counted
  intro hcond
  refine ⟨hmodels, ?_, ?_, ?_, ?_, (counted_iff hch hmodels).2 hcond⟩
  · -- The accepted requests are a part of the requests, in order.
    have hsub : (requests (t.calls.flatMap Call.accepted)).Sublist specs := by
      rw [accepted_eq_filter]
      refine (requests_sublist List.filter_sublist).trans ?_
      rw [← hch.whole]
      exact List.sublist_append_left _ _
    exact hdistinct.sublist (hsub.map _)
  · -- A later call takes what this one left unsent, and its accepted requests are not among that.
    refine hch.resent.imp_of_mem fun {c c'} hc _ hsuf spec hspec hmem => ?_
    have hids : (c.specs.map BatchSpec.custom_id).Nodup :=
      hdistinct.sublist ((hch.suffix c hc).sublist.map _)
    rw [← (hch.ok c hc).split, List.map_append, List.nodup_append] at hids
    have hsent : spec.custom_id ∈ (requests c.waves).map BatchSpec.custom_id :=
      List.mem_map_of_mem ((requests_sublist List.filter_sublist).subset hspec)
    have hleft : spec.custom_id ∈ c.unsent.map BatchSpec.custom_id :=
      (hsuf.sublist.map _).subset hmem
    exact hids.2.2 _ hsent _ hleft rfl
  · intro spec hspec
    rw [← hch.whole, List.mem_append] at hspec
    rcases hspec with hspec | hspec
    · rcases mem_requests_cases hspec with hspec | hspec
      · exact .inl hspec
      · exact .inr (.inl hspec)
    · exact .inr (.inr hspec)
  · intro out hout
    rw [hch.ids out hout, List.nil_append, List.filterMap_flatMap]
    exact List.flatMap_congr fun c _ => c.ids_eq

/-- Two requests that do not fit in one wave, refused by the first model and sent to the second. -/
def fallbackWorld (second : Outcome) : World Unit where
  unavailable _ := none
  provider model := some model
  client _ := true
  refuses _ _ := none
  wave model index := if model = "gpt" then .exhausted "no credit"
    else if index = 1 then .accepted "batch-1" else second
  chain := ["claude"]
  eligible _ _ := true
  overBudget _ _ := false

/-- A fleet job with a shape, on the first model. -/
def fallbackJob : Job where
  model := "gpt"
  max_output_tokens := 1000000
  shape := some fun _ => 1
  purpose := some "verify"
  fleet := true
  primary := "gpt"

/-- Two requests. -/
def twoRequests : List (BatchSpec Unit) := [⟨[97], [], [], [], (), none, .responses, none⟩,
  ⟨[98], [], [], [], (), none, .responses, none⟩]

/-- Where the second model accepts both waves, the accounting is met. -/
theorem submit_partitions_fallback :
    ∃ t, submit (fallbackWorld (.accepted "batch-2")) fallbackJob twoRequests = some t ∧
      Partitions twoRequests t := by
  obtain ⟨t, ht, hiff⟩ := submit_partitions (fallbackWorld (.accepted "batch-2")) fallbackJob twoRequests
    (by decide)
  refine ⟨t, ht, hiff.2 fun c hc _ => ?_⟩
  have hclean : (submit (fallbackWorld (.accepted "batch-2")) fallbackJob twoRequests).all
      (fun t => t.calls.all fun c => c.failed.isEmpty) = true := by decide +kernel
  rw [ht, Option.all_some, List.all_eq_true] at hclean
  exact List.isEmpty_iff.1 (hclean c hc)

/-- A wave that fails on the fallback is counted as sent on it. -/
theorem failed_wave_counted_as_sent :
    ¬ ∀ (W : World Unit) (job : Job) (specs : List (BatchSpec Unit)),
      (specs.map BatchSpec.custom_id).Nodup → ∃ t, submit W job specs = some t ∧ Partitions specs t := by
  intro hall
  obtain ⟨t, ht, hp⟩ := hall (fallbackWorld (.failed "HTTP 500")) fallbackJob twoRequests (by decide)
  have hcount : (submit (fallbackWorld (.failed "HTTP 500")) fallbackJob twoRequests).all
      (fun t => decide (("claude", 2) ∈ t.recorded ++ t.committed ∧ t.acceptedOn "claude" = 1)) =
        true := by decide +kernel
  rw [ht, Option.all_some, decide_eq_true_eq] at hcount
  have hwrong := hp.counted _ hcount.1
  rw [hcount.2] at hwrong
  contradiction

end JobScripts.Batch

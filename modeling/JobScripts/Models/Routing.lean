import Mathlib.Data.List.MinMax
import Mathlib.Data.List.Sort
import Mathlib.Data.Prod.Lex
import Mathlib.Data.String.Basic
import JobScripts.Models.Pricing

/-!
# Which model runs a task

`core/routing.py` and `core/batch_capabilities.py` on the catalog of `core/providers`: a model can run a task or is
rejected for a reason (`_rejection`), the configuration screen lists the selectable models with what each would cost
(`candidates_for`), and `resolve` takes the cheapest candidate that is not rejected, or the model that an admin set.

The screen and `resolve` agree on every selectable model (`screen_offers_what_routing_accepts`). `resolve` does not ask
whether a model is selectable, and a model that enumerates its efforts may be called without one
(`unlisted_and_without_effort`).
-/

namespace JobScripts.Models.Routing

open Pricing

/-! ## The catalog -/

/-- `StructuredOutput`: how strictly a model keeps to a schema. -/
inductive StructuredOutput
  | none
  | json_object
  | json_schema

/-- `_MODE_RANK`: the modes of output from the weakest to the strictest. -/
def StructuredOutput.rank : StructuredOutput → ℕ
  | .none => 0
  | .json_object => 1
  | .json_schema => 2

/-- `Reasoning`: the parameter of a model's effort, the efforts that it is known to accept, and its default. -/
structure Reasoning where
  param : Option String
  accepts : List String
  default : Option String

/-- `Model`: a model as its datasheet declares it. -/
structure Model where
  name : String
  structured_output : StructuredOutput
  rates : Rates
  reasoning : Reasoning
  max_output_tokens : Option ℤ
  selectable : Bool := true
  batch_supported : Option Bool := Option.none

/-- `Provider`: a provider with its models and the endpoint of its batches, if it has one. -/
structure Provider where
  name : String
  batch_endpoint : Option String
  models : List Model

/-- `PROVIDERS`. Two models of one name are refused when `MODELS` is built. -/
structure Catalog where
  providers : List Provider
  names_nodup : (providers.map Provider.name).Nodup
  models_nodup : (providers.flatMap fun p => p.models.map Model.name).Nodup

/-- `MODELS`: each model with the name of its provider. -/
def Catalog.models (c : Catalog) : List (String × Model) :=
  c.providers.flatMap fun p => p.models.map fun m => (p.name, m)

/-- `MODELS.get`: the provider and the declaration of a model. -/
def Catalog.entry (c : Catalog) (name : String) : Option (String × Model) := c.models.find? fun e => e.2.name = name

/-- `providers.model`: the declaration of a model, if there is one. -/
def Catalog.model (c : Catalog) (name : String) : Option Model := (c.entry name).map Prod.snd

/-- `providers.provider_of`: the provider that declares a model. -/
def Catalog.providerOf (c : Catalog) (name : String) : Option String := (c.entry name).map Prod.fst

/-- The batch endpoint of a provider. -/
def Catalog.endpoint (c : Catalog) (provider : String) : Option String :=
  (c.providers.find? fun p => p.name = provider).bind Provider.batch_endpoint

/-- `rates_for`: the rates of a model that is declared. -/
def Catalog.ratesFor (c : Catalog) (name : String) : Option Rates := (c.model name).map Model.rates

/-! ## Batch capabilities -/

/-- `vendor_support`: whether a model can be batched, as its datasheet or the vendor says, if either does. -/
def vendorSupport (c : Catalog) (name : String) : Option Bool :=
  match c.entry name with
  | none => none
  | some (provider, declared) =>
    match declared.batch_supported with
    | some supported => some supported
    | none => if provider = "openai" then some (c.endpoint provider).isSome else none

/-- Why a batch cannot run, with the texts of `unavailable_reason`. -/
inductive Unavailable
  /-- `model is not declared` -/
  | notDeclared
  /-- `provider has no batch endpoint` -/
  | noEndpoint
  /-- `provider does not support batching this model` -/
  | unsupported
  /-- `batch support for this model is unverified` -/
  | unverified
  /-- `provider batch transport is not implemented in this application` -/
  | noTransport

/-- `unavailable_reason`: why a model cannot be batched, if it cannot. -/
def unavailableReason (c : Catalog) (name : String) : Option Unavailable :=
  match c.providerOf name with
  | none => some .notDeclared
  | some provider =>
    if c.endpoint provider = none then some .noEndpoint
    else if vendorSupport c name = some false then some .unsupported
    else if vendorSupport c name = none then some .unverified
    else if provider ≠ "openai" ∧ provider ≠ "anthropic" then some .noTransport
    else none

/-! ## Tasks -/

/-- A value of a request's parameter. -/
inductive Param
  | text (s : String)
  | number (n : ℤ)

/-- A `dict` of parameters. -/
abbrev Params := String → Option Param

/-- `dict.setdefault`: a key that is there keeps its value. -/
def Params.setdefault (params : Params) (key : String) (value : Param) : Params :=
  if (params key).isSome then params else fun k => if k = key then some value else params k

/-- `TaskShape`: what a piece of work needs. -/
structure TaskShape where
  structured : StructuredOutput
  batched : Bool
  max_output_tokens : ℤ
  est_prompt_tokens : ℤ
  candidates : List String
  effort : Option String := Option.none
  effort_preference : List String := []
  params : Params := fun _ => Option.none
  per_cycle : ℤ := 0

/-- Why a model cannot run a task, with the texts of `_rejection`. -/
inductive Rejection
  /-- `not declared in any provider datasheet` -/
  | notDeclared
  /-- `declares {mode} output, task needs at least {structured}` -/
  | output (mode structured : StructuredOutput)
  /-- The reason of `unavailable_reason`. -/
  | batch (reason : Unavailable)
  /-- `model does not support an effort parameter` -/
  | noEffort
  /-- `does not accept effort {effort!r} (accepts {accepts})` -/
  | effort (effort : String) (accepts : List String)
  /-- `caps output at {cap} tokens, task asks for {asked}` -/
  | capped (cap asked : ℤ)
  /-- `has no published rates, so its spend could not be reported` -/
  | unpriced

/-- The checks of `_rejection` on the effort that the task names. -/
def effortRejection (shape : TaskShape) (declared : Model) : Option Rejection :=
  match shape.effort with
  | none => none
  | some effort =>
    if declared.reasoning.param = none then some .noEffort
    else if declared.reasoning.accepts ≠ [] ∧ effort ∉ declared.reasoning.accepts then
      some (.effort effort declared.reasoning.accepts)
    else none

/-- The check of `_rejection` on the length of the output. -/
def outputRejection (shape : TaskShape) (declared : Model) : Option Rejection :=
  match declared.max_output_tokens with
  | none => none
  | some cap => if cap < shape.max_output_tokens then some (.capped cap shape.max_output_tokens) else none

/-- `_rejection`; `none` when the model can run the task. -/
def rejection (c : Catalog) (shape : TaskShape) (name : String) (declared : Option Model) (provider : Option String) :
    Option Rejection :=
  match declared, provider with
  | some declared, some _ =>
    if declared.structured_output.rank < shape.structured.rank then
      some (.output declared.structured_output shape.structured)
    else
      match if shape.batched then unavailableReason c name else none with
      | some reason => some (.batch reason)
      | none =>
        ((effortRejection shape declared).or (outputRejection shape declared)).or <|
          if estimateCostUsd (c.ratesFor name) (some 1) (some 1) none false none .unspecified = none then
            some .unpriced
          else none
  | _, _ => some .notDeclared

/-- `_preferred_effort`: the first effort that the task prefers and the model accepts, else the model's default. -/
def preferredEffort (shape : TaskShape) (declared : Model) : Option String :=
  (shape.effort_preference.find? fun effort => declared.reasoning.accepts.contains effort).or declared.reasoning.default

/-- The effort that is asked of a model: the task's own, else the preferred one. An empty text is none. -/
def chosenEffort (shape : TaskShape) (declared : Model) : Option String :=
  ((shape.effort.filter (· ≠ "")).or (preferredEffort shape declared)).filter (· ≠ "")

/-- `_params_for`: the parameters of the task, with the effort and the length of the output where they do not set
these. -/
def paramsFor (shape : TaskShape) (declared : Model) : Params :=
  let params : Params :=
    match declared.reasoning.param.filter (· ≠ ""), chosenEffort shape declared with
    | some param, some effort => shape.params.setdefault param (.text effort)
    | _, _ => shape.params
  params.setdefault "max_output_tokens" (.number shape.max_output_tokens)

/-- `_estimate`: the price of one call of the size that the task declares. -/
def estimate (c : Catalog) (shape : TaskShape) (name : String) (moment : Option Moment) : Option ℚ :=
  estimateCostUsd (c.ratesFor name) (some shape.est_prompt_tokens) (some shape.max_output_tokens) none shape.batched
    moment .unspecified

/-! ## The configuration screen -/

/-- `Candidacy`: how a model is judged for a task, as the screen shows it. -/
structure Candidacy where
  model : String
  provider : String
  eligible : Bool
  rejection : Option Rejection
  sanctioned : Bool
  est_cost_usd : Option ℚ
  est_cycle_cost_usd : Option ℚ
  price_varies_by_time : Bool

/-- The sort key of `candidates_for`: the cheapest eligible first. -/
def Candidacy.key (x : Candidacy) : Bool ×ₗ WithTop ℚ ×ₗ String :=
  toLex (!x.eligible, toLex (x.est_cost_usd.elim ⊤ fun cost => (cost : WithTop ℚ), x.model))

/-- A row of `candidates_for`. -/
def candidacy (c : Catalog) (shape : TaskShape) (moment : Option Moment) (entry : String × Model) : Candidacy :=
  let why := rejection c shape entry.2.name (some entry.2) (some entry.1)
  let per_call := if why.isSome then none else estimate c shape entry.2.name moment
  { model := entry.2.name
    provider := entry.1
    eligible := why.isNone
    rejection := why
    sanctioned := shape.candidates.contains entry.2.name
    est_cost_usd := per_call
    est_cycle_cost_usd := per_call.bind fun cost => if shape.per_cycle ≠ 0 then some (cost * shape.per_cycle) else none
    price_varies_by_time := entry.2.rates.peak_windows ≠ [] }

/-- `candidates_for`: every selectable model, judged for the task, the cheapest eligible first. -/
def candidatesFor (c : Catalog) (shape : TaskShape) (moment : Option Moment) : List Candidacy :=
  (((c.models.insertionSort fun a b => a.2.name ≤ b.2.name).filter fun e => e.2.selectable).map
    (candidacy c shape moment)).insertionSort fun a b => a.key ≤ b.key

/-! ## Resolution -/

/-- `Choice`: the model that runs a task, with its parameters and the estimated price. -/
structure Choice where
  provider : String
  model : String
  params : Params
  est_cost_usd : Option ℚ
  off_peak : Bool
  overridden : Bool := false

/-- What `resolve` raises: `NoEligibleModel` for one of three reasons, or an `AssertionError`. -/
inductive Failure
  /-- `no candidate models were declared for this task` -/
  | noCandidates
  /-- `no declared model can run this task - {name}: {why}; ...` -/
  | noneEligible (rejected : List (String × Rejection))
  /-- `{override} cannot run this task - {why}` -/
  | cannotRun (model : String) (why : Rejection)
  | assertion

/-- An entry of `eligible`. -/
structure Eligible where
  cost : ℚ
  name : String
  provider : String
  declared : Model

/-- One candidate in the loop of `resolve`. -/
def judge (c : Catalog) (shape : TaskShape) (moment : Option Moment) (name : String) :
    Except Failure (Rejection ⊕ Eligible) :=
  let declared := c.model name
  let provider := c.providerOf name
  match rejection c shape name declared provider with
  | some why => .ok (.inl why)
  | none =>
    match provider, declared, estimate c shape name moment with
    | some provider, some declared, some cost => .ok (.inr ⟨cost, name, provider, declared⟩)
    | _, _, _ => .error .assertion

/-- `resolve`, without an override. -/
def resolveCandidates (c : Catalog) (shape : TaskShape) (moment : Option Moment) : Except Failure Choice := do
  let judged ← shape.candidates.mapM (judge c shape moment)
  let eligible := judged.filterMap Sum.getRight?
  match eligible.argmin Eligible.cost with
  | none => .error (.noneEligible (shape.candidates.zip (judged.filterMap Sum.getLeft?)))
  | some e => .ok {
      provider := e.provider
      model := e.name
      params := paramsFor shape e.declared
      est_cost_usd := some e.cost
      off_peak := isOffPeak e.declared.rates moment }

/-- `_resolve_override`: the model that is configured, if it can run the task, also if it is no candidate. -/
def resolveOverride (c : Catalog) (shape : TaskShape) (override : String) (moment : Option Moment) :
    Except Failure Choice :=
  let declared := c.model override
  let provider := c.providerOf override
  match rejection c shape override declared provider with
  | some why => .error (.cannotRun override why)
  | none =>
    match provider, declared with
    | some provider, some declared => .ok {
        provider := provider
        model := override
        params := paramsFor shape declared
        est_cost_usd := estimate c shape override moment
        off_peak := isOffPeak declared.rates moment
        overridden := !shape.candidates.contains override }
    | _, _ => .error .assertion

/-- `resolve`: the configured model, or else the cheapest candidate that can run the task. -/
def resolve (c : Catalog) (shape : TaskShape) (moment : Option Moment) (override : Option String) :
    Except Failure Choice :=
  if shape.candidates = [] then .error .noCandidates
  else
    match override.filter (· ≠ "") with
    | some model => resolveOverride c shape model moment
    | none => resolveCandidates c shape moment

section Judgement

variable {c : Catalog} {shape : TaskShape} {moment : Option Moment} {name : String}

/-- A model is declared with its provider, and priced. -/
theorem declared_of_entry {provider : String} {declared : Model} (h : c.entry name = some (provider, declared)) :
    c.model name = some declared ∧ c.providerOf name = some provider ∧ c.ratesFor name = some declared.rates ∧
      declared.name = name ∧ (provider, declared) ∈ c.models := by
  have hname := List.find?_some h
  rw [decide_eq_true_eq] at hname
  unfold Catalog.model Catalog.providerOf Catalog.ratesFor Catalog.model
  rw [h]
  exact ⟨rfl, rfl, rfl, hname, List.mem_of_find?_eq_some h⟩

/-- The entry of a declared model. -/
theorem entry_of_mem {e : String × Model} (he : e ∈ c.models) : c.entry e.2.name = some e := by
  have hnodup : (c.models.map fun e => e.2.name).Nodup := by
    have hnames := c.models_nodup
    unfold Catalog.models
    rw [List.map_flatMap]
    simpa [Function.comp_def] using hnames
  unfold Catalog.entry
  rcases hfound : c.models.find? fun e' => e'.2.name = e.2.name with _ | e'
  · have hnone := List.find?_eq_none.mp hfound e he
    simp at hnone
  · have hname := List.find?_some hfound
    rw [decide_eq_true_eq] at hname
    obtain rfl := List.inj_on_of_nodup_map hnodup (List.mem_of_find?_eq_some hfound) he hname
    exact hfound

/-- A model that is not rejected is declared. -/
theorem entry_of_not_rejected (h : rejection c shape name (c.model name) (c.providerOf name) = none) :
    ∃ provider declared, c.entry name = some (provider, declared) := by
  rcases hentry : c.entry name with _ | ⟨provider, declared⟩
  · unfold Catalog.model Catalog.providerOf at h
    rw [hentry] at h
    contradiction
  · exact ⟨provider, declared, rfl⟩

/-- A declared model has an estimate, whatever the size of the prompt and the tier that it selects. -/
theorem estimate_of_entry (shape : TaskShape) (moment : Option Moment) {provider : String} {declared : Model}
    (h : c.entry name = some (provider, declared)) :
    ∃ cost, estimate c shape name moment = some cost := by
  unfold estimate
  rw [(declared_of_entry h).2.2.1]
  exact reservation_isSome ..

/-- A model that is not rejected takes the effort that the task names. -/
theorem accepts_of_not_rejected {declared : Model} {provider : String} {effort : String}
    (h : rejection c shape name (some declared) (some provider) = none) (heffort : shape.effort = some effort)
    (haccepts : declared.reasoning.accepts ≠ []) : effort ∈ declared.reasoning.accepts := by
  have hnone : effortRejection shape declared = none := by
    unfold rejection at h
    dsimp only at h
    split at h
    · contradiction
    split at h
    · contradiction
    rw [Option.or_eq_none_iff, Option.or_eq_none_iff] at h
    exact h.1.1
  unfold effortRejection at hnone
  rw [heffort] at hnone
  dsimp only at hnone
  split at hnone
  · contradiction
  split at hnone
  · contradiction
  · next hcond =>
    by_contra hnot
    exact hcond ⟨haccepts, hnot⟩

/-- The model can run the task. -/
def CanRun (c : Catalog) (shape : TaskShape) (name : String) : Prop :=
  rejection c shape name (c.model name) (c.providerOf name) = none

/-- A candidate is rejected, or priced: the assertion of `resolve` holds. -/
theorem judge_cases (c : Catalog) (shape : TaskShape) (moment : Option Moment) (name : String) :
    (∃ why, rejection c shape name (c.model name) (c.providerOf name) = some why ∧
        judge c shape moment name = .ok (.inl why)) ∨
      ∃ provider declared cost, CanRun c shape name ∧ c.entry name = some (provider, declared) ∧
        estimate c shape name moment = some cost ∧
        judge c shape moment name = .ok (.inr ⟨cost, name, provider, declared⟩) := by
  unfold judge
  dsimp only
  rcases hwhy : rejection c shape name (c.model name) (c.providerOf name) with _ | why
  · obtain ⟨provider, declared, hentry⟩ := entry_of_not_rejected hwhy
    obtain ⟨cost, hcost⟩ := estimate_of_entry shape moment hentry
    obtain ⟨hmodel, hprovider, -⟩ := declared_of_entry hentry
    refine .inr ⟨provider, declared, cost, hwhy, hentry, hcost, ?_⟩
    rw [hmodel, hprovider, hcost]
  · exact .inl ⟨why, rfl, rfl⟩

/-- What a candidate comes to. -/
def eligibleOf (c : Catalog) (shape : TaskShape) (moment : Option Moment) (name : String) : Option Eligible :=
  (judge c shape moment name).toOption.bind Sum.getRight?

/-- The loop of `resolve` collects the candidates that can run the task. -/
theorem mapM_judge (c : Catalog) (shape : TaskShape) (moment : Option Moment) (names : List String) :
    ∃ judged, names.mapM (judge c shape moment) = .ok judged ∧
      judged.filterMap Sum.getRight? = names.filterMap (eligibleOf c shape moment) := by
  induction names with
  | nil => exact ⟨[], rfl, rfl⟩
  | cons name names ih =>
    obtain ⟨judged, hjudged, heligible⟩ := ih
    rcases judge_cases c shape moment name with ⟨why, -, hjudge⟩ | ⟨provider, declared, cost, -, -, -, hjudge⟩
    · refine ⟨.inl why :: judged, ?_, ?_⟩
      · rw [List.mapM_cons, hjudge, hjudged]
        rfl
      · have hnone : eligibleOf c shape moment name = none := by
          unfold eligibleOf
          rw [hjudge]
          rfl
        rw [List.filterMap_cons_none hnone, ← heligible]
        rfl
    · refine ⟨.inr ⟨cost, name, provider, declared⟩ :: judged, ?_, ?_⟩
      · rw [List.mapM_cons, hjudge, hjudged]
        rfl
      · have hsome : eligibleOf c shape moment name = some ⟨cost, name, provider, declared⟩ := by
          unfold eligibleOf
          rw [hjudge]
          rfl
        rw [List.filterMap_cons_some hsome, ← heligible]
        rfl

/-- A candidate comes to an entry exactly if it can run the task. -/
theorem eligibleOf_eq_some {e : Eligible} :
    eligibleOf c shape moment name = some e ↔ CanRun c shape name ∧ e.name = name ∧
      c.entry name = some (e.provider, e.declared) ∧ estimate c shape name moment = some e.cost := by
  unfold eligibleOf
  rcases judge_cases c shape moment name with
    ⟨why, hwhy, hjudge⟩ | ⟨provider, declared, cost, hrun, hentry, hcost, hjudge⟩
  · rw [hjudge]
    constructor
    · intro h
      contradiction
    · rintro ⟨hrun, -⟩
      rw [CanRun, hwhy] at hrun
      contradiction
  · rw [hjudge]
    constructor
    · intro h
      obtain rfl : _ = e := Option.some.inj h
      exact ⟨hrun, rfl, hentry, hcost⟩
    · rintro ⟨-, rfl, hentry', hcost'⟩
      obtain ⟨rfl, rfl⟩ := Prod.mk.inj (Option.some.inj (hentry.symm.trans hentry'))
      obtain rfl := Option.some.inj (hcost.symm.trans hcost')
      rfl

/-- The screen lists the selectable models. -/
theorem mem_candidatesFor {x : Candidacy} :
    x ∈ candidatesFor c shape moment ↔ ∃ e ∈ c.models, e.2.selectable = true ∧ candidacy c shape moment e = x := by
  unfold candidatesFor
  rw [List.mem_insertionSort, List.mem_map]
  refine exists_congr fun e => ?_
  rw [List.mem_filter, List.mem_insertionSort, and_assoc]

/-- A row of the screen is eligible exactly if the model can run the task. -/
theorem candidacy_eligible {e : String × Model} (he : e ∈ c.models) :
    (candidacy c shape moment e).eligible = true ↔ CanRun c shape e.2.name := by
  obtain ⟨hmodel, hprovider, -⟩ := declared_of_entry (entry_of_mem he)
  unfold candidacy CanRun
  rw [hmodel, hprovider]
  exact Option.isNone_iff_eq_none

/-- An eligible row shows the estimate. -/
theorem candidacy_cost {e : String × Model} (helig : (candidacy c shape moment e).eligible = true) :
    (candidacy c shape moment e).est_cost_usd = estimate c shape e.2.name moment := by
  have hnone : rejection c shape e.2.name (some e.2) (some e.1) = none := Option.isNone_iff_eq_none.mp helig
  unfold candidacy
  dsimp only
  rw [hnone]
  rfl

/-- An override is taken exactly if the model can run the task, and then with its provider and estimate. -/
theorem resolveOverride_eq_ok {choice : Choice} :
    resolveOverride c shape name moment = .ok choice ↔ CanRun c shape name ∧
      ∃ provider declared, c.entry name = some (provider, declared) ∧ choice =
        { provider := provider
          model := name
          params := paramsFor shape declared
          est_cost_usd := estimate c shape name moment
          off_peak := isOffPeak declared.rates moment
          overridden := !shape.candidates.contains name } := by
  unfold resolveOverride
  dsimp only
  constructor
  · intro h
    split at h
    · contradiction
    · next hnone =>
      obtain ⟨provider, declared, hentry⟩ := entry_of_not_rejected hnone
      obtain ⟨hmodel, hprovider, -⟩ := declared_of_entry hentry
      rw [hmodel, hprovider] at h
      exact ⟨hnone, provider, declared, hentry, (Except.ok.inj h).symm⟩
  · rintro ⟨hrun, provider, declared, hentry, rfl⟩
    obtain ⟨hmodel, hprovider, -⟩ := declared_of_entry hentry
    rw [CanRun] at hrun
    rw [hrun]
    dsimp only
    rw [hmodel, hprovider]

/-- The candidates that can run the task, in their order. -/
theorem resolveCandidates_eq (c : Catalog) (shape : TaskShape) (moment : Option Moment) :
    (∃ rejected, (shape.candidates.filterMap (eligibleOf c shape moment)).argmin Eligible.cost = none ∧
      resolveCandidates c shape moment = .error (.noneEligible rejected)) ∨
    ∃ e, (shape.candidates.filterMap (eligibleOf c shape moment)).argmin Eligible.cost = some e ∧
      resolveCandidates c shape moment = .ok {
        provider := e.provider
        model := e.name
        params := paramsFor shape e.declared
        est_cost_usd := some e.cost
        off_peak := isOffPeak e.declared.rates moment } := by
  obtain ⟨judged, hjudged, heligible⟩ := mapM_judge c shape moment shape.candidates
  unfold resolveCandidates
  rw [hjudged, ← heligible]
  dsimp only [bind, Except.bind]
  rcases hmin : (judged.filterMap Sum.getRight?).argmin Eligible.cost with _ | e
  · exact .inl ⟨_, rfl, rfl⟩
  · exact .inr ⟨e, rfl, rfl⟩

/-- The first of the cheapest candidates that can run the task. -/
structure Cheapest (c : Catalog) (shape : TaskShape) (moment : Option Moment) (name : String) (cost : ℚ) : Prop where
  runs : CanRun c shape name
  priced : estimate c shape name moment = some cost
  first : ∃ before after, shape.candidates = before ++ name :: after ∧
    (∀ n ∈ before, CanRun c shape n → ∀ x, estimate c shape n moment = some x → cost < x) ∧
    ∀ n ∈ after, CanRun c shape n → ∀ x, estimate c shape n moment = some x → cost ≤ x

/-- What `argmin` takes is the first of the cheapest. -/
theorem cheapest_of_argmin {e : Eligible}
    (hmin : (shape.candidates.filterMap (eligibleOf c shape moment)).argmin Eligible.cost = some e) :
    Cheapest c shape moment e.name e.cost := by
  have hmem := List.argmin_mem hmin
  obtain ⟨name, hname, he⟩ := List.mem_filterMap.mp hmem
  obtain ⟨hrun, rfl, hentry, hcost⟩ := eligibleOf_eq_some.mp he
  -- Another candidate that can run the task has an entry of its own.
  have hother : ∀ n, CanRun c shape n → ∀ x, estimate c shape n moment = some x →
      ∃ e', eligibleOf c shape moment n = some e' ∧ e'.cost = x := by
    intro n hn x hx
    obtain ⟨provider, declared, hentry'⟩ := entry_of_not_rejected hn
    exact ⟨⟨x, n, provider, declared⟩, eligibleOf_eq_some.mpr ⟨hn, rfl, hentry', hx⟩, rfl⟩
  obtain ⟨before, after, hsplit, hnot⟩ := List.eq_append_cons_of_mem hname
  refine ⟨hrun, hcost, before, after, hsplit, fun n hn hrun' x hx => ?_, fun n hn hrun' x hx => ?_⟩
  · obtain ⟨e', he', rfl⟩ := hother n hrun' x hx
    by_contra hle
    -- It stands before, so that it would have been taken.
    have hlist : shape.candidates.filterMap (eligibleOf c shape moment) =
        before.filterMap (eligibleOf c shape moment) ++
          e :: after.filterMap (eligibleOf c shape moment) := by
      rw [hsplit, List.filterMap_append, List.filterMap_cons_some he]
    have hbefore : e' ∈ before.filterMap (eligibleOf c shape moment) := List.mem_filterMap.mpr ⟨n, hn, he'⟩
    have hnot' : e ∉ before.filterMap (eligibleOf c shape moment) := by
      intro hmem'
      obtain ⟨n', hn', he''⟩ := List.mem_filterMap.mp hmem'
      obtain ⟨-, heq, -⟩ := eligibleOf_eq_some.mp he''
      rw [← heq] at hn'
      exact hnot hn'
    classical
    have hindex := List.index_of_argmin hmin (a := e') (List.mem_filterMap.mpr ⟨n, by simp [hsplit, hn], he'⟩)
      (not_lt.mp hle)
    rw [hlist, List.idxOf_append_of_notMem hnot', List.idxOf_append_of_mem hbefore] at hindex
    have hlt := List.idxOf_lt_length_of_mem hbefore
    omega
  · obtain ⟨e', he', rfl⟩ := hother n hrun' x hx
    refine List.le_of_mem_argmin (List.mem_filterMap.mpr ⟨n, ?_, he'⟩) hmin
    rw [hsplit]
    exact List.mem_append_right _ (List.mem_cons_of_mem _ hn)

/-- The model can be set as an override exactly if the screen offers it. -/
theorem resolveOverride_iff_offered (hselectable : ∀ d, c.model name = some d → d.selectable = true) :
    (∃ choice, resolveOverride c shape name moment = .ok choice) ↔
      ∃ x ∈ candidatesFor c shape moment, x.model = name ∧ x.eligible = true := by
  constructor
  · rintro ⟨choice, h⟩
    obtain ⟨hrun, provider, declared, hentry, -⟩ := resolveOverride_eq_ok.mp h
    obtain ⟨hmodel, -, -, rfl, hmem⟩ := declared_of_entry hentry
    refine ⟨candidacy c shape moment (provider, declared), ?_, rfl, (candidacy_eligible hmem).mpr hrun⟩
    exact mem_candidatesFor.mpr ⟨_, hmem, hselectable declared hmodel, rfl⟩
  · rintro ⟨x, hx, rfl, heligible⟩
    obtain ⟨e, he, -, rfl⟩ := mem_candidatesFor.mp hx
    have hrun := (candidacy_eligible he).mp heligible
    exact ⟨_, resolveOverride_eq_ok.mpr ⟨hrun, e.1, e.2, entry_of_mem he, rfl⟩⟩

/-- A choice is of a declared model that can run the task, with the parameters that the task implies for it. -/
theorem choice_params {choice : Choice} {override : Option String} (h : resolve c shape moment override = .ok choice) :
    ∃ provider declared, CanRun c shape choice.model ∧ c.entry choice.model = some (provider, declared) ∧
      choice.provider = provider ∧ choice.est_cost_usd = estimate c shape choice.model moment ∧
      choice.params = paramsFor shape declared := by
  unfold resolve at h
  split at h
  · contradiction
  split at h
  · obtain ⟨hrun, provider, declared, hentry, rfl⟩ := resolveOverride_eq_ok.mp h
    exact ⟨provider, declared, hrun, hentry, rfl, rfl, rfl⟩
  · rcases resolveCandidates_eq c shape moment with ⟨rejected, -, heq⟩ | ⟨e, hmin, heq⟩
    · rw [heq] at h
      contradiction
    · rw [heq] at h
      obtain rfl := Except.ok.inj h
      obtain ⟨name, -, he⟩ := List.mem_filterMap.mp (List.argmin_mem hmin)
      obtain ⟨hrun, rfl, hentry, hcost⟩ := eligibleOf_eq_some.mp he
      exact ⟨e.provider, e.declared, hrun, hentry, rfl, hcost.symm, rfl⟩

/-- The effort that a task asks of a model. -/
inductive Asks (shape : TaskShape) (declared : Model) (effort : String) : Prop
  /-- The one that the task names. -/
  | named (hne : effort ≠ "") (hnamed : shape.effort = some effort)
  /-- Where it names none, the first that it prefers of those that the model accepts. -/
  | preferred (hne : effort ≠ "") (hnone : ∀ e ∈ shape.effort, e = "") (before after : List String)
      (hsplit : shape.effort_preference = before ++ effort :: after)
      (haccepts : effort ∈ declared.reasoning.accepts) (hbefore : ∀ e ∈ before, e ∉ declared.reasoning.accepts)
  /-- Where the model accepts none of these, its default. -/
  | default (hne : effort ≠ "") (hnone : ∀ e ∈ shape.effort, e = "")
      (hrefuses : ∀ e ∈ shape.effort_preference, e ∉ declared.reasoning.accepts)
      (hdefault : declared.reasoning.default = some effort)

/-- A task that names no effort. -/
theorem filter_effort_eq_none : shape.effort.filter (· ≠ "") = none ↔ ∀ e ∈ shape.effort, e = "" := by
  rw [Option.filter_eq_none_iff]
  exact forall₂_congr fun e _ => by simp

/-- `chosenEffort` is the effort that the task asks of the model. -/
theorem chosenEffort_eq_some_iff {declared : Model} {effort : String} :
    chosenEffort shape declared = some effort ↔ Asks shape declared effort := by
  have hfound : ∀ {e}, (shape.effort_preference.find? fun e => declared.reasoning.accepts.contains e) = some e ↔
      e ∈ declared.reasoning.accepts ∧ ∃ before after, shape.effort_preference = before ++ e :: after ∧
        ∀ x ∈ before, x ∉ declared.reasoning.accepts := by
    intro e
    simp [List.find?_eq_some_iff_append]
  have hnotfound : (shape.effort_preference.find? fun e => declared.reasoning.accepts.contains e) = none ↔
      ∀ e ∈ shape.effort_preference, e ∉ declared.reasoning.accepts := by
    simp [List.find?_eq_none]
  unfold chosenEffort preferredEffort
  rw [Option.filter_eq_some_iff, Option.or_eq_some_iff, Option.filter_eq_some_iff, filter_effort_eq_none,
    Option.or_eq_some_iff, hfound, hnotfound, decide_eq_true_eq]
  constructor
  · rintro ⟨⟨hnamed, -⟩ | ⟨hnone, ⟨haccepts, before, after, hsplit, hbefore⟩ | ⟨hrefuses, hdefault⟩⟩, hne⟩
    · exact .named hne hnamed
    · exact .preferred hne hnone before after hsplit haccepts hbefore
    · exact .default hne hnone hrefuses hdefault
  · intro h
    cases h with
    | named hne hnamed => exact ⟨.inl ⟨hnamed, hne⟩, hne⟩
    | preferred hne hnone before after hsplit haccepts hbefore =>
      exact ⟨.inr ⟨hnone, .inl ⟨haccepts, before, after, hsplit, hbefore⟩⟩, hne⟩
    | default hne hnone hrefuses hdefault => exact ⟨.inr ⟨hnone, .inr ⟨hrefuses, hdefault⟩⟩, hne⟩

/-- The effort of the parameters, where the task's own do not set it. -/
theorem paramsFor_effort {declared : Model} {param : String} (hparam : declared.reasoning.param = some param)
    (hne : param ≠ "") (hfree : shape.params param = none) :
    ∀ effort, paramsFor shape declared param = some (.text effort) ↔ Asks shape declared effort := by
  have hfilter : declared.reasoning.param.filter (· ≠ "") = some param := by
    rw [hparam, Option.filter_some, if_pos (decide_eq_true hne)]
  intro effort
  rw [← chosenEffort_eq_some_iff]
  unfold paramsFor
  rw [hfilter]
  rcases hchosen : chosenEffort shape declared with _ | e
  · dsimp only
    constructor
    · intro h
      unfold Params.setdefault at h
      split at h
      · rw [hfree] at h
        contradiction
      · dsimp only at h
        split at h
        · exact absurd (Option.some.inj h) nofun
        · rw [hfree] at h
          contradiction
    · exact fun h => absurd h nofun
  · have hset : (shape.params.setdefault param (.text e)) param = some (.text e) := by
      unfold Params.setdefault
      rw [if_neg (by rw [hfree]; exact Bool.false_ne_true), if_pos rfl]
    dsimp only
    have hkeep : ((shape.params.setdefault param (.text e)).setdefault "max_output_tokens"
        (.number shape.max_output_tokens)) param = some (.text e) := by
      rw [Params.setdefault]
      split
      · exact hset
      · next hfree' =>
        have hother : param ≠ "max_output_tokens" := by
          rintro rfl
          rw [hset] at hfree'
          exact hfree' rfl
        dsimp only
        rw [if_neg hother]
        exact hset
    rw [hkeep, Option.some_inj, Option.some_inj, Param.text.injEq]

/-- The effort that is asked of a model that can run the task is one that it accepts, if it enumerates them, or its
own default. -/
theorem Asks.accepted {declared : Model} {provider effort : String} (h : Asks shape declared effort)
    (hrun : CanRun c shape name) (hentry : c.entry name = some (provider, declared))
    (haccepts : declared.reasoning.accepts ≠ []) :
    effort ∈ declared.reasoning.accepts ∨ declared.reasoning.default = some effort := by
  obtain ⟨hmodel, hprovider, -⟩ := declared_of_entry hentry
  rw [CanRun, hmodel, hprovider] at hrun
  cases h with
  | named _ hnamed => exact .inl (accepts_of_not_rejected hrun hnamed haccepts)
  | preferred _ _ _ _ _ hmem _ => exact .inl hmem
  | default _ _ _ hdefault => exact .inr hdefault

/-- Without an override, `NoEligibleModel` is raised exactly when no candidate can run the task. -/
theorem resolveCandidates_error_iff (c : Catalog) (shape : TaskShape) (moment : Option Moment) :
    (∃ rejected, resolveCandidates c shape moment = .error (.noneEligible rejected)) ↔
      ∀ n ∈ shape.candidates, ¬CanRun c shape n := by
  have hcases := resolveCandidates_eq c shape moment
  constructor
  · rintro ⟨rejected, h⟩ n hn hrun
    rcases hcases with ⟨_, hmin, -⟩ | ⟨e, -, heq⟩
    · obtain ⟨provider, declared, hentry⟩ := entry_of_not_rejected hrun
      obtain ⟨cost, hcost⟩ := estimate_of_entry shape moment hentry
      have hmem : (⟨cost, n, provider, declared⟩ : Eligible) ∈ shape.candidates.filterMap (eligibleOf c shape moment) :=
        List.mem_filterMap.mpr ⟨n, hn, eligibleOf_eq_some.mpr ⟨hrun, rfl, hentry, hcost⟩⟩
      rw [List.argmin_eq_none.mp hmin] at hmem
      exact absurd hmem List.not_mem_nil
    · rw [heq] at h
      contradiction
  · intro hall
    rcases hcases with ⟨rejected, -, heq⟩ | ⟨e, hmin, -⟩
    · exact ⟨rejected, heq⟩
    · obtain ⟨n, hn, he⟩ := List.mem_filterMap.mp (List.argmin_mem hmin)
      exact absurd (eligibleOf_eq_some.mp he).1 (hall n hn)

/-- It is all that is raised. -/
theorem resolveCandidates_error {failure : Failure} (h : resolveCandidates c shape moment = .error failure) :
    ∃ rejected, failure = .noneEligible rejected := by
  rcases resolveCandidates_eq c shape moment with ⟨rejected, -, heq⟩ | ⟨e, -, heq⟩
  · rw [heq] at h
    exact ⟨rejected, (Except.error.inj h).symm⟩
  · rw [heq] at h
    contradiction

/-- The assertions hold. -/
theorem resolveOverride_ne_assertion : resolveOverride c shape name moment ≠ .error .assertion := by
  intro h
  unfold resolveOverride at h
  dsimp only at h
  split at h
  · exact absurd (Except.error.inj h) nofun
  · next hrun =>
    obtain ⟨provider, declared, hentry⟩ := entry_of_not_rejected hrun
    obtain ⟨hmodel, hprovider, -⟩ := declared_of_entry hentry
    rw [hmodel, hprovider] at h
    contradiction

end Judgement

/-! ## What is offered, and what is taken -/

/-- The screen and `resolve` agree on every selectable model. Without an override `resolve` raises `NoEligibleModel`
exactly when no candidate can run the task, and otherwise takes the first of the cheapest; its assertion holds. Where
the task's own parameters do not set it, the effort is the one that the task asks of the model, and one that the model
accepts if it enumerates them, or the model's own default. -/
theorem screen_offers_what_routing_accepts (c : Catalog) (shape : TaskShape) (hne : shape.candidates ≠ [])
    (moment : Option Moment) :
    (∀ m, m ≠ "" → (∀ d, c.model m = some d → d.selectable = true) →
      ((∃ choice, resolve c shape moment (some m) = .ok choice) ↔
        ∃ x ∈ candidatesFor c shape moment, x.model = m ∧ x.eligible = true) ∧
      ∀ choice x, resolve c shape moment (some m) = .ok choice → x ∈ candidatesFor c shape moment → x.model = m →
        choice.model = m ∧ choice.provider = x.provider ∧ choice.est_cost_usd = x.est_cost_usd) ∧
    ((∃ rejected, resolve c shape moment none = .error (.noneEligible rejected)) ↔
      ∀ n ∈ shape.candidates, ¬CanRun c shape n) ∧
    (∀ failure, resolve c shape moment none = .error failure → ∃ rejected, failure = .noneEligible rejected) ∧
    (∀ choice, resolve c shape moment none = .ok choice →
      ∃ cost, choice.est_cost_usd = some cost ∧ Cheapest c shape moment choice.model cost) ∧
    (∀ override, resolve c shape moment override ≠ .error .assertion) ∧
    ∀ override choice d param, resolve c shape moment override = .ok choice → c.model choice.model = some d →
      d.reasoning.param = some param → param ≠ "" → d.reasoning.accepts ≠ [] → shape.params param = none →
      (∀ effort, choice.params param = some (.text effort) ↔ Asks shape d effort) ∧
        ∀ effort, choice.params param = some (.text effort) →
          effort ∈ d.reasoning.accepts ∨ d.reasoning.default = some effort := by
  have hnone : resolve c shape moment none = resolveCandidates c shape moment := if_neg hne
  have hsome : ∀ m, m ≠ "" → resolve c shape moment (some m) = resolveOverride c shape m moment := by
    intro m hm
    unfold resolve
    rw [if_neg hne, Option.filter_some, if_pos (decide_eq_true hm)]
  refine ⟨fun m hm hselectable => ⟨?_, fun choice x hchoice hx hxm => ?_⟩, ?_, ?_, ?_, ?_, ?_⟩
  · rw [hsome m hm]
    exact resolveOverride_iff_offered hselectable
  · rw [hsome m hm] at hchoice
    obtain ⟨hrun, provider, declared, hentry, rfl⟩ := resolveOverride_eq_ok.mp hchoice
    obtain ⟨e, he, -, rfl⟩ := mem_candidatesFor.mp hx
    obtain rfl : e.2.name = m := hxm
    obtain rfl := Option.some.inj ((entry_of_mem he).symm.trans hentry)
    exact ⟨rfl, rfl, (candidacy_cost ((candidacy_eligible he).mpr hrun)).symm⟩
  · rw [hnone]
    exact resolveCandidates_error_iff c shape moment
  · intro failure h
    exact resolveCandidates_error (hnone ▸ h)
  · intro choice h
    rw [hnone] at h
    rcases resolveCandidates_eq c shape moment with ⟨rejected, -, heq⟩ | ⟨e, hmin, heq⟩
    · rw [heq] at h
      contradiction
    · rw [heq] at h
      obtain rfl := Except.ok.inj h
      exact ⟨e.cost, rfl, cheapest_of_argmin hmin⟩
  · intro override h
    rcases hoverride : override.filter (· ≠ "") with _ | m
    · rw [resolve, if_neg hne, hoverride] at h
      obtain ⟨rejected, hfailure⟩ := resolveCandidates_error h
      contradiction
    · rw [resolve, if_neg hne, hoverride] at h
      exact resolveOverride_ne_assertion h
  · intro override choice d param h hd hparam hparamNe haccepts hfree
    obtain ⟨provider, declared, hrun, hentry, -, -, hparams⟩ := choice_params h
    obtain rfl := Option.some.inj ((declared_of_entry hentry).1.symm.trans hd)
    have heffort := paramsFor_effort hparam hparamNe hfree
    rw [hparams]
    exact ⟨heffort, fun effort he => ((heffort effort).mp he).accepted hrun hentry haccepts⟩

/-- No price. -/
theorem zero_nonneg : (0 : ℚ) ≤ 0 := le_refl 0

/-- A sheet of one tier, with half the price for a batch. -/
def flat (rate_in rate_out rate_cached_in : ℚ) (hin : 0 ≤ rate_in) (hout : 0 ≤ rate_out) (hcached : 0 ≤ rate_cached_in) :
    Rates where
  tiers := [{
    up_to_prompt_tokens := none
    rate_in := rate_in
    rate_out := rate_out
    rate_cached_in := some rate_cached_in
    in_nonneg := hin
    out_nonneg := hout
    cached_nonneg := by simpa using hcached
    write_nonneg := none_nonneg }]
  batch_rate := some (1 / 2)
  tiers_ne := List.cons_ne_nil _ _
  batch_nonneg := half_nonneg
  multiplier_nonneg := none_nonneg

/-- A model of OpenAI. -/
def luna : Model where
  name := "gpt-6-luna"
  structured_output := .json_schema
  rates := flat (1 / 10) (1 / 2) (1 / 100) (by norm_num) (by norm_num) (by norm_num)
  reasoning := ⟨some "reasoning_effort", ["none", "low", "medium", "high", "xhigh", "max"], some "low"⟩
  max_output_tokens := some 128000

/-- Its model for embeddings, which is not selectable. -/
def embedding : Model where
  name := "text-embedding-3-small"
  structured_output := .none
  rates := flat (1 / 50) 0 (1 / 50) (by norm_num) zero_nonneg (by norm_num)
  reasoning := ⟨none, [], none⟩
  max_output_tokens := none
  selectable := false

/-- A model of Anthropic, with efforts and no default one. -/
def opus : Model where
  name := "claude-opus-5"
  structured_output := .json_schema
  rates := flat 5 25 (1 / 2) (by norm_num) (by norm_num) (by norm_num)
  reasoning := ⟨some "effort", ["low", "medium", "high", "xhigh", "max"], none⟩
  max_output_tokens := some 128000
  batch_supported := some true

/-- Two providers, with these models. -/
def threeModels : Catalog where
  providers := [⟨"openai", some "/v1/responses", [luna, embedding]⟩,
    ⟨"anthropic", some "/v1/messages/batches", [opus]⟩]
  names_nodup := by decide
  models_nodup := by decide

/-- `JOB_PROFILE_TASK`: a batched task with one candidate, which prefers to ask for no effort. -/
def jobProfileTask : TaskShape where
  structured := .json_schema
  batched := true
  max_output_tokens := 1000
  est_prompt_tokens := 3200
  effort_preference := ["none"]
  candidates := ["gpt-6-luna"]

/-- The task runs on its candidate, with the effort that it prefers, and the screen offers it. -/
theorem screen_offers_what_routing_accepts_luna :
    (∃ choice cost, resolve threeModels jobProfileTask none none = .ok choice ∧
      Cheapest threeModels jobProfileTask none choice.model cost ∧
      choice.params "reasoning_effort" = some (.text "none")) ∧
    ∃ x ∈ candidatesFor threeModels jobProfileTask none, x.model = "gpt-6-luna" ∧ x.eligible = true := by
  obtain ⟨hoffered, -, -, hcheapest, -, heffort⟩ :=
    screen_offers_what_routing_accepts threeModels jobProfileTask (List.cons_ne_nil _ _) none
  constructor
  · have hany : (resolve threeModels jobProfileTask none none).toOption.any (fun choice => choice.model = "gpt-6-luna") =
        true := by decide +kernel
    rcases hchoice : resolve threeModels jobProfileTask none none with failure | choice
    · rw [hchoice] at hany
      contradiction
    · rw [hchoice] at hany
      have hmodel : choice.model = "gpt-6-luna" := of_decide_eq_true hany
      obtain ⟨cost, -, hcost⟩ := hcheapest choice hchoice
      refine ⟨choice, cost, rfl, hcost, ?_⟩
      have hd : threeModels.model choice.model = some luna := by rw [hmodel]; rfl
      have hparams := heffort none choice luna "reasoning_effort" hchoice hd rfl (by decide) (List.cons_ne_nil _ _) rfl
      have hasks : Asks jobProfileTask luna "none" :=
        .preferred (by decide) (fun e he => absurd he (Option.not_mem_none e)) [] [] rfl (by decide)
          fun e he => absurd he List.not_mem_nil
      exact (hparams.1 "none").mpr hasks
  · refine ((hoffered "gpt-6-luna" (by decide) ?_).1).mp ?_
    · intro d hd
      obtain rfl : luna = d := Option.some.inj hd
      rfl
    · have hany : (resolve threeModels jobProfileTask none (some "gpt-6-luna")).toOption.any (fun _ => true) = true := by
        decide +kernel
      rcases hchoice : resolve threeModels jobProfileTask none (some "gpt-6-luna") with failure | choice
      · rw [hchoice] at hany
        contradiction
      · exact ⟨choice, rfl⟩

/-- `resolve` takes a model that the screen does not list, because it is not selectable; and it calls a model that
enumerates its efforts without one, where the task prefers none of them and the model declares no default. -/
theorem unlisted_and_without_effort :
    (∃ choice, resolve threeModels { jobProfileTask with structured := .none, batched := false } none
        (some "text-embedding-3-small") = .ok choice) ∧
    (∀ x ∈ candidatesFor threeModels { jobProfileTask with structured := .none, batched := false } none,
      x.model ≠ "text-embedding-3-small") ∧
    ∃ choice d, resolve threeModels jobProfileTask none (some "claude-opus-5") = .ok choice ∧
      threeModels.model choice.model = some d ∧ d.reasoning.param = some "effort" ∧ d.reasoning.accepts ≠ [] ∧
      choice.params "effort" = none := by
  refine ⟨?_, ?_, ?_⟩
  · have hany : (resolve threeModels { jobProfileTask with structured := .none, batched := false } none
        (some "text-embedding-3-small")).toOption.any (fun _ => true) = true := by decide +kernel
    rcases hchoice : resolve threeModels { jobProfileTask with structured := .none, batched := false } none
        (some "text-embedding-3-small") with failure | choice
    · rw [hchoice] at hany
      contradiction
    · exact ⟨choice, rfl⟩
  · intro x hx
    obtain ⟨e, he, hselectable, rfl⟩ := mem_candidatesFor.mp hx
    have hall : ∀ e ∈ threeModels.models, e.2.selectable = true → e.2.name ≠ "text-embedding-3-small" := by decide
    exact hall e he hselectable
  · have hany : (resolve threeModels jobProfileTask none (some "claude-opus-5")).toOption.any (fun choice =>
        choice.model = "claude-opus-5" && (choice.params "effort").isNone) = true := by decide +kernel
    rcases hchoice : resolve threeModels jobProfileTask none (some "claude-opus-5") with failure | choice
    · rw [hchoice] at hany
      contradiction
    · rw [hchoice] at hany
      have hboth : (choice.model = "claude-opus-5" && (choice.params "effort").isNone) = true := hany
      rw [Bool.and_eq_true, decide_eq_true_eq, Option.isNone_iff_eq_none] at hboth
      have hd : threeModels.model choice.model = some opus := by rw [hboth.1]; rfl
      exact ⟨choice, opus, rfl, hd, rfl, List.cons_ne_nil _ _, hboth.2⟩

end JobScripts.Models.Routing

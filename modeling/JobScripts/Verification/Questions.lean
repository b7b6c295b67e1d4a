import JobScripts.Lib.Dumps
import JobScripts.Lib.Run
import JobScripts.Models.Routing
import JobScripts.Verification.Inputs

/-!
# The question that a verdict answered

`question_sha256` of `tasks/verification/questions.py` identifies a request by its model, its effort, its schema, its
instructions and its input, and re-verification copies a standing answer where the hash is that of the request it
would send (`_reuse_unchanged`). The hash takes the effort from the task, the submission from routing; on every way
that leads to a submission the two are one (`effort_eq`), and equal hashes are equal requests (`question_eq_iff`).

A verdict may hold the hash of another request than the one it answered. A joint request stands in for the
verification alone, and a copied row has the question of the model it was copied for. So a copied answer was given to
the verification request, or to a joint request in its place, by a model that the groupings so far link with the
current one (`reuse_answers_the_question`), and not always to the request that would be sent
(`joint_answer_reused`).
-/

namespace JobScripts.Verification.Questions

open Lib Lib.Dumps Models.Routing
open Lib.Loads (Value Text)
open Models.Pricing (Moment)
open Inputs (buildInput buildCustomInput)

/-! ## Routing -/

/-- A name of the datasheets, or of a response model's class: text without NUL. -/
def Plain (text : String) : Prop := '\x00' ∉ text.toList

instance (text : String) : Decidable (Plain text) := inferInstanceAs (Decidable ('\x00' ∉ text.toList))

/-- The datasheets: the model of verification is among them, and parameters have names. -/
structure Datasheets extends Catalog where
  luna_declared : (toCatalog.model "gpt-6-luna").isSome = true
  names_plain : ∀ e ∈ toCatalog.models, e.2.name ≠ "" ∧ Plain e.2.name
  params_named : ∀ e ∈ toCatalog.models, e.2.reasoning.param ≠ some ""

/-- `VERIFY_TASK`, which `configured_shape` leaves as it is. -/
def verifyTask : TaskShape where
  structured := .json_schema
  batched := true
  max_output_tokens := 1000
  est_prompt_tokens := 5500
  candidates := ["gpt-6-luna"]
  effort := some "low"

/-- `_EFFORT`: the effort that the task names, or low. -/
def effort : String := (verifyTask.effort.filter (· ≠ "")).getD "low"

/-- `resolved_effort`: the effort of a task on its first candidate. -/
def resolvedEffort (c : Catalog) (shape : TaskShape) : Option String :=
  match shape.candidates.head?.bind c.model with
  | none => none
  | some declared => (shape.effort.filter (· ≠ "")).or (preferredEffort shape declared)

/-- A parameter as text; the empty text and zero are none. -/
def shownParam : Option Param → Option String
  | some (.text s) => if s = "" then none else some s
  | some (.number n) => if n = 0 then none else some (toString n)
  | none => none

/-- The effort that `_submission_model` and `run_batched` submit with. -/
def submissionEffort (c : Catalog) (shape : TaskShape) (choice : Choice) : String :=
  ((shownParam (choice.params "reasoning_effort")).or ((resolvedEffort c shape).filter (· ≠ ""))).getD ""

/-- The effort that `_submit` goes on with after a provider's refusal. -/
def fallbackEffort (c : Catalog) (choice : Choice) : String :=
  match (c.model choice.model).bind fun declared => declared.reasoning.param.filter (· ≠ "") with
  | some param => (shownParam (choice.params param)).getD ""
  | none => ""

/-- `next_choice`: the first model of a chain that is not tried, not blocked and not rejected. -/
def nextChoice (c : Catalog) (shape : TaskShape) (chain blocked tried : List String) (moment : Option Moment) :
    Option Choice :=
  chain.findSome? fun name =>
    if tried.contains name || ((c.providerOf name).any blocked.contains) then none
    else (resolve c { shape with candidates := [name] } moment none).toOption

/-- `route`: the chosen model, or the next one where its provider is out of credit. -/
def route (c : Catalog) (shape : TaskShape) (override : Option String) (chain blocked unkeyed : List String)
    (moment : Option Moment) : Except Failure Choice := do
  let chosen ← resolve c shape moment override
  if blocked.contains chosen.provider then
    return (nextChoice c shape chain (blocked ++ unkeyed) [chosen.model] moment).getD chosen
  else
    return chosen

/-- A verification is submitted to a model with an effort: as routing chose, or after a refusal. -/
inductive Submitted (d : Datasheets) : String → String → Prop
  | routed (override : Option String) (chain blocked unkeyed : List String) (moment : Option Moment) (choice : Choice)
      (h : route d.toCatalog verifyTask override chain blocked unkeyed moment = .ok choice) :
      Submitted d choice.model (submissionEffort d.toCatalog verifyTask choice)
  | refused (chain blocked tried : List String) (moment : Option Moment) (choice : Choice)
      (h : nextChoice d.toCatalog verifyTask chain blocked tried moment = some choice) :
      Submitted d choice.model (fallbackEffort d.toCatalog choice)

/-! ## Requests -/

/-- The schema of a response model: a value of which `json.dumps` makes a text that is read back as it, so that no
`dict` has a key twice. -/
structure Schema where
  value : Value
  readable : Readable value

/-- A response model, by the name of its class and its schema. -/
structure ResponseModel where
  name : String
  name_plain : Plain name
  schema : Schema

/-- `BatchSpec`, with the context that the request was built with. -/
structure BatchSpec (κ : Type) where
  custom_id : String
  instructions : String
  input : String
  response_model : ResponseModel
  context : κ

/-- A text that is written in ASCII, as a string. -/
def asString (t : Text) : String := String.ofList (t.map Char.ofNat)

/-- The parts of a question. -/
def parts {κ : Type} (model : String) (request : BatchSpec κ) : List String :=
  [model, effort, request.response_model.name, asString (dumps request.response_model.schema.value),
    request.instructions, request.input]

/-- What the digest reads: each part in UTF-8, with a NUL after it. -/
def framed (parts : List String) : List UInt8 :=
  parts.flatMap fun part => part.toList.flatMap String.utf8EncodeChar ++ [0]

/-- `question_sha256`: the digest of a request, as long as there is a model that it is for. -/
def questionSha256 {D κ : Type} (sha : List UInt8 → D) (model : Option String) (request : Option (BatchSpec κ)) :
    Option D :=
  match model, request with
  | some model, some request => if model = "" then none else some (sha (framed (parts model request)))
  | _, _ => none

/-- Two requests that ask the same, of whichever model. -/
structure SameRequest {κ κ' : Type} (a : BatchSpec κ) (b : BatchSpec κ') : Prop where
  schema_name : a.response_model.name = b.response_model.name
  schema : same a.response_model.schema.value b.response_model.schema.value = true
  instructions : a.instructions = b.instructions
  input : a.input = b.input

/-- A declared model. -/
structure ModelId where
  name : String
  ne_empty : name ≠ ""
  plain : Plain name
  deriving DecidableEq

/-- The recipe of verification: `VERIFICATION_REQUEST`. -/
structure Recipe where
  instructions : String
  instructions_plain : Plain instructions
  response_model : ResponseModel

/-- A question that a board asks along with verification. -/
structure BoardQuestion where
  board_id : ℕ
  criteria : String

/-- What the code of one version asks with. `joint_verification` gives instructions and a response model for the
criteria of the boards. -/
structure Prompts where
  verification : Recipe
  jointVerification : List BoardQuestion → String × ResponseModel

/-- A posting that is asked about. -/
structure Row where
  url : String
  company : Option String
  title : Option String
  needs_closed : Bool
  needs_clearance : Bool
  input_content : String

/-- What a request carries to the verdicts that its answer writes. -/
structure Context (D : Type) where
  needs_closed : Bool
  needs_clearance : Bool
  model : Option ModelId
  verify_question : Option D
  boards : List ℕ

/-- `_verification_spec`, without its context. -/
def verificationSpec (prompts : Prompts) (url content : String) : BatchSpec Unit :=
  ⟨url, prompts.verification.instructions, buildInput content, prompts.verification.response_model, ()⟩

/-- `_joint_spec`, without its context. -/
def jointSpec (prompts : Prompts) (row : Row) (questions : List BoardQuestion) : BatchSpec Unit :=
  ⟨row.url, (prompts.jointVerification questions).1,
    buildCustomInput row.company row.title (buildInput row.input_content), (prompts.jointVerification questions).2, ()⟩

/-- A request that `_build_specs` or re-verification built: for verification alone, or with the questions of boards, if
there are any, for a model. -/
inductive Asked
  | alone (prompts : Prompts) (row : Row)
  | joint (prompts : Prompts) (row : Row) (questions : List BoardQuestion) (hne : questions ≠ []) (model : ModelId)

/-- The request as it was sent. -/
def Asked.spec : Asked → BatchSpec Unit
  | .alone prompts row => verificationSpec prompts row.url row.input_content
  | .joint prompts row questions _ _ => jointSpec prompts row questions

/-- The verification that a request stands for. -/
def Asked.verification : Asked → BatchSpec Unit
  | .alone prompts row => verificationSpec prompts row.url row.input_content
  | .joint prompts row _ _ _ => verificationSpec prompts row.url row.input_content

/-- The context of a request: `_row_context`, and what `_joint_spec` adds to it. -/
def Asked.context {D : Type} (sha : List UInt8 → D) : Asked → Context D
  | .alone _ row => ⟨row.needs_closed, row.needs_clearance, none, none, []⟩
  | .joint prompts row questions _ model =>
    ⟨row.needs_closed, row.needs_clearance, some model,
      questionSha256 sha (some model.name) (some (verificationSpec prompts row.url row.input_content)),
      questions.map BoardQuestion.board_id⟩

/-! ## The ledger -/

/-- The checks of verification. -/
inductive Check
  | closed
  | clearance
  deriving DecidableEq

/-- The answer that a verdict goes back to: the model that gave it, and the request that it was given to. -/
structure Answer where
  model : ModelId
  request : Asked

/-- A row of `verdicts`, with the answer that its content goes back to. -/
structure Verdict (D : Type) where
  url : String
  check : Check
  rejected : Bool
  reason : Option String
  config_name : Option String
  model : Option ModelId
  request_sha256 : Option D
  answer : Option Answer

/-- What a verification answer says. -/
structure Parsed where
  is_closed : Bool
  closed_reason : String
  requires_clearance_or_restrictions : Bool
  clearance_reason : String

/-- What an answer says on a check. -/
def Parsed.on (parsed : Parsed) : Check → Bool × String
  | .closed => (parsed.is_closed, parsed.closed_reason)
  | .clearance => (parsed.requires_clearance_or_restrictions, parsed.clearance_reason)

/-- A collected result. Its request is the snapshot that was submitted, its model that of its batch. -/
structure BatchResult (κ : Type) where
  custom_id : String
  request : Option κ
  error : Option String
  text : Option String
  model : Option ModelId
  parsed : Option Parsed

/-- What a result says, if it is an answer at all. -/
def BatchResult.answered {κ : Type} (res : BatchResult κ) : Option Parsed :=
  if res.error.isSome || res.text.getD "" = "" then none else res.parsed

section Code

variable {D : Type} [DecidableEq D] (sha : List UInt8 → D)

/-- The question that a row of `_record_result` has: a joint request's is the one that it stands for. -/
def recordedQuestion (model : Option ModelId) (asked : Asked) : Option D :=
  if (asked.context sha).boards.isEmpty then questionSha256 sha (model.map ModelId.name) (some asked.spec)
  else if model = (asked.context sha).model then (asked.context sha).verify_question
  else none

/-- The row on one check. -/
def verdictOn (custom_id : String) (parsed : Parsed) (config_name : String) (model : Option ModelId)
    (question : Option D) (asked : Asked) (check : Check) : Verdict D :=
  { url := custom_id
    check := check
    rejected := (parsed.on check).1
    reason := some (parsed.on check).2
    config_name := some config_name
    model := model
    request_sha256 := question
    answer := model.map fun m => ⟨m, asked⟩ }

/-- Whether a request was to answer a check. -/
def Context.needs (job : Context D) : Check → Bool
  | .closed => job.needs_closed
  | .clearance => job.needs_clearance

/-- The rows of `_record_result` for the two checks: those that the request was to answer and that have no verdict. -/
def recordResult (verdicts : List (Verdict D)) (res : BatchResult Asked) : List (Verdict D) :=
  match res.request, res.answered with
  | some asked, some parsed =>
    ([.clearance, .closed] : List Check).filterMap fun check =>
      if (asked.context sha).needs check && !(verdicts.any fun v => v.url = res.custom_id && v.check = check) then
        some (verdictOn res.custom_id parsed "verify-batch" res.model (recordedQuestion sha res.model asked) asked check)
      else none
  | _, _ => []

/-- The rows of `_record_reverify_results` for one result; `newer` says that other evidence came after the batch. -/
def recordReverifyResult (newer : Bool) (res : BatchResult (Prompts × Row)) : List (Verdict D) :=
  match res.request, res.answered with
  | some (prompts, row), some parsed =>
    if newer then []
    else
      ([.clearance, .closed] : List Check).map fun check =>
        verdictOn res.custom_id parsed "reverify" res.model
          (questionSha256 sha (res.model.map ModelId.name) (some (Asked.alone prompts row).spec))
          (.alone prompts row) check
  | _, _ => []

/-- `answering_models`: the model's group, or the model alone. -/
def answeringModels (groups : List (List ModelId)) (model : ModelId) : List ModelId :=
  (groups.find? fun group => group.contains model).getD [model]

/-- `latest_checks`: the newest answer to a check. The newest row is first. -/
def latest (verdicts : List (Verdict D)) (url : String) (check : Check) : Option (Verdict D) :=
  verdicts.find? fun v => v.url = url && v.check = check

/-- The text of a page: a later one of the same posting counts. -/
def textOf (fetched : List (String × String)) (url : String) : Option String := fetched.reverse.lookup url

/-- The questions that are accepted for a posting: the model's own, and those of the models grouped with it. -/
def accepted (prompts : Prompts) (groups : List (List ModelId)) (model : ModelId) (url text : String) :
    List (Option D) :=
  (model :: (answeringModels groups model).filter (· ≠ model)).map fun m =>
    questionSha256 sha (some m.name) (some (verificationSpec prompts url text))

/-- A standing answer, written again with the question of this model. -/
def copied (question : Option D) (v : Verdict D) : Verdict D :=
  { v with
    config_name := some "reverify-unchanged"
    model := none
    request_sha256 := question }

/-- `_reuse_unchanged`, for one posting. -/
def reuseUnchangedAt (verdicts : List (Verdict D)) (prompts : Prompts) (groups : List (List ModelId)) (model : ModelId)
    (url text : String) : List (Verdict D) :=
  match latest verdicts url .closed, latest verdicts url .clearance with
  | some closed, some clearance =>
    if closed.request_sha256 ∈ accepted sha prompts groups model url text ∧
        clearance.request_sha256 ∈ accepted sha prompts groups model url text then
      [copied (questionSha256 sha (some model.name) (some (verificationSpec prompts url text))) closed,
        copied (questionSha256 sha (some model.name) (some (verificationSpec prompts url text))) clearance]
    else []
  | _, _ => []

/-- `_reuse_unchanged`: the rows that copy a standing answer, for each page that was fetched. -/
def reuseUnchanged (verdicts : List (Verdict D)) (prompts : Prompts) (groups : List (List ModelId)) (model : ModelId)
    (fetched : List (String × String)) : List (Verdict D) :=
  (fetched.map Prod.fst).dedup.flatMap fun url =>
    match textOf fetched url with
    | some text => reuseUnchangedAt sha verdicts prompts groups model url text
    | none => []

/-- What writes verdicts: results of the two sweeps, copies, and rows that record no question. -/
inductive Act (D : Type)
  | record (res : BatchResult Asked)
  | reverify (newer : Bool) (res : BatchResult (Prompts × Row))
  | reuse (prompts : Prompts) (groups : List (List ModelId)) (model : ModelId) (fetched : List (String × String))
  | other (v : Verdict D)

/-- The verdicts after an act. -/
def step (verdicts : List (Verdict D)) : Act D → Option (List (Verdict D))
  | .record res => some (recordResult sha verdicts res ++ verdicts)
  | .reverify newer res => some (recordReverifyResult sha newer res ++ verdicts)
  | .reuse prompts groups model fetched => some (reuseUnchanged sha verdicts prompts groups model fetched ++ verdicts)
  | .other v => if v.request_sha256 = none then some (v :: verdicts) else none

/-- Every grouping of a run is within a relation. -/
def Grouped (G : ModelId → ModelId → Prop) (_ : List (Verdict D)) : Act D → Prop
  | .reuse _ groups model _ => ∀ m ∈ answeringModels groups model, G m model
  | _ => True

/-- Every row that is copied goes back, on both checks, to answers that a near model gave to the request. -/
def CopiesOnly (near : ModelId → ModelId → Prop) (request : Asked → BatchSpec Unit) (verdicts : List (Verdict D))
    (prompts : Prompts) (groups : List (List ModelId)) (model : ModelId) (fetched : List (String × String)) : Prop :=
  ∀ row ∈ reuseUnchanged sha verdicts prompts groups model fetched, ∃ text, textOf fetched row.url = some text ∧
    ∀ check, ∃ v ∈ latest verdicts row.url check, ∃ answer ∈ v.answer, near answer.model model ∧
      SameRequest (request answer.request) (verificationSpec prompts row.url text)

end Code

/-! ## The effort -/

section Effort

variable {d : Datasheets} {shape : TaskShape} {moment : Option Moment} {override : Option String} {choice : Choice}

/-- A model that is chosen for a task with an effort takes it as a parameter that has a name. -/
theorem param_of_choice (heffort : shape.effort = some "low")
    (h : resolve d.toCatalog shape moment override = .ok choice) :
    ∃ declared param, d.toCatalog.model choice.model = some declared ∧ declared.reasoning.param = some param ∧
      param ≠ "" ∧ choice.params = paramsFor shape declared := by
  obtain ⟨provider, declared, hrun, hentry, -, -, hparams⟩ := choice_params h
  obtain ⟨hmodel, hprovider, -, -, hmem⟩ := declared_of_entry hentry
  rw [CanRun, hmodel, hprovider] at hrun
  have hnone : effortRejection shape declared = none := by
    unfold rejection at hrun
    dsimp only at hrun
    split at hrun
    · contradiction
    split at hrun
    · contradiction
    rw [Option.or_eq_none_iff, Option.or_eq_none_iff] at hrun
    exact hrun.1.1
  rcases hparam : declared.reasoning.param with _ | param
  · -- The task names an effort, so a model without one is rejected.
    unfold effortRejection at hnone
    rw [heffort] at hnone
    dsimp only at hnone
    rw [if_pos hparam] at hnone
    contradiction
  · refine ⟨declared, param, hmodel, hparam, ?_, hparams⟩
    rintro rfl
    exact d.params_named _ hmem hparam

/-- The task's own effort is asked of every model. -/
theorem chosenEffort_low (heffort : shape.effort = some "low") (declared : Model) :
    chosenEffort shape declared = some "low" := by
  have hown : shape.effort.filter (· ≠ "") = some "low" := by
    rw [heffort]
    decide
  rw [chosenEffort, hown, Option.some_or]
  decide

/-- No parameter of verification's is another effort. -/
theorem reasoning_effort_low (heffort : shape.effort = some "low") (hparams : shape.params = fun _ => none)
    (declared : Model) :
    paramsFor shape declared "reasoning_effort" = some (.text "low") ∨
      paramsFor shape declared "reasoning_effort" = none := by
  have hset (params : Params) (h : params "reasoning_effort" = some (.text "low") ∨ params "reasoning_effort" = none)
      (value : Param) : params.setdefault "max_output_tokens" value "reasoning_effort" = some (.text "low") ∨
        params.setdefault "max_output_tokens" value "reasoning_effort" = none := by
    unfold Params.setdefault
    split
    · exact h
    · dsimp only
      rw [if_neg (by decide)]
      exact h
  unfold paramsFor
  refine hset _ ?_ _
  rw [chosenEffort_low heffort, hparams]
  rcases declared.reasoning.param.filter (· ≠ "") with _ | param
  · exact .inr rfl
  · unfold Params.setdefault
    dsimp only
    rw [if_neg (by decide)]
    by_cases hparam : "reasoning_effort" = param
    · exact .inl (if_pos hparam)
    · exact .inr (if_neg hparam)

/-- Verification's effort, on a model of the datasheets. -/
theorem resolvedEffort_low (d : Datasheets) : resolvedEffort d.toCatalog verifyTask = some "low" := by
  obtain ⟨declared, hdeclared⟩ := Option.isSome_iff_exists.mp d.luna_declared
  unfold resolvedEffort
  rw [show verifyTask.candidates.head? = some "gpt-6-luna" from rfl, Option.bind_some, hdeclared]
  rfl

/-- A first submission has the task's effort, of whichever shape its choice was made. -/
theorem submissionEffort_low {declared : Model} (heffort : shape.effort = some "low")
    (hparams : shape.params = fun _ => none) (hchoice : choice.params = paramsFor shape declared) :
    submissionEffort d.toCatalog verifyTask choice = "low" := by
  rw [submissionEffort, hchoice, resolvedEffort_low]
  rcases reasoning_effort_low heffort hparams declared with h | h
  · rw [h]
    rfl
  · rw [h]
    rfl

/-- A chosen model of a chain was resolved for the task with this one candidate. -/
theorem resolve_of_nextChoice {c : Catalog} {chain blocked tried : List String}
    (h : nextChoice c shape chain blocked tried moment = some choice) :
    ∃ name, resolve c { shape with candidates := [name] } moment none = .ok choice := by
  obtain ⟨name, -, hname⟩ := List.exists_of_findSome?_eq_some h
  split at hname
  · contradiction
  · refine ⟨name, ?_⟩
    rcases hresolve : resolve c { shape with candidates := [name] } moment none with failure | choice'
    · rw [hresolve] at hname
      contradiction
    · rw [hresolve] at hname
      exact congrArg Except.ok (Option.some_inj.mp hname)

/-- A verification is submitted to a declared model, with the effort that its question has. -/
theorem effort_eq {model sent : String} (h : Submitted d model sent) :
    sent = effort ∧ ∃ declared, d.toCatalog.model model = some declared := by
  cases h with
  | routed override chain blocked unkeyed moment choice h =>
    unfold route at h
    obtain ⟨chosen, hchosen, h⟩ := exists_of_bind_eq_ok h
    obtain ⟨declared, -, hmodel, -, -, hparams⟩ := param_of_choice rfl hchosen
    split at h
    · obtain rfl := Except.ok.inj h
      rcases hnext : nextChoice d.toCatalog verifyTask chain (blocked ++ unkeyed) [chosen.model] moment with _ | next
      · exact ⟨submissionEffort_low rfl rfl hparams, declared, hmodel⟩
      · obtain ⟨name, hname⟩ := resolve_of_nextChoice hnext
        obtain ⟨declared', -, hmodel', -, -, hparams'⟩ := param_of_choice rfl hname
        exact ⟨submissionEffort_low rfl rfl hparams', declared', hmodel'⟩
    · obtain rfl := Except.ok.inj h
      exact ⟨submissionEffort_low rfl rfl hparams, declared, hmodel⟩
  | refused chain blocked tried moment choice h =>
    obtain ⟨name, hname⟩ := resolve_of_nextChoice h
    obtain ⟨declared, param, hmodel, hparam, hne, hparams⟩ := param_of_choice rfl hname
    refine ⟨?_, declared, hmodel⟩
    have hset : paramsFor { verifyTask with candidates := [name] } declared param = some (.text "low") :=
      (paramsFor_effort hparam hne rfl "low").mpr (.named (by decide) rfl)
    rw [fallbackEffort, hmodel, Option.bind_some, hparam, Option.filter_some, if_pos (decide_eq_true hne)]
    dsimp only
    rw [hparams, hset]
    rfl

/-- The model of a submission is a name of the datasheets. -/
theorem plain_of_submitted {model sent : String} (h : Submitted d model sent) : model ≠ "" ∧ Plain model := by
  obtain ⟨-, declared, hmodel⟩ := effort_eq h
  obtain ⟨e, hentry, -⟩ := Option.map_eq_some_iff.mp hmodel
  obtain ⟨-, -, -, hname, hmem⟩ := declared_of_entry hentry
  obtain ⟨hne, hplain⟩ := d.names_plain e hmem
  rw [hname] at hne hplain
  exact ⟨hne, hplain⟩

end Effort

/-! ## The digest -/

/-- UTF-8 tells texts apart. -/
theorem utf8_inj {l l' : List Char} (h : l.flatMap String.utf8EncodeChar = l'.flatMap String.utf8EncodeChar) :
    l = l' := by
  have hencode : l.utf8Encode = l'.utf8Encode := congrArg List.toByteArray h
  have hdecode := congrArg ByteArray.utf8Decode? hencode
  rw [List.utf8Decode?_utf8Encode, List.utf8Decode?_utf8Encode, Option.some_inj] at hdecode
  exact congrArg Array.toList hdecode

/-- What the digest reads is the parts as one text, with NULs after them. -/
theorem framed_eq (parts : List String) :
    framed parts = (parts.flatMap fun part => part.toList ++ ['\x00']).flatMap String.utf8EncodeChar := by
  have hnul : String.utf8EncodeChar '\x00' = [0] := by decide
  rw [framed, List.flatMap_assoc]
  refine List.flatMap_congr fun part _ => ?_
  rw [List.flatMap_append, List.flatMap_singleton, hnul]

/-- Where the first NUL is, two texts without one end. -/
theorem append_nul_inj : ∀ {l l' rest rest' : List Char}, '\x00' ∉ l → '\x00' ∉ l' →
    l ++ '\x00' :: rest = l' ++ '\x00' :: rest' → l = l' ∧ rest = rest'
  | [], [], _, _, _, _, h => ⟨rfl, (List.cons.inj h).2⟩
  | [], _ :: _, _, _, _, hl', h => absurd ((List.cons.inj h).1 ▸ List.mem_cons_self) hl'
  | _ :: _, [], _, _, hl, _, h => absurd ((List.cons.inj h).1 ▸ List.mem_cons_self) hl
  | c :: l, c' :: l', rest, rest', hl, hl', h => by
    obtain ⟨hc, h⟩ := List.cons.inj h
    obtain ⟨hrest, hmore⟩ := append_nul_inj (fun hmem => hl (List.mem_cons_of_mem _ hmem))
      (fun hmem => hl' (List.mem_cons_of_mem _ hmem)) h
    exact ⟨by rw [hc, hrest], hmore⟩

/-- A part without NUL ends at the first one. -/
theorem part_inj {part part' : String} {rest rest' : List Char} (hpart : Plain part) (hpart' : Plain part')
    (h : (part.toList ++ ['\x00']) ++ rest = (part'.toList ++ ['\x00']) ++ rest') : part = part' ∧ rest = rest' := by
  rw [List.append_assoc, List.append_assoc, List.singleton_append, List.singleton_append] at h
  obtain ⟨htext, hrest⟩ := append_nul_inj hpart hpart' h
  exact ⟨String.toList_inj.mp htext, hrest⟩

/-- A printable character is told from the others by its code point. -/
theorem toNat_ofNat {c : ℕ} (h : isPrintable c = true) : (Char.ofNat c).toNat = c := by
  have hall : ∀ c < 0x7F, (Char.ofNat c).toNat = c := by decide
  simp only [isPrintable, Bool.and_eq_true, decide_eq_true_eq] at h
  exact hall c (by omega)

/-- A text in ASCII is known from its string. -/
theorem map_toNat_asString {t : Text} (h : t.all isPrintable = true) : (asString t).toList.map Char.toNat = t := by
  rw [asString, String.toList_ofList, List.map_map]
  exact (List.map_congr_left fun c hc => toNat_ofNat (List.all_eq_true.mp h c hc)).trans (List.map_id t)

/-- The text of a schema is in ASCII. -/
theorem all_dumps (schema : Schema) : (dumps schema.value).all isPrintable = true :=
  all_write (readable_sorted schema.readable)

/-- So there is no NUL in it. -/
theorem plain_dumps (schema : Schema) : Plain (asString (dumps schema.value)) := by
  intro hmem
  have hzero := List.mem_map_of_mem (f := Char.toNat) hmem
  rw [map_toNat_asString (all_dumps schema)] at hzero
  exact absurd (List.all_eq_true.mp (all_dumps schema) _ hzero) (by decide)

/-- And it is that of no other schema. -/
theorem schema_eq_iff (a b : Schema) :
    asString (dumps a.value) = asString (dumps b.value) ↔ same a.value b.value = true := by
  rw [← dumps_eq_iff a.readable b.readable]
  constructor
  · intro h
    rw [← map_toNat_asString (all_dumps a), h, map_toNat_asString (all_dumps b)]
  · exact congrArg asString

section Digest

variable {D κ κ' : Type} {sha : List UInt8 → D} {model model' : String} {a : BatchSpec κ} {b : BatchSpec κ'}

/-- The parts of a question are known from what the digest reads: only the last may hold a NUL. -/
theorem framed_inj (hmodel : Plain model) (hmodel' : Plain model') (ha : Plain a.instructions)
    (hb : Plain b.instructions) (h : framed (parts model a) = framed (parts model' b)) :
    model = model' ∧ SameRequest a b := by
  rw [framed_eq, framed_eq] at h
  have h := utf8_inj h
  simp only [parts, List.flatMap_cons, List.flatMap_nil] at h
  obtain ⟨hmodels, h⟩ := part_inj hmodel hmodel' h
  obtain ⟨-, h⟩ := part_inj (by decide) (by decide) h
  obtain ⟨hname, h⟩ := part_inj a.response_model.name_plain b.response_model.name_plain h
  obtain ⟨hschema, h⟩ := part_inj (plain_dumps a.response_model.schema) (plain_dumps b.response_model.schema) h
  obtain ⟨hinstructions, h⟩ := part_inj ha hb h
  -- The input is the rest, without the last NUL.
  rw [List.append_nil, List.append_nil] at h
  have hinput := String.toList_inj.mp (List.append_cancel_right h)
  exact ⟨hmodels, hname, (schema_eq_iff _ _).mp hschema, hinstructions, hinput⟩

/-- The same request of one model has one digest. -/
theorem framed_congr (h : SameRequest a b) : framed (parts model a) = framed (parts model b) := by
  have hschema := (schema_eq_iff _ _).mpr h.schema
  rw [parts, parts, h.schema_name, hschema, h.instructions, h.input]

/-- One question is one request of one model. -/
theorem question_eq_iff (hsha : Function.Injective sha) (hne : model ≠ "") (hne' : model' ≠ "")
    (hmodel : Plain model) (hmodel' : Plain model') (ha : Plain a.instructions) (hb : Plain b.instructions) :
    questionSha256 sha (some model) (some a) = questionSha256 sha (some model') (some b) ↔
      model = model' ∧ SameRequest a b := by
  rw [questionSha256, questionSha256, if_neg hne, if_neg hne', Option.some_inj, hsha.eq_iff]
  constructor
  · exact framed_inj hmodel hmodel' ha hb
  · rintro ⟨rfl, hsame⟩
    exact framed_congr hsame

end Digest

/-! ## Copies -/

section Copies

variable {D : Type} {sha : List UInt8 → D} {G : ModelId → ModelId → Prop}

/-- Where a row has a question, it is the verification that its answer stands for, asked of a model that is linked
with the one that answered. -/
def Standing (sha : List UInt8 → D) (G : ModelId → ModelId → Prop) (v : Verdict D) : Prop :=
  ∀ q ∈ v.request_sha256, ∃ answer ∈ v.answer, ∃ m : ModelId, G answer.model m ∧
    questionSha256 sha (some m.name) (some answer.request.verification) = some q

/-- A declared model and a request have a question. -/
theorem questionSha256_some {κ : Type} (m : ModelId) (request : BatchSpec κ) :
    questionSha256 sha (some m.name) (some request) = some (sha (framed (parts m.name request))) := if_neg m.ne_empty

/-- Two questions are the same for the same request of one model. -/
theorem modelId_eq_iff (hsha : Function.Injective sha) {m m' : ModelId} {a b : BatchSpec Unit}
    (ha : Plain a.instructions) (hb : Plain b.instructions) :
    questionSha256 sha (some m.name) (some a) = questionSha256 sha (some m'.name) (some b) ↔
      m = m' ∧ SameRequest a b := by
  rw [question_eq_iff hsha m.ne_empty m'.ne_empty m.plain m'.plain ha hb]
  refine and_congr_left fun _ => ⟨fun h => ?_, fun h => h ▸ rfl⟩
  cases m
  cases m'
  subst h
  rfl

/-- The verification that a request stands for is one of its code's. -/
theorem plain_verification (asked : Asked) : Plain asked.verification.instructions := by
  cases asked with
  | alone prompts row => exact prompts.verification.instructions_plain
  | joint prompts row questions hne model => exact prompts.verification.instructions_plain

/-- The question that a row is recorded with is that of the verification, for the model that answered. -/
theorem recordedQuestion_eq {model : Option ModelId} {asked : Asked} {q : D}
    (h : recordedQuestion sha model asked = some q) :
    ∃ m, model = some m ∧ questionSha256 sha (some m.name) (some asked.verification) = some q := by
  unfold recordedQuestion at h
  cases asked with
  | alone prompts row =>
    rw [if_pos (by rfl)] at h
    rcases model with _ | m
    · contradiction
    · exact ⟨m, rfl, h⟩
  | joint prompts row questions hne model' =>
    -- A joint request has questions, so its stand-in counts, if the model is the one it was made for.
    have hboards : ¬ (((Asked.joint prompts row questions hne model').context sha).boards.isEmpty = true) := by
      rw [List.isEmpty_iff]
      exact fun hnil => hne (List.map_eq_nil_iff.mp hnil)
    rw [if_neg hboards] at h
    split at h
    · next hmodel => exact ⟨model', hmodel, h⟩
    · contradiction

/-- A row on a check stands where its question is the recorded one. -/
theorem standing_verdictOn (hrefl : ∀ m, G m m) {custom_id config_name : String} {parsed : Parsed}
    {model : Option ModelId} {question : Option D} {asked : Asked} {check : Check}
    (h : ∀ q, question = some q →
      ∃ m, model = some m ∧ questionSha256 sha (some m.name) (some asked.verification) = some q) :
    Standing sha G (verdictOn custom_id parsed config_name model question asked check) := by
  intro q hq
  obtain ⟨m, rfl, hquestion⟩ := h q hq
  exact ⟨⟨m, asked⟩, rfl, m, hrefl m, hquestion⟩

/-- The rows of a new posting's result stand. -/
theorem standing_recordResult (hrefl : ∀ m, G m m) {verdicts : List (Verdict D)} {res : BatchResult Asked}
    {v : Verdict D} (hv : v ∈ recordResult sha verdicts res) : Standing sha G v := by
  unfold recordResult at hv
  split at hv
  · next asked parsed _ _ =>
    obtain ⟨check, -, hcheck⟩ := List.mem_filterMap.mp hv
    split at hcheck
    · obtain rfl := Option.some_inj.mp hcheck
      exact standing_verdictOn hrefl fun q hq => recordedQuestion_eq hq
    · contradiction
  · exact absurd hv List.not_mem_nil

/-- The rows of a result go back to its model's answer. -/
theorem answer_of_recordResult {verdicts : List (Verdict D)} {res : BatchResult Asked} {asked : Asked}
    (hrequest : res.request = some asked) {v : Verdict D} (hv : v ∈ recordResult sha verdicts res) :
    v.answer = res.model.map fun m => ⟨m, asked⟩ := by
  unfold recordResult at hv
  rw [hrequest] at hv
  split at hv
  · next asked' parsed hasked _ =>
    obtain rfl := Option.some_inj.mp hasked
    obtain ⟨check, -, hcheck⟩ := List.mem_filterMap.mp hv
    split at hcheck
    · obtain rfl := Option.some_inj.mp hcheck
      rfl
    · contradiction
  · exact absurd hv List.not_mem_nil

/-- The rows of a re-verification's result stand. -/
theorem standing_recordReverifyResult (hrefl : ∀ m, G m m) {newer : Bool} {res : BatchResult (Prompts × Row)}
    {v : Verdict D} (hv : v ∈ recordReverifyResult sha newer res) : Standing sha G v := by
  unfold recordReverifyResult at hv
  split at hv
  · next prompts row parsed _ _ =>
    split at hv
    · exact absurd hv List.not_mem_nil
    · obtain ⟨check, -, rfl⟩ := List.mem_map.mp hv
      refine standing_verdictOn hrefl fun q hq => ?_
      rcases hmodel : res.model with _ | m
      · rw [hmodel] at hq
        contradiction
      · rw [hmodel] at hq
        exact ⟨m, rfl, hq⟩
  · exact absurd hv List.not_mem_nil

/-- The newest answer is of the posting and the check. -/
theorem latest_eq_some {verdicts : List (Verdict D)} {url : String} {check : Check} {v : Verdict D}
    (h : latest verdicts url check = some v) : v ∈ verdicts ∧ v.url = url ∧ v.check = check := by
  have hfound := List.find?_some h
  rw [Bool.and_eq_true, decide_eq_true_eq, decide_eq_true_eq] at hfound
  exact ⟨List.mem_of_find?_eq_some h, hfound⟩

/-- A row with an accepted question goes back to an answer to the request, by a model linked with this one. -/
theorem answer_of_accepted (hsha : Function.Injective sha) (hG : Equivalence G)
    {prompts : Prompts} {groups : List (List ModelId)} {model : ModelId} {url text : String} {v : Verdict D}
    (hgroups : ∀ m ∈ answeringModels groups model, G m model) (hv : Standing sha G v)
    (haccepted : v.request_sha256 ∈ accepted sha prompts groups model url text) :
    ∃ answer ∈ v.answer, G answer.model model ∧
      SameRequest answer.request.verification (verificationSpec prompts url text) := by
  obtain ⟨m, hm, hquestion⟩ := List.mem_map.mp haccepted
  have hnear : G m model := by
    rcases List.mem_cons.mp hm with rfl | hm
    · exact hG.refl m
    · exact hgroups m (List.mem_filter.mp hm).1
  rw [questionSha256_some] at hquestion
  obtain ⟨answer, hanswer, m', hm', hquestion'⟩ := hv _ hquestion.symm
  rw [← questionSha256_some m, modelId_eq_iff hsha (plain_verification _)
    prompts.verification.instructions_plain] at hquestion'
  obtain ⟨rfl, hsame⟩ := hquestion'
  exact ⟨answer, hanswer, hG.trans hm' hnear, hsame⟩

variable [DecidableEq D]

/-- A row is copied from the newest answer to one of the two checks, and both have accepted questions. -/
theorem mem_reuseUnchanged {verdicts : List (Verdict D)} {prompts : Prompts} {groups : List (List ModelId)}
    {model : ModelId} {fetched : List (String × String)} {row : Verdict D}
    (h : row ∈ reuseUnchanged sha verdicts prompts groups model fetched) :
    ∃ text, textOf fetched row.url = some text ∧
      (∃ check v, latest verdicts row.url check = some v ∧
        row = copied (questionSha256 sha (some model.name) (some (verificationSpec prompts row.url text))) v) ∧
      ∀ check, ∃ v, latest verdicts row.url check = some v ∧
        v.request_sha256 ∈ accepted sha prompts groups model row.url text := by
  obtain ⟨url, -, hurl⟩ := List.mem_flatMap.mp h
  split at hurl
  · next text htext =>
    unfold reuseUnchangedAt at hurl
    split at hurl
    · next closed clearance hclosed hclearance =>
      split at hurl
      · next haccepted =>
        have hrow : ∃ check v, latest verdicts url check = some v ∧
            row = copied (questionSha256 sha (some model.name) (some (verificationSpec prompts url text))) v := by
          rcases List.mem_cons.mp hurl with rfl | hurl
          · exact ⟨.closed, closed, hclosed, rfl⟩
          · exact ⟨.clearance, clearance, hclearance, List.mem_singleton.mp hurl⟩
        have hsame : row.url = url := by
          obtain ⟨check, v, hv, rfl⟩ := hrow
          exact (latest_eq_some hv).2.1
        rw [hsame]
        refine ⟨text, htext, hrow, fun check => ?_⟩
        cases check with
        | closed => exact ⟨closed, hclosed, haccepted.1⟩
        | clearance => exact ⟨clearance, hclearance, haccepted.2⟩
      · exact absurd hurl List.not_mem_nil
    · exact absurd hurl List.not_mem_nil
  · exact absurd hurl List.not_mem_nil

/-- Copies keep that every row stands. -/
theorem standing_copied (hsha : Function.Injective sha) (hG : Equivalence G) {verdicts : List (Verdict D)}
    (hall : ∀ v ∈ verdicts, Standing sha G v) {prompts : Prompts} {groups : List (List ModelId)} {model : ModelId}
    {fetched : List (String × String)} (hgroups : ∀ m ∈ answeringModels groups model, G m model) {row : Verdict D}
    (h : row ∈ reuseUnchanged sha verdicts prompts groups model fetched) : Standing sha G row := by
  obtain ⟨text, -, ⟨check, v, hv, hrow⟩, haccepted⟩ := mem_reuseUnchanged h
  obtain ⟨v', hv', haccepted⟩ := haccepted check
  obtain rfl : v = v' := Option.some_inj.mp (hv.symm.trans hv')
  obtain ⟨answer, hanswer, hnear, hsame⟩ := answer_of_accepted hsha hG hgroups
    (hall v (latest_eq_some hv).1) haccepted
  intro q hq
  rw [hrow] at hq ⊢
  refine ⟨answer, hanswer, model, hnear, ?_⟩
  rw [← Option.mem_def.mp hq, questionSha256_some, framed_congr hsame]
  exact (questionSha256_some model _).symm

/-- A step keeps that every row stands. -/
theorem standing_step (hsha : Function.Injective sha) (hG : Equivalence G) {verdicts verdicts' : List (Verdict D)}
    {a : Act D} (hall : ∀ v ∈ verdicts, Standing sha G v) (hgrouped : Grouped G verdicts a)
    (h : step sha verdicts a = some verdicts') : ∀ v ∈ verdicts', Standing sha G v := by
  intro v hv
  cases a with
  | record res =>
    obtain rfl := Option.some_inj.mp h
    rcases List.mem_append.mp hv with hv | hv
    · exact standing_recordResult hG.refl hv
    · exact hall v hv
  | reverify newer res =>
    obtain rfl := Option.some_inj.mp h
    rcases List.mem_append.mp hv with hv | hv
    · exact standing_recordReverifyResult hG.refl hv
    · exact hall v hv
  | reuse prompts groups model fetched =>
    obtain rfl := Option.some_inj.mp h
    rcases List.mem_append.mp hv with hv | hv
    · exact standing_copied hsha hG hall hgrouped hv
    · exact hall v hv
  | other w =>
    dsimp only [step] at h
    split at h
    · next hnone =>
      obtain rfl := Option.some_inj.mp h
      rcases List.mem_cons.mp hv with rfl | hv
      · intro q hq
        rw [hnone] at hq
        exact absurd hq (Option.not_mem_none q)
      · exact hall v hv
    · contradiction

/-- Where every row stands, a copied row goes back to answers to the verification that would be sent. -/
theorem copiesOnly_of_standing (hsha : Function.Injective sha) (hG : Equivalence G) {verdicts : List (Verdict D)}
    (hall : ∀ v ∈ verdicts, Standing sha G v) {prompts : Prompts} {groups : List (List ModelId)} {model : ModelId}
    {fetched : List (String × String)} (hgroups : ∀ m ∈ answeringModels groups model, G m model) :
    CopiesOnly sha G Asked.verification verdicts prompts groups model fetched := by
  intro row hrow
  obtain ⟨text, htext, -, haccepted⟩ := mem_reuseUnchanged hrow
  refine ⟨text, htext, fun check => ?_⟩
  obtain ⟨v, hv, haccepted⟩ := haccepted check
  obtain ⟨answer, hanswer, hnear, hsame⟩ := answer_of_accepted hsha hG hgroups
    (hall v (latest_eq_some hv).1) haccepted
  exact ⟨v, hv, answer, hanswer, hnear, hsame⟩

end Copies

/-! ## Equal hashes -/

/-- A verification as submitted. -/
structure Submission (d : Datasheets) where
  model : String
  effort : String
  request : BatchSpec Unit
  submitted : Submitted d model effort

/-- Two submissions have one hash exactly if model, effort and request are the same. And a standing answer is copied
only if the newest answers to both checks were given, by a model that the groupings so far link with this one, to the
verification that would be sent now or to a joint request that stood for it. -/
theorem reuse_answers_the_question {D : Type} [DecidableEq D] (sha : List UInt8 → D) (hsha : Function.Injective sha) :
    (∀ (d : Datasheets) (a b : Submission d), Plain a.request.instructions → Plain b.request.instructions →
      (questionSha256 sha (some a.model) (some a.request) = questionSha256 sha (some b.model) (some b.request) ↔
        a.model = b.model ∧ a.effort = b.effort ∧ SameRequest a.request b.request)) ∧
    ∀ (G : ModelId → ModelId → Prop) (verdicts : List (Verdict D)), Equivalence G →
      Run (step sha) (Grouped G) [] verdicts →
      ∀ (prompts : Prompts) (groups : List (List ModelId)) (model : ModelId) (fetched : List (String × String)),
        (∀ m ∈ answeringModels groups model, G m model) →
        CopiesOnly sha G Asked.verification verdicts prompts groups model fetched := by
  refine ⟨fun d a b ha hb => ?_, fun G verdicts hG hrun prompts groups model fetched hgroups => ?_⟩
  · obtain ⟨hne, hplain⟩ := plain_of_submitted a.submitted
    obtain ⟨hne', hplain'⟩ := plain_of_submitted b.submitted
    rw [question_eq_iff hsha hne hne' hplain hplain' ha hb, (effort_eq a.submitted).1, (effort_eq b.submitted).1]
    exact and_congr_right fun _ => ⟨fun h => ⟨rfl, h⟩, And.right⟩
  · have hall := hrun.invariant (I := fun s => ∀ v ∈ s, Standing sha G v) (fun v hv => absurd hv List.not_mem_nil)
      fun s a s' hs hok hstep => standing_step hsha hG hs hok hstep
    exact copiesOnly_of_standing hsha hG hall hgroups

/-- `gpt-6-luna`. -/
def luna : ModelId := ⟨"gpt-6-luna", by decide, by decide⟩

/-- A schema without properties. -/
def noProperties : Schema := ⟨.dict [], List.nodup_nil, trivial⟩

/-- Prompts whose response models have no properties. -/
def shortPrompts : Prompts where
  verification := ⟨"Verify.", by decide, ⟨"VerifyVerdict", by decide, noProperties⟩⟩
  jointVerification := fun _ => ("Verify and filter.", ⟨"JointVerdict", by decide, noProperties⟩)

/-- A posting without verdicts. -/
def openRow : Row := ⟨"https://a", some "A", some "B", true, true, "Open."⟩

/-- A joint request for the posting. -/
def jointAsked : Asked := .joint shortPrompts openRow [⟨1, "remote only"⟩] (List.cons_ne_nil _ _) luna

/-- Its answer: open, and no clearance. -/
def jointResult : BatchResult Asked where
  custom_id := "https://a"
  request := some jointAsked
  error := none
  text := some "answered"
  model := some luna
  parsed := some ⟨false, "", false, ""⟩

/-- The verdicts after the answer, under the digest that keeps what it reads. -/
def jointVerdicts : List (Verdict (List UInt8)) := recordResult id [] jointResult ++ []

/-- The answer is recorded. -/
theorem jointVerdicts_run {ok : List (Verdict (List UInt8)) → Act (List UInt8) → Prop}
    (h : ok [] (.record jointResult)) : Run (step id) ok [] jointVerdicts :=
  Run.start.next (.record jointResult) h rfl

/-- Re-verification on the same page copies it. -/
theorem jointVerdicts_reused :
    (reuseUnchanged id jointVerdicts shortPrompts [] luna [("https://a", "Open.")]).length = 2 := by
  decide +kernel

/-- After a joint answer, `reuse_answers_the_question` says what was copied. -/
theorem reuse_answers_the_question_joint :
    (reuseUnchanged id jointVerdicts shortPrompts [] luna [("https://a", "Open.")]).length = 2 ∧
      CopiesOnly id Eq Asked.verification jointVerdicts shortPrompts [] luna [("https://a", "Open.")] :=
  ⟨jointVerdicts_reused, (reuse_answers_the_question id Function.injective_id).2 Eq jointVerdicts eq_equivalence
    (jointVerdicts_run trivial) shortPrompts [] luna _ fun _ hm => List.mem_singleton.mp hm⟩

/-- A copied answer need not be one to the request that would be sent: a joint request's is copied too. -/
theorem joint_answer_reused :
    ¬ ∀ verdicts : List (Verdict (List UInt8)), Run (step id) Always [] verdicts →
      ∀ (prompts : Prompts) (groups : List (List ModelId)) (model : ModelId) (fetched : List (String × String)),
        CopiesOnly id (fun m m' => m ∈ answeringModels groups m') Asked.spec verdicts prompts groups model fetched := by
  intro h
  have hne : reuseUnchanged id jointVerdicts shortPrompts [] luna [("https://a", "Open.")] ≠ [] := by
    intro hnil
    have hlength := jointVerdicts_reused
    rw [hnil] at hlength
    exact absurd hlength (by decide)
  obtain ⟨row, hrow⟩ := List.exists_mem_of_ne_nil _ hne
  obtain ⟨text, -, hall⟩ := h jointVerdicts (jointVerdicts_run trivial) shortPrompts [] luna [("https://a", "Open.")]
    row hrow
  obtain ⟨v, hv, answer, hanswer, -, hsame⟩ := hall .closed
  have hmem : v ∈ recordResult id [] jointResult := by
    have hlatest := (latest_eq_some hv).1
    rwa [jointVerdicts, List.append_nil] at hlatest
  rw [answer_of_recordResult (show jointResult.request = some jointAsked from rfl) hmem] at hanswer
  obtain rfl := Option.some_inj.mp hanswer
  -- The answered request has the schema of the joint one.
  have hname : "JointVerdict" = "VerifyVerdict" := hsame.schema_name
  exact absurd hname (by decide)

end JobScripts.Verification.Questions

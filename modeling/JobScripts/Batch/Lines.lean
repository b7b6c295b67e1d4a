import JobScripts.Batch.Collection
import JobScripts.Lib.Loads
import JobScripts.Lib.Upsert
import Mathlib.Data.Finset.Card
import Mathlib.Data.List.Find
import Mathlib.Data.List.Sort

/-!
# The lines of a finished batch

What a provider returns for a batch is lines, each with the id of the request that it answers: an output file and an
error file for one vendor (`_collect_batch` of `core/batch/collection.py`), a stream for the other (`collect` of
`core/batch/anthropic_batches.py`). The second vendor takes ids of one form only, so that an id of another form is
sent as a digest, and is found again among the ids of the task.

`lines_credited` says that a result has the answer of the line of its own request, and an answer or an error but
never both, in whatever order the lines come.
-/

namespace JobScripts.Batch.Lines

open Lib
open Lib.Loads (Value)
open Collection (ProviderUsage)

/-! ## Results -/

/-- `BatchResult`, as the collection writes it. Vectors are of any type. -/
structure BatchResult (V : Type) where
  custom_id : String
  text : Option String := none
  usage : Option ProviderUsage := none
  error : Option String := none
  batch_id : Option String := none
  finish_reason : Option String := none
  embedding_vectors : Option (List V) := none

/-- The results of a batch, by the ids of the caller. -/
abbrev Results (V : Type) := Table String (BatchResult V)

variable {V : Type}

/-- `_unanswered`: a result with neither text nor vectors. -/
def unanswered (result : BatchResult V) : Bool := result.text.isNone && result.embedding_vectors.isNone

/-- The results that a caller passes: each of its ids without an answer. -/
def passed (custom_ids : List String) : Results V := custom_ids.map fun id => (id, { custom_id := id })

/-! ## The lines of the two files -/

/-- A `content` of an output item. -/
structure Content where
  type : String
  text : Option String

/-- An item of `output`. -/
structure Item where
  type : String
  content : List Content

/-- An item of `data`: its index, if it has one that is an `int`, and its vector, if that is a list. -/
structure Datum (V : Type) where
  index : Option ℤ
  embedding : Option V

/-- The `usage` of a body. Only that of embeddings is named in this way. -/
structure BodyUsage extends ProviderUsage where
  prompt_tokens : Option ℤ

/-- The `body` of a response. A field that is not there is `null`, or empty. -/
structure Body (V : Type) where
  error : Value := .null
  usage : Option BodyUsage := none
  output : List Item := []
  incomplete_reason : Option String := none
  status : Option String := none
  data : List (Datum V) := []

/-- A `response`. The body is there if it is an object. -/
structure Response (V : Type) where
  status_code : Option ℤ := none
  body : Option (Body V) := none

/-- A line of a result file. -/
structure Line (V : Type) where
  custom_id : Option String
  error : Value := .null
  response : Option (Response V) := none

/-- A batch in a terminal state, with what its files say. A file that there is not, or an error file that cannot
be read, has no lines; of an error file that breaks off, those before stand. -/
structure FinishedBatch (V : Type) where
  id : String
  status : String
  endpoint : String := "/v1/responses"
  output : List (Line V) := []
  errors : List (Line V) := []
  messages : List String := []

/-- What Python takes for true: neither zero nor empty. A float is known by what Python writes of it. -/
def truthy : Value → Bool
  | .null => false
  | .bool b => b
  | .int n => n ≠ 0
  | .float t => t ≠ codes "0.0" && t ≠ codes "-0.0"
  | .str s => s ≠ []
  | .list items => !items.isEmpty
  | .dict members => !members.isEmpty

section Reading

variable (str : Value → String)

/-- `_line_error`: why a line has no answer, if it says: its own error, or the message of a response that was not
200. -/
def lineError (line : Line V) : Option String :=
  if truthy line.error then some (str line.error)
  else
    let status := line.response.bind Response.status_code
    if status = some 200 then none
    else
      let detail := ((line.response.bind Response.body).map Body.error).getD .null
      let message := match detail with
        | .dict members => (Loads.getItem (codes "message") members).getD .null
        | value => value
      match status with
      | some n =>
        if truthy message then some (if n ≠ 0 then toString n ++ ": " ++ str message else str message)
        else if n ≠ 0 then some (toString n) else none
      | none => if truthy message then some (str message) else none

/-- `_line_error(obj) or otherwise`: the error of a line, or the given one where it has none or an empty one. -/
def errorOr (line : Line V) (otherwise : String) : String :=
  match lineError str line with
  | some "" | none => otherwise
  | some error => error

/-- `_extract_output_text`: the first text of the messages, which is asked for no other if it has none. -/
def extractOutputText (body : Body V) : Option String :=
  ((body.output.filter fun item => item.type = "message").flatMap Item.content).find?
    (fun content => content.type = "output_text") |>.bind Content.text

/-- The indices are `0..n-1`, as `{item["index"] for item in data} == set(range(len(data)))` has it. -/
def inRange (data : List (Datum V)) : Bool :=
  data.all (fun item => item.index.any fun i => decide (0 ≤ i ∧ i < (data.length : ℤ))) &&
    (List.range data.length).all fun i => data.any fun item => item.index = some (i : ℤ)

/-- The place of an item, once it has one. -/
def Datum.place (item : Datum V) : ℤ := item.index.getD 0

/-- `_ordered_vectors`: the vectors in the order of their indices, if each index is in range and each item has a
vector. -/
def orderedVectors (data : List (Datum V)) : Option (List V) :=
  if data.isEmpty || !inRange data then none
  else
    let sorted := data.insertionSort fun a b => a.place ≤ b.place
    if sorted.all fun item => item.embedding.isSome then some (sorted.filterMap Datum.embedding) else none

/-- `_read_embedding`: the vectors and the usage of a body of embeddings. -/
def readEmbedding (body : Body V) (result : BatchResult V) : BatchResult V :=
  let usage : Option ProviderUsage := body.usage.map fun usage =>
    { input_tokens := some (usage.prompt_tokens.getD 0), output_tokens := some 0,
      total_tokens := some (usage.total_tokens.getD 0), cached_tokens := none, cache_write_tokens := none,
      reasoning_tokens := none }
  let vectors := (orderedVectors body.data).or result.embedding_vectors
  { result with
    usage := usage
    embedding_vectors := vectors
    error := if vectors.isNone then some "invalid embedding vector indices" else result.error }

/-- `_read_response`: the text, the usage and the finish reason of a body of a response. -/
def readResponse (body : Body V) (result : BatchResult V) : BatchResult V :=
  let text := extractOutputText body
  { result with
    usage := body.usage.map BodyUsage.toProviderUsage
    text := text
    finish_reason :=
      match body.incomplete_reason with
      | some "" | none => body.status
      | some reason => some reason
    error := if text.isNone then some "no output text" else result.error }

/-- A line that holds no answer: an error, or a response that is not there or is no success. -/
def Line.refused (line : Line V) : Bool :=
  truthy line.error || line.response.isNone || line.response.any fun resp => resp.status_code ≠ some 200

/-- What a response that is a success says, `{}` where it says nothing. -/
def Line.answer (line : Line V) : Body V := (line.response.bind Response.body).getD {}

/-- What a line of the output file makes of its result. -/
def readOutput (batch : FinishedBatch V) (line : Line V) (result : BatchResult V) : BatchResult V :=
  if line.refused then { result with error := some (errorOr str line "unknown") }
  else if batch.endpoint = "/v1/embeddings" then readEmbedding line.answer result
  else readResponse line.answer result

/-- A result without an answer is marked with an error, on a condition. -/
def mark (condition : Bool) (error : String) (result : BatchResult V) : BatchResult V :=
  if unanswered result && condition then { result with error := some error } else result

/-- What a line of the error file makes of its result. -/
def readError (line : Line V) (result : BatchResult V) : BatchResult V :=
  mark true (errorOr str line "batch error") result

/-- `_result_for`: the stored result, or a new one where it may be created. -/
def resultFor (create_missing : Bool) (custom_id : String) (stored : Option (BatchResult V)) :
    Option (BatchResult V) :=
  match stored with
  | some result => some result
  | none => if create_missing && custom_id ≠ "" then some { custom_id := custom_id } else none

/-- The lines of a file one after the other, each at the result that it names. -/
def readFile (create_missing : Bool) (read : Line V → BatchResult V → BatchResult V) (lines : List (Line V))
    (results : Results V) : Results V :=
  fileAll Line.custom_id (fun line id stored => (resultFor create_missing id stored).map (read line)) results lines

/-- The batch's own failure, on a result with no error of its own. -/
def markFailed (batch : FinishedBatch V) (result : BatchResult V) : BatchResult V :=
  mark (batch.status ≠ "completed" && result.error.isNone) ("batch " ++ batch.status) result

/-- The batch's id, on a result that has none. -/
def stamp (batch_id : String) (result : BatchResult V) : BatchResult V :=
  { result with batch_id := some (result.batch_id.getD batch_id) }

/-- The errors of the batch, on a result that has no other than that the batch failed, as `_record_errors` has it. -/
def explain (batch : FinishedBatch V) (result : BatchResult V) : BatchResult V :=
  mark (!batch.messages.isEmpty &&
      (result.error.isNone || result.error = some "" || result.error = some ("batch " ++ batch.status)))
    ("; ".intercalate batch.messages) result

/-- The end of `_collect_batch` for one result. -/
def settle (batch : FinishedBatch V) (result : BatchResult V) : BatchResult V :=
  explain batch (stamp batch.id (markFailed batch result))

/-- The errors that `_record_errors` stores, by id. -/
def recordErrors (batch : FinishedBatch V) (results : Results V) : List (String × String) :=
  let errors := results.filterMap fun (id, result) =>
    match result.error with
    | some error => if error ≠ "" && result.batch_id = some batch.id then some (id, error) else none
    | none => none
  if !batch.messages.isEmpty && errors.isEmpty then [("", "; ".intercalate batch.messages)] else errors

/-- `_collect_batch`: the results, and the errors that are stored. -/
def collectBatch (batch : FinishedBatch V) (results : Results V) (create_missing : Bool) :
    Results V × List (String × String) :=
  let answered := readFile create_missing (readOutput str batch) batch.output results
  let failed := readFile create_missing (readError str) batch.errors answered
  let settled := failed.map fun row => (row.1, settle batch row.2)
  (settled, recordErrors batch settled)

end Reading

/-! ## The lines of a stream -/

section Wire

/-- A character of the vendor's ids. -/
def isWireChar (c : Char) : Bool := c.isAlphanum || c = '_' || c = '-'

/-- `_CUSTOM_ID.match`. Before a newline at the end, `$` matches too. -/
def isWireId (custom_id : String) : Bool :=
  let chars := custom_id.toList
  let body := if chars.getLast? = some '\n' then chars.dropLast else chars
  body.all isWireChar && 1 ≤ body.length && body.length ≤ 64

variable (sha256Hex : String → String)

/-- `wire_id`: the id that a request is sent under: its own, if the vendor takes it, else forty characters of its
digest. -/
def wireId (custom_id : String) : String :=
  if isWireId custom_id then custom_id else "h-" ++ String.ofList ((sha256Hex custom_id).toList.take 40)

/-- `wire_ids`: of two ids that are sent as one, the last. -/
def wireIds (custom_ids : List String) : Table String String :=
  custom_ids.foldl (fun known id => known.put (wireId sha256Hex id) id) []

end Wire

/-- The `usage` of a message. -/
structure MessageUsage where
  input_tokens : Option ℤ
  output_tokens : Option ℤ
  cache_read_input_tokens : Option ℤ
  cache_creation_input_tokens : Option ℤ

/-- The `message` of a request that succeeded. -/
structure Message where
  usage : MessageUsage
  stop_reason : Option String
  content : List Content

/-- The `result` of a line. -/
inductive Outcome
  | succeeded (message : Message)
  /-- `errored`, `canceled` or `expired`, with the kind and the message of its error. -/
  | failed (type : String) (kind message : Option String)

/-- A line of the stream, with the id that the request was sent under. -/
structure WireLine where
  custom_id : String
  result : Outcome

/-- `receipt_usage`: the usage of a message, where the prompt has the tokens of the cache in it. -/
def receiptUsage (usage : MessageUsage) : ProviderUsage :=
  let read := usage.cache_read_input_tokens.getD 0
  let written := usage.cache_creation_input_tokens.getD 0
  let prompt := usage.input_tokens.getD 0 + read + written
  { input_tokens := some prompt, output_tokens := some (usage.output_tokens.getD 0),
    total_tokens := some (prompt + usage.output_tokens.getD 0), cached_tokens := some read,
    cache_write_tokens := some written, reasoning_tokens := none }

/-- The error of a request that did not succeed. -/
def failure (type : String) (kind message : Option String) : String :=
  match kind.filter (· ≠ ""), message.filter (· ≠ "") with
  | some kind, some message => kind ++ ": " ++ message
  | none, some message => message
  | _, none => "request " ++ type

/-- The texts of a message. -/
def Message.texts (message : Message) : List String :=
  (message.content.filter fun block => block.type = "text").map fun block => block.text.getD ""

/-- The text of a message, if it has one. -/
def Message.text (message : Message) : Option String :=
  if message.texts.isEmpty then none else some ("".intercalate message.texts)

/-- What a line of the stream makes of its result. -/
def readLine (outcome : Outcome) (result : BatchResult V) : BatchResult V :=
  match outcome with
  | .failed type kind message => { result with error := some (failure type kind message) }
  | .succeeded message =>
    { result with
      usage := some (receiptUsage message.usage)
      finish_reason := message.stop_reason
      text := message.text
      error := if message.text.isNone then some "no output text" else result.error }

/-- `known.get(line.custom_id)`, where it is an id that can be looked up. -/
def knownId (known : Table String String) (line : WireLine) : Option String :=
  (known.get line.custom_id).filter (· ≠ "")

/-- The id that a result is kept under: the caller's, or the one that was sent. -/
def WireLine.key (known : Table String String) (line : WireLine) : String := (knownId known line).getD line.custom_id

/-- What a line of the stream makes of the result under its key. -/
def fileLine (known : Table String String) (create_missing : Bool) (line : WireLine) (id : String)
    (stored : Option (BatchResult V)) : Option (BatchResult V) :=
  match (knownId known line).bind fun _ => stored with
  | some result => some (readLine line.result result)
  | none =>
    if !create_missing then none
    else
      let result := stored.getD { custom_id := id }
      if (known.get line.custom_id).isNone then
        some { result with error := some "result names no submitted request" }
      else some (readLine line.result result)

/-- `collect`: the results, and the errors that are stored. -/
def collect (batch_id : String) (lines : List WireLine) (results : Results V) (known : Table String String)
    (create_missing : Bool) : Results V × List (String × String) :=
  let read := fileAll (fun line => some (line.key known)) (fileLine known create_missing) results lines
  let settled := read.map fun row => (row.1, stamp batch_id row.2)
  (settled, settled.filterMap fun (id, result) =>
    match result.error with
    | some error => if error ≠ "" && result.batch_id = some batch_id then some (id, error) else none
    | none => none)

/-! ## Vectors in order -/

/-- The vectors are those of the data, each at the place that its index says. -/
def InOrder (data : List (Datum V)) (vectors : List V) : Prop :=
  vectors.length = data.length ∧
    ∀ (i : ℕ) (v : V), vectors[i]? = some v → ∃ item ∈ data, item.index = some (i : ℤ) ∧ item.embedding = some v

/-- A map that is defined everywhere keeps the places. -/
theorem getElem?_filterMap {α β : Type} {f : α → Option β} : ∀ {l : List α}, (∀ x ∈ l, (f x).isSome) →
    (l.filterMap f).length = l.length ∧ ∀ i : ℕ, (l.filterMap f)[i]? = l[i]?.bind f := by
  intro l
  induction l with
  | nil => exact fun _ => ⟨rfl, fun _ => rfl⟩
  | cons x l ih =>
    intro h
    obtain ⟨y, hy⟩ := Option.isSome_iff_exists.mp (h x List.mem_cons_self)
    obtain ⟨hlen, hget⟩ := ih fun z hz => h z (List.mem_cons_of_mem _ hz)
    rw [List.filterMap_cons_some hy]
    refine ⟨by rw [List.length_cons, List.length_cons, hlen], fun i => ?_⟩
    cases i with
    | zero => simp [hy]
    | succ i => simpa using hget i

/-- Indices that are `0..n-1` are so in order, once they are sorted. -/
theorem place_sorted {data : List (Datum V)} (h : inRange data = true) :
    (data.insertionSort fun a b => a.place ≤ b.place).map Datum.place =
      (List.range data.length).map fun i : ℕ => (i : ℤ) := by
  obtain ⟨-, hcover⟩ := (Bool.and_eq_true _ _).mp h
  set range := (List.range data.length).map fun i : ℕ => (i : ℤ) with hrange
  have hsub : range ⊆ data.map Datum.place := by
    intro x hx
    obtain ⟨i, hi, rfl⟩ := List.mem_map.mp hx
    obtain ⟨item, hitem, hindex⟩ := List.any_eq_true.mp (List.all_eq_true.mp hcover i hi)
    refine List.mem_map.mpr ⟨item, hitem, ?_⟩
    rw [Datum.place, of_decide_eq_true hindex]
    rfl
  have hnodup : range.Nodup := List.nodup_range.map fun a b hab => by exact_mod_cast hab
  have hperm : range.Perm (data.map Datum.place) := by
    refine (List.subperm_of_subset hnodup hsub).perm_of_length_le ?_
    rw [hrange, List.length_map, List.length_map, List.length_range]
  have hsorted : ((data.insertionSort fun a b => a.place ≤ b.place).map Datum.place).Pairwise (· ≤ ·) := by
    rw [List.pairwise_map]
    exact List.pairwise_insertionSort _ _
  have hordered : range.Pairwise (· ≤ ·) := by
    rw [hrange, List.pairwise_map]
    exact List.pairwise_le_range.imp fun hab => by exact_mod_cast hab
  exact List.Perm.eq_of_pairwise' hsorted hordered (((List.perm_insertionSort _ data).map _).trans hperm.symm)

/-- What `_ordered_vectors` returns is in order. -/
theorem inOrder_orderedVectors {data : List (Datum V)} {vectors : List V}
    (h : orderedVectors data = some vectors) : InOrder data vectors := by
  unfold orderedVectors at h
  split at h
  · exact absurd h nofun
  · next hrange =>
    rw [Bool.or_eq_true, not_or, Bool.not_eq_true', Bool.not_eq_false] at hrange
    dsimp only at h
    set sorted := data.insertionSort fun a b => a.place ≤ b.place with hsorted
    have hperm : sorted.Perm data := List.perm_insertionSort _ data
    split at h
    · next hall =>
      obtain rfl := Option.some_inj.mp h
      obtain ⟨hlen, hget⟩ := getElem?_filterMap (List.all_eq_true.mp hall)
      refine ⟨hlen.trans hperm.length_eq, fun i v hv => ?_⟩
      rw [hget] at hv
      obtain ⟨item, hitem, hembedding⟩ := Option.bind_eq_some_iff.mp hv
      have hmem : item ∈ data := hperm.mem_iff.mp (List.mem_of_getElem? hitem)
      refine ⟨item, hmem, ?_, hembedding⟩
      -- The item at a place has that index.
      have hplace : item.place = (i : ℤ) := by
        have hmap : (sorted.map Datum.place)[i]? = some item.place := by
          rw [List.getElem?_map, hitem]
          rfl
        have hi : i < data.length := by
          rw [← hperm.length_eq]
          exact (List.getElem?_eq_some_iff.mp hitem).1
        rw [hsorted, place_sorted hrange.2, List.getElem?_map, List.getElem?_range hi] at hmap
        exact (Option.some_inj.mp hmap).symm
      have hindex := List.all_eq_true.mp ((Bool.and_eq_true _ _).mp hrange.2).1 item hmem
      obtain ⟨j, hj, -⟩ := (Option.any_eq_true _ _).mp hindex
      rw [Datum.place, hj] at hplace
      rw [hj, ← hplace]
      rfl
    · exact absurd h nofun

/-- Vectors that are those of the data in order are all that `_ordered_vectors` returns. -/
theorem orderedVectors_of_inOrder {data : List (Datum V)} {vectors : List V} (hne : data ≠ [])
    (h : InOrder data vectors) : orderedVectors data = some vectors := by
  obtain ⟨hlength, hall⟩ := h
  have hitem : ∀ i : ℕ, i < data.length →
      ∃ item ∈ data, item.index = some (i : ℤ) ∧ item.embedding = vectors[i]? := by
    intro i hi
    obtain ⟨item, hitem, hindex, hembedding⟩ := hall i vectors[i] (List.getElem?_eq_getElem (hlength ▸ hi))
    exact ⟨item, hitem, hindex, hembedding.trans (List.getElem?_eq_getElem (hlength ▸ hi)).symm⟩
  -- There are as many items as indices, so that each index is of one item.
  have hnodup : ((List.range data.length).map fun i : ℕ => some (i : ℤ)).Nodup :=
    List.nodup_range.map fun a b hab => by exact_mod_cast Option.some.inj hab
  have hsub : ((List.range data.length).map fun i : ℕ => some (i : ℤ)) ⊆ data.map Datum.index := by
    intro x hx
    obtain ⟨i, hi, rfl⟩ := List.mem_map.mp hx
    obtain ⟨item, hmem, hindex, -⟩ := hitem i (List.mem_range.mp hi)
    exact List.mem_map.mpr ⟨item, hmem, hindex⟩
  have hperm : ((List.range data.length).map fun i : ℕ => some (i : ℤ)).Perm (data.map Datum.index) := by
    refine (List.subperm_of_subset hnodup hsub).perm_of_length_le ?_
    rw [List.length_map, List.length_map, List.length_range]
  have hindex : ∀ item ∈ data, ∃ i < data.length, item.index = some (i : ℤ) := by
    intro item hmem
    obtain ⟨i, hi, heq⟩ := List.mem_map.mp (hperm.mem_iff.mpr (List.mem_map_of_mem hmem))
    exact ⟨i, List.mem_range.mp hi, heq.symm⟩
  have hone : ∀ item ∈ data, ∀ item' ∈ data, item.index = item'.index → item = item' :=
    List.inj_on_of_nodup_map (hperm.nodup_iff.mp hnodup)
  have hrange : inRange data = true := by
    unfold inRange
    rw [Bool.and_eq_true, List.all_eq_true, List.all_eq_true]
    refine ⟨fun item hmem => ?_, fun i hi => ?_⟩
    · obtain ⟨i, hi, heq⟩ := hindex item hmem
      rw [heq, Option.any_some, decide_eq_true_eq]
      omega
    · obtain ⟨item, hmem, heq, -⟩ := hitem i (List.mem_range.mp hi)
      exact List.any_eq_true.mpr ⟨item, hmem, decide_eq_true heq⟩
  have hsome : (data.insertionSort fun a b => a.place ≤ b.place).all (fun item => item.embedding.isSome) = true := by
    refine List.all_eq_true.mpr fun item hmem => ?_
    have hmem : item ∈ data := (List.perm_insertionSort _ data).mem_iff.mp hmem
    obtain ⟨i, hi, heq⟩ := hindex item hmem
    obtain ⟨item', hmem', heq', hembedding⟩ := hitem i hi
    rw [hone item hmem item' hmem' (heq.trans heq'.symm), hembedding, List.getElem?_eq_getElem (hlength ▸ hi)]
    rfl
  obtain ⟨found, hfound⟩ : ∃ found, orderedVectors data = some found := by
    unfold orderedVectors
    rw [hrange, List.isEmpty_eq_false_iff.mpr hne]
    dsimp only [Bool.not_true, Bool.or_false]
    rw [hsome]
    exact ⟨_, rfl⟩
  -- What is returned has the same vector at each place.
  obtain ⟨hlength', hall'⟩ := inOrder_orderedVectors hfound
  rw [hfound]
  refine congrArg some (List.ext_getElem? fun i => ?_)
  by_cases hi : i < data.length
  · obtain ⟨item, hmem, heq, hembedding⟩ := hall' i found[i] (List.getElem?_eq_getElem (hlength' ▸ hi))
    obtain ⟨item', hmem', heq', hembedding'⟩ := hitem i hi
    rw [List.getElem?_eq_getElem (hlength' ▸ hi), ← hembedding', ← hembedding,
      hone item hmem item' hmem' (heq.trans heq'.symm)]
  · rw [List.getElem?_eq_none (hlength' ▸ not_lt.mp hi), List.getElem?_eq_none (hlength ▸ not_lt.mp hi)]

/-! ## What a line says -/

/-- The text of a body: that of the first `output_text` of its messages. -/
def Body.HasText (body : Body V) (text : String) : Prop :=
  ∃ items item items' before content after,
    body.output = items ++ item :: items' ∧ item.type = "message" ∧
    item.content = before ++ content :: after ∧ content.type = "output_text" ∧ content.text = some text ∧
    (∀ c ∈ before, c.type ≠ "output_text") ∧
    ∀ item' ∈ items, item'.type = "message" → ∀ c ∈ item'.content, c.type ≠ "output_text"

/-- A line answers its request with a body: it has no error, and a response with status 200. -/
def Line.Answers (line : Line V) (body : Body V) : Prop :=
  truthy line.error = false ∧ ∃ response, line.response = some response ∧ response.status_code = some 200 ∧
    response.body.getD {} = body

/-- What a line of the output file says to its request: a text, or the vectors of its data in the order of their
indices. -/
def Line.HasText (batch : FinishedBatch V) (line : Line V) (text : String) : Prop :=
  batch.endpoint ≠ "/v1/embeddings" ∧ ∃ body, line.Answers body ∧ body.HasText text

@[inherit_doc Line.HasText]
def Line.HasVectors (batch : FinishedBatch V) (line : Line V) (vectors : List V) : Prop :=
  batch.endpoint = "/v1/embeddings" ∧ ∃ body, line.Answers body ∧ body.data ≠ [] ∧ InOrder body.data vectors

/-- The first `output_text` of the messages is the one that is found. -/
theorem find?_messages {items : List Item} {content : Content} :
    ((items.filter fun item => item.type = "message").flatMap Item.content).find?
        (fun content => content.type = "output_text") = some content ↔
      ∃ before item items' contents after, items = before ++ item :: items' ∧ item.type = "message" ∧
        item.content = contents ++ content :: after ∧ content.type = "output_text" ∧
        (∀ c ∈ contents, c.type ≠ "output_text") ∧
        ∀ item' ∈ before, item'.type = "message" → ∀ c ∈ item'.content, c.type ≠ "output_text" := by
  constructor
  · intro hfound
    induction items with
    | nil => exact absurd hfound.symm (Option.some_ne_none content)
    | cons item items ih =>
      by_cases hmessage : item.type = "message"
      · rw [List.filter_cons_of_pos (by exact decide_eq_true hmessage), List.flatMap_cons,
          List.find?_append] at hfound
        cases hown : item.content.find? fun content => content.type = "output_text" with
        | some content' =>
          rw [hown, Option.some_or] at hfound
          obtain rfl := Option.some.inj hfound
          obtain ⟨htype, contents, after, hcontent, hbefore⟩ := List.find?_eq_some_iff_append.mp hown
          refine ⟨[], item, items, contents, after, rfl, hmessage, hcontent, of_decide_eq_true htype, fun c hc => ?_,
            fun item' hitem' => absurd hitem' List.not_mem_nil⟩
          have hno := hbefore c hc
          rw [Bool.not_eq_true', decide_eq_false_iff_not] at hno
          exact hno
        | none =>
          rw [hown, Option.none_or] at hfound
          obtain ⟨before, item', items', contents, after, rfl, htype, hcontent, hfirst, hbefore, hother⟩ := ih hfound
          refine ⟨item :: before, item', items', contents, after, rfl, htype, hcontent, hfirst, hbefore, ?_⟩
          intro i hi hmsg c hc
          rcases List.mem_cons.mp hi with rfl | hi
          · exact fun heq => List.find?_eq_none.mp hown c hc (decide_eq_true heq)
          · exact hother i hi hmsg c hc
      · rw [List.filter_cons_of_neg (by rwa [decide_eq_true_eq])] at hfound
        obtain ⟨before, item', items', contents, after, rfl, htype, hcontent, hfirst, hbefore, hother⟩ := ih hfound
        refine ⟨item :: before, item', items', contents, after, rfl, htype, hcontent, hfirst, hbefore, ?_⟩
        intro i hi hmsg
        rcases List.mem_cons.mp hi with rfl | hi
        · exact absurd hmsg hmessage
        · exact hother i hi hmsg
  · rintro ⟨before, item, items', contents, after, rfl, hmessage, hcontent, htype, hbefore, hother⟩
    rw [List.filter_append, List.flatMap_append, List.find?_append]
    have hnone : ((before.filter fun item => item.type = "message").flatMap Item.content).find?
        (fun content => content.type = "output_text") = none := by
      refine List.find?_eq_none.mpr fun c hc heq => ?_
      obtain ⟨item', hitem', hc⟩ := List.mem_flatMap.mp hc
      obtain ⟨hitem', hmsg⟩ := List.mem_filter.mp hitem'
      exact hother item' hitem' (of_decide_eq_true hmsg) c hc (of_decide_eq_true heq)
    rw [hnone, Option.none_or, List.filter_cons_of_pos (by exact decide_eq_true hmessage), List.flatMap_cons,
      List.find?_append]
    have hfound : item.content.find? (fun content => content.type = "output_text") = some content := by
      refine List.find?_eq_some_iff_append.mpr ⟨decide_eq_true htype, contents, after, hcontent, fun c hc => ?_⟩
      rw [Bool.not_eq_true', decide_eq_false_iff_not]
      exact hbefore c hc
    rw [hfound]
    rfl

/-- `_extract_output_text` returns the text of a body. -/
theorem extractOutputText_iff {body : Body V} {text : String} :
    extractOutputText body = some text ↔ body.HasText text := by
  unfold extractOutputText
  rw [Option.bind_eq_some_iff]
  simp only [find?_messages]
  constructor
  · rintro ⟨content, ⟨items, item, items', before, after, houtput, hmessage, hcontent, htype, hbefore, hother⟩, htext⟩
    exact ⟨items, item, items', before, content, after, houtput, hmessage, hcontent, htype, htext, hbefore, hother⟩
  · rintro ⟨items, item, items', before, content, after, houtput, hmessage, hcontent, htype, htext, hbefore, hother⟩
    exact ⟨content, ⟨items, item, items', before, after, houtput, hmessage, hcontent, htype, hbefore, hother⟩, htext⟩

/-- A line answers its request unless it is refused. -/
theorem answers_iff {line : Line V} {body : Body V} :
    line.Answers body ↔ line.refused = false ∧ line.answer = body := by
  unfold Line.Answers Line.refused Line.answer
  rw [Bool.or_eq_false_iff, Bool.or_eq_false_iff]
  cases line.response with
  | none =>
    constructor
    · rintro ⟨-, response, hnone, -⟩
      exact absurd hnone.symm (Option.some_ne_none response)
    · rintro ⟨⟨⟨-, hnone⟩, -⟩, -⟩
      exact absurd hnone.symm Bool.false_ne_true
  | some response =>
    rw [Option.isNone_some, Option.any_some, Option.bind_some]
    have hstatus : decide (response.status_code ≠ some 200) = false ↔ response.status_code = some 200 := by
      rw [decide_eq_false_iff_not, not_not]
    rw [hstatus]
    constructor
    · rintro ⟨herror, response', heq, hcode, hbody⟩
      obtain rfl := Option.some.inj heq
      exact ⟨⟨⟨herror, rfl⟩, hcode⟩, hbody⟩
    · rintro ⟨⟨⟨herror, -⟩, hcode⟩, hbody⟩
      exact ⟨herror, response, rfl, hcode, hbody⟩

/-! ## What a batch says of one request -/

section Credit

variable {str : Value → String} {batch : FinishedBatch V} {result : BatchResult V} {line : Line V}

/-- The answer that a line of the output file holds. -/
def Line.said (batch : FinishedBatch V) (line : Line V) : Option String × Option (List V) :=
  if line.refused then (none, none)
  else if batch.endpoint = "/v1/embeddings" then (none, orderedVectors line.answer.data)
  else (extractOutputText line.answer, none)

/-- It is what the line says. -/
theorem said_iff : (∀ text, (line.said batch).1 = some text ↔ line.HasText batch text) ∧
    ∀ vectors, (line.said batch).2 = some vectors ↔ line.HasVectors batch vectors := by
  unfold Line.said Line.HasText Line.HasVectors
  simp only [answers_iff]
  by_cases hrefused : line.refused = true
  · rw [if_pos hrefused]
    constructor
    · refine fun text => iff_of_false (Option.some_ne_none text).symm ?_
      rintro ⟨-, _, ⟨hno, -⟩, -⟩
      exact Bool.false_ne_true (hno.symm.trans hrefused)
    · refine fun vectors => iff_of_false (Option.some_ne_none vectors).symm ?_
      rintro ⟨-, _, ⟨hno, -⟩, -⟩
      exact Bool.false_ne_true (hno.symm.trans hrefused)
  rw [if_neg hrefused]
  rw [Bool.not_eq_true] at hrefused
  by_cases hembeddings : batch.endpoint = "/v1/embeddings"
  · rw [if_pos hembeddings]
    refine ⟨fun text => iff_of_false (Option.some_ne_none text).symm fun h => h.1 hembeddings, fun vectors => ?_⟩
    constructor
    · intro hvectors
      refine ⟨hembeddings, line.answer, ⟨hrefused, rfl⟩, ?_, inOrder_orderedVectors hvectors⟩
      intro hnil
      rw [hnil] at hvectors
      exact Option.some_ne_none vectors hvectors.symm
    · rintro ⟨-, _, ⟨-, rfl⟩, hne, hinOrder⟩
      exact orderedVectors_of_inOrder hne hinOrder
  · rw [if_neg hembeddings]
    refine ⟨fun text => ?_, fun vectors => iff_of_false (Option.some_ne_none vectors).symm fun h => hembeddings h.1⟩
    constructor
    · exact fun htext => ⟨hembeddings, line.answer, ⟨hrefused, rfl⟩, extractOutputText_iff.mp htext⟩
    · rintro ⟨-, _, ⟨-, rfl⟩, htext⟩
      exact extractOutputText_iff.mpr htext

/-- The answer that a result holds. -/
def BatchResult.answer (result : BatchResult V) : Option String × Option (List V) :=
  (result.text, result.embedding_vectors)

/-- A result without an answer is unanswered. -/
theorem unanswered_iff : unanswered result = true ↔ result.answer = (none, none) := by
  unfold unanswered BatchResult.answer
  rw [Bool.and_eq_true, Option.isNone_iff_eq_none, Option.isNone_iff_eq_none, Prod.mk.injEq]

/-- A result that is answered has no error. -/
def BatchResult.Exclusive (result : BatchResult V) : Prop := unanswered result = false → result.error = none

/-- A line of the output file leaves its answer, or an error. -/
theorem readOutput_spec (str : Value → String) (batch : FinishedBatch V) (line : Line V) (id : String) :
    (readOutput str batch line { custom_id := id }).answer = line.said batch ∧
      (readOutput str batch line { custom_id := id }).Exclusive ∧
      ((readOutput str batch line { custom_id := id }).error = none →
        unanswered (readOutput str batch line { custom_id := id }) = false) := by
  unfold readOutput Line.said
  split
  · exact ⟨rfl, nofun, nofun⟩
  · split
    · unfold readEmbedding
      cases hvectors : orderedVectors line.answer.data with
      | none => exact ⟨by simp [BatchResult.answer], by simp [BatchResult.Exclusive, unanswered], by simp⟩
      | some vectors => exact ⟨by simp [BatchResult.answer],
          by simp [BatchResult.Exclusive, unanswered], by simp [unanswered]⟩
    · unfold readResponse
      cases htext : extractOutputText line.answer with
      | none => exact ⟨by simp [BatchResult.answer], by simp [BatchResult.Exclusive, unanswered], by simp⟩
      | some text => exact ⟨by simp [BatchResult.answer], by simp [BatchResult.Exclusive], by simp [unanswered]⟩

/-- A mark leaves an answer as it is, and takes no error back. -/
theorem mark_spec (condition : Bool) (error : String) (h : result.Exclusive) :
    (mark condition error result).answer = result.answer ∧ (mark condition error result).Exclusive ∧
      ((mark condition error result).error = none →
        result.error = none ∧ (condition = true → unanswered result = false)) := by
  unfold mark
  split
  · next hmark =>
    rw [Bool.and_eq_true] at hmark
    exact ⟨rfl, fun hno => absurd (hmark.1.symm.trans hno) nofun, nofun⟩
  · next hmark =>
    refine ⟨rfl, h, fun herror => ⟨herror, fun hcondition => ?_⟩⟩
    rw [hcondition, Bool.and_true] at hmark
    exact Bool.not_eq_true _ ▸ hmark

/-- The end leaves an answer as it is, takes no error back, and leaves one where the batch did not complete. -/
theorem settle_spec (batch : FinishedBatch V) (h : result.Exclusive) :
    (settle batch result).answer = result.answer ∧ (settle batch result).Exclusive ∧
      ((settle batch result).error = none → result.error = none ∧
        (batch.status ≠ "completed" → unanswered result = false)) := by
  obtain ⟨hanswer, hexclusive, herror⟩ := mark_spec (batch.status ≠ "completed" && result.error.isNone)
    ("batch " ++ batch.status) h
  have hstamped : (stamp batch.id (markFailed batch result)).Exclusive := hexclusive
  obtain ⟨hanswer', hexclusive', herror'⟩ := mark_spec
    (!batch.messages.isEmpty && ((stamp batch.id (markFailed batch result)).error.isNone ||
      (stamp batch.id (markFailed batch result)).error = some "" ||
      (stamp batch.id (markFailed batch result)).error = some ("batch " ++ batch.status)))
    ("; ".intercalate batch.messages) hstamped
  refine ⟨hanswer'.trans hanswer, hexclusive', fun hnone => ?_⟩
  obtain ⟨hbefore, hunless⟩ := herror (herror' hnone).1
  refine ⟨hbefore, fun hstatus => hunless ?_⟩
  rw [hbefore, decide_eq_true hstatus]
  rfl

/-! ## What a batch says of its requests -/

/-- The line that names a request. -/
def named (id : String) (lines : List (Line V)) : Option (Line V) := lines.find? fun line => line.custom_id = some id

/-- What a batch says of a request: its line in the output file, its line in the error file, and the end. -/
def verdict (str : Value → String) (batch : FinishedBatch V) (id : String) : BatchResult V :=
  let answered := (named id batch.output).elim { custom_id := id }
    fun line => readOutput str batch line { custom_id := id }
  let failed := (named id batch.errors).elim answered fun line => readError str line answered
  settle batch failed

/-- What is passed is without an answer. -/
theorem get_passed (known : List String) (id : String) :
    (passed known : Results V).get id = if id ∈ known then some { custom_id := id } else none := by
  unfold passed Table.get
  rw [List.find?_map]
  split
  · next hmem =>
    have hfound : (known.find? fun k => k = id) = some id := by
      induction known with
      | nil => exact absurd hmem List.not_mem_nil
      | cons k known ih =>
        rw [List.find?_cons]
        by_cases hk : k = id
        · rw [decide_eq_true hk, hk]
        · rw [decide_eq_false hk]
          exact ih ((List.mem_cons.mp hmem).resolve_left fun heq => hk heq.symm)
    show Option.map _ (Option.map _ (known.find? fun k => k = id)) = _
    rw [hfound]
    rfl
  · next hmem =>
    have hnone : (known.find? fun k => k = id) = none := by
      refine List.find?_eq_none.mpr fun k hk heq => hmem ?_
      obtain rfl : k = id := of_decide_eq_true heq
      exact hk
    show Option.map _ (Option.map _ (known.find? fun k => k = id)) = _
    rw [hnone]
    rfl

/-- A file leaves a result as its own line has it. -/
theorem get_readFile {create_missing : Bool} {read : Line V → BatchResult V → BatchResult V}
    {lines : List (Line V)} (hnodup : (lines.filterMap Line.custom_id).Nodup) (results : Results V) (id : String) :
    (readFile create_missing read lines results).get id =
      (named id lines).elim (results.get id) fun line =>
        (resultFor create_missing id (results.get id)).map (read line) := by
  unfold readFile named
  rw [get_fileAll results hnodup]
  cases lines.find? fun line => line.custom_id = some id with
  | none => rfl
  | some line =>
    show ((resultFor create_missing id (results.get id)).map (read line)).or (results.get id) = _
    cases hstored : results.get id with
    | some _ => rfl
    | none => rw [Option.or_none]; rfl

/-- A request of which a batch keeps a result: the caller passed it, or a line names it and may have it created. -/
def Kept (batch : FinishedBatch V) (known : List String) (create_missing : Bool) (id : String) : Prop :=
  id ∈ known ∨ create_missing = true ∧ id ≠ "" ∧
    ((named id batch.output).isSome = true ∨ (named id batch.errors).isSome = true)

instance (batch : FinishedBatch V) (known : List String) (create_missing : Bool) (id : String) :
    Decidable (Kept batch known create_missing id) := inferInstanceAs (Decidable (_ ∨ _))

/-- The results of a batch are what it says of each request. -/
theorem get_collectBatch {known : List String} {create_missing : Bool}
    (houtput : (batch.output.filterMap Line.custom_id).Nodup)
    (herrors : (batch.errors.filterMap Line.custom_id).Nodup) (id : String) :
    (collectBatch str batch (passed known) create_missing).1.get id =
      if Kept batch known create_missing id then some (verdict str batch id) else none := by
  show Table.get (List.map _ _) id = _
  rw [Table.get_map, get_readFile herrors, get_readFile houtput, get_passed]
  by_cases hknown : id ∈ known
  · rw [if_pos (show Kept batch known create_missing id from .inl hknown), if_pos hknown]
    unfold verdict
    cases named id batch.output <;> cases named id batch.errors <;> rfl
  · have hkept : Kept batch known create_missing id ↔ create_missing = true ∧ id ≠ "" ∧
        ((named id batch.output).isSome = true ∨ (named id batch.errors).isSome = true) := or_iff_right hknown
    rw [if_neg hknown]
    simp only [hkept]
    unfold verdict
    -- A result is created by the first line that names it, if one does and it may be.
    cases named id batch.output <;> cases named id batch.errors <;>
      cases create_missing <;> by_cases hid : id = "" <;> simp [resultFor, hid]

/-- The results of a batch are credited to their own requests. -/
structure Credited (batch : FinishedBatch V) (known : List String) (create_missing : Bool) (results : Results V) :
    Prop where
  /-- There is a result for each request that the caller passed, and for those that lines name if they may be
  created. -/
  kept : ∀ id, (results.get id).isSome = true ↔ id ∈ known ∨ create_missing = true ∧ id ≠ "" ∧
    ∃ line ∈ batch.output ++ batch.errors, line.custom_id = some id
  /-- A result holds what the line that names its request says. -/
  own : ∀ id result, results.get id = some result → ∀ line ∈ batch.output, line.custom_id = some id →
    (∀ text, result.text = some text ↔ line.HasText batch text) ∧
      ∀ vectors, result.embedding_vectors = some vectors ↔ line.HasVectors batch vectors
  /-- It holds no answer where no line names the request. -/
  noOther : ∀ id result, results.get id = some result → (∀ line ∈ batch.output, line.custom_id ≠ some id) →
    unanswered result = true
  /-- An answer is never marked with an error. -/
  exclusive : ∀ id result, results.get id = some result → unanswered result = false → result.error = none
  /-- A line leaves an answer or an error. -/
  settled : ∀ id result, results.get id = some result →
    (∃ line ∈ batch.output ++ batch.errors, line.custom_id = some id) → unanswered result = true →
    result.error.isSome = true
  /-- Where the batch did not complete, what is unanswered has an error. -/
  failed : batch.status ≠ "completed" → ∀ id result, results.get id = some result → unanswered result = true →
    result.error.isSome = true

/-- A line that names a request is the one that is found. -/
theorem named_eq_some {lines : List (Line V)} (hnodup : (lines.filterMap Line.custom_id).Nodup) {id : String} :
    named id lines = some line ↔ line ∈ lines ∧ line.custom_id = some id :=
  find?_eq_some_iff_of_nodup hnodup

/-- There is a line that names a request. -/
theorem isSome_named {lines : List (Line V)} {id : String} :
    (named id lines).isSome = true ↔ ∃ line ∈ lines, line.custom_id = some id := by
  unfold named
  rw [List.find?_isSome]
  simp only [decide_eq_true_eq]

/-- What a batch says of a request, in the terms of its lines. -/
theorem verdict_spec (str : Value → String) (batch : FinishedBatch V) (id : String) :
    (verdict str batch id).answer = ((named id batch.output).map (Line.said batch)).getD (none, none) ∧
      (verdict str batch id).Exclusive ∧
      ((verdict str batch id).error = none → unanswered (verdict str batch id) = true →
        named id batch.output = none ∧ named id batch.errors = none ∧ batch.status = "completed") := by
  unfold verdict
  set answered : BatchResult V := (named id batch.output).elim { custom_id := id }
    fun line => readOutput str batch line { custom_id := id } with hanswered
  -- After the output file.
  have h₁ : answered.answer = ((named id batch.output).map (Line.said batch)).getD (none, none) ∧
      answered.Exclusive ∧ (answered.error = none → unanswered answered = true → named id batch.output = none) := by
    cases hline : named id batch.output with
    | none =>
      rw [hline] at hanswered
      rw [hanswered]
      exact ⟨rfl, fun _ => rfl, fun _ _ => rfl⟩
    | some line =>
      rw [hline] at hanswered
      obtain ⟨hsaid, hexclusive, herror⟩ := readOutput_spec str batch line id
      rw [hanswered]
      exact ⟨hsaid, hexclusive, fun hnone hun => absurd (hun.symm.trans (herror hnone)) nofun⟩
  set failed : BatchResult V := (named id batch.errors).elim answered fun line => readError str line answered
    with hfailed
  -- After the error file.
  have h₂ : failed.answer = answered.answer ∧ failed.Exclusive ∧
      (failed.error = none →
        answered.error = none ∧ (unanswered answered = true → named id batch.errors = none)) := by
    cases hline : named id batch.errors with
    | none =>
      rw [hline] at hfailed
      rw [hfailed]
      exact ⟨rfl, h₁.2.1, fun hnone => ⟨hnone, fun _ => rfl⟩⟩
    | some line =>
      rw [hline] at hfailed
      obtain ⟨hsame, hexclusive, herror⟩ := mark_spec true (errorOr str line "batch error") h₁.2.1
      rw [hfailed]
      refine ⟨hsame, hexclusive, fun hnone => ⟨(herror hnone).1, fun hun => ?_⟩⟩
      exact absurd (hun.symm.trans ((herror hnone).2 rfl)) nofun
  obtain ⟨hsame, hexclusive, herror⟩ := settle_spec batch h₂.2.1
  refine ⟨hsame.trans (h₂.1.trans h₁.1), hexclusive, fun hnone hun => ?_⟩
  -- No answer at the end means none before.
  have hunFailed : unanswered failed = true := by
    rw [unanswered_iff] at hun ⊢
    exact hsame ▸ hun
  have hunAnswered : unanswered answered = true := by
    rw [unanswered_iff] at hunFailed ⊢
    exact h₂.1 ▸ hunFailed
  obtain ⟨hbefore, hstatus⟩ := herror hnone
  obtain ⟨hfirst, hsecond⟩ := h₂.2.2 hbefore
  refine ⟨h₁.2.2 hfirst hunAnswered, hsecond hunAnswered, ?_⟩
  by_contra hne
  exact absurd (hunFailed.symm.trans (hstatus hne)) nofun

/-- The results of a batch are credited to their own requests, whatever its lines are. -/
theorem credited_collectBatch {known : List String} {create_missing : Bool}
    (houtput : (batch.output.filterMap Line.custom_id).Nodup)
    (herrors : (batch.errors.filterMap Line.custom_id).Nodup) :
    Credited batch known create_missing (collectBatch str batch (passed known) create_missing).1 := by
  have hget : ∀ id, (collectBatch str batch (passed known) create_missing).1.get id =
      if Kept batch known create_missing id then some (verdict str batch id) else none :=
    get_collectBatch houtput herrors
  have hverdict : ∀ {id result}, (collectBatch str batch (passed known) create_missing).1.get id = some result →
      result = verdict str batch id := by
    intro id result h
    rw [hget] at h
    split at h
    · exact (Option.some_inj.mp h).symm
    · exact absurd h nofun
  have hlines : ∀ id, (∃ line ∈ batch.output ++ batch.errors, line.custom_id = some id) ↔
      (named id batch.output).isSome = true ∨ (named id batch.errors).isSome = true := by
    intro id
    rw [isSome_named, isSome_named]
    simp only [List.mem_append, or_and_right, exists_or]
  refine ⟨fun id => ?_, fun id result h line hline hid => ?_, fun id result h hno => ?_,
    fun id result h => ?_, fun id result h hline hun => ?_,
    fun hstatus id result h hun => ?_⟩
  · rw [hget, hlines]
    split
    · next hkept => exact iff_of_true rfl hkept
    · next hkept => exact iff_of_false nofun hkept
  · obtain rfl := hverdict h
    have hanswer := (verdict_spec str batch id).1
    rw [(named_eq_some houtput).mpr ⟨hline, hid⟩] at hanswer
    obtain ⟨htext, hvectors⟩ := Prod.mk.inj (hanswer : _ = line.said batch)
    rw [htext, hvectors]
    exact said_iff
  · obtain rfl := hverdict h
    have hnone : named id batch.output = none := List.find?_eq_none.mpr fun line hline heq =>
      hno line hline (of_decide_eq_true heq)
    rw [unanswered_iff, (verdict_spec str batch id).1, hnone]
    rfl
  · obtain rfl := hverdict h
    exact (verdict_spec str batch id).2.1
  · obtain rfl := hverdict h
    by_contra hno
    obtain ⟨hout, herr, -⟩ := (verdict_spec str batch id).2.2 (Option.not_isSome_iff_eq_none.mp hno) hun
    rw [hlines, hout, herr] at hline
    exact hline.elim nofun nofun
  · obtain rfl := hverdict h
    by_contra hno
    exact hstatus ((verdict_spec str batch id).2.2 (Option.not_isSome_iff_eq_none.mp hno) hun).2.2

/-- The order of the lines within a file does not matter. -/
theorem get_collectBatch_perm {known : List String} {create_missing : Bool} {output errors : List (Line V)}
    (houtput : (batch.output.filterMap Line.custom_id).Nodup)
    (herrors : (batch.errors.filterMap Line.custom_id).Nodup) (hout : batch.output.Perm output)
    (herr : batch.errors.Perm errors) (id : String) :
    (collectBatch str { batch with output := output, errors := errors } (passed known) create_missing).1.get id =
      (collectBatch str batch (passed known) create_missing).1.get id := by
  have houtput' : (output.filterMap Line.custom_id).Nodup := (hout.filterMap _).nodup_iff.mp houtput
  have herrors' : (errors.filterMap Line.custom_id).Nodup := (herr.filterMap _).nodup_iff.mp herrors
  have hnamed : named id output = named id batch.output := (find?_perm hout houtput id).symm
  have hnamed' : named id errors = named id batch.errors := (find?_perm herr herrors id).symm
  have hkept : Kept { batch with output := output, errors := errors } known create_missing id ↔
      Kept batch known create_missing id := by
    unfold Kept
    rw [hnamed, hnamed']
  have hverdict : verdict str { batch with output := output, errors := errors } id = verdict str batch id := by
    unfold verdict
    rw [hnamed, hnamed']
    rfl
  rw [get_collectBatch houtput' herrors', get_collectBatch houtput herrors, hverdict]
  simp only [hkept]

end Credit

/-! ## What a stream says of its requests -/

section Stream

variable {sha256Hex : String → String} {ids : List String} {known : Table String String} {lines : List WireLine}
  {line : WireLine} {id : String}

/-- No two ids of the task are sent as one: a digest prefix is that of one id, and no id itself. -/
def CollisionFree (sha256Hex : String → String) (ids : List String) : Prop :=
  ∀ a ∈ ids, ∀ b ∈ ids, wireId sha256Hex a = wireId sha256Hex b → a = b

instance (ids : List String) : Decidable (CollisionFree sha256Hex ids) :=
  inferInstanceAs (Decidable (∀ a ∈ ids, ∀ b ∈ ids, _))

/-- A sent id is mapped back to the id of the task that is sent so. -/
theorem get_wireIds (hfree : CollisionFree sha256Hex ids) (w : String) :
    (wireIds sha256Hex ids).get w = some id ↔ id ∈ ids ∧ wireId sha256Hex id = w := by
  induction ids using List.reverseRecOn with
  | nil => exact iff_of_false nofun fun h => absurd h.1 List.not_mem_nil
  | append_singleton ids x ih =>
    have hprefix : CollisionFree sha256Hex ids := fun a ha b hb =>
      hfree a (List.mem_append_left _ ha) b (List.mem_append_left _ hb)
    unfold wireIds at ih ⊢
    rw [List.foldl_concat, Table.get_put]
    by_cases hw : w = wireId sha256Hex x
    · rw [if_pos hw, Option.some_inj]
      constructor
      · rintro rfl
        exact ⟨List.mem_append_right _ (List.mem_singleton_self x), hw.symm⟩
      · rintro ⟨hmem, hid⟩
        exact hfree x (List.mem_append_right _ (List.mem_singleton_self x)) id hmem (hw.symm.trans hid.symm)
    · rw [if_neg hw, ih hprefix, List.mem_append, List.mem_singleton]
      constructor
      · exact fun h => ⟨.inl h.1, h.2⟩
      · rintro ⟨hmem | rfl, hid⟩
        · exact ⟨hmem, hid⟩
        · exact absurd hid.symm hw

/-- The texts of the blocks of a message, one after the other. -/
inductive Joined : List Content → String → Prop
  | nil : Joined [] ""
  | text {block : Content} {rest : List Content} {joined : String} :
    block.type = "text" → Joined rest joined → Joined (block :: rest) (block.text.getD "" ++ joined)
  | other {block : Content} {rest : List Content} {joined : String} :
    block.type ≠ "text" → Joined rest joined → Joined (block :: rest) joined

/-- What a line of the stream says to its request: the texts of a message that succeeded and has one. -/
def Outcome.HasText (outcome : Outcome) (text : String) : Prop :=
  ∃ message, outcome = .succeeded message ∧ (∃ block ∈ message.content, block.type = "text") ∧
    Joined message.content text

/-- One text more. -/
theorem intercalate_cons (text : String) (texts : List String) :
    "".intercalate (text :: texts) = text ++ "".intercalate texts := by
  apply String.toList_injective
  rw [String.toList_append, String.toList_intercalate, String.toList_intercalate, List.map_cons]
  cases texts with
  | nil => simp
  | cons text' texts =>
    rw [List.map_cons, List.intercalate_cons_cons, String.toList_empty, List.append_nil]

/-- The texts of a message are joined in order. -/
theorem joined_iff {content : List Content} {joined : String} : Joined content joined ↔
    "".intercalate ((content.filter fun block => block.type = "text").map fun block => block.text.getD "") =
      joined := by
  constructor
  · intro h
    induction h with
    | nil => rfl
    | text htype _ ih =>
      rw [List.filter_cons_of_pos (by exact decide_eq_true htype), List.map_cons, intercalate_cons, ih]
    | other htype _ ih =>
      rw [List.filter_cons_of_neg (by rwa [decide_eq_true_eq])]
      exact ih
  · rintro rfl
    induction content with
    | nil => exact .nil
    | cons block rest ih =>
      by_cases htype : block.type = "text"
      · rw [List.filter_cons_of_pos (by exact decide_eq_true htype), List.map_cons, intercalate_cons]
        exact .text htype ih
      · rw [List.filter_cons_of_neg (by rwa [decide_eq_true_eq])]
        exact .other htype ih

/-- The text that a line holds. -/
def Outcome.text : Outcome → Option String
  | .succeeded message => message.text
  | .failed _ _ _ => none

/-- It is what the line says. -/
theorem Outcome.text_iff {outcome : Outcome} {text : String} : outcome.text = some text ↔ outcome.HasText text := by
  cases outcome with
  | failed type kind message =>
    refine iff_of_false (Option.some_ne_none text).symm ?_
    rintro ⟨message, heq, -⟩
    cases heq
  | succeeded message =>
    have hnone : message.texts = [] ↔ ¬∃ block ∈ message.content, block.type = "text" := by
      unfold Message.texts
      rw [List.map_eq_nil_iff, List.filter_eq_nil_iff]
      simp only [decide_eq_true_eq, not_exists, not_and]
    have htexts : Outcome.text (.succeeded message) = if message.texts = [] then none
        else some ("".intercalate message.texts) := by
      show (if message.texts.isEmpty then none else some ("".intercalate message.texts)) = _
      simp only [List.isEmpty_iff]
    rw [htexts]
    constructor
    · intro h
      split at h
      · exact absurd h.symm (Option.some_ne_none text)
      · next hne =>
        exact ⟨message, rfl, not_not.mp (mt hnone.mpr hne), joined_iff.mpr (Option.some.inj h)⟩
    · rintro ⟨message', heq, hblock, hjoined⟩
      obtain rfl := Outcome.succeeded.inj heq
      rw [if_neg fun hnil => hnone.mp hnil hblock]
      exact congrArg some (joined_iff.mp hjoined)

/-- A line of a request leaves its text, or an error. -/
theorem readLine_spec (outcome : Outcome) (id : String) :
    (readLine outcome ({ custom_id := id } : BatchResult V)).answer = (outcome.text, none) ∧
      (readLine outcome ({ custom_id := id } : BatchResult V)).Exclusive ∧
      ((readLine outcome ({ custom_id := id } : BatchResult V)).error = none →
        unanswered (readLine outcome ({ custom_id := id } : BatchResult V)) = false) := by
  unfold readLine Outcome.text
  cases outcome with
  | failed type kind message => exact ⟨rfl, nofun, nofun⟩
  | succeeded message =>
    cases htext : message.text with
    | none => exact ⟨by simp [BatchResult.answer, htext], by simp [BatchResult.Exclusive, unanswered, htext],
        by simp [htext]⟩
    | some text => exact ⟨by simp [BatchResult.answer, htext], by simp [BatchResult.Exclusive, htext],
        by simp [unanswered, htext]⟩

/-- What the stream comes with: the ids of the task have no collision, and none is empty; no two lines have one id,
and the ids of the lines are ones that the vendor takes. -/
structure Streamed (sha256Hex : String → String) (ids : List String) (lines : List WireLine) : Prop where
  collisionFree : CollisionFree sha256Hex ids
  nonempty : ∀ id ∈ ids, id ≠ ""
  nodup : (lines.map WireLine.custom_id).Nodup
  wire : ∀ line ∈ lines, isWireId line.custom_id = true

/-- A line of a request of the task is looked up under the id of the request. -/
theorem Streamed.knownId_iff (h : Streamed sha256Hex ids lines) :
    knownId (wireIds sha256Hex ids) line = some id ↔ id ∈ ids ∧ wireId sha256Hex id = line.custom_id := by
  unfold knownId
  rw [Option.filter_eq_some_iff, get_wireIds h.collisionFree]
  constructor
  · exact fun hid => hid.1
  · exact fun hid => ⟨hid, decide_eq_true (h.nonempty id hid.1)⟩

/-- A line is kept under the id of its request, or under one that is no request's. -/
theorem Streamed.key_iff (h : Streamed sha256Hex ids lines) (hline : line ∈ lines) (hid : id ∈ ids) :
    line.key (wireIds sha256Hex ids) = id ↔ line.custom_id = wireId sha256Hex id := by
  unfold WireLine.key
  cases hknown : knownId (wireIds sha256Hex ids) line with
  | some other =>
    obtain ⟨hother, hwire⟩ := h.knownId_iff.mp hknown
    rw [Option.getD_some]
    constructor
    · rintro rfl
      exact hwire.symm
    · exact fun heq => h.collisionFree other hother id hid (hwire.trans heq)
  | none =>
    have hunknown : line.custom_id ≠ wireId sha256Hex id := by
      intro heq
      have hsome : knownId (wireIds sha256Hex ids) line = some id := h.knownId_iff.mpr ⟨hid, heq.symm⟩
      exact absurd (hknown.symm.trans hsome) nofun
    rw [Option.getD_none]
    refine iff_of_false (fun heq => hunknown ?_) hunknown
    -- An id that the vendor takes is sent as it is.
    have hwire := h.wire line hline
    rw [heq] at hwire
    rw [heq, wireId, if_pos hwire]

/-- A line that is kept under no id of the task is of none of its requests. -/
theorem Streamed.known_get_of_key (h : Streamed sha256Hex ids lines) (hkey : line.key (wireIds sha256Hex ids) ∉ ids) :
    (wireIds sha256Hex ids).get line.custom_id = none ∧ line.key (wireIds sha256Hex ids) = line.custom_id := by
  unfold WireLine.key at hkey ⊢
  cases hknown : knownId (wireIds sha256Hex ids) line with
  | some id =>
    rw [hknown] at hkey
    exact absurd (h.knownId_iff.mp hknown).1 hkey
  | none =>
    refine ⟨?_, rfl⟩
    cases hget : (wireIds sha256Hex ids).get line.custom_id with
    | none => rfl
    | some id =>
      have hid : knownId (wireIds sha256Hex ids) line = some id :=
        h.knownId_iff.mpr ((get_wireIds h.collisionFree _).mp hget)
      exact absurd (hknown.symm.trans hid) nofun

/-- No two lines are kept under one id. -/
theorem Streamed.nodup_keys (h : Streamed sha256Hex ids lines) :
    (lines.filterMap fun line => some (line.key (wireIds sha256Hex ids))).Nodup := by
  show (lines.filterMap (some ∘ fun line => line.key (wireIds sha256Hex ids))).Nodup
  rw [List.filterMap_eq_map]
  refine List.Nodup.map_on (fun line hline line' hline' heq => ?_) h.nodup.of_map
  refine List.inj_on_of_nodup_map h.nodup hline hline' ?_
  by_cases hkey : line.key (wireIds sha256Hex ids) ∈ ids
  · calc line.custom_id = wireId sha256Hex (line.key (wireIds sha256Hex ids)) := (h.key_iff hline hkey).mp rfl
      _ = line'.custom_id := ((h.key_iff hline' hkey).mp heq.symm).symm
  · have hkey' : line'.key (wireIds sha256Hex ids) ∉ ids := heq ▸ hkey
    calc line.custom_id = line.key (wireIds sha256Hex ids) := (h.known_get_of_key hkey).2.symm
      _ = line'.key (wireIds sha256Hex ids) := heq
      _ = line'.custom_id := (h.known_get_of_key hkey').2

/-- The line that was sent for a request. -/
def sentFor (sha256Hex : String → String) (id : String) (lines : List WireLine) : Option WireLine :=
  lines.find? fun line => line.custom_id = wireId sha256Hex id

/-- What a stream says of a request. -/
def streamVerdict (sha256Hex : String → String) (batch_id : String) (lines : List WireLine) (id : String) :
    BatchResult V :=
  stamp batch_id ((sentFor sha256Hex id lines).elim { custom_id := id }
    fun line => readLine line.result { custom_id := id })

/-- A request's result is what its own line says. -/
theorem get_collect {prefilled : List String} {create_missing : Bool} {batch_id : String}
    (h : Streamed sha256Hex ids lines) (hid : id ∈ ids) :
    (collect batch_id lines (passed prefilled : Results V) (wireIds sha256Hex ids) create_missing).1.get id =
      if id ∈ prefilled ∨ create_missing = true ∧ (sentFor sha256Hex id lines).isSome = true then
        some (streamVerdict sha256Hex batch_id lines id)
      else none := by
  show Table.get (List.map _ _) id = _
  have hfound : (lines.find? fun line => some (line.key (wireIds sha256Hex ids)) = some id) =
      sentFor sha256Hex id lines := by
    unfold sentFor
    exact List.find?_congr fun line hline => decide_eq_decide.mpr (Option.some_inj.trans (h.key_iff hline hid))
  rw [Table.get_map, get_fileAll _ h.nodup_keys, hfound, get_passed]
  unfold streamVerdict
  cases hline : sentFor sha256Hex id lines with
  | none => by_cases hpre : id ∈ prefilled <;> simp [hpre]
  | some line =>
    have hwire : line.custom_id = wireId sha256Hex id :=
      of_decide_eq_true (List.find?_some (p := fun line : WireLine => line.custom_id = wireId sha256Hex id) hline)
    have hknown : knownId (wireIds sha256Hex ids) line = some id := h.knownId_iff.mpr ⟨hid, hwire.symm⟩
    have hget : (wireIds sha256Hex ids).get line.custom_id = some id :=
      (get_wireIds h.collisionFree _).mpr ⟨hid, hwire.symm⟩
    by_cases hpre : id ∈ prefilled
    · simp [fileLine, hknown, hpre]
    · cases create_missing <;> simp [fileLine, hknown, hget, hpre]

/-- What is kept under another id names no request. -/
theorem get_collect_unknown {prefilled : List String} {create_missing : Bool} {batch_id : String}
    (h : Streamed sha256Hex ids lines) (hprefilled : prefilled ⊆ ids) (hid : id ∉ ids) {result : BatchResult V}
    (hget : (collect batch_id lines (passed prefilled) (wireIds sha256Hex ids) create_missing).1.get id =
      some result) :
    unanswered result = true ∧ result.error = some "result names no submitted request" := by
  have hnone : id ∉ prefilled := fun hmem => hid (hprefilled hmem)
  have hrow : ((fileAll (fun line => some (line.key (wireIds sha256Hex ids)))
      (fileLine (wireIds sha256Hex ids) create_missing) (passed prefilled : Results V) lines).get id).map
        (stamp batch_id) = some result := by
    rw [← Table.get_map]
    exact hget
  rw [get_fileAll _ h.nodup_keys, get_passed, if_neg hnone] at hrow
  cases hline : lines.find? fun line => some (line.key (wireIds sha256Hex ids)) = some id with
  | none =>
    rw [hline] at hrow
    exact absurd hrow nofun
  | some line =>
    have hkey : line.key (wireIds sha256Hex ids) = id := Option.some_inj.mp (of_decide_eq_true
      (List.find?_some (p := fun line : WireLine => some (line.key (wireIds sha256Hex ids)) = some id) hline))
    obtain ⟨hunknown, -⟩ := h.known_get_of_key (hkey ▸ hid)
    have hknown : knownId (wireIds sha256Hex ids) line = none := by
      rw [knownId, hunknown]
      rfl
    rw [hline] at hrow
    cases create_missing with
    | false => simp [fileLine, hknown] at hrow
    | true =>
      simp only [fileLine, hknown, hunknown, Option.bind_none, Bool.not_true, Bool.false_eq_true, if_false,
        Option.isNone_none, if_true, Option.getD_none, Option.or_none, Option.map_some, Option.some_inj] at hrow
      rw [← hrow]
      exact ⟨rfl, rfl⟩

/-- The results of a stream are credited to their own requests. -/
structure CreditedStream (sha256Hex : String → String) (ids prefilled : List String) (create_missing : Bool)
    (lines : List WireLine) (results : Results V) : Prop where
  /-- There is a result for each request that the caller passed, and for those with a line if they may be created. -/
  kept : ∀ id ∈ ids, (results.get id).isSome = true ↔
    id ∈ prefilled ∨ create_missing = true ∧ ∃ line ∈ lines, line.custom_id = wireId sha256Hex id
  /-- A result holds what the line that was sent for its request says. -/
  own : ∀ id ∈ ids, ∀ result, results.get id = some result → ∀ line ∈ lines,
    line.custom_id = wireId sha256Hex id →
      (∀ text, result.text = some text ↔ line.result.HasText text) ∧ result.embedding_vectors = none
  /-- It holds no answer where there is no such line. -/
  noOther : ∀ id ∈ ids, ∀ result, results.get id = some result →
    (∀ line ∈ lines, line.custom_id ≠ wireId sha256Hex id) → unanswered result = true
  /-- What names no request of the task is kept as an error. -/
  unknown : ∀ id, id ∉ ids → ∀ result, results.get id = some result →
    unanswered result = true ∧ result.error = some "result names no submitted request"
  /-- An answer is never marked with an error. -/
  exclusive : ∀ id result, results.get id = some result → unanswered result = false → result.error = none
  /-- A line leaves an answer or an error. -/
  settled : ∀ id ∈ ids, ∀ result, results.get id = some result →
    (∃ line ∈ lines, line.custom_id = wireId sha256Hex id) → unanswered result = true → result.error.isSome = true

/-- A line that was sent for a request is the one that is found. -/
theorem sentFor_eq_some (h : Streamed sha256Hex ids lines) :
    sentFor sha256Hex id lines = some line ↔ line ∈ lines ∧ line.custom_id = wireId sha256Hex id := by
  have hnodup : (lines.filterMap (some ∘ WireLine.custom_id)).Nodup := by
    rw [List.filterMap_eq_map]
    exact h.nodup
  have hfound : sentFor sha256Hex id lines =
      lines.find? fun line => (some ∘ WireLine.custom_id) line = some (wireId sha256Hex id) :=
    List.find?_congr fun line _ => decide_eq_decide.mpr Option.some_inj.symm
  rw [hfound, find?_eq_some_iff_of_nodup hnodup]
  exact and_congr_right fun _ => Option.some_inj

/-- What a stream says of a request, in the terms of its line. -/
theorem streamVerdict_spec (batch_id : String) (lines : List WireLine) (id : String) :
    (streamVerdict sha256Hex batch_id lines id : BatchResult V).answer =
        ((sentFor sha256Hex id lines).bind fun line => line.result.text, none) ∧
      (streamVerdict sha256Hex batch_id lines id : BatchResult V).Exclusive ∧
      ((streamVerdict sha256Hex batch_id lines id : BatchResult V).error = none →
        unanswered (streamVerdict sha256Hex batch_id lines id : BatchResult V) = true →
          sentFor sha256Hex id lines = none) := by
  unfold streamVerdict
  cases hline : sentFor sha256Hex id lines with
  | none => exact ⟨rfl, fun _ => rfl, fun _ _ => rfl⟩
  | some line =>
    obtain ⟨hanswer, hexclusive, herror⟩ := readLine_spec (V := V) line.result id
    exact ⟨hanswer, hexclusive, fun hnone hun => absurd (hun.symm.trans (herror hnone)) nofun⟩

/-- The results of a stream are credited to their own requests, whatever its lines are. -/
theorem credited_collect {prefilled : List String} (h : Streamed sha256Hex ids lines) (hprefilled : prefilled ⊆ ids)
    (create_missing : Bool) (batch_id : String) :
    CreditedStream sha256Hex ids prefilled create_missing lines
      (collect batch_id lines (passed prefilled : Results V) (wireIds sha256Hex ids) create_missing).1 := by
  have hverdict : ∀ {id} {result : BatchResult V}, id ∈ ids →
      (collect batch_id lines (passed prefilled) (wireIds sha256Hex ids) create_missing).1.get id = some result →
      result = streamVerdict sha256Hex batch_id lines id := by
    intro id result hid hget
    rw [get_collect h hid] at hget
    split at hget
    · exact (Option.some_inj.mp hget).symm
    · exact absurd hget nofun
  have hsent : ∀ id, (sentFor sha256Hex id lines).isSome = true ↔
      ∃ line ∈ lines, line.custom_id = wireId sha256Hex id := by
    intro id
    unfold sentFor
    rw [List.find?_isSome]
    simp only [decide_eq_true_eq]
  refine ⟨fun id hid => ?_, fun id hid result hget line hline hwire => ?_, fun id hid result hget hno => ?_,
    fun id hid result hget => get_collect_unknown h hprefilled hid hget, fun id result hget => ?_,
    fun id hid result hget hline hun => ?_⟩
  · rw [get_collect h hid, ← hsent]
    split
    · next hkept => exact iff_of_true rfl hkept
    · next hkept => exact iff_of_false nofun hkept
  · obtain rfl := hverdict hid hget
    have hanswer : (streamVerdict sha256Hex batch_id lines id : BatchResult V).answer = _ :=
      (streamVerdict_spec batch_id lines id).1
    rw [(sentFor_eq_some h).mpr ⟨hline, hwire⟩] at hanswer
    obtain ⟨htext, hvectors⟩ := Prod.mk.inj (hanswer : _ = (line.result.text, none))
    rw [htext]
    exact ⟨fun text => Outcome.text_iff, hvectors⟩
  · obtain rfl := hverdict hid hget
    have hnone : sentFor sha256Hex id lines = none := List.find?_eq_none.mpr fun line hline heq =>
      hno line hline (of_decide_eq_true heq)
    rw [unanswered_iff, (streamVerdict_spec batch_id lines id).1, hnone]
    rfl
  · by_cases hid : id ∈ ids
    · obtain rfl := hverdict hid hget
      exact (streamVerdict_spec batch_id lines id).2.1
    · intro hanswered
      exact absurd ((get_collect_unknown h hprefilled hid hget).1.symm.trans hanswered) nofun
  · obtain rfl := hverdict hid hget
    by_contra hno
    have hnone := (streamVerdict_spec batch_id lines id).2.2 (Option.not_isSome_iff_eq_none.mp hno) hun
    rw [← hsent, hnone] at hline
    exact absurd hline nofun

/-- The order of the lines does not matter. -/
theorem get_collect_perm {prefilled : List String} {lines' : List WireLine} (h : Streamed sha256Hex ids lines)
    (hperm : lines.Perm lines') (create_missing : Bool) (batch_id id : String) :
    (collect batch_id lines' (passed prefilled : Results V) (wireIds sha256Hex ids) create_missing).1.get id =
      (collect batch_id lines (passed prefilled) (wireIds sha256Hex ids) create_missing).1.get id := by
  show Table.get (List.map _ _) id = Table.get (List.map _ _) id
  rw [Table.get_map, Table.get_map, get_fileAll_perm _ hperm h.nodup_keys]

end Stream

/-! ## Both vendors -/

/-- A batch that expired after one request: it answered `b`, refused `a`, and did not come to `c`. -/
def expired : FinishedBatch ℕ where
  id := "batch_1"
  status := "expired"
  output :=
    [{ custom_id := some "b",
        response := some
          { status_code := some 200,
            body := some { output := [⟨"message", [⟨"output_text", some "keep"⟩]⟩] } } },
      { custom_id := some "a", response := some { status_code := some 429 } }]
  errors := [{ custom_id := some "b", error := .str (codes "batch_expired") }]

/-- The digest of the posting that `streamedLine` is about. -/
def digest (custom_id : String) : String :=
  if custom_id = "https://jobs.example/1" then
    "b8c05323eeb017dabeee08194c04ae33da47cca6fa4673166e23458cba842562"
  else ""

/-- The line of a posting, under the id that it was sent as. -/
def streamedLine : WireLine where
  custom_id := "h-b8c05323eeb017dabeee08194c04ae33da47cca6"
  result := .succeeded ⟨⟨some 10, some 2, none, none⟩, some "end_turn", [⟨"text", some "keep"⟩]⟩

end JobScripts.Batch.Lines

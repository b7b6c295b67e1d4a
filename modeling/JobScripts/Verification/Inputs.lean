import Mathlib.Data.List.Basic
import Mathlib.Data.String.Basic

/-!
# The input of an answer

An answer does not keep the input that it was asked with. `sql` of `core/answer_inputs.py` rebuilds it from the page
text that the answer names and from four columns of its row. Here it is compared with what the request builders of
the new-posting verification (`tasks/verification`) and of the custom filters (`tasks/filtering/execution.py`) send.

`rebuilt_iff` says, for every answer that these paths write, when the two agree. They do not where verification
alone reads a page that it cuts, nor where it answers in a joint request, whose input has a header that the rows of
its two checks do not show (`long_page_not_rebuilt`).
-/

namespace JobScripts.Verification.Inputs

/-! ## Texts -/

/-- A text that PostgreSQL holds, of at most one gigabyte. -/
structure PageText where
  text : String
  bounded : text.length < 2 ^ 30

/-- The first characters of a text: `left` in SQL, a slice in Python. -/
def left (text : String) (n : ℕ) : String := String.ofList (text.toList.take n)

/-- `VERIFY_INPUT_CHARS`: the characters of a page that verification reads. -/
def verifyInputChars : ℕ := 20000

/-- `LIVE_CHECK_INPUT_CHARS`: the characters of a page that a check on demand reads. -/
def liveCheckInputChars : ℕ := 60000

/-- How a Python format string shows a value that may be `None`. -/
def shown : Option String → String
  | some s => s
  | none => "None"

/-- `build_custom_input`: the input of a custom check, with the company and the title before the page. -/
def buildCustomInput (company title : Option String) (content : String) : String :=
  "Company: " ++ shown company ++ "\nJob Title: " ++ shown title ++ "\n\nJob Content:\n" ++ content

/-- `VERIFICATION_REQUEST.build_input`: the page, cut to what verification reads. -/
def buildInput (content : String) : String := left content verifyInputChars

/-! ## The rebuilt input -/

/-- The columns of a row of `ai_queries` that are read here. -/
structure Answer where
  url : String
  check_type : String
  rejected : Option Bool
  config_name : Option String
  company : Option String
  job_title : Option String
  page_fetch_id : Option ℕ

/-- `_LIVE`: the configurations of checks on demand. -/
def live : List String := ["manual", "explain"]

/-- `wrapped`: the answer was to an input with a header. -/
def wrapped (q : Answer) : Bool := q.check_type = "custom" && !live.contains (q.config_name.getD "")

/-- `header`: the company and the title as the input has them. -/
def header (q : Answer) : String :=
  "Company: " ++ q.company.getD "" ++ "\nJob Title: " ++ q.job_title.getD "" ++ "\n\nJob Content:\n"

/-- `_cut`: the text, cut to what the check of the answer read. -/
def cut (q : Answer) (text : String) : String :=
  left text
    (if live.contains (q.config_name.getD "") then liveCheckInputChars
    else if wrapped q && q.config_name = some "verify-batch" then verifyInputChars
    else 2147483647)

/-- `sql`: the input of an answer, as the database builds it again. -/
def sql (q : Answer) (text : String) : String := if wrapped q then header q ++ cut q text else cut q text

/-! ## Verification of new postings -/

/-- A posting that the sweep asks about. -/
structure Row where
  url : String
  company : Option String
  title : Option String
  input_content : PageText
  page_fetch_id : ℕ
  needs_closed : Bool
  needs_clearance : Bool

/-- `BoardQuestion`, as the context of a request keeps it. -/
structure BoardQuestion where
  board_id : ℕ
  prompt_hash : String
  model : String

/-- The context of a verification request. -/
structure Context where
  company : Option String
  title : Option String
  needs_closed : Bool
  needs_clearance : Bool
  page_fetch_id : Option ℕ
  boards : List BoardQuestion

/-- A request, with its context. -/
structure Request (κ : Type) where
  custom_id : String
  input : String
  context : Option κ

/-- `_row_context`, with the boards that a joint request has. -/
def rowContext (row : Row) (boards : List BoardQuestion) : Context :=
  ⟨row.company, row.title, row.needs_closed, row.needs_clearance, some row.page_fetch_id, boards⟩

/-- `_verification_spec`: the request of a posting for verification alone. -/
def verificationSpec (row : Row) : Request Context :=
  ⟨row.url, buildInput row.input_content.text, some (rowContext row [])⟩

/-- `_joint_spec`: the request of a posting for verification with the questions of boards. -/
def jointSpec (row : Row) (questions : List BoardQuestion) : Request Context :=
  ⟨row.url, buildCustomInput row.company row.title (buildInput row.input_content.text),
    some (rowContext row questions)⟩

/-- The request of one row, as `_build_specs` chooses it. -/
def buildSpec (row : Row) (questions : List BoardQuestion) : Request Context :=
  if questions.isEmpty then verificationSpec row else jointSpec row questions

/-- What a verification answer says, and what it says of the boards' questions. -/
structure Parsed where
  is_closed : Bool
  requires_clearance_or_restrictions : Bool
  decisions : ℕ → Bool

/-- A collected result. `parsed` is what the text of the answer holds for the boards that the request has. -/
structure BatchResult (κ π : Type) where
  custom_id : String
  request : Option (Request κ)
  error : Option String
  text : Option String
  model : Option String
  parsed : Option π

/-- The verdict on one check that `_record_result` writes. -/
def checkVerdict (custom_id : String) (job : Context) (check : String) (rejected : Bool) : Answer :=
  ⟨custom_id, check, some rejected, some "verify-batch", job.company, job.title, job.page_fetch_id⟩

/-- The verdicts that `_record_result` writes. `settled` has the checks that the posting has verdicts on, and
`decided` the questions of which the board has bought an answer meanwhile. -/
def recordResult (settled : List String) (decided : BoardQuestion → Bool) (res : BatchResult Context Parsed) :
    List Answer :=
  match res.request.bind Request.context with
  | none => []
  | some job =>
    if res.error.isSome || res.text.getD "" = "" then []
    else
      match res.parsed with
      | none => []
      | some parsed =>
        (if job.needs_closed && !settled.contains "closed" then
            [checkVerdict res.custom_id job "closed" parsed.is_closed] else []) ++
          (if job.needs_clearance && !settled.contains "clearance" then
            [checkVerdict res.custom_id job "clearance" parsed.requires_clearance_or_restrictions] else []) ++
          (job.boards.filter fun board => res.model = some board.model && !decided board).map fun board =>
            checkVerdict res.custom_id job "custom" (parsed.decisions board.board_id)

/-! ## Custom filters -/

/-- A posting that a filter runs over. -/
structure Job where
  url : String
  company : Option String
  title : Option String

/-- A page text and the fetch that it came from. -/
structure Page where
  fetch_id : ℕ
  text : PageText

/-- The input of a live check, as `check_filter` builds it. -/
def checkFilterInput (job : Job) (page : Page) : String := buildCustomInput job.company job.title page.text.text

/-- The verdict that `check_filter` has `run_check` write; a call that failed has none to say. -/
def checkFilterVerdict (job : Job) (page : Page) (rejected : Option Bool) : Answer :=
  ⟨job.url, "custom", rejected, some "filter-run", job.company, job.title, some page.fetch_id⟩

/-- The context of a filter request. -/
structure FilterContext where
  job : Option Job
  page_fetch_id : Option ℕ

/-- The request of one posting, as `execute_batch` builds it. -/
def filterSpec (job : Job) (page : Page) : Request FilterContext :=
  ⟨job.url, buildCustomInput job.company job.title page.text.text, some ⟨some job, some page.fetch_id⟩⟩

/-- The verdict of `_plan`. -/
def plan (byUrl : String → Option Job) (res : BatchResult FilterContext Bool) : Option Answer :=
  let context := (res.request.bind Request.context).getD ⟨none, none⟩
  (context.job.or (byUrl res.custom_id)).map fun job =>
    let parsed := if res.error.isNone && res.text.getD "" ≠ "" then res.parsed else none
    ⟨res.custom_id, "custom", parsed, some "filter-batch", job.company, job.title, context.page_fetch_id⟩

/-! ## What was sent -/

/-- The kinds of request. -/
inductive Kind
  | plain
  | joint
  | filter

/-- An answer was written for a request of a kind, with an input. The text that the request was built from is the
one that the fetch it names holds. -/
inductive Written (pages : ℕ → Option PageText) : Kind → Answer → String → Prop
  | verified (row : Row) (questions : List BoardQuestion) (settled : List String) (decided : BoardQuestion → Bool)
      (res : BatchResult Context Parsed) (q : Answer) (hpage : pages row.page_fetch_id = some row.input_content)
      (hrequest : res.request = some (buildSpec row questions)) (hq : q ∈ recordResult settled decided res) :
      Written pages (if questions.isEmpty then .plain else .joint) q (buildSpec row questions).input
  | ran (job : Job) (page : Page) (rejected : Option Bool) (hpage : pages page.fetch_id = some page.text) :
      Written pages .filter (checkFilterVerdict job page rejected) (checkFilterInput job page)
  | batched (job : Job) (page : Page) (byUrl : String → Option Job) (res : BatchResult FilterContext Bool)
      (q : Answer) (hpage : pages page.fetch_id = some page.text)
      (hrequest : res.request = some (filterSpec job page)) (hq : plan byUrl res = some q) :
      Written pages .filter q (filterSpec job page).input

/-- The text is a header over and over, as long as the header and what verification reads of a page. -/
def Repeats (text header : String) : Prop :=
  text.length = header.length + verifyInputChars ∧
    ∀ i < text.length, text.toList[i]? = header.toList[i % header.length]?

/-- The condition: a page that verification alone read is not cut; an answer with a header has both names; and the
other answers of a joint request have the one text whose header does not show. -/
def Rebuilds (kind : Kind) (q : Answer) (text : String) : Prop :=
  match kind with
  | .plain => text.length ≤ verifyInputChars
  | .joint =>
    if q.check_type = "custom" then q.company.isSome ∧ q.job_title.isSome
    else Repeats text (buildCustomInput q.company q.job_title "")
  | .filter => q.company.isSome ∧ q.job_title.isSome

/-! ## Cuts and headers -/

/-- A text that is short enough is not cut. -/
theorem left_of_le {text : String} {n : ℕ} (h : text.length ≤ n) : left text n = text := by
  rw [left, List.take_of_length_le (by rw [String.length_toList]; exact h), String.ofList_toList]

/-- A cut changes a text exactly if it is longer. -/
theorem left_eq_self_iff {text : String} {n : ℕ} : left text n = text ↔ text.length ≤ n := by
  refine ⟨fun h => ?_, left_of_le⟩
  have hlength := congrArg (fun s : String => s.toList.length) h
  rw [left, String.toList_ofList, List.length_take, String.length_toList] at hlength
  omega

/-- A name is shown at least as long as `COALESCE` has it, and longer where it is NULL. -/
theorem length_shown (name : Option String) :
    (name.getD "").length ≤ (shown name).length ∧ ((shown name).length = (name.getD "").length → name.isSome) := by
  cases name with
  | none => exact ⟨Nat.zero_le _, fun h => absurd h (by decide)⟩
  | some s => exact ⟨Nat.le_refl _, fun _ => rfl⟩

/-- A header in SQL is the one in Python exactly if neither name is NULL. -/
theorem header_eq_iff (q : Answer) (content : String) :
    header q ++ content = buildCustomInput q.company q.job_title content ↔ q.company.isSome ∧ q.job_title.isSome := by
  constructor
  · intro h
    have hlength := congrArg String.length h
    simp only [header, buildCustomInput, String.length_append] at hlength
    obtain ⟨hcompany, hcompanySome⟩ := length_shown q.company
    obtain ⟨htitle, htitleSome⟩ := length_shown q.job_title
    exact ⟨hcompanySome (by omega), htitleSome (by omega)⟩
  · rintro ⟨hcompany, htitle⟩
    obtain ⟨company, hcompany⟩ := Option.isSome_iff_exists.mp hcompany
    obtain ⟨title, htitle⟩ := Option.isSome_iff_exists.mp htitle
    rw [header, buildCustomInput, hcompany, htitle]
    rfl

/-- The input is the header and the content. -/
theorem buildCustomInput_eq (company title : Option String) (content : String) :
    buildCustomInput company title content = buildCustomInput company title "" ++ content := by
  simp only [buildCustomInput, String.append_assoc, String.append_empty]

/-- A list is a front followed by its own start exactly if it is the front over and over. -/
theorem append_take_eq_iff {α : Type} {front l : List α} {n : ℕ} (hfront : front ≠ []) :
    front ++ l.take n = l ↔
      l.length = front.length + n ∧ ∀ i < l.length, l[i]? = front[i % front.length]? := by
  have hpos : 0 < front.length := List.length_pos_of_ne_nil hfront
  constructor
  · intro h
    have hlength : l.length = front.length + n := by
      have := congrArg List.length h
      rw [List.length_append, List.length_take] at this
      omega
    refine ⟨hlength, fun i hi => ?_⟩
    -- Past the front the list is itself, a front earlier.
    induction i using Nat.strong_induction_on with
    | _ i ih =>
      by_cases hlt : i < front.length
      · rw [← h, List.getElem?_append_left hlt, Nat.mod_eq_of_lt hlt]
      · have hle : front.length ≤ i := Nat.le_of_not_lt hlt
        rw [← h, List.getElem?_append_right hle, List.getElem?_take_of_lt (by omega),
          ih (i - front.length) (by omega) (by omega), Nat.mod_eq_sub_mod hle]
  · rintro ⟨hlength, hrepeats⟩
    refine List.ext_getElem? fun i => ?_
    by_cases hlt : i < front.length
    · rw [List.getElem?_append_left hlt, hrepeats i (by omega), Nat.mod_eq_of_lt hlt]
    · have hle : front.length ≤ i := Nat.le_of_not_lt hlt
      rw [List.getElem?_append_right hle]
      by_cases hi : i < l.length
      · rw [List.getElem?_take_of_lt (by omega), hrepeats i hi, hrepeats (i - front.length) (by omega),
          Nat.mod_eq_sub_mod hle]
      · rw [List.getElem?_eq_none (by rw [List.length_take]; omega), List.getElem?_eq_none (by omega)]

/-- A text is a header followed by what verification reads of the text exactly if it repeats the header. -/
theorem header_append_eq_iff {text front : String} (hfront : front ≠ "") :
    front ++ buildInput text = text ↔ Repeats text front := by
  have hne : front.toList ≠ [] := fun h => hfront (String.toList_eq_nil_iff.mp h)
  rw [← String.toList_inj, String.toList_append, buildInput, left, String.toList_ofList,
    append_take_eq_iff hne, Repeats, String.length_toList, String.length_toList]

/-! ## Rows -/

section Rows

variable {q : Answer} {text : String}

/-- The input that is rebuilt for a check of verification is the whole text. -/
theorem sql_check (hconfig : q.config_name = some "verify-batch") (hcheck : q.check_type ≠ "custom")
    (htext : text.length < 2 ^ 30) : sql q text = text := by
  have hwrapped : wrapped q = false := by
    rw [wrapped, decide_eq_false hcheck, Bool.false_and]
  rw [sql, hwrapped, if_neg Bool.false_ne_true, cut, hconfig, hwrapped]
  exact left_of_le (by simp [live]; omega)

/-- The input that is rebuilt for a board's question has the header and what verification reads. -/
theorem sql_board (hconfig : q.config_name = some "verify-batch") (hcheck : q.check_type = "custom") :
    sql q text = header q ++ buildInput text := by
  have hwrapped : wrapped q = true := by
    rw [wrapped, hcheck, hconfig]
    decide
  rw [sql, hwrapped, if_pos rfl, cut, hconfig, hwrapped, buildInput]
  rfl

/-- The input that is rebuilt for a filter has the header and the whole text. -/
theorem sql_filter (hconfig : q.config_name = some "filter-run" ∨ q.config_name = some "filter-batch")
    (hcheck : q.check_type = "custom") (htext : text.length < 2 ^ 30) : sql q text = header q ++ text := by
  have hwrapped : wrapped q = true := by
    rcases hconfig with h | h
    · rw [wrapped, hcheck, h]; decide
    · rw [wrapped, hcheck, h]; decide
  have hcut : cut q text = text := by
    rw [cut, hwrapped]
    rcases hconfig with h | h
    · rw [h]; exact left_of_le (by simp [live]; omega)
    · rw [h]; exact left_of_le (by simp [live]; omega)
  rw [sql, hwrapped, if_pos rfl, hcut]

end Rows

/-- What a verdict of `_record_result` takes from the context of its request. -/
theorem mem_recordResult {settled : List String} {decided : BoardQuestion → Bool} {res : BatchResult Context Parsed}
    {job : Context} {q : Answer} (hjob : res.request.bind Request.context = some job)
    (hq : q ∈ recordResult settled decided res) :
    q.config_name = some "verify-batch" ∧ q.company = job.company ∧ q.job_title = job.title ∧
      q.page_fetch_id = job.page_fetch_id ∧ (q.check_type = "custom" → job.boards ≠ []) := by
  unfold recordResult at hq
  rw [hjob] at hq
  dsimp only at hq
  split at hq
  · contradiction
  · split at hq
    · contradiction
    · next parsed _ =>
      rw [List.mem_append, List.mem_append, List.mem_map] at hq
      rcases hq with (hq | hq) | ⟨board, hboard, rfl⟩
      · obtain rfl := List.mem_singleton.mp (List.mem_ite_nil_right.mp hq).2
        exact ⟨rfl, rfl, rfl, rfl, fun h => absurd h (by simp [checkVerdict])⟩
      · obtain rfl := List.mem_singleton.mp (List.mem_ite_nil_right.mp hq).2
        exact ⟨rfl, rfl, rfl, rfl, fun h => absurd h (by simp [checkVerdict])⟩
      · exact ⟨rfl, rfl, rfl, rfl, fun _ => List.ne_nil_of_mem (List.mem_filter.mp hboard).1⟩

/-- For every answer that these paths write, the input that is rebuilt from the text that it names is the one that
was sent exactly under the condition. -/
theorem rebuilt_iff {pages : ℕ → Option PageText} {kind : Kind} {q : Answer} {input : String}
    (h : Written pages kind q input) :
    ∃ id page, q.page_fetch_id = some id ∧ pages id = some page ∧
      (sql q page.text = input ↔ Rebuilds kind q page.text) := by
  cases h with
  | verified row questions settled decided res _ hpage hrequest hq =>
    by_cases hquestions : questions.isEmpty = true
    · -- Verification alone: no board has a question, so that the row is of one of the two checks.
      have hspec : buildSpec row questions = verificationSpec row := if_pos hquestions
      obtain ⟨hconfig, -, -, hfetch, hcustom⟩ := mem_recordResult (by rw [hrequest, hspec]; rfl) hq
      have hcheck : q.check_type ≠ "custom" := fun hc => hcustom hc rfl
      refine ⟨row.page_fetch_id, row.input_content, hfetch, hpage, ?_⟩
      rw [if_pos hquestions, hspec, sql_check hconfig hcheck row.input_content.bounded]
      exact eq_comm.trans left_eq_self_iff
    · have hspec : buildSpec row questions = jointSpec row questions := if_neg hquestions
      obtain ⟨hconfig, hcompany, htitle, hfetch, -⟩ := mem_recordResult (by rw [hrequest, hspec]; rfl) hq
      refine ⟨row.page_fetch_id, row.input_content, hfetch, hpage, ?_⟩
      have hinput : (jointSpec row questions).input =
          buildCustomInput q.company q.job_title (buildInput row.input_content.text) := by
        rw [hcompany, htitle]
        rfl
      rw [if_neg hquestions, hspec, hinput, Rebuilds]
      split
      · next hcheck => rw [sql_board hconfig hcheck, header_eq_iff]
      · next hcheck =>
        have hne : buildCustomInput q.company q.job_title "" ≠ "" := by
          intro hempty
          have hlength := congrArg String.length hempty
          simp only [buildCustomInput, String.length_append] at hlength
          have hstart : "Company: ".length = 9 := rfl
          have hend : "".length = 0 := rfl
          omega
        rw [sql_check hconfig hcheck row.input_content.bounded, buildCustomInput_eq, eq_comm,
          header_append_eq_iff hne]
  | ran job page rejected hpage =>
    refine ⟨page.fetch_id, page.text, rfl, hpage, ?_⟩
    rw [sql_filter (.inl rfl) rfl page.text.bounded]
    exact header_eq_iff (checkFilterVerdict job page rejected) page.text.text
  | batched job page byUrl res _ hpage hrequest hq =>
    simp only [plan, hrequest, filterSpec, Option.bind_some, Option.getD_some, Option.some_or, Option.map_some,
      Option.some.injEq] at hq
    subst hq
    refine ⟨page.fetch_id, page.text, rfl, hpage, ?_⟩
    rw [sql_filter (.inr rfl) rfl page.text.bounded]
    exact header_eq_iff _ page.text.text

/-- A page of one posting, of a number of characters. -/
def letters (n : ℕ) (h : n < 2 ^ 30) : PageText :=
  ⟨String.ofList (List.replicate n 'a'), by
    rw [← String.length_toList, String.toList_ofList, List.length_replicate]
    exact h⟩

/-- A posting with a page. -/
def posting (page : PageText) : Row := ⟨"https://a/1", some "Acme", some "Engineer", page, 1, true, true⟩

/-- An answer to the request of a posting, which says that nothing is wrong. -/
def answered (row : Row) (questions : List BoardQuestion) : BatchResult Context Parsed :=
  ⟨row.url, some (buildSpec row questions), none, some "yes", some "m", some ⟨false, false, fun _ => false⟩⟩

/-- The question of a board. -/
def question : BoardQuestion := ⟨1, "hash", "m"⟩

/-- The answer to a board's question in a joint request is shown as it was sent. -/
theorem rebuilt_iff_board :
    ∃ q page, Written (fun _ => some (letters 30000 (by decide))) .joint q
        (buildSpec (posting (letters 30000 (by decide))) [question]).input ∧
      q.check_type = "custom" ∧ q.page_fetch_id = some 1 ∧
      sql q page = (buildSpec (posting (letters 30000 (by decide))) [question]).input := by
  have hwritten : Written (fun _ => some (letters 30000 (by decide))) .joint
      (checkVerdict "https://a/1" (rowContext (posting (letters 30000 (by decide))) [question]) "custom" false)
      (buildSpec (posting (letters 30000 (by decide))) [question]).input :=
    .verified (posting (letters 30000 (by decide))) [question] [] (fun _ => false)
      (answered (posting (letters 30000 (by decide))) [question]) _ rfl rfl
      (List.mem_append_right _ (List.mem_singleton_self _))
  obtain ⟨id, page, hid, -, hiff⟩ := rebuilt_iff hwritten
  exact ⟨_, page.text, hwritten, rfl, rfl, hiff.mpr ⟨rfl, rfl⟩⟩

/-- A verification alone of a page that it cuts, and one of a short page that answers a board's question too, write
verdicts on closure whose rebuilt input is not the one that was sent. -/
theorem long_page_not_rebuilt :
    (∃ q input, Written (fun _ => some (letters 20001 (by decide))) .plain q input ∧ q.page_fetch_id = some 1 ∧
      sql q (letters 20001 (by decide)).text ≠ input) ∧
    ∃ q input, Written (fun _ => some (letters 300 (by decide))) .joint q input ∧ q.page_fetch_id = some 1 ∧
      sql q (letters 300 (by decide)).text ≠ input := by
  have hlength : ∀ (n : ℕ) (h : n < 2 ^ 30), (letters n h).text.length = n := by
    intro n h
    rw [letters, ← String.length_toList, String.toList_ofList, List.length_replicate]
  constructor
  · refine ⟨_, _, .verified (posting (letters 20001 (by decide))) [] [] (fun _ => false)
      (answered (posting (letters 20001 (by decide))) []) (checkVerdict "https://a/1"
        (rowContext (posting (letters 20001 (by decide))) []) "closed" false) rfl rfl
      (List.mem_append_left _ (List.mem_append_left _ (List.mem_singleton_self _))), rfl, ?_⟩
    rw [sql_check rfl (by simp [checkVerdict]) (letters 20001 (by decide)).bounded]
    intro h
    have hle : (letters 20001 (by decide)).text.length ≤ verifyInputChars := left_eq_self_iff.mp h.symm
    rw [hlength] at hle
    exact absurd hle (by decide)
  · refine ⟨_, _, .verified (posting (letters 300 (by decide))) [question] [] (fun _ => false)
      (answered (posting (letters 300 (by decide))) [question]) (checkVerdict "https://a/1"
        (rowContext (posting (letters 300 (by decide))) [question]) "closed" false) rfl rfl
      (List.mem_append_left _ (List.mem_append_left _ (List.mem_singleton_self _))), rfl, ?_⟩
    rw [sql_check rfl (by simp [checkVerdict]) (letters 300 (by decide)).bounded]
    intro h
    -- The header makes the input longer than the page.
    have hinput : (letters 300 (by decide)).text = buildCustomInput (some "Acme") (some "Engineer")
        (buildInput (letters 300 (by decide)).text) := h
    rw [buildInput, left_of_le (by rw [hlength]; decide)] at hinput
    have hlonger := congrArg String.length hinput
    simp only [buildCustomInput, String.length_append] at hlonger
    have hstart : "Company: ".length = 9 := rfl
    omega

end JobScripts.Verification.Inputs

import JobScripts.Lib.Decimals
import JobScripts.Lib.Dumps
import Mathlib.Data.List.Sort

/-!
# A provider's bill

`core/provider_costs.py` reads what a provider says its last days cost, page by page. `_fetch` gives a total where the
pages end, each of their buckets is a day of the window and no day comes twice, and else no total at all.
-/

namespace JobScripts.Billing.ProviderCosts

open Lib Lib.Loads Lib.Dumps Lib.Decimals

/-! ## What Python reads -/

/-- A `Decimal` as it is read. -/
inductive Decimal
  | finite (q : ℚ)
  | special

/-- The whole seconds of so many microseconds, as `int` cuts the rest off. -/
def seconds (microseconds : ℤ) : ℤ := microseconds.tdiv 1000000

/-- A moment: its offset from UTC in microseconds, where it has one, and its microseconds since 1970. -/
structure Moment where
  utcoffset : Option ℤ
  microseconds : ℤ
  deriving DecidableEq

/-- What Python makes of texts: `json.loads` with `parse_float=Decimal`, `Decimal`, `datetime.fromisoformat` and
`str.strip`. A float of a value that has been read is known by its text, and is a `Decimal` where that gives one. -/
structure Python where
  loads : Text → Except Failure Value
  decimal : Text → Option Decimal
  fromisoformat : Text → Option Moment
  strip : Text → Text

/-- What a response is not read for. -/
inductive Raised
  /-- `ValueError`, `TypeError` or `InvalidOperation`. -/
  | invalid
  /-- `decimal.Overflow`. -/
  | overflow
  /-- `RecursionError`. -/
  | recursion
  deriving DecidableEq

/-- Seconds of a day: `_DAY`. -/
def daySeconds : ℤ := 86400

/-- `d.get(name)`: the value of a member, null where there is none. -/
def get (name : String) (d : List (Text × Value)) : Value :=
  (getItem (codes name) d).getD .null

/-- A value is a text. -/
def isText (text : String) : Value → Bool
  | .str t => t = codes text
  | _ => false

/-- `isinstance(value, dict)`, with its members. -/
def members : Value → Option (List (Text × Value))
  | .dict d => some d
  | _ => none

/-! ## Buckets -/

/-- A cost of a day. -/
structure Item where
  amount_usd : ℚ
  project_id : Option Text
  line_item : Option Text
  model : Option Text

/-- A day. -/
structure Bucket where
  start_time : ℤ
  end_time : ℤ
  total_usd : ℚ
  items : List Item

/-- `_integer`: an `int`, which a `bool` is not here. -/
def integer : Value → Option ℤ
  | .int n => some n
  | _ => none

/-- `_nullable_text`: a text or null, and nothing else. -/
def nullableText : Value → Option (Option Text)
  | .null => some none
  | .str t => some (some t)
  | _ => none

/-- `_checked_bounds`: the bucket is one whole day inside of what was asked for. -/
def checkedBounds (lower upper start stop : ℤ) : Bool :=
  !(lower < start || stop < upper || upper - lower ≠ daySeconds || lower % daySeconds ≠ 0)

/-- `_results`: the items of a bucket, if it is an object with a list of them. -/
def results (raw : Value) : Option (List Value) :=
  match members raw with
  | some d =>
    match get "results" d with
    | .list rs => some rs
    | _ => none
  | none => none

/-- `_day_bucket`: the day with its items and their sum, which may overflow. -/
def dayBucket (lower upper : ℤ) (items : List Item) : Except Raised Bucket :=
  match defaultContext.sum (items.map Item.amount_usd) with
  | some total => .ok ⟨lower, upper, total, items⟩
  | none => .error .overflow

/-- What is read of each, up to what raises. -/
def readAll {α β : Type} (read : α → Except Raised β) : List α → Except Raised (List β)
  | [] => .ok []
  | x :: rest =>
    match read x with
    | .error e => .error e
    | .ok y =>
      match readAll read rest with
      | .error e => .error e
      | .ok ys => .ok (y :: ys)

/-- A bucket, with the times of a provider's and what it makes of a result. -/
def bucket (times : Value → Option (ℤ × ℤ)) (item : Value → Except Raised Item) (start stop : ℤ) (raw : Value) :
    Except Raised Bucket :=
  match times raw with
  | none => .error .invalid
  | some (lower, upper) =>
    if checkedBounds lower upper start stop then
      match results raw with
      | none => .error .invalid
      | some rs =>
        match readAll item rs with
        | .error e => .error e
        | .ok items => dayBucket lower upper items
    else .error .invalid

/-! ## OpenAI's -/

/-- A number of a page: an integer or a finite `Decimal`. -/
def number (py : Python) : Value → Option ℚ
  | .int n => some n
  | .float t =>
    match py.decimal t with
    | some (.finite q) => some q
    | _ => none
  | _ => none

/-- The times of a bucket of `_openai_bucket`. -/
def openaiTimes (raw : Value) : Option (ℤ × ℤ) := do
  let d ← members raw
  guard (isText "bucket" (get "object" d))
  return (← integer (get "start_time" d), ← integer (get "end_time" d))

/-- A result of `_openai_bucket`. -/
def openaiItem (py : Python) (projects : List Text) (result : Value) : Option Item := do
  let d ← members result
  guard (isText "organization.costs.result" (get "object" d))
  let amount ← members (get "amount" d)
  guard (isText "usd" (get "currency" amount))
  let dollars ← number py (get "value" amount)
  let project ← nullableText (get "project_id" d)
  guard (projects = [] ∨ project ∈ projects.map some)
  return ⟨dollars, project, ← nullableText (get "line_item" d), none⟩

/-- `_openai_bucket`: a bucket of the first vendor, which is refused with any item that does not read. -/
def openaiBucket (py : Python) (projects : List Text) : ℤ → ℤ → Value → Except Raised Bucket :=
  bucket openaiTimes fun result =>
    match openaiItem py projects result with
    | some item => .ok item
    | none => .error .invalid

/-! ## Anthropic's -/

/-- `_rfc3339`: the seconds of a time in UTC. -/
def rfc3339 (py : Python) : Value → Option ℤ
  | .str t =>
    match py.fromisoformat t with
    | some m => if m.utcoffset = some 0 then some (seconds m.microseconds) else none
    | none => none
  | _ => none

/-- The times of a bucket of `_anthropic_bucket`. -/
def anthropicTimes (py : Python) (raw : Value) : Option (ℤ × ℤ) := do
  let d ← members raw
  return (← rfc3339 py (get "starting_at" d), ← rfc3339 py (get "ending_at" d))

/-- The cents of a result of `_anthropic_bucket`. -/
def anthropicCents (py : Python) (result : Value) : Option ℚ :=
  match members result with
  | some d =>
    if isText "USD" (get "currency" d) then
      match get "amount" d with
      | .str t =>
        match py.decimal t with
        | some (.finite cents) => some cents
        | _ => none
      | _ => none
    else none
  | none => none

/-- The texts of a result of `_anthropic_bucket`, with the dollars. -/
def anthropicTexts (result : Value) (dollars : ℚ) : Option Item := do
  let d ← members result
  return ⟨dollars, ← nullableText (get "workspace_id" d), ← nullableText (get "description" d),
    ← nullableText (get "model" d)⟩

/-- A result of `_anthropic_bucket`: `cents / 100` is before the texts. -/
def anthropicItem (py : Python) (result : Value) : Except Raised Item :=
  match anthropicCents py result with
  | none => .error .invalid
  | some cents =>
    match defaultContext.result (cents / 100) with
    | none => .error .overflow
    | some dollars =>
      match anthropicTexts result dollars with
      | some item => .ok item
      | none => .error .invalid

/-- `_anthropic_bucket`: a bucket of the second vendor, whose items are cents. -/
def anthropicBucket (py : Python) : ℤ → ℤ → Value → Except Raised Bucket :=
  bucket (anthropicTimes py) (anthropicItem py)

/-! ## Pages -/

/-- Why there is no total. -/
inductive Reason
  | INVALID_WINDOW
  | NOT_CONFIGURED
  | REQUEST_TIMEOUT
  | REQUEST_FAILED
  | INVALID_RESPONSE
  | PAGINATION_LIMIT

/-- What `_paginate` stops with. -/
inductive Stop
  /-- `_Unavailable`: the vendor has no report, for this reason. -/
  | unavailable (reason : Reason)
  /-- What it does not catch. -/
  | raised (e : Raised)

/-- What comes of a request. -/
inductive Answer
  /-- A `RequestException`. -/
  | exception
  | response (status_code : ℕ) (text : Text)

/-- A turn of the loop: the time that remains, and what comes of the request. -/
structure Turn where
  remaining : ℚ
  answer : Answer

/-- A provider. -/
inductive Provider
  | openai
  | anthropic

/-- The parameters of a request. -/
structure Params where
  start_time : ℤ
  end_time : ℤ
  limit : ℕ
  project_ids : List Text
  page : Option Text

/-- What `_paginate` is given of a provider: the object that a page is, and how a bucket of the window is read. -/
structure Format where
  page_object : Option String
  bucket : Value → Except Raised Bucket

/-- What has been read: `daily`, `seen_days` and `cursors`, and the next page that is asked for. -/
structure Pages where
  daily : List Bucket
  seen_days : List ℤ
  cursors : List Text
  page : Option Text

/-- Before the first page. -/
def Pages.none : Pages := ⟨[], [], [], Option.none⟩

/-- A page: its buckets, whether there is more, and its cursor. -/
structure Page where
  data : List Value
  more : Bool
  next_page : Value

/-- A page of a text that has been read. -/
def pageOf (object : Option String) (page : Value) : Option Page := do
  let d ← members page
  guard (object.all fun o => isText o (get "object" d))
  match get "data" d, get "has_more" d with
  | .list data, .bool more => some ⟨data, more, get "next_page" d⟩
  | _, _ => failure

/-- The buckets of a page. -/
def readBuckets (read : Value → Except Raised Bucket) : List Value → Pages → Except Raised Pages
  | [], s => .ok s
  | raw :: rest, s =>
    match read raw with
    | .error e => .error e
    | .ok parsed =>
      if parsed.start_time ∈ s.seen_days then .error .invalid
      else
        readBuckets read rest
          { s with
            daily := s.daily ++ [parsed]
            seen_days := parsed.start_time :: s.seen_days }

/-- The cursor of a page that is not the last. -/
def cursorOf (page : Page) (cursors : List Text) : Option Text :=
  match page.next_page with
  | .str cursor => if page.data.isEmpty || cursor.isEmpty || cursor ∈ cursors then none else some cursor
  | _ => none

/-- `sorted(daily, key=lambda b: b["start_time"])`: the days in the order of their starts. -/
def sortedDays (daily : List Bucket) : List Bucket := daily.insertionSort fun a b => a.start_time ≤ b.start_time

/-- What is made of the text of a page: all days, or what has been read so far. -/
def readPage (py : Python) (f : Format) (text : Text) (s : Pages) : Except Raised (List Bucket ⊕ Pages) :=
  match py.loads text with
  | .error .invalid => .error .invalid
  | .error .recursion => .error .recursion
  | .ok v =>
    match pageOf f.page_object v with
    | none => .error .invalid
    | some page =>
      match readBuckets f.bucket page.data s with
      | .error e => .error e
      | .ok s =>
        if page.more then
          match cursorOf page s.cursors with
          | none => .error .invalid
          | some cursor =>
            .ok (.inr
              { s with
                cursors := cursor :: s.cursors
                page := some cursor })
        else .ok (.inl (sortedDays s.daily))

/-- What comes of a turn in time. -/
def readAnswer (py : Python) (f : Format) (s : Pages) : Answer → Except Stop (List Bucket ⊕ Pages)
  | .exception => .error (.unavailable .REQUEST_FAILED)
  | .response status text =>
    if status ≠ 200 then .error (.unavailable .REQUEST_FAILED)
    else
      match readPage py f text s with
      | .error .invalid => .error (.unavailable .INVALID_RESPONSE)
      | .error e => .error (.raised e)
      | .ok r => .ok r

/-- `_paginate`, from a turn on and with so many left: the pages that are asked for, and what comes of it. -/
def paginate (py : Python) (f : Format) (turns : ℕ → Turn) : ℕ → ℕ → Pages →
    List (Option Text) × Except Stop (List Bucket)
  | 0, _, _ => ([], .error (.unavailable .PAGINATION_LIMIT))
  | left + 1, i, s =>
    if (turns i).remaining ≤ 0 then ([], .error (.unavailable .REQUEST_TIMEOUT))
    else
      match readAnswer py f s (turns i).answer with
      | .error e => ([s.page], .error e)
      | .ok (.inl daily) => ([s.page], .ok daily)
      | .ok (.inr s') => (s.page :: (paginate py f turns left (i + 1) s').1, (paginate py f turns left (i + 1) s').2)

/-! ## Reports -/

/-- What a report says of itself. -/
inductive Status
  | unavailable
  | not_configured
  | available

/-- A report. -/
structure Report where
  provider : Provider
  status : Status
  reason : Option Reason
  project_ids : List Text
  start_time : Option ℤ
  end_time : ℤ
  total_usd : Option ℚ
  daily : List Bucket

/-- `report["scope"]`: the whole organization, unless projects were named. -/
def Report.scope (r : Report) : String := if r.project_ids.isEmpty then "organization" else "projects"

/-- What `_fetch` reads: its arguments, `OPENAI_BILLING_PROJECT_IDS`, the clock in seconds, and the turns. -/
structure Input where
  py : Python
  provider : Provider
  days : ℤ
  key : Text
  billing_projects : List Text
  now : ℤ
  turns : ℕ → Turn

namespace Input

variable (x : Input)

/-- The end of the window: the last midnight. -/
def stop : ℤ := x.now - x.now % daySeconds

/-- Its start. -/
def start : ℤ := x.stop - x.days * daySeconds

/-- The projects that are asked for. -/
def projects : List Text :=
  match x.provider with
  | .openai => x.billing_projects.dedup.insertionSort (· ≤ ·)
  | .anthropic => []

/-- What is known before anything is asked. -/
def report : Report where
  provider := x.provider
  status := .unavailable
  reason := none
  project_ids := x.projects
  start_time := none
  end_time := x.stop
  total_usd := none
  daily := []

/-- How the pages of the provider are read. -/
def format : Format :=
  match x.provider with
  | .openai => ⟨some "page", openaiBucket x.py x.projects x.start x.stop⟩
  | .anthropic => ⟨none, anthropicBucket x.py x.start x.stop⟩

/-- The parameters of a request for a page. -/
def params (page : Option Text) : Params where
  start_time := x.start
  end_time := x.stop
  limit :=
    match x.provider with
    | .openai => 180
    | .anthropic => 31
  project_ids := x.projects
  page := page

/-- `_fetch`: the requests that are made, and the report. -/
def fetch : List Params × Except Raised Report :=
  if x.days < 1 ∨ 365 < x.days then
    ([], .ok
      { x.report with
        reason := some .INVALID_WINDOW })
  else if (x.py.strip x.key).isEmpty then
    ([], .ok
      { x.report with
        start_time := some x.start
        status := .not_configured
        reason := some .NOT_CONFIGURED })
  else
    let r := paginate x.py x.format x.turns x.days.toNat 0 Pages.none
    (r.1.map x.params,
      match r.2 with
      | .error (.unavailable reason) =>
        .ok
          { x.report with
            start_time := some x.start
            reason := some reason }
      | .error (.raised e) => .error e
      | .ok daily =>
        match defaultContext.sum (daily.map Bucket.total_usd) with
        | none => .error .overflow
        | some total =>
          .ok
            { x.report with
              start_time := some x.start
              status := .available
              total_usd := some total
              daily := daily })

end Input

end JobScripts.Billing.ProviderCosts

import JobScripts.Billing.ProviderCosts.Reports

/-!
# What a bill is

A bill is said of the answers of the provider, without the functions that read them: what their values mean, which
bucket is a day, where the pages lead, and what a whole bill adds up to (`IsBill`).
-/

namespace JobScripts.Billing.ProviderCosts

open Lib Lib.Loads Lib.Dumps Lib.Decimals

/-- A value is a number of dollars. -/
inductive Number (py : Python) : Value → ℚ → Prop
  | int (n : ℤ) : Number py (.int n) n
  | decimal {t : Text} {q : ℚ} (h : py.decimal t = some (.finite q)) : Number py (.float t) q

/-- A value is a text or null. -/
inductive NullableText : Value → Option Text → Prop
  | null : NullableText .null none
  | text (t : Text) : NullableText (.str t) (some t)

/-- A value is a moment of UTC. -/
def Utc (py : Python) (v : Value) (microseconds : ℤ) : Prop :=
  ∃ t, v = .str t ∧ py.fromisoformat t = some ⟨some 0, microseconds⟩

/-- What a provider's buckets mean: their times in microseconds, their costs, and the costs that no `Decimal` can
hold. -/
structure Meaning where
  times : Value → ℤ → ℤ → Prop
  cost : Value → Item → Prop
  overflows : Value → Prop

/-- A finite number of dollars of a project in scope. -/
def OpenaiCost (py : Python) (projects : List Text) (raw : Value) (item : Item) : Prop :=
  ∃ d amount, raw = .dict d ∧ get "object" d = .str (codes "organization.costs.result") ∧
    get "amount" d = .dict amount ∧ get "currency" amount = .str (codes "usd") ∧
    Number py (get "value" amount) item.amount_usd ∧ NullableText (get "project_id" d) item.project_id ∧
    (projects = [] ∨ item.project_id ∈ projects.map some) ∧ NullableText (get "line_item" d) item.line_item ∧
    item.model = none

/-- OpenAI's buckets. -/
def openaiMeaning (py : Python) (projects : List Text) : Meaning where
  times raw lower upper :=
    ∃ d start_time end_time, raw = .dict d ∧ get "object" d = .str (codes "bucket") ∧
      get "start_time" d = .int start_time ∧ get "end_time" d = .int end_time ∧ lower = start_time * 1000000 ∧
      upper = end_time * 1000000
  cost := OpenaiCost py projects
  overflows _ := False

/-- A finite number of cents of the dollar. -/
def AnthropicCents (py : Python) (d : List (Text × Value)) (cents : ℚ) : Prop :=
  get "currency" d = .str (codes "USD") ∧ ∃ t, get "amount" d = .str t ∧ py.decimal t = some (.finite cents)

/-- Anthropic's buckets. -/
def anthropicMeaning (py : Python) : Meaning where
  times raw lower upper :=
    ∃ d, raw = .dict d ∧ Utc py (get "starting_at" d) lower ∧ Utc py (get "ending_at" d) upper
  cost raw item :=
    ∃ d cents, raw = .dict d ∧ AnthropicCents py d cents ∧
      defaultContext.result (cents / 100) = some item.amount_usd ∧
      NullableText (get "workspace_id" d) item.project_id ∧ NullableText (get "description" d) item.line_item ∧
      NullableText (get "model" d) item.model
  overflows raw :=
    ∃ d cents, raw = .dict d ∧ AnthropicCents py d cents ∧ defaultContext.result (cents / 100) = none

/-- A whole UTC day inside of a window. -/
def WholeDay (lower upper start stop : ℤ) : Prop :=
  start ≤ lower ∧ upper ≤ stop ∧ upper = lower + daySeconds ∧ daySeconds ∣ lower

/-- A bucket's results. -/
def Results (raw : Value) (rs : List Value) : Prop := ∃ d, raw = .dict d ∧ get "results" d = .list rs

/-- The times of a bucket without their fractions of a second. -/
def Meaning.wholeSeconds (m : Meaning) (raw : Value) (start_time end_time : ℤ) : Prop :=
  ∃ lower upper, m.times raw lower upper ∧ seconds lower = start_time ∧ seconds upper = end_time

/-- A bucket reads as a day of the window, if fractions of a second are left aside, with what it costs. -/
structure Day (m : Meaning) (start stop : ℤ) (raw : Value) (b : Bucket) : Prop where
  times : m.wholeSeconds raw b.start_time b.end_time
  whole : WholeDay b.start_time b.end_time start stop
  costs : ∃ rs, Results raw rs ∧ List.Forall₂ m.cost rs b.items
  total : defaultContext.sum (b.items.map Item.amount_usd) = some b.total_usd

/-- A bucket is a day of the window that costs more than a `Decimal` can hold: a cost does, after costs that do not,
or their sum. -/
def DayOverflows (m : Meaning) (start stop : ℤ) (raw : Value) : Prop :=
  ∃ lower upper rs, m.wholeSeconds raw lower upper ∧ WholeDay lower upper start stop ∧ Results raw rs ∧
    ((∃ pre r post items, rs = pre ++ r :: post ∧ List.Forall₂ m.cost pre items ∧ m.overflows r) ∨
      ∃ items, List.Forall₂ m.cost rs items ∧ defaultContext.sum (items.map Item.amount_usd) = none)

/-- No day comes twice. -/
def Distinct (bill : List Bucket) : Prop := (bill.map Bucket.start_time).Nodup

/-- A value that has been read is a page. -/
def IsPage (object : Option String) (v : Value) (page : Page) : Prop :=
  ∃ d, v = .dict d ∧ (∀ o ∈ object, get "object" d = .str (codes o)) ∧ get "data" d = .list page.data ∧
    get "has_more" d = .bool page.more ∧ get "next_page" d = page.next_page

namespace Input

variable (x : Input)

/-- What the provider's buckets mean. -/
def meaning : Meaning :=
  match x.provider with
  | .openai => openaiMeaning x.py x.projects
  | .anthropic => anthropicMeaning x.py

/-- A bucket reads as a day of the window. -/
def ReadsDay (raw : Value) (b : Bucket) : Prop := Day x.meaning x.start x.stop raw b

/-- A bucket is a day of the window, from midnight to midnight. -/
def IsDay (raw : Value) (b : Bucket) : Prop :=
  x.ReadsDay raw b ∧ x.meaning.times raw (b.start_time * 1000000) (b.end_time * 1000000)

/-- A request is answered in time with a page. -/
def PageAt (k : ℕ) (page : Page) : Prop :=
  0 < (x.turns k).remaining ∧ ∃ text v, (x.turns k).answer = .response 200 text ∧ x.py.loads text = .ok v ∧
    IsPage x.format.page_object v page

/-- The first requests are answered with pages of distinct days, each with more to come and a cursor of its own. -/
inductive Leads (day : Value → Bucket → Prop) : ℕ → List Bucket → List Text → Prop
  | start : Leads day 0 [] []
  | next {k : ℕ} {daily bs : List Bucket} {cursors : List Text} {page : Page} {cursor : Text}
      (before : Leads day k daily cursors) (answered : x.PageAt k page) (more : page.more = true)
      (days : List.Forall₂ day page.data bs) (distinct : Distinct (daily ++ bs)) (data : page.data ≠ [])
      (next_page : page.next_page = .str cursor) (nonempty : cursor ≠ []) (new : cursor ∉ cursors) :
      Leads day (k + 1) (daily ++ bs) (cursor :: cursors)

/-- The requests are answered with a bill of such days, and this page is its last. -/
def Answers (day : Value → Bucket → Prop) (k : ℕ) (page : Page) (bill : List Bucket) : Prop :=
  ∃ daily bs cursors, x.Leads day k daily cursors ∧ x.PageAt k page ∧ page.more = false ∧
    List.Forall₂ day page.data bs ∧ Distinct (daily ++ bs) ∧ bill = daily ++ bs

/-- There is something to ask. -/
def Asks : Prop := (1 ≤ x.days ∧ x.days ≤ 365) ∧ x.py.strip x.key ≠ []

end Input

/-- A list of amounts is added up without a digit lost. -/
def Kept (amounts : List ℚ) : Prop := ∀ p, p <+: amounts → p ≠ [] → defaultContext.Keeps p.sum

/-- What a day costs in exact arithmetic. -/
def Bucket.exact (b : Bucket) : ℚ := (b.items.map Item.amount_usd).sum

/-- A report is a whole bill: the days of all pages in increasing order, each with the sum of its amounts, and the sum
of these, which is the exact one unless there are too many digits. -/
structure IsBill (x : Input) (r : Report) : Prop where
  pages : ∃ k page bill, k < x.days.toNat ∧ x.Answers x.IsDay k page bill ∧ r.daily.Perm bill
  increasing : r.daily.Pairwise fun a b => a.start_time < b.start_time
  total : ∃ total, r.total_usd = some total ∧ defaultContext.sum (r.daily.map Bucket.total_usd) = some total
  exact : (∀ b ∈ r.daily, Kept (b.items.map Item.amount_usd)) → Kept (r.daily.map Bucket.exact) →
    r.total_usd = some (r.daily.map Bucket.exact).sum

/-- A bill is whole or unavailable: no more requests than days, nothing raised, a total of a whole bill only, and a
total of each whole bill whose pages are not empty. -/
structure WholeOrUnavailable (x : Input) : Prop where
  requests : x.fetch.1.length ≤ x.days.toNat
  raises_nothing : ∃ r, x.fetch.2 = .ok r
  available : ∀ r, x.fetch.2 = .ok r → r.status = .available → IsBill x r
  unavailable : ∀ r, x.fetch.2 = .ok r → r.status ≠ .available → r.total_usd = none ∧ r.daily = []
  complete : x.Asks → ∀ k page bill, x.Answers x.IsDay k page bill → page.data ≠ [] →
    ∃ r, x.fetch.2 = .ok r ∧ r.status = .available

/-- Nothing is too deep or too large, as far as the pages lead: no text nests deeper than `json.loads` goes, no day
costs more than a `Decimal` can hold, before which all is in order, and a whole bill's days do not add up to more. And
no time of a bucket of a bill has a fraction of a second. -/
structure WithinBounds (x : Input) : Prop where
  shallow : ∀ k daily cursors text, k < x.days.toNat → x.Leads x.ReadsDay k daily cursors →
    0 < (x.turns k).remaining → (x.turns k).answer = .response 200 text → x.py.loads text ≠ .error .recursion
  days : ∀ k daily cursors page pre raw post bs, k < x.days.toNat → x.Leads x.ReadsDay k daily cursors →
    x.PageAt k page → page.data = pre ++ raw :: post → List.Forall₂ x.ReadsDay pre bs → Distinct (daily ++ bs) →
    ¬ DayOverflows x.meaning x.start x.stop raw
  total : ∀ k page bill, k < x.days.toNat → x.Answers x.ReadsDay k page bill →
    defaultContext.sum ((sortedDays bill).map Bucket.total_usd) ≠ none
  whole : ∀ k page bill, k < x.days.toNat → x.Answers x.ReadsDay k page bill → ∀ j ≤ k, ∀ p, x.PageAt j p →
    ∀ raw ∈ p.data, ∀ lower upper, x.meaning.times raw lower upper → 1000000 ∣ lower ∧ 1000000 ∣ upper

end JobScripts.Billing.ProviderCosts

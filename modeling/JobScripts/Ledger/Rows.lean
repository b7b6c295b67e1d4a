import Mathlib.Algebra.Order.Ring.Int
import Mathlib.Data.Rat.Defs
import Mathlib.Order.Defs.LinearOrder
import JobScripts.Lib.Group

/-!
# The answer ledger and its hourly groups

The rows of `ai_queries`, `model_calls` and `page_fetches` that the hourly sums of `ledger_rollup.py`
read, and `aggregate`: the groups, by hour and by the combination of `DIMENSIONS`, of the answers and
fetches whose `created_at` falls in one of some ranges. An answer's usage is not its own: the first
answer naming a call (the one of the least id) carries the call's numbers and the others carry zeros,
so that what an hour sums to depends on answers of other hours.

Times are microseconds since the epoch and an hour is counted from the epoch, so that
`date_trunc('hour', t, 'UTC')` is `hourOf t`, the start of which is `startOf (hourOf t)`. A bound of a
range may be infinite on either side. Nullable columns are options, and `cost_usd` is a `numeric`.
-/

namespace JobScripts.Ledger

open Lib

/-! ## Times -/

/-- The microseconds of an hour. -/
def hourMicros : ℤ := 3600000000

/-- The hour of a time, `date_trunc('hour', t, 'UTC')`. -/
def hourOf (t : ℤ) : ℤ := t / hourMicros

/-- The time at which an hour starts. -/
def startOf (h : ℤ) : ℤ := h * hourMicros

/-- A `timestamptz`, which may be `-infinity` or `infinity`. -/
inductive Bound
  | negInfinity
  | time (t : ℤ)
  | infinity
  deriving DecidableEq

/-- The order of `timestamptz`. -/
def Bound.le : Bound → Bound → Bool
  | .negInfinity, _ => true
  | _, .infinity => true
  | .time t, .time t' => decide (t ≤ t')
  | _, _ => false

/-- Bounds are compared as times, with the infinities at the ends. -/
instance : LinearOrder Bound where
  le x y := x.le y = true
  le_refl x := by cases x <;> simp [Bound.le]
  le_trans x y z := by
    cases x <;> cases y <;> cases z <;> simp [Bound.le]
    omega
  le_antisymm x y := by
    cases x <;> cases y <;> simp [Bound.le]
    omega
  le_total x y := by
    cases x <;> cases y <;> simp [Bound.le]
    omega
  toDecidableLE x y := inferInstanceAs (Decidable (x.le y = true))

/-- Finite bounds are compared as times. -/
theorem Bound.time_le {t t' : ℤ} : Bound.time t ≤ .time t' ↔ t ≤ t' := by
  show Bound.le _ _ = true ↔ _
  simp [Bound.le]

/-- Finite bounds are compared as times. -/
theorem Bound.time_lt {t t' : ℤ} : Bound.time t < .time t' ↔ t < t' := by
  rw [← not_le, Bound.time_le, not_le]

/-- A row of the relation of ranges: the times from `lo` on and before `hi`. -/
structure Range where
  lo : Bound
  hi : Bound

/-- A time falls in a range. -/
def Range.covers (r : Range) (t : ℤ) : Bool := decide (r.lo ≤ .time t) && decide (.time t < r.hi)

/-- The hour of a time is the one hour that it falls in. -/
theorem hourOf_eq_iff {t h : ℤ} : hourOf t = h ↔ startOf h ≤ t ∧ t < startOf (h + 1) := by
  unfold hourOf startOf hourMicros
  omega

/-- Hours start in their order. -/
theorem startOf_lt_iff {g h : ℤ} : startOf g < startOf h ↔ g < h := by
  unfold startOf hourMicros
  omega

/-! ## Rows -/

/-- A row of `ai_queries`, in the columns that the ledger reads. -/
structure Answer where
  id : ℕ
  created_at : ℤ
  model_call_id : Option ℕ
  model : Option String
  check_type : Option String
  status : Option String
  config_name : Option String
  prompt_hash : Option String
  batch_id : Option String

/-- A row of `model_calls`, in the columns that the ledger reads. -/
structure Call where
  id : ℕ
  prompt_tokens : ℤ
  completion_tokens : ℤ
  total_tokens : ℤ
  cached_tokens : ℤ
  cache_write_tokens : Option ℤ
  reasoning_tokens : Option ℤ
  cost_usd : Option ℚ

/-- A row of `page_fetches`, in the columns that the ledger reads. -/
structure Fetch where
  id : ℕ
  created_at : ℤ
  status : String
  method : String

/-- The source tables of the ledger. -/
structure Tables where
  ai_queries : List Answer := []
  model_calls : List Call := []
  page_fetches : List Fetch := []

/-- The two arms of the ledger. -/
inductive Arm
  | answer
  | fetch
  deriving DecidableEq

/-- A combination of `DIMENSIONS`. -/
structure Dims where
  arm : Arm
  model : Option String
  check_type : Option String
  status : Option String
  config_name : Option String
  prompt_hash : Option String
  batched : Bool
  deriving DecidableEq

/-- The usage columns, `_USAGE`. -/
structure Usage where
  prompt_tokens : Option ℤ
  completion_tokens : Option ℤ
  total_tokens : Option ℤ
  cached_tokens : Option ℤ
  cache_write_tokens : Option ℤ
  reasoning_tokens : Option ℤ
  cost_usd : Option ℚ
  deriving DecidableEq

/-- The `MEASURES` of a group. -/
structure Measures where
  answers : ℕ
  unpriced : ℕ
  cache_write_unknown : ℕ
  joint_call_rows : ℕ
  usage : Usage
  first_at : ℤ
  last_at : ℤ
  deriving DecidableEq

/-! ## How measures add up -/

/-- `SUM` of two nullable values: a `NULL` adds nothing, and only `NULL`s sum to `NULL`. -/
def sumNull {α : Type} [Add α] : Option α → Option α → Option α := Option.merge (· + ·)

/-- `sumNull` does not depend on the order. -/
theorem sumNull_comm {α : Type} [AddCommSemigroup α] (a b : Option α) :
    sumNull a b = sumNull b a := by
  cases a <;> cases b <;> simp [sumNull, add_comm]

/-- `sumNull` does not depend on the bracketing. -/
theorem sumNull_assoc {α : Type} [AddCommSemigroup α] (a b c : Option α) :
    sumNull (sumNull a b) c = sumNull a (sumNull b c) := by
  cases a <;> cases b <;> cases c <;> simp [sumNull, add_assoc]

/-- Every usage column is summed. -/
instance : Add Usage where
  add x y :=
    { prompt_tokens := sumNull x.prompt_tokens y.prompt_tokens
      completion_tokens := sumNull x.completion_tokens y.completion_tokens
      total_tokens := sumNull x.total_tokens y.total_tokens
      cached_tokens := sumNull x.cached_tokens y.cached_tokens
      cache_write_tokens := sumNull x.cache_write_tokens y.cache_write_tokens
      reasoning_tokens := sumNull x.reasoning_tokens y.reasoning_tokens
      cost_usd := sumNull x.cost_usd y.cost_usd }

/-- The columns of a sum of usage. -/
theorem Usage.add_def (x y : Usage) : x + y =
    ⟨sumNull x.prompt_tokens y.prompt_tokens, sumNull x.completion_tokens y.completion_tokens,
      sumNull x.total_tokens y.total_tokens, sumNull x.cached_tokens y.cached_tokens,
      sumNull x.cache_write_tokens y.cache_write_tokens,
      sumNull x.reasoning_tokens y.reasoning_tokens, sumNull x.cost_usd y.cost_usd⟩ := rfl

/-- Usage adds up in any order. -/
instance : AddCommSemigroup Usage where
  add_assoc x y z := by simp only [Usage.add_def, sumNull_assoc]
  add_comm x y := by
    rw [Usage.add_def, Usage.add_def]
    simp only [sumNull_comm]

/-- Every measure is summed, except the first and the last time an answer was recorded. -/
instance : Add Measures where
  add x y :=
    { answers := x.answers + y.answers
      unpriced := x.unpriced + y.unpriced
      cache_write_unknown := x.cache_write_unknown + y.cache_write_unknown
      joint_call_rows := x.joint_call_rows + y.joint_call_rows
      usage := x.usage + y.usage
      first_at := min x.first_at y.first_at
      last_at := max x.last_at y.last_at }

/-- The columns of a sum of measures. -/
theorem Measures.add_def (x y : Measures) : x + y =
    ⟨x.answers + y.answers, x.unpriced + y.unpriced, x.cache_write_unknown + y.cache_write_unknown,
      x.joint_call_rows + y.joint_call_rows, x.usage + y.usage, min x.first_at y.first_at,
      max x.last_at y.last_at⟩ := rfl

/-- Measures add up in any order. -/
instance : AddCommSemigroup Measures where
  add_assoc x y z := by simp only [Measures.add_def, add_assoc, min_assoc, max_assoc]
  add_comm x y := by
    rw [Measures.add_def, Measures.add_def]
    simp only [add_comm, min_comm, max_comm]

/-! ## The ledger's entries -/

/-- The least id of the answers naming a call, `c.first_id`. -/
def firstId (D : Tables) (call : ℕ) : Option ℕ :=
  ((D.ai_queries.filter fun o => o.model_call_id = some call).map Answer.id).min?

/-- The call that an answer names, `LEFT JOIN model_calls m ON m.id = q.model_call_id`. -/
def callOf (D : Tables) (q : Answer) : Option Call :=
  q.model_call_id.bind fun c => D.model_calls.find? fun m => m.id = c

/-- One usage column of an answer, `_usage`: none when it names no call, the call's own value on the
first answer naming it, and the sibling's value on the others. -/
def usageColumn {α : Type} (D : Tables) (q : Answer) (own sibling : Option α) : Option α :=
  match q.model_call_id with
  | none => none
  | some c => if some q.id = firstId D c then own else sibling

/-- An answer's share of its call. A sibling's tokens are `0`, and its cost is `m.cost_usd * 0`. -/
def usageOf (D : Tables) (q : Answer) : Usage :=
  let m := callOf D q
  { prompt_tokens := usageColumn D q (m.map Call.prompt_tokens) (some 0)
    completion_tokens := usageColumn D q (m.map Call.completion_tokens) (some 0)
    total_tokens := usageColumn D q (m.map Call.total_tokens) (some 0)
    cached_tokens := usageColumn D q (m.map Call.cached_tokens) (some 0)
    cache_write_tokens := usageColumn D q (m.bind Call.cache_write_tokens) (some 0)
    reasoning_tokens := usageColumn D q (m.bind Call.reasoning_tokens) (some 0)
    cost_usd := usageColumn D q (m.bind Call.cost_usd) ((m.bind Call.cost_usd).map (· * 0)) }

/-- A row of the subquery that `aggregate` groups. -/
structure Entry where
  created_at : ℤ
  dims : Dims
  usage : Usage

/-- The answer arm. -/
def answerEntry (D : Tables) (q : Answer) : Entry where
  created_at := q.created_at
  dims :=
    { arm := .answer
      model := q.model
      check_type := q.check_type
      status := q.status
      config_name := q.config_name
      prompt_hash := q.prompt_hash
      batched := q.batch_id.isSome }
  usage := usageOf D q

/-- The fetch arm: no model, no call and so no usage. -/
def fetchEntry (f : Fetch) : Entry where
  created_at := f.created_at
  dims :=
    { arm := .fetch
      model := none
      check_type := some "content"
      status := some f.status
      config_name := some "content-cache"
      prompt_hash := none
      batched := false }
  usage := ⟨none, none, none, none, none, none, none⟩

/-- The entries of the answers. -/
def answerEntries (D : Tables) : List Entry := D.ai_queries.map (answerEntry D)

/-- The entries of the fetches other than verification copies. -/
def fetchEntries (D : Tables) : List Entry :=
  (D.page_fetches.filter fun f => f.method ≠ "verification").map fetchEntry

/-- All entries of the ledger. -/
def ledger (D : Tables) : List Entry := answerEntries D ++ fetchEntries D

/-- What one entry adds to its group. -/
def Entry.measures (a : Entry) : Measures where
  answers := 1
  unpriced := if a.usage.cost_usd = none then 1 else 0
  cache_write_unknown := if a.usage.cache_write_tokens = none then 1 else 0
  joint_call_rows :=
    if a.usage.total_tokens.getD 0 = 0 ∧
      (a.dims.status = some "passed" ∨ a.dims.status = some "rejected") then 1 else 0
  usage := a.usage
  first_at := a.created_at
  last_at := a.created_at

/-- A row of hourly groups: an hour, a combination of dimensions and the measures. -/
abbrev HourGroup := (ℤ × Dims) × Measures

/-- An entry as a group of its own. -/
def Entry.row (a : Entry) : HourGroup := ((hourOf a.created_at, a.dims), a.measures)

/-- The entries that fall in the ranges, once for each range that they fall in. -/
def within (ranges : List Range) (entries : List Entry) : List Entry :=
  ranges.flatMap fun r => entries.filter fun a => r.covers a.created_at

/-- Hourly groups of every answer and fetch whose `created_at` falls in one of the ranges. -/
def aggregate (ranges : List Range) (D : Tables) : List HourGroup :=
  group ((within ranges (answerEntries D) ++ within ranges (fetchEntries D)).map Entry.row)

/-! ## Sums of the ledger -/

/-- What the ledger sums to in an hour and a combination of dimensions. -/
def ledgerTally (D : Tables) (k : ℤ × Dims) : WithZero Measures :=
  tally ((ledger D).map Entry.row) k

/-- The two arms can be selected together. -/
theorem tally_within_append (ranges : List Range) (xs ys : List Entry) (k : ℤ × Dims) :
    tally ((within ranges (xs ++ ys)).map Entry.row) k =
      tally ((within ranges xs).map Entry.row) k + tally ((within ranges ys).map Entry.row) k := by
  induction ranges with
  | nil => rfl
  | cons r ranges ih =>
    unfold within at ih ⊢
    simp only [List.flatMap_cons, List.filter_append, List.map_append, tally_append] at ih ⊢
    rw [ih]
    exact add_add_add_comm _ _ _ _

/-- A group of `aggregate` sums the entries of the ledger that fall in the ranges. -/
theorem tally_aggregate (ranges : List Range) (D : Tables) (k : ℤ × Dims) :
    tally (aggregate ranges D) k = tally ((within ranges (ledger D)).map Entry.row) k := by
  unfold aggregate ledger
  rw [tally_group, List.map_append, tally_append, tally_within_append]

/-- Ranges that take every entry of an hour or none of it, and no entry twice. -/
theorem tally_aggregate_hours {hours : List ℤ} (hnodup : hours.Nodup) (D : Tables) (h : ℤ)
    (d : Dims) :
    tally (aggregate (hours.map fun g => ⟨.time (startOf g), .time (startOf (g + 1))⟩) D) (h, d) =
      if h ∈ hours then ledgerTally D (h, d) else 0 := by
  rw [tally_aggregate]
  unfold within ledgerTally
  rw [List.flatMap_map]
  refine tally_flatMap_filter h hnodup fun a _ hk g => ?_
  have hh : hourOf a.created_at = h := congrArg Prod.fst hk
  unfold Range.covers
  simp only [Bool.and_eq_true, decide_eq_true_eq, Bound.time_le, Bound.time_lt]
  rw [← hourOf_eq_iff, hh]
  exact eq_comm

/-- One range of whole hours. -/
theorem tally_aggregate_span (lo hi : ℤ) (D : Tables) (h : ℤ) (d : Dims) :
    tally (aggregate [⟨.time (startOf lo), .time (startOf hi)⟩] D) (h, d) =
      if lo ≤ h ∧ h < hi then ledgerTally D (h, d) else 0 := by
  rw [tally_aggregate]
  unfold within ledgerTally
  rw [List.flatMap_singleton]
  have hcov : ∀ a ∈ ledger D, (Entry.row a).1 = (h, d) →
      (Range.covers ⟨.time (startOf lo), .time (startOf hi)⟩ a.created_at =
        decide (lo ≤ h ∧ h < hi)) := by
    intro a _ hk
    have hh : hourOf a.created_at = h := congrArg Prod.fst hk
    unfold Range.covers
    simp only [Bound.time_le, Bound.time_lt]
    rw [← Bool.decide_and, decide_eq_decide]
    unfold hourOf hourMicros at hh
    unfold startOf hourMicros
    omega
  rw [tally_filter_congr hcov]
  split
  · rename_i hspan
    simp [hspan]
  · rename_i hspan
    simp [hspan]

end JobScripts.Ledger

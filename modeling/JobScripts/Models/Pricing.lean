import Mathlib.Tactic.Linarith
import Mathlib.Tactic.Positivity
import Mathlib.Tactic.Ring
import JobScripts.Lib.SqlExpr

/-!
# Prices of model calls

`core/pricing.py`: the price of one call from the published rates of its model, in Python (`estimate_cost_usd`) and as
a SQL expression (`cost_sql`). The tier is chosen by the length of the prompt. A cache write with no published rate, and
a receipt that does not say how much was written where writing has a rate of its own, have no known price.

The two renderings agree on every receipt (`sql_price_is_python_price`), where no discount by the hour applies.
-/

namespace JobScripts.Models.Pricing

open Lib Lib.Sql

/-! ## Rate sheets -/

/-- `Tier`: the rates, per million tokens, of prompts up to a length. -/
structure Tier where
  up_to_prompt_tokens : Option ℤ
  rate_in : ℚ
  rate_out : ℚ
  rate_cached_in : Option ℚ
  rate_cache_write_in : Option ℚ := none
  in_nonneg : 0 ≤ rate_in
  out_nonneg : 0 ≤ rate_out
  cached_nonneg : ∀ r ∈ rate_cached_in, 0 ≤ r
  write_nonneg : ∀ r ∈ rate_cache_write_in, 0 ≤ r

/-- `PeakWindow`: some days of the week, and the hours of these that are not off-peak. -/
structure PeakWindow where
  isodows : List ℕ
  start_hour_utc : ℕ
  end_hour_utc : ℕ

/-- `Rates`: what one model costs. -/
structure Rates where
  tiers : List Tier
  batch_rate : Option ℚ
  off_peak_multiplier : Option ℚ := none
  peak_windows : List PeakWindow := []
  tiers_ne : tiers ≠ []
  batch_nonneg : ∀ r ∈ batch_rate, 0 ≤ r
  multiplier_nonneg : ∀ r ∈ off_peak_multiplier, 0 ≤ r

/-- When a call is made, in UTC: `isoweekday()` and `hour`. -/
structure Moment where
  isodow : ℕ
  hour : ℕ

/-- `_tier_for`: the first tier that the prompt is not too long for, else the last. -/
def tierFor (rates : Rates) (prompt_tokens : ℚ) : Tier :=
  (rates.tiers.find? fun tier => tier.up_to_prompt_tokens.all fun n => decide (prompt_tokens ≤ n)).getD
    (rates.tiers.getLast rates.tiers_ne)

/-- `cached_rate`: the rate of tokens from the cache, that of other tokens where there is none. -/
def cachedRate (tier : Tier) : ℚ := tier.rate_cached_in.getD tier.rate_in

/-- `cache_write_rate`: the rate of tokens that are written to the cache, if it is published. -/
def cacheWriteRate (tier : Tier) : Option ℚ := tier.rate_cache_write_in

/-- `is_off_peak`: the moment is in none of the peak windows, where there are any and a discount. -/
def isOffPeak (rates : Rates) : Option Moment → Bool
  | none => false
  | some utc =>
    if rates.peak_windows = [] || rates.off_peak_multiplier = none then false
    else !rates.peak_windows.any fun w =>
      w.isodows.contains utc.isodow && w.start_hour_utc ≤ utc.hour && utc.hour < w.end_hour_utc

/-! ## The price in Python -/

/-- `cache_write_tokens`: not specified for a reservation, else what the receipt says. -/
inductive CacheWrite
  | unspecified
  | receipt (tokens : Option ℤ)

/-- `max(Decimal(tokens or 0), Decimal(0))`: a count that is missing or below zero is zero. -/
def clamp (tokens : Option ℤ) : ℚ := max (tokens.getD 0 : ℤ) 0

/-- `cached`, of a prompt. -/
def cachedPart (prompt : ℚ) (cached_tokens : Option ℤ) : ℚ := min (clamp cached_tokens) prompt

/-- `remaining`: the tokens of the prompt that are not from the cache. -/
def remainingPart (prompt : ℚ) (cached_tokens : Option ℤ) : ℚ := max (prompt - cachedPart prompt cached_tokens) 0

/-- `cache_write`, of the tokens that were not cached; `none` where the price is unknown. -/
def cacheWritePart (tier : Tier) (remaining : ℚ) : CacheWrite → Option ℚ
  | .unspecified => some (if (cacheWriteRate tier).isSome then remaining else 0)
  | .receipt none =>
    if (cacheWriteRate tier).isSome && cacheWriteRate tier ≠ some tier.rate_in then none else some 0
  | .receipt (some tokens) => some (min (max (tokens : ℚ) 0) remaining)

/-- `_PER_MTOK`: rates are for a million tokens. -/
def perMtok : ℚ := 1000000

/-- `cost`, before the discounts. -/
def undiscounted (tier : Tier) (remaining cached cache_write completion : ℚ) : ℚ :=
  ((remaining - cache_write) * tier.rate_in + cached * cachedRate tier +
    cache_write * (cacheWriteRate tier).getD tier.rate_in + completion * tier.rate_out) / perMtok

/-- The discounts. -/
def discount (rates : Rates) (batched : Bool) (moment : Option Moment) : ℚ :=
  (if batched then rates.batch_rate.getD 1 else 1) *
    if isOffPeak rates moment then rates.off_peak_multiplier.getD 1 else 1

/-- `estimate_cost_usd`: the price of a call, unless a rate that it needs is not published. -/
def estimateCostUsd (rates : Option Rates) (prompt_tokens completion_tokens cached_tokens : Option ℤ) (batched : Bool)
    (moment : Option Moment) (cache_write_tokens : CacheWrite) : Option ℚ :=
  rates.bind fun rates =>
    let prompt := clamp prompt_tokens
    let tier := tierFor rates prompt
    (cacheWritePart tier (remainingPart prompt cached_tokens) cache_write_tokens).bind fun cache_write =>
      if cache_write ≠ 0 ∧ cacheWriteRate tier = none then none
      else some (undiscounted tier (remainingPart prompt cached_tokens) (cachedPart prompt cached_tokens) cache_write
        (clamp completion_tokens) * discount rates batched moment)

/-! ## The price in SQL -/

/-- `p`, `c`, and the clamped counts of the cache. -/
def tokensSql {ν : Type} (tokens : Expr ν) : Expr ν := .greatest (.coalesce tokens (.lit 0)) (.lit 0)

/-- `cached_part`: the tokens from the cache, which are at most those of the prompt. -/
def cachedSql {ν : Type} (prompt cached : Expr ν) : Expr ν := .least (tokensSql cached) (tokensSql prompt)

/-- `remaining`: the tokens of the prompt that are not from the cache. -/
def remainingSql {ν : Type} (prompt cached : Expr ν) : Expr ν :=
  .greatest (.sub (tokensSql prompt) (cachedSql prompt cached)) (.lit 0)

/-- `write_part`, of a column. -/
def writePartSql {ν : Type} (prompt cached cache_write : Expr ν) : Expr ν :=
  .least (tokensSql cache_write) (remainingSql prompt cached)

/-- `write_part`, `write_rate` and `unknown`. -/
def writeSql {ν : Type} (model_rate_in : Expr ν) (model_rate_cache_write_in : Option (Expr ν)) (prompt cached : Expr ν) :
    Option (Expr ν) → Expr ν × Expr ν × Option (Cond ν)
  | none => (.lit 0, model_rate_in, none)
  | some cache_write =>
    let write_part := writePartSql prompt cached cache_write
    match model_rate_cache_write_in with
    | none => (write_part, model_rate_in, some (.gt write_part (.lit 0)))
    | some rate =>
      (write_part, .coalesce rate model_rate_in,
        some (.or (.and (.and (.isNull cache_write) (.isNotNull rate)) (.ne rate model_rate_in))
          (.and (.gt write_part (.lit 0)) (.isNull rate))))

/-- `cost_sql`: the price of a call as an expression over its columns and the rates. -/
def costSql {ν : Type} (model_rate_in model_rate_out model_rate_cached_in batch_rate : Expr ν)
    (model_rate_cache_write_in : Option (Expr ν)) (prompt completion cached : Expr ν) (cache_write : Option (Expr ν))
    (batched : Cond ν) : Expr ν :=
  let (write_part, write_rate, unknown) := writeSql model_rate_in model_rate_cache_write_in prompt cached cache_write
  let ordinary := Expr.sub (remainingSql prompt cached) write_part
  let expression := Expr.mul
    (.div (.add (.add (.add (.mul ordinary model_rate_in) (.mul (cachedSql prompt cached) model_rate_cached_in))
      (.mul write_part write_rate)) (.mul (tokensSql completion) model_rate_out)) (.lit perMtok))
    (.case batched batch_rate (.lit 1))
  match unknown with
  | some unknown => .case unknown .null expression
  | none => expression

/-- What a caller of `cost_sql` binds: the columns of a receipt, and the rates. -/
inductive Placeholder
  | prompt_tokens | completion_tokens | cached_tokens | cache_write_tokens
  | rate_in | rate_out | rate_cached_in | rate_cache_write_in | batch_rate
  | batched

/-- The columns of a receipt. -/
structure Receipt where
  prompt : Option ℤ
  completion : Option ℤ
  cached : Option ℤ
  cache_write : Option ℤ

/-- A receipt with the rates of a tier; the batch rate is 1 where none is published. -/
def bound (rates : Rates) (tier : Tier) (r : Receipt) (batched : Bool) : Binding Placeholder where
  number
    | .prompt_tokens => r.prompt.map Int.cast
    | .completion_tokens => r.completion.map Int.cast
    | .cached_tokens => r.cached.map Int.cast
    | .cache_write_tokens => r.cache_write.map Int.cast
    | .rate_in => some tier.rate_in
    | .rate_out => some tier.rate_out
    | .rate_cached_in => some (cachedRate tier)
    | .rate_cache_write_in => cacheWriteRate tier
    | .batch_rate => some (rates.batch_rate.getD 1)
    | .batched => none
  flag
    | .batched => some batched
    | _ => none

/-- The expression that a caller evaluates, with a placeholder for the write rate or without one. -/
def priceSql (write : Bool) : Expr Placeholder :=
  costSql (.var .rate_in) (.var .rate_out) (.var .rate_cached_in) (.var .batch_rate)
    (if write then some (.var .rate_cache_write_in) else none) (.var .prompt_tokens) (.var .completion_tokens)
    (.var .cached_tokens) (some (.var .cache_write_tokens)) (.flag .batched)

section Parts

variable {tier : Tier} {prompt prompt' : ℚ} {cached_tokens : Option ℤ}

/-- A count is not negative. -/
theorem clamp_nonneg (tokens : Option ℤ) : 0 ≤ clamp tokens := le_max_right _ _

/-- A larger count. -/
theorem clamp_le {tokens tokens' : Option ℤ} (h : tokens.getD 0 ≤ tokens'.getD 0) : clamp tokens ≤ clamp tokens' := by
  unfold clamp
  exact max_le_max (by exact_mod_cast h) le_rfl

/-- The cached part is a part of the prompt. -/
theorem cachedPart_bounds (cached_tokens : Option ℤ) (hprompt : 0 ≤ prompt) :
    0 ≤ cachedPart prompt cached_tokens ∧ cachedPart prompt cached_tokens ≤ prompt :=
  ⟨le_min (clamp_nonneg _) hprompt, min_le_right _ _⟩

/-- What is not cached is the rest. -/
theorem remainingPart_eq (cached_tokens : Option ℤ) (hprompt : 0 ≤ prompt) :
    remainingPart prompt cached_tokens = prompt - cachedPart prompt cached_tokens :=
  max_eq_left (by linarith [(cachedPart_bounds cached_tokens hprompt).2])

/-- A longer prompt has no smaller parts. -/
theorem parts_le (cached_tokens : Option ℤ) (hprompt : 0 ≤ prompt) (hle : prompt ≤ prompt') :
    cachedPart prompt cached_tokens ≤ cachedPart prompt' cached_tokens ∧
      remainingPart prompt cached_tokens ≤ remainingPart prompt' cached_tokens := by
  refine ⟨min_le_min le_rfl hle, ?_⟩
  rw [remainingPart_eq _ hprompt, remainingPart_eq _ (hprompt.trans hle)]
  unfold cachedPart
  rcases le_total (clamp cached_tokens) prompt with hk | hk
  · rw [min_eq_left hk, min_eq_left (hk.trans hle)]
    linarith
  · rw [min_eq_right hk]
    rcases le_total (clamp cached_tokens) prompt' with hk' | hk'
    · rw [min_eq_left hk']
      linarith
    · rw [min_eq_right hk']
      linarith

/-- What is written is a part of what is not cached. -/
theorem cacheWritePart_bounds {remaining cache_write : ℚ} {w : CacheWrite} (hremaining : 0 ≤ remaining)
    (h : cacheWritePart tier remaining w = some cache_write) : 0 ≤ cache_write ∧ cache_write ≤ remaining := by
  unfold cacheWritePart at h
  split at h
  · obtain rfl := Option.some.inj h
    split
    · exact ⟨hremaining, le_rfl⟩
    · exact ⟨le_rfl, hremaining⟩
  · split at h
    · contradiction
    · obtain rfl := Option.some.inj h
      exact ⟨le_rfl, hremaining⟩
  · obtain rfl := Option.some.inj h
    exact ⟨le_min (le_max_right _ _) hremaining, min_le_right _ _⟩

/-- Of a longer prompt no less is written, and no more stays ordinary. -/
theorem cacheWritePart_le {remaining remaining' cache_write' : ℚ} {w : CacheWrite} (hle : remaining ≤ remaining')
    (h : cacheWritePart tier remaining' w = some cache_write') :
    ∃ cache_write, cacheWritePart tier remaining w = some cache_write ∧ cache_write ≤ cache_write' ∧
      remaining - cache_write ≤ remaining' - cache_write' := by
  unfold cacheWritePart at h ⊢
  split at h
  · obtain rfl := Option.some.inj h
    refine ⟨_, rfl, ?_⟩
    split
    · exact ⟨hle, by linarith⟩
    · exact ⟨le_rfl, by linarith⟩
  · split at h
    · contradiction
    · next hknown =>
      obtain rfl := Option.some.inj h
      exact ⟨0, if_neg hknown, le_rfl, by linarith⟩
  · next tokens =>
    obtain rfl := Option.some.inj h
    refine ⟨_, rfl, min_le_min le_rfl hle, ?_⟩
    rcases le_total (max (tokens : ℚ) 0) remaining with hn | hn
    · rw [min_eq_left hn, min_eq_left (hn.trans hle)]
      linarith
    · rw [min_eq_right hn]
      linarith [min_le_right (max (tokens : ℚ) 0) remaining']

/-- The rates of a tier are not negative. -/
theorem cachedRate_nonneg (tier : Tier) : 0 ≤ cachedRate tier := by
  unfold cachedRate
  rcases hrate : tier.rate_cached_in with _ | r
  · exact tier.in_nonneg
  · exact tier.cached_nonneg r hrate

/-- Nor is the one of a cache write. -/
theorem writeRate_nonneg (tier : Tier) : 0 ≤ (cacheWriteRate tier).getD tier.rate_in := by
  unfold cacheWriteRate
  rcases hrate : tier.rate_cache_write_in with _ | r
  · exact tier.in_nonneg
  · exact tier.write_nonneg r hrate

/-- Nor are the discounts. -/
theorem discount_nonneg (rates : Rates) (batched : Bool) (moment : Option Moment) : 0 ≤ discount rates batched moment := by
  unfold discount
  refine mul_nonneg ?_ ?_
  · split
    · rcases hrate : rates.batch_rate with _ | r
      · exact zero_le_one
      · exact rates.batch_nonneg r hrate
    · exact zero_le_one
  · split
    · rcases hrate : rates.off_peak_multiplier with _ | r
      · exact zero_le_one
      · exact rates.multiplier_nonneg r hrate
    · exact zero_le_one

/-- More of each part costs no less. -/
theorem undiscounted_le {o o' k k' w w' c c' : ℚ} (ho : o - w ≤ o' - w') (hk : k ≤ k') (hw : w ≤ w') (hc : c ≤ c') :
    undiscounted tier o k w c ≤ undiscounted tier o' k' w' c' := by
  unfold undiscounted
  refine div_le_div_of_nonneg_right ?_ (by unfold perMtok; norm_num)
  have hordinary := mul_le_mul_of_nonneg_right ho tier.in_nonneg
  have hcached := mul_le_mul_of_nonneg_right hk (cachedRate_nonneg tier)
  have hwritten := mul_le_mul_of_nonneg_right hw (writeRate_nonneg tier)
  have hcompletion := mul_le_mul_of_nonneg_right hc tier.out_nonneg
  linarith

end Parts

section Prices

variable {rates : Rates} {prompt completion cached : Option ℤ} {batched : Bool} {moment : Option Moment} {w : CacheWrite}

/-- What a known price is made of. -/
theorem estimateCostUsd_eq_some {cost : ℚ} :
    estimateCostUsd (some rates) prompt completion cached batched moment w = some cost ↔
      ∃ cache_write, cacheWritePart (tierFor rates (clamp prompt)) (remainingPart (clamp prompt) cached) w =
          some cache_write ∧
        ¬(cache_write ≠ 0 ∧ cacheWriteRate (tierFor rates (clamp prompt)) = none) ∧
        cost = undiscounted (tierFor rates (clamp prompt)) (remainingPart (clamp prompt) cached)
          (cachedPart (clamp prompt) cached) cache_write (clamp completion) * discount rates batched moment := by
  unfold estimateCostUsd
  rw [Option.bind_some, Option.bind_eq_some_iff]
  refine exists_congr fun cache_write => and_congr_right fun _ => ?_
  split
  · next hunknown => exact ⟨fun h => absurd h nofun, fun h => absurd hunknown h.1⟩
  · next hknown => exact ⟨fun h => ⟨hknown, (Option.some.inj h).symm⟩, fun h => congrArg some h.2.symm⟩

/-- A reservation has a price. -/
theorem reservation_isSome (rates : Rates) (prompt completion : Option ℤ) (batched : Bool) (moment : Option Moment) :
    ∃ cost, estimateCostUsd (some rates) prompt completion none batched moment .unspecified = some cost := by
  refine ⟨_, estimateCostUsd_eq_some.mpr ⟨_, rfl, ?_, rfl⟩⟩
  rintro ⟨hne, hrate⟩
  rw [hrate] at hne
  exact hne rfl

/-- A known price is not negative. -/
theorem estimateCostUsd_nonneg {cost : ℚ}
    (h : estimateCostUsd (some rates) prompt completion cached batched moment w = some cost) : 0 ≤ cost := by
  obtain ⟨cache_write, hwrite, -, rfl⟩ := estimateCostUsd_eq_some.mp h
  have hprompt := clamp_nonneg prompt
  obtain ⟨hcached, hle⟩ := cachedPart_bounds cached hprompt
  have hremaining : 0 ≤ remainingPart (clamp prompt) cached := le_max_right _ _
  obtain ⟨hwritten, hrest⟩ := cacheWritePart_bounds hremaining hwrite
  refine mul_nonneg ?_ (discount_nonneg ..)
  calc (0 : ℚ) = undiscounted (tierFor rates (clamp prompt)) 0 0 0 0 := by simp [undiscounted]
    _ ≤ _ := undiscounted_le (by linarith) hcached hwritten (clamp_nonneg completion)

/-- Within a tier, more tokens cost no less, and are not priced where fewer are not. -/
theorem estimateCostUsd_le {prompt' completion' : Option ℤ} {cost' : ℚ} (hprompt : prompt.getD 0 ≤ prompt'.getD 0)
    (hcompletion : completion.getD 0 ≤ completion'.getD 0)
    (htier : tierFor rates (clamp prompt) = tierFor rates (clamp prompt'))
    (h : estimateCostUsd (some rates) prompt' completion' cached batched moment w = some cost') :
    ∃ cost, estimateCostUsd (some rates) prompt completion cached batched moment w = some cost ∧ cost ≤ cost' := by
  obtain ⟨cache_write', hwrite', hknown', rfl⟩ := estimateCostUsd_eq_some.mp h
  have hnonneg := clamp_nonneg prompt
  obtain ⟨hcached, hremaining⟩ := parts_le cached hnonneg (clamp_le hprompt)
  rw [← htier] at hwrite' hknown' ⊢
  obtain ⟨cache_write, hwrite, hle, hordinary⟩ := cacheWritePart_le hremaining hwrite'
  refine ⟨_, estimateCostUsd_eq_some.mpr ⟨cache_write, hwrite, ?_, rfl⟩, ?_⟩
  · -- Where no write has a rate, none is written of the longer prompt, and so none of the shorter one.
    rintro ⟨hne, hrate⟩
    have hzero : cache_write' = 0 := by
      by_contra hne'
      exact hknown' ⟨hne', hrate⟩
    have hbounds := cacheWritePart_bounds (le_max_right _ _) hwrite
    exact hne (le_antisymm (hle.trans hzero.le) hbounds.1)
  · refine mul_le_mul_of_nonneg_right ?_ (discount_nonneg ..)
    exact undiscounted_le hordinary hcached hle (clamp_le hcompletion)

/-- A reservation is at least the price of every receipt with its counts, where a cache hit costs at most what an input
token does, and a cache write at least that. -/
theorem le_reservation {cost : ℚ} (hcached : cachedRate (tierFor rates (clamp prompt)) ≤ (tierFor rates (clamp prompt)).rate_in)
    (hwrite : ∀ r ∈ cacheWriteRate (tierFor rates (clamp prompt)), (tierFor rates (clamp prompt)).rate_in ≤ r)
    (h : estimateCostUsd (some rates) prompt completion cached batched moment w = some cost) :
    ∃ reserved, estimateCostUsd (some rates) prompt completion none batched moment .unspecified = some reserved ∧
      cost ≤ reserved := by
  obtain ⟨cache_write, hpart, hknown, rfl⟩ := estimateCostUsd_eq_some.mp h
  have hprompt := clamp_nonneg prompt
  have hzero : cachedPart (clamp prompt) none = 0 := by
    have hclamp : clamp none = 0 := by
      unfold clamp
      norm_num
    unfold cachedPart
    rw [hclamp]
    exact min_eq_left hprompt
  have hall : remainingPart (clamp prompt) none = clamp prompt := by
    rw [remainingPart_eq none hprompt, hzero, sub_zero]
  obtain ⟨reserved, hreserved⟩ := reservation_isSome rates prompt completion batched moment
  refine ⟨reserved, hreserved, ?_⟩
  obtain ⟨_, hpart', -, rfl⟩ := estimateCostUsd_eq_some.mp hreserved
  obtain rfl := Option.some.inj hpart'
  refine mul_le_mul_of_nonneg_right ?_ (discount_nonneg ..)
  · obtain ⟨hk, -⟩ := cachedPart_bounds cached hprompt
    have hremaining := remainingPart_eq cached hprompt
    have hnonneg : 0 ≤ remainingPart (clamp prompt) cached := le_max_right _ _
    obtain ⟨hw, hwle⟩ := cacheWritePart_bounds hnonneg hpart
    rw [hall, hzero, hremaining]
    rw [hremaining] at hwle
    unfold undiscounted
    refine div_le_div_of_nonneg_right ?_ (by unfold perMtok; norm_num)
    have hcachedCost := mul_le_mul_of_nonneg_left hcached hk
    rcases hrate : cacheWriteRate (tierFor rates (clamp prompt)) with _ | r
    · -- Nothing is written, and every token is reserved at the input rate.
      have hnone : cache_write = 0 := by
        by_contra hne
        exact hknown ⟨hne, hrate⟩
      rw [hnone]
      simp only [Option.isSome_none, Bool.false_eq_true, if_false, Option.getD_none]
      linarith
    · -- Every token is reserved at the write rate.
      have hr := hwrite r hrate
      have hordinary := mul_le_mul_of_nonneg_left hr
        (sub_nonneg.mpr hwle : 0 ≤ clamp prompt - cachedPart (clamp prompt) cached - cache_write)
      have hcachedCost' := mul_le_mul_of_nonneg_left hr hk
      simp only [Option.isSome_some, if_true, Option.getD_some]
      linarith

end Prices

section Sql

variable {ν : Type} {β : Binding ν} {rates : Rates} {tier : Tier} {r : Receipt} {batched : Bool}

/-- A count that is clamped. -/
theorem eval_tokensSql {x : Expr ν} (tokens : Option ℤ) (hx : x.eval β = tokens.map Int.cast) :
    (tokensSql x).eval β = some (clamp tokens) := by
  unfold tokensSql
  simp only [Expr.eval, hx, or_some_eq, lenient_some]
  unfold clamp
  cases tokens with
  | none => rfl
  | some n => rfl

/-- The discount of a batch, in SQL. -/
theorem eval_discount : (Expr.case (.flag .batched) (.var .batch_rate) (.lit 1)).eval (bound rates tier r batched) =
    some (if batched then rates.batch_rate.getD 1 else 1) := by
  cases batched with
  | false => rfl
  | true => rfl

/-- Whether the price is unknown, in SQL, with a placeholder for the write rate. -/
theorem eval_unknown {write_part : Expr Placeholder} {written : ℚ}
    (hwrite : write_part.eval (bound rates tier r batched) = some written) :
    ((Cond.or (.and (.and (.isNull (.var .cache_write_tokens)) (.isNotNull (.var .rate_cache_write_in)))
        (.ne (.var .rate_cache_write_in) (.var .rate_in)))
      (.and (.gt write_part (.lit 0)) (.isNull (.var .rate_cache_write_in)))).eval
        (bound rates tier r batched)).IsTrue ↔
    (r.cache_write = none ∧ ∃ w, cacheWriteRate tier = some w ∧ w ≠ tier.rate_in) ∨
      (0 < written ∧ cacheWriteRate tier = none) := by
  have hcolumn : (bound rates tier r batched).number .cache_write_tokens = r.cache_write.map Int.cast := rfl
  have hrate : (bound rates tier r batched).number .rate_cache_write_in = cacheWriteRate tier := rfl
  have hin : (bound rates tier r batched).number .rate_in = some tier.rate_in := rfl
  simp only [Cond.eval, Expr.eval, hwrite, or_isTrue, and_isTrue, isNull_isTrue, isSome_isTrue, compare_isTrue, hcolumn,
    hrate, hin, Option.map_eq_none_iff, Option.some_inj, decide_eq_true_eq]
  refine or_congr ?_ (and_congr_left fun _ => ?_)
  · constructor
    · rintro ⟨⟨hnone, -⟩, w, _, hw, rfl, hne⟩
      exact ⟨hnone, w, hw, hne⟩
    · rintro ⟨hnone, w, hw, hne⟩
      exact ⟨⟨hnone, w, hw⟩, w, _, hw, rfl, hne⟩
  · constructor
    · rintro ⟨x, y, rfl, rfl, hlt⟩
      exact hlt
    · exact fun hlt => ⟨written, 0, rfl, rfl, hlt⟩

/-- What a cache write is, of a receipt that says it, or of one that does not where writing has no rate of its own. -/
theorem cacheWritePart_receipt {remaining : ℚ} (hremaining : 0 ≤ remaining)
    (hknown : ¬(r.cache_write = none ∧ ∃ w, cacheWriteRate tier = some w ∧ w ≠ tier.rate_in)) :
    cacheWritePart tier remaining (.receipt r.cache_write) = some (min (clamp r.cache_write) remaining) := by
  unfold cacheWritePart
  rcases hcolumn : r.cache_write with _ | n
  · have hrate : ¬((cacheWriteRate tier).isSome && cacheWriteRate tier ≠ some tier.rate_in) = true := by
      rw [Bool.and_eq_true, decide_eq_true_eq]
      rintro ⟨hsome, hne⟩
      obtain ⟨w, hw⟩ := Option.isSome_iff_exists.mp hsome
      exact hknown ⟨hcolumn, w, hw, fun heq => hne (heq ▸ hw)⟩
    dsimp only
    rw [if_neg hrate]
    have hclamp : clamp none = 0 := by
      unfold clamp
      norm_num
    rw [hclamp, min_eq_left hremaining]
  · rfl

/-- The price of a receipt, in Python. -/
theorem estimateCostUsd_receipt (r : Receipt) (moment : Option Moment) :
    estimateCostUsd (some rates) r.prompt r.completion r.cached batched moment (.receipt r.cache_write) =
      let tier := tierFor rates (clamp r.prompt)
      let remaining := remainingPart (clamp r.prompt) r.cached
      let written := min (clamp r.cache_write) remaining
      if (r.cache_write = none ∧ ∃ w, cacheWriteRate tier = some w ∧ w ≠ tier.rate_in) ∨
          (0 < written ∧ cacheWriteRate tier = none) then none
      else some (undiscounted tier remaining (cachedPart (clamp r.prompt) r.cached) written (clamp r.completion) *
        discount rates batched moment) := by
  have hremaining : 0 ≤ remainingPart (clamp r.prompt) r.cached := le_max_right _ _
  unfold estimateCostUsd
  rw [Option.bind_some]
  dsimp only
  by_cases hunknown : r.cache_write = none ∧ ∃ w, cacheWriteRate (tierFor rates (clamp r.prompt)) = some w ∧
      w ≠ (tierFor rates (clamp r.prompt)).rate_in
  · rw [if_pos (Or.inl hunknown)]
    obtain ⟨hnone, w, hw, hne⟩ := hunknown
    have hpart : cacheWritePart (tierFor rates (clamp r.prompt)) (remainingPart (clamp r.prompt) r.cached)
        (.receipt none) = none := if_pos (by simpa [hw] using hne)
    rw [hnone, hpart, Option.bind_none]
  · rw [cacheWritePart_receipt hremaining hunknown, Option.bind_some]
    refine if_congr ?_ rfl rfl
    have hwritten : 0 ≤ min (clamp r.cache_write) (remainingPart (clamp r.prompt) r.cached) :=
      le_min (clamp_nonneg _) hremaining
    constructor
    · exact fun h => .inr ⟨lt_of_le_of_ne hwritten (Ne.symm h.1), h.2⟩
    · rintro (h | h)
      · exact absurd h hunknown
      · exact ⟨ne_of_gt h.1, h.2⟩

/-- The price of a receipt, in SQL. -/
theorem priceSql_eval (write : Bool) (hwrite : write = false → cacheWriteRate tier = none) :
    (priceSql write).eval (bound rates tier r batched) =
      let remaining := remainingPart (clamp r.prompt) r.cached
      let written := min (clamp r.cache_write) remaining
      if (r.cache_write = none ∧ ∃ w, cacheWriteRate tier = some w ∧ w ≠ tier.rate_in) ∨
          (0 < written ∧ cacheWriteRate tier = none) then none
      else some (undiscounted tier remaining (cachedPart (clamp r.prompt) r.cached) written (clamp r.completion) *
        if batched then rates.batch_rate.getD 1 else 1) := by
  have hprompt : (tokensSql (.var .prompt_tokens)).eval (bound rates tier r batched) = some (clamp r.prompt) :=
    eval_tokensSql _ rfl
  have hcompletion : (tokensSql (.var .completion_tokens)).eval (bound rates tier r batched) =
      some (clamp r.completion) := eval_tokensSql _ rfl
  have hcached : (cachedSql (.var .prompt_tokens) (.var .cached_tokens)).eval (bound rates tier r batched) =
      some (cachedPart (clamp r.prompt) r.cached) := by
    unfold cachedSql
    rw [Expr.eval, hprompt, eval_tokensSql r.cached rfl]
    rfl
  have hremaining : (remainingSql (.var .prompt_tokens) (.var .cached_tokens)).eval (bound rates tier r batched) =
      some (remainingPart (clamp r.prompt) r.cached) := by
    unfold remainingSql
    simp only [Expr.eval, hprompt, hcached]
    rfl
  have hwritten : (writePartSql (.var .prompt_tokens) (.var .cached_tokens) (.var .cache_write_tokens)).eval
      (bound rates tier r batched) = some (min (clamp r.cache_write) (remainingPart (clamp r.prompt) r.cached)) := by
    unfold writePartSql
    rw [Expr.eval, hremaining, eval_tokensSql r.cache_write rfl]
    rfl
  have hexpression : ∀ write_rate : Expr Placeholder,
      write_rate.eval (bound rates tier r batched) = some ((cacheWriteRate tier).getD tier.rate_in) →
      (Expr.mul (.div (.add (.add (.add
          (.mul (.sub (remainingSql (.var .prompt_tokens) (.var .cached_tokens))
            (writePartSql (.var .prompt_tokens) (.var .cached_tokens) (.var .cache_write_tokens))) (.var .rate_in))
          (.mul (cachedSql (.var .prompt_tokens) (.var .cached_tokens)) (.var .rate_cached_in)))
          (.mul (writePartSql (.var .prompt_tokens) (.var .cached_tokens) (.var .cache_write_tokens)) write_rate))
          (.mul (tokensSql (.var .completion_tokens)) (.var .rate_out))) (.lit perMtok))
        (.case (.flag .batched) (.var .batch_rate) (.lit 1))).eval (bound rates tier r batched) =
      some (undiscounted tier (remainingPart (clamp r.prompt) r.cached) (cachedPart (clamp r.prompt) r.cached)
        (min (clamp r.cache_write) (remainingPart (clamp r.prompt) r.cached)) (clamp r.completion) *
          if batched then rates.batch_rate.getD 1 else 1) := by
    intro write_rate hrate
    rw [Expr.eval, eval_discount]
    simp only [Expr.eval, hremaining, hcached, hwritten, hcompletion, hrate]
    rfl
  unfold priceSql costSql writeSql
  rcases write with _ | _
  · -- No rate is bound: any write is unpriced.
    have hnone := hwrite rfl
    rw [if_neg Bool.false_ne_true]
    dsimp only
    rw [Expr.eval, hexpression _ (by rw [hnone]; rfl)]
    refine if_congr ?_ rfl rfl
    rw [Cond.eval, compare_isTrue, hwritten, hnone]
    simp [Expr.eval]
  · rw [if_pos rfl]
    dsimp only
    have hdefault : (Expr.coalesce (.var .rate_cache_write_in) (.var .rate_in)).eval (bound rates tier r batched) =
        some ((cacheWriteRate tier).getD tier.rate_in) := by
      rw [Expr.eval]
      exact or_some_eq _ _
    rw [Expr.eval, hexpression _ hdefault]
    exact if_congr (eval_unknown hwritten) rfl rfl

end Sql

/-- Without a discount by the hour, the SQL expression has the value of `estimate_cost_usd` on every receipt, null for
an unknown price, whether a placeholder for the write rate is given or, where none is published, left out. The price is
not negative, more tokens within a tier cost no less, and a reservation is at least the price of every receipt with its
counts where a cache hit costs at most what an input token does, and a cache write at least that. -/
theorem sql_price_is_python_price (rates : Rates) (batched : Bool) (moment : Option Moment) :
    (isOffPeak rates moment = false → ∀ (r : Receipt) (write : Bool),
      (write = false → cacheWriteRate (tierFor rates (clamp r.prompt)) = none) →
      (priceSql write).eval (bound rates (tierFor rates (clamp r.prompt)) r batched) =
        estimateCostUsd (some rates) r.prompt r.completion r.cached batched moment (.receipt r.cache_write)) ∧
    (∀ prompt completion cached w cost,
      estimateCostUsd (some rates) prompt completion cached batched moment w = some cost → 0 ≤ cost) ∧
    (∀ (prompt prompt' completion completion' cached : Option ℤ) (w : CacheWrite) (cost' : ℚ),
      prompt.getD 0 ≤ prompt'.getD 0 → completion.getD 0 ≤ completion'.getD 0 →
      tierFor rates (clamp prompt) = tierFor rates (clamp prompt') →
      estimateCostUsd (some rates) prompt' completion' cached batched moment w = some cost' →
      ∃ cost, estimateCostUsd (some rates) prompt completion cached batched moment w = some cost ∧ cost ≤ cost') ∧
    ∀ (prompt completion cached : Option ℤ) (w : CacheWrite) (cost : ℚ),
      cachedRate (tierFor rates (clamp prompt)) ≤ (tierFor rates (clamp prompt)).rate_in →
      (∀ r ∈ cacheWriteRate (tierFor rates (clamp prompt)), (tierFor rates (clamp prompt)).rate_in ≤ r) →
      estimateCostUsd (some rates) prompt completion cached batched moment w = some cost →
      ∃ reserved, estimateCostUsd (some rates) prompt completion none batched moment .unspecified = some reserved ∧
        cost ≤ reserved := by
  refine ⟨fun hpeak r write hwrite => ?_, fun _ _ _ _ _ => estimateCostUsd_nonneg,
    fun _ _ _ _ _ _ _ => estimateCostUsd_le, fun _ _ _ _ _ => le_reservation⟩
  have hdiscount : discount rates batched moment = if batched then rates.batch_rate.getD 1 else 1 := by
    unfold discount
    rw [hpeak, if_neg Bool.false_ne_true, mul_one]
  rw [priceSql_eval write hwrite, estimateCostUsd_receipt, hdiscount]

/-- A rate that is not declared is not below zero. -/
theorem none_nonneg : ∀ r ∈ (none : Option ℚ), 0 ≤ r := fun r h => absurd h (Option.not_mem_none r)

/-- Half the price is not below zero. -/
theorem half_nonneg : ∀ r ∈ some (1 / 2 : ℚ), 0 ≤ r := by norm_num

/-- A sheet of one tier, with a premium on cache writes and half the price for a batch. -/
def premium : Rates where
  tiers := [{
    up_to_prompt_tokens := none
    rate_in := 2
    rate_out := 12
    rate_cached_in := some (1 / 5)
    rate_cache_write_in := some (5 / 2)
    in_nonneg := by norm_num
    out_nonneg := by norm_num
    cached_nonneg := by norm_num
    write_nonneg := by norm_num }]
  batch_rate := some (1 / 2)
  tiers_ne := List.cons_ne_nil _ _
  batch_nonneg := half_nonneg
  multiplier_nonneg := none_nonneg

/-- A batched receipt of a million tokens costs 1.455, in both languages; with half a million fewer tokens it costs no
more, and no more than is reserved for it. -/
theorem sql_price_is_python_price_premium :
    (priceSql true).eval (bound premium (tierFor premium (clamp (some 1000000)))
        ⟨some 1000000, some 100000, some 300000, some 500000⟩ true) = some (1455 / 1000) ∧
      (∃ cost, estimateCostUsd (some premium) (some 500000) (some 100000) (some 300000) true none
        (.receipt (some 500000)) = some cost ∧ cost ≤ 1455 / 1000) ∧
      ∃ reserved, estimateCostUsd (some premium) (some 1000000) (some 100000) none true none .unspecified =
        some reserved ∧ 1455 / 1000 ≤ reserved := by
  have hcost : estimateCostUsd (some premium) (some 1000000) (some 100000) (some 300000) true none
      (.receipt (some 500000)) = some (1455 / 1000) := by decide +kernel
  obtain ⟨hsql, -, hle, hreserved⟩ := sql_price_is_python_price premium true none
  refine ⟨?_, ?_, ?_⟩
  · exact (hsql rfl ⟨some 1000000, some 100000, some 300000, some 500000⟩ true nofun).trans hcost
  · exact hle (some 500000) (some 1000000) (some 100000) (some 100000) (some 300000) _ _ (by decide) le_rfl rfl hcost
  · refine hreserved (some 1000000) (some 100000) (some 300000) _ _ ?_ ?_ hcost
    · decide +kernel
    · intro w hw
      obtain rfl := Option.some.inj (hw : some (5 / 2) = some w)
      decide +kernel

end JobScripts.Models.Pricing

import Mathlib.Data.List.Dedup
import JobScripts.Ledger.Rows

/-!
# Reads of the hourly sums

`groups` reads a window: the stored groups of the hours that lie wholly in it, are older than the
watermark `computed_until` and have no row in the log of dirty hours, and the aggregate of everything
else, computed now. The stored hours and the live ranges cover every entry of the window once and no
other entry: the first hour counts from `ceil_s` on and the stored hours end at `stored_end`, and no
hour lies on both sides of either (`Aligned`). So when every stored hour that a read may take sums to
what the ledger does (`Fresh`), a read and the aggregate of the window agree, hour by hour
(`tally_groups`) and in every sum by dimensions (`groups_exact`).
-/

namespace JobScripts.Ledger

open Lib

/-- The tables of the rollup: `answer_usage_hourly`, `ledger_dirty_hours` as ids and hours, and the
watermark of `ledger_rollup_state`, when it has its row. -/
structure Rollup where
  hourly : List HourGroup := []
  dirty : List (ℕ × ℤ) := []
  computed_until : Option ℤ := none

/-! ## The read -/

/-- `date_trunc('hour', x, 'UTC')` of a bound: the start of its hour, an infinity itself. -/
def truncHour : Bound → Bound
  | .time t => .time (startOf (hourOf t))
  | x => x

/-- `ceil_s`: the first start of an hour from a bound on. -/
def ceilHour (s : Bound) : Bound :=
  if truncHour s = s then s
  else match s with
    | .time t => .time (startOf (hourOf t + 1))
    | x => x

/-- `stored_end`: before it a window takes stored hours. -/
def storedEnd (r : Rollup) (e : Bound) : Bound :=
  min ((r.computed_until.map fun u => Bound.time (startOf u)).getD .negInfinity) (truncHour e)

/-- An hour that starts in the stored part of a window. -/
def inStored (r : Rollup) (s e : Bound) (h : ℤ) : Bool :=
  decide (ceilHour s ≤ .time (startOf h)) && decide (.time (startOf h) < storedEnd r e)

/-- The dirty hours of the stored part of a window. -/
def dirtyHours (r : Rollup) (s e : Bound) : List ℤ :=
  ((r.dirty.map Prod.snd).filter (inStored r s e)).dedup

/-- The parts of a window that are aggregated when it is read. -/
def liveRanges (r : Rollup) (s e : Bound) : List Range :=
  (if s < min (ceilHour s) e then [⟨s, min (ceilHour s) e⟩] else []) ++
  (if max (storedEnd r e) (ceilHour s) < e then [⟨max (storedEnd r e) (ceilHour s), e⟩] else []) ++
  (dirtyHours r s e).map fun h => ⟨.time (startOf h), .time (startOf (h + 1))⟩

/-- Hourly groups covering the window from `s` on and before `e`, the stored ones where they can be
trusted and the rest aggregated now, with a condition over the dimensions applied to both. -/
def groups (r : Rollup) (D : Tables) (s e : Bound) (keep : Dims → Bool) : List HourGroup :=
  (r.hourly.filter fun g =>
    inStored r s e g.1.1 && decide (g.1.1 ∉ dirtyHours r s e) && keep g.1.2) ++
  (aggregate (liveRanges r s e) D).filter fun g => keep g.1.2

/-- The aggregate of the window, straight from the source tables. -/
def direct (D : Tables) (s e : Bound) (keep : Dims → Bool) : List HourGroup :=
  (aggregate [⟨s, e⟩] D).filter fun g => keep g.1.2

/-- The names of `DIMENSIONS`. -/
inductive Dimension
  | arm
  | model
  | check_type
  | status
  | config_name
  | prompt_hash
  | batched

/-- A value of a dimension. -/
inductive DimValue
  | arm (a : Arm)
  | text (t : Option String)
  | flag (b : Bool)
  deriving DecidableEq

/-- The value of one dimension in a combination. -/
def Dims.value (d : Dims) : Dimension → DimValue
  | .arm => .arm d.arm
  | .model => .text d.model
  | .check_type => .text d.check_type
  | .status => .text d.status
  | .config_name => .text d.config_name
  | .prompt_hash => .text d.prompt_hash
  | .batched => .flag d.batched

/-- What a reader makes of hourly groups: grouped by the dimensions it cuts by, with the measures
added up. -/
def summed (cut : List Dimension) (rows : List HourGroup) : List (List DimValue × Measures) :=
  group (rows.map fun g => (cut.map g.1.2.value, g.2))

/-! ## Bounds that cut no hour -/

/-- A bound that no hour lies on both sides of: a time is before it when the start of its hour is. -/
def Aligned (x : Bound) : Prop := ∀ t, Bound.time t < x ↔ Bound.time (startOf (hourOf t)) < x

/-- The starts of hours cut no hour. -/
theorem aligned_startOf (h : ℤ) : Aligned (Bound.time (startOf h)) := by
  intro t
  rw [Bound.time_lt, Bound.time_lt]
  unfold startOf hourOf hourMicros
  omega

/-- `-infinity` cuts no hour. -/
theorem aligned_negInfinity : Aligned .negInfinity := by
  intro t
  have hnot : ∀ t : ℤ, ¬ Bound.time t < .negInfinity := fun t => not_lt.2 rfl
  exact iff_of_false (hnot _) (hnot _)

/-- `infinity` cuts no hour. -/
theorem aligned_infinity : Aligned .infinity := by
  intro t
  have hlt : ∀ t : ℤ, Bound.time t < .infinity := fun t => not_le.1 (by
    show ¬ Bound.le _ _ = true
    simp [Bound.le])
  exact iff_of_true (hlt _) (hlt _)

/-- The earlier of two bounds that cut no hour cuts none. -/
theorem Aligned.min {x y : Bound} (hx : Aligned x) (hy : Aligned y) : Aligned (min x y) := by
  intro t
  rw [lt_min_iff, lt_min_iff, hx t, hy t]

/-- `date_trunc` of a bound cuts no hour and is not after it. -/
theorem truncHour_spec (x : Bound) : Aligned (truncHour x) ∧ truncHour x ≤ x := by
  match x with
  | .negInfinity => exact ⟨aligned_negInfinity, le_refl _⟩
  | .infinity => exact ⟨aligned_infinity, le_refl _⟩
  | .time t =>
    refine ⟨aligned_startOf (hourOf t), Bound.time_le.2 ?_⟩
    show startOf (hourOf t) ≤ t
    unfold startOf hourOf hourMicros
    omega

/-- `ceil_s` cuts no hour and is not before the start of the window. -/
theorem ceilHour_spec (x : Bound) : Aligned (ceilHour x) ∧ x ≤ ceilHour x := by
  unfold ceilHour
  split
  · rename_i htrunc
    exact ⟨htrunc ▸ (truncHour_spec x).1, le_refl _⟩
  · match x with
    | .negInfinity => exact ⟨aligned_negInfinity, le_refl _⟩
    | .infinity => exact ⟨aligned_infinity, le_refl _⟩
    | .time t =>
      refine ⟨aligned_startOf (hourOf t + 1), Bound.time_le.2 ?_⟩
      show t ≤ startOf (hourOf t + 1)
      unfold startOf hourOf hourMicros
      omega

/-- `stored_end` cuts no hour and is not after the end of the window. -/
theorem storedEnd_spec (r : Rollup) (e : Bound) :
    Aligned (storedEnd r e) ∧ storedEnd r e ≤ e := by
  unfold storedEnd
  refine ⟨Aligned.min ?_ (truncHour_spec e).1, (min_le_right _ _).trans (truncHour_spec e).2⟩
  cases r.computed_until with
  | none => exact aligned_negInfinity
  | some u => exact aligned_startOf u

/-- An hour of the stored part is older than the watermark. -/
theorem lt_until_of_lt_storedEnd {r : Rollup} {e : Bound} {h : ℤ}
    (hlt : Bound.time (startOf h) < storedEnd r e) : ∃ u, r.computed_until = some u ∧ h < u := by
  have hlt := (lt_min_iff.1 hlt).1
  cases hu : r.computed_until with
  | none =>
    rw [hu] at hlt
    exact absurd rfl (not_le.2 hlt)
  | some u =>
    rw [hu, Option.map_some, Option.getD_some, Bound.time_lt, startOf_lt_iff] at hlt
    exact ⟨u, rfl, hlt⟩

/-! ## The parts of a window -/

/-- Ranges given together sum to what they do apart. -/
theorem tally_aggregate_append (rs rs' : List Range) (D : Tables) (k : ℤ × Dims) :
    tally (aggregate (rs ++ rs') D) k = tally (aggregate rs D) k + tally (aggregate rs' D) k := by
  simp only [tally_aggregate]
  unfold within
  rw [List.flatMap_append, List.map_append, tally_append]

/-- A time falls in a range when it is within its bounds. -/
theorem covers_iff {x : Range} {t : ℤ} : x.covers t = true ↔ x.lo ≤ Bound.time t ∧ Bound.time t < x.hi := by
  unfold Range.covers
  rw [Bool.and_eq_true, decide_eq_true_eq, decide_eq_true_eq]

/-- One range selects by its bounds. -/
theorem tally_aggregate_singleton (x : Range) (D : Tables) (k : ℤ × Dims) :
    tally (aggregate [x] D) k =
      tally (((ledger D).filter fun a => x.covers a.created_at).map Entry.row) k := by
  rw [tally_aggregate]
  unfold within
  rw [List.flatMap_singleton]

/-- The hour of an entry is that of its row. -/
theorem hourOf_of_row {a : Entry} {h : ℤ} {d : Dims} (hk : a.row.1 = (h, d)) :
    hourOf a.created_at = h :=
  congrArg Prod.fst hk

/-- Two ranges that take the same times of an hour sum to the same in it. -/
theorem tally_range_congr {x y : Range} {h : ℤ} (D : Tables) (d : Dims)
    (hxy : ∀ t, hourOf t = h → (x.covers t = true ↔ y.covers t = true)) :
    tally (aggregate [x] D) (h, d) = tally (aggregate [y] D) (h, d) := by
  rw [tally_aggregate_singleton, tally_aggregate_singleton]
  refine tally_filter_congr fun a _ hk => ?_
  rw [Bool.eq_iff_iff]
  exact hxy _ (hourOf_of_row hk)

/-- A range that takes no time of an hour sums to nothing in it. -/
theorem tally_range_none {x : Range} {h : ℤ} (D : Tables) (d : Dims)
    (hx : ∀ t, hourOf t = h → ¬ x.covers t = true) : tally (aggregate [x] D) (h, d) = 0 := by
  rw [tally_aggregate_singleton]
  refine tally_filter_of_forall_not fun a _ hk => ?_
  rw [Bool.eq_false_iff]
  exact hx _ (hourOf_of_row hk)

/-- A range that takes every time of an hour sums to the ledger in it. -/
theorem tally_range_all {x : Range} {h : ℤ} (D : Tables) (d : Dims)
    (hx : ∀ t, hourOf t = h → x.covers t = true) :
    tally (aggregate [x] D) (h, d) = ledgerTally D (h, d) := by
  rw [tally_aggregate_singleton]
  exact tally_filter_of_forall fun a _ hk => hx _ (hourOf_of_row hk)

/-- A range left out when it is empty sums to what it would. -/
theorem tally_aggregate_ite (lo hi : Bound) (D : Tables) (h : ℤ) (d : Dims) :
    tally (aggregate (if lo < hi then [⟨lo, hi⟩] else []) D) (h, d) =
      tally (aggregate [⟨lo, hi⟩] D) (h, d) := by
  split
  · rfl
  · rename_i hempty
    rw [tally_range_none D d]
    · rfl
    · intro t _
      rw [covers_iff]
      rintro ⟨hlo, hhi⟩
      exact hempty (hlo.trans_lt hhi)

/-- Every stored hour that a read may take sums to what the ledger does: those older than the
watermark with no row in the log. -/
def Fresh (r : Rollup) (D : Tables) : Prop :=
  ∀ u, r.computed_until = some u → ∀ h, h < u → h ∉ r.dirty.map Prod.snd →
    ∀ d, tally r.hourly (h, d) = ledgerTally D (h, d)

/-- The live part of a window, in an hour: what of the window lies before `ceil_s`, what lies from
`stored_end` on, and the hour itself when it is dirty. -/
theorem tally_live (r : Rollup) (D : Tables) (s e : Bound) (h : ℤ) (d : Dims) :
    tally (aggregate (liveRanges r s e) D) (h, d) =
      tally (aggregate [⟨s, min (ceilHour s) e⟩] D) (h, d) +
      tally (aggregate [⟨max (storedEnd r e) (ceilHour s), e⟩] D) (h, d) +
      if h ∈ dirtyHours r s e then ledgerTally D (h, d) else 0 := by
  have hnodup : (dirtyHours r s e).Nodup := List.nodup_dedup _
  unfold liveRanges
  rw [tally_aggregate_append, tally_aggregate_append, tally_aggregate_ite, tally_aggregate_ite,
    tally_aggregate_hours hnodup]

/-- An hour that starts before `ceil_s` is read from the first range alone. -/
theorem tally_read_first {r : Rollup} {s e : Bound} {h : ℤ} (D : Tables) (d : Dims)
    (hc : Bound.time (startOf h) < ceilHour s) :
    inStored r s e h = false ∧
      tally (aggregate (liveRanges r s e) D) (h, d) = tally (aggregate [⟨s, e⟩] D) (h, d) := by
  have hin : inStored r s e h = false := by
    unfold inStored
    simp [not_le.2 hc]
  have hnd : h ∉ dirtyHours r s e := by
    intro hd
    rw [(List.mem_filter.1 (List.mem_dedup.1 hd)).2] at hin
    contradiction
  have hlt : ∀ t, hourOf t = h → Bound.time t < ceilHour s := by
    intro t ht
    rw [(ceilHour_spec s).1, ht]
    exact hc
  refine ⟨hin, ?_⟩
  rw [tally_live, if_neg hnd, add_zero, tally_range_none D d (x := ⟨_, e⟩), add_zero]
  · refine tally_range_congr D d fun t ht => ?_
    rw [covers_iff, covers_iff, lt_min_iff]
    simp [hlt t ht]
  · intro t ht
    rw [covers_iff, max_le_iff]
    exact fun hcov => absurd hcov.1.2 (not_le.2 (hlt t ht))

/-- An hour that starts from `ceil_s` and from `stored_end` on is read from the second range alone. -/
theorem tally_read_last {r : Rollup} {s e : Bound} {h : ℤ} (D : Tables) (d : Dims)
    (hc : ceilHour s ≤ Bound.time (startOf h)) (hs : storedEnd r e ≤ Bound.time (startOf h)) :
    inStored r s e h = false ∧
      tally (aggregate (liveRanges r s e) D) (h, d) = tally (aggregate [⟨s, e⟩] D) (h, d) := by
  have hin : inStored r s e h = false := by
    unfold inStored
    simp [not_lt.2 hs]
  have hnd : h ∉ dirtyHours r s e := by
    intro hd
    rw [(List.mem_filter.1 (List.mem_dedup.1 hd)).2] at hin
    contradiction
  have hge : ∀ t, hourOf t = h → ceilHour s ≤ Bound.time t ∧ storedEnd r e ≤ Bound.time t := by
    intro t ht
    rw [← not_lt, ← not_lt, (ceilHour_spec s).1, (storedEnd_spec r e).1, ht, not_lt, not_lt]
    exact ⟨hc, hs⟩
  refine ⟨hin, ?_⟩
  rw [tally_live, if_neg hnd, add_zero, tally_range_none D d (x := ⟨s, _⟩), zero_add]
  · refine tally_range_congr D d fun t ht => ?_
    rw [covers_iff, covers_iff, max_le_iff]
    simp [hge t ht, (ceilHour_spec s).2.trans (hge t ht).1]
  · intro t ht
    rw [covers_iff, lt_min_iff]
    exact fun hcov => absurd hcov.2.1 (not_lt.2 (hge t ht).1)

/-- An hour of the stored part lies wholly in the window, and is aggregated only when it is dirty. -/
theorem tally_read_stored {r : Rollup} {s e : Bound} {h : ℤ} (D : Tables) (d : Dims)
    (hc : ceilHour s ≤ Bound.time (startOf h)) (hs : Bound.time (startOf h) < storedEnd r e) :
    inStored r s e h = true ∧ tally (aggregate [⟨s, e⟩] D) (h, d) = ledgerTally D (h, d) ∧
      tally (aggregate (liveRanges r s e) D) (h, d) =
        if h ∈ dirtyHours r s e then ledgerTally D (h, d) else 0 := by
  have hge : ∀ t, hourOf t = h → ceilHour s ≤ Bound.time t := by
    intro t ht
    rw [← not_lt, (ceilHour_spec s).1, ht, not_lt]
    exact hc
  have hlt : ∀ t, hourOf t = h → Bound.time t < storedEnd r e := by
    intro t ht
    rw [(storedEnd_spec r e).1, ht]
    exact hs
  refine ⟨?_, ?_, ?_⟩
  · unfold inStored
    simp [hc, hs]
  · refine tally_range_all D d fun t ht => covers_iff.2 ?_
    exact ⟨(ceilHour_spec s).2.trans (hge t ht), (hlt t ht).trans_le (storedEnd_spec r e).2⟩
  · rw [tally_live, tally_range_none D d (x := ⟨s, _⟩), tally_range_none D d (x := ⟨_, e⟩), zero_add,
      zero_add]
    · intro t ht
      rw [covers_iff, max_le_iff]
      exact fun hcov => absurd hcov.1.1 (not_le.2 (hlt t ht))
    · intro t ht
      rw [covers_iff, lt_min_iff]
      exact fun hcov => absurd hcov.2.1 (not_lt.2 (hge t ht))

/-- A read sums, in every hour and combination of dimensions, to what the aggregate of the window
does. -/
theorem tally_groups {r : Rollup} {D : Tables} (hfresh : Fresh r D) (s e : Bound)
    (keep : Dims → Bool) (k : ℤ × Dims) :
    tally (groups r D s e keep) k = tally (direct D s e keep) k := by
  obtain ⟨h, d⟩ := k
  unfold groups direct
  rw [tally_append, tally_filter_key (fun k : ℤ × Dims =>
      inStored r s e k.1 && decide (k.1 ∉ dirtyHours r s e) && keep k.2),
    tally_filter_key (fun k : ℤ × Dims => keep k.2),
    tally_filter_key (fun k : ℤ × Dims => keep k.2)]
  by_cases hkeep : keep d = true
  swap
  · simp [hkeep]
  simp only [hkeep, Bool.and_true, if_true]
  rcases lt_or_ge (Bound.time (startOf h)) (ceilHour s) with hc | hc
  · obtain ⟨hin, hlive⟩ := tally_read_first (r := r) (e := e) D d hc
    simp [hin, hlive]
  rcases lt_or_ge (Bound.time (startOf h)) (storedEnd r e) with hs | hs
  swap
  · obtain ⟨hin, hlive⟩ := tally_read_last D d hc hs
    simp [hin, hlive]
  obtain ⟨hin, hwhole, hlive⟩ := tally_read_stored D d hc hs
  rw [hin, hwhole, hlive]
  by_cases hd : h ∈ dirtyHours r s e
  · simp [hd]
  · -- A clean hour of the stored part is older than the watermark, and so fresh.
    have hclean : h ∉ r.dirty.map Prod.snd := fun hm =>
      hd (List.mem_dedup.2 (List.mem_filter.2 ⟨hm, hin⟩))
    obtain ⟨u, hu, hlt⟩ := lt_until_of_lt_storedEnd hs
    simp [hd, hfresh u hu h hlt hclean d]

/-- A read of a window whose stored hours are fresh, summed by any dimensions, is the aggregate of the
window summed by them. -/
theorem groups_exact {r : Rollup} {D : Tables} (hfresh : Fresh r D) (s e : Bound)
    (keep : Dims → Bool) (cut : List Dimension) :
    (summed cut (groups r D s e keep)).Perm (summed cut (direct D s e keep)) := by
  unfold summed
  refine group_perm_of_tally_eq fun l => ?_
  exact tally_map_congr (fun k : ℤ × Dims => cut.map k.2.value) (tally_groups hfresh s e keep) l

end JobScripts.Ledger

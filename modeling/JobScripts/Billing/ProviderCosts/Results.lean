import JobScripts.Billing.ProviderCosts.Pages

/-!
# A bill is whole or unavailable

`bill_whole_or_unavailable` says so for any answers at all, exactly where no sum of amounts is more than a `Decimal`
can hold, no page nests too deep to be read, and no time of a bill has a fraction of a second: the first two raise,
and such a bucket passes for a day that it is not (`overflow_raises`).
-/

namespace JobScripts.Billing.ProviderCosts

open Lib Lib.Loads Lib.Dumps Lib.Decimals

namespace Input

variable {x : Input}

/-- Where nothing is asked the report has no total. -/
theorem fetch_of_not_asks (h : ¬ x.Asks) :
    x.fetch.1 = [] ∧ ∃ r, x.fetch.2 = .ok r ∧ r.status ≠ .available ∧ r.total_usd = none ∧ r.daily = [] := by
  unfold fetch
  by_cases hdays : x.days < 1 ∨ 365 < x.days
  · rw [if_pos hdays]
    exact ⟨rfl, _, rfl, nofun, rfl, rfl⟩
  · have hkey : (x.py.strip x.key).isEmpty := by
      rw [List.isEmpty_iff]
      by_contra hkey
      exact h ⟨⟨by omega, by omega⟩, hkey⟩
    rw [if_neg hdays, if_pos hkey]
    exact ⟨rfl, _, rfl, nofun, rfl, rfl⟩

/-- What comes of the pages. -/
theorem fetch_of_asks (h : x.Asks) :
    x.fetch.1 = (x.run x.days.toNat 0 Pages.none).1.map x.params ∧
    (∀ reason, (x.run x.days.toNat 0 Pages.none).2 = .error (.unavailable reason) →
      ∃ r, x.fetch.2 = .ok r ∧ r.status ≠ .available ∧ r.total_usd = none ∧ r.daily = []) ∧
    (∀ e, (x.run x.days.toNat 0 Pages.none).2 = .error (.raised e) → x.fetch.2 = .error e) ∧
    ∀ daily, (x.run x.days.toNat 0 Pages.none).2 = .ok daily →
      (defaultContext.sum (daily.map Bucket.total_usd) = none → x.fetch.2 = .error .overflow) ∧
      ∀ total, defaultContext.sum (daily.map Bucket.total_usd) = some total →
        ∃ r, x.fetch.2 = .ok r ∧ r.status = .available ∧ r.total_usd = some total ∧ r.daily = daily := by
  obtain ⟨hdays, hkey⟩ := h
  unfold fetch run
  rw [if_neg (by omega), if_neg (mt List.isEmpty_iff.mp hkey)]
  dsimp only
  refine ⟨rfl, fun reason hreason => ?_, fun e he => ?_, fun daily hdaily => ⟨fun hsum => ?_, fun total hsum => ?_⟩⟩
  · rw [hreason]
    exact ⟨_, rfl, Status.noConfusion, rfl, rfl⟩
  · rw [he]
  · rw [hdaily]
    dsimp only
    rw [hsum]
  · rw [hdaily]
    dsimp only
    rw [hsum]
    exact ⟨_, rfl, rfl, rfl, rfl⟩

/-- Where the pages lead, the run is the one that goes on from there. -/
theorem run_eq {k : ℕ} {daily : List Bucket} {cursors : List Text} (hleads : x.Leads x.ReadsDay k daily cursors)
    (hk : k < x.days.toNat) :
    ∃ left, x.days.toNat = left + 1 + k ∧
      (x.run x.days.toNat 0 Pages.none).2 = (x.run (left + 1) k (Pages.of daily cursors)).2 := by
  obtain ⟨left, hleft⟩ := Nat.exists_eq_add_of_lt hk
  have heq : x.days.toNat = left + 1 + k := by omega
  exact ⟨left, heq, by rw [heq, run_leads hleads]⟩

/-- The run of a whole bill gives its days in order. -/
theorem Answers.run {k : ℕ} {page : Page} {bill : List Bucket} (h : x.Answers x.ReadsDay k page bill)
    (hk : k < x.days.toNat) : (x.run x.days.toNat 0 Pages.none).2 = .ok (sortedDays bill) := by
  obtain ⟨daily, bs, cursors, hleads, hat, hmore, hdays, hdistinct, rfl⟩ := h
  obtain ⟨left, -, hrun⟩ := run_eq hleads hk
  rw [hrun, run_succ hat.1, turn_last hleads hat hmore hdays hdistinct]

/-- What raises at a turn raises. -/
theorem fetch_of_turn {k : ℕ} {daily : List Bucket} {cursors : List Text} {e : Raised} (hasks : x.Asks)
    (hleads : x.Leads x.ReadsDay k daily cursors) (hk : k < x.days.toNat) (htime : 0 < (x.turns k).remaining)
    (hturn : x.turn k (Pages.of daily cursors) = .error (.raised e)) : x.fetch.2 = .error e := by
  obtain ⟨left, -, hrun⟩ := run_eq hleads hk
  apply (fetch_of_asks hasks).2.2.1 e
  rw [hrun, run_succ htime, hturn]

end Input

/-- The days of a whole bill are in increasing order. -/
theorem pairwise_sortedDays {bill : List Bucket} (h : Distinct bill) :
    (sortedDays bill).Pairwise fun a b => a.start_time < b.start_time := by
  have htotal : Std.Total fun a b : Bucket => a.start_time ≤ b.start_time := ⟨fun a b => le_total _ _⟩
  have htrans : IsTrans Bucket fun a b => a.start_time ≤ b.start_time := ⟨fun _ _ _ => le_trans⟩
  have hle : (sortedDays bill).Pairwise fun a b => a.start_time ≤ b.start_time := List.pairwise_insertionSort _ bill
  have hnodup : (sortedDays bill).Pairwise fun a b => a.start_time ≠ b.start_time :=
    List.pairwise_map.mp (((List.perm_insertionSort _ bill).map Bucket.start_time).nodup_iff.mpr h)
  exact hle.imp₂ (fun _ _ hle hne => lt_of_le_of_ne hle hne) hnodup

/-- A whole bill's report is one. -/
theorem isBill_of_answers {x : Input} {k : ℕ} {page : Page} {bill : List Bucket} {r : Report} {total : ℚ}
    (hk : k < x.days.toNat) (hday : x.Answers x.IsDay k page bill)
    (hsum : defaultContext.sum ((sortedDays bill).map Bucket.total_usd) = some total)
    (htotal : r.total_usd = some total) (hdaily : r.daily = sortedDays bill) : IsBill x r := by
  have hperm : r.daily.Perm bill := hdaily ▸ List.perm_insertionSort _ bill
  have h := hday.readsDay_of_isDay
  refine ⟨⟨k, page, bill, hk, hday, hperm⟩, ?_, ⟨total, htotal, by rw [hdaily, hsum]⟩, fun hdays hbill => ?_⟩
  · rw [hdaily]
    exact pairwise_sortedDays h.readsDay.1
  · -- With no digit lost each day's total is the exact one, and so is their sum.
    have hexact : r.daily.map Bucket.total_usd = r.daily.map Bucket.exact := by
      refine List.map_congr_left fun b hb => ?_
      obtain ⟨raw, hraw⟩ := h.readsDay.2 b (hperm.mem_iff.mp hb)
      have hday : defaultContext.sum (b.items.map Item.amount_usd) = some b.exact := Context.sum_of_keeps (hdays b hb)
      exact Option.some.inj (hraw.total.symm.trans hday)
    rw [← hdaily, hexact, Context.sum_of_keeps hbill] at hsum
    rw [htotal, hsum]

/-- Within bounds a bill is whole or unavailable. -/
theorem whole_of_withinBounds {x : Input} (hasks : x.Asks) (h : WithinBounds x) : WholeOrUnavailable x := by
  obtain ⟨hrequests, hunavailable, -, hok⟩ := x.fetch_of_asks hasks
  have hcases := Input.run_cases h .start (le_of_eq (Nat.add_zero _))
  have hsum : ∀ {k page bill}, k < x.days.toNat → x.Answers x.ReadsDay k page bill →
      ∃ total, defaultContext.sum ((sortedDays bill).map Bucket.total_usd) = some total :=
    fun hk hbill => Option.ne_none_iff_exists'.mp (h.total _ _ _ hk hbill)
  have hlength : x.fetch.1.length ≤ x.days.toNat := by
    rw [hrequests, List.length_map]
    exact Input.length_run_le _ _ _
  have hcomplete : ∀ k page bill, x.Answers x.IsDay k page bill → page.data ≠ [] →
      ∃ r, x.fetch.2 = .ok r ∧ r.status = .available := by
    intro k page bill hday hdata
    have hbill := hday.readsDay_of_isDay
    have hk := hbill.lt_days hdata
    obtain ⟨total, htotal⟩ := hsum hk hbill
    obtain ⟨r, hr, hstatus, -, -⟩ := (hok _ (hbill.run hk)).2 total htotal
    exact ⟨r, hr, hstatus⟩
  rcases hcases with ⟨k, page, bill, hk, hbill, hrun⟩ | ⟨reason, hrun⟩
  · obtain ⟨total, htotal⟩ := hsum hk hbill
    obtain ⟨r, hr, hstatus, hrtotal, hrdaily⟩ := (hok _ hrun).2 total htotal
    refine ⟨hlength, ⟨r, hr⟩, fun r' hr' _ => ?_, fun r' hr' hne => ?_, fun _ => hcomplete⟩
    · rw [← Except.ok.inj (hr.symm.trans hr')]
      exact isBill_of_answers hk (hbill.isDay_iff.mpr (h.whole _ _ _ hk hbill)) htotal hrtotal hrdaily
    · rw [← Except.ok.inj (hr.symm.trans hr')] at hne
      exact absurd hstatus hne
  · obtain ⟨r, hr, hstatus, hnone, hnil⟩ := hunavailable reason hrun
    refine ⟨hlength, ⟨r, hr⟩, fun r' hr' havailable => ?_, fun r' hr' _ => ?_, fun _ => hcomplete⟩
    · rw [← Except.ok.inj (hr.symm.trans hr')] at havailable
      exact absurd havailable hstatus
    · rw [← Except.ok.inj (hr.symm.trans hr')]
      exact ⟨hnone, hnil⟩

/-- Where nothing is raised all is within bounds. -/
theorem withinBounds_of_whole {x : Input} (hasks : x.Asks) (h : WholeOrUnavailable x) : WithinBounds x := by
  obtain ⟨r, hr⟩ := h.raises_nothing
  have hraised : ∀ e, x.fetch.2 ≠ .error e := fun e he => absurd (hr.symm.trans he) nofun
  refine ⟨fun k daily cursors text hk hleads htime hanswer hdeep => ?_,
    fun k daily cursors page pre raw post bs hk hleads hat hdata hpre hdistinct hover => ?_,
    fun k page bill hk hbill hnone => ?_, fun k page bill hk hbill => ?_⟩
  · exact hraised _ (Input.fetch_of_turn hasks hleads hk htime (Input.turn_deep hanswer hdeep))
  · exact hraised _ (Input.fetch_of_turn hasks hleads hk hat.1
      (Input.turn_overflow hleads hat hdata hpre hdistinct hover))
  · exact hraised _ (((x.fetch_of_asks hasks).2.2.2 _ (hbill.run hk)).1 hnone)
  · -- The bill is available, so its days are whole, and these are the pages that it was read from.
    obtain ⟨hover, hok⟩ := (x.fetch_of_asks hasks).2.2.2 _ (hbill.run hk)
    obtain ⟨total, htotal⟩ := Option.ne_none_iff_exists'.mp fun hnone => hraised _ (hover hnone)
    obtain ⟨r', hr', hstatus, -, -⟩ := hok total htotal
    obtain ⟨k', page', bill', -, hday, -⟩ := (h.available r' hr' hstatus).pages
    obtain rfl := hbill.unique hday
    exact hday.readsDay_of_isDay.isDay_iff.mp hday

/-- A bill is whole or unavailable exactly where nothing is too deep or too large and no time has a fraction. -/
theorem bill_whole_or_unavailable (x : Input) : WholeOrUnavailable x ↔ (x.Asks → WithinBounds x) := by
  constructor
  · exact fun h hasks => withinBounds_of_whole hasks h
  · intro h
    by_cases hasks : x.Asks
    · exact whole_of_withinBounds hasks (h hasks)
    · obtain ⟨hrequests, r, hr, hstatus, hnone, hnil⟩ := Input.fetch_of_not_asks hasks
      refine ⟨?_, ⟨r, hr⟩, fun r' hr' havailable => ?_, fun r' hr' _ => ?_, fun hasks' => absurd hasks' hasks⟩
      · rw [hrequests]
        exact Nat.zero_le _
      · rw [← Except.ok.inj (hr.symm.trans hr')] at havailable
        exact absurd havailable hstatus
      · rw [← Except.ok.inj (hr.symm.trans hr')]
        exact ⟨hnone, hnil⟩

/-- `Decimal("9e999999")`. -/
def large : ℚ := 9 * 10 ^ (999999 : ℤ)

/-- Twice as much is more than a `Decimal` can hold. -/
theorem sum_large : defaultContext.sum [large, large] = none := by
  have hpos : (0 : ℚ) < 10 ^ (999999 : ℤ) := zpow_pos (by norm_num) _
  have hlimit : (10 : ℚ) ^ (defaultContext.emax + 1) = 10 ^ (999999 : ℤ) * 10 :=
    zpow_add_one₀ (by norm_num) 999999
  have hetiny : defaultContext.etiny ≤ 999999 := by decide
  have hresult : ∀ n : ℤ, 0 ≤ n → n < 10 ^ defaultContext.prec →
      defaultContext.result (n * 10 ^ (999999 : ℤ)) =
        if 10 ≤ n then none else some ((n : ℚ) * 10 ^ (999999 : ℤ)) := by
    intro n hn hlt
    have habs : |(n : ℚ) * 10 ^ (999999 : ℤ)| = n * 10 ^ (999999 : ℤ) :=
      abs_of_nonneg (mul_nonneg (Int.cast_nonneg hn) hpos.le)
    have hten : (10 : ℚ) ^ (defaultContext.emax + 1) ≤ |(n : ℚ) * 10 ^ (999999 : ℤ)| ↔ 10 ≤ n := by
      rw [habs, hlimit, mul_comm, mul_le_mul_iff_left₀ hpos]
      exact_mod_cast Iff.rfl
    rw [Context.result_of_digits (by rwa [abs_of_nonneg hn]) hetiny]
    exact if_congr hten rfl rfl
  have hone : defaultContext.result (0 + large) = some large := by
    have h := hresult 9 (by decide) (by decide)
    rw [if_neg (by decide)] at h
    rw [zero_add]
    exact h
  have htwo : defaultContext.result (large + large) = none := by
    have h := hresult 18 (by decide) (by decide)
    rw [if_pos (by decide)] at h
    have hsum : large + large = ((18 : ℤ) : ℚ) * 10 ^ (999999 : ℤ) := by
      have hnine : (9 : ℚ) + 9 = ((18 : ℤ) : ℚ) := by norm_num
      unfold large
      rw [← add_mul, hnine]
    rw [hsum, h]
  unfold Context.sum
  rw [Context.sumFrom, hone, Option.bind_some, Context.sumFrom, htwo]
  rfl

/-- A cost of that much. -/
def largeCost : Value :=
  .dict [(codes "object", .str (codes "organization.costs.result")),
    (codes "amount", .dict [(codes "value", .float (codes "9e999999")), (codes "currency", .str (codes "usd"))])]

/-- A day with two of them. -/
def largeBucket : Value :=
  .dict [(codes "object", .str (codes "bucket")), (codes "start_time", .int 1727913600),
    (codes "end_time", .int 1728000000), (codes "results", .list [largeCost, largeCost])]

/-- A page with this day alone. -/
def largePage : Value :=
  .dict [(codes "object", .str (codes "page")), (codes "data", .list [largeBucket]),
    (codes "has_more", .bool false)]

/-- OpenAI answers with this page when it is asked for the day. -/
def largeInput : Input where
  py := ⟨loads 1000, fun t => if t = codes "9e999999" then some (.finite large) else none, fun _ => none, id⟩
  provider := .openai
  days := 1
  key := codes "key"
  billing_projects := []
  now := 1728000000
  turns _ := ⟨20, .response 200 (write .compact largePage)⟩

/-- The page is read. -/
theorem loads_largePage : loads 1000 (write .compact largePage) = .ok largePage := by
  have hunpaired : ∀ s ∈ ["object", "organization.costs.result", "amount", "value", "currency", "usd", "bucket",
      "start_time", "end_time", "results", "page", "data", "has_more"], Unpaired (codes s) := by
    unfold Unpaired
    decide +kernel
  have hfloat : Readable (Value.float (codes "9e999999")) := rfl
  have hint : ∀ n : ℤ, (digits n.natAbs).length ≤ maxDigits → Readable (Value.int n) := fun n h => h
  have hcost : Readable largeCost :=
    ⟨by decide, hunpaired _ (by decide), hunpaired _ (by decide), hunpaired _ (by decide),
      ⟨by decide, hunpaired _ (by decide), hfloat, hunpaired _ (by decide), hunpaired _ (by decide), trivial⟩,
      trivial⟩
  have hbucket : Readable largeBucket :=
    ⟨by decide, hunpaired _ (by decide), hunpaired _ (by decide), hunpaired _ (by decide), hint _ (by decide),
      hunpaired _ (by decide), hint _ (by decide), hunpaired _ (by decide), ⟨hcost, hcost, trivial⟩, trivial⟩
  have hpage : Readable largePage :=
    ⟨by decide, hunpaired _ (by decide), hunpaired _ (by decide), hunpaired _ (by decide), ⟨hbucket, trivial⟩,
      hunpaired _ (by decide), trivial, trivial⟩
  exact loads_write hpage (by decide)

/-- The total is too large, and this is raised. -/
theorem largeInput_overflows : largeInput.fetch.2 = .error .overflow := by
  have hcost : OpenaiCost largeInput.py largeInput.projects largeCost ⟨large, none, none, none⟩ :=
    ⟨_, _, rfl, rfl, rfl, rfl, .decimal rfl, .null, .inl rfl, .null, rfl⟩
  have hwhole : WholeDay 1727913600 1728000000 largeInput.start largeInput.stop :=
    ⟨by decide, by decide, by decide, by decide⟩
  have hover : DayOverflows largeInput.meaning largeInput.start largeInput.stop largeBucket :=
    ⟨1727913600, 1728000000, [largeCost, largeCost],
      ⟨_, _, ⟨_, _, _, rfl, rfl, rfl, rfl, rfl, rfl⟩, seconds_mul _, seconds_mul _⟩, hwhole, ⟨_, rfl, rfl⟩,
      .inr ⟨[⟨large, none, none, none⟩, ⟨large, none, none, none⟩], .cons hcost (.cons hcost .nil), sum_large⟩⟩
  have hpage : IsPage largeInput.format.page_object largePage ⟨[largeBucket], false, .null⟩ := by
    refine ⟨_, rfl, fun o ho => ?_, rfl, rfl, rfl⟩
    obtain rfl : "page" = o := Option.some.inj ho
    rfl
  have htime : 0 < (largeInput.turns 0).remaining := by decide
  have hloads : largeInput.py.loads = loads 1000 := rfl
  have hat : largeInput.PageAt 0 ⟨[largeBucket], false, .null⟩ :=
    ⟨htime, write .compact largePage, largePage, rfl, by rw [hloads, loads_largePage], hpage⟩
  have hasks : largeInput.Asks := ⟨by decide, by decide⟩
  have hdata : [largeBucket] = [] ++ largeBucket :: [] := rfl
  exact Input.fetch_of_turn hasks .start (by decide) htime
    (Input.turn_overflow .start hat hdata .nil List.nodup_nil hover)

/-- A bucket from half a second after a midnight until nine tenths of a second after the next. -/
def shiftedBucket : Value :=
  .dict [(codes "starting_at", .str (codes "2024-10-03T00:00:00.5Z")),
    (codes "ending_at", .str (codes "2024-10-04T00:00:00.9Z")), (codes "results", .list [])]

/-- A page with this bucket alone. -/
def shiftedPage : Value := .dict [(codes "data", .list [shiftedBucket]), (codes "has_more", .bool false)]

/-- Anthropic answers with this page when it is asked for the day. -/
def shiftedInput : Input where
  py := ⟨loads 1000, fun _ => none,
    fun t =>
      if t = codes "2024-10-03T00:00:00.5Z" then some ⟨some 0, 1727913600500000⟩
      else if t = codes "2024-10-04T00:00:00.9Z" then some ⟨some 0, 1728000000900000⟩
      else none, id⟩
  provider := .anthropic
  days := 1
  key := codes "key"
  billing_projects := []
  now := 1728000000
  turns _ := ⟨20, .response 200 (write .compact shiftedPage)⟩

/-- This page is read. -/
theorem loads_shiftedPage : loads 1000 (write .compact shiftedPage) = .ok shiftedPage := by
  have hunpaired : ∀ s ∈ ["starting_at", "2024-10-03T00:00:00.5Z", "ending_at", "2024-10-04T00:00:00.9Z", "results",
      "data", "has_more"], Unpaired (codes s) := by
    unfold Unpaired
    decide +kernel
  have hbucket : Readable shiftedBucket :=
    ⟨by decide, hunpaired _ (by decide), hunpaired _ (by decide), hunpaired _ (by decide), hunpaired _ (by decide),
      hunpaired _ (by decide), trivial, trivial⟩
  have hpage : Readable shiftedPage :=
    ⟨by decide, hunpaired _ (by decide), ⟨hbucket, trivial⟩, hunpaired _ (by decide), trivial, trivial⟩
  exact loads_write hpage (by decide)

/-- The total of the large amounts is raised; and the shifted bucket, which is no UTC day, is reported as one. -/
theorem overflow_raises : (largeInput.fetch.2 = .error .overflow ∧ ¬ WholeOrUnavailable largeInput) ∧
    (∃ r, shiftedInput.fetch.2 = .ok r ∧ r.status = .available) ∧ ¬ WholeOrUnavailable shiftedInput := by
  refine ⟨⟨largeInput_overflows, fun h => ?_⟩, ?_⟩
  · obtain ⟨r, hr⟩ := h.raises_nothing
    exact absurd (hr.symm.trans largeInput_overflows) nofun
  · have htimes : shiftedInput.meaning.times shiftedBucket 1727913600500000 1728000000900000 :=
      ⟨_, rfl, ⟨_, rfl, by decide⟩, ⟨_, rfl, by decide⟩⟩
    have hday : shiftedInput.ReadsDay shiftedBucket ⟨1727913600, 1728000000, 0, []⟩ :=
      ⟨⟨_, _, htimes, by decide, by decide⟩, ⟨by decide, by decide, by decide, by decide⟩,
        ⟨[], ⟨_, rfl, rfl⟩, .nil⟩, rfl⟩
    have hpage : IsPage shiftedInput.format.page_object shiftedPage ⟨[shiftedBucket], false, .null⟩ :=
      ⟨_, rfl, nofun, rfl, rfl, rfl⟩
    have hloads : shiftedInput.py.loads = loads 1000 := rfl
    have hat : shiftedInput.PageAt 0 ⟨[shiftedBucket], false, .null⟩ :=
      ⟨by decide, write .compact shiftedPage, shiftedPage, rfl, by rw [hloads, loads_shiftedPage], hpage⟩
    have hanswers : shiftedInput.Answers shiftedInput.ReadsDay 0 ⟨[shiftedBucket], false, .null⟩
        [⟨1727913600, 1728000000, 0, []⟩] :=
      ⟨[], _, [], .start, hat, rfl, .cons hday .nil, List.nodup_singleton _, rfl⟩
    have hasks : shiftedInput.Asks := ⟨by decide, by decide⟩
    have hsum : defaultContext.sum [0] = some 0 := by
      have hzero : defaultContext.result (0 + 0) = some 0 := by
        have h := Context.result_of_digits (c := defaultContext) (n := 0) (e := 0) (by decide) (by decide)
        rw [Int.cast_zero, zero_mul, abs_zero, if_neg (not_le.mpr (zpow_pos (by norm_num) _))] at h
        rw [zero_add, h]
      unfold Context.sum
      rw [Context.sumFrom, hzero]
      rfl
    obtain ⟨r, hr, hstatus, -⟩ := ((Input.fetch_of_asks hasks).2.2.2 _ (hanswers.run (by decide))).2 0 hsum
    refine ⟨⟨r, hr, hstatus⟩, fun h => ?_⟩
    have hbounds := withinBounds_of_whole hasks h
    obtain ⟨hdvd, -⟩ := hbounds.whole 0 _ _ (by decide) hanswers 0 le_rfl _ hat _ List.mem_cons_self _ _ htimes
    exact absurd hdvd (by decide)

end JobScripts.Billing.ProviderCosts

import JobScripts.Billing.ProviderCosts.Bills

/-!
# Buckets are read

Each function that checks a value succeeds on the values that mean something, and gives what they mean; a bucket is
read where it is a day of the window.
-/

namespace JobScripts.Billing.ProviderCosts

open Lib Lib.Loads Lib.Dumps Lib.Decimals

/-! ## A list is read -/

section ReadAll

variable {α β : Type} {read : α → Except Raised β}

/-- All of a list is read where each of it is. -/
theorem readAll_eq_ok {l : List α} {ys : List β} :
    readAll read l = .ok ys ↔ List.Forall₂ (fun x y => read x = .ok y) l ys := by
  induction l generalizing ys with
  | nil => rw [readAll, List.forall₂_nil_left_iff, Except.ok.injEq, eq_comm]
  | cons x rest ih =>
    rw [readAll]
    rcases hx : read x with e | y
    · refine iff_of_false nofun fun h => ?_
      obtain ⟨y, ys', hy, -, -⟩ := List.forall₂_cons_left_iff.mp h
      rw [hx] at hy
      exact absurd hy nofun
    · rcases hrest : readAll read rest with e | ys'
      · refine iff_of_false nofun fun h => ?_
        obtain ⟨y, ys', -, hys, -⟩ := List.forall₂_cons_left_iff.mp h
        rw [ih.mpr hys] at hrest
        exact absurd hrest nofun
      · have hys := ih.mp hrest
        constructor
        · intro h
          rw [← Except.ok.inj h]
          exact List.Forall₂.cons hx hys
        · intro h
          obtain ⟨z, zs, hz, hzs, rfl⟩ := List.forall₂_cons_left_iff.mp h
          rw [ih.mpr hzs] at hrest
          rw [hx] at hz
          rw [Except.ok.inj hz, Except.ok.inj hrest]

/-- Else the first that raises does. -/
theorem readAll_eq_error {l : List α} {e : Raised} :
    readAll read l = .error e ↔
      ∃ pre x post ys, l = pre ++ x :: post ∧ List.Forall₂ (fun x y => read x = .ok y) pre ys ∧
        read x = .error e := by
  induction l with
  | nil =>
    refine iff_of_false nofun ?_
    rintro ⟨pre, x, post, ys, h, -, -⟩
    exact List.append_ne_nil_of_right_ne_nil pre (List.cons_ne_nil x post) h.symm
  | cons x rest ih =>
    rw [readAll]
    constructor
    · intro h
      rcases hx : read x with e' | y
      · rw [hx] at h
        exact ⟨[], x, rest, [], rfl, .nil, by rw [hx, Except.error.inj h]⟩
      · rcases hrest : readAll read rest with e' | ys
        · rw [hx, hrest] at h
          obtain ⟨pre, z, post, ys, rfl, hpre, hz⟩ := ih.mp (by rw [hrest, Except.error.inj h])
          exact ⟨x :: pre, z, post, y :: ys, rfl, .cons hx hpre, hz⟩
        · rw [hx, hrest] at h
          exact absurd h nofun
    · rintro ⟨pre, z, post, ys, h, hpre, hz⟩
      cases pre with
      | nil =>
        obtain ⟨rfl, rfl⟩ := List.cons.inj h
        rw [hz]
      | cons w pre =>
        obtain ⟨rfl, rfl⟩ := List.cons.inj h
        obtain ⟨y, ys', hy, hys, -⟩ := List.forall₂_cons_left_iff.mp hpre
        rw [hy, ih.mpr ⟨pre, z, post, ys', rfl, hys, hz⟩]

end ReadAll

/-! ## Values are checked -/

/-- A value is the text that it is compared with. -/
theorem isText_iff {text : String} {v : Value} : isText text v = true ↔ v = .str (codes text) := by
  cases v with
  | str t =>
    unfold isText
    rw [decide_eq_true_iff, Value.str.injEq]
  | _ => exact iff_of_false Bool.false_ne_true nofun

/-- The members are those of an object. -/
theorem members_eq_some {v : Value} {d : List (Text × Value)} : members v = some d ↔ v = .dict d := by
  cases v with
  | dict d' =>
    unfold members
    rw [Option.some.injEq, Value.dict.injEq]
  | _ => exact iff_of_false nofun nofun

/-- An integer is one. -/
theorem integer_eq_some {v : Value} {n : ℤ} : integer v = some n ↔ v = .int n := by
  cases v with
  | int n' =>
    unfold integer
    rw [Option.some.injEq, Value.int.injEq]
  | _ => exact iff_of_false nofun nofun

/-- A nullable text is a text or null. -/
theorem nullableText_eq_some {v : Value} {o : Option Text} : nullableText v = some o ↔ NullableText v o := by
  cases v with
  | null =>
    constructor
    · intro h
      rw [← Option.some.inj h]
      exact .null
    · rintro ⟨⟩
      rfl
  | str t =>
    constructor
    · intro h
      rw [← Option.some.inj h]
      exact .text t
    · rintro ⟨⟩
      rfl
  | _ => exact iff_of_false nofun nofun

/-- A number is an integer or a finite `Decimal`. -/
theorem number_eq_some {py : Python} {v : Value} {q : ℚ} : number py v = some q ↔ Number py v q := by
  constructor
  · intro h
    unfold number at h
    split at h
    · rw [← Option.some.inj h]
      exact .int _
    · split at h
      · next ht =>
        rw [← Option.some.inj h]
        exact .decimal ht
      · exact absurd h nofun
    · exact absurd h nofun
  · rintro (_ | h)
    · rfl
    · unfold number
      dsimp only
      rw [h]

/-- A time is that of a moment of UTC, to the second. -/
theorem rfc3339_eq_some {py : Python} {v : Value} {n : ℤ} :
    rfc3339 py v = some n ↔ ∃ microseconds, Utc py v microseconds ∧ seconds microseconds = n := by
  constructor
  · intro h
    unfold rfc3339 at h
    split at h
    · next t =>
      split at h
      · next m hm =>
        split at h
        · next hoffset => exact ⟨m.microseconds, ⟨t, rfl, by rw [hm, ← hoffset]⟩, Option.some.inj h⟩
        · exact absurd h nofun
      · exact absurd h nofun
    · exact absurd h nofun
  · rintro ⟨microseconds, ⟨t, rfl, h⟩, rfl⟩
    unfold rfc3339
    dsimp only
    rw [h]
    exact if_pos rfl

/-- Whole seconds are themselves. -/
theorem seconds_mul (n : ℤ) : seconds (n * 1000000) = n := Int.mul_tdiv_cancel n (by norm_num)

/-- The bounds are those of a whole day of the window. -/
theorem checkedBounds_iff {lower upper start stop : ℤ} :
    checkedBounds lower upper start stop = true ↔ WholeDay lower upper start stop := by
  have hday : daySeconds ∣ lower ↔ lower % daySeconds = 0 := Int.dvd_iff_emod_eq_zero
  unfold checkedBounds WholeDay
  rw [hday]
  simp only [Bool.not_eq_true', Bool.or_eq_false_iff, decide_eq_false_iff_not]
  omega

/-- The results are those of an object. -/
theorem results_eq_some {raw : Value} {rs : List Value} : results raw = some rs ↔ Results raw rs := by
  unfold results Results
  rcases hd : members raw with _ | d
  · refine iff_of_false nofun ?_
    rintro ⟨d, h, -⟩
    exact absurd (hd.symm.trans (members_eq_some.mpr h)) nofun
  · have hraw := members_eq_some.mp hd
    dsimp only
    constructor
    · intro h
      split at h
      · next hrs =>
        rw [Option.some.inj h] at hrs
        exact ⟨d, hraw, hrs⟩
      · exact absurd h nofun
    · rintro ⟨d', h, hrs⟩
      obtain ⟨⟩ := hraw.symm.trans h
      rw [hrs]

/-! ## A bucket is read -/

/-- A provider's functions read what its buckets mean. -/
structure Reads (times : Value → Option (ℤ × ℤ)) (item : Value → Except Raised Item) (m : Meaning) : Prop where
  times : ∀ {raw lower upper}, times raw = some (lower, upper) ↔ m.wholeSeconds raw lower upper
  cost : ∀ {raw x}, item raw = .ok x ↔ m.cost raw x
  overflows : ∀ {raw}, item raw = .error .overflow ↔ m.overflows raw
  recursion : ∀ {raw}, item raw ≠ .error .recursion

/-- A result of OpenAI's is a cost. -/
theorem openaiItem_eq_some {py : Python} {projects : List Text} {raw : Value} {x : Item} :
    openaiItem py projects raw = some x ↔ OpenaiCost py projects raw x := by
  obtain ⟨dollars, project, line, model⟩ := x
  simp [openaiItem, OpenaiCost, Option.bind_eq_some_iff, isText_iff, members_eq_some, number_eq_some,
    nullableText_eq_some, @eq_comm (Option Text) none model]

/-- OpenAI's do. -/
theorem reads_openai (py : Python) (projects : List Text) :
    Reads openaiTimes
      (fun result =>
        match openaiItem py projects result with
        | some item => .ok item
        | none => .error .invalid)
      (openaiMeaning py projects) where
  times := by
    intro raw lower upper
    have hread : openaiTimes raw = some (lower, upper) ↔ ∃ d, raw = .dict d ∧
        get "object" d = .str (codes "bucket") ∧ get "start_time" d = .int lower ∧ get "end_time" d = .int upper := by
      simp [openaiTimes, Option.bind_eq_some_iff, isText_iff, members_eq_some, integer_eq_some]
    rw [hread]
    constructor
    · rintro ⟨d, hraw, hobject, hlower, hupper⟩
      exact ⟨_, _, ⟨d, lower, upper, hraw, hobject, hlower, hupper, rfl, rfl⟩, seconds_mul _, seconds_mul _⟩
    · rintro ⟨_, _, ⟨d, lower', upper', hraw, hobject, hlower, hupper, rfl, rfl⟩, rfl, rfl⟩
      rw [seconds_mul, seconds_mul]
      exact ⟨d, hraw, hobject, hlower, hupper⟩
  cost := by
    intro raw x
    unfold openaiMeaning
    dsimp only
    rw [← openaiItem_eq_some]
    split
    · next h => rw [h, Except.ok.injEq, Option.some.injEq]
    · next h =>
      rw [h]
      exact iff_of_false nofun nofun
  overflows := by
    intro raw
    refine iff_of_false (fun h => ?_) not_false
    split at h
    · exact absurd h nofun
    · exact absurd h nofun
  recursion := by
    intro raw h
    split at h
    · exact absurd h nofun
    · exact absurd h nofun

/-- The cents of a result of Anthropic's. -/
theorem anthropicCents_eq_some {py : Python} {raw : Value} {cents : ℚ} :
    anthropicCents py raw = some cents ↔ ∃ d, raw = .dict d ∧ AnthropicCents py d cents := by
  constructor
  · intro h
    unfold anthropicCents at h
    split at h
    · next d hd =>
      split at h
      · next hcurrency =>
        split at h
        · next t ht =>
          split at h
          · next q hq =>
            rw [Option.some.inj h] at hq
            exact ⟨d, members_eq_some.mp hd, isText_iff.mp hcurrency, t, ht, hq⟩
          · exact absurd h nofun
        · exact absurd h nofun
      · exact absurd h nofun
    · exact absurd h nofun
  · rintro ⟨d, rfl, hcurrency, t, ht, hq⟩
    unfold anthropicCents
    rw [members_eq_some.mpr rfl]
    dsimp only
    rw [if_pos (isText_iff.mpr hcurrency), ht]
    dsimp only
    rw [hq]

/-- The texts of a result of Anthropic's. -/
theorem anthropicTexts_eq_some {d : List (Text × Value)} {dollars : ℚ} {x : Item} :
    anthropicTexts (.dict d) dollars = some x ↔
      dollars = x.amount_usd ∧ NullableText (get "workspace_id" d) x.project_id ∧
        NullableText (get "description" d) x.line_item ∧ NullableText (get "model" d) x.model := by
  obtain ⟨amount, project, line, model⟩ := x
  simp only [anthropicTexts, Option.bind_eq_bind, Option.bind_eq_some_iff, members_eq_some, nullableText_eq_some,
    Value.dict.injEq, Option.pure_def, Option.some.injEq, Item.mk.injEq]
  constructor
  · rintro ⟨_, rfl, _, hproject, _, hline, _, hmodel, rfl, rfl, rfl, rfl⟩
    exact ⟨rfl, hproject, hline, hmodel⟩
  · rintro ⟨rfl, hproject, hline, hmodel⟩
    exact ⟨d, rfl, project, hproject, line, hline, model, hmodel, rfl, rfl, rfl, rfl⟩

/-- Anthropic's do too. -/
theorem reads_anthropic (py : Python) : Reads (anthropicTimes py) (anthropicItem py) (anthropicMeaning py) where
  times := by
    intro raw lower upper
    simp only [anthropicTimes, Option.bind_eq_bind, Option.bind_eq_some_iff, members_eq_some, rfc3339_eq_some,
      Option.pure_def, Option.some.injEq, Prod.mk.injEq]
    constructor
    · rintro ⟨d, hraw, lower', ⟨m, hm, rfl⟩, upper', ⟨m', hm', rfl⟩, rfl, rfl⟩
      exact ⟨m, m', ⟨d, hraw, hm, hm'⟩, rfl, rfl⟩
    · rintro ⟨m, m', ⟨d, hraw, hm, hm'⟩, rfl, rfl⟩
      exact ⟨d, hraw, _, ⟨m, hm, rfl⟩, _, ⟨m', hm', rfl⟩, rfl, rfl⟩
  cost := by
    intro raw x
    constructor
    · intro h
      unfold anthropicItem at h
      split at h
      · exact absurd h nofun
      · next cents hcents =>
        obtain ⟨d, rfl, hd⟩ := anthropicCents_eq_some.mp hcents
        split at h
        · exact absurd h nofun
        · next dollars hdollars =>
          split at h
          · next item hitem =>
            rw [Except.ok.inj h] at hitem
            obtain ⟨rfl, htexts⟩ := anthropicTexts_eq_some.mp hitem
            exact ⟨d, cents, rfl, hd, hdollars, htexts⟩
          · exact absurd h nofun
    · rintro ⟨d, cents, rfl, hd, hdollars, htexts⟩
      unfold anthropicItem
      rw [anthropicCents_eq_some.mpr ⟨d, rfl, hd⟩]
      dsimp only
      rw [hdollars]
      dsimp only
      rw [anthropicTexts_eq_some.mpr ⟨rfl, htexts⟩]
  overflows := by
    intro raw
    constructor
    · intro h
      unfold anthropicItem at h
      split at h
      · exact absurd h nofun
      · next cents hcents =>
        obtain ⟨d, hraw, hd⟩ := anthropicCents_eq_some.mp hcents
        split at h
        · next hnone => exact ⟨d, cents, hraw, hd, hnone⟩
        · split at h
          · exact absurd h nofun
          · exact absurd h nofun
    · rintro ⟨d, cents, hraw, hd, hnone⟩
      unfold anthropicItem
      rw [anthropicCents_eq_some.mpr ⟨d, hraw, hd⟩]
      dsimp only
      rw [hnone]
  recursion := by
    intro raw h
    unfold anthropicItem at h
    split at h
    · exact absurd h nofun
    · split at h
      · exact absurd h nofun
      · split at h
        · exact absurd h nofun
        · exact absurd h nofun

section Bucket

variable {times : Value → Option (ℤ × ℤ)} {item : Value → Except Raised Item} {m : Meaning} {start stop : ℤ}
  {raw : Value}

/-- All results of a bucket are read where they are costs. -/
theorem Reads.readAll_eq_ok (h : Reads times item m) {rs : List Value} {items : List Item} :
    readAll item rs = .ok items ↔ List.Forall₂ m.cost rs items := by
  have hcost : (fun x y => item x = .ok y) = m.cost := by
    funext x y
    exact propext h.cost
  rw [ProviderCosts.readAll_eq_ok, hcost]

/-- A bucket is read where it is a day of the window. -/
theorem Reads.bucket_eq_ok (h : Reads times item m) {b : Bucket} :
    bucket times item start stop raw = .ok b ↔ Day m start stop raw b := by
  constructor
  · intro hok
    unfold bucket at hok
    split at hok
    · exact absurd hok nofun
    · next lower upper htimes =>
      split at hok
      · next hbounds =>
        split at hok
        · exact absurd hok nofun
        · next rs hrs =>
          split at hok
          · exact absurd hok nofun
          · next items hitems =>
            unfold dayBucket at hok
            split at hok
            · next total htotal =>
              rw [← Except.ok.inj hok]
              exact ⟨h.times.mp htimes, checkedBounds_iff.mp hbounds,
                ⟨rs, results_eq_some.mp hrs, h.readAll_eq_ok.mp hitems⟩, htotal⟩
            · exact absurd hok nofun
      · exact absurd hok nofun
  · rintro ⟨htimes, hwhole, ⟨rs, hrs, hcosts⟩, htotal⟩
    unfold bucket
    rw [h.times.mpr htimes]
    dsimp only
    rw [if_pos (checkedBounds_iff.mpr hwhole), results_eq_some.mpr hrs]
    dsimp only
    rw [h.readAll_eq_ok.mpr hcosts]
    unfold dayBucket
    dsimp only
    rw [htotal]

/-- It overflows where the day does. -/
theorem Reads.bucket_overflow (h : Reads times item m) :
    bucket times item start stop raw = .error .overflow ↔ DayOverflows m start stop raw := by
  constructor
  · intro hover
    unfold bucket at hover
    split at hover
    · exact absurd hover nofun
    · next lower upper htimes =>
      split at hover
      · next hbounds =>
        split at hover
        · exact absurd hover nofun
        · next rs hrs =>
          refine ⟨lower, upper, rs, h.times.mp htimes, checkedBounds_iff.mp hbounds, results_eq_some.mp hrs, ?_⟩
          split at hover
          · next e hitems =>
            rw [Except.error.inj hover] at hitems
            obtain ⟨pre, r, post, items, hsplit, hpre, hr⟩ := readAll_eq_error.mp hitems
            exact .inl ⟨pre, r, post, items, hsplit, h.readAll_eq_ok.mp (ProviderCosts.readAll_eq_ok.mpr hpre),
              h.overflows.mp hr⟩
          · next items hitems =>
            unfold dayBucket at hover
            split at hover
            · exact absurd hover nofun
            · next htotal => exact .inr ⟨items, h.readAll_eq_ok.mp hitems, htotal⟩
      · exact absurd hover nofun
  · rintro ⟨lower, upper, rs, htimes, hwhole, hrs, hover⟩
    unfold bucket
    rw [h.times.mpr htimes]
    dsimp only
    rw [if_pos (checkedBounds_iff.mpr hwhole), results_eq_some.mpr hrs]
    dsimp only
    rcases hover with ⟨pre, r, post, items, hsplit, hpre, hr⟩ | ⟨items, hcosts, htotal⟩
    · rw [readAll_eq_error.mpr ⟨pre, r, post, items, hsplit,
        ProviderCosts.readAll_eq_ok.mp (h.readAll_eq_ok.mpr hpre), h.overflows.mpr hr⟩]
    · rw [h.readAll_eq_ok.mpr hcosts]
      unfold dayBucket
      dsimp only
      rw [htotal]

/-- Nothing nests in a bucket that has been read. -/
theorem Reads.bucket_ne_recursion (h : Reads times item m) :
    bucket times item start stop raw ≠ .error .recursion := by
  intro hrec
  unfold bucket at hrec
  split at hrec
  · exact absurd hrec nofun
  · split at hrec
    · split at hrec
      · exact absurd hrec nofun
      · split at hrec
        · next e hitems =>
          rw [Except.error.inj hrec] at hitems
          obtain ⟨pre, r, post, items, -, -, hr⟩ := readAll_eq_error.mp hitems
          exact h.recursion hr
        · unfold dayBucket at hrec
          split at hrec
          · exact absurd hrec nofun
          · exact absurd hrec nofun
    · exact absurd hrec nofun

end Bucket

end JobScripts.Billing.ProviderCosts

import JobScripts.Billing.ProviderCosts.Buckets

/-!
# Pages are read

A page is read where each of its buckets is a day and none of them has been there. Turn after turn, `_fetch` is where
the pages lead.
-/

namespace JobScripts.Billing.ProviderCosts

open Lib Lib.Loads Lib.Dumps Lib.Decimals

/-! ## A page is read -/

/-- What has been read, by the days and the cursors so far. -/
def Pages.of (daily : List Bucket) (cursors : List Text) : Pages :=
  ⟨daily, (daily.map Bucket.start_time).reverse, cursors, cursors.head?⟩

/-- A page is one that has the members. -/
theorem pageOf_eq_some {object : Option String} {v : Value} {page : Page} :
    pageOf object v = some page ↔ IsPage object v page := by
  obtain ⟨data, more, next⟩ := page
  have hobject : ∀ d, (object.all fun o => isText o (get "object" d)) = true ↔
      ∀ o ∈ object, get "object" d = .str (codes o) := by
    intro d
    cases object with
    | none => simp
    | some o => simpa using isText_iff
  unfold pageOf IsPage
  rcases hd : members v with _ | d
  · refine iff_of_false nofun ?_
    rintro ⟨d, h, -⟩
    exact absurd (hd.symm.trans (members_eq_some.mpr h)) nofun
  · have hv := members_eq_some.mp hd
    constructor
    · intro h
      obtain ⟨d', hmembers, h⟩ := Option.bind_eq_some_iff.mp h
      obtain rfl := Option.some.inj hmembers
      obtain ⟨u, hguard, h⟩ := Option.bind_eq_some_iff.mp h
      have hall := (hobject _).mp (by simpa using hguard)
      split at h
      · next data' more' hdata hmore =>
        obtain ⟨⟩ := h
        exact ⟨d, hv, hall, hdata, hmore, rfl⟩
      · exact absurd h nofun
    · rintro ⟨d', h, hall, hdata, hmore, hnext⟩
      obtain ⟨⟩ := hv.symm.trans h
      simp only at hdata hmore hnext
      simp [hdata, hmore, hnext, (hobject d).mpr hall]

/-- The cursor of a page that is not the last is a new one. -/
theorem cursorOf_eq_some {page : Page} {cursors : List Text} {cursor : Text} :
    cursorOf page cursors = some cursor ↔
      page.next_page = .str cursor ∧ page.data ≠ [] ∧ cursor ≠ [] ∧ cursor ∉ cursors := by
  unfold cursorOf
  split
  · next t ht =>
    rw [ht, Value.str.injEq]
    constructor
    · intro h
      split at h
      · exact absurd h nofun
      · next hnew =>
        obtain rfl := Option.some.inj h
        simpa [not_or, and_assoc] using hnew
    · rintro ⟨rfl, hdata, hcursor, hnew⟩
      apply if_neg
      simp [hdata, hcursor, hnew]
  · next hne => exact iff_of_false nofun fun h => hne cursor h.1

section ReadBuckets

variable {read : Value → Except Raised Bucket} {cursors : List Text}

/-- One day more. -/
theorem Pages.of_snoc (daily : List Bucket) (b : Bucket) (cursors : List Text) :
    { Pages.of daily cursors with
      daily := (Pages.of daily cursors).daily ++ [b]
      seen_days := b.start_time :: (Pages.of daily cursors).seen_days } = Pages.of (daily ++ [b]) cursors := by
  unfold Pages.of
  rw [List.map_append, List.reverse_append]
  rfl

/-- A day is seen where it has come. -/
theorem Pages.mem_seen_days {daily : List Bucket} {day : ℤ} :
    day ∈ (Pages.of daily cursors).seen_days ↔ day ∈ daily.map Bucket.start_time := List.mem_reverse

/-- A day more is one that has not come. -/
theorem distinct_snoc {daily : List Bucket} {b : Bucket} :
    Distinct (daily ++ [b]) ↔ Distinct daily ∧ b.start_time ∉ daily.map Bucket.start_time := by
  unfold Distinct
  rw [List.map_append, List.nodup_append_comm]
  exact List.nodup_cons.trans and_comm

/-- Of distinct days the first ones are. -/
theorem Distinct.left {daily bs : List Bucket} (h : Distinct (daily ++ bs)) : Distinct daily := by
  unfold Distinct at h ⊢
  rw [List.map_append] at h
  exact h.of_append_left

/-- All buckets are read where each is, and no day comes twice. -/
theorem readBuckets_eq_ok {data : List Value} {s : Pages} : ∀ {daily : List Bucket}, Distinct daily →
    (readBuckets read data (Pages.of daily cursors) = .ok s ↔
      ∃ bs, List.Forall₂ (fun raw b => read raw = .ok b) data bs ∧ Distinct (daily ++ bs) ∧
        s = Pages.of (daily ++ bs) cursors) := by
  induction data generalizing s with
  | nil =>
    intro daily hdaily
    rw [readBuckets, Except.ok.injEq]
    constructor
    · rintro rfl
      exact ⟨[], .nil, by rwa [List.append_nil], by rw [List.append_nil]⟩
    · rintro ⟨bs, hbs, -, rfl⟩
      rw [List.forall₂_nil_left_iff.mp hbs, List.append_nil]
  | cons raw rest ih =>
    intro daily hdaily
    rw [readBuckets]
    constructor
    · intro h
      split at h
      · exact absurd h nofun
      · next b hb =>
        split at h
        · exact absurd h nofun
        · next hseen =>
          have hdistinct : Distinct (daily ++ [b]) := distinct_snoc.mpr ⟨hdaily, mt Pages.mem_seen_days.mpr hseen⟩
          rw [Pages.of_snoc] at h
          obtain ⟨bs, hbs, hall, rfl⟩ := (ih hdistinct).mp h
          rw [List.append_assoc, List.singleton_append] at hall ⊢
          exact ⟨b :: bs, .cons hb hbs, hall, rfl⟩
    · rintro ⟨bs, hbs, hall, rfl⟩
      obtain ⟨b, tail, hb, htail, rfl⟩ := List.forall₂_cons_left_iff.mp hbs
      rw [← List.singleton_append, ← List.append_assoc] at hall ⊢
      have hdistinct : Distinct (daily ++ [b]) := hall.left
      have hseen : b.start_time ∉ (Pages.of daily cursors).seen_days :=
        mt Pages.mem_seen_days.mp (distinct_snoc.mp hdistinct).2
      rw [hb]
      dsimp only
      rw [if_neg hseen, Pages.of_snoc]
      exact (ih hdistinct).mpr ⟨tail, htail, hall, rfl⟩

/-- What else than a value is raised of a page is raised of a bucket that all is in order before. -/
theorem readBuckets_eq_error {data : List Value} {e : Raised} (he : e ≠ .invalid) : ∀ {daily : List Bucket},
    Distinct daily →
    (readBuckets read data (Pages.of daily cursors) = .error e ↔
      ∃ pre raw post bs, data = pre ++ raw :: post ∧ List.Forall₂ (fun raw b => read raw = .ok b) pre bs ∧
        Distinct (daily ++ bs) ∧ read raw = .error e) := by
  induction data with
  | nil =>
    intro daily hdaily
    refine iff_of_false nofun ?_
    rintro ⟨pre, raw, post, bs, h, -⟩
    exact List.append_ne_nil_of_right_ne_nil pre (List.cons_ne_nil raw post) h.symm
  | cons raw rest ih =>
    intro daily hdaily
    rw [readBuckets]
    constructor
    · intro h
      split at h
      · next e' hraw =>
        rw [Except.error.inj h] at hraw
        exact ⟨[], raw, rest, [], rfl, .nil, by rwa [List.append_nil], hraw⟩
      · next b hb =>
        split at h
        · exact absurd (Except.error.inj h).symm he
        · next hseen =>
          have hdistinct : Distinct (daily ++ [b]) := distinct_snoc.mpr ⟨hdaily, mt Pages.mem_seen_days.mpr hseen⟩
          rw [Pages.of_snoc] at h
          obtain ⟨pre, raw', post, bs, rfl, hpre, hall, hraw⟩ := (ih hdistinct).mp h
          rw [List.append_assoc, List.singleton_append] at hall
          exact ⟨raw :: pre, raw', post, b :: bs, rfl, .cons hb hpre, hall, hraw⟩
    · rintro ⟨pre, raw', post, bs, h, hpre, hall, hraw⟩
      cases pre with
      | nil =>
        obtain ⟨rfl, rfl⟩ := List.cons.inj h
        rw [hraw]
      | cons w pre =>
        obtain ⟨rfl, rfl⟩ := List.cons.inj h
        obtain ⟨b, tail, hb, htail, rfl⟩ := List.forall₂_cons_left_iff.mp hpre
        rw [← List.singleton_append, ← List.append_assoc] at hall
        have hdistinct : Distinct (daily ++ [b]) := hall.left
        have hseen : b.start_time ∉ (Pages.of daily cursors).seen_days :=
          mt Pages.mem_seen_days.mp (distinct_snoc.mp hdistinct).2
        rw [hb]
        dsimp only
        rw [if_neg hseen, Pages.of_snoc]
        exact (ih hdistinct).mpr ⟨pre, raw', post, tail, rfl, htail, hall, hraw⟩

end ReadBuckets

/-! ## A turn -/

namespace Input

variable {x : Input} {k : ℕ} {daily : List Bucket} {cursors : List Text}

/-- The provider's buckets are read as what they mean. -/
theorem bucket_eq_ok {raw : Value} {b : Bucket} : x.format.bucket raw = .ok b ↔ x.ReadsDay raw b := by
  unfold format ReadsDay meaning
  cases x.provider with
  | openai => exact (reads_openai x.py x.projects).bucket_eq_ok
  | anthropic => exact (reads_anthropic x.py).bucket_eq_ok

/-- They overflow where the days do. -/
theorem bucket_overflow {raw : Value} :
    x.format.bucket raw = .error .overflow ↔ DayOverflows x.meaning x.start x.stop raw := by
  unfold format meaning
  cases x.provider with
  | openai => exact (reads_openai x.py x.projects).bucket_overflow
  | anthropic => exact (reads_anthropic x.py).bucket_overflow

/-- They do not nest. -/
theorem bucket_ne_recursion {raw : Value} : x.format.bucket raw ≠ .error .recursion := by
  unfold format
  cases x.provider with
  | openai => exact (reads_openai x.py x.projects).bucket_ne_recursion
  | anthropic => exact (reads_anthropic x.py).bucket_ne_recursion

/-- Days are read in a page where its buckets are days. -/
theorem forall₂_readsDay {data : List Value} {bs : List Bucket} :
    List.Forall₂ (fun raw b => x.format.bucket raw = .ok b) data bs ↔ List.Forall₂ x.ReadsDay data bs := by
  have hday : (fun raw b => x.format.bucket raw = .ok b) = x.ReadsDay := by
    funext raw b
    exact propext bucket_eq_ok
  rw [hday]

/-- The days that lead on are distinct. -/
theorem Leads.distinct_daily (h : x.Leads x.ReadsDay k daily cursors) : Distinct daily := by
  cases h with
  | start => exact List.nodup_nil
  | next before answered more days distinct => exact distinct

/-- What a turn in time makes of what has been read so far. -/
def turn (x : Input) (k : ℕ) (s : Pages) : Except Stop (List Bucket ⊕ Pages) :=
  readAnswer x.py x.format s (x.turns k).answer

section Turn

variable {status : ℕ} {text : Text} {s : Pages}

/-- What is made of a page's text. -/
theorem readPage_of_isPage {v : Value} {page : Page} (hv : x.py.loads text = .ok v)
    (hpage : IsPage x.format.page_object v page) :
    readPage x.py x.format text s =
      match readBuckets x.format.bucket page.data s with
      | .error e => .error e
      | .ok s =>
        if page.more then
          match cursorOf page s.cursors with
          | none => .error .invalid
          | some cursor =>
            .ok (.inr
              { s with
                cursors := cursor :: s.cursors
                page := some cursor })
        else .ok (.inl (sortedDays s.daily)) := by
  unfold readPage
  rw [hv]
  dsimp only
  rewrite [pageOf_eq_some.mpr hpage]
  rfl

/-- What comes of a text is what is made of it, but for what is caught. -/
theorem turn_of_text (hanswer : (x.turns k).answer = .response 200 text) :
    x.turn k s =
      match readPage x.py x.format text s with
      | .error .invalid => .error (.unavailable .INVALID_RESPONSE)
      | .error e => .error (.raised e)
      | .ok r => .ok r := by
  unfold turn readAnswer
  rw [hanswer]
  exact if_neg (not_not_intro rfl)

/-- A text that nests too deep raises. -/
theorem turn_deep (hanswer : (x.turns k).answer = .response 200 text) (hdeep : x.py.loads text = .error .recursion) :
    x.turn k s = .error (.raised .recursion) := by
  have hpage : readPage x.py x.format text s = .error .recursion := by
    unfold readPage
    rw [hdeep]
  rw [turn_of_text hanswer, hpage]

/-- A day that is too large raises. -/
theorem turn_overflow {page : Page} {pre post : List Value} {raw : Value} {bs : List Bucket}
    (hleads : x.Leads x.ReadsDay k daily cursors) (hpage : x.PageAt k page) (hdata : page.data = pre ++ raw :: post)
    (hdays : List.Forall₂ x.ReadsDay pre bs) (hdistinct : Distinct (daily ++ bs))
    (hover : DayOverflows x.meaning x.start x.stop raw) :
    x.turn k (Pages.of daily cursors) = .error (.raised .overflow) := by
  obtain ⟨-, text, v, hanswer, hv, hpage⟩ := hpage
  have hcaught : Raised.overflow ≠ .invalid := by decide
  have hbuckets : readBuckets x.format.bucket page.data (Pages.of daily cursors) = .error .overflow :=
    (readBuckets_eq_error hcaught hleads.distinct_daily).mpr
      ⟨pre, raw, post, bs, hdata, forall₂_readsDay.mpr hdays, hdistinct, bucket_overflow.mpr hover⟩
  rw [turn_of_text hanswer, readPage_of_isPage hv hpage, hbuckets]

/-- A page of new days is read. -/
theorem readBuckets_of_days {data : List Value} {bs : List Bucket} (hleads : x.Leads x.ReadsDay k daily cursors)
    (hdays : List.Forall₂ x.ReadsDay data bs) (hdistinct : Distinct (daily ++ bs)) :
    readBuckets x.format.bucket data (Pages.of daily cursors) = .ok (Pages.of (daily ++ bs) cursors) :=
  (readBuckets_eq_ok hleads.distinct_daily).mpr ⟨bs, forall₂_readsDay.mpr hdays, hdistinct, rfl⟩

/-- The last page gives the bill. -/
theorem turn_last {page : Page} {bs : List Bucket} (hleads : x.Leads x.ReadsDay k daily cursors)
    (hpage : x.PageAt k page) (hmore : page.more = false) (hdays : List.Forall₂ x.ReadsDay page.data bs)
    (hdistinct : Distinct (daily ++ bs)) :
    x.turn k (Pages.of daily cursors) = .ok (.inl (sortedDays (daily ++ bs))) := by
  obtain ⟨-, text, v, hanswer, hv, hpage⟩ := hpage
  rw [turn_of_text hanswer, readPage_of_isPage hv hpage, readBuckets_of_days hleads hdays hdistinct]
  dsimp only
  rw [hmore]
  rfl

/-- Any other leads on. -/
theorem turn_next {page : Page} {bs : List Bucket} {cursor : Text} (hleads : x.Leads x.ReadsDay k daily cursors)
    (hpage : x.PageAt k page) (hmore : page.more = true) (hdays : List.Forall₂ x.ReadsDay page.data bs)
    (hdistinct : Distinct (daily ++ bs)) (hdata : page.data ≠ []) (hnext : page.next_page = .str cursor)
    (hcursor : cursor ≠ []) (hnew : cursor ∉ cursors) :
    x.turn k (Pages.of daily cursors) = .ok (.inr (Pages.of (daily ++ bs) (cursor :: cursors))) := by
  obtain ⟨-, text, v, hanswer, hv, hpage⟩ := hpage
  have hof : cursorOf page (Pages.of (daily ++ bs) cursors).cursors = some cursor :=
    cursorOf_eq_some.mpr ⟨hnext, hdata, hcursor, hnew⟩
  rw [turn_of_text hanswer, readPage_of_isPage hv hpage, readBuckets_of_days hleads hdays hdistinct]
  dsimp only
  rw [hmore, if_pos rfl, hof]
  rfl

end Turn

end Input

/-! ## Turn after turn -/

namespace Input

variable {x : Input} {k left : ℕ} {daily : List Bucket} {cursors : List Text}

/-- What a turn in time comes to: the last page, a page that leads on, no bill, or what raises. -/
theorem turn_cases (hleads : x.Leads x.ReadsDay k daily cursors) (htime : 0 < (x.turns k).remaining) :
    (∃ page bill, x.Answers x.ReadsDay k page bill ∧
      x.turn k (Pages.of daily cursors) = .ok (.inl (sortedDays bill))) ∨
    (∃ daily' cursors', x.Leads x.ReadsDay (k + 1) daily' cursors' ∧
      x.turn k (Pages.of daily cursors) = .ok (.inr (Pages.of daily' cursors'))) ∨
    (∃ reason, x.turn k (Pages.of daily cursors) = .error (.unavailable reason)) ∨
    (∃ text, (x.turns k).answer = .response 200 text ∧ x.py.loads text = .error .recursion) ∨
    ∃ page pre raw post bs, x.PageAt k page ∧ page.data = pre ++ raw :: post ∧ List.Forall₂ x.ReadsDay pre bs ∧
      Distinct (daily ++ bs) ∧ DayOverflows x.meaning x.start x.stop raw := by
  have hinvalid : ∀ {text}, (x.turns k).answer = .response 200 text →
      readPage x.py x.format text (Pages.of daily cursors) = .error .invalid →
      ∃ reason, x.turn k (Pages.of daily cursors) = .error (.unavailable reason) := by
    intro text hanswer hpage
    exact ⟨.INVALID_RESPONSE, by rw [turn_of_text hanswer, hpage]⟩
  rcases hanswer : (x.turns k).answer with _ | ⟨status, text⟩
  · refine .inr (.inr (.inl ⟨.REQUEST_FAILED, ?_⟩))
    unfold turn readAnswer
    rw [hanswer]
  · by_cases hstatus : status = 200
    · subst hstatus
      rcases hv : x.py.loads text with (_ | _) | v
      · refine .inr (.inr (.inl (hinvalid hanswer ?_)))
        unfold readPage
        rw [hv]
      · exact .inr (.inr (.inr (.inl ⟨text, rfl, hv⟩)))
      · rcases hpage : pageOf x.format.page_object v with _ | page
        · refine .inr (.inr (.inl (hinvalid hanswer ?_)))
          unfold readPage
          rw [hv]
          dsimp only
          rw [hpage]
        · have hispage := pageOf_eq_some.mp hpage
          have hat : x.PageAt k page := ⟨htime, text, v, hanswer, hv, hispage⟩
          rcases hbuckets : readBuckets x.format.bucket page.data (Pages.of daily cursors) with e | s
          · cases e with
            | invalid =>
              refine .inr (.inr (.inl (hinvalid hanswer ?_)))
              rw [readPage_of_isPage hv hispage, hbuckets]
            | overflow =>
              obtain ⟨pre, raw, post, bs, hdata, hpre, hdistinct, hraw⟩ :=
                (readBuckets_eq_error (by decide) hleads.distinct_daily).mp hbuckets
              exact .inr (.inr (.inr (.inr ⟨page, pre, raw, post, bs, hat, hdata, forall₂_readsDay.mp hpre, hdistinct,
                bucket_overflow.mp hraw⟩)))
            | recursion =>
              obtain ⟨pre, raw, post, bs, -, -, -, hraw⟩ :=
                (readBuckets_eq_error (by decide) hleads.distinct_daily).mp hbuckets
              exact absurd hraw bucket_ne_recursion
          · obtain ⟨bs, hbs, hdistinct, rfl⟩ := (readBuckets_eq_ok hleads.distinct_daily).mp hbuckets
            have hdays := forall₂_readsDay.mp hbs
            rcases hmore : page.more with _ | _
            · exact .inl ⟨page, daily ++ bs, ⟨daily, bs, cursors, hleads, hat, hmore, hdays, hdistinct, rfl⟩,
                turn_last hleads hat hmore hdays hdistinct⟩
            · rcases hcursor : cursorOf page cursors with _ | cursor
              · refine .inr (.inr (.inl (hinvalid hanswer ?_)))
                have hof : cursorOf page (Pages.of (daily ++ bs) cursors).cursors = none := hcursor
                rw [readPage_of_isPage hv hispage, hbuckets]
                dsimp only
                rw [hmore, if_pos rfl, hof]
              · obtain ⟨hnext, hdata, hne, hnew⟩ := cursorOf_eq_some.mp hcursor
                exact .inr (.inl ⟨_, _, .next hleads hat hmore hdays hdistinct hdata hnext hne hnew,
                  turn_next hleads hat hmore hdays hdistinct hdata hnext hne hnew⟩)
    · refine .inr (.inr (.inl ⟨.REQUEST_FAILED, ?_⟩))
      unfold turn readAnswer
      rw [hanswer]
      exact if_pos hstatus

/-- The pages from a turn on. -/
def run (x : Input) (left k : ℕ) (s : Pages) : List (Option Text) × Except Stop (List Bucket) :=
  paginate x.py x.format x.turns left k s

/-- A turn in time, and those after it. -/
theorem run_succ {s : Pages} (htime : 0 < (x.turns k).remaining) :
    x.run (left + 1) k s =
      match x.turn k s with
      | .error e => ([s.page], .error e)
      | .ok (.inl bill) => ([s.page], .ok bill)
      | .ok (.inr s') => (s.page :: (x.run left (k + 1) s').1, (x.run left (k + 1) s').2) := by
  unfold run
  rw [paginate, if_neg (not_le.mpr htime)]
  rfl

/-- No more is asked than there are turns left. -/
theorem length_run_le : ∀ (left k : ℕ) (s : Pages), (x.run left k s).1.length ≤ left
  | 0, k, s => le_refl 0
  | left + 1, k, s => by
    by_cases htime : 0 < (x.turns k).remaining
    · rw [run_succ htime]
      split
      · exact Nat.succ_le_succ (Nat.zero_le left)
      · exact Nat.succ_le_succ (Nat.zero_le left)
      · exact Nat.succ_le_succ (length_run_le left (k + 1) _)
    · unfold run
      rw [paginate, if_pos (not_lt.mp htime)]
      exact Nat.zero_le _

/-- Where the pages lead, the run goes. -/
theorem run_leads (h : x.Leads x.ReadsDay k daily cursors) (left : ℕ) :
    (x.run (left + k) 0 Pages.none).2 = (x.run left k (Pages.of daily cursors)).2 := by
  induction h generalizing left with
  | start => rfl
  | @next k daily bs cursors page cursor before answered more days distinct data next_page nonempty new ih =>
    have hsucc : left + (k + 1) = left + 1 + k := by omega
    rw [hsucc, ih, run_succ answered.1, turn_next before answered more days distinct data next_page nonempty new]

/-- Within bounds a run comes to a whole bill, or to none. -/
theorem run_cases (hbounds : WithinBounds x) : ∀ {left k : ℕ} {daily : List Bucket} {cursors : List Text},
    x.Leads x.ReadsDay k daily cursors → left + k ≤ x.days.toNat →
    (∃ k' page bill, k' < x.days.toNat ∧ x.Answers x.ReadsDay k' page bill ∧
      (x.run left k (Pages.of daily cursors)).2 = .ok (sortedDays bill)) ∨
    ∃ reason, (x.run left k (Pages.of daily cursors)).2 = .error (.unavailable reason)
  | 0, k, daily, cursors, hleads, hleft => .inr ⟨.PAGINATION_LIMIT, rfl⟩
  | left + 1, k, daily, cursors, hleads, hleft => by
    have hk : k < x.days.toNat := by omega
    by_cases htime : 0 < (x.turns k).remaining
    · rw [run_succ htime]
      rcases turn_cases hleads htime with ⟨page, bill, hanswers, hturn⟩ | ⟨daily', cursors', hnext, hturn⟩ |
        ⟨reason, hturn⟩ | ⟨text, hanswer, hdeep⟩ | ⟨page, pre, raw, post, bs, hat, hdata, hpre, hdistinct, hover⟩
      · exact .inl ⟨k, page, bill, hk, hanswers, by rw [hturn]⟩
      · rw [hturn]
        exact run_cases hbounds hnext (by omega)
      · exact .inr ⟨reason, by rw [hturn]⟩
      · exact absurd hdeep (hbounds.shallow k daily cursors text hk hleads htime hanswer)
      · exact absurd hover (hbounds.days k daily cursors page pre raw post bs hk hleads hat hdata hpre hdistinct)
    · refine .inr ⟨.REQUEST_TIMEOUT, ?_⟩
      unfold run
      rw [paginate, if_pos (not_lt.mp htime)]

/-! ## How far the pages lead -/

/-- What is read of a page are days. -/
theorem readsDay_of_forall₂ {data : List Value} {bs : List Bucket} (h : List.Forall₂ x.ReadsDay data bs) :
    ∀ b ∈ bs, ∃ raw, x.ReadsDay raw b :=
  ((List.forall₂_and_left _ _).mp (h.flip.imp fun _ raw hday => ⟨⟨raw, hday⟩, hday⟩)).1

/-- So is what leads on, and there is a day for each page at least. -/
theorem Leads.readsDay (h : x.Leads x.ReadsDay k daily cursors) :
    (∀ b ∈ daily, ∃ raw, x.ReadsDay raw b) ∧ k ≤ daily.length := by
  induction h with
  | start => exact ⟨fun b hb => absurd hb List.not_mem_nil, le_refl 0⟩
  | next before answered more days distinct data next_page nonempty new ih =>
    refine ⟨fun b hb => ?_, ?_⟩
    · rcases List.mem_append.mp hb with hb | hb
      · exact ih.1 b hb
      · exact readsDay_of_forall₂ days b hb
    · have hlength := days.length_eq
      have hpos := List.length_pos_of_ne_nil data
      rw [List.length_append]
      omega

/-- A whole bill is of distinct days. -/
theorem Answers.readsDay {page : Page} {bill : List Bucket} (h : x.Answers x.ReadsDay k page bill) :
    Distinct bill ∧ ∀ b ∈ bill, ∃ raw, x.ReadsDay raw b := by
  obtain ⟨daily, bs, cursors, hleads, -, -, hdays, hdistinct, rfl⟩ := h
  refine ⟨hdistinct, fun b hb => ?_⟩
  rcases List.mem_append.mp hb with hb | hb
  · exact hleads.readsDay.1 b hb
  · exact readsDay_of_forall₂ hdays b hb

/-- There are no more days than the window has. -/
theorem length_le_days {bill : List Bucket} (hdistinct : Distinct bill)
    (hdays : ∀ b ∈ bill, ∃ raw, x.ReadsDay raw b) : bill.length ≤ x.days.toNat := by
  have hsubset : (bill.map Bucket.start_time).toFinset ⊆
      (Finset.range x.days.toNat).image fun i : ℕ => x.start + i * daySeconds := by
    intro day hday
    obtain ⟨b, hb, rfl⟩ := List.mem_map.mp (List.mem_toFinset.mp hday)
    obtain ⟨raw, hraw⟩ := hdays b hb
    obtain ⟨hstart, hstop, hend, hdvd⟩ := hraw.whole
    have hwindow : x.start = x.stop - x.days * daySeconds := rfl
    have hmidnight : daySeconds ∣ x.stop := Int.dvd_self_sub_emod
    obtain ⟨a, ha⟩ := hdvd
    obtain ⟨c, hc⟩ := hmidnight
    unfold daySeconds at *
    refine Finset.mem_image.mpr ⟨(a - (c - x.days)).toNat, Finset.mem_range.mpr ?_, ?_⟩
    · omega
    · omega
  calc bill.length = (bill.map Bucket.start_time).length := (List.length_map _).symm
    _ = (bill.map Bucket.start_time).toFinset.card := (List.toFinset_card_of_nodup hdistinct).symm
    _ ≤ ((Finset.range x.days.toNat).image fun i : ℕ => x.start + i * daySeconds).card := Finset.card_le_card hsubset
    _ ≤ (Finset.range x.days.toNat).card := Finset.card_image_le
    _ = x.days.toNat := Finset.card_range _

/-- A whole bill whose last page is not empty has no more pages than the window has days. -/
theorem Answers.lt_days {page : Page} {bill : List Bucket} (h : x.Answers x.ReadsDay k page bill)
    (hdata : page.data ≠ []) : k < x.days.toNat := by
  have hle := length_le_days h.readsDay.1 h.readsDay.2
  obtain ⟨daily, bs, cursors, hleads, -, -, hdays, -, rfl⟩ := h
  have hlength := hdays.length_eq
  have hpos := List.length_pos_of_ne_nil hdata
  have hk := hleads.readsDay.2
  rw [List.length_append] at hle
  omega

/-! ## Days from midnight to midnight -/

section Whole

variable {day day' : Value → Bucket → Prop} {k' : ℕ} {page page' p : Page} {bill bill' : List Bucket}

/-- A request is answered with one page at most. -/
theorem PageAt.unique (h : x.PageAt k page) (h' : x.PageAt k page') : page = page' := by
  obtain ⟨-, text, v, hanswer, hv, hpage⟩ := h
  obtain ⟨-, text', v', hanswer', hv', hpage'⟩ := h'
  obtain ⟨-, rfl⟩ := Answer.response.inj (hanswer.symm.trans hanswer')
  obtain rfl := Except.ok.inj (hv.symm.trans hv')
  exact Option.some.inj ((pageOf_eq_some.mpr hpage).symm.trans (pageOf_eq_some.mpr hpage'))

/-- Each page that leads on has more to come, and days. -/
theorem Leads.pages (h : x.Leads day k daily cursors) {j : ℕ} (hj : j < k) (hp : x.PageAt j p) :
    p.more = true ∧ ∀ raw ∈ p.data, ∃ b, day raw b := by
  induction h with
  | start => exact absurd hj (Nat.not_lt_zero j)
  | next before answered more days distinct data next_page nonempty new ih =>
    rcases Nat.lt_succ_iff_lt_or_eq.mp hj with hlt | rfl
    · exact ih hlt
    · obtain rfl := answered.unique hp
      exact ⟨more, ((List.forall₂_and_left _ _).mp (days.imp fun _ b hday => ⟨⟨b, hday⟩, hday⟩)).1⟩

/-- So has each page of a bill, but for the last, which ends it. -/
theorem Answers.pages (h : x.Answers day k page bill) {j : ℕ} (hj : j ≤ k) (hp : x.PageAt j p) :
    (p.more = true ↔ j < k) ∧ ∀ raw ∈ p.data, ∃ b, day raw b := by
  obtain ⟨daily, bs, cursors, hleads, hat, hmore, hdays, -, -⟩ := h
  rcases hj.lt_or_eq with hlt | rfl
  · obtain ⟨hpmore, hpdays⟩ := hleads.pages hlt hp
    exact ⟨iff_of_true hpmore hlt, hpdays⟩
  · obtain rfl := hat.unique hp
    refine ⟨iff_of_false (by rw [hmore]; exact Bool.false_ne_true) (lt_irrefl j), ?_⟩
    exact ((List.forall₂_and_left _ _).mp (hdays.imp fun _ b hday => ⟨⟨b, hday⟩, hday⟩)).1

/-- The last page is the first that ends a bill. -/
theorem Answers.unique (h : x.Answers day k page bill) (h' : x.Answers day' k' page' bill') : k = k' := by
  have hat := h
  have hat' := h'
  obtain ⟨-, -, -, -, hat, -⟩ := hat
  obtain ⟨-, -, -, -, hat', -⟩ := hat'
  rcases lt_trichotomy k k' with hlt | heq | hlt
  · exact absurd ((h.pages le_rfl hat).1.mp ((h'.pages hlt.le hat).1.mpr hlt)) (lt_irrefl k)
  · exact heq
  · exact absurd ((h'.pages le_rfl hat').1.mp ((h.pages hlt.le hat').1.mpr hlt)) (lt_irrefl k')

/-- Pages lead on with other days where their buckets are such days too. -/
theorem Leads.imp (h : x.Leads day k daily cursors)
    (himp : ∀ j < k, ∀ p, x.PageAt j p → ∀ raw ∈ p.data, ∀ b, day raw b → day' raw b) :
    x.Leads day' k daily cursors := by
  induction h with
  | start => exact .start
  | next before answered more days distinct data next_page nonempty new ih =>
    refine .next (ih fun j hj => himp j (Nat.lt_succ_of_lt hj)) answered more ?_ distinct data next_page nonempty new
    exact ((List.forall₂_and_left _ _).mpr ⟨himp _ (Nat.lt_succ_self _) _ answered, days⟩).imp
      fun _ b hday => hday.1 b hday.2

/-- So does a bill. -/
theorem Answers.imp (h : x.Answers day k page bill)
    (himp : ∀ j ≤ k, ∀ p, x.PageAt j p → ∀ raw ∈ p.data, ∀ b, day raw b → day' raw b) :
    x.Answers day' k page bill := by
  obtain ⟨daily, bs, cursors, hleads, hat, hmore, hdays, hdistinct, rfl⟩ := h
  refine ⟨daily, bs, cursors, hleads.imp fun j hj => himp j hj.le, hat, hmore, ?_, hdistinct, rfl⟩
  exact ((List.forall₂_and_left _ _).mpr ⟨himp k le_rfl _ hat, hdays⟩).imp fun _ b hday => hday.1 b hday.2

/-- A bill of days is read. -/
theorem Answers.readsDay_of_isDay (h : x.Answers x.IsDay k page bill) : x.Answers x.ReadsDay k page bill :=
  h.imp fun _ _ _ _ _ _ _ hday => hday.1

/-- A bucket has one start and one end. -/
theorem times_unique {raw : Value} {lower upper lower' upper' : ℤ} (h : x.meaning.times raw lower upper)
    (h' : x.meaning.times raw lower' upper') : lower = lower' ∧ upper = upper' := by
  unfold meaning at h h'
  cases hprovider : x.provider with
  | openai =>
    rw [hprovider] at h h'
    obtain ⟨d, a, b, rfl, -, ha, hb, rfl, rfl⟩ := h
    obtain ⟨d', a', b', hd, -, ha', hb', rfl, rfl⟩ := h'
    obtain rfl := Value.dict.inj hd
    rw [Value.int.inj (ha.symm.trans ha'), Value.int.inj (hb.symm.trans hb')]
    exact ⟨rfl, rfl⟩
  | anthropic =>
    have hutc : ∀ {v m m'}, Utc x.py v m → Utc x.py v m' → m = m' := by
      rintro v m m' ⟨t, rfl, hm⟩ ⟨t', ht, hm'⟩
      obtain rfl := Value.str.inj ht
      exact (Moment.mk.inj (Option.some.inj (hm.symm.trans hm'))).2
    rw [hprovider] at h h'
    obtain ⟨d, rfl, hlower, hupper⟩ := h
    obtain ⟨d', hd, hlower', hupper'⟩ := h'
    obtain rfl := Value.dict.inj hd
    exact ⟨hutc hlower hlower', hutc hupper hupper'⟩

/-- A bucket that reads as a day is one exactly where its times have no fraction of a second. -/
theorem isDay_iff {raw : Value} {b : Bucket} (h : x.ReadsDay raw b) :
    x.IsDay raw b ↔ ∀ lower upper, x.meaning.times raw lower upper → 1000000 ∣ lower ∧ 1000000 ∣ upper := by
  constructor
  · rintro ⟨-, htimes⟩ lower upper htimes'
    obtain ⟨rfl, rfl⟩ := times_unique htimes htimes'
    exact ⟨dvd_mul_left _ _, dvd_mul_left _ _⟩
  · intro hwhole
    obtain ⟨lower, upper, htimes, hlower, hupper⟩ := h.times
    obtain ⟨⟨a, rfl⟩, ⟨c, rfl⟩⟩ := hwhole lower upper htimes
    rw [mul_comm, seconds_mul] at hlower hupper
    refine ⟨h, ?_⟩
    rwa [← hlower, ← hupper, mul_comm a, mul_comm c]

/-- A bill that is read is one of days exactly where no time has a fraction of a second. -/
theorem Answers.isDay_iff (h : x.Answers x.ReadsDay k page bill) :
    x.Answers x.IsDay k page bill ↔ ∀ j ≤ k, ∀ p, x.PageAt j p →
      ∀ raw ∈ p.data, ∀ lower upper, x.meaning.times raw lower upper → 1000000 ∣ lower ∧ 1000000 ∣ upper := by
  constructor
  · intro hday j hj p hp raw hraw
    obtain ⟨b, hb⟩ := (hday.pages hj hp).2 raw hraw
    exact (Input.isDay_iff hb.1).mp hb
  · intro hwhole
    exact h.imp fun j hj p hp raw hraw b hb => (Input.isDay_iff hb).mpr (hwhole j hj p hp raw hraw)

end Whole

end Input

end JobScripts.Billing.ProviderCosts

import JobScripts.Catalog.Listings
import JobScripts.Lib.Upsert
import Mathlib.Data.Int.Notation

/-!
# What an upsert passes over

A pull writes the postings that it admits into `jobs` (`_upsert_batch` of `core/catalog/jobs.py`) and all
that the board listed into `listings` (`_RECORD_LISTINGS`). Both are upserts that pass over a row whose
update would write nothing new, by a `NOT EXISTS` that repeats the update's `SET` beside it. The two are
here as the text has them, each expression once for the filter and once for the update, and the filter is
shown to find exactly the rows that the update leaves as they are. So a pull leaves the rows that it
would leave without the filter, but for the `last_seen_at` of a listing that is fresh.
-/

namespace JobScripts.Catalog

open Lib

/-! ## `jobs` -/

namespace Jobs

/-- The columns of `jobs` that the upsert reads or writes. -/
structure Row where
  raw_url : String
  company : String
  title : String
  locations : List String
  terms : List String
  source : String
  available : Option Bool
  date_posted : Option ℤ

/-- A row of the upsert's `VALUES`. -/
structure Incoming where
  url : String
  raw_url : String
  company : String
  title : String
  locations : List String
  terms : List String
  source : String
  date_posted : Option ℤ

/-- The row that is inserted: available from the start. -/
def inserted (v : Incoming) : Row where
  raw_url := v.raw_url
  company := v.company
  title := v.title
  locations := v.locations
  terms := v.terms
  source := v.source
  available := some true
  date_posted := v.date_posted

/-- `DO UPDATE SET`: an upload is taken over, an empty company or title is filled, and the first date
stays. -/
def updated (v : Incoming) (j : Row) : Row :=
  { j with
    company := if (Sql.or (Sql.eq (some j.source) (some "upload")) (Sql.eq (some j.company) (some ""))).IsTrue
      then v.company else j.company
    title := if (Sql.or (Sql.eq (some j.source) (some "upload")) (Sql.eq (some j.title) (some ""))).IsTrue
      then v.title else j.title
    locations := v.locations
    terms := v.terms
    date_posted := j.date_posted.or v.date_posted
    source := if (Sql.eq (some j.source) (some "upload")).IsTrue then v.source else j.source }

/-- The `NOT EXISTS`: the tuple that it computes from the two rows is the stored row's. -/
def unchanged (v : Incoming) (j : Row) : Bool :=
  decide
    ((if (Sql.or (Sql.eq (some j.source) (some "upload")) (Sql.eq (some j.company) (some ""))).IsTrue
        then v.company else j.company,
      if (Sql.or (Sql.eq (some j.source) (some "upload")) (Sql.eq (some j.title) (some ""))).IsTrue
        then v.title else j.title,
      v.locations, v.terms, j.date_posted.or v.date_posted,
      if (Sql.eq (some j.source) (some "upload")).IsTrue then v.source else j.source) =
    (j.company, j.title, j.locations, j.terms, j.date_posted, j.source))

/-- The upsert of `jobs`. -/
def upsert : Upsert String Row Incoming := ⟨Incoming.url, inserted, updated⟩

/-- `_upsert_batch`, its rows in one transaction. -/
def upsertBatch (t : Table String Row) (batch : List Incoming) : Table String Row :=
  batch.foldl (upsert.applyUnless unchanged) t

/-- The filter finds the rows that the update leaves as they are. -/
theorem unchanged_iff (v : Incoming) (j : Row) : unchanged v j = true ↔ updated v j = j := by
  cases j
  simp only [unchanged, updated, decide_eq_true_eq, Prod.mk.injEq, Row.mk.injEq, true_and]
  constructor
  · rintro ⟨hcompany, htitle, hlocations, hterms, hdate, hsource⟩
    exact ⟨hcompany, htitle, hlocations, hterms, hsource, hdate⟩
  · rintro ⟨hcompany, htitle, hlocations, hterms, hsource, hdate⟩
    exact ⟨hcompany, htitle, hlocations, hterms, hdate, hsource⟩

end Jobs

/-! ## `listings` -/

namespace Listings

variable {V D : Type} [DecidableEq V] [DecidableEq D]

/-- The upsert of `listings` at a time. -/
def listingUpsert (cd : Coding V D) (now : ℕ) : Upsert String (Row V D) (Incoming V D) where
  key := fun e => e.posting.url
  insert := fun e => upsert cd now e none
  update := fun e l => upsert cd now e (some l)

/-- The rows that `record_listings` writes, in one transaction: those with a url, in url order. -/
def listingRows (es : List (Incoming V D)) : List (Incoming V D) :=
  (es.filter fun e => e.posting.url != "").mergeSort fun e e' => e.posting.url ≤ e'.posting.url

/-- `record_listings`: the listings of a pull are written, except where nothing would change. -/
def recordListings (cd : Coding V D) (now refresh_hours : ℕ) (t : Table String (Row V D))
    (es : List (Incoming V D)) : Table String (Row V D) :=
  (listingRows es).foldl ((listingUpsert cd now).applyUnless (unchanged cd now refresh_hours)) t

/-- The filter's test of a field is true exactly when the update leaves the field's four columns as they
are. -/
theorem kept_isTrue_iff (f : Field V) (e l : Columns V D) :
    (kept f e l).IsTrue ↔ setPayload f e l = l := by
  unfold setPayload
  by_cases hkept : (kept f e l).IsTrue
  · simp [hkept]
  · -- What is not kept is written, and it is not what is there: the test is true of equal columns.
    rw [if_neg hkept]
    refine iff_of_false hkept fun heq => hkept ?_
    subst heq
    unfold kept
    simp only [Sql.or_isTrue, Sql.and_isTrue, Sql.eq_isTrue, Sql.isNull_isTrue]
    cases hsha : e.sha256 with
    | none => exact .inr (.inr ⟨⟨rfl, rfl⟩, e.value, rfl, rfl⟩)
    | some d => exact .inl ⟨d, rfl, rfl⟩

/-- The filter finds the rows that are fresh and that the update leaves as they are but for
`last_seen_at`. -/
theorem unchanged_iff (cd : Coding V D) (now refresh_hours : ℕ) (e : Incoming V D) (l : Row V D) :
    unchanged cd now refresh_hours e l = true ↔
      now ≤ l.last_seen_at + 3600 * refresh_hours ∧
        upsert cd now e (some l) = { l with last_seen_at := now } := by
  obtain ⟨⟨source, company, title, locations, date_posted, pattern_id, kept'⟩, last_seen_at, description,
    raw⟩ := l
  obtain ⟨⟨url, ⟨source', company', title', locations', date_posted', pattern_id', kept''⟩, text, record⟩,
    description', raw'⟩ := e
  have hdate : (date_posted.isSome || date_posted'.isNone) = true ↔
      date_posted.or date_posted' = date_posted := by
    cases date_posted <;> cases date_posted' <;> simp
  unfold unchanged upsert
  simp only [Bool.and_eq_true, decide_eq_true_eq, hdate, kept_isTrue_iff, Listing.mk.injEq, Row.mk.injEq]
  constructor
  · rintro ⟨⟨⟨⟨⟨rfl, rfl, rfl, rfl, -, rfl, rfl⟩, hdate⟩, hdescription⟩, hraw⟩, hseen⟩
    exact ⟨hseen, ⟨rfl, rfl, rfl, rfl, hdate, rfl, rfl⟩, trivial, hdescription, hraw⟩
  · rintro ⟨hseen, ⟨rfl, rfl, rfl, rfl, hdate, rfl, rfl⟩, -, hdescription, hraw⟩
    exact ⟨⟨⟨⟨⟨rfl, rfl, rfl, rfl, trivial, rfl, rfl⟩, hdate⟩, hdescription⟩, hraw⟩, hseen⟩

/-- Two rows of a pull, one with the filter and one without: the same but for `last_seen_at`, which
differs only in a row that is fresh. -/
def SameButSeen (now refresh_hours : ℕ) (l l' : Row V D) : Prop :=
  { l with last_seen_at := now } = { l' with last_seen_at := now } ∧
    (l.last_seen_at = l'.last_seen_at ∨
      now ≤ l.last_seen_at + 3600 * refresh_hours ∧ l'.last_seen_at = now)

/-- The update reads no `last_seen_at`. -/
theorem upsert_congr (cd : Coding V D) (now : ℕ) (e : Incoming V D) {l l' : Row V D}
    (h : { l with last_seen_at := now } = { l' with last_seen_at := now }) :
    upsert cd now e (some l) = upsert cd now e (some l') := by
  obtain ⟨hlisting, -, hdescription, hraw⟩ := (Row.mk.injEq _ _ _ _ _ _ _ _).mp h
  simp only [upsert, hlisting, hdescription, hraw]

/-- A pull leaves the rows that it would leave without the filter. -/
theorem recordListings_rel (cd : Coding V D) (now refresh_hours : ℕ) (t : Table String (Row V D))
    (es : List (Incoming V D)) (url : String) :
    Option.Rel (SameButSeen now refresh_hours) ((recordListings cd now refresh_hours t es).get url)
      (((listingRows es).foldl (listingUpsert cd now).apply t).get url) := by
  refine Upsert.rel_applyAll (fun e => ⟨rfl, .inl rfl⟩) ?_ ?_ (fun k => ?_) _ url
  · rintro e l l' ⟨hsame, hseen⟩ hskip
    obtain ⟨hfresh, hupdate⟩ := (unchanged_iff cd now refresh_hours e l).mp hskip
    have hl' : upsert cd now e (some l') = { l with last_seen_at := now } :=
      (upsert_congr cd now e hsame.symm).trans hupdate
    show SameButSeen now refresh_hours l (upsert cd now e (some l'))
    rw [hl']
    exact ⟨rfl, .inr ⟨hfresh, rfl⟩⟩
  · rintro e l l' ⟨hsame, hseen⟩ -
    show SameButSeen now refresh_hours (upsert cd now e (some l)) (upsert cd now e (some l'))
    rw [upsert_congr cd now e hsame]
    exact ⟨rfl, .inl rfl⟩
  · cases t.get k with
    | none => exact .none
    | some l => exact .some ⟨rfl, .inl rfl⟩

end Listings

/-- The filter of `_RECORD_LISTINGS` passes over an incoming listing exactly when its row is there, was
seen within `refresh_hours`, and would be left by the update as it is but for `last_seen_at`; that of
`_upsert_batch` exactly when the row is there and the update would leave it as it is. So a pull through
either leaves the rows of an unconditional upsert, but for the `last_seen_at` of a listing that is
fresh. -/
theorem upsert_passes_over_unchanged {V D : Type} [DecidableEq V] [DecidableEq D]
    (cd : Listings.Coding V D) (now refresh_hours : ℕ) :
    (∀ (t : Table String (Listings.Row V D)) (e : Listings.Incoming V D),
      (t.get e.posting.url).any (Listings.unchanged cd now refresh_hours e) = true ↔
        ∃ l, t.get e.posting.url = some l ∧ now ≤ l.last_seen_at + 3600 * refresh_hours ∧
          Listings.upsert cd now e (some l) = { l with last_seen_at := now }) ∧
    (∀ (t : Table String Jobs.Row) (v : Jobs.Incoming),
      (t.get v.url).any (Jobs.unchanged v) = true ↔
        ∃ j, t.get v.url = some j ∧ Jobs.updated v j = j) ∧
    (∀ (t : Table String (Listings.Row V D)) (es : List (Listings.Incoming V D)) (url : String),
      Option.Rel (Listings.SameButSeen now refresh_hours)
        ((Listings.recordListings cd now refresh_hours t es).get url)
        (((Listings.listingRows es).foldl (Listings.listingUpsert cd now).apply t).get url)) ∧
    ∀ (t : Table String Jobs.Row) (batch : List Jobs.Incoming) (url : String),
      (Jobs.upsertBatch t batch).get url = (batch.foldl Jobs.upsert.apply t).get url := by
  refine ⟨fun t e => ?_, fun t v => ?_, Listings.recordListings_rel cd now refresh_hours, ?_⟩
  · simp only [Option.any_eq_true, Listings.unchanged_iff]
  · simp only [Option.any_eq_true, Jobs.unchanged_iff]
  · intro t batch url
    exact Upsert.get_applyAllUnless (fun v j => (Jobs.unchanged_iff v j).mp) t batch url

end JobScripts.Catalog

import Mathlib.Data.Nat.Notation
import Mathlib.Data.List.Basic
import JobScripts.Lib.Run
import JobScripts.Lib.Sql

/-!
# The text and the raw record of a listing

`core/catalog/listings.py` and `core/payloads/listings.py`. A listing keeps a description and a raw
record, each in four columns: the value itself, or its default with the digest of the value and the
digest and size of a bundle object that holds it. A pull uploads what it lists and upserts the rows in one
transaction (`record_listings`), writing inline what object storage refuses; `_externalize` and
`_restore` swap one shape for the other under a compare of the whole payload.

`Holds` says that four columns stand for a value. Every writer keeps it: the upsert takes a field's four
columns from the stored row when its three-valued test says that the value is kept, and from the incoming
row otherwise, and a migration writes another form of the value that it read. What a reader returns is
checked against the digest, so it is the value or nothing, whatever object storage holds
(`resolve_of_holds`). The main results are over any interleaving of pulls and migrations
(`listings_hold_last_written`).
-/

namespace JobScripts.Catalog.Listings

open Lib

/-! ## A field in four columns -/

/-- The four columns of a field. -/
@[ext]
structure Columns (V D : Type) where
  value : V
  sha256 : Option D
  object : Option D
  object_size : Option ℕ
  deriving DecidableEq

/-- What differs between the two fields: the column's default, whether an empty value says that the
listing did not carry one (`description`), and the values of the field's Python type. -/
structure Field (V : Type) where
  default : V
  optional : Bool
  typed : V → Bool

/-- What the code uses of a value's encoding and of its type: the digest of the encoding, whether there is
one (the value is finite JSON), its length, the defaults of the two columns, and the two types. -/
structure Coding (V D : Type) where
  digest : V → D
  finite : V → Bool
  size : V → ℕ
  emptyText : V
  emptyRecord : V
  isText : V → Bool
  isRecord : V → Bool

/-- The field `description`. -/
def Coding.description {V D : Type} (cd : Coding V D) : Field V := ⟨cd.emptyText, true, cd.isText⟩

/-- The field `raw`. -/
def Coding.raw {V D : Type} (cd : Coding V D) : Field V := ⟨cd.emptyRecord, false, cd.isRecord⟩

variable {V D : Type} [DecidableEq V] [DecidableEq D]

/-- The value says that the listing did not carry the field. -/
def Field.absent (f : Field V) (v : V) : Bool := f.optional && v == f.default

/-- A value held inline. -/
def Columns.inline (v : V) : Columns V D := ⟨v, none, none, none⟩

/-- The columns stand for the value: it is there with no reference, or the default is there with all three
reference columns, the digest being the value's. -/
def Holds (digest : V → D) (f : Field V) (c : Columns V D) (v : V) : Prop :=
  c = .inline v ∨
    f.absent v = false ∧ ∃ o n, c = ⟨f.default, some (digest v), some o, some n⟩

/-! ## Reading -/

/-- What object storage serves: a member of the bundle with a digest and a size, `none` when the bundle
cannot be read, fails its check or has no such member. -/
abbrev Store (V D : Type) := D → ℕ → D → Option V

/-- `PayloadStore.get_digest_member`; `none` is `PayloadUnavailable`. -/
def getDigestMember (digest : V → D) (store : Store V D) (bundle : D) (size : ℕ) (member : D) :
    Option V :=
  (store bundle size member).filter fun v => digest v == member

/-- One field of `resolve`. -/
def resolveField (digest : V → D) (f : Field V) (store : Store V D) (c : Columns V D) : Option V :=
  match c.object with
  | none => some c.value
  | some o =>
    match c.object_size, c.sha256 with
    | some n, some d => (getDigestMember digest store o n d).filter f.typed
    | _, _ => none

/-- A reader returns the value that the columns stand for, or raises. -/
theorem resolve_of_holds {digest : V → D} (hinj : Function.Injective digest) {f : Field V}
    {c : Columns V D} {v : V} (h : Holds digest f c v) (store : Store V D) :
    resolveField digest f store c = none ∨ resolveField digest f store c = some v := by
  rcases h with rfl | ⟨-, o, n, rfl⟩
  · exact .inr rfl
  · simp only [resolveField, getDigestMember]
    cases hm : store o n (digest v) with
    | none => exact .inl rfl
    | some w =>
      by_cases hd : digest w = digest v
      · -- The member passed the digest check, so it is the value.
        obtain rfl := hinj hd
        simp only [beq_self_eq_true, Option.filter_some, if_true]
        split
        · exact .inr rfl
        · exact .inl rfl
      · have hno : (digest w == digest v) = false := beq_eq_false_iff_ne.mpr hd
        rw [Option.filter_some, hno]
        exact .inl rfl

/-! ## The columns that a pull writes -/

/-- A bundle's digest and size. -/
abbrev Link (D : Type) := D × ℕ

/-- `BUNDLE_MAX_BYTES`: the size that a bundle of a batch may have. -/
def bundleMaxBytes : ℕ := 8 * 1024 * 1024

/-- `bundle_groups`: consecutive runs of items, each of at most `BUNDLE_MAX_BYTES` unless one item alone
is larger. The last group is open, with its total so far. -/
def bundleGroups {T : Type} (size : T → ℕ) (items : List T) : List (List T) :=
  let go := items.foldl (fun (groups, total) item =>
    if groups.isEmpty || total + size item > bundleMaxBytes then (groups ++ [[item]], size item)
    else (groups.dropLast ++ [groups.getLast?.getD [] ++ [item]], total + size item)) ([], 0)
  go.1

/-- Every item is in a bundle. -/
theorem flatten_bundleGroups {T : Type} (size : T → ℕ) (items : List T) :
    (bundleGroups size items).flatten = items := by
  unfold bundleGroups
  dsimp only
  -- What the groups so far hold, in order.
  have hfold : ∀ (items : List T) (groups : List (List T)) (total : ℕ),
      (items.foldl (fun (groups, total) item =>
        if groups.isEmpty || total + size item > bundleMaxBytes then (groups ++ [[item]], size item)
        else (groups.dropLast ++ [groups.getLast?.getD [] ++ [item]], total + size item))
        (groups, total)).1.flatten = groups.flatten ++ items := by
    intro items
    induction items with
    | nil => exact fun groups total => (List.append_nil _).symm
    | cons item rest ih =>
      intro groups total
      rw [List.foldl_cons]
      dsimp only
      split
      · rw [ih, List.flatten_append, List.append_assoc]
        rfl
      · next hopen =>
        rw [ih]
        rcases List.eq_nil_or_concat groups with rfl | ⟨front, last, rfl⟩
        · exact absurd rfl hopen
        · simp
  exact hfold items [] 0

/-- `put_values`: each value's bundle, `none` when one of the bundles cannot be stored and read back.
`put` is what object storage answers to each bundle. -/
def putValues (size : V → ℕ) (put : List (D × V) → Option (Link D)) (values : List (D × V)) :
    Option (List (D × Link D)) :=
  (bundleGroups (fun item => size item.2) values).foldr (fun group rest =>
    (put group).bind fun link => rest.map fun links => group.map (fun item => (item.1, link)) ++ links)
    (some [])

/-- The digest that `reference_columns` looks up for a value: none for an empty description, and none
for a value that is not finite JSON. -/
def Coding.digestOf (cd : Coding V D) (f : Field V) (v : V) : Option D :=
  if f.absent v || !cd.finite v then none else some (cd.digest v)

/-- The four columns of a value, given the bundles known for digests. -/
def Coding.columns (cd : Coding V D) (f : Field V) (links : List (D × Link D)) (v : V) : Columns V D :=
  match (cd.digestOf f v).bind fun d => (links.lookup d).map fun link => (d, link) with
  | some (d, link) => ⟨f.default, some d, some link.1, some link.2⟩
  | none => .inline v

/-- What a pull writes stands for the value, wherever it went. -/
theorem Coding.columns_holds (cd : Coding V D) (f : Field V) (links : List (D × Link D)) (v : V) :
    Holds cd.digest f (cd.columns f links v) v := by
  unfold Coding.columns
  split
  · next d link h =>
    obtain ⟨d', hd', hl⟩ := Option.bind_eq_some_iff.mp h
    obtain ⟨link', -, heq⟩ := Option.map_eq_some_iff.mp hl
    obtain ⟨rfl, rfl⟩ := Prod.mk.inj heq
    unfold Coding.digestOf at hd'
    split at hd'
    · contradiction
    · next hno =>
      obtain rfl := Option.some.inj hd'
      rw [Bool.not_eq_true, Bool.or_eq_false_iff] at hno
      exact .inr ⟨hno.1, _, _, rfl⟩
  · exact .inl rfl

/-! ## The three-valued test -/

/-- `_KEPT`: whether the value of the incoming columns `e` is what the stored columns `l` hold. The middle
disjunct is the description's: an empty one keeps the stored text. -/
def kept (f : Field V) (e l : Columns V D) : Sql.Truth :=
  Sql.or (Sql.eq e.sha256 l.sha256) <|
    Sql.or (Sql.and (Sql.isNull e.sha256) (some (f.absent e.value))) <|
      Sql.and (Sql.and (Sql.isNull e.sha256) (Sql.isNull l.sha256))
        (Sql.eq (some e.value) (some l.value))

/-- `_set_payload`: the four columns move together. -/
def setPayload (f : Field V) (e l : Columns V D) : Columns V D :=
  if (kept f e l).IsTrue then l else e

/-- The field's value after a pull: an empty description keeps the one before. -/
def Field.after (f : Field V) (old new : V) : V := if f.absent new then old else new

section Upsert

variable {digest : V → D} {f : Field V} {e l : Columns V D} {v w : V}

/-- A kept field holds the incoming value already, or the incoming value is an empty description. -/
theorem eq_of_kept (hinj : Function.Injective digest) (he : Holds digest f e w)
    (hl : Holds digest f l v) (h : (kept f e l).IsTrue) : f.after v w = v := by
  unfold kept at h
  simp only [Sql.or_isTrue, Sql.and_isTrue, Sql.eq_isTrue, Sql.isNull_isTrue] at h
  unfold Field.after
  split
  · rfl
  next hno =>
  rcases h with ⟨d, hed, hld⟩ | ⟨hnull, habs⟩ | ⟨⟨hen, hln⟩, x, hx, hy⟩
  · -- Equal digests: both are references, to one value.
    rcases he with rfl | ⟨-, o, n, rfl⟩
    · contradiction
    · rcases hl with rfl | ⟨-, o', n', rfl⟩
      · contradiction
      · exact hinj ((Option.some.inj hed).trans (Option.some.inj hld).symm)
  · -- The incoming columns hold an empty description.
    rcases he with rfl | ⟨-, o, n, rfl⟩
    · exact absurd (Option.some.inj habs) hno
    · contradiction
  · -- Both inline.
    rcases he with rfl | ⟨-, o, n, rfl⟩
    · rcases hl with rfl | ⟨-, o', n', rfl⟩
      · exact (Option.some.inj hx).trans (Option.some.inj hy).symm
      · contradiction
    · contradiction

/-- The incoming columns of a field that is not kept carry a value. -/
theorem not_absent_of_not_kept (he : e = .inline w ∨ f.absent w = false)
    (h : ¬ (kept f e l).IsTrue) : f.absent w = false := by
  rcases he with rfl | hno
  · by_contra habs
    rw [Bool.not_eq_false] at habs
    refine h ?_
    unfold kept
    simp only [Sql.or_isTrue, Sql.and_isTrue, Sql.isNull_isTrue]
    refine .inr (.inl ⟨rfl, ?_⟩)
    have hv : (Columns.inline w : Columns V D).value = w := rfl
    rw [hv, habs]
    rfl
  · exact hno

/-- The upsert of a field writes the value after the pull. -/
theorem setPayload_holds (hinj : Function.Injective digest) (he : Holds digest f e w)
    (hl : Holds digest f l v) : Holds digest f (setPayload f e l) (f.after v w) := by
  unfold setPayload
  split
  · next hk =>
    rw [eq_of_kept hinj he hl hk]
    exact hl
  · next hk =>
    have hno : f.absent w = false := by
      refine not_absent_of_not_kept (l := l) (e := e) ?_ hk
      rcases he with rfl | ⟨hno, -⟩
      · exact .inl rfl
      · exact .inr hno
    unfold Field.after
    rw [hno]
    exact he

end Upsert

/-! ## Rows and pulls -/

/-- The columns of a listing beside the payload. -/
structure Listing where
  source : String
  company : String
  title : String
  locations : List String
  date_posted : Option ℕ
  pattern_id : ℕ
  kept : Bool
  deriving DecidableEq

/-- A row of `listings`, with the time of its `last_seen_at`. -/
structure Row (V D : Type) where
  listing : Listing
  last_seen_at : ℕ
  description : Columns V D
  raw : Columns V D

/-- A posting that a pull listed. -/
structure Posting (V : Type) where
  url : String
  listing : Listing
  description : V
  raw : V

/-- A row of the upsert's `VALUES`: a posting with its eight payload columns. -/
structure Incoming (V D : Type) where
  posting : Posting V
  description : Columns V D
  raw : Columns V D

/-- What `_RECORD_LISTINGS` finds by its `NOT EXISTS`: the stored row would not change, and it was seen
within `refresh_hours`. -/
def unchanged (cd : Coding V D) (now refresh_hours : ℕ) (e : Incoming V D) (l : Row V D) : Bool :=
  decide ({ l.listing with date_posted := none } = { e.posting.listing with date_posted := none }) &&
    (l.listing.date_posted.isSome || e.posting.listing.date_posted.isNone) &&
    decide (kept cd.description e.description l.description).IsTrue &&
    decide (kept cd.raw e.raw l.raw).IsTrue && decide (now ≤ l.last_seen_at + 3600 * refresh_hours)

/-- The row that the upsert leaves. -/
def upsert (cd : Coding V D) (now : ℕ) (e : Incoming V D) : Option (Row V D) → Row V D
  | none => ⟨e.posting.listing, now, e.description, e.raw⟩
  | some l =>
    { listing := { e.posting.listing with
        date_posted := l.listing.date_posted.or e.posting.listing.date_posted }
      last_seen_at := now
      description := setPayload cd.description e.description l.description
      raw := setPayload cd.raw e.raw l.raw }

/-- A row that a pull has written in its open transaction, with the posting it is from. -/
structure Written (V D : Type) where
  posting : Posting V
  row : Row V D

/-- A row that a migration is about to swap: the payload that it read and the one it will write. -/
structure Swap (V D : Type) where
  url : String
  read : Columns V D × Columns V D
  write : Columns V D × Columns V D

/-- The payload of a row, which `_state` compares. -/
def Row.payload (row : Row V D) : Columns V D × Columns V D := (row.description, row.raw)

/-- The modes of `migrate` that write. -/
inductive Mode
  | externalize | restore

/-- A process between two statements. -/
inductive Proc (V D : Type)
  /-- `record_listings` with the bundles that stored rows name for digests. -/
  | linked (listed : List (Posting V)) (links : List (D × Link D))
  /-- In the transaction of the upserts: the rows to come, and those written. -/
  | upserting (listed : List (Posting V)) (todo : List (Incoming V D)) (written : List (Written V D))
  /-- The statement for the first row found it changed and waits for its lock. -/
  | changing (listed : List (Posting V)) (e : Incoming V D) (todo : List (Incoming V D))
      (written : List (Written V D))
  /-- A page of `migrate` with the rows that it read. -/
  | read (mode : Mode) (rows : List (String × Row V D))
  /-- The page in its transaction: the rows to lock, and those locked and found as they were. -/
  | locking (todo : List (Swap V D)) (locked : List (Swap V D))

/-- The rows, the locks and the processes. Known to the proofs only are the description and the raw record
of every posting that a committed pull wrote, and of every posting of a committed pull, by url and in
order of commit. -/
structure State (V D : Type) where
  rows : String → Option (Row V D)
  locks : String → Option ℕ
  procs : ℕ → Option (Proc V D)
  wrote : String → List (V × V)
  pulled : String → List (V × V)

/-- What the pull's own transaction sees of a row: what it wrote itself, else what is committed. -/
def view (written : List (Written V D)) (rows : String → Option (Row V D)) (url : String) :
    Option (Row V D) :=
  ((written.reverse.find? fun w => w.posting.url == url).map Written.row).or (rows url)

/-- The payloads of the postings with a url. -/
def payloadsOf (url : String) (ps : List (Posting V)) : List (V × V) :=
  (ps.filter fun p => p.url == url).map fun p => (p.description, p.raw)

/-- The rows that a process holds locked. -/
def Proc.holds : Proc V D → String → Bool
  | .upserting _ _ written, url | .changing _ _ _ written, url =>
    written.any fun w => w.posting.url == url
  | .locking _ locked, url => locked.any fun w => w.url == url
  | _, _ => false

/-- A process goes on as `proc`, with the locks that it holds there. -/
def State.move (s : State V D) (k : ℕ) (proc : Option (Proc V D)) : State V D :=
  { s with
    locks := fun url =>
      if proc.any fun p => p.holds url then some k
      else if s.locks url = some k then none else s.locks url
    procs := Function.update s.procs k proc }

/-- The bundles that `reference_columns` reads off the stored rows of the pull's urls. -/
def State.links (s : State V D) (urls : List String) : List (D × Link D) :=
  (urls.filterMap s.rows).reverse.flatMap fun row => [row.raw, row.description].filterMap fun c =>
    c.sha256.bind fun d => c.object.bind fun o => c.object_size.map fun n => (d, (o, n))

/-- The values of a pull that no known bundle holds, by digest. -/
def Coding.missing (cd : Coding V D) (links : List (D × Link D)) (listed : List (Posting V)) :
    List (D × V) :=
  let values := listed.flatMap fun p =>
    [(cd.digestOf cd.description p.description, p.description), (cd.digestOf cd.raw p.raw, p.raw)]
  values.foldl (fun missing (digest, v) =>
    match digest with
    | some d => if (links.lookup d).isSome || (missing.lookup d).isSome then missing
        else missing ++ [(d, v)]
    | none => missing) []

/-- `reference_columns` after its upload: when object storage fails, the values that no stored row
references go inline. -/
def Coding.incoming (cd : Coding V D) (put : List (D × V) → Option (Link D))
    (links : List (D × Link D)) (listed : List (Posting V)) : List (Incoming V D) :=
  let uploaded := (putValues cd.size put (cd.missing links listed)).getD []
  listed.map fun p => ⟨p, cd.columns cd.description (uploaded ++ links) p.description,
    cd.columns cd.raw (uploaded ++ links) p.raw⟩

/-- The inline fields of a row that `_externalize` swaps. -/
def inlineField (f : Field V) (c : Columns V D) : Bool := c.object.isNone && !f.absent c.value

/-- What `_externalize` writes for a field, given the bundles of its upload. -/
def Coding.externalized (cd : Coding V D) (f : Field V) (links : List (D × Link D))
    (c : Columns V D) : Option (Columns V D) :=
  if inlineField f c then
    (links.lookup (cd.digest c.value)).map fun link =>
      ⟨f.default, some (cd.digest c.value), some link.1, some link.2⟩
  else some c

/-- The page of `_externalize` after its upload: the rows with an inline field; `none` when object storage
is unavailable. -/
def Coding.externalize (cd : Coding V D) (put : List (D × V) → Option (Link D))
    (rows : List (String × Row V D)) : Option (List (Swap V D)) :=
  let work := rows.filter fun r =>
    inlineField cd.description r.2.description || inlineField cd.raw r.2.raw
  let fields := work.flatMap fun r =>
    (if inlineField cd.description r.2.description then [r.2.description.value] else []) ++
      if inlineField cd.raw r.2.raw then [r.2.raw.value] else []
  let values := fields.map fun v => (cd.digest v, v)
  (putValues cd.size put values).map fun links => work.filterMap fun r =>
    (cd.externalized cd.description links r.2.description).bind fun d =>
      (cd.externalized cd.raw links r.2.raw).map fun raw => ⟨r.1, r.2.payload, (d, raw)⟩

/-- What `_restore` writes for a field: the value that `resolve` returned. -/
def Coding.restored (cd : Coding V D) (f : Field V) (store : Store V D) (c : Columns V D) :
    Option (Columns V D) :=
  match c.object with
  | none => some c
  | some _ => (resolveField cd.digest f store c).map Columns.inline

/-- The page of `_restore` after `resolve`: the rows with a referenced field; `none` when one of them cannot
be read. -/
def Coding.restore (cd : Coding V D) (store : Store V D) (rows : List (String × Row V D)) :
    Option (List (Swap V D)) :=
  let held := rows.filter fun r => r.2.description.object.isSome || r.2.raw.object.isSome
  held.foldr (fun r rest => (cd.restored cd.description store r.2.description).bind fun d =>
    (cd.restored cd.raw store r.2.raw).bind fun raw =>
      rest.map fun swaps => ⟨r.1, r.2.payload, (d, raw)⟩ :: swaps) (some [])

/-- What happens next. -/
inductive Act (V D : Type)
  /-- `record_listings`, its first statement. -/
  | pull (k : ℕ) (listed : List (Posting V))
  /-- The upload of a pull or of a page, with what object storage answers to each bundle. -/
  | upload (k : ℕ) (put : List (D × V) → Option (Link D))
  /-- The next statement of a pull's transaction, or its commit. -/
  | upsert (k now refresh_hours : ℕ)
  /-- A page of `migrate` reads its rows. -/
  | page (k : ℕ) (mode : Mode) (urls : List String)
  /-- `resolve` in `_restore`, with what object storage serves. -/
  | resolve (k : ℕ) (store : Store V D)
  /-- The next lock of a page's transaction, or its commit. -/
  | swap (k : ℕ)
  /-- A statement of a process fails, or the process dies; its transaction is rolled back. -/
  | fail (k : ℕ)

/-- The table after the commit of a pull. -/
def State.commitPull (s : State V D) (k : ℕ) (listed : List (Posting V))
    (written : List (Written V D)) : State V D :=
  { s.move k none with
    rows := view written s.rows
    wrote := fun url => s.wrote url ++ payloadsOf url (written.map Written.posting)
    pulled := fun url => s.pulled url ++ payloadsOf url listed }

/-- The table after the commit of a page: nothing but the payload columns of its rows is written. -/
def swapRows (locked : List (Swap V D)) (rows : String → Option (Row V D)) (url : String) :
    Option (Row V D) :=
  match locked.find? fun w => w.url == url with
  | none => rows url
  | some w => (rows url).map fun row => { row with description := w.write.1, raw := w.write.2 }

/-- One step. -/
def step (cd : Coding V D) (s : State V D) : Act V D → Option (State V D)
  | .pull k listed =>
    match s.procs k with
    | none =>
      let listed := listed.filter fun p => p.url != ""
      some (s.move k (some (.linked listed (s.links (listed.map Posting.url)))))
    | some _ => none
  | .upload k put =>
    match s.procs k with
    | some (.linked listed links) =>
      let todo := (cd.incoming put links listed).mergeSort fun a b => a.posting.url ≤ b.posting.url
      some (s.move k (some (.upserting listed todo [])))
    | some (.read .externalize rows) =>
      match cd.externalize put rows with
      | none => some (s.move k none)
      | some swaps => some (s.move k (some (.locking swaps [])))
    | _ => none
  | .upsert k now refresh_hours =>
    match s.procs k with
    | some (.upserting listed [] written) => some (s.commitPull k listed written)
    | some (.upserting listed (e :: todo) written) =>
      -- The database refuses a value that is not finite JSON.
      if cd.finite e.posting.description && cd.finite e.posting.raw then
        if (view written s.rows e.posting.url).any (unchanged cd now refresh_hours e) then
          some (s.move k (some (.upserting listed todo written)))
        else some (s.move k (some (.changing listed e todo written)))
      else none
    | some (.changing listed e todo written) =>
      if s.locks e.posting.url = none ∨ s.locks e.posting.url = some k then
        let row := upsert cd now e (view written s.rows e.posting.url)
        some (s.move k (some (.upserting listed todo (written ++ [⟨e.posting, row⟩]))))
      else none
    | _ => none
  | .page k mode urls =>
    match s.procs k with
    | none =>
      let rows := urls.filterMap fun url => (s.rows url).map fun row => (url, row)
      some (s.move k (some (.read mode rows)))
    | some _ => none
  | .resolve k store =>
    match s.procs k with
    | some (.read .restore rows) =>
      match cd.restore store rows with
      | none => some (s.move k none)
      | some swaps => some (s.move k (some (.locking swaps [])))
    | _ => none
  | .swap k =>
    match s.procs k with
    | some (.locking (w :: todo) locked) =>
      if s.locks w.url = none ∧ (s.rows w.url).map Row.payload = some w.read then
        some (s.move k (some (.locking todo (locked ++ [w]))))
      else some (s.move k (some (.locking todo locked)))
    | some (.locking [] locked) => some { s.move k none with rows := swapRows locked s.rows }
    | _ => none
  | .fail k => some (s.move k none)

/-! ## What the rows hold -/

/-- The last value that the listing carried, the column's default if there is none. -/
def Field.last (f : Field V) (vs : List V) : V :=
  ((vs.filter fun v => !f.absent v).getLast?).getD f.default

/-- One pull more. -/
theorem Field.last_append (f : Field V) (vs : List V) (w : V) :
    f.last (vs ++ [w]) = f.after (f.last vs) w := by
  unfold Field.last Field.after
  rw [List.filter_append]
  cases h : f.absent w with
  | true => simp [h]
  | false => simp [h]

/-- The row shows the postings written: its description is the last that is not empty, its raw record the
last. -/
structure Faithful (cd : Coding V D) (row : Row V D) (ps : List (V × V)) : Prop where
  description : Holds cd.digest cd.description row.description
    (cd.description.last (ps.map Prod.fst))
  raw : Holds cd.digest cd.raw row.raw (cd.raw.last (ps.map Prod.snd))

/-- A url without a row has no posting written. -/
def Shows (cd : Coding V D) (row : Option (Row V D)) (ps : List (V × V)) : Prop :=
  match row with
  | none => ps = []
  | some row => Faithful cd row ps

/-- The payload columns of a row to insert stand for its posting. -/
structure Incoming.Good (cd : Coding V D) (e : Incoming V D) : Prop where
  description : Holds cd.digest cd.description e.description e.posting.description
  raw : Holds cd.digest cd.raw e.raw e.posting.raw

/-- The upsert leaves a row that shows one posting more. -/
theorem upsert_faithful {cd : Coding V D} (hinj : Function.Injective cd.digest) (now : ℕ)
    {e : Incoming V D} (he : e.Good cd) {row : Option (Row V D)} {ps : List (V × V)}
    (h : Shows cd row ps) :
    Faithful cd (upsert cd now e row) (ps ++ [(e.posting.description, e.posting.raw)]) := by
  cases row with
  | none =>
    have hnil : ps = [] := h
    subst hnil
    -- Nothing was there: the default of the column stands for an empty description.
    have hafter : ∀ (f : Field V) (w : V), f.last ([] ++ [w]) = w := by
      intro f w
      rw [Field.last_append]
      unfold Field.after
      split
      · next habs =>
        simp only [Field.absent, Bool.and_eq_true, beq_iff_eq] at habs
        exact habs.2.symm
      · rfl
    constructor
    · rw [List.map_append, List.map_cons, List.map_nil, hafter]
      exact he.description
    · rw [List.map_append, List.map_cons, List.map_nil, hafter]
      exact he.raw
  | some l =>
    have hl : Faithful cd l ps := h
    constructor
    · rw [List.map_append, List.map_cons, List.map_nil, Field.last_append]
      exact setPayload_holds hinj he.description hl.description
    · rw [List.map_append, List.map_cons, List.map_nil, Field.last_append]
      exact setPayload_holds hinj he.raw hl.raw

/-- A row that a pull finds unchanged holds the pull's raw record and its description, unless that is
empty. -/
theorem unchanged_spec {cd : Coding V D} (hinj : Function.Injective cd.digest)
    {now refresh_hours : ℕ} {e : Incoming V D} (he : e.Good cd) {l : Row V D} {ps : List (V × V)}
    (hl : Faithful cd l ps) (h : unchanged cd now refresh_hours e l = true) :
    cd.raw.last (ps.map Prod.snd) = e.posting.raw ∧
      (cd.description.absent e.posting.description = true ∨
        cd.description.last (ps.map Prod.fst) = e.posting.description) := by
  simp only [unchanged, Bool.and_eq_true, decide_eq_true_eq] at h
  obtain ⟨⟨⟨-, hd⟩, hr⟩, -⟩ := h
  constructor
  · exact (eq_of_kept hinj he.raw hl.raw hr).symm
  · have := eq_of_kept hinj he.description hl.description hd
    unfold Field.after at this
    split at this
    · next habs => exact .inl habs
    · exact .inr this.symm

/-! ## What the migrations write -/

/-- A swap writes columns that stand for what it read. -/
structure Swap.Good (cd : Coding V D) (w : Swap V D) : Prop where
  description : ∀ v, Holds cd.digest cd.description w.read.1 v →
    Holds cd.digest cd.description w.write.1 v
  raw : ∀ v, Holds cd.digest cd.raw w.read.2 v → Holds cd.digest cd.raw w.write.2 v

/-- `_externalize` writes a reference to the value that was inline. -/
theorem Coding.externalized_holds {cd : Coding V D} {f : Field V} {links : List (D × Link D)}
    {c c' : Columns V D} (h : cd.externalized f links c = some c') {v : V}
    (hv : Holds cd.digest f c v) : Holds cd.digest f c' v := by
  unfold Coding.externalized at h
  split at h
  · next hin =>
    obtain ⟨link, -, rfl⟩ := Option.map_eq_some_iff.mp h
    simp only [inlineField, Bool.and_eq_true, Option.isNone_iff_eq_none, Bool.not_eq_true'] at hin
    rcases hv with rfl | ⟨-, o, n, rfl⟩
    · exact .inr ⟨hin.2, _, _, rfl⟩
    · exact absurd hin.1 nofun
  · obtain rfl := Option.some.inj h
    exact hv

/-- `_restore` writes the value that the reference stands for. -/
theorem Coding.restored_holds {cd : Coding V D} (hinj : Function.Injective cd.digest) {f : Field V}
    {store : Store V D} {c c' : Columns V D} (h : cd.restored f store c = some c') {v : V}
    (hv : Holds cd.digest f c v) : Holds cd.digest f c' v := by
  unfold Coding.restored at h
  split at h
  · obtain rfl := Option.some.inj h
    exact hv
  · obtain ⟨w, hw, rfl⟩ := Option.map_eq_some_iff.mp h
    rcases resolve_of_holds hinj hv store with hnone | hsome
    · rw [hnone] at hw
      contradiction
    · rw [hsome] at hw
      obtain rfl := Option.some.inj hw
      exact .inl rfl

/-- The swaps of `_externalize` are good. -/
theorem Coding.externalize_good {cd : Coding V D} {put : List (D × V) → Option (Link D)}
    {rows : List (String × Row V D)} {swaps : List (Swap V D)}
    (h : cd.externalize put rows = some swaps) : ∀ w ∈ swaps, w.Good cd := by
  obtain ⟨links, -, rfl⟩ := Option.map_eq_some_iff.mp h
  intro w hw
  obtain ⟨r, -, hr⟩ := List.mem_filterMap.mp hw
  obtain ⟨d, hd, hr⟩ := Option.bind_eq_some_iff.mp hr
  obtain ⟨raw, hraw, rfl⟩ := Option.map_eq_some_iff.mp hr
  exact ⟨fun v hv => externalized_holds hd hv, fun v hv => externalized_holds hraw hv⟩

/-- The swaps of `_restore` are good. -/
theorem Coding.restore_good {cd : Coding V D} (hinj : Function.Injective cd.digest)
    {store : Store V D} {rows : List (String × Row V D)} {swaps : List (Swap V D)}
    (h : cd.restore store rows = some swaps) : ∀ w ∈ swaps, w.Good cd := by
  unfold Coding.restore at h
  dsimp only at h
  generalize rows.filter _ = held at h
  induction held generalizing swaps with
  | nil =>
    obtain rfl := Option.some.inj h
    exact fun w hw => absurd hw List.not_mem_nil
  | cons r held ih =>
    rw [List.foldr_cons] at h
    obtain ⟨d, hd, h⟩ := Option.bind_eq_some_iff.mp h
    obtain ⟨raw, hraw, h⟩ := Option.bind_eq_some_iff.mp h
    obtain ⟨rest, hrest, rfl⟩ := Option.map_eq_some_iff.mp h
    intro w hw
    rcases List.mem_cons.mp hw with rfl | hw
    · exact ⟨fun v hv => restored_holds hinj hd hv, fun v hv => restored_holds hinj hraw hv⟩
    · exact ih hrest w hw

/-! ## The invariant -/

omit [DecidableEq V] [DecidableEq D] in
/-- A url that the pull has not written looks as it is committed. -/
theorem view_of_not_written {written : List (Written V D)} {url : String}
    (h : (written.any fun w => w.posting.url == url) = false)
    (rows : String → Option (Row V D)) :
    view written rows url = rows url ∧ payloadsOf url (written.map Written.posting) = [] := by
  have hno : ∀ w ∈ written, (w.posting.url == url) = false := by
    intro w hw
    rw [List.any_eq_false] at h
    simpa using h w hw
  constructor
  · have hfind : (written.reverse.find? fun w => w.posting.url == url) = none := by
      rw [List.find?_eq_none]
      intro w hw
      rw [List.mem_reverse] at hw
      simp [hno w hw]
    unfold view
    rw [hfind]
    rfl
  · unfold payloadsOf
    rw [List.map_eq_nil_iff, List.filter_eq_nil_iff]
    intro p hp
    obtain ⟨w, hw, rfl⟩ := List.mem_map.mp hp
    simp [hno w hw]

omit [DecidableEq V] [DecidableEq D] in
/-- One row more. -/
theorem view_append (written : List (Written V D)) (w : Written V D)
    (rows : String → Option (Row V D)) (url : String) :
    view (written ++ [w]) rows url =
      if w.posting.url = url then some w.row else view written rows url := by
  unfold view
  rw [List.reverse_append, List.reverse_cons, List.reverse_nil, List.nil_append,
    List.singleton_append, List.find?_cons]
  by_cases h : w.posting.url = url
  · simp [h]
  · have hno : (w.posting.url == url) = false := beq_eq_false_iff_ne.mpr h
    rw [hno, if_neg h]

omit [DecidableEq V] in
/-- One posting more. -/
theorem payloadsOf_append (url : String) (ps : List (Posting V)) (p : Posting V) :
    payloadsOf url (ps ++ [p]) =
      if p.url = url then payloadsOf url ps ++ [(p.description, p.raw)] else payloadsOf url ps := by
  unfold payloadsOf
  rw [List.filter_append]
  by_cases h : p.url = url
  · simp [h]
  · have hno : (p.url == url) = false := beq_eq_false_iff_ne.mpr h
    simp [hno, h]

/-- What a pull relies on in its transaction: the rows that it has written show what was committed and
what it wrote. -/
def TxGood (cd : Coding V D) (s : State V D) (written : List (Written V D)) : Prop :=
  ∀ url, (written.any fun w => w.posting.url == url) = true →
    Shows cd (view written s.rows url)
      (s.wrote url ++ payloadsOf url (written.map Written.posting))

/-- What a process relies on. -/
def Proc.Sound (cd : Coding V D) (s : State V D) : Proc V D → Prop
  | .upserting _ todo written => (∀ e ∈ todo, e.Good cd) ∧ TxGood cd s written
  | .changing _ e todo written => (∀ e' ∈ e :: todo, e'.Good cd) ∧ TxGood cd s written
  | .locking todo locked => (∀ w ∈ todo ++ locked, w.Good cd) ∧
      ∀ w ∈ locked, (s.rows w.url).map Row.payload = some w.read
  | _ => True

/-- Every committed row shows what committed pulls wrote, processes hold the rows that they locked, and
what they rely on is so. -/
structure State.Inv (cd : Coding V D) (s : State V D) : Prop where
  shows : ∀ url, Shows cd (s.rows url) (s.wrote url)
  held : ∀ k proc, s.procs k = some proc → ∀ url, proc.holds url = true → s.locks url = some k
  sound : ∀ k proc, s.procs k = some proc → proc.Sound cd s

section Steps

variable {cd : Coding V D} {s s' : State V D} {k : ℕ}

omit [DecidableEq D] in
/-- A change of the rows that nobody else holds is not noticed. -/
theorem Proc.Sound.keep {proc : Proc V D} (h : proc.Sound cd s)
    (hk : ∀ url, proc.holds url = true → s'.rows url = s.rows url ∧ s'.wrote url = s.wrote url) :
    proc.Sound cd s' := by
  have hview : ∀ (written : List (Written V D)) url, s'.rows url = s.rows url →
      view written s'.rows url = view written s.rows url := by
    intro written url heq
    unfold view
    rw [heq]
  have htx : ∀ written : List (Written V D), TxGood cd s written →
      (∀ url, (written.any fun w => w.posting.url == url) = true →
        s'.rows url = s.rows url ∧ s'.wrote url = s.wrote url) → TxGood cd s' written := by
    intro written hgood hsame url hurl
    obtain ⟨hrow, hwrote⟩ := hsame url hurl
    rw [hview written url hrow, hwrote]
    exact hgood url hurl
  match proc, h with
  | .upserting listed todo written, h => exact ⟨h.1, htx written h.2 hk⟩
  | .changing listed e todo written, h => exact ⟨h.1, htx written h.2 hk⟩
  | .locking todo locked, h =>
    refine ⟨h.1, fun w hw => ?_⟩
    have hheld : (Proc.locking todo locked).holds w.url = true :=
      List.any_eq_true.mpr ⟨w, hw, beq_self_eq_true _⟩
    rw [(hk w.url hheld).1]
    exact h.2 w hw
  | .linked _ _, _ => trivial
  | .read _ _, _ => trivial

omit [DecidableEq D] in
/-- A process goes on: it takes only free rows, and what it relies on is so; the rows that it holds may
change as it goes, as long as they show what was written. -/
theorem State.Inv.go (h : State.Inv cd s) {proc : Option (Proc V D)}
    {rows' : String → Option (Row V D)} {wrote' pulled' : String → List (V × V)}
    (hfree : ∀ q, proc = some q → ∀ url, q.holds url = true →
      s.locks url = none ∨ s.locks url = some k)
    (hsound : ∀ q, proc = some q → q.Sound cd { s with rows := rows', wrote := wrote' })
    (hrows : ∀ url, rows' url = s.rows url ∧ wrote' url = s.wrote url ∨
      s.locks url = some k ∧ Shows cd (rows' url) (wrote' url)) :
    State.Inv cd { s.move k proc with rows := rows', wrote := wrote', pulled := pulled' } := by
  refine ⟨fun url => ?_, fun k' q hq url hurl => ?_, fun k' q hq => ?_⟩
  · rcases hrows url with ⟨hr, hw⟩ | ⟨-, hshow⟩
    · have hold := h.shows url
      rw [← hr, ← hw] at hold
      exact hold
    · exact hshow
  · have hq : Function.update s.procs k proc k' = some q := hq
    by_cases hk : k' = k
    · subst hk
      rw [Function.update_self] at hq
      subst hq
      simp [State.move, hurl]
    · rw [Function.update_of_ne hk] at hq
      have hlock := h.held k' q hq url hurl
      have hno : (proc.any fun p => p.holds url) = false := by
        rw [Option.any_eq_false]
        intro q' hq'
        by_contra hheld
        rw [Bool.not_eq_false] at hheld
        rcases hfree q' hq' url hheld with hnone | hsome
        · rw [hlock] at hnone
          contradiction
        · rw [hlock] at hsome
          exact hk (Option.some.inj hsome)
      simp [State.move, hno, hlock, hk]
  · have hq : Function.update s.procs k proc k' = some q := hq
    by_cases hk : k' = k
    · subst hk
      rw [Function.update_self] at hq
      exact (hsound q hq).keep fun _ _ => ⟨rfl, rfl⟩
    · rw [Function.update_of_ne hk] at hq
      refine (h.sound k' q hq).keep fun url hurl => ?_
      rcases hrows url with hsame | ⟨hmine, -⟩
      · exact hsame
      · rw [h.held k' q hq url hurl] at hmine
        exact absurd (Option.some.inj hmine) hk

omit [DecidableEq D] in
/-- A process goes on and no row changes. -/
theorem State.Inv.move (h : State.Inv cd s) {proc : Option (Proc V D)}
    (hfree : ∀ q, proc = some q → ∀ url, q.holds url = true →
      s.locks url = none ∨ s.locks url = some k)
    (hsound : ∀ q, proc = some q → q.Sound cd s) : State.Inv cd (s.move k proc) := by
  have hsame : ∀ url, s.rows url = s.rows url ∧ s.wrote url = s.wrote url ∨
      s.locks url = some k ∧ Shows cd (s.rows url) (s.wrote url) := fun _ => .inl ⟨rfl, rfl⟩
  exact h.go hfree hsound hsame

omit [DecidableEq D] in
/-- A process goes on as `q`, without a row of its own that it did not hold. -/
theorem State.Inv.moveTo (h : State.Inv cd s) {q : Proc V D}
    (hfree : ∀ url, q.holds url = true → s.locks url = none ∨ s.locks url = some k)
    (hsound : q.Sound cd s) : State.Inv cd (s.move k (some q)) := by
  refine h.move (fun q' hq => ?_) fun q' hq => ?_
  · obtain rfl := Option.some.inj hq
    exact hfree
  · obtain rfl := Option.some.inj hq
    exact hsound

omit [DecidableEq D] in
/-- A process is over. -/
theorem State.Inv.leave (h : State.Inv cd s) : State.Inv cd (s.move k none) := by
  refine h.move (fun q hq => ?_) fun q hq => ?_
  · contradiction
  · contradiction

/-- The rows that a pull is to insert carry its postings. -/
theorem Coding.incoming_good (cd : Coding V D) (put : List (D × V) → Option (Link D))
    (links : List (D × Link D)) (listed : List (Posting V)) :
    ∀ e ∈ (cd.incoming put links listed).mergeSort fun a b => a.posting.url ≤ b.posting.url,
      e.Good cd := by
  intro e he
  rw [List.mem_mergeSort] at he
  obtain ⟨p, -, rfl⟩ := List.mem_map.mp he
  exact ⟨cd.columns_holds _ _ _, cd.columns_holds _ _ _⟩

/-- The upload of a pull or of a page. -/
theorem State.Inv.upload (h : State.Inv cd s) {put : List (D × V) → Option (Link D)}
    (hs : step cd s (.upload k put) = some s') : State.Inv cd s' := by
  simp only [step] at hs
  split at hs
  · next listed links hk =>
    obtain rfl := Option.some.inj hs
    have htx : TxGood cd s [] := fun url hurl => absurd hurl Bool.false_ne_true
    refine h.moveTo (fun url hurl => ?_) ⟨cd.incoming_good put links listed, htx⟩
    simp [Proc.holds] at hurl
  · next rows hk =>
    split at hs
    · obtain rfl := Option.some.inj hs
      exact h.leave
    · next swaps hswaps =>
      obtain rfl := Option.some.inj hs
      refine h.moveTo (fun url hurl => ?_) ⟨?_, fun w hw => absurd hw List.not_mem_nil⟩
      · simp [Proc.holds] at hurl
      · rw [List.append_nil]
        exact Coding.externalize_good hswaps
  · contradiction

/-- A read of object storage by a page. -/
theorem State.Inv.resolve (hinj : Function.Injective cd.digest) (h : State.Inv cd s)
    {store : Store V D} (hs : step cd s (.resolve k store) = some s') : State.Inv cd s' := by
  simp only [step] at hs
  split at hs
  · next rows hk =>
    split at hs
    · obtain rfl := Option.some.inj hs
      exact h.leave
    · next swaps hswaps =>
      obtain rfl := Option.some.inj hs
      refine h.moveTo (fun url hurl => ?_) ⟨?_, fun w hw => absurd hw List.not_mem_nil⟩
      · simp [Proc.holds] at hurl
      · rw [List.append_nil]
        exact Coding.restore_good hinj hswaps
  · contradiction

omit [DecidableEq D] in
/-- What the pull sees of a row that it may write. -/
theorem State.Inv.shows_view (h : State.Inv cd s) {written : List (Written V D)}
    (htx : TxGood cd s written) (url : String) :
    Shows cd (view written s.rows url)
      (s.wrote url ++ payloadsOf url (written.map Written.posting)) := by
  cases hany : written.any fun w => w.posting.url == url with
  | true => exact htx url hany
  | false =>
    obtain ⟨hview, hps⟩ := view_of_not_written hany s.rows
    rw [hview, hps, List.append_nil]
    exact h.shows url

omit [DecidableEq D] in
/-- The commit of a pull. -/
theorem State.Inv.commitPull (h : State.Inv cd s) {listed : List (Posting V)}
    {written : List (Written V D)} (hk : s.procs k = some (.upserting listed [] written)) :
    State.Inv cd (s.commitPull k listed written) := by
  obtain ⟨-, htx⟩ := h.sound k _ hk
  refine h.go (fun q hq => ?_) (fun q hq => ?_) fun url => ?_
  · contradiction
  · contradiction
  · cases hany : written.any fun w => w.posting.url == url with
    | true => exact .inr ⟨h.held k _ hk url hany, htx url hany⟩
    | false =>
      obtain ⟨hview, hps⟩ := view_of_not_written hany s.rows
      rw [hps, List.append_nil]
      exact .inl ⟨hview, rfl⟩

/-- The upsert of a row that the pull found changed. -/
theorem State.Inv.write (hinj : Function.Injective cd.digest) (h : State.Inv cd s)
    {listed : List (Posting V)} {e : Incoming V D} {todo : List (Incoming V D)}
    {written : List (Written V D)} (hk : s.procs k = some (.changing listed e todo written))
    (hlock : s.locks e.posting.url = none ∨ s.locks e.posting.url = some k) (now : ℕ) :
    State.Inv cd (s.move k (some (.upserting listed todo (written ++
      [⟨e.posting, Listings.upsert cd now e (view written s.rows e.posting.url)⟩])))) := by
  obtain ⟨hgood, htx⟩ := h.sound k _ hk
  refine h.moveTo (fun url hurl => ?_) ⟨fun e' he' => hgood e' (List.mem_cons_of_mem _ he'), ?_⟩
  · -- The row written is locked with the write; the others were held before it.
    simp only [Proc.holds] at hurl
    rw [List.any_append, Bool.or_eq_true] at hurl
    rcases hurl with hold | hnew
    · exact .inr (h.held k _ hk url hold)
    · simp only [List.any_cons, List.any_nil, Bool.or_false, beq_iff_eq] at hnew
      rw [← hnew]
      exact hlock
  · intro url _
    rw [view_append, List.map_append, List.map_cons, List.map_nil, payloadsOf_append]
    dsimp only
    by_cases heq : e.posting.url = url
    · rw [if_pos heq, if_pos heq, ← List.append_assoc, ← heq]
      exact upsert_faithful hinj now (hgood e List.mem_cons_self) (h.shows_view htx _)
    · rw [if_neg heq, if_neg heq]
      exact h.shows_view htx url

/-- The next statement of a pull's transaction. -/
theorem State.Inv.upsert (hinj : Function.Injective cd.digest) (h : State.Inv cd s)
    {now refresh_hours : ℕ} (hs : step cd s (.upsert k now refresh_hours) = some s') :
    State.Inv cd s' := by
  simp only [step] at hs
  split at hs
  · next listed written hk =>
    obtain rfl := Option.some.inj hs
    exact h.commitPull hk
  · next listed e todo written hk =>
    obtain ⟨hgood, htx⟩ := h.sound k _ hk
    rw [Option.ite_none_right_eq_some] at hs
    obtain ⟨-, hs⟩ := hs
    split at hs
    · obtain rfl := Option.some.inj hs
      exact h.moveTo (fun url hurl => .inr (h.held k _ hk url hurl))
        ⟨fun e' he' => hgood e' (List.mem_cons_of_mem _ he'), htx⟩
    · obtain rfl := Option.some.inj hs
      exact h.moveTo (fun url hurl => .inr (h.held k _ hk url hurl)) ⟨hgood, htx⟩
  · next listed e todo written hk =>
    rw [Option.ite_none_right_eq_some] at hs
    obtain ⟨hlock, hs⟩ := hs
    obtain rfl := Option.some.inj hs
    exact h.write hinj hk hlock now
  · contradiction

omit [DecidableEq D] in
/-- A page that found a row as it was: it shows what it showed, in another form. -/
theorem Swap.Good.shows {w : Swap V D} (hw : w.Good cd) {row : Row V D} (hrow : row.payload = w.read)
    {ps : List (V × V)} (h : Faithful cd row ps) :
    Faithful cd { row with description := w.write.1, raw := w.write.2 } ps := by
  have hd : row.description = w.read.1 := congrArg Prod.fst hrow
  have hr : row.raw = w.read.2 := congrArg Prod.snd hrow
  exact ⟨hw.description _ (hd ▸ h.description), hw.raw _ (hr ▸ h.raw)⟩

/-- The next lock of a page, or its commit. -/
theorem State.Inv.swap (h : State.Inv cd s) (hs : step cd s (.swap k) = some s') :
    State.Inv cd s' := by
  simp only [step] at hs
  split at hs
  · next w todo locked hk =>
    obtain ⟨hgood, hread⟩ := h.sound k _ hk
    split at hs
    · next hfound =>
      obtain ⟨hfree, hsame⟩ := hfound
      obtain rfl := Option.some.inj hs
      refine h.moveTo (fun url hurl => ?_) ⟨fun w' hw' => hgood w' ?_, fun w' hw' => ?_⟩
      · have hurl : ((locked ++ [w]).any fun w' => w'.url == url) = true := hurl
        rw [List.any_append, Bool.or_eq_true] at hurl
        rcases hurl with hold | hnew
        · exact .inr (h.held k _ hk url hold)
        · simp only [List.any_cons, List.any_nil, Bool.or_false, beq_iff_eq] at hnew
          exact .inl (hnew ▸ hfree)
      · simp only [List.mem_append, List.mem_cons, List.not_mem_nil, or_false] at hw' ⊢
        tauto
      · rcases List.mem_append.mp hw' with hold | hnew
        · exact hread w' hold
        · rw [List.mem_singleton.mp hnew]
          exact hsame
    · obtain rfl := Option.some.inj hs
      exact h.moveTo (fun url hurl => .inr (h.held k _ hk url hurl))
        ⟨fun w' hw' => hgood w' (List.mem_cons_of_mem _ hw'), hread⟩
  · next locked hk =>
    obtain rfl := Option.some.inj hs
    obtain ⟨hgood, hread⟩ := h.sound k _ hk
    refine h.go (fun q hq => ?_) (fun q hq => ?_) fun url => ?_
    · contradiction
    · contradiction
    · unfold swapRows
      split
      · exact .inl ⟨rfl, rfl⟩
      · next w hw =>
        have hmem : w ∈ locked := List.mem_of_find?_eq_some hw
        have hurl := List.find?_some hw
        have hheld : (locked.any fun w' => w'.url == url) = true :=
          List.any_eq_true.mpr ⟨w, hmem, hurl⟩
        refine .inr ⟨h.held k _ hk url hheld, ?_⟩
        rw [beq_iff_eq] at hurl
        have hpay := hread w hmem
        rw [hurl] at hpay
        obtain ⟨row, hrow, hpay⟩ := Option.map_eq_some_iff.mp hpay
        have hshow := h.shows url
        rw [hrow] at hshow ⊢
        exact (hgood w hmem).shows hpay hshow
  · contradiction

/-- One step keeps the invariant. -/
theorem State.Inv.step (hinj : Function.Injective cd.digest) (h : State.Inv cd s) {a : Act V D}
    (hs : Listings.step cd s a = some s') : State.Inv cd s' := by
  cases a with
  | pull k listed =>
    simp only [Listings.step] at hs
    split at hs
    · obtain rfl := Option.some.inj hs
      exact h.moveTo (fun url hurl => absurd hurl Bool.false_ne_true) trivial
    · contradiction
  | upload k put => exact h.upload hs
  | upsert k now refresh_hours => exact h.upsert hinj hs
  | page k mode urls =>
    simp only [Listings.step] at hs
    split at hs
    · obtain rfl := Option.some.inj hs
      exact h.moveTo (fun url hurl => absurd hurl Bool.false_ne_true) trivial
    · contradiction
  | resolve k store => exact h.resolve hinj hs
  | swap k => exact h.swap hs
  | fail k =>
    obtain rfl := Option.some.inj hs
    exact h.leave

end Steps

/-! ## Main results -/

/-- `resolve` of a stored row; `none` is `PayloadUnavailable`. -/
def resolve (cd : Coding V D) (store : Store V D) (row : Row V D) : Option (V × V) :=
  (resolveField cd.digest cd.description store row.description).bind fun d =>
    (resolveField cd.digest cd.raw store row.raw).map fun raw => (d, raw)

/-- The two legal shapes of a field: the value with no reference, or the default with all of it. -/
def Columns.Legal (f : Field V) (c : Columns V D) : Prop :=
  c.sha256 = none ∧ c.object = none ∧ c.object_size = none ∨
    c.value = f.default ∧ c.sha256.isSome ∧ c.object.isSome ∧ c.object_size.isSome

/-- The columns of a row beside the payload. -/
def Row.beside (row : Row V D) : Listing × ℕ := (row.listing, row.last_seen_at)

/-- A table with the postings that were written to it before. -/
structure Start (cd : Coding V D) where
  rows : String → Option (Row V D)
  wrote : String → List (V × V)
  shows : ∀ url, Shows cd (rows url) (wrote url)

/-- Nothing is running. -/
def Start.state {cd : Coding V D} (start : Start cd) : State V D :=
  ⟨start.rows, fun _ => none, fun _ => none, start.wrote, start.wrote⟩

/-- The table of a new database. -/
def Start.empty (cd : Coding V D) : Start cd := ⟨fun _ => none, fun _ => [], fun _ => rfl⟩

section Reading

variable {cd : Coding V D} {s s' : State V D}

omit [DecidableEq D] in
/-- Columns that stand for a value are legal. -/
theorem Holds.legal {digest : V → D} {f : Field V} {c : Columns V D} {v : V}
    (h : Holds digest f c v) : c.Legal f := by
  rcases h with rfl | ⟨-, o, n, rfl⟩
  · exact .inl ⟨rfl, rfl, rfl⟩
  · exact .inr ⟨rfl, rfl, rfl, rfl⟩

/-- A reader of a row returns what it shows, or raises. -/
theorem Faithful.resolve (hinj : Function.Injective cd.digest) {row : Row V D} {ps : List (V × V)}
    (h : Faithful cd row ps) (store : Store V D) :
    Listings.resolve cd store row = none ∨
      Listings.resolve cd store row =
        some (cd.description.last (ps.map Prod.fst), cd.raw.last (ps.map Prod.snd)) := by
  unfold Listings.resolve
  rcases resolve_of_holds hinj h.description store with hd | hd
  · rw [hd]
    exact .inl rfl
  · rw [hd]
    rcases resolve_of_holds hinj h.raw store with hr | hr
    · rw [hr]
      exact .inl rfl
    · rw [hr]
      exact .inr rfl

/-- The invariant holds in every state of a run. -/
theorem Start.inv (hinj : Function.Injective cd.digest) (start : Start cd)
    (h : Run (step cd) Always start.state s) : State.Inv cd s := by
  refine Run.invariant ?_ (fun s a s' hi _ hs => State.Inv.step hinj hi hs) h
  exact ⟨start.shows, fun k q hq => absurd hq (by simp [Start.state]),
    fun k q hq => absurd hq (by simp [Start.state])⟩

/-- A statement that passes its row over found it as the posting has it. -/
theorem State.Inv.passed_over (hinj : Function.Injective cd.digest) (h : State.Inv cd s)
    {k now refresh_hours : ℕ} {listed : List (Posting V)} {e : Incoming V D}
    {todo : List (Incoming V D)} {written : List (Written V D)}
    (hk : s.procs k = some (.upserting listed (e :: todo) written))
    (hs : Listings.step cd s (.upsert k now refresh_hours) = some s')
    (hk' : s'.procs k = some (.upserting listed todo written)) :
    ∃ row description, view written s.rows e.posting.url = some row ∧
      (cd.description.absent e.posting.description = true ∨ description = e.posting.description) ∧
      ∀ store, Listings.resolve cd store row = none ∨
        Listings.resolve cd store row = some (description, e.posting.raw) := by
  simp only [Listings.step, hk] at hs
  rw [Option.ite_none_right_eq_some] at hs
  obtain ⟨-, hs⟩ := hs
  split at hs
  · next hany =>
    obtain ⟨row, hrow, hsame⟩ := Option.any_eq_true _ _ |>.mp hany
    obtain ⟨hgood, htx⟩ := h.sound k _ hk
    have hshow := h.shows_view htx e.posting.url
    rw [hrow] at hshow
    obtain ⟨hraw, hdesc⟩ := unchanged_spec hinj (hgood e List.mem_cons_self) hshow hsame
    refine ⟨row, _, hrow, hdesc, fun store => ?_⟩
    rw [← hraw]
    exact hshow.resolve hinj store
  · -- The process waits for the lock of a row that it found changed.
    obtain rfl := Option.some.inj hs
    simp [State.move] at hk'

/-- Nothing but the upserts of a pull writes a column beside the payload. -/
theorem step_beside {a : Act V D} (ha : ∀ k now refresh_hours, a ≠ .upsert k now refresh_hours)
    (hs : step cd s a = some s') (url : String) :
    (s'.rows url).map Row.beside = (s.rows url).map Row.beside := by
  cases a with
  | upsert k now refresh_hours => exact absurd rfl (ha k now refresh_hours)
  | pull k listed =>
    simp only [step] at hs
    split at hs
    · obtain rfl := Option.some.inj hs
      rfl
    · contradiction
  | upload k put =>
    simp only [step] at hs
    split at hs
    · obtain rfl := Option.some.inj hs
      rfl
    · split at hs <;> (obtain rfl := Option.some.inj hs; rfl)
    · contradiction
  | page k mode urls =>
    simp only [step] at hs
    split at hs
    · obtain rfl := Option.some.inj hs
      rfl
    · contradiction
  | resolve k store =>
    simp only [step] at hs
    split at hs
    · split at hs <;> (obtain rfl := Option.some.inj hs; rfl)
    · contradiction
  | swap k =>
    simp only [step] at hs
    split at hs
    · split at hs <;> (obtain rfl := Option.some.inj hs; rfl)
    · obtain rfl := Option.some.inj hs
      dsimp only
      unfold swapRows
      split
      · rfl
      · rw [Option.map_map]
        rfl
    · contradiction
  | fail k =>
    obtain rfl := Option.some.inj hs
    rfl

end Reading

/-- Over any interleaving of pulls and migrations, whatever object storage does: a row's fields are in one
of the two legal shapes, and a reader raises or returns the raw record of the last committed pull that
wrote the row, and the description of the last one whose description was not empty. A pull that passes a
row over found in it its own raw record and its own description, if that is not empty. Nothing but a pull
writes a column beside the payload. -/
theorem listings_hold_last_written {cd : Coding V D} (hinj : Function.Injective cd.digest)
    (start : Start cd) {s : State V D} (hrun : Run (step cd) Always start.state s) :
    (∀ url row, s.rows url = some row →
      row.description.Legal cd.description ∧ row.raw.Legal cd.raw ∧
      ∀ store, resolve cd store row = none ∨
        resolve cd store row = some (cd.description.last ((s.wrote url).map Prod.fst),
          cd.raw.last ((s.wrote url).map Prod.snd))) ∧
    (∀ k now refresh_hours listed e todo written s',
      s.procs k = some (.upserting listed (e :: todo) written) →
      step cd s (.upsert k now refresh_hours) = some s' →
      s'.procs k = some (.upserting listed todo written) →
      ∃ row description, view written s.rows e.posting.url = some row ∧
        (cd.description.absent e.posting.description = true ∨
          description = e.posting.description) ∧
        ∀ store, resolve cd store row = none ∨
          resolve cd store row = some (description, e.posting.raw)) ∧
    ∀ a s', (∀ k now refresh_hours, a ≠ .upsert k now refresh_hours) → step cd s a = some s' →
      ∀ url, (s'.rows url).map Row.beside = (s.rows url).map Row.beside := by
  have hinv : State.Inv cd s := start.inv hinj hrun
  refine ⟨fun url row hrow => ?_, fun k now hours listed e todo written s' hk hs hk' =>
    hinv.passed_over hinj hk hs hk', fun a s' ha hs => step_beside ha hs⟩
  have hshow := hinv.shows url
  rw [hrow] at hshow
  have hfaith : Faithful cd row (s.wrote url) := hshow
  exact ⟨hfaith.description.legal, hfaith.raw.legal, hfaith.resolve hinj⟩

/-- Texts that are their own digest. -/
def plain : Coding String String where
  digest := id
  finite _ := true
  size := String.length
  emptyText := ""
  emptyRecord := "\x7b\x7d"
  isText _ := true
  isRecord _ := true

/-- A posting of a board with a raw record. -/
def posting (raw : String) : Posting String where
  url := "u"
  listing := ⟨"board", "company", "title", [], none, 1, true⟩
  description := ""
  raw := raw

/-- A pull of process `k` that is alone and writes its row, while object storage is down. -/
def pullInline (k : ℕ) (raw : String) : List (Act String String) :=
  [.pull k [posting raw], .upload k fun _ => none, .upsert k 0 1, .upsert k 0 1, .upsert k 0 1]

/-- A page swaps an inline record for its reference, and a later pull finds its record there. -/
theorem listings_hold_last_written_externalized :
    ∃ s : State String String, Run (step plain) Always (Start.empty plain).state s ∧
      (s.rows "u").map (fun row => row.raw.object) = some (some "o") ∧
      (s.pulled "u").length = 2 ∧
      ∀ row, s.rows "u" = some row → ∀ store, resolve plain store row = none ∨
        resolve plain store row = some ("", "a") := by
  let acts : List (Act String String) := pullInline 0 "a" ++
    [.page 1 .externalize ["u"], .upload 1 fun _ => some ("o", 1), .swap 1, .swap 1,
      .pull 2 [posting "a"], .upload 2 fun _ => none, .upsert 2 0 1, .upsert 2 0 1]
  have hp : (runList (step plain) (Start.empty plain).state acts).any (fun s =>
      (s.rows "u").map (fun row => row.raw.object) == some (some "o") &&
        s.pulled "u" == [("", "a"), ("", "a")] && s.wrote "u" == [("", "a")]) = true := by
    decide +kernel
  obtain ⟨s, hrun, hs⟩ := exists_run_of_any hp
  simp only [Bool.and_eq_true, beq_iff_eq] at hs
  obtain ⟨⟨hobject, hpulled⟩, hwrote⟩ := hs
  refine ⟨s, hrun, hobject, by rw [hpulled]; rfl, fun row hrow store => ?_⟩
  have hread := ((listings_hold_last_written Function.injective_id (Start.empty plain) hrun).1
    "u" row hrow).2.2 store
  rw [hwrote] at hread
  exact hread

/-- A pull that found its row unchanged commits after another pull that wrote it: the row holds what the
other pull listed. -/
theorem row_of_earlier_commit :
    ¬ ∀ s : State String String, Run (step plain) Always (Start.empty plain).state s →
      ∀ url row, s.rows url = some row → ∀ store, resolve plain store row = none ∨
        resolve plain store row = some (plain.description.last ((s.pulled url).map Prod.fst),
          plain.raw.last ((s.pulled url).map Prod.snd)) := by
  intro hall
  let acts : List (Act String String) := pullInline 0 "a" ++
    [.pull 1 [posting "a"], .upload 1 fun _ => none, .upsert 1 0 1] ++ pullInline 2 "b" ++
    [.upsert 1 0 1]
  have hp : (runList (step plain) (Start.empty plain).state acts).any (fun s =>
      (s.rows "u").map (fun row => resolve plain (fun _ _ _ => none) row) == some (some ("", "b")) &&
        s.pulled "u" == [("", "a"), ("", "b"), ("", "a")]) = true := by
    decide +kernel
  obtain ⟨s, hrun, hs⟩ := exists_run_of_any hp
  simp only [Bool.and_eq_true, beq_iff_eq] at hs
  obtain ⟨hrow, hpulled⟩ := hs
  obtain ⟨row, hrow, hread⟩ := Option.map_eq_some_iff.mp hrow
  have hlast := hall s hrun "u" row hrow fun _ _ _ => none
  rw [hpulled, hread] at hlast
  rcases hlast with hnone | hsome
  · contradiction
  · exact absurd hsome (by decide)

end JobScripts.Catalog.Listings

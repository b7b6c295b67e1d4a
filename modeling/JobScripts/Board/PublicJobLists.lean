import JobScripts.Lib.Base64
import JobScripts.Lib.IsoTime
import JobScripts.Lib.Keyset
import JobScripts.Lib.Dumps
import JobScripts.Lib.Sql
import Mathlib.Data.Rat.Defs
import Mathlib.Algebra.Order.Ring.Rat

/-!
# The postings of a published board, page by page

`get_public_job_list` answers with one page of a board's postings, in the order of a column and a direction, and with
a cursor for the next. A cursor is the sort value and the id of the last posting of the page, as JSON in base64; the
next page is what the order has after them, postings without a value last.

`cursors_list_every_posting` says that following the cursors lists every posting once, that a cursor is read back,
and which other texts are refused; a text that nests deeper than `json.loads` goes is neither refused nor read
(`deep_cursor_raises`).
-/

namespace JobScripts.Board.PublicJobLists

open Lib Lib.Loads Lib.Dumps Lib.IsoTime

/-- A text: its code points. -/
abbrev Text := List ℕ

/-! ## Values -/

/-- `PublicSort`: what a job list can be sorted by. -/
inductive PublicSort
  | posted | added | company | title | comp

/-- `SortDirection`: which way a job list is sorted. -/
inductive SortDirection
  | asc | desc

/-- The name of a sort. -/
def PublicSort.name : PublicSort → Text
  | .posted => codes "posted"
  | .added => codes "added"
  | .company => codes "company"
  | .title => codes "title"
  | .comp => codes "comp"

/-- The name of a direction. -/
def SortDirection.name : SortDirection → Text
  | .asc => codes "asc"
  | .desc => codes "desc"

/-- A `datetime` that knows its zone. -/
structure Timestamp where
  datetime : Datetime
  valid : datetime.Valid
  aware : datetime.offset.isSome = true

/-- A `text` of the database: characters, none of them a surrogate. -/
structure Characters where
  text : Text
  lt : ∀ c ∈ text, c < 0x110000
  isSurrogate : ∀ c ∈ text, isSurrogate c = false

/-- A `bigint`. -/
structure Bigint where
  value : ℤ
  ge : -2 ^ 63 ≤ value
  lt : value < 2 ^ 63

/-- A `Decimal`, as the database compares it. -/
inductive Numeric
  | number (q : ℚ)
  | infinity (negative : Bool)
  | nan

/-- Negative infinity is below the numbers, infinity above them, and what is no number above all. -/
def Numeric.rank : Numeric → ℕ
  | .infinity true => 0
  | .number _ => 1
  | .infinity false => 2
  | .nan => 3

/-- The number that it is. -/
def Numeric.value : Numeric → ℚ
  | .number q => q
  | _ => 0

/-- What the column of a sort holds. -/
abbrev SortValue : PublicSort → Type
  | .posted | .added => Timestamp
  | .company | .title => Characters
  | .comp => Bigint

/-- What a cursor holds. -/
abbrev CursorValue : PublicSort → Type
  | .posted | .added => Timestamp
  | .company | .title => Text
  | .comp => Numeric

/-- The value of a column as that of a cursor: `Decimal(n) == n`. -/
def SortValue.cursor : {sort : PublicSort} → SortValue sort → CursorValue sort
  | .posted, v | .added, v => v
  | .company, v | .title, v => v.text
  | .comp, v => .number v.value

/-- A job id that a cursor holds: `isinstance(True, int)`. -/
inductive JobId
  | int (n : ℤ)
  | bool (b : Bool)

/-! ## Cursors -/

/-- What is asked of Python: how many lists and objects `json.loads` opens inside one another, and what its readers
make of the texts that no writer here writes. -/
structure Python where
  recursion : ℕ
  recursion_pos : 1 ≤ recursion
  /-- `b64decode` on a text that is not in fours, or has other characters. -/
  other_base64 : Text → Option (List ℕ)
  /-- `bytes.decode` in the encoding that `json.loads` detects, on bytes that are not ASCII. -/
  other_encoding : List ℕ → Option Text
  /-- `datetime.fromisoformat` on the other ISO formats. -/
  other_time : Text → Option Datetime
  /-- `Decimal` on what is no integer. -/
  other_decimal : Text → Option Numeric

/-- What `_decode_cursor` can raise inside of its `try`. -/
inductive Raised
  | type_error
  | value_error
  | invalid_operation
  | recursion_error

section Cursors

variable (py : Python)

/-- `base64.urlsafe_b64decode`: the bytes of a cursor, as Python reads those too that are not written here. -/
def urlsafeB64decode (t : Text) : Option (List ℕ) := (Base64.decode t).or (py.other_base64 t)

/-- The text that `json.loads` reads of some bytes. -/
def decodeText (bytes : List ℕ) : Option Text :=
  if bytes.all fun b => 0 < b && b < 0x80 then some bytes else py.other_encoding bytes

/-- `datetime.fromisoformat`: the moment that a text spells, as Python reads those too that are not written here. -/
def fromisoformat (t : Text) : Option Datetime := (IsoTime.read t).or (py.other_time t)

/-- `Decimal`: the number that a text spells, as Python reads those too that are not written here. -/
def decimal (t : Text) : Option Numeric :=
  match Loads.number t with
  | .ok (.int n, []) => some (.number n)
  | _ => py.other_decimal t

/-- `_serialize_sort_value`, of what is not null. -/
def serializeSortValue : {sort : PublicSort} → SortValue sort → Text
  | .posted, v | .added, v => isoformat v.datetime
  | .company, v | .title, v => v.text
  | .comp, v => intText v.value

/-- A text or `None`. -/
def optionalStr : Option Text → Value
  | some t => .str t
  | none => .null

/-- What a cursor says. -/
def payload (sort : PublicSort) (dir : SortDirection) (value : Option (SortValue sort)) (job_id : ℤ) : Value :=
  .dict [(codes "sort", .str sort.name), (codes "dir", .str dir.name),
    (codes "value", optionalStr (value.map serializeSortValue)), (codes "job_id", .int job_id)]

/-- `_encode_cursor`: the place in a list after a posting, as a text for the next request. -/
def encodeCursor (sort : PublicSort) (dir : SortDirection) (value : Option (SortValue sort)) (job_id : ℤ) : Text :=
  Base64.unpadded (Base64.encode (write .compact (payload sort dir value job_id)))

/-- The keys of a cursor. -/
def cursorKeys : List Text := [codes "sort", codes "dir", codes "value", codes "job_id"]

/-- What `set` does not take. -/
def unhashable : Value → Bool
  | .list _ | .dict _ => true
  | _ => false

/-- Some keys are those of a cursor. -/
def sameKeys (keys : List Text) : Bool := keys.all (· ∈ cursorKeys) && cursorKeys.all (· ∈ keys)

/-- A value is a text. -/
def isStr (s : Text) : Option Value → Bool
  | some (.str t) => t = s
  | _ => false

/-- A job id: an `int`, `True` among them, that is not below 1. -/
def readId : Option Value → Option JobId
  | some (.int n) => if n < 1 then none else some (.int n)
  | some (.bool true) => some (.bool true)
  | _ => none

/-- The text of a value, or `None`. -/
def readRaw : Option Value → Option (Option Text)
  | some .null => some none
  | some (.str t) => some (some t)
  | _ => none

/-- The checks of `_decode_cursor` on what is parsed, and what is left: the value and the id. -/
def checked (sort : PublicSort) (dir : SortDirection) : Value → Except Raised (Option Text × JobId)
  | .dict members =>
    if !sameKeys (members.map Prod.fst) then .error .value_error
    else if !isStr sort.name (getItem (codes "sort") members) then .error .value_error
    else if !isStr dir.name (getItem (codes "dir") members) then .error .value_error
    else
      match readId (getItem (codes "job_id") members), readRaw (getItem (codes "value") members) with
      | some id, some raw => .ok (raw, id)
      | _, _ => .error .value_error
  | .list items =>
    -- A list of the four names passes the first check, and has no keys.
    if items.any unhashable then .error .type_error
    else if items.all (fun v => cursorKeys.any fun k => isStr k (some v)) &&
        cursorKeys.all (fun k => items.any fun v => isStr k (some v)) then .error .type_error
    else .error .value_error
  | .str _ => .error .value_error
  | _ => .error .type_error

/-- A time, which has to know its zone. -/
def readTime (t : Text) : Except Raised Timestamp :=
  match fromisoformat py t with
  | some d => if h : d.Valid ∧ d.offset.isSome = true then .ok ⟨d, h.1, h.2⟩ else .error .value_error
  | none => .error .value_error

/-- A number. -/
def readDecimal (t : Text) : Except Raised Numeric :=
  match decimal py t with
  | some v => .ok v
  | none => .error .invalid_operation

/-- The value of a cursor, by the sort. -/
def readValue : (sort : PublicSort) → Text → Except Raised (CursorValue sort)
  | .posted, t | .added, t => readTime py t
  | .company, t | .title, t => .ok t
  | .comp, t => readDecimal py t

/-- What is inside of `_decode_cursor`'s `try`. -/
def tryDecodeCursor (cursor : Text) (sort : PublicSort) (dir : SortDirection) :
    Except Raised (Option (CursorValue sort) × JobId) :=
  match (urlsafeB64decode py (Base64.padded cursor)).bind (decodeText py) with
  | none => .error .value_error
  | some text =>
    match loads py.recursion text with
    | .error .invalid => .error .value_error
    | .error .recursion => .error .recursion_error
    | .ok parsed =>
      match checked sort dir parsed with
      | .error e => .error e
      | .ok (none, id) => .ok (none, id)
      | .ok (some t, id) =>
        match readValue py sort t with
        | .error e => .error e
        | .ok v => .ok (some v, id)

/-- What the `except` of `_decode_cursor` names. -/
def isCaught : Raised → Bool
  | .type_error | .value_error | .invalid_operation => true
  | .recursion_error => false

/-- What a request ends in, where it has no page. -/
inductive Failure
  /-- 400, `INVALID_CURSOR`. -/
  | invalid_cursor
  /-- 422, `COMP_UNITS_REQUIRED`. -/
  | comp_units_required
  /-- 404, `NOT_FOUND`. -/
  | not_found
  /-- An exception that nothing catches. -/
  | raised (e : Raised)
  /-- A parameter that the database does not compare with the column. -/
  | database_error

/-- `_decode_cursor`: the place that a cursor stands for. What the code catches makes the cursor invalid, and the rest
is raised. -/
def decodeCursor (cursor : Text) (sort : PublicSort) (dir : SortDirection) :
    Except Failure (Option (CursorValue sort) × JobId) :=
  match tryDecodeCursor py cursor sort dir with
  | .ok decoded => .ok decoded
  | .error e => .error (if isCaught e then .invalid_cursor else .raised e)

/-! ## A cursor is read back -/

variable {py}

/-- A value of a column is written in characters that come through JSON as they are. -/
theorem unpaired_serializeSortValue : ∀ {sort : PublicSort} (v : SortValue sort), Unpaired (serializeSortValue v)
  | .posted, v | .added, v => unpaired_of_lt (ascii_isoformat v.datetime)
  | .company, v | .title, v => unpaired_of_isSurrogate fun c hc => ⟨v.lt c hc, v.isSurrogate c hc⟩
  | .comp, v => by
    refine unpaired_of_lt fun c hc => ?_
    have hprint := isPrintable_of_isNumeric (List.all_eq_true.mp (all_intText v.value) c hc)
    simp only [isPrintable, Bool.and_eq_true, decide_eq_true_eq] at hprint
    omega

/-- A `bigint` has few digits. -/
theorem length_digits_le {n : ℤ} (hge : -2 ^ 63 ≤ n) (hlt : n ≤ 2 ^ 63) : (digits n.natAbs).length ≤ maxDigits := by
  have hnat : n.natAbs < 10 ^ 20 := by omega
  have hdigits : (Nat.digits 10 n.natAbs).length ≤ 20 := (Nat.digits_length_le_iff (by decide) _).mpr hnat
  unfold digits maxDigits
  split
  · decide
  · rw [List.length_map, List.length_reverse]
    omega

/-- A time that knows its zone is read back. -/
theorem readTime_isoformat (v : Timestamp) : readTime py (isoformat v.datetime) = .ok v := by
  have hread : fromisoformat py (isoformat v.datetime) = some v.datetime := by
    unfold fromisoformat
    rw [read_isoformat v.valid]
    rfl
  unfold readTime
  rw [hread]
  exact dif_pos ⟨v.valid, v.aware⟩

/-- So is an integer. -/
theorem readDecimal_intText (v : Bigint) : readDecimal py (intText v.value) = .ok (.number v.value) := by
  have hnumber : number (intText v.value ++ []) = .ok (.int v.value, []) :=
    number_intText (length_digits_le v.ge v.lt.le) fun c hc => absurd hc (Option.not_mem_none c)
  rw [List.append_nil] at hnumber
  unfold readDecimal decimal
  rw [hnumber]

/-- So the value of a column is. -/
theorem readValue_serializeSortValue : ∀ {sort : PublicSort} (v : SortValue sort),
    readValue py sort (serializeSortValue v) = .ok v.cursor
  | .posted, v | .added, v => readTime_isoformat v
  | .company, _ | .title, _ => rfl
  | .comp, v => readDecimal_intText v

/-- The names are written in characters that come through JSON as they are. -/
theorem unpaired_names (sort : PublicSort) (dir : SortDirection) : Unpaired sort.name ∧ Unpaired dir.name ∧
    ∀ k ∈ cursorKeys, Unpaired k := by
  refine ⟨unpaired_of_lt ?_, unpaired_of_lt ?_, fun k hk => unpaired_of_lt ?_⟩
  · cases sort <;> decide
  · cases dir <;> decide
  · revert k
    decide

/-- What a cursor says can be read back. -/
theorem readable_payload {sort : PublicSort} {dir : SortDirection} {value : Option (SortValue sort)} {job_id : ℤ}
    (hpos : 1 ≤ job_id) (hlt : job_id < 2 ^ 63) : Readable (payload sort dir value job_id) := by
  obtain ⟨hsort, hdir, hkeys⟩ := unpaired_names sort dir
  have hvalue : Readable (optionalStr (value.map serializeSortValue)) := by
    cases value with
    | none => exact trivial
    | some v => exact unpaired_serializeSortValue v
  have hnodup : cursorKeys.Nodup := by decide
  exact ⟨hnodup, hkeys _ (by decide), hsort, hkeys _ (by decide), hdir, hkeys _ (by decide), hvalue,
    hkeys _ (by decide), length_digits_le (by omega) hlt.le, trivial⟩

/-- It is one object. -/
theorem depth_payload (sort : PublicSort) (dir : SortDirection) (value : Option (SortValue sort)) (job_id : ℤ) :
    depth (payload sort dir value job_id) = 1 := by
  cases value <;> rfl

/-- Each key has the value that it was given. -/
theorem get_members (a b c d : Value) :
    getItem (codes "sort") [(codes "sort", a), (codes "dir", b), (codes "value", c), (codes "job_id", d)] = some a ∧
    getItem (codes "dir") [(codes "sort", a), (codes "dir", b), (codes "value", c), (codes "job_id", d)] = some b ∧
    getItem (codes "value") [(codes "sort", a), (codes "dir", b), (codes "value", c), (codes "job_id", d)] = some c ∧
    getItem (codes "job_id") [(codes "sort", a), (codes "dir", b), (codes "value", c), (codes "job_id", d)] = some d :=
  ⟨rfl, rfl, rfl, rfl⟩

/-- An object with the four keys, the sort and the direction, an id and a text or null passes the checks. -/
theorem checked_dict {sort : PublicSort} {dir : SortDirection} {members : List (Text × Value)} {raw : Option Text}
    {n : ℤ} (hkeys : sameKeys (members.map Prod.fst) = true)
    (hsort : getItem (codes "sort") members = some (.str sort.name))
    (hdir : getItem (codes "dir") members = some (.str dir.name))
    (hvalue : getItem (codes "value") members = some (optionalStr raw))
    (hid : getItem (codes "job_id") members = some (.int n)) (hn : 1 ≤ n) :
    checked sort dir (.dict members) = .ok (raw, .int n) := by
  have hstr (t : Text) : isStr t (some (.str t)) = true := decide_eq_true rfl
  have hreadId : readId (some (.int n)) = some (.int n) := if_neg (Int.not_lt.mpr hn)
  have hreadRaw : readRaw (some (optionalStr raw)) = some raw := by
    cases raw <;> rfl
  unfold checked
  dsimp only
  rw [hkeys, hsort, hdir, hvalue, hid, hstr, hstr, hreadId, hreadRaw]
  rfl

/-- What a cursor says passes the checks. -/
theorem checked_payload {sort : PublicSort} {dir : SortDirection} {value : Option (SortValue sort)} {job_id : ℤ}
    (hpos : 1 ≤ job_id) : checked sort dir (payload sort dir value job_id) =
      .ok (value.map serializeSortValue, .int job_id) := by
  have hkeys : sameKeys cursorKeys = true := by decide
  obtain ⟨hsort, hdir, hvalue, hid⟩ := get_members (.str sort.name) (.str dir.name)
    (optionalStr (value.map serializeSortValue)) (.int job_id)
  exact checked_dict hkeys hsort hdir hvalue hid hpos

/-- What is encoded is ASCII. -/
theorem decodeText_write {v : Value} (h : Readable v) :
    decodeText py (write .compact v) = some (write .compact v) := by
  have hall : ((write .compact v).all fun b => 0 < b && b < 0x80) = true := by
    rw [List.all_eq_true]
    intro c hc
    have hprint := List.all_eq_true.mp (all_write h) c hc
    simp only [isPrintable, Bool.and_eq_true, decide_eq_true_eq] at hprint ⊢
    omega
  exact if_pos hall

/-- What is encoded are bytes. -/
theorem lt_of_mem_write {v : Value} (h : Readable v) : ∀ b ∈ write .compact v, b < 256 := by
  intro b hb
  have hprint := List.all_eq_true.mp (all_write h) b hb
  simp only [isPrintable, Bool.and_eq_true, decide_eq_true_eq] at hprint
  omega

/-- A cursor has characters. -/
theorem encodeCursor_ne_nil {sort : PublicSort} {dir : SortDirection} {value : Option (SortValue sort)} {job_id : ℤ}
    (hpos : 1 ≤ job_id) (hlt : job_id < 2 ^ 63) : encodeCursor sort dir value job_id ≠ [] := by
  unfold encodeCursor
  rw [Base64.unpadded_encode (lt_of_mem_write (readable_payload hpos hlt))]
  exact Base64.letters_ne_nil (List.cons_ne_nil _ _)

/-- `_decode_cursor` reads back what `_encode_cursor` writes. -/
theorem decodeCursor_encodeCursor {sort : PublicSort} {dir : SortDirection} {value : Option (SortValue sort)}
    {job_id : ℤ} (hpos : 1 ≤ job_id) (hlt : job_id < 2 ^ 63) :
    decodeCursor py (encodeCursor sort dir value job_id) sort dir =
      .ok (value.map SortValue.cursor, .int job_id) := by
  have hreadable : Readable (payload sort dir value job_id) := readable_payload hpos hlt
  have hbase : urlsafeB64decode py (Base64.padded (encodeCursor sort dir value job_id)) =
      some (write .compact (payload sort dir value job_id)) := by
    unfold urlsafeB64decode encodeCursor
    rw [Base64.decode_padded (lt_of_mem_write hreadable)]
    rfl
  have hloads : loads py.recursion (write .compact (payload sort dir value job_id)) =
      .ok (payload sort dir value job_id) :=
    loads_write hreadable ((depth_payload sort dir value job_id).trans_le py.recursion_pos)
  unfold decodeCursor tryDecodeCursor
  rw [hbase, Option.bind_some, decodeText_write hreadable]
  dsimp only
  rw [hloads]
  dsimp only
  rw [checked_payload hpos]
  cases value with
  | none => rfl
  | some v =>
    dsimp only [Option.map_some]
    rw [readValue_serializeSortValue]

/-! ## Which texts are refused -/

/-- A cursor whose text opens more lists and objects inside one another than `json.loads` does. -/
def TooDeep (py : Python) (cursor : Text) : Prop :=
  ∃ text, (urlsafeB64decode py (Base64.padded cursor)).bind (decodeText py) = some text ∧
    Deep py.recursion (skip text)

variable {cursor : Text} {sort : PublicSort} {dir : SortDirection}

/-- The checks do not run out of recursion. -/
theorem checked_ne_recursion (v : Value) : checked sort dir v ≠ .error .recursion_error := by
  unfold checked
  split
  · split
    · exact nofun
    split
    · exact nofun
    split
    · exact nofun
    split
    · exact nofun
    · exact nofun
  · split
    · exact nofun
    split
    · exact nofun
    · exact nofun
  · exact nofun
  · exact nofun

/-- Nor does reading the value. -/
theorem readValue_ne_recursion (t : Text) : readValue py sort t ≠ .error .recursion_error := by
  have htime : readTime py t ≠ .error .recursion_error := by
    unfold readTime
    split
    · split
      · exact nofun
      · exact nofun
    · exact nofun
  have hdecimal : readDecimal py t ≠ .error .recursion_error := by
    unfold readDecimal
    split
    · exact nofun
    · exact nofun
  cases sort with
  | posted => exact htime
  | added => exact htime
  | company => exact nofun
  | title => exact nofun
  | comp => exact hdecimal

/-- So it is the text that has to be too deep. -/
theorem tryDecodeCursor_eq_recursion_iff :
    tryDecodeCursor py cursor sort dir = .error .recursion_error ↔ TooDeep py cursor := by
  unfold tryDecodeCursor TooDeep
  cases (urlsafeB64decode py (Base64.padded cursor)).bind (decodeText py) with
  | none => simp
  | some text =>
    dsimp only
    have hdeep : loads py.recursion text = .error .recursion ↔ Deep py.recursion (skip text) := loads_eq_recursion_iff
    constructor
    · intro h
      refine ⟨text, rfl, hdeep.mp ?_⟩
      cases hloads : loads py.recursion text with
      | error e =>
        rw [hloads] at h
        cases e with
        | invalid => exact absurd h nofun
        | recursion => rfl
      | ok parsed =>
        rw [hloads] at h
        dsimp only at h
        split at h
        · next e he =>
          obtain rfl := Except.error.inj h
          exact absurd he (checked_ne_recursion parsed)
        · exact absurd h nofun
        · next t id ht =>
          split at h
          · next e he =>
            obtain rfl := Except.error.inj h
            exact absurd he (readValue_ne_recursion t)
          · exact absurd h nofun
    · rintro ⟨text', htext, hdeep'⟩
      obtain rfl := Option.some_inj.mp htext
      rw [hdeep.mpr hdeep']

/-- A cursor that goes too deep raises, and nothing catches it. -/
theorem decodeCursor_of_tooDeep (h : TooDeep py cursor) :
    decodeCursor py cursor sort dir = .error (.raised .recursion_error) := by
  unfold decodeCursor
  rw [tryDecodeCursor_eq_recursion_iff.mpr h]
  rfl

/-- Every other text is refused, or read. -/
theorem decodeCursor_iff : (decodeCursor py cursor sort dir = .error .invalid_cursor ∨
    ∃ decoded, decodeCursor py cursor sort dir = .ok decoded) ↔ ¬ TooDeep py cursor := by
  have hdeep : tryDecodeCursor py cursor sort dir = .error .recursion_error ↔ TooDeep py cursor :=
    tryDecodeCursor_eq_recursion_iff
  rw [← hdeep]
  unfold decodeCursor
  cases htry : tryDecodeCursor py cursor sort dir with
  | ok decoded => simp
  | error e =>
    cases e with
    | type_error => simp [isCaught]
    | value_error => simp [isCaught]
    | invalid_operation => simp [isCaught]
    | recursion_error => simp [isCaught]

end Cursors

/-! ## Pages -/

/-- What a board's page reads of a posting, with the columns that only the filters and the cards read. -/
structure Posting (α : Type) where
  job_id : ℤ
  id_pos : 1 ≤ job_id
  id_lt : job_id < 2 ^ 63
  date_posted : Option Timestamp
  created_at : Timestamp
  company : Option Characters
  title : Option Characters
  comp_max : Option Bigint
  columns : α

/-- What is asked of the database: `lower`, and the order of texts. -/
structure Database where
  lower : Characters → Characters
  collate : Text → Text → Ordering
  trans : Std.TransCmp collate

/-- A published board. Its postings are the rows of `managed_board_jobs`, one for each job. -/
structure ManagedBoard (α : Type) where
  jobs : List (Posting α)
  primary_key : (jobs.map Posting.job_id).Nodup

/-- A request for a page. -/
structure Request (α : Type) where
  limit : ℕ
  ge : 1 ≤ limit
  le : limit ≤ 100
  cursor : Option Text
  sort : PublicSort
  dir : SortDirection
  min_comp : Option ℚ
  comp_currency : Option Text
  comp_period : Option Text
  /-- The viewer's clauses. -/
  selection : Posting α → Sql.Truth

/-- A page. -/
structure Page (α : Type) where
  matched_count : ℕ
  jobs : List (Posting α)
  next_cursor : Option Text
  has_more : Bool

section Pages

variable {α : Type} (db : Database)

/-- `_SORT_EXPRESSIONS`: what a posting is sorted by. -/
def sortValue : (sort : PublicSort) → Posting α → Option (SortValue sort)
  | .posted, p => p.date_posted
  | .added, p => some p.created_at
  | .company, p => p.company.map db.lower
  | .title, p => p.title.map db.lower
  | .comp, p => p.comp_max

/-- The column of a sort, as a cursor's value is compared with it. -/
def expression (sort : PublicSort) (p : Posting α) : Option (CursorValue sort) :=
  (sortValue db sort p).map SortValue.cursor

/-- The order of values. -/
def compareValues : (sort : PublicSort) → CursorValue sort → CursorValue sort → Ordering
  | .posted | .added => compareOn fun v => v.datetime.instant
  | .company | .title => db.collate
  | .comp => compareLex (compareOn Numeric.rank) (compareOn Numeric.value)

/-- The order of a direction. -/
def directed {β : Type} (cmp : β → β → Ordering) : SortDirection → β → β → Ordering
  | .asc, a, b => cmp a b
  | .desc, a, b => cmp b a

/-- `… NULLS LAST`: a posting without a value comes after those that have one. -/
def nullsLast {β : Type} (cmp : β → β → Ordering) : Option β → Option β → Ordering
  | some a, some b => cmp a b
  | some _, none => .lt
  | none, some _ => .gt
  | none, none => .eq

/-- The `ORDER BY`: the column of the sort, nulls last, and the job id. -/
def rowOrder (sort : PublicSort) (dir : SortDirection) : Posting α → Posting α → Ordering :=
  compareLex
    (fun p q => nullsLast (directed (compareValues db sort) dir) (expression db sort p) (expression db sort q))
    fun p q => directed compare dir p.job_id q.job_id

/-- `a > b`, or `a < b` where the direction is descending. -/
def comparator {β : Type} (cmp : β → β → Ordering) (dir : SortDirection) (a b : β) : Bool :=
  match dir with
  | .asc => cmp a b = .gt
  | .desc => cmp a b = .lt

/-- `_cursor_predicate`: a posting comes after the place of the cursor. -/
def cursorPredicate (sort : PublicSort) (dir : SortDirection) (value : Option (CursorValue sort)) (cursor_id : ℤ)
    (p : Posting α) : Sql.Truth :=
  let e := expression db sort p
  let later : Sql.Truth := some (comparator compare dir p.job_id cursor_id)
  match value with
  | none => Sql.and (Sql.isNull e) later
  | some v =>
    Sql.or (Sql.isNull e) (Sql.or (e.map fun w => comparator (compareValues db sort) dir w v)
      (Sql.and (e.map fun w => compareValues db sort w v = .eq) later))

/-- The rows of `jobs_sql`. -/
def jobsSql (board : ManagedBoard α) (r : Request α) (condition : Posting α → Sql.Truth) : List (Posting α) :=
  (Keyset.ordered (rowOrder db r.sort r.dir) (board.jobs.filter fun p =>
    (Sql.and (r.selection p) (condition p)).IsTrue)).take (r.limit + 1)

/-- The postings that match the filters. -/
def matched (board : ManagedBoard α) (r : Request α) : List (Posting α) :=
  board.jobs.filter fun p => (r.selection p).IsTrue

/-- The answer of a request, from the rows that it reads. -/
def pageOf (board : ManagedBoard α) (r : Request α) (rows : List (Posting α)) : Page α where
  matched_count := (matched board r).length
  jobs := rows.take r.limit
  next_cursor :=
    if r.limit < rows.length then
      (rows.take r.limit).getLast?.map fun p => encodeCursor r.sort r.dir (sortValue db r.sort p) p.job_id
    else none
  has_more := r.limit < rows.length

/-- `get_public_job_list`, with the board that has the slug and is published. -/
def getPublicJobList (py : Python) (board : Option (ManagedBoard α)) (r : Request α) : Except Failure (Page α) :=
  if r.min_comp.isSome && (r.comp_currency.isNone || r.comp_period.isNone) then .error .comp_units_required
  else
    match r.cursor.filter (!·.isEmpty) with
    | none =>
      match board with
      | none => .error .not_found
      | some b => .ok (pageOf db b r (jobsSql db b r fun _ => some true))
    | some cursor =>
      match decodeCursor py cursor r.sort r.dir with
      | .error e => .error e
      | .ok (value, id) =>
        match board, id with
        | none, _ => .error .not_found
        | some _, .bool _ => .error .database_error
        | some b, .int n => .ok (pageOf db b r (jobsSql db b r (cursorPredicate db r.sort r.dir value n)))

/-- The postings of the page that has a cursor, and the cursor of the next; nothing where the request fails. -/
def fetch (py : Python) (board : ManagedBoard α) (r : Request α) (cursor : Option Text) :
    Option (List (Posting α) × Option Text) :=
  match getPublicJobList db py (some board) { r with cursor := cursor } with
  | .ok page => some (page.jobs, page.next_cursor)
  | .error _ => none

/-- The pages from the first on, each from the cursor of the one before. -/
def follow (py : Python) (board : ManagedBoard α) (r : Request α) (fuel : ℕ) : Option (List (List (Posting α))) :=
  Keyset.walk (fetch db py board r) fuel none

/-- The cursor of a row. -/
def rowCursor (r : Request α) (p : Posting α) : Text :=
  encodeCursor r.sort r.dir (sortValue db r.sort p) p.job_id

/-! ## The order -/

variable {db} {β γ : Type} {cmp : β → β → Ordering}

/-- An order of what is read of a row is one of the rows. -/
theorem transCmp_on (f : γ → β) (h : Std.TransCmp cmp) : Std.TransCmp fun a b => cmp (f a) (f b) where
  eq_swap := h.eq_swap
  isLE_trans := h.isLE_trans

/-- With the nulls last, an order is one. -/
theorem transCmp_nullsLast (h : Std.TransCmp cmp) : Std.TransCmp (nullsLast cmp) where
  eq_swap := by
    rintro (_ | a) (_ | b)
    · rfl
    · rfl
    · rfl
    · exact h.eq_swap
  isLE_trans := by
    rintro (_ | a) (_ | b) (_ | c) hab hbc
    · rfl
    · exact absurd hbc nofun
    · exact absurd hab nofun
    · exact absurd hab nofun
    · rfl
    · exact absurd hbc nofun
    · rfl
    · exact h.isLE_trans hab hbc

/-- In either direction it is. -/
theorem transCmp_directed (h : Std.TransCmp cmp) (dir : SortDirection) : Std.TransCmp (directed cmp dir) := by
  cases dir with
  | asc => exact h
  | desc => exact inferInstanceAs (Std.TransCmp fun a b => cmp b a)

/-- The values of each sort are ordered. -/
theorem transCmp_compareValues (db : Database) (sort : PublicSort) : Std.TransCmp (compareValues db sort) := by
  cases sort with
  | posted => exact inferInstanceAs (Std.TransCmp (compareOn fun v : Timestamp => v.datetime.instant))
  | added => exact inferInstanceAs (Std.TransCmp (compareOn fun v : Timestamp => v.datetime.instant))
  | company => exact db.trans
  | title => exact db.trans
  | comp => exact inferInstanceAs (Std.TransCmp (compareLex (compareOn Numeric.rank) (compareOn Numeric.value)))

/-- So are the rows. -/
instance transCmp_rowOrder (sort : PublicSort) (dir : SortDirection) :
    Std.TransCmp (rowOrder (α := α) db sort dir) := by
  have hvalues := transCmp_nullsLast (transCmp_directed (transCmp_compareValues db sort) dir)
  have hids : Std.TransCmp (directed (compare : ℤ → ℤ → Ordering) dir) := transCmp_directed inferInstance dir
  have h₁ := transCmp_on (fun p : Posting α => expression db sort p) hvalues
  have h₂ := transCmp_on (fun p : Posting α => p.job_id) hids
  unfold rowOrder
  infer_instance

/-- A row is later than another where that comes before it. -/
theorem comparator_iff [Std.OrientedCmp cmp] {dir : SortDirection} {a b : β} :
    comparator cmp dir a b = true ↔ directed cmp dir b a = .lt := by
  cases dir with
  | asc => exact decide_eq_true_iff.trans Std.OrientedCmp.gt_iff_lt
  | desc => exact decide_eq_true_iff

variable {sort : PublicSort} {dir : SortDirection} {c p : Posting α}

/-- The predicate of the cursor of a row holds of the rows after it. -/
theorem cursorPredicate_iff : (cursorPredicate db sort dir (expression db sort c) c.job_id p).IsTrue ↔
    Keyset.before (rowOrder db sort dir) c p = true := by
  have hvalues := transCmp_compareValues db sort
  have hlater : comparator compare dir p.job_id c.job_id = true ↔ directed compare dir c.job_id p.job_id = .lt :=
    comparator_iff
  have hbefore : Keyset.before (rowOrder db sort dir) c p = true ↔
      (nullsLast (directed (compareValues db sort) dir) (expression db sort c) (expression db sort p)).then
        (directed compare dir c.job_id p.job_id) = .lt := decide_eq_true_iff
  have hequal (v w : CursorValue sort) : compareValues db sort w v = .eq ↔
      directed (compareValues db sort) dir v w = .eq := by
    cases dir with
    | asc => exact Std.OrientedCmp.eq_comm
    | desc => exact Iff.rfl
  rw [hbefore, Ordering.then_eq_lt]
  unfold cursorPredicate
  dsimp only
  cases expression db sort c with
  | none =>
    dsimp only
    rw [Sql.and_isTrue, Sql.isNull_isTrue, Sql.some_isTrue, hlater]
    cases expression db sort p with
    | none => simp [nullsLast]
    | some w => simp [nullsLast]
  | some v =>
    dsimp only
    rw [Sql.or_isTrue, Sql.or_isTrue, Sql.and_isTrue, Sql.isNull_isTrue, Sql.some_isTrue, hlater]
    cases expression db sort p with
    | none => simp [nullsLast]
    | some w =>
      rw [Option.map_some, Option.map_some, Sql.some_isTrue, Sql.some_isTrue, comparator_iff, decide_eq_true_iff, hequal]
      simp [nullsLast]

/-! ## Following the cursors -/

variable {board : ManagedBoard α} {r : Request α}

/-- No two postings compare equal, as their ids differ. -/
theorem distinct_matched : Keyset.Distinct (rowOrder db sort dir) (matched board r) := by
  have hids : board.jobs.Pairwise fun p q => p.job_id ≠ q.job_id := List.pairwise_map.mp board.primary_key
  refine (List.Pairwise.filter _ hids).imp fun {p q} hne heq => hne ?_
  have hid : directed compare dir p.job_id q.job_id = .eq := (Ordering.then_eq_eq.mp heq).2
  cases dir with
  | asc => exact compare_eq_iff_eq.mp hid
  | desc => exact (compare_eq_iff_eq.mp hid).symm

/-- A page is cut from the rows, of which one more than it holds is read. -/
theorem pageOf_take (rows : List (Posting α)) :
    ((pageOf db board r (rows.take (r.limit + 1))).jobs, (pageOf db board r (rows.take (r.limit + 1))).next_cursor) =
      Keyset.cut r.limit (rowCursor db r) rows := by
  have htake : (rows.take (r.limit + 1)).take r.limit = rows.take r.limit := by
    rw [List.take_take]
    congr 1
    omega
  have hmore : r.limit < (rows.take (r.limit + 1)).length ↔ r.limit < rows.length := by
    rw [List.length_take]
    omega
  unfold pageOf Keyset.cut
  dsimp only
  rw [htake]
  simp only [hmore]
  rfl

/-- The first page. -/
theorem jobsSql_first : jobsSql db board r (fun _ => some true) =
    (Keyset.ordered (rowOrder db r.sort r.dir) (matched board r)).take (r.limit + 1) := by
  unfold jobsSql matched
  congr 2
  refine List.filter_congr fun p _ => ?_
  rw [decide_eq_decide, Sql.and_isTrue]
  exact and_iff_left rfl

/-- The page after a row. -/
theorem jobsSql_after (c : Posting α) :
    jobsSql db board r (cursorPredicate db r.sort r.dir (expression db r.sort c) c.job_id) =
      (Keyset.ordered (rowOrder db r.sort r.dir)
        ((matched board r).filter (Keyset.before (rowOrder db r.sort r.dir) c))).take (r.limit + 1) := by
  unfold jobsSql matched
  rw [List.filter_filter]
  congr 2
  refine List.filter_congr fun p _ => ?_
  rw [Bool.eq_iff_iff, decide_eq_true_iff, Bool.and_eq_true, Sql.and_isTrue, cursorPredicate_iff, decide_eq_true_iff]
  exact And.comm

/-- There is a next page exactly if the cursor of one is returned. -/
theorem has_more_pageOf (rows : List (Posting α)) :
    (pageOf db board r rows).has_more = (pageOf db board r rows).next_cursor.isSome := by
  unfold pageOf
  dsimp only
  split
  · next hmore =>
    have hne : rows.take r.limit ≠ [] := by
      have hge := r.ge
      rw [Ne, List.take_eq_nil_iff]
      rintro (hzero | rfl)
      · omega
      · exact absurd hmore (Nat.not_lt_zero _)
    rw [decide_eq_true hmore, Option.isSome_map, List.getLast?_isSome.mpr hne]
  · next hmore => exact decide_eq_false hmore

/-- A page is made of the rows that are read. -/
theorem exists_pageOf {py : Python} {page : Page α} (h : getPublicJobList db py (some board) r = .ok page) :
    ∃ rows, page = pageOf db board r rows := by
  unfold getPublicJobList at h
  split at h
  · exact absurd h nofun
  · split at h
    · exact ⟨_, (Except.ok.inj h).symm⟩
    · split at h
      · exact absurd h nofun
      · split at h
        · exact absurd h nofun
        · exact absurd h nofun
        · next heq _ =>
          obtain rfl := Option.some_inj.mp heq
          exact ⟨_, (Except.ok.inj h).symm⟩

/-- Every page says how many postings match, and whether there are more. -/
theorem of_getPublicJobList {py : Python} {page : Page α} (h : getPublicJobList db py (some board) r = .ok page) :
    page.matched_count = (matched board r).length ∧ page.has_more = page.next_cursor.isSome := by
  obtain ⟨rows, rfl⟩ := exists_pageOf h
  exact ⟨rfl, has_more_pageOf rows⟩

/-- A minimum of pay comes with its units. -/
def UnitsGiven (r : Request α) : Prop :=
  (r.min_comp.isSome && (r.comp_currency.isNone || r.comp_period.isNone)) = false

/-- Without a cursor the first page is returned. -/
theorem fetch_first {py : Python} (hunits : UnitsGiven r) : fetch db py board r none =
    some (Keyset.cut r.limit (rowCursor db r) (Keyset.ordered (rowOrder db r.sort r.dir) (matched board r))) := by
  have hpage : getPublicJobList db py (some board) { r with cursor := none } =
      .ok (pageOf db board r (jobsSql db board r fun _ => some true)) := by
    unfold getPublicJobList
    dsimp only
    rw [if_neg (by rw [hunits]; exact nofun)]
    rfl
  unfold fetch
  rw [hpage, jobsSql_first]
  exact congrArg some (pageOf_take _)

/-- With the cursor of a row, the page after it. -/
theorem fetch_after {py : Python} (hunits : UnitsGiven r) (c : Posting α) :
    fetch db py board r (some (rowCursor db r c)) = some (Keyset.cut r.limit (rowCursor db r)
      (Keyset.ordered (rowOrder db r.sort r.dir)
        ((matched board r).filter (Keyset.before (rowOrder db r.sort r.dir) c)))) := by
  have hne : rowCursor db r c ≠ [] := encodeCursor_ne_nil c.id_pos c.id_lt
  have hcursor : (some (rowCursor db r c)).filter (!·.isEmpty) = some (rowCursor db r c) := by
    refine Option.filter_some_pos ?_
    rw [Bool.not_eq_true', List.isEmpty_eq_false_iff]
    exact hne
  have hdecode : decodeCursor py (rowCursor db r c) r.sort r.dir =
      .ok (expression db r.sort c, .int c.job_id) := decodeCursor_encodeCursor c.id_pos c.id_lt
  have hpage : getPublicJobList db py (some board) { r with cursor := some (rowCursor db r c) } =
      .ok (pageOf db board r (jobsSql db board r (cursorPredicate db r.sort r.dir (expression db r.sort c) c.job_id))) := by
    unfold getPublicJobList
    dsimp only
    rw [if_neg (by rw [hunits]; exact nofun), hcursor]
    dsimp only
    rw [hdecode]
    rfl
  unfold fetch
  rw [hpage, jobsSql_after]
  exact congrArg some (pageOf_take _)

/-- Following the cursors lists the postings that match, each once and in order. -/
theorem follow_eq {py : Python} (hunits : UnitsGiven r) {fuel : ℕ} (hfuel : (matched board r).length < fuel) :
    ∃ pages, follow db py board r fuel = some pages ∧
      pages.flatten = Keyset.ordered (rowOrder db r.sort r.dir) (matched board r) ∧
      pages.length = max 1 (((matched board r).length + r.limit - 1) / r.limit) :=
  Keyset.walk_ordered distinct_matched r.ge (fun c _ => fetch_after hunits c) (fetch_first hunits) hfuel

end Pages

/-- Following the cursors of a published board lists the postings that match the filters, each once, in the order of
the sort and the direction, in as few pages as they fill, and each page has their number; a cursor is read back; and
a text is refused as a cursor, or read as one, exactly if it does not go deeper than `json.loads`. -/
theorem cursors_list_every_posting {α : Type} (db : Database) (py : Python) (board : ManagedBoard α) (r : Request α)
    (hunits : UnitsGiven r) :
    (∀ fuel, (matched board r).length < fuel → ∃ pages, follow db py board r fuel = some pages ∧
      pages.flatten = Keyset.ordered (rowOrder db r.sort r.dir) (matched board r) ∧
      pages.flatten.Perm (matched board r) ∧ (pages.flatten.map Posting.job_id).Nodup ∧
      pages.length = max 1 (((matched board r).length + r.limit - 1) / r.limit)) ∧
      (∀ cursor page, getPublicJobList db py (some board) { r with cursor := cursor } = .ok page →
        page.matched_count = (matched board r).length ∧ page.has_more = page.next_cursor.isSome) ∧
      (∀ sort dir (value : Option (SortValue sort)) (job_id : ℤ), 1 ≤ job_id → job_id < 2 ^ 63 →
        decodeCursor py (encodeCursor sort dir value job_id) sort dir =
          .ok (value.map SortValue.cursor, .int job_id)) ∧
      ∀ cursor sort dir, (decodeCursor py cursor sort dir = .error .invalid_cursor ∨
        ∃ decoded, decodeCursor py cursor sort dir = .ok decoded) ↔ ¬ TooDeep py cursor := by
  refine ⟨fun fuel hfuel => ?_, fun cursor page hpage => of_getPublicJobList (r := { r with cursor := cursor }) hpage,
    fun sort dir value job_id hpos hlt => decodeCursor_encodeCursor hpos hlt, fun cursor sort dir => decodeCursor_iff⟩
  obtain ⟨pages, hfollow, hflatten, hlength⟩ := follow_eq hunits hfuel
  have hperm : pages.flatten.Perm (matched board r) := hflatten ▸ List.perm_insertionSort _ _
  have hnodup : ((matched board r).map Posting.job_id).Nodup :=
    board.primary_key.sublist ((List.filter_sublist).map _)
  exact ⟨pages, hfollow, hflatten, hperm, (hperm.map _).nodup_iff.mpr hnodup, hlength⟩

/-- A Python whose readers take nothing but what is written here, and whose recursion is a thousand deep. -/
def thousandDeep : Python where
  recursion := 1000
  recursion_pos := by decide
  other_base64 _ := none
  other_encoding _ := none
  other_time _ := none
  other_decimal _ := none

/-- A database that orders texts by their length. -/
def byLength : Database where
  lower c := c
  collate := compareOn List.length
  trans := inferInstance

/-- Midnight of the first of January of 2026, in UTC. -/
def newYear : Timestamp where
  datetime := ⟨2026, 1, 1, 0, 0, 0, 0, some 0⟩
  valid := by decide
  aware := rfl

/-- A posting of which nothing is known. -/
def unknown (n : ℕ) (h : n < 100) : Posting Unit where
  job_id := n + 1
  id_pos := by omega
  id_lt := by omega
  date_posted := none
  created_at := newYear
  company := none
  title := none
  comp_max := none
  columns := ()

/-- A board of two of them. -/
def twoUnknown : ManagedBoard Unit where
  jobs := [unknown 0 (by decide), unknown 1 (by decide)]
  primary_key := by decide

/-- A request for one posting after the other, the last posted first. -/
def oneByOne : Request Unit where
  limit := 1
  ge := by decide
  le := by decide
  cursor := none
  sort := .posted
  dir := .desc
  min_comp := none
  comp_currency := none
  comp_period := none
  selection _ := some true

/-- Two postings without a date are listed on two pages. -/
theorem cursors_list_every_posting_two : ∃ pages, follow byLength thousandDeep twoUnknown oneByOne 3 = some pages ∧
    (pages.flatten.map Posting.job_id).Nodup ∧ pages.length = 2 := by
  have hall := cursors_list_every_posting byLength thousandDeep twoUnknown oneByOne rfl
  obtain ⟨pages, hfollow, -, -, hnodup, hlength⟩ := hall.1 3 (by decide)
  exact ⟨pages, hfollow, hnodup, hlength.trans (by decide)⟩

/-! ## A deep cursor -/

/-- Some brackets that are opened at once, as a cursor. -/
def brackets (n : ℕ) : Text := Base64.unpadded (Base64.encode (List.replicate n 0x5B))

/-- One more than the recursion allows go too deep. -/
theorem tooDeep_brackets (py : Python) : TooDeep py (brackets (py.recursion + 1)) := by
  have hbytes : ∀ b ∈ List.replicate (py.recursion + 1) 0x5B, b < 256 := by
    intro b hb
    rw [List.eq_of_mem_replicate hb]
    decide
  have htext : decodeText py (List.replicate (py.recursion + 1) 0x5B) =
      some (List.replicate (py.recursion + 1) 0x5B) := by
    refine if_pos (List.all_eq_true.mpr fun b hb => ?_)
    rw [List.eq_of_mem_replicate hb]
    decide
  refine ⟨List.replicate (py.recursion + 1) 0x5B, ?_, ?_⟩
  · unfold urlsafeB64decode brackets
    rw [Base64.decode_padded hbytes]
    exact htext
  · have hskip : skip (List.replicate (py.recursion + 1) 0x5B) = List.replicate (py.recursion + 1) 0x5B :=
      List.dropWhile_cons_of_neg (by decide)
    have hdeep := deep_replicate py.recursion []
    rw [List.append_nil] at hdeep
    rw [hskip]
    exact hdeep

/-- A cursor that opens a thousand lists and one is neither refused nor read. -/
theorem deep_cursor_raises :
    decodeCursor thousandDeep (brackets 1001) .posted .desc = .error (.raised .recursion_error) :=
  decodeCursor_of_tooDeep (tooDeep_brackets thousandDeep)

end JobScripts.Board.PublicJobLists

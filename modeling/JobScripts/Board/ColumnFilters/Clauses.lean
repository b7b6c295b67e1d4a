import JobScripts.Lib.Like
import JobScripts.Lib.Dumps
import JobScripts.Lib.Sql
import Mathlib.Data.List.DropRight
import Mathlib.Data.List.Nodup
import Mathlib.Data.Rat.Defs
import Mathlib.Algebra.Order.Ring.Rat

/-!
# The column filters of the board

`compile_filters` turns a JSON list of column filters, each a field, an operator and perhaps a value, into the clauses
of a `WHERE` with their parameters. It refuses what is not offered, and a comparison of pay without the currency and
the period.
-/

namespace JobScripts.Board.ColumnFilters

open Lib Lib.Loads Lib.Dumps

/-- A text: its code points. -/
abbrev Text := List ℕ

/-! ## Fields -/

/-- `FilterKind`: what sort of values a column has. -/
inductive FilterKind
  | text | date | number | boolean
  deriving DecidableEq

/-- The operators. -/
inductive Operator
  | contains | not_contains | equals | not_equals | is_empty | is_not_empty | gte | lte
  deriving DecidableEq

/-- The name of an operator. -/
def Operator.name : Operator → Text
  | .contains => codes "contains"
  | .not_contains => codes "not_contains"
  | .equals => codes "equals"
  | .not_equals => codes "not_equals"
  | .is_empty => codes "is_empty"
  | .is_not_empty => codes "is_not_empty"
  | .gte => codes "gte"
  | .lte => codes "lte"

/-- `_OPERATORS`: the operators that a column of each kind offers. -/
def operators : FilterKind → List Operator
  | .text => [.contains, .not_contains, .equals, .not_equals, .is_empty, .is_not_empty]
  | .date | .number => [.equals, .gte, .lte, .is_empty, .is_not_empty]
  | .boolean => [.equals]

/-- The keys of `_FIELDS`. -/
inductive Field
  | company | title | locations | terms | source | url | notes | recruiter | connection1 | connection2 | documents
  | size | comp_currency | comp_period | comp_min | comp_max | date_posted | date_applied | added_at | active
  deriving DecidableEq

/-- The name of a field. -/
def Field.key : Field → Text
  | .company => codes "company"
  | .title => codes "title"
  | .locations => codes "locations"
  | .terms => codes "terms"
  | .source => codes "source"
  | .url => codes "url"
  | .notes => codes "notes"
  | .recruiter => codes "recruiter"
  | .connection1 => codes "connection1"
  | .connection2 => codes "connection2"
  | .documents => codes "documents"
  | .size => codes "size"
  | .comp_currency => codes "comp_currency"
  | .comp_period => codes "comp_period"
  | .comp_min => codes "comp_min"
  | .comp_max => codes "comp_max"
  | .date_posted => codes "date_posted"
  | .date_applied => codes "date_applied"
  | .added_at => codes "added_at"
  | .active => codes "active"

/-- The kind of a field. -/
def Field.kind : Field → FilterKind
  | .comp_min | .comp_max => .number
  | .date_posted | .date_applied | .added_at => .date
  | .active => .boolean
  | _ => .text

/-- `_FIELDS`, in its order. -/
def allFields : List Field :=
  [.company, .title, .locations, .terms, .source, .url, .notes, .recruiter, .connection1, .connection2, .documents,
    .size, .comp_currency, .comp_period, .comp_min, .comp_max, .date_posted, .date_applied, .added_at, .active]

/-- `_BOARD_ONLY`: the columns that only a person's own board has. -/
def boardOnly : List Field :=
  [.notes, .recruiter, .connection1, .connection2, .documents, .size, .date_applied]

/-- `_offered`: the columns that can be filtered by, on a board or in the catalog. -/
def offered (catalog_only : Bool) : List Field := allFields.filter fun f => !(catalog_only && f ∈ boardOnly)

/-! ## Rows -/

/-- A value of SQL: a text, a day, a number or a truth value. -/
inductive Datum
  | text (t : Text)
  | date (d : ℤ)
  | number (q : ℚ)
  | boolean (b : Bool)

/-- What the filters read of a posting `j`, of the person's row `uj` and of the posting's pay. Times are in
microseconds of UTC. -/
structure Row where
  company : Option Text
  title : Option Text
  locations : Option (List (Option Text))
  terms : Option (List (Option Text))
  source : Option Text
  url : Option Text
  notes : Option Text
  recruiter : Option Text
  connection1 : Option Text
  connection2 : Option Text
  documents : Option Text
  size : Option Text
  comp_currency : Option Text
  comp_period : Option Text
  comp_min : Option ℤ
  comp_max : Option ℤ
  date_posted : Option ℤ
  /-- `applied_at` of the row's application. -/
  applied_at : Option ℤ
  created_at : ℤ
  available : Option Bool

/-- `btrim(t)`: without the spaces around it. -/
def btrim (t : Text) : Text := (t.dropWhile (· = 0x20)).rdropWhile (· = 0x20)

/-- `array_to_string(a, ', ')`: the nulls are left out. -/
def arrayToString (a : List (Option Text)) : Text := (codes ", ").intercalate (a.filterMap id)

/-- `(t AT TIME ZONE 'UTC')::date`: the day of a time, in days since 1970. -/
def utcDate (t : ℤ) : ℤ := t / 86400000000

/-- The expression of a field. -/
def expression : Field → Row → Option Datum
  | .company, r => r.company.map fun t => .text (btrim t)
  | .title, r => r.title.map .text
  | .locations, r => r.locations.map fun a => .text (arrayToString a)
  | .terms, r => r.terms.map fun a => .text (arrayToString a)
  | .source, r => r.source.map .text
  | .url, r => r.url.map .text
  | .notes, r => r.notes.map .text
  | .recruiter, r => r.recruiter.map .text
  | .connection1, r => r.connection1.map .text
  | .connection2, r => r.connection2.map .text
  | .documents, r => r.documents.map .text
  | .size, r => r.size.map .text
  | .comp_currency, r => r.comp_currency.map .text
  | .comp_period, r => r.comp_period.map .text
  | .comp_min, r => r.comp_min.map fun n => .number n
  | .comp_max, r => r.comp_max.map fun n => .number n
  | .date_posted, r => r.date_posted.map fun t => .date (utcDate t)
  | .date_applied, r => r.applied_at.map fun t => .date (utcDate t)
  | .added_at, r => some (.date (utcDate r.created_at))
  | .active, r => some (.boolean (r.available.getD false))

/-! ## Clauses -/

/-- The name of a parameter. -/
abbrev Name := Text

/-- `column_filter_{index}`: the parameter of the filter with this index. -/
def nameOf (index : ℕ) : Name := codes "column_filter_" ++ digits index

/-- `=`, `<>`, `>=` and `<=`. -/
inductive Comparison
  | eq | ne | ge | le

/-- A clause, of the expression `e` of a field. -/
inductive Clause
  /-- `AND (NULLIF(btrim(e), '') IS NULL)` of a text, `AND (e IS NULL)` of anything else. -/
  | isEmpty (f : Field)
  /-- `AND NOT (…)` of the same. -/
  | isNotEmpty (f : Field)
  /-- `AND NULLIF(btrim(e), '') IS NOT NULL`: the column has text in it. -/
  | notBlank (f : Field)
  /-- `AND e ILIKE %(name)s`: the column matches the pattern, whatever the case. -/
  | ilike (f : Field) (name : Name)
  /-- `AND e NOT ILIKE %(name)s`: the column has a value, and does not match the pattern. -/
  | notIlike (f : Field) (name : Name)
  /-- `AND lower(e) = lower(%(name)s)`: the column is the text, whatever the case. -/
  | lowerEquals (f : Field) (name : Name)
  /-- `AND lower(e) <> lower(%(name)s)`: the column has a value, which is another text. -/
  | lowerDiffers (f : Field) (name : Name)
  /-- `AND e op %(name)s`: the column compares so with the parameter. -/
  | compare (f : Field) (op : Comparison) (name : Name)

/-- The placeholders of a clause. -/
def Clause.placeholders : Clause → List Name
  | .isEmpty _ | .isNotEmpty _ | .notBlank _ => []
  | .ilike _ name | .notIlike _ name | .lowerEquals _ name | .lowerDiffers _ name | .compare _ _ name => [name]

/-- The parameters. -/
abbrev Params := List (Name × Datum)

/-- The value of a placeholder. -/
def lookup (params : Params) (name : Name) : Option Datum := (params.find? fun p => p.1 = name).map Prod.snd

/-- What is asked of the database: the lower case of characters, and which values it takes as a parameter, a text
with a NUL not among them. -/
structure Database where
  letters : Like.Lower
  takes : Datum → Bool

/-! ## Compiling -/

/-- A `ColumnFilter`. -/
structure ColumnFilter where
  field : Text
  operator : Text
  value : Option Text
  deriving DecidableEq

/-- A `Decimal`. -/
inductive Decimal
  | finite (q : ℚ)
  /-- An infinity, or what is no number. -/
  | special

/-- What is asked of Python: how deep `json.loads` goes, `str.isspace`, `str.lower`, of which an empty text has none,
and `date.fromisoformat` and `Decimal`, which give nothing where they raise. -/
structure Python where
  recursion : ℕ
  isSpace : ℕ → Bool
  lower : Text → Text
  lower_nil : lower [] = []
  date : Text → Option ℤ
  decimal : Text → Option Decimal

/-- What the caller is told. -/
inductive Rejection
  /-- What `json.loads` says. -/
  | json
  /-- `Supply at most 32 column filters`. -/
  | tooMany
  /-- What the model says of a filter. -/
  | validation
  /-- `Unknown filter field: {field}`. -/
  | unknownField (field : Text)
  /-- `Unsupported operator for {field}`. -/
  | unsupportedOperator (field : Text)
  /-- `Empty-value operators do not take a value`. -/
  | takesNoValue
  /-- `A value is required for {field}`. -/
  | valueRequired (field : Text)
  /-- What `date.fromisoformat` says. -/
  | date
  /-- What `Decimal` says. -/
  | decimal
  /-- `Pay must be a finite number`. -/
  | notFinite
  /-- `Pay value exceeds the supported numeric range`. -/
  | tooLarge
  /-- `Pay comparisons require an exact currency and pay period`. -/
  | unitsRequired
  /-- `Boolean filters accept true or false`. -/
  | notBoolean

/-- What `compile_filters` ends in, where it has no clauses. -/
inductive Failure
  /-- 422, `INVALID_COLUMN_FILTER`. -/
  | refused (r : Rejection)
  /-- An exception that nothing catches. -/
  | recursion_error

section Compiling

variable (py : Python)

/-- `t.strip()`: without the spaces at both ends. -/
def strip (t : Text) : Text := (t.dropWhile py.isSpace).rdropWhile py.isSpace

/-- `COMP_PERIODS`: the periods that pay is stated for. -/
def compPeriods : List Text :=
  [codes "hourly", codes "daily", codes "weekly", codes "biweekly", codes "semimonthly", codes "monthly",
    codes "yearly", codes "one_time"]

/-- `_SHORT_PERIODS`: other names of some periods. -/
def shortPeriods : List (Text × Text) :=
  [(codes "year", codes "yearly"), (codes "month", codes "monthly"), (codes "week", codes "weekly"),
    (codes "day", codes "daily"), (codes "hour", codes "hourly")]

/-- `canonical_compensation_period`: the period that a text names, if it is one. -/
def canonicalCompensationPeriod (value : Option Text) : Option Text :=
  let wanted := py.lower (strip py (value.getD []))
  let wanted := ((shortPeriods.find? fun p => p.1 = wanted).map Prod.snd).getD wanted
  compPeriods.find? (· = wanted)

/-- `units.get(key)`: the value of the last filter of a field that has the operator `equals`. -/
def unit (rules : List ColumnFilter) (key : Text) : Option Text :=
  ((rules.filter fun r => r.operator = Operator.equals.name).reverse.find? fun r => r.field = key).bind
    ColumnFilter.value

/-- There are a currency and a period. -/
def unitsGiven (rules : List ColumnFilter) : Bool :=
  ((unit rules Field.comp_currency.key).any fun v => !v.isEmpty) &&
    (canonicalCompensationPeriod py (unit rules Field.comp_period.key)).isSome

/-- `abs(value) > Decimal("1e18")`: `abs` rounds to 28 digits, half to even. -/
def exceeds (q : ℚ) : Bool := 10 ^ 18 + 5 / 10 ^ 10 < |q|

/-- The text that a filter compares a field with. -/
def named (f : Field) (v : Text) : Text :=
  if f = .comp_period then (canonicalCompensationPeriod py (some v)).getD v else v

/-- The value of the parameter. -/
def parameter (rules : List ColumnFilter) (f : Field) (o : Operator) (v : Text) : Except Rejection Datum :=
  match f.kind with
  | .date =>
    match py.date v with
    | some d => .ok (.date d)
    | none => .error .date
  | .number =>
    match py.decimal v with
    | none => .error .decimal
    | some .special => .error .notFinite
    | some (.finite q) =>
      if exceeds q then .error .tooLarge
      else if !unitsGiven py rules then .error .unitsRequired
      else .ok (.number q)
  | .boolean =>
    if v = codes "true" then .ok (.boolean true)
    else if v = codes "false" then .ok (.boolean false)
    else .error .notBoolean
  | .text => .ok (.text (if o = .contains ∨ o = .not_contains then Like.containing v else named py f v))

/-- The clause that compares a field with a parameter. -/
def comparing (f : Field) (o : Operator) (name : Name) : Clause :=
  match o with
  | .contains => .ilike f name
  | .not_contains => .notIlike f name
  | .not_equals => if f.kind = .text then .lowerDiffers f name else .compare f .ne name
  | .gte => .compare f .ge name
  | .lte => .compare f .le name
  -- The operators that take no value never come here.
  | .equals | .is_empty | .is_not_empty =>
    if f.kind = .text then .lowerEquals f name else .compare f .eq name

/-- The clauses of a filter that has a value. -/
def comparingClauses (f : Field) (o : Operator) (name : Name) : List Clause :=
  (if o = .not_equals ∨ o = .not_contains then [.notBlank f] else []) ++ [comparing f o name]

/-- The clauses and the parameters of a filter. -/
def compileRule (catalog_only : Bool) (rules : List ColumnFilter) (index : ℕ) (rule : ColumnFilter) :
    Except Rejection (List Clause × Params) :=
  match (offered catalog_only).find? fun f => f.key = rule.field with
  | none => .error (.unknownField rule.field)
  | some f =>
    match (operators f.kind).find? fun o => o.name = rule.operator with
    | none => .error (.unsupportedOperator rule.field)
    | some o =>
      if o = .is_empty ∨ o = .is_not_empty then
        match rule.value with
        | some _ => .error .takesNoValue
        | none => .ok ([if o = .is_empty then .isEmpty f else .isNotEmpty f], [])
      else
        match rule.value with
        | none => .error (.valueRequired rule.field)
        | some v =>
          if (strip py v).isEmpty then .error (.valueRequired rule.field)
          else
            match parameter py rules f o v with
            | .error e => .error e
            | .ok value => .ok (comparingClauses f o (nameOf index), [(nameOf index, value)])

/-- The loop over the filters, from one of them on: each parameter has the name of its index, so none is set twice. -/
def compileFrom (catalog_only : Bool) (rules : List ColumnFilter) :
    ℕ → List ColumnFilter → Except Rejection (List Clause × Params)
  | _, [] => .ok ([], [])
  | index, rule :: rest =>
    match compileRule py catalog_only rules index rule with
    | .error e => .error e
    | .ok (clauses, params) =>
      match compileFrom catalog_only rules (index + 1) rest with
      | .error e => .error e
      | .ok (clauses', params') => .ok (clauses ++ clauses', params ++ params')

/-- `ColumnFilter.model_validate`: a filter out of JSON, with no other members and a value of at most 1000
characters. -/
def validate : Value → Option ColumnFilter
  | .dict members =>
    if members.all fun m => m.1 ∈ [codes "field", codes "operator", codes "value"] then
      match getItem (codes "field") members, getItem (codes "operator") members, getItem (codes "value") members with
      | some (.str field), some (.str operator), none | some (.str field), some (.str operator), some .null =>
        some ⟨field, operator, none⟩
      | some (.str field), some (.str operator), some (.str v) =>
        if v.length ≤ 1000 ∧ !v.any isSurrogate then some ⟨field, operator, some v⟩ else none
      | _, _, _ => none
    else none
  | _ => none

/-- The filters of a text. -/
def parse (raw : Text) : Except Failure (List ColumnFilter) :=
  match loads py.recursion raw with
  | .error .invalid => .error (.refused .json)
  | .error .recursion => .error .recursion_error
  | .ok (.list values) =>
    if 32 < values.length then .error (.refused .tooMany)
    else
      match values.mapM validate with
      | none => .error (.refused .validation)
      | some rules => .ok rules
  | .ok _ => .error (.refused .tooMany)

/-- `compile_filters`: the filters of a request with their clauses and parameters, or why they are refused. -/
def compileFilters (raw : Option Text) (catalog_only : Bool) :
    Except Failure (List ColumnFilter × List Clause × Params) :=
  match raw.filter (!·.isEmpty) with
  | none => .ok ([], [], [])
  | some text =>
    match parse py text with
    | .error e => .error e
    | .ok rules =>
      match compileFrom py catalog_only rules 0 rules with
      | .error e => .error (.refused e)
      | .ok (clauses, params) => .ok (rules, clauses, params)

end Compiling

/-! ## Evaluating -/

section Evaluating

variable (db : Database)

/-- `NULLIF(btrim(e), '') IS NULL` of a text, `e IS NULL` of anything else. -/
def isBlank : Option Datum → Bool
  | some (.text t) => (btrim t).isEmpty
  | some _ => false
  | none => true

/-- How two values compare, which have to be of one type. No clause compares texts so. -/
def Datum.compare : Datum → Datum → Option Ordering
  | .date a, .date b => some (Ord.compare a b)
  | .number a, .number b => some (Ord.compare a b)
  | .boolean a, .boolean b => some (Ord.compare a b)
  | _, _ => none

/-- A comparison of values that compare as they do. -/
def Comparison.holds : Comparison → Ordering → Bool
  | .eq, o => o = .eq
  | .ne, o => o ≠ .eq
  | .ge, o => o ≠ .lt
  | .le, o => o ≠ .gt

/-- A condition on a text and a parameter, null of a null. -/
def onTexts (condition : Text → Text → Option Bool) : Option Datum → Option Datum → Option Sql.Truth
  | none, some (.text _) => some none
  | some (.text s), some (.text p) => (condition s p).map some
  | _, _ => none

/-- A condition of two values, null of a null. -/
def onData (op : Comparison) : Option Datum → Option Datum → Option Sql.Truth
  | none, some _ => some none
  | some e, some p => (e.compare p).map fun o => some (op.holds o)
  | _, none => none

/-- The value of a clause; there is none where the database raises. -/
def Clause.eval (params : Params) (row : Row) : Clause → Option Sql.Truth
  | .isEmpty f => some (some (isBlank (expression f row)))
  | .isNotEmpty f => some (some !(isBlank (expression f row)))
  | .notBlank f => some (some !(isBlank (expression f row)))
  | .ilike f name => onTexts (Like.ilike db.letters) (expression f row) (lookup params name)
  | .notIlike f name =>
    onTexts (fun s p => (Like.ilike db.letters s p).map not) (expression f row) (lookup params name)
  | .lowerEquals f name =>
    onTexts (fun s p => some (db.letters.lower s = db.letters.lower p)) (expression f row) (lookup params name)
  | .lowerDiffers f name =>
    onTexts (fun s p => some (db.letters.lower s ≠ db.letters.lower p)) (expression f row) (lookup params name)
  | .compare f op name => onData op (expression f row) (lookup params name)

/-- Both conditions, where the database raises on neither. -/
def both : Option Sql.Truth → Option Sql.Truth → Option Sql.Truth
  | some t, some u => some (Sql.and t u)
  | _, _ => none

/-- `TRUE AND …`: the clauses hold together of a row. -/
def conjunction (params : Params) (row : Row) (clauses : List Clause) : Option Sql.Truth :=
  clauses.foldr (fun c t => both (c.eval db params row) t) (some (some true))

/-- The condition on a row; there is none where the database refuses a parameter. -/
def whereOf (clauses : List Clause) (params : Params) (row : Row) : Option Sql.Truth :=
  if params.all fun p => db.takes p.2 then conjunction db params row clauses else none

/-- A row is read. -/
def Matches (clauses : List Clause) (params : Params) (row : Row) : Prop :=
  whereOf db clauses params row = some (some true)

end Evaluating

end JobScripts.Board.ColumnFilters

import JobScripts.Board.ColumnFilters.Meaning

/-!
# What the column filters say

`filters_say_what_they_mean` says that the clauses hold of a row exactly if every filter does; a text is not compared as
it is written (`not_as_written`).
-/

namespace JobScripts.Board.ColumnFilters

open Lib Lib.Loads Lib.Dumps

variable {py : Python} {db : Database} {catalog_only : Bool} {rules : List ColumnFilter}

variable {f : Field} {row : Row} {params : Params} {name : Name} {v : Text} {value : Datum} {o : Operator}

/-! ## What all of them say -/

/-- The clauses of the filters from one on. -/
theorem compileFrom_cons_eq_ok {index : ℕ} {rule : ColumnFilter} {rest : List ColumnFilter} {clauses : List Clause}
    {all : Params} (h : compileFrom py catalog_only rules index (rule :: rest) = .ok (clauses, all)) :
    ∃ c p c' p', compileRule py catalog_only rules index rule = .ok (c, p) ∧
      compileFrom py catalog_only rules (index + 1) rest = .ok (c', p') ∧ clauses = c ++ c' ∧ all = p ++ p' := by
  unfold compileFrom at h
  split at h
  · exact absurd h nofun
  · next c p hrule =>
    split at h
    · exact absurd h nofun
    · next c' p' hrest =>
      obtain ⟨rfl, rfl⟩ := Prod.mk.inj (Except.ok.inj h)
      exact ⟨c, p, c', p', hrule, hrest, rfl, rfl⟩

/-- Every filter is compiled. -/
theorem compileRule_of_mem {index : ℕ} {rest : List ColumnFilter} {clauses : List Clause} {all : Params}
    (h : compileFrom py catalog_only rules index rest = .ok (clauses, all))
    {rule : ColumnFilter} (hrule : rule ∈ rest) : ∃ i c p, compileRule py catalog_only rules i rule = .ok (c, p) := by
  induction rest generalizing index clauses all with
  | nil => exact absurd hrule List.not_mem_nil
  | cons first rest ih =>
    obtain ⟨c, p, c', p', hfirst, hrest, -, -⟩ := compileFrom_cons_eq_ok h
    rcases List.mem_cons.mp hrule with rfl | hrule
    · exact ⟨index, c, p, hfirst⟩
    · exact ih hrest hrule

/-- The placeholders are the parameters, of which no two have one name. -/
theorem placeholders_compileFrom {index : ℕ} {rest : List ColumnFilter} {clauses : List Clause} {all : Params}
    (h : compileFrom py catalog_only rules index rest = .ok (clauses, all)) :
    clauses.flatMap Clause.placeholders = all.map Prod.fst ∧ (all.map Prod.fst).Nodup ∧
      ∀ name ∈ all.map Prod.fst, ∃ i, index ≤ i ∧ name = nameOf i := by
  induction rest generalizing index clauses all with
  | nil =>
    obtain ⟨rfl, rfl⟩ := Prod.mk.inj (Except.ok.inj h)
    exact ⟨rfl, List.nodup_nil, fun name hname => absurd hname List.not_mem_nil⟩
  | cons rule rest ih =>
    obtain ⟨c, p, c', p', hrule, hrest, rfl, rfl⟩ := compileFrom_cons_eq_ok h
    obtain ⟨hown, hnames⟩ := placeholders_compileRule hrule
    obtain ⟨hplaceholders, hnodup, hlater⟩ := ih hrest
    rw [List.flatMap_append, List.map_append, hown, hplaceholders]
    -- The names of the filters after this one have greater numbers.
    have hnew : nameOf index ∉ p'.map Prod.fst := by
      intro hmem
      obtain ⟨i, hi, heq⟩ := hlater _ hmem
      have hindex := nameOf_injective heq
      omega
    refine ⟨rfl, ?_, fun name hname => ?_⟩
    · rcases hnames with hnil | hone
      · rw [hnil]
        exact hnodup
      · rw [hone]
        exact List.nodup_cons.mpr ⟨hnew, hnodup⟩
    · rcases List.mem_append.mp hname with hname | hname
      · rcases hnames with hnil | hone
        · rw [hnil] at hname
          exact absurd hname List.not_mem_nil
        · rw [hone] at hname
          exact ⟨index, le_rfl, List.mem_singleton.mp hname⟩
      · obtain ⟨i, hi, heq⟩ := hlater name hname
        exact ⟨i, by omega, heq⟩

/-- The clauses are true of the rows of which every filter is. -/
theorem compileFrom_isTrue {index : ℕ} {rest : List ColumnFilter} {clauses : List Clause} {all : Params}
    (h : compileFrom py catalog_only rules index rest = .ok (clauses, all))
    (hlookup : ∀ p ∈ all, lookup params p.1 = some p.2) :
    ∃ t, conjunction db params row clauses = some t ∧ (t.IsTrue ↔ ∀ rule ∈ rest, Says py db rule row) := by
  induction rest generalizing index clauses all with
  | nil =>
    obtain ⟨rfl, rfl⟩ := Prod.mk.inj (Except.ok.inj h)
    exact ⟨some true, rfl, iff_of_true rfl fun rule hrule => absurd hrule List.not_mem_nil⟩
  | cons rule rest ih =>
    obtain ⟨c, p, c', p', hrule, hrest, rfl, rfl⟩ := compileFrom_cons_eq_ok h
    obtain ⟨t, ht, hiff⟩ := conjunction_append
      (compileRule_isTrue hrule fun q hq => hlookup q (List.mem_append_left _ hq))
      (ih hrest fun q hq => hlookup q (List.mem_append_right _ hq))
    exact ⟨t, ht, hiff.trans (by rw [List.forall_mem_cons])⟩

/-! ## Pay -/

/-- A unit is the value of a filter. -/
theorem unit_mem {key : Text} (h : unit rules key = some v) :
    ∃ r ∈ rules, r.operator = Operator.equals.name ∧ r.field = key ∧ r.value = some v := by
  unfold unit at h
  obtain ⟨r, hr, hvalue⟩ := Option.bind_eq_some_iff.mp h
  have hmem := List.mem_filter.mp (List.mem_reverse.mp (List.mem_of_find?_eq_some hr))
  have hfield : r.field = key := by simpa using List.find?_some hr
  exact ⟨r, hmem.1, of_decide_eq_true hmem.2, hfield, hvalue⟩

/-- A filter that has the operator `equals` says that the field is equal to what is meant. -/
theorem means_of_says {rule : ColumnFilter} (hkey : rule.field = f.key) (hname : rule.operator = Operator.equals.name)
    (hvalue : rule.value = some v) (h : Says py db rule row) : Means py db f v row .equals := by
  obtain ⟨f', o, hkey', hname', hmeans⟩ := h
  obtain rfl := key_injective (hkey'.trans hkey)
  obtain rfl := name_injective (hname'.trans hname)
  rw [hvalue] at hmeans
  exact hmeans

/-- Filters with the units are true of rows of one currency and one period, ignoring case. -/
theorem units_fixed (h : unitsGiven py rules = true) : ∃ currency period, period ∈ compPeriods ∧
    ∀ (db : Database) (row : Row), (∀ rule ∈ rules, Says py db rule row) →
      ∃ s t, row.comp_currency = some s ∧ row.comp_period = some t ∧
        db.letters.lower s = db.letters.lower currency ∧ db.letters.lower t = db.letters.lower period := by
  unfold unitsGiven at h
  obtain ⟨hany, hsome⟩ := Bool.and_eq_true_iff.mp h
  obtain ⟨currency, hcurrency, -⟩ := (Option.any_eq_true _ _).mp hany
  obtain ⟨period, hcanonical⟩ := Option.isSome_iff_exists.mp hsome
  -- Without a filter of the period there is none.
  have hperiod : ∃ v, unit rules Field.comp_period.key = some v := by
    cases hunit : unit rules Field.comp_period.key with
    | some v => exact ⟨v, rfl⟩
    | none =>
      have hnone : canonicalCompensationPeriod py none = none := by
        have hstrip : py.lower (strip py ((none : Option Text).getD [])) = [] := py.lower_nil
        unfold canonicalCompensationPeriod
        rw [hstrip]
        decide
      rw [hunit, hnone] at hcanonical
      exact absurd hcanonical nofun
  obtain ⟨v, hv⟩ := hperiod
  obtain ⟨r, hr, hname, hkey, hvalue⟩ := unit_mem hcurrency
  obtain ⟨r', hr', hname', hkey', hvalue'⟩ := unit_mem hv
  have hmem : period ∈ compPeriods := by
    unfold canonicalCompensationPeriod at hcanonical
    exact List.mem_of_find?_eq_some hcanonical
  refine ⟨currency, period, hmem, fun db row htrue => ?_⟩
  obtain ⟨e, m, he, hm, hsame⟩ := means_of_says hkey hname hvalue (htrue r hr)
  obtain ⟨e', m', he', hm', hsame'⟩ := means_of_says hkey' hname' hvalue' (htrue r' hr')
  obtain rfl := Option.some_inj.mp hm
  obtain rfl := Option.some_inj.mp hm'
  obtain ⟨s, hs, rfl⟩ := Option.map_eq_some_iff.mp he
  obtain ⟨t, ht, rfl⟩ := Option.map_eq_some_iff.mp he'
  have hnamed : named py .comp_period v = period := by
    rw [hv] at hcanonical
    unfold named
    rw [if_pos rfl, hcanonical]
    rfl
  rw [hnamed] at hsame'
  exact ⟨s, t, hs, ht, hsame, hsame'⟩

/-! ## Filters of ASCII -/

/-- The lower case of ASCII. -/
def asciiLower (c : ℕ) : ℕ := if 0x41 ≤ c ∧ c ≤ 0x5A then c + 0x20 else c

/-- A Python that reads ASCII, integers and one day. -/
def plainPython : Python where
  recursion := 1000
  isSpace := Loads.isSpace
  lower := List.map asciiLower
  lower_nil := rfl
  date t := if t = codes "2025-10-01" then some 20362 else none
  decimal t :=
    match number t with
    | .ok (.int n, []) => some (.finite n)
    | _ => none

/-- A database of ASCII, which takes no text with a NUL. -/
def plainDatabase : Database where
  letters :=
    { map := fun c => [asciiLower c]
      special := by
        intro c hc
        have hspecial := Like.isSpecial_iff.mp hc
        unfold asciiLower
        rw [if_neg (by omega)]
      plain := by
        intro c hc d hd
        obtain rfl := List.mem_singleton.mp hd
        have hplain := mt Like.isSpecial_iff.mpr (Bool.eq_false_iff.mp hc)
        refine Bool.eq_false_iff.mpr fun h => ?_
        have hspecial := Like.isSpecial_iff.mp h
        unfold asciiLower at hspecial
        split at hspecial <;> omega }
  takes
    | .text t => 0 ∉ t
    | _ => true

/-- A row with nothing in it. -/
def emptyRow : Row where
  company := none
  title := none
  locations := none
  terms := none
  source := none
  url := none
  notes := none
  recruiter := none
  connection1 := none
  connection2 := none
  documents := none
  size := none
  comp_currency := none
  comp_period := none
  comp_min := none
  comp_max := none
  date_posted := none
  applied_at := none
  created_at := 0
  available := none

/-- A filter, as the page writes it. -/
def written (rule : ColumnFilter) : Value :=
  .dict [(codes "field", .str rule.field), (codes "operator", .str rule.operator),
    (codes "value", (rule.value.map Value.str).getD .null)]

/-! ## The filters -/

/-- A field that is offered is found by its key. -/
theorem find_offered (h : f ∈ offered catalog_only) :
    (offered catalog_only).find? (fun g => g.key = f.key) = some f := by
  have hsome : ((offered catalog_only).find? fun g => g.key = f.key).isSome := by
    rw [List.find?_isSome]
    exact ⟨f, h, decide_eq_true rfl⟩
  obtain ⟨g, hg⟩ := Option.isSome_iff_exists.mp hsome
  have hkey : g.key = f.key := by simpa using List.find?_some hg
  rw [hg, key_injective hkey]

/-- A pay comparison: a filter on a number that has a value. -/
def ComparesPay (rule : ColumnFilter) : Prop :=
  ∃ f o, Field.key f = rule.field ∧ Operator.name o = rule.operator ∧ f.kind = .number ∧ o ≠ .is_empty ∧
    o ≠ .is_not_empty

/-- A list with a pay comparison is compiled only with its units. -/
theorem unitsGiven_of_comparesPay {index : ℕ} {rest : List ColumnFilter} {clauses : List Clause} {all : Params}
    (h : compileFrom py catalog_only rules index rest = .ok (clauses, all))
    {rule : ColumnFilter} (hrule : rule ∈ rest) (hpay : ComparesPay rule) : unitsGiven py rules = true := by
  obtain ⟨f, o, hkey, hname, hkind, hempty, hempty'⟩ := hpay
  obtain ⟨i, c, p, hcompiled⟩ := compileRule_of_mem h hrule
  obtain ⟨f', o', -, hkey', -, hname', hcases⟩ := compileRule_eq_ok hcompiled
  obtain rfl := key_injective (hkey.trans hkey'.symm)
  obtain rfl := name_injective (hname.trans hname'.symm)
  rcases hcases with ⟨heq, -⟩ | ⟨heq, -⟩ | ⟨-, -, v, value, -, -, hparameter, -⟩
  · exact absurd heq hempty
  · exact absurd heq hempty'
  · exact unitsGiven_of_parameter hkind hparameter

/-- A filter for a blank field, and one for a field that is not, are compiled to clauses of which one holds. -/
theorem empty_or_not (hf : f ∈ offered catalog_only) (hkind : f.kind ≠ .boolean) :
    compileFrom py catalog_only rules 0 [⟨f.key, Operator.is_empty.name, none⟩] = .ok ([.isEmpty f], []) ∧
      compileFrom py catalog_only rules 0 [⟨f.key, Operator.is_not_empty.name, none⟩] =
        .ok ([.isNotEmpty f], []) := by
  have hoperators : ((operators f.kind).find? fun o => o.name = Operator.is_empty.name) = some .is_empty ∧
      ((operators f.kind).find? fun o => o.name = Operator.is_not_empty.name) = some .is_not_empty := by
    cases hk : f.kind with
    | boolean => exact absurd hk hkind
    | _ => exact ⟨by decide +kernel, by decide +kernel⟩
  constructor
  · unfold compileFrom compileRule
    rw [find_offered hf]
    dsimp only
    rw [hoperators.1]
    rfl
  · unfold compileFrom compileRule
    rw [find_offered hf]
    dsimp only
    rw [hoperators.2]
    rfl

/-- The filters, clauses and parameters of a text that is taken. -/
theorem compileFilters_eq_ok {raw : Option Text} {clauses : List Clause} {all : Params}
    (h : compileFilters py raw catalog_only = .ok (rules, clauses, all)) :
    compileFrom py catalog_only rules 0 rules = .ok (clauses, all) := by
  unfold compileFilters at h
  split at h
  · obtain ⟨rfl, hrest⟩ := Prod.mk.inj (Except.ok.inj h)
    obtain ⟨rfl, rfl⟩ := Prod.mk.inj hrest
    rfl
  · split at h
    · exact absurd h nofun
    · next text _ rules' _ =>
      split at h
      · exact absurd h nofun
      · next c p hcompiled =>
        obtain ⟨rfl, hrest⟩ := Prod.mk.inj (Except.ok.inj h)
        obtain ⟨rfl, rfl⟩ := Prod.mk.inj hrest
        exact hcompiled

/-- A row is read if every filter is true of it, where the database takes the parameters. -/
theorem says_of_matches {clauses : List Clause} {all : Params}
    (h : compileFrom py catalog_only rules 0 rules = .ok (clauses, all)) (hmatches : Matches db clauses all row) :
    ∀ rule ∈ rules, Says py db rule row := by
  obtain ⟨-, hnodup, -⟩ := placeholders_compileFrom h
  have htrue : ∃ t, conjunction db all row clauses = some t ∧ (t.IsTrue ↔ ∀ rule ∈ rules, Says py db rule row) :=
    compileFrom_isTrue h fun p hp => lookup_of_mem hnodup hp
  obtain ⟨t, ht, hiff⟩ := htrue
  unfold Matches whereOf at hmatches
  split at hmatches
  · exact hiff.mp (Option.some_inj.mp (ht.symm.trans hmatches))
  · exact absurd hmatches nofun

/-- The clauses of the filters that are taken hold of a row exactly if every filter says what is true of it, where the
database takes their parameters: a text contains another literally and ignoring case, whatever is in it. A filter that
denies never holds of a blank field, one of the two tests for a blank field holds of every row, the placeholders are
the parameters, and pay is only compared in one currency and one period. -/
theorem filters_say_what_they_mean (py : Python) (db : Database) (raw : Option Text) (catalog_only : Bool)
    (rules : List ColumnFilter) (clauses : List Clause) (params : Params)
    (h : compileFilters py raw catalog_only = .ok (rules, clauses, params)) :
    (∀ row, (∀ p ∈ params, db.takes p.2 = true) →
      ∃ t, whereOf db clauses params row = some t ∧ (t.IsTrue ↔ ∀ rule ∈ rules, Says py db rule row)) ∧
      (∀ row, Matches db clauses params row → ∀ rule ∈ rules, ∀ f, Field.key f = rule.field →
        rule.operator = Operator.not_equals.name ∨ rule.operator = Operator.not_contains.name →
          ¬ Blank (expression f row)) ∧
      (∀ f ∈ offered catalog_only, f.kind ≠ .boolean → ∃ c c',
        compileFrom py catalog_only rules 0 [⟨f.key, Operator.is_empty.name, none⟩] = .ok (c, []) ∧
          compileFrom py catalog_only rules 0 [⟨f.key, Operator.is_not_empty.name, none⟩] = .ok (c', []) ∧
          ∀ row, Matches db c [] row ↔ ¬ Matches db c' [] row) ∧
      (clauses.flatMap Clause.placeholders = params.map Prod.fst ∧ (params.map Prod.fst).Nodup) ∧
      ((∃ rule ∈ rules, ComparesPay rule) → ∃ currency period, period ∈ compPeriods ∧
        ∀ row, Matches db clauses params row → ∃ s t, row.comp_currency = some s ∧ row.comp_period = some t ∧
          db.letters.lower s = db.letters.lower currency ∧ db.letters.lower t = db.letters.lower period) := by
  have hcompiled := compileFilters_eq_ok h
  obtain ⟨hplaceholders, hnodup, -⟩ := placeholders_compileFrom hcompiled
  refine ⟨fun row htakes => ?_, fun row hmatches rule hrule f hkey hname => ?_, fun f hf hkind => ?_,
    ⟨hplaceholders, hnodup⟩, fun ⟨rule, hrule, hpay⟩ => ?_⟩
  · have hall : (params.all fun p => db.takes p.2) = true := List.all_eq_true.mpr htakes
    have htrue : ∃ t, conjunction db params row clauses = some t ∧ (t.IsTrue ↔ ∀ rule ∈ rules, Says py db rule row) :=
      compileFrom_isTrue hcompiled fun p hp => lookup_of_mem hnodup hp
    obtain ⟨t, ht, hiff⟩ := htrue
    exact ⟨t, (if_pos hall).trans ht, hiff⟩
  · obtain ⟨f', o, hkey', hname', hmeans⟩ := says_of_matches hcompiled hmatches rule hrule
    obtain rfl := key_injective (hkey.trans hkey'.symm)
    rcases hname with hname | hname
    · obtain rfl := name_injective (hname'.trans hname)
      exact hmeans.1
    · obtain rfl := name_injective (hname'.trans hname)
      exact hmeans.1
  · refine ⟨_, _, (empty_or_not hf hkind).1, (empty_or_not hf hkind).2, fun row => ?_⟩
    obtain ⟨t, ht, hiff⟩ := conjunction_singleton (isEmpty_isTrue db [] f row)
    obtain ⟨u, hu, hiff'⟩ := conjunction_singleton (isNotEmpty_isTrue db [] f row)
    have hmatches : Matches db [.isEmpty f] [] row ↔ t.IsTrue := by
      unfold Matches whereOf
      rw [List.all_nil, if_pos rfl, ht]
      exact Option.some_inj
    have hmatches' : Matches db [.isNotEmpty f] [] row ↔ u.IsTrue := by
      unfold Matches whereOf
      rw [List.all_nil, if_pos rfl, hu]
      exact Option.some_inj
    rw [hmatches, hmatches', hiff, hiff', not_not]
  · obtain ⟨currency, period, hperiod, hfixed⟩ := units_fixed (unitsGiven_of_comparesPay hcompiled hrule hpay)
    exact ⟨currency, period, hperiod, fun row hmatches => hfixed db row (says_of_matches hcompiled hmatches)⟩

/-- Pay of nine dollars a year or more. -/
def payFilters : List ColumnFilter :=
  [⟨codes "comp_max", codes "gte", some (codes "9")⟩, ⟨codes "comp_currency", codes "equals", some (codes "USD")⟩,
    ⟨codes "comp_period", codes "equals", some (codes "year")⟩]

/-- A title with characters that a pattern would take for its own, a company without one, pay, and a day. -/
def wantedFilters : List ColumnFilter :=
  [⟨codes "title", codes "contains", some (codes "50%_\\")⟩,
    ⟨codes "company", codes "not_contains", some (codes "_")⟩] ++
    payFilters ++ [⟨codes "date_posted", codes "gte", some (codes "2025-10-01")⟩]

/-- A posting that they are about. -/
def wantedRow : Row :=
  { emptyRow with
    title := some (codes "ENGINEER 50%_\\ remote")
    company := some (codes "Acme")
    comp_currency := some (codes "usd")
    comp_period := some (codes "Yearly")
    comp_max := some 10
    date_posted := some 1760000000000000 }

/-- The clauses hold of the posting, so that each filter says what is true of it; of one with another title they do
not hold, so that one of them says what is not. -/
theorem filters_say_what_they_mean_escaped :
    (∀ rule ∈ wantedFilters, Says plainPython plainDatabase rule wantedRow) ∧
      ¬ ∀ rule ∈ wantedFilters, Says plainPython plainDatabase rule
        { wantedRow with title := some (codes "Engineer 50 x\\ remote") } := by
  have hclauses : (compileFilters plainPython (some (write .compact (.list (wantedFilters.map written))))
      false).toOption.any (fun c => c.1 == wantedFilters && c.2.2.length == 6 && c.2.2.all (fun p => plainDatabase.takes p.2) &&
        whereOf plainDatabase c.2.1 c.2.2 wantedRow == some (some true) &&
        whereOf plainDatabase c.2.1 c.2.2
          { wantedRow with title := some (codes "Engineer 50 x\\ remote") } == some (some false)) = true := by
    decide +kernel
  cases hcompiled : compileFilters plainPython (some (write .compact (.list (wantedFilters.map written)))) false with
  | error e =>
    rw [hcompiled] at hclauses
    exact absurd hclauses Bool.false_ne_true
  | ok c =>
    obtain ⟨rules, clauses, params⟩ := c
    rw [hcompiled] at hclauses
    have hclauses : (rules == wantedFilters && params.length == 6 && params.all (fun p => plainDatabase.takes p.2) &&
        whereOf plainDatabase clauses params wantedRow == some (some true) &&
        whereOf plainDatabase clauses params
          { wantedRow with title := some (codes "Engineer 50 x\\ remote") } == some (some false)) = true := hclauses
    simp only [Bool.and_eq_true, beq_iff_eq, List.all_eq_true] at hclauses
    obtain ⟨⟨⟨⟨rfl, -⟩, htakes⟩, htrue⟩, hfalse⟩ := hclauses
    obtain ⟨hmean, -⟩ := filters_say_what_they_mean plainPython plainDatabase _ false _ clauses params hcompiled
    constructor
    · obtain ⟨t, ht, hiff⟩ := hmean wantedRow htakes
      obtain rfl := Option.some.inj (ht.symm.trans htrue)
      exact hiff.mp rfl
    · intro hall
      obtain ⟨t, ht, hiff⟩ := hmean _ htakes
      obtain rfl := Option.some.inj (ht.symm.trans hfalse)
      exact absurd (hiff.mpr hall) (by decide)

/-! ## Not as it is written -/

/-- What some filters answer for a row, where they are taken. -/
def answer (filters : List ColumnFilter) (row : Row) : Option (Option Sql.Truth) :=
  (compileFilters plainPython (some (write .compact (.list (filters.map written)))) false).toOption.map fun c =>
    whereOf plainDatabase c.2.1 c.2.2 row

/-- A company that begins with a space contains one and what follows it, and a title of a tab has nothing in it that
shows, yet the clauses say otherwise; the clauses of one currency hold of two ways to write it; and a value with a NUL
is taken by the filters and refused by the database. -/
theorem not_as_written :
    (codes " A" <:+: codes " Acme" ∧ answer [⟨codes "company", codes "contains", some (codes " A")⟩]
        { emptyRow with company := some (codes " Acme") } = some (some (some false))) ∧
      answer [⟨codes "title", codes "not_equals", some (codes "x")⟩]
        { emptyRow with title := some (codes "\t") } = some (some (some true)) ∧
      (∀ currency ∈ [codes "USD", codes "usd"], answer payFilters
        { emptyRow with
          comp_currency := some currency
          comp_period := some (codes "yearly")
          comp_max := some 9 } = some (some (some true))) ∧
      answer [⟨codes "title", codes "not_contains", some [0]⟩]
        { emptyRow with title := some (codes "Engineer") } = some none := by
  decide +kernel

end JobScripts.Board.ColumnFilters

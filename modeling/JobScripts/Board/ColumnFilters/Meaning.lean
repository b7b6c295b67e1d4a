import JobScripts.Board.ColumnFilters.Clauses

/-!
# What a column filter means

What a filter says of a row (`Says`) is said of the field as its expression reads it: the company without the spaces
around it, and texts ignoring case. The clauses of one filter hold of a row exactly if the filter does.
-/

namespace JobScripts.Board.ColumnFilters

open Lib Lib.Loads Lib.Dumps

/-! ## What the filters mean -/

section Meaning

variable (py : Python) (db : Database)

/-- There is no value, or a text of nothing but spaces. -/
def Blank (e : Option Datum) : Prop := e = none ∨ ∃ s, e = some (.text s) ∧ ∀ c ∈ s, c = 0x20

/-- Two texts are the same ignoring case, and any other values if they are equal. -/
def Same : Datum → Datum → Prop
  | .text s, .text t => db.letters.lower s = db.letters.lower t
  | a, b => a = b

/-- One day is not before another, or one number not below another. -/
def AtLeast : Datum → Datum → Prop
  | .date a, .date b => b ≤ a
  | .number a, .number b => b ≤ a
  | _, _ => False

/-- The value that a filter names: a text as it is, a period of pay as it is stored, a day, a number, or a truth
value. -/
def meant (f : Field) (v : Text) : Option Datum :=
  match f.kind with
  | .text => some (.text (named py f v))
  | .date => (py.date v).map .date
  | .number =>
    match py.decimal v with
    | some (.finite q) => some (.number q)
    | _ => none
  | .boolean => some (.boolean (v = codes "true"))

/-- An operator and a value say of a field what their names say. -/
def Means (f : Field) (v : Text) (row : Row) : Operator → Prop
  | .contains => ∃ s, expression f row = some (.text s) ∧ db.letters.lower v <:+: db.letters.lower s
  | .not_contains => ¬ Blank (expression f row) ∧
      ∀ s, expression f row = some (.text s) → ¬ db.letters.lower v <:+: db.letters.lower s
  | .equals => ∃ e m, expression f row = some e ∧ meant py f v = some m ∧ Same db e m
  | .not_equals => ¬ Blank (expression f row) ∧
      ∀ e m, expression f row = some e → meant py f v = some m → ¬ Same db e m
  | .is_empty => Blank (expression f row)
  | .is_not_empty => ¬ Blank (expression f row)
  | .gte => ∃ e m, expression f row = some e ∧ meant py f v = some m ∧ AtLeast e m
  | .lte => ∃ e m, expression f row = some e ∧ meant py f v = some m ∧ AtLeast m e

/-- What a filter says of a row. -/
def Says (rule : ColumnFilter) (row : Row) : Prop :=
  ∃ f o, Field.key f = rule.field ∧ Operator.name o = rule.operator ∧ Means py db f (rule.value.getD []) row o

end Meaning

/-! ## Names -/

/-- The numbers of two parameters are in their names. -/
theorem nameOf_injective : Function.Injective nameOf := by
  intro i j h
  have hdigits : digits i = digits j := List.append_cancel_left h
  calc i = natOf (digits i) := (natOf_digits i).symm
    _ = natOf (digits j) := by rw [hdigits]
    _ = j := natOf_digits j

/-- A field is found by its key. -/
theorem find_key (f : Field) : allFields.find? (fun g => g.key = f.key) = some f := by
  cases f <;> decide +kernel

/-- So no two have one. -/
theorem key_injective : Function.Injective Field.key := by
  intro f g h
  have hfind := find_key f
  rw [h, find_key] at hfind
  exact (Option.some_inj.mp hfind).symm

/-- No two operators have one name. -/
theorem name_injective : Function.Injective Operator.name := by
  intro o o' h
  cases o <;> cases o' <;> first | rfl | exact absurd h (by decide +kernel)

/-- The value of a placeholder is the parameter that has its name. -/
theorem lookup_of_mem {params : Params} (hnodup : (params.map Prod.fst).Nodup) {p : Name × Datum} (hp : p ∈ params) :
    lookup params p.1 = some p.2 := by
  unfold lookup
  induction params with
  | nil => exact absurd hp List.not_mem_nil
  | cons q params ih =>
    rw [List.map_cons, List.nodup_cons] at hnodup
    obtain ⟨hnew, hnodup⟩ := hnodup
    rcases List.mem_cons.mp hp with rfl | hp
    · rw [List.find?_cons_of_pos (p := fun q : Name × Datum => decide (q.1 = p.1)) (decide_eq_true rfl)]
      rfl
    · have hne : ¬ q.1 = p.1 := fun heq => hnew (heq ▸ List.mem_map_of_mem hp)
      rw [List.find?_cons_of_neg (by rwa [decide_eq_true_iff])]
      exact ih hnodup hp

/-! ## What one filter becomes -/

variable {py : Python} {db : Database} {catalog_only : Bool} {rules : List ColumnFilter}

/-- A filter that is compiled has a field that is offered and an operator of its kind, and no value, or one that
becomes the parameter. -/
theorem compileRule_eq_ok {index : ℕ} {rule : ColumnFilter} {clauses : List Clause} {params : Params}
    (h : compileRule py catalog_only rules index rule = .ok (clauses, params)) :
    ∃ f o, f ∈ offered catalog_only ∧ f.key = rule.field ∧ o ∈ operators f.kind ∧ o.name = rule.operator ∧
      ((o = .is_empty ∧ clauses = [.isEmpty f] ∧ params = []) ∨
        (o = .is_not_empty ∧ clauses = [.isNotEmpty f] ∧ params = []) ∨
        (o ≠ .is_empty ∧ o ≠ .is_not_empty ∧ ∃ v value, rule.value = some v ∧ strip py v ≠ [] ∧
          parameter py rules f o v = .ok value ∧ clauses = comparingClauses f o (nameOf index) ∧
          params = [(nameOf index, value)])) := by
  unfold compileRule at h
  split at h
  · exact absurd h nofun
  · next f hf =>
    split at h
    · exact absurd h nofun
    · next o ho =>
      have hkey : f.key = rule.field := by simpa using List.find?_some hf
      have hname : o.name = rule.operator := by simpa using List.find?_some ho
      refine ⟨f, o, List.mem_of_find?_eq_some hf, hkey, List.mem_of_find?_eq_some ho, hname, ?_⟩
      split at h
      · next hempty =>
        split at h
        · exact absurd h nofun
        · obtain ⟨rfl, rfl⟩ := Prod.mk.inj (Except.ok.inj h)
          rcases hempty with rfl | rfl
          · exact .inl ⟨rfl, rfl, rfl⟩
          · exact .inr (.inl ⟨rfl, rfl, rfl⟩)
      · next hempty =>
        obtain ⟨hne, hne'⟩ := not_or.mp hempty
        split at h
        · exact absurd h nofun
        · next v hv =>
          split at h
          · exact absurd h nofun
          · next hstrip =>
            split at h
            · exact absurd h nofun
            · next value hvalue =>
              obtain ⟨rfl, rfl⟩ := Prod.mk.inj (Except.ok.inj h)
              exact .inr (.inr ⟨hne, hne', v, value, hv, fun hnil => hstrip (by rw [hnil]; rfl), hvalue, rfl, rfl⟩)

/-- The parameter is what the filter means, or the pattern of the texts that contain its value. -/
theorem parameter_eq_ok {f : Field} {o : Operator} {v : Text} {value : Datum}
    (h : parameter py rules f o v = .ok value) :
    (f.kind = .text ∧ (o = .contains ∨ o = .not_contains) ∧ value = .text (Like.containing v)) ∨
      (¬ (f.kind = .text ∧ (o = .contains ∨ o = .not_contains)) ∧ meant py f v = some value) := by
  unfold parameter at h
  unfold meant
  cases hkind : f.kind with
  | text =>
    rw [hkind] at h
    dsimp only at h
    by_cases hcontains : o = .contains ∨ o = .not_contains
    · rw [if_pos hcontains] at h
      exact .inl ⟨rfl, hcontains, (Except.ok.inj h).symm⟩
    · rw [if_neg hcontains] at h
      exact .inr ⟨fun hboth => hcontains hboth.2, congrArg some (Except.ok.inj h)⟩
  | date =>
    rw [hkind] at h
    refine .inr ⟨nofun, ?_⟩
    dsimp only at h ⊢
    split at h
    · next d hd =>
      rw [hd]
      exact congrArg some (Except.ok.inj h)
    · exact absurd h nofun
  | number =>
    rw [hkind] at h
    refine .inr ⟨nofun, ?_⟩
    dsimp only at h ⊢
    split at h
    · exact absurd h nofun
    · exact absurd h nofun
    · next q hq =>
      split at h
      · exact absurd h nofun
      · split at h
        · exact absurd h nofun
        · rw [hq]
          exact congrArg some (Except.ok.inj h)
  | boolean =>
    rw [hkind] at h
    refine .inr ⟨nofun, ?_⟩
    dsimp only at h ⊢
    split at h
    · next htrue =>
      rw [decide_eq_true htrue]
      exact congrArg some (Except.ok.inj h)
    · next htrue =>
      split at h
      · rw [decide_eq_false htrue]
        exact congrArg some (Except.ok.inj h)
      · exact absurd h nofun

/-- A comparison of pay is compiled only with its units. -/
theorem unitsGiven_of_parameter {f : Field} {o : Operator} {v : Text} {value : Datum} (hkind : f.kind = .number)
    (h : parameter py rules f o v = .ok value) : unitsGiven py rules = true := by
  unfold parameter at h
  rw [hkind] at h
  dsimp only at h
  split at h
  · exact absurd h nofun
  · exact absurd h nofun
  · split at h
    · exact absurd h nofun
    · split at h
      · exact absurd h nofun
      · next hunits => simpa using hunits

/-! ## What one filter says -/

/-- A field has no value, or one of its kind. -/
theorem expression_eq (f : Field) (row : Row) : expression f row = none ∨ ∃ e, expression f row = some e ∧
    match f.kind with
    | .text => ∃ s, e = .text s
    | .date => ∃ d, e = .date d
    | .number => ∃ q, e = .number q
    | .boolean => ∃ b, e = .boolean b := by
  have hmap {α : Type} (o : Option α) (g : α → Datum) (P : Datum → Prop) (hP : ∀ a, P (g a)) :
      o.map g = none ∨ ∃ e, o.map g = some e ∧ P e := by
    cases o with
    | none => exact .inl rfl
    | some a => exact .inr ⟨g a, rfl, hP a⟩
  cases f with
  | added_at => exact .inr ⟨_, rfl, _, rfl⟩
  | active => exact .inr ⟨_, rfl, _, rfl⟩
  | _ => exact hmap _ _ _ fun a => ⟨_, rfl⟩

/-- A text without the spaces around it is empty if it is nothing but spaces. -/
theorem btrim_eq_nil {s : Text} : btrim s = [] ↔ ∀ c ∈ s, c = 0x20 := by
  unfold btrim
  rw [List.rdropWhile_eq_nil_iff]
  constructor
  · intro h
    have hnil : s.dropWhile (fun c => decide (c = 0x20)) = [] := by
      by_contra hne
      have hhead := List.head_dropWhile_not (fun c => decide (c = 0x20)) hne
      rw [h _ (List.head_mem hne)] at hhead
      exact absurd hhead nofun
    intro c hc
    simpa using List.dropWhile_eq_nil_iff.mp hnil c hc
  · intro h c hc
    exact decide_eq_true (h c ((List.dropWhile_sublist _).mem hc))

/-- What the clauses test is whether a field is blank. -/
theorem isBlank_iff {e : Option Datum} : isBlank e = true ↔ Blank e := by
  unfold Blank
  cases e with
  | none => exact ⟨fun _ => .inl rfl, fun _ => rfl⟩
  | some e =>
    cases e with
    | text s =>
      have hnil : isBlank (some (.text s)) = true ↔ btrim s = [] := List.isEmpty_iff
      rw [hnil, btrim_eq_nil]
      constructor
      · intro h
        exact .inr ⟨s, rfl, h⟩
      · rintro (h | ⟨s', h, hs'⟩)
        · exact absurd h nofun
        · obtain rfl := Datum.text.inj (Option.some_inj.mp h)
          exact hs'
    | _ => simp [isBlank]

/-- Both conditions are true if each is. -/
theorem both_isTrue {a b : Option Sql.Truth} {A B : Prop} (ha : ∃ t, a = some t ∧ (t.IsTrue ↔ A))
    (hb : ∃ t, b = some t ∧ (t.IsTrue ↔ B)) : ∃ t, both a b = some t ∧ (t.IsTrue ↔ A ∧ B) := by
  obtain ⟨t, rfl, ht⟩ := ha
  obtain ⟨u, rfl, hu⟩ := hb
  exact ⟨Sql.and t u, rfl, Sql.and_isTrue.trans (and_congr ht hu)⟩

/-- The clauses of one list after those of another. -/
theorem conjunction_append {params : Params} {row : Row} {clauses clauses' : List Clause} {A B : Prop}
    (h : ∃ t, conjunction db params row clauses = some t ∧ (t.IsTrue ↔ A))
    (h' : ∃ t, conjunction db params row clauses' = some t ∧ (t.IsTrue ↔ B)) :
    ∃ t, conjunction db params row (clauses ++ clauses') = some t ∧ (t.IsTrue ↔ A ∧ B) := by
  induction clauses generalizing A with
  | nil =>
    obtain ⟨t, ht, hA⟩ := h
    obtain rfl := Option.some_inj.mp ht
    obtain ⟨u, hu, hB⟩ := h'
    have htrue : A := hA.mp rfl
    exact ⟨u, hu, hB.trans (and_iff_right htrue).symm⟩
  | cons c clauses ih =>
    obtain ⟨t, ht, hA⟩ := h
    have hcons : both (c.eval db params row) (conjunction db params row clauses) = some t := ht
    cases hc : c.eval db params row with
    | none =>
      rw [hc] at hcons
      exact absurd hcons nofun
    | some u =>
      cases hrest : conjunction db params row clauses with
      | none =>
        rw [hc, hrest] at hcons
        exact absurd hcons nofun
      | some w =>
        rw [hc, hrest] at hcons
        obtain rfl := Option.some_inj.mp hcons
        obtain ⟨z, hz, hB⟩ := both_isTrue ⟨u, hc, Iff.rfl⟩ (ih ⟨w, hrest, Iff.rfl⟩)
        refine ⟨z, hz, hB.trans ?_⟩
        rw [← and_assoc, ← hA, Sql.and_isTrue]

/-- A single clause. -/
theorem conjunction_singleton {params : Params} {row : Row} {c : Clause} {A : Prop}
    (h : ∃ t, c.eval db params row = some t ∧ (t.IsTrue ↔ A)) :
    ∃ t, conjunction db params row [c] = some t ∧ (t.IsTrue ↔ A) := by
  obtain ⟨t, ht, hA⟩ := both_isTrue h ⟨some true, rfl, Iff.rfl⟩
  exact ⟨t, ht, hA.trans (and_iff_left rfl)⟩

variable {f : Field} {row : Row} {params : Params} {name : Name} {v : Text} {value : Datum} {o : Operator}

/-- A condition on a text and a parameter is true of a field that has a text for which it is. -/
theorem onTexts_isTrue (hkind : f.kind = .text) {condition : Text → Text → Option Bool} {P : Text → Prop} {p : Text}
    (h : ∀ s, ∃ b, condition s p = some b ∧ (b = true ↔ P s)) :
    ∃ t, onTexts condition (expression f row) (some (.text p)) = some t ∧
      (t.IsTrue ↔ ∃ s, expression f row = some (.text s) ∧ P s) := by
  have hexpression := expression_eq f row
  rw [hkind] at hexpression
  rcases hexpression with hnone | ⟨e, he, s, rfl⟩
  · rw [hnone]
    exact ⟨none, rfl, by simp [Sql.Truth.IsTrue]⟩
  · rw [he]
    obtain ⟨b, hb, hP⟩ := h s
    refine ⟨some b, congrArg (Option.map some) hb, Sql.some_isTrue.trans (hP.trans ?_)⟩
    constructor
    · intro hPs
      exact ⟨s, rfl, hPs⟩
    · rintro ⟨s', hs', hPs⟩
      obtain rfl := Datum.text.inj (Option.some_inj.mp hs')
      exact hPs

/-- A condition on two values is true of a field that has a value of the parameter's type for which it is. -/
theorem onData_isTrue {op : Comparison} {P : Datum → Prop}
    (h : ∀ e, expression f row = some e → ∃ o, e.compare value = some o ∧ (op.holds o = true ↔ P e)) :
    ∃ t, onData op (expression f row) (some value) = some t ∧
      (t.IsTrue ↔ ∃ e, expression f row = some e ∧ P e) := by
  cases he : expression f row with
  | none => exact ⟨none, rfl, by simp [Sql.Truth.IsTrue]⟩
  | some e =>
    obtain ⟨o, ho, hP⟩ := h e he
    refine ⟨some (op.holds o), congrArg (Option.map fun o => some (op.holds o)) ho,
      Sql.some_isTrue.trans (hP.trans ?_)⟩
    constructor
    · intro hPe
      exact ⟨e, rfl, hPe⟩
    · rintro ⟨e', he', hPe⟩
      obtain rfl := Option.some_inj.mp he'
      exact hPe

/-- Days and numbers compare as they are ordered. -/
theorem compare_holds (db : Database) {e m : Datum}
    (h : (∃ a b, e = .date a ∧ m = .date b) ∨ ∃ a b, e = .number a ∧ m = .number b) :
    ∃ o, e.compare m = some o ∧ (Comparison.eq.holds o = true ↔ Same db e m) ∧
      (Comparison.ge.holds o = true ↔ AtLeast e m) ∧ (Comparison.le.holds o = true ↔ AtLeast m e) := by
  have heq {o : Ordering} : Comparison.eq.holds o = true ↔ o = .eq := decide_eq_true_iff
  have hge {o : Ordering} : Comparison.ge.holds o = true ↔ o ≠ .lt := decide_eq_true_iff
  have hle {o : Ordering} : Comparison.le.holds o = true ↔ o ≠ .gt := decide_eq_true_iff
  rcases h with ⟨a, b, rfl, rfl⟩ | ⟨a, b, rfl, rfl⟩
  · refine ⟨_, rfl, heq.trans ?_, hge.trans ?_, hle.trans ?_⟩
    · exact compare_eq_iff_eq.trans (Datum.date.injEq a b).to_iff.symm
    · exact compare_lt_iff_lt.not.trans not_lt
    · exact compare_gt_iff_gt.not.trans not_lt
  · refine ⟨_, rfl, heq.trans ?_, hge.trans ?_, hle.trans ?_⟩
    · exact compare_eq_iff_eq.trans (Datum.number.injEq a b).to_iff.symm
    · exact compare_lt_iff_lt.not.trans not_lt
    · exact compare_gt_iff_gt.not.trans not_lt

/-- A field that is not blank is tested for that. -/
theorem notBlank_isTrue (db : Database) (params : Params) (f : Field) (row : Row) :
    ∃ t, (Clause.notBlank f).eval db params row = some t ∧ (t.IsTrue ↔ ¬ Blank (expression f row)) := by
  refine ⟨_, rfl, Sql.some_isTrue.trans ?_⟩
  rw [← isBlank_iff, Bool.not_eq_true', Bool.not_eq_true]

/-- A field is like the pattern of a value if it contains the value. -/
theorem ilike_isTrue (hkind : f.kind = .text) (hlookup : lookup params name = some (.text (Like.containing v))) :
    ∃ t, (Clause.ilike f name).eval db params row = some t ∧ (t.IsTrue ↔
      ∃ s, expression f row = some (.text s) ∧ db.letters.lower v <:+: db.letters.lower s) := by
  unfold Clause.eval
  dsimp only
  rw [hlookup]
  exact onTexts_isTrue hkind fun s => ⟨_, Like.ilike_containing s v, decide_eq_true_iff⟩

/-- It is not if it has a text that does not. -/
theorem notIlike_isTrue (hkind : f.kind = .text) (hlookup : lookup params name = some (.text (Like.containing v))) :
    ∃ t, (Clause.notIlike f name).eval db params row = some t ∧ (t.IsTrue ↔
      ∃ s, expression f row = some (.text s) ∧ ¬ db.letters.lower v <:+: db.letters.lower s) := by
  unfold Clause.eval
  dsimp only
  rw [hlookup]
  refine onTexts_isTrue hkind fun s => ⟨_, congrArg (Option.map not) (Like.ilike_containing s v), ?_⟩
  rw [Bool.not_eq_true', decide_eq_false_iff_not]

/-- A field is equal to a text ignoring case. -/
theorem lowerEquals_isTrue (hkind : f.kind = .text) {m : Text} (hlookup : lookup params name = some (.text m)) :
    ∃ t, (Clause.lowerEquals f name).eval db params row = some t ∧ (t.IsTrue ↔
      ∃ s, expression f row = some (.text s) ∧ db.letters.lower s = db.letters.lower m) := by
  unfold Clause.eval
  dsimp only
  rw [hlookup]
  exact onTexts_isTrue hkind fun s => ⟨_, rfl, decide_eq_true_iff⟩

/-- Or it has a text that is not. -/
theorem lowerDiffers_isTrue (hkind : f.kind = .text) {m : Text} (hlookup : lookup params name = some (.text m)) :
    ∃ t, (Clause.lowerDiffers f name).eval db params row = some t ∧ (t.IsTrue ↔
      ∃ s, expression f row = some (.text s) ∧ db.letters.lower s ≠ db.letters.lower m) := by
  unfold Clause.eval
  dsimp only
  rw [hlookup]
  exact onTexts_isTrue hkind fun s => ⟨_, rfl, decide_eq_true_iff⟩

/-- A text field that is not blank has a text. -/
theorem text_of_not_blank (hkind : f.kind = .text) {P : Text → Prop} :
    (¬ Blank (expression f row) ∧ ∃ s, expression f row = some (.text s) ∧ P s) ↔
      ¬ Blank (expression f row) ∧ ∀ s, expression f row = some (.text s) → P s := by
  refine and_congr_right fun hblank => ?_
  have hexpression := expression_eq f row
  rw [hkind] at hexpression
  rcases hexpression with hnone | ⟨e, he, s, rfl⟩
  · exact absurd (.inl hnone) hblank
  · rw [he]
    constructor
    · rintro ⟨s', hs', hP⟩ s'' hs''
      obtain rfl := Datum.text.inj (Option.some_inj.mp (hs'.symm.trans hs''))
      exact hP
    · intro h
      exact ⟨s, rfl, h s rfl⟩

/-- A text field has a value that compares with a text as its text does. -/
theorem text_of_some (db : Database) (row : Row) (hkind : f.kind = .text) {m : Text}
    (hm : meant py f v = some (.text m)) :
    (∃ s, expression f row = some (.text s) ∧ db.letters.lower s = db.letters.lower m) ↔
      ∃ e d, expression f row = some e ∧ meant py f v = some d ∧ Same db e d := by
  constructor
  · rintro ⟨s, hs, hsame⟩
    exact ⟨_, _, hs, hm, hsame⟩
  · rintro ⟨e, d, he, hd, hsame⟩
    have hexpression := expression_eq f row
    rw [hkind] at hexpression
    rcases hexpression with hnone | ⟨e', he', s, rfl⟩
    · exact absurd (hnone.symm.trans he) nofun
    · obtain rfl := Option.some_inj.mp (he.symm.trans he')
      obtain rfl := Option.some_inj.mp (hm.symm.trans hd)
      exact ⟨s, he', hsame⟩

/-- The clauses of a filter on a text say what it means. -/
theorem clauses_of_text (hkind : f.kind = .text) (ho : o ∈ operators f.kind) (hempty : o ≠ .is_empty)
    (hempty' : o ≠ .is_not_empty) (hparameter : parameter py rules f o v = .ok value)
    (hlookup : lookup params name = some value) :
    ∃ t, conjunction db params row (comparingClauses f o name) = some t ∧ (t.IsTrue ↔ Means py db f v row o) := by
  have hmeant : meant py f v = some (.text (named py f v)) := by
    unfold meant
    rw [hkind]
  rw [hkind] at ho
  rcases parameter_eq_ok hparameter with ⟨-, rfl | rfl, rfl⟩ | ⟨hnot, hvalue⟩
  · exact conjunction_singleton (ilike_isTrue hkind hlookup)
  · obtain ⟨t, ht, hiff⟩ := conjunction_append (conjunction_singleton (notBlank_isTrue db params f row))
      (conjunction_singleton (notIlike_isTrue hkind hlookup))
    exact ⟨t, ht, hiff.trans (text_of_not_blank hkind)⟩
  · obtain rfl := Option.some_inj.mp (hmeant.symm.trans hvalue)
    cases o with
    | contains => exact absurd ⟨hkind, .inl rfl⟩ hnot
    | not_contains => exact absurd ⟨hkind, .inr rfl⟩ hnot
    | equals =>
      have hclause : comparing f .equals name = .lowerEquals f name := if_pos hkind
      unfold comparingClauses
      rw [hclause]
      have heval : ∃ t, (Clause.lowerEquals f name).eval db params row = some t ∧ (t.IsTrue ↔ _) :=
        lowerEquals_isTrue hkind hlookup
      obtain ⟨t, ht, hiff⟩ := heval
      exact conjunction_singleton ⟨t, ht, hiff.trans (text_of_some db row hkind hmeant)⟩
    | not_equals =>
      have hclause : comparing f .not_equals name = .lowerDiffers f name := if_pos hkind
      unfold comparingClauses
      rw [hclause]
      obtain ⟨t, ht, hiff⟩ := conjunction_append (conjunction_singleton (notBlank_isTrue db params f row))
        (conjunction_singleton (lowerDiffers_isTrue hkind hlookup))
      refine ⟨t, ht, hiff.trans ((text_of_not_blank hkind).trans (and_congr_right fun _ => ?_))⟩
      have hsame := not_congr (text_of_some db row hkind hmeant)
      push Not at hsame
      exact hsame
    | is_empty => exact absurd rfl hempty
    | is_not_empty => exact absurd rfl hempty'
    | gte => exact absurd ho (by decide)
    | lte => exact absurd ho (by decide)

/-- A field compares with the value that is meant as the clause says. -/
theorem compare_isTrue {op : Comparison} {P : Datum → Datum → Prop} (hmeant : meant py f v = some value)
    (hlookup : lookup params name = some value)
    (h : ∀ e, expression f row = some e → ∃ o, e.compare value = some o ∧ (op.holds o = true ↔ P e value)) :
    ∃ t, (Clause.compare f op name).eval db params row = some t ∧
      (t.IsTrue ↔ ∃ e m, expression f row = some e ∧ meant py f v = some m ∧ P e m) := by
  obtain ⟨t, ht, hiff⟩ := onData_isTrue h
  refine ⟨t, ?_, hiff.trans ?_⟩
  · unfold Clause.eval
    dsimp only
    rw [hlookup]
    exact ht
  · constructor
    · rintro ⟨e, he, hP⟩
      exact ⟨e, value, he, hmeant, hP⟩
    · rintro ⟨e, m, he, hm, hP⟩
      obtain rfl := Option.some_inj.mp (hmeant.symm.trans hm)
      exact ⟨e, he, hP⟩

/-- What a filter on a day or a number means is of the type that the field has. -/
theorem types_agree (hkind : f.kind = .date ∨ f.kind = .number) (hmeant : meant py f v = some value) {e : Datum}
    (he : expression f row = some e) :
    (∃ a b, e = .date a ∧ value = .date b) ∨ ∃ a b, e = .number a ∧ value = .number b := by
  have hexpression := expression_eq f row
  unfold meant at hmeant
  rcases hkind with hkind | hkind
  · rw [hkind] at hexpression hmeant
    rcases hexpression with hnone | ⟨e', he', a, rfl⟩
    · exact absurd (hnone.symm.trans he) nofun
    · obtain ⟨b, -, rfl⟩ := Option.map_eq_some_iff.mp hmeant
      exact .inl ⟨a, b, Option.some_inj.mp (he.symm.trans he'), rfl⟩
  · rw [hkind] at hexpression hmeant
    rcases hexpression with hnone | ⟨e', he', a, rfl⟩
    · exact absurd (hnone.symm.trans he) nofun
    · dsimp only at hmeant
      split at hmeant
      · next q hq => exact .inr ⟨a, q, Option.some_inj.mp (he.symm.trans he'), (Option.some_inj.mp hmeant).symm⟩
      · exact absurd hmeant nofun

/-- So do those of a filter on a day, a number or a truth value. -/
theorem clauses_of_data (hkind : f.kind ≠ .text) (ho : o ∈ operators f.kind) (hempty : o ≠ .is_empty)
    (hempty' : o ≠ .is_not_empty) (hparameter : parameter py rules f o v = .ok value)
    (hlookup : lookup params name = some value) :
    ∃ t, conjunction db params row (comparingClauses f o name) = some t ∧ (t.IsTrue ↔ Means py db f v row o) := by
  have hmeant : meant py f v = some value := by
    rcases parameter_eq_ok hparameter with ⟨htext, -, -⟩ | ⟨-, hvalue⟩
    · exact absurd htext hkind
    · exact hvalue
  have hequals : comparing f .equals name = .compare f .eq name := if_neg hkind
  cases hk : f.kind with
  | text => exact absurd hk hkind
  | boolean =>
    -- Truth values are only compared for equality.
    rw [hk] at ho
    obtain rfl := List.mem_singleton.mp ho
    unfold comparingClauses
    rw [hequals]
    refine conjunction_singleton (compare_isTrue hmeant hlookup fun e he => ?_)
    have hexpression := expression_eq f row
    unfold meant at hmeant
    rw [hk] at hexpression hmeant
    obtain rfl := Option.some_inj.mp hmeant
    rcases hexpression with hnone | ⟨e', he', b, rfl⟩
    · exact absurd (hnone.symm.trans he) nofun
    · obtain rfl := Option.some_inj.mp (he.symm.trans he')
      refine ⟨_, rfl, decide_eq_true_iff.trans ?_⟩
      exact compare_eq_iff_eq.trans (Datum.boolean.injEq b _).to_iff.symm
  | date | number =>
    have hcompare := fun e (he : expression f row = some e) =>
      compare_holds db (types_agree (by rw [hk]; decide) hmeant he)
    rw [hk] at ho
    cases o with
    | equals =>
      unfold comparingClauses
      rw [hequals]
      refine conjunction_singleton (compare_isTrue hmeant hlookup fun e he => ?_)
      obtain ⟨c, hc, heq, -, -⟩ := hcompare e he
      exact ⟨c, hc, heq⟩
    | gte =>
      refine conjunction_singleton (compare_isTrue hmeant hlookup fun e he => ?_)
      obtain ⟨c, hc, -, hge, -⟩ := hcompare e he
      exact ⟨c, hc, hge⟩
    | lte =>
      refine conjunction_singleton (compare_isTrue (P := fun e m => AtLeast m e) hmeant hlookup fun e he => ?_)
      obtain ⟨c, hc, -, -, hle⟩ := hcompare e he
      exact ⟨c, hc, hle⟩
    | is_empty => exact absurd rfl hempty
    | is_not_empty => exact absurd rfl hempty'
    | _ => exact absurd ho (by decide)

/-- The tests for a value are opposites: one holds of a blank field. -/
theorem isEmpty_isTrue (db : Database) (params : Params) (f : Field) (row : Row) :
    ∃ t, (Clause.isEmpty f).eval db params row = some t ∧ (t.IsTrue ↔ Blank (expression f row)) :=
  ⟨_, rfl, Sql.some_isTrue.trans isBlank_iff⟩

/-- The other holds of any other. -/
theorem isNotEmpty_isTrue (db : Database) (params : Params) (f : Field) (row : Row) :
    ∃ t, (Clause.isNotEmpty f).eval db params row = some t ∧ (t.IsTrue ↔ ¬ Blank (expression f row)) :=
  notBlank_isTrue db params f row

/-- The clauses of a filter say what it means, where its parameter is found. -/
theorem compileRule_isTrue {index : ℕ} {rule : ColumnFilter} {clauses : List Clause} {own : Params}
    (h : compileRule py catalog_only rules index rule = .ok (clauses, own))
    (hlookup : ∀ p ∈ own, lookup params p.1 = some p.2) :
    ∃ t, conjunction db params row clauses = some t ∧ (t.IsTrue ↔ Says py db rule row) := by
  obtain ⟨f, o, -, hkey, ho, hname, hcases⟩ := compileRule_eq_ok h
  have htrue : Says py db rule row ↔ Means py db f (rule.value.getD []) row o := by
    constructor
    · rintro ⟨f', o', hkey', hname', hmeans⟩
      obtain rfl := key_injective (hkey.trans hkey'.symm)
      obtain rfl := name_injective (hname.trans hname'.symm)
      exact hmeans
    · intro hmeans
      exact ⟨f, o, hkey, hname, hmeans⟩
  rw [htrue]
  rcases hcases with ⟨rfl, rfl, -⟩ | ⟨rfl, rfl, -⟩ | ⟨hempty, hempty', v, value, hv, -, hparameter, rfl, rfl⟩
  · exact conjunction_singleton (isEmpty_isTrue db params f row)
  · exact conjunction_singleton (isNotEmpty_isTrue db params f row)
  · have hfound : lookup params (nameOf index) = some value := hlookup (nameOf index, value) List.mem_cons_self
    rw [hv]
    by_cases hkind : f.kind = .text
    · exact clauses_of_text hkind ho hempty hempty' hparameter hfound
    · exact clauses_of_data hkind ho hempty hempty' hparameter hfound

/-- The placeholders of a filter are its parameters, and have the name of its number. -/
theorem placeholders_compileRule {index : ℕ} {rule : ColumnFilter} {clauses : List Clause} {own : Params}
    (h : compileRule py catalog_only rules index rule = .ok (clauses, own)) :
    clauses.flatMap Clause.placeholders = own.map Prod.fst ∧
      (own.map Prod.fst = [] ∨ own.map Prod.fst = [nameOf index]) := by
  obtain ⟨f, o, -, -, ho, -, hcases⟩ := compileRule_eq_ok h
  rcases hcases with ⟨-, rfl, rfl⟩ | ⟨-, rfl, rfl⟩ | ⟨-, -, v, value, -, -, -, rfl, rfl⟩
  · exact ⟨rfl, .inl rfl⟩
  · exact ⟨rfl, .inl rfl⟩
  · have hcomparing : (comparing f o (nameOf index)).placeholders = [nameOf index] := by
      unfold comparing
      cases o <;> first | rfl | (dsimp only; split <;> rfl)
    refine ⟨?_, .inr rfl⟩
    unfold comparingClauses
    rw [List.flatMap_append, List.flatMap_singleton, hcomparing]
    split <;> rfl

end JobScripts.Board.ColumnFilters

import Mathlib.Data.List.Sort

/-!
# Pages after a row

Rows that a comparison puts in order are read page by page: a page starts after the last row of the page before, and
one row more than a page holds is asked for, to know whether there is a next one. `walk` follows the pages from the
first. Where no two rows compare equal it reads every row once, in order, in as many pages as the rows fill
(`walk_ordered`).
-/

namespace JobScripts.Lib.Keyset

variable {α κ : Type*} (cmp : α → α → Ordering)

/-! ## The order -/

/-- The rows in order. -/
def ordered (rows : List α) : List α := rows.insertionSort fun a b => (cmp a b).isLE = true

/-- A row comes before another. -/
def before (a b : α) : Bool := cmp a b = .lt

/-- No two rows compare equal. -/
def Distinct (rows : List α) : Prop := rows.Pairwise fun a b => cmp a b ≠ .eq

variable {cmp} [Std.TransCmp cmp] {rows : List α}

/-- Rows in order come one before the other. -/
theorem pairwise_ordered (h : Distinct cmp rows) : (ordered cmp rows).Pairwise fun a b => before cmp a b = true := by
  have htotal : Std.Total fun a b => (cmp a b).isLE = true := by
    refine ⟨fun a b => ?_⟩
    rw [@Std.OrientedCmp.eq_swap _ cmp _ b]
    cases cmp a b <;> simp
  have htrans : IsTrans α fun a b => (cmp a b).isLE = true := ⟨fun _ _ _ => Std.TransCmp.isLE_trans⟩
  have hle : (ordered cmp rows).Pairwise fun a b => (cmp a b).isLE = true := List.pairwise_insertionSort _ rows
  have hne : (ordered cmp rows).Pairwise fun a b => cmp a b ≠ .eq := by
    refine ((List.perm_insertionSort _ rows).pairwise_iff fun {a b} hab hba => hab ?_).mpr h
    exact Std.OrientedCmp.eq_symm hba
  refine (hle.and hne).imp fun {a b} hab => ?_
  unfold before
  rw [decide_eq_true_iff]
  obtain ⟨hle, hne⟩ := hab
  cases hcmp : cmp a b with
  | lt => rfl
  | eq => exact absurd hcmp hne
  | gt => rw [hcmp] at hle; exact absurd hle nofun

/-- Rows that come one before the other are in order, and there is no other such list of them. -/
theorem ordered_eq {rows' : List α} (h : Distinct cmp rows) (hperm : rows'.Perm rows)
    (hsorted : rows'.Pairwise fun a b => before cmp a b = true) : ordered cmp rows = rows' := by
  have hperm' : (ordered cmp rows).Perm rows' := (List.perm_insertionSort _ rows).trans hperm.symm
  refine hperm'.eq_of_pairwise (fun a b _ _ hab hba => ?_) (pairwise_ordered h) hsorted
  have hab : cmp a b = .lt := of_decide_eq_true hab
  have hba : cmp b a = .lt := of_decide_eq_true hba
  rw [Std.OrientedCmp.gt_of_lt hab] at hba
  exact absurd hba nofun

/-- Leaving rows out before they are put in order, or after, is the same. -/
theorem ordered_filter (h : Distinct cmp rows) (p : α → Bool) :
    ordered cmp (rows.filter p) = (ordered cmp rows).filter p :=
  ordered_eq (List.Pairwise.filter p h) ((List.perm_insertionSort _ rows).filter p)
    (List.Pairwise.filter p (pairwise_ordered h))

omit [Std.TransCmp cmp] in
/-- The rows that are put in order are all there. -/
theorem mem_ordered {a : α} : a ∈ ordered cmp rows ↔ a ∈ rows := (List.perm_insertionSort _ rows).mem_iff

/-- The rows that a row comes before are those after it. -/
theorem filter_before {done rest : List α} {c : α} (h : Distinct cmp rows)
    (heq : ordered cmp rows = done ++ c :: rest) : ordered cmp (rows.filter (before cmp c)) = rest := by
  have hsorted := pairwise_ordered h
  rw [heq, List.pairwise_append, List.pairwise_cons] at hsorted
  obtain ⟨-, ⟨hrest, -⟩, hdone⟩ := hsorted
  have hout : ∀ a ∈ done, ¬ before cmp c a = true := by
    intro a ha hca
    have hac : cmp a c = .lt := of_decide_eq_true (hdone a ha c List.mem_cons_self)
    have hca : cmp c a = .lt := of_decide_eq_true hca
    rw [Std.OrientedCmp.gt_of_lt hac] at hca
    exact absurd hca nofun
  have hself : ¬ before cmp c c = true := by
    unfold before
    rw [decide_eq_true_iff, @Std.ReflCmp.compare_self _ cmp]
    exact nofun
  rw [ordered_filter h, heq, List.filter_append, List.filter_eq_nil_iff.mpr hout, List.nil_append,
    List.filter_cons_of_neg hself, List.filter_eq_self.mpr hrest]

/-! ## Pages -/

/-- A page of the rows that are left, and the cursor of its last row where there are more. -/
def cut (limit : ℕ) (key : α → κ) (rest : List α) : List α × Option κ :=
  (rest.take limit, if limit < rest.length then (rest.take limit).getLast?.map key else none)

/-- The pages from a cursor on, each from the cursor of the one before, as long as there is one. -/
def walk (page : Option κ → Option (List α × Option κ)) : ℕ → Option κ → Option (List (List α))
  | 0, _ => none
  | fuel + 1, cursor =>
    match page cursor with
    | none => none
    | some (rows, none) => some [rows]
    | some (rows, some next) => (walk page fuel (some next)).map (rows :: ·)

variable {page : Option κ → Option (List α × Option κ)} {limit : ℕ} {key : α → κ}

/-- From any row on, the pages hold what is left. -/
theorem walk_rest (h : Distinct cmp rows) (hlimit : 1 ≤ limit)
    (hpage : ∀ c ∈ rows, page (some (key c)) = some (cut limit key (ordered cmp (rows.filter (before cmp c))))) :
    ∀ {fuel : ℕ} {cursor : Option κ} {done rest : List α}, ordered cmp rows = done ++ rest → rest.length < fuel →
      page cursor = some (cut limit key rest) → ∃ pages, walk page fuel cursor = some pages ∧ pages.flatten = rest ∧
        pages.length = max 1 ((rest.length + limit - 1) / limit) := by
  intro fuel
  induction fuel with
  | zero => exact fun _ hfuel => absurd hfuel (Nat.not_lt_zero _)
  | succ fuel ih =>
    intro cursor done rest heq hfuel hcursor
    rw [walk, hcursor]
    unfold cut
    by_cases hmore : limit < rest.length
    · rw [if_pos hmore]
      have hlast : (rest.take limit) ≠ [] := by
        rw [Ne, List.take_eq_nil_iff]
        rintro (rfl | rfl)
        · omega
        · exact absurd hmore (Nat.not_lt_zero _)
      obtain ⟨init, c, hc⟩ := List.eq_nil_or_concat' (rest.take limit) |>.resolve_left hlast
      have hcut : rest = init ++ c :: rest.drop limit := by
        conv_lhs => rw [← List.take_append_drop limit rest, hc]
        rw [List.append_assoc, List.singleton_append]
      have hsplit : ordered cmp rows = (done ++ init) ++ c :: rest.drop limit := by
        rw [heq, List.append_assoc, ← hcut]
      have hmem : c ∈ ordered cmp rows := hsplit ▸ List.mem_append_right _ List.mem_cons_self
      have hnext := hpage c (mem_ordered.mp hmem)
      rw [filter_before h hsplit] at hnext
      have hdrop : (rest.drop limit).length < fuel := by
        rw [List.length_drop]
        omega
      have hsplit' : ordered cmp rows = (done ++ init ++ [c]) ++ rest.drop limit := by
        rw [hsplit, List.append_assoc (done ++ init), List.singleton_append]
      obtain ⟨pages, hwalk, hflat, hlength⟩ := ih hsplit' hdrop hnext
      refine ⟨rest.take limit :: pages, ?_, ?_, ?_⟩
      · rw [hc, List.getLast?_concat]
        dsimp only [Option.map_some]
        rw [hwalk, ← hc]
        rfl
      · rw [List.flatten_cons, hflat, List.take_append_drop]
      · have hceil : (rest.length + limit - 1) / limit = (rest.length - limit + limit - 1) / limit + 1 := by
          rw [← Nat.add_div_right _ (by omega : 0 < limit)]
          congr 1
          omega
        have hpos : 1 ≤ (rest.length - limit + limit - 1) / limit := (Nat.le_div_iff_mul_le (by omega)).mpr (by omega)
        rw [List.length_cons, hlength, List.length_drop, hceil]
        omega
    · rw [if_neg hmore]
      refine ⟨[rest], ?_, ?_, ?_⟩
      · rw [List.take_of_length_le (by omega)]
      · rw [List.flatten_cons, List.flatten_nil, List.append_nil]
      · have hone : (rest.length + limit - 1) / limit ≤ 1 := Nat.lt_succ_iff.mp (Nat.div_lt_of_lt_mul (by omega))
        rw [List.length_singleton]
        omega

/-- So all pages together are the rows, in order. -/
theorem walk_ordered (h : Distinct cmp rows) (hlimit : 1 ≤ limit)
    (hpage : ∀ c ∈ rows, page (some (key c)) = some (cut limit key (ordered cmp (rows.filter (before cmp c)))))
    (hfirst : page none = some (cut limit key (ordered cmp rows))) {fuel : ℕ} (hfuel : rows.length < fuel) :
    ∃ pages, walk page fuel none = some pages ∧ pages.flatten = ordered cmp rows ∧
      pages.length = max 1 ((rows.length + limit - 1) / limit) := by
  have hlength : (ordered cmp rows).length = rows.length := (List.perm_insertionSort _ rows).length_eq
  obtain ⟨pages, hwalk, hflat, hpages⟩ := walk_rest h hlimit hpage (List.nil_append _).symm (hlength ▸ hfuel) hfirst
  exact ⟨pages, hwalk, hflat, hlength ▸ hpages⟩

end JobScripts.Lib.Keyset

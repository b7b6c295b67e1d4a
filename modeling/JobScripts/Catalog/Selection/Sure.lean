import JobScripts.Catalog.Selection.Statements

/-!
# What an operation of one person is sure of

A transaction of `change`, `replace` or `join_group` writes only rows of its person, and the others commit while it
runs. What it may rely on (`EditOk`) is said of what is committed and of what it has written, and holds on when another
one commits (`EditOk.settle`) or a row is passed over (`EditOk.skip`). From it follows what the person holds once the
transaction is done (`EditOk.view_holds`).
-/

namespace JobScripts.Catalog.Selection

/-- What an operation of one person means for what they hold. -/
def Edit.Means {c : Offer} (e : Edit c) (H : String → Prop) (x : String) : Prop :=
  (H x ∧ e.clears x = false) ∨ x ∈ e.puts ∨ ∃ g, e.joins = some g ∧ x ∈ c.reach g

/-- The row is one that the current statement of an operation may work on. -/
def Edit.Fits {c : Offer} (e : Edit c) (u pc : ℕ) (own : Key → Option (Option ℕ)) : RowAct → Prop
  | .erase x _ => (pc = 3 ∧ e.keeps = false ∧ ∃ g, x = .follow u g ∧ e.leaves g = true) ∨
      pc = 4 ∧ ∃ y, x = .pick u y ∧ e.clears y = true
  | .unfollow u' g _ => u' = u ∧ pc = 3 ∧ e.keeps = true ∧ e.leaves g = true
  | .put u' x => u' = u ∧ ((pc = 3 ∧ e.keeps = true ∧ ∃ g, own (.follow u g) = some none ∧ x ∈ c.reach g) ∨
      pc = 5 ∧ x ∈ e.puts)
  | .insert u' x => u' = u ∧ pc = 5 ∧ x ∈ e.puts
  | .follow u' g => u' = u ∧ pc = 6 ∧ e.joins = some g
  | .remove .. => False

/-- The row is one of a follow that the statement has still to drop. -/
def Drops (u : ℕ) (g : String) (v : ℕ) (now : List RowAct) : Prop :=
  .erase (.follow u g) v ∈ now ∨ .unfollow u g v ∈ now

/-- What an operation of one person is sure of, by what is committed, what it has written, and the bundles that it has
locked. Once it has started a statement, the rows that the statement has selected are done, or still to do, or another
transaction has seen to them. -/
structure EditOk (c : Offer) (rows : Rows) (own : Key → Option (Option ℕ)) (shares : String → Prop) (u : ℕ)
    (e : Edit c) (t : Tx) : Prop where
  pc : t.pc ≤ 7
  idle : t.pc = 0 → ∀ x, own x = none
  locked : 1 ≤ t.pc → (own (.user u)).isSome
  keys : ∀ x v, own x = some v → x = .user u ∨ (∃ y, x = .pick u y) ∨ ∃ g, x = .follow u g
  early : t.pc ≤ 2 → ∀ x v, own x = some v → x = .user u
  fits : ∀ act ∈ t.now, e.Fits u t.pc own act
  left : ∀ g, own (.follow u g) = some none → e.leaves g = true ∧ (rows (.follow u g)).isSome
  joined : ∀ g v, own (.follow u g) = some (some v) → e.joins = some g ∧ shares g ∧ 6 ≤ t.pc
  gone : 3 ≤ t.pc → ∀ g, e.leaves g = true → (own (.follow u g)).isSome ∨ rows (.follow u g) = none ∨
    (t.pc = 3 ∧ ∃ v, rows (.follow u g) = some v ∧ Drops u g v t.now)
  kept : e.keeps = true → ∀ g, own (.follow u g) = some none → ∀ x ∈ c.reach g,
    (view rows own (.pick u x)).isSome ∨ (t.pc = 3 ∧ .put u x ∈ t.now) ∨ (4 ≤ t.pc ∧ e.clears x = true)
  cleared : 4 ≤ t.pc → ∀ x, e.clears x = true → view rows own (.pick u x) = none ∨
    (t.pc = 4 ∧ ∃ v, view rows own (.pick u x) = some v ∧ .erase (.pick u x) v ∈ t.now) ∨ (5 ≤ t.pc ∧ x ∈ e.puts)
  erased : ∀ x, own (.pick u x) = some none → e.clears x = true
  written : ∀ x v, own (.pick u x) = some (some v) → (5 ≤ t.pc ∧ x ∈ e.puts) ∨
    (e.keeps = true ∧ ∃ g, own (.follow u g) = some none ∧ x ∈ c.reach g)
  put : 5 ≤ t.pc → ∀ x ∈ e.puts, (view rows own (.pick u x)).isSome ∨
    (t.pc = 5 ∧ (.put u x ∈ t.now ∨ .insert u x ∈ t.now))
  follows : 6 ≤ t.pc → ∀ g, e.joins = some g → (t.pc = 6 ∧ .follow u g ∈ t.now) ∨
    (∃ v, own (.follow u g) = some (some v)) ∨ ∀ x ∈ c.reach g, Holds c rows u x ∧ e.clears x = false
  before : 2 ≤ t.pc → ∀ x, x ∈ t.before ↔ x ∈ e.touched ∧ Holds c rows u x
  after : 7 ≤ t.pc → ∀ x, x ∈ t.after ↔ x ∈ e.touched ∧ e.Means (Holds c rows u) x

section Calls

variable {c : Offer} {u : ℕ} {e : Edit c} {op : Op}

/-- A call is of one person, or a deletion. -/
theorem Op.edit_cases (c : Offer) (op : Op) : (∃ u e, op.edit c = some (u, e)) ∨ ∃ g, op = .deleteGroup g := by
  rcases op with _ | _ | _ | g
  · exact .inl ⟨_, _, rfl⟩
  · exact .inl ⟨_, _, rfl⟩
  · exact .inl ⟨_, _, rfl⟩
  · exact .inr ⟨g, rfl⟩

/-- The names, each once. -/
theorem mem_sortedSet {names : List String} {x : String} : x ∈ sortedSet names ↔ x ∈ names := by
  unfold sortedSet
  rw [List.mem_insertionSort, List.mem_dedup]

/-- A call of one person means what its statements are to do. -/
theorem Op.meaning_of_edit (he : op.edit c = some (u, e)) (H : Held) :
    op.meaning c H = Function.update H u {x | e.Means (· ∈ H u) x} := by
  rcases op with ⟨u', add, remove⟩ | ⟨u', names⟩ | ⟨u', group, only⟩ | g
  · obtain ⟨rfl, rfl⟩ := Prod.mk.inj (Option.some.inj he)
    refine congrArg (Function.update H u') (Set.ext fun x => ?_)
    have hclears : (Selection.change c add remove).clears x = false ↔ ¬(x ∈ remove ∧ x ∉ add) := by
      simp [Selection.change]
    have hputs : x ∈ (Selection.change c add remove).puts ↔ x ∈ add := mem_sortedSet
    show (x ∈ H u' ∨ x ∈ add) ∧ ¬(x ∈ remove ∧ x ∉ add) ↔ _ ∨ _ ∨ _
    rw [hclears, hputs]
    constructor
    · rintro ⟨hheld | hadd, hremove⟩
      · exact .inl ⟨hheld, hremove⟩
      · exact .inr (.inl hadd)
    · rintro (⟨hheld, hremove⟩ | hadd | ⟨g, hg, -⟩)
      · exact ⟨.inl hheld, hremove⟩
      · exact ⟨.inr hadd, fun hremove => hremove.2 hadd⟩
      · contradiction
  · obtain ⟨rfl, rfl⟩ := Prod.mk.inj (Option.some.inj he)
    refine congrArg (Function.update H u') (Set.ext fun x => ?_)
    show x ∈ names ↔ _ ∨ _ ∨ _
    constructor
    · exact fun hx => .inr (.inl (mem_sortedSet.mpr hx))
    · rintro (⟨-, hclears⟩ | hx | ⟨g, hg, -⟩)
      · contradiction
      · exact mem_sortedSet.mp hx
      · contradiction
  · obtain ⟨rfl, rfl⟩ := Prod.mk.inj (Option.some.inj he)
    refine congrArg (Function.update H u') (Set.ext fun x => ?_)
    show x ∈ (if only then {x ∈ H u' | c.active x = false} else H u') ∨ x ∈ c.reach group ↔ _ ∨ _ ∨ _
    have hclears : (Selection.joinGroup c group only).clears x = (only && c.active x) := rfl
    rw [hclears]
    constructor
    · rintro (hheld | hx)
      · refine .inl ?_
        split at hheld
        · next honly => exact ⟨hheld.1, by rw [honly, hheld.2]; rfl⟩
        · next honly =>
          rw [Bool.not_eq_true] at honly
          exact ⟨hheld, by rw [honly]; rfl⟩
      · exact .inr (.inr ⟨group, rfl, hx⟩)
    · rintro (⟨hheld, hkept⟩ | hx | ⟨g, hg, hx⟩)
      · refine .inl ?_
        split
        · next honly =>
          rw [honly, Bool.true_and] at hkept
          exact ⟨hheld, hkept⟩
        · exact hheld
      · exact absurd hx List.not_mem_nil
      · obtain rfl := Option.some.inj hg
        exact .inr hx
  · contradiction

end Calls

section Views

variable {c : Offer} {rows rows' : Rows} {own : Key → Option (Option ℕ)} {x : Key} {u : ℕ}

/-- What has not been written is as it is committed. -/
theorem view_of_none (h : own x = none) : view rows own x = rows x := by
  unfold view
  rw [h, Option.getD_none]

/-- What has been written is as it was written. -/
theorem view_of_some {v : Option ℕ} (h : own x = some v) : view rows own x = v := by
  unfold view
  rw [h, Option.getD_some]

/-- The row that is written. -/
theorem view_update (y : Key) (v : Option ℕ) :
    view rows (Function.update own x (some v)) y = if y = x then v else view rows own y := by
  unfold view
  rw [Function.update_apply]
  split
  · rfl
  · rfl

/-- A follow with its bundle reaches what the bundle does. -/
theorem Holds.of_follow {g : String} (hf : (rows (.follow u g)).isSome) (hg : (rows (.group g)).isSome) {x : String}
    (hx : x ∈ c.reach g) : Holds c rows u x := .inr ⟨g, hf, hg, hx⟩

/-- What the query finds is what the person holds, if the keys are all there. -/
theorem holds_iff {keys : List Key} (hkeys : ∀ y, (rows y).isSome → y ∈ keys) {x : String} :
    holds c keys rows u x = true ↔ Holds c rows u x := by
  unfold holds Holds
  rw [Bool.or_eq_true, List.any_eq_true]
  refine or_congr_right ⟨?_, ?_⟩
  · rintro ⟨y, -, hy⟩
    unfold Key.reaches at hy
    split at hy
    · next u' g =>
      simp only [Bool.and_eq_true, decide_eq_true_eq, List.contains_iff_mem] at hy
      obtain ⟨⟨⟨rfl, hf⟩, hg⟩, hx⟩ := hy
      exact ⟨g, hf, hg, hx⟩
    · contradiction
  · rintro ⟨g, hf, hg, hx⟩
    refine ⟨.follow u g, hkeys _ hf, ?_⟩
    simp [Key.reaches, hf, hg, hx]

end Views

section Edits

variable {c : Offer} {rows rows' : Rows} {own : Key → Option (Option ℕ)} {shares : String → Prop} {u : ℕ} {e : Edit c}
  {t : Tx}

/-- No operation of one person writes a bundle. -/
theorem EditOk.own_group (h : EditOk c rows own shares u e t) (g : String) : own (.group g) = none := by
  rcases hown : own (.group g) with _ | v
  · rfl
  · rcases h.keys _ v hown with hkey | ⟨y, hkey⟩ | ⟨g', hkey⟩ <;> contradiction

/-- A bundle is seen as it is committed. -/
theorem EditOk.view_group (h : EditOk c rows own shares u e t) (g : String) :
    view rows own (.group g) = rows (.group g) := view_of_none (h.own_group g)

/-- No operation of one person writes a row of another's. -/
theorem EditOk.view_pick (h : EditOk c rows own shares u e t) {w : ℕ} (hw : w ≠ u) (x : String) :
    view rows own (.pick w x) = rows (.pick w x) := by
  refine view_of_none ?_
  rcases hown : own (.pick w x) with _ | v
  · rfl
  · rcases h.keys _ v hown with hkey | ⟨y, hkey⟩ | ⟨g, hkey⟩
    · contradiction
    · exact absurd (Key.pick.inj hkey).1 hw
    · contradiction

/-- Nor a follow. -/
theorem EditOk.view_follow (h : EditOk c rows own shares u e t) {w : ℕ} (hw : w ≠ u) (g : String) :
    view rows own (.follow w g) = rows (.follow w g) := by
  refine view_of_none ?_
  rcases hown : own (.follow w g) with _ | v
  · rfl
  · rcases h.keys _ v hown with hkey | ⟨y, hkey⟩ | ⟨g', hkey⟩
    · contradiction
    · contradiction
    · exact absurd (Key.follow.inj hkey).1 hw

/-- What others hold stays. -/
theorem EditOk.holds_other (h : EditOk c rows own shares u e t) {w : ℕ} (hw : w ≠ u) (x : String) :
    Holds c (view rows own) w x ↔ Holds c rows w x := by
  unfold Holds
  rw [h.view_pick hw]
  refine or_congr_right (exists_congr fun g => ?_)
  rw [h.view_follow hw, h.view_group]

/-- Before its first statement an operation has no row to work on. -/
theorem EditOk.now_eq_nil (h : EditOk c rows own shares u e t) (hpc : t.pc = 0) : t.now = [] := by
  refine List.eq_nil_iff_forall_not_mem.mpr fun act hact => ?_
  have hfits := h.fits act hact
  rw [hpc] at hfits
  cases act with
  | erase x v => rcases hfits with ⟨hthree, -⟩ | ⟨hfour, -⟩ <;> contradiction
  | unfollow u' g v => exact absurd hfits.2.1 (by decide)
  | put u' x => rcases hfits.2 with ⟨hthree, -⟩ | ⟨hfive, -⟩ <;> contradiction
  | insert u' x => exact absurd hfits.2.1 (by decide)
  | follow u' g => exact absurd hfits.2.1 (by decide)
  | remove g v => exact hfits

/-- What the person held, and was not to lose, is still seen. -/
theorem EditOk.holds_of_holds (h : EditOk c rows own shares u e t) (hpc : 4 ≤ t.pc) {x : String}
    (hheld : Holds c rows u x) (hclears : e.clears x = false) : Holds c (view rows own) u x := by
  rcases hheld with hpick | ⟨g, hf, hg, hx⟩
  · refine .inl ?_
    rcases hown : own (.pick u x) with _ | _ | v
    · rw [view_of_none hown]
      exact hpick
    · rw [h.erased x hown] at hclears
      contradiction
    · rw [view_of_some hown]
      rfl
  · rcases hown : own (.follow u g) with _ | _ | v
    · refine .of_follow ?_ ?_ hx
      · rw [view_of_none hown]
        exact hf
      · rw [h.view_group]
        exact hg
    · -- A follow that was dropped: its reach is kept, if it is not to be lost.
      have hleaves := (h.left g hown).1
      rcases hkeeps : e.keeps with _ | _
      · rw [e.lost g hleaves hkeeps x hx] at hclears
        contradiction
      · rcases h.kept hkeeps g hown x hx with hseen | ⟨hthree, -⟩ | ⟨-, hlost⟩
        · exact .inl hseen
        · omega
        · rw [hlost] at hclears
          contradiction
    · refine .of_follow ?_ ?_ hx
      · rw [view_of_some hown]
        rfl
      · rw [h.view_group]
        exact hg

/-- Once its statements have run, a transaction sees what its operation means. -/
theorem EditOk.view_holds (h : EditOk c rows own shares u e t)
    (hfk : ∀ g, (rows (.follow u g)).isSome → (rows (.group g)).isSome)
    (hshares : ∀ g, shares g → (rows (.group g)).isSome) (hpc : 6 ≤ t.pc) (hnow : t.now = []) (x : String) :
    Holds c (view rows own) u x ↔ e.Means (Holds c rows u) x := by
  -- What is seen of a name that is to be lost was inserted again.
  have hcleared : ∀ x, (view rows own (.pick u x)).isSome → e.clears x = true → x ∈ e.puts := by
    intro x hseen hclears
    rcases h.cleared (by omega) x hclears with hnone | ⟨hfour, -⟩ | ⟨-, hputs⟩
    · rw [hnone] at hseen
      contradiction
    · omega
    · exact hputs
  constructor
  -- What is seen was there and is not cleared, or was put, or is reached by the bundle that is
  -- joined.
  · rintro (hseen | ⟨g, hf, hg, hx⟩)
    · by_cases hclears : e.clears x = true
      · exact .inr (.inl (hcleared x hseen hclears))
      · rw [Bool.not_eq_true] at hclears
        rcases hown : own (.pick u x) with _ | _ | v
        · rw [view_of_none hown] at hseen
          exact .inl ⟨.inl hseen, hclears⟩
        · rw [view_of_some hown] at hseen
          contradiction
        · rcases h.written x v hown with ⟨-, hputs⟩ | ⟨-, g, hdropped, hx⟩
          · exact .inr (.inl hputs)
          · have hf := (h.left g hdropped).2
            exact .inl ⟨.of_follow hf (hfk g hf) hx, hclears⟩
    · rcases hown : own (.follow u g) with _ | _ | v
      · rw [view_of_none hown] at hf
        refine .inl ⟨.of_follow hf (hfk g hf) hx, ?_⟩
        -- A follow that is still there reaches nothing that is to be lost.
        by_contra hclears
        rcases h.gone (by omega) g (e.left g x hx (Bool.not_eq_false _ ▸ hclears)) with hgone | hgone | ⟨hthree, -⟩
        · rw [hown] at hgone
          contradiction
        · rw [hgone] at hf
          contradiction
        · omega
      · rw [view_of_some hown] at hf
        contradiction
      · exact .inr (.inr ⟨g, (h.joined g v hown).1, hx⟩)
  -- And what the operation means is seen.
  · rintro (⟨hheld, hclears⟩ | hputs | ⟨g, hjoins, hx⟩)
    · exact h.holds_of_holds (by omega) hheld hclears
    · rcases h.put (by omega) x hputs with hseen | ⟨hfive, -⟩
      · exact .inl hseen
      · omega
    · rcases h.follows hpc g hjoins with ⟨-, hmem⟩ | ⟨v, hown⟩ | hheld
      · rw [hnow] at hmem
        exact absurd hmem List.not_mem_nil
      · refine .of_follow ?_ ?_ hx
        · rw [view_of_some hown]
          rfl
        · rw [h.view_group]
          exact hshares g (h.joined g v hown).2.1
      · exact h.holds_of_holds (by omega) (hheld x hx).1 (hheld x hx).2

/-- What another transaction may commit for the person meanwhile: a follow goes, and what it reached is picked. -/
structure Settles (c : Offer) (u : ℕ) (own : Key → Option (Option ℕ)) (rows rows' : Rows) : Prop where
  pick : ∀ x, rows' (.pick u x) = rows (.pick u x) ∨ (own (.pick u x) = none ∧ (rows' (.pick u x)).isSome ∧
    ∃ g, x ∈ c.reach g ∧ (rows (.follow u g)).isSome ∧ own (.follow u g) = none)
  follow : ∀ g, rows' (.follow u g) = rows (.follow u g) ∨ (own (.follow u g) = none ∧ rows' (.follow u g) = none)
  holds : ∀ x, Holds c rows' u x ↔ Holds c rows u x

/-- Such a commit leaves sure what was sure. -/
theorem EditOk.settle (h : EditOk c rows own shares u e t) (hs : Settles c u own rows rows') :
    EditOk c rows' own shares u e t where
  pc := h.pc
  idle := h.idle
  locked := h.locked
  keys := h.keys
  early := h.early
  fits := h.fits
  left g hown := by
    obtain ⟨hleaves, hf⟩ := h.left g hown
    -- A row that the transaction has written was not written by the other one.
    rcases hs.follow g with heq | ⟨hnone, -⟩
    · exact ⟨hleaves, heq ▸ hf⟩
    · rw [hown] at hnone
      contradiction
  joined := h.joined
  gone hpc g hleaves := by
    rcases hs.follow g with heq | ⟨-, hnone⟩
    · rw [heq]
      exact h.gone hpc g hleaves
    · exact .inr (.inl hnone)
  -- What is seen is still there, as it was or as a pick of the other one.
  kept hkeeps g hown x hx := by
    refine (h.kept hkeeps g hown x hx).imp_left fun hseen => ?_
    rcases hs.pick x with heq | ⟨hnone, hsome, -⟩
    · unfold view at hseen ⊢
      rw [heq]
      exact hseen
    · rw [view_of_none hnone]
      exact hsome
  cleared hpc x hclears := by
    rcases hs.pick x with heq | ⟨-, -, g, hx, hf, hown⟩
    · unfold view
      rw [heq]
      exact h.cleared hpc x hclears
    · -- The follow would have been dropped before.
      rcases h.gone (by omega) g (e.left g x hx hclears) with hgone | hgone | ⟨hthree, -⟩
      · rw [hown] at hgone
        contradiction
      · rw [hgone] at hf
        contradiction
      · omega
  erased := h.erased
  written := h.written
  put hpc x hx := by
    refine (h.put hpc x hx).imp_left fun hseen => ?_
    rcases hs.pick x with heq | ⟨hnone, hsome, -⟩
    · unfold view at hseen ⊢
      rw [heq]
      exact hseen
    · rw [view_of_none hnone]
      exact hsome
  -- What the person holds is the same.
  follows hpc g hg := by
    refine (h.follows hpc g hg).imp_right (Or.imp_right fun hheld x hx => ?_)
    rw [hs.holds]
    exact hheld x hx
  before hpc x := by
    rw [hs.holds]
    exact h.before hpc x
  after hpc x := by
    have hmeans : e.Means (Holds c rows' u) x ↔ e.Means (Holds c rows u) x := by
      unfold Edit.Means
      rw [hs.holds]
    rw [hmeans]
    exact h.after hpc x

/-- A row that is left is the one that is worked on, or left after it. -/
theorem mem_eraseIdx_cases {now : List RowAct} {i : ℕ} {act a : RowAct} (hact : now[i]? = some act) (ha : a ∈ now) :
    a = act ∨ a ∈ now.eraseIdx i := by
  obtain ⟨hi, hget⟩ := List.getElem?_eq_some_iff.mp hact
  obtain ⟨j, hj, rfl⟩ := List.mem_iff_getElem.mp ha
  rcases eq_or_ne j i with rfl | hne
  · exact .inl hget
  · exact .inr (List.mem_eraseIdx_iff_getElem.mpr ⟨j, hj, hne, rfl⟩)

/-- The row is done: nothing of what the operation is sure of depends on it any more. -/
def RowDone (c : Offer) (rows : Rows) (own : Key → Option (Option ℕ)) (u : ℕ) (e : Edit c) : RowAct → Prop
  | .erase x v => (∀ g, x = .follow u g → (own x).isSome ∨ rows x ≠ some v) ∧
      ∀ y, x = .pick u y → view rows own x ≠ some v
  | .unfollow u' g v => u' = u → (own (.follow u g)).isSome ∨ rows (.follow u g) ≠ some v
  | .put u' x | .insert u' x => u' = u → (view rows own (.pick u x)).isSome
  | .follow u' g => u' = u → (∃ v, own (.follow u g) = some (some v)) ∨
      ∀ x ∈ c.reach g, Holds c rows u x ∧ e.clears x = false
  | .remove .. => True

/-- A row that is done is left out. -/
theorem EditOk.skip (h : EditOk c rows own shares u e t) {i : ℕ} {act : RowAct} (hact : t.now[i]? = some act)
    (hdone : RowDone c rows own u e act) : EditOk c rows own shares u e { t with now := t.now.eraseIdx i } where
  pc := h.pc
  idle := h.idle
  locked := h.locked
  keys := h.keys
  early := h.early
  fits a ha := h.fits a (List.mem_of_mem_eraseIdx ha)
  left := h.left
  joined := h.joined
  gone hpc g hleaves := by
    rcases h.gone hpc g hleaves with hgone | hgone | ⟨hthree, v, hv, hdrops | hdrops⟩
    · exact .inl hgone
    · exact .inr (.inl hgone)
    · rcases mem_eraseIdx_cases hact hdrops with rfl | hmem
      · exact .inl ((hdone.1 g rfl).resolve_right (not_not.mpr hv))
      · exact .inr (.inr ⟨hthree, v, hv, .inl hmem⟩)
    · rcases mem_eraseIdx_cases hact hdrops with rfl | hmem
      · exact .inl ((hdone rfl).resolve_right (not_not.mpr hv))
      · exact .inr (.inr ⟨hthree, v, hv, .inr hmem⟩)
  kept hkeeps g hown x hx := by
    rcases h.kept hkeeps g hown x hx with hseen | ⟨hthree, hput⟩ | hlost
    · exact .inl hseen
    · rcases mem_eraseIdx_cases hact hput with rfl | hmem
      · exact .inl (hdone rfl)
      · exact .inr (.inl ⟨hthree, hmem⟩)
    · exact .inr (.inr hlost)
  cleared hpc x hclears := by
    rcases h.cleared hpc x hclears with hnone | ⟨hfour, v, hv, herase⟩ | hputs
    · exact .inl hnone
    · rcases mem_eraseIdx_cases hact herase with rfl | hmem
      · exact absurd hv (hdone.2 x rfl)
      · exact .inr (.inl ⟨hfour, v, hv, hmem⟩)
    · exact .inr (.inr hputs)
  erased := h.erased
  written := h.written
  put hpc x hx := by
    rcases h.put hpc x hx with hseen | ⟨hfive, hput | hput⟩
    · exact .inl hseen
    · rcases mem_eraseIdx_cases hact hput with rfl | hmem
      · exact .inl (hdone rfl)
      · exact .inr ⟨hfive, .inl hmem⟩
    · rcases mem_eraseIdx_cases hact hput with rfl | hmem
      · exact .inl (hdone rfl)
      · exact .inr ⟨hfive, .inr hmem⟩
  follows hpc g hg := by
    rcases h.follows hpc g hg with ⟨hsix, hfollow⟩ | hdone'
    · rcases mem_eraseIdx_cases hact hfollow with rfl | hmem
      · exact .inr (hdone rfl)
      · exact .inl ⟨hsix, hmem⟩
    · exact .inr hdone'
  before := h.before
  after := h.after

end Edits

end JobScripts.Catalog.Selection

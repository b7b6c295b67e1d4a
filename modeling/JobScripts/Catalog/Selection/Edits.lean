import JobScripts.Catalog.Selection.Sure

/-!
# The statements of an operation of one person

Each row that a statement writes, and each statement that begins, leaves the operation sure of what it was sure of.
-/

namespace JobScripts.Catalog.Selection

section Edits

variable {c : Offer} {rows rows' : Rows} {own : Key → Option (Option ℕ)} {shares : String → Prop} {u : ℕ} {e : Edit c}
  {t : Tx}

/-- A follow is dropped, and what it reached is still to be inserted if it is kept. -/
theorem EditOk.drop (h : EditOk c rows own shares u e t) (hpc : t.pc = 3) {g : String} {v : ℕ}
    (hleaves : e.leaves g = true) (hseen : view rows own (.follow u g) = some v) (more : List RowAct)
    (hmore : ∀ a ∈ more, e.keeps = true ∧ ∃ x ∈ c.reach g, a = .put u x)
    (hputs : e.keeps = true → ∀ x ∈ c.reach g, RowAct.put u x ∈ more) :
    EditOk c rows (Function.update own (.follow u g) (some none)) shares u e { t with now := t.now ++ more } := by
  -- The follow has not been written before, and a pick is not touched.
  have hnone : own (.follow u g) = none := by
    rcases hown : own (.follow u g) with _ | _ | v'
    · rfl
    · rw [view_of_some hown] at hseen
      contradiction
    · have hsix := (h.joined g v' hown).2.2
      omega
  have hpick : ∀ y, Function.update own (.follow u g) (some none) (.pick u y) = own (.pick u y) :=
    fun y => Function.update_of_ne (fun heq : Key.pick u y = .follow u g => nomatch heq) ..
  have hview : ∀ y, view rows (Function.update own (.follow u g) (some none)) (.pick u y) = view rows own (.pick u y) := by
    intro y
    rw [view_update, if_neg nofun]
  have hmono : ∀ g', own (.follow u g') = some none →
      Function.update own (.follow u g) (some none) (.follow u g') = some none := by
    intro g' hown
    rw [Function.update_apply]
    split
    · rfl
    · exact hown
  -- The statement that drops follows is the third, which settles what is said of the others.
  constructor
  case pc => exact h.pc
  case idle =>
    intro (hzero : t.pc = 0)
    omega
  case locked =>
    intro hone
    rw [Function.update_of_ne fun heq : Key.user u = .follow u g => nomatch heq]
    exact h.locked hone
  case keys =>
    intro x v' hown
    rw [Function.update_apply] at hown
    split at hown
    · next heq => exact .inr (.inr ⟨g, heq⟩)
    · exact h.keys x v' hown
  case early =>
    intro (htwo : t.pc ≤ 2)
    omega
  -- What is to be inserted is what a follow that is dropped now reached.
  case fits =>
    intro a ha
    rcases List.mem_append.mp ha with ha | ha
    · have hfits := h.fits a ha
      cases a with
      | put u' x =>
        refine ⟨hfits.1, hfits.2.imp_left fun ⟨hthree, hkeeps, g', hown, hx⟩ => ?_⟩
        exact ⟨hthree, hkeeps, g', hmono g' hown, hx⟩
      | _ => exact hfits
    · obtain ⟨hkeeps, x, hx, rfl⟩ := hmore a ha
      exact ⟨rfl, .inl ⟨hpc, hkeeps, g, Function.update_self .., hx⟩⟩
  case left =>
    intro g' hown
    by_cases hg : g' = g
    · subst hg
      rw [view_of_none hnone] at hseen
      exact ⟨hleaves, by rw [hseen]; rfl⟩
    · rw [Function.update_of_ne (by simpa using hg)] at hown
      exact h.left g' hown
  case joined =>
    intro g' v' hown
    by_cases hg : g' = g
    · subst hg
      rw [Function.update_self] at hown
      exact absurd (Option.some.inj hown) nofun
    · rw [Function.update_of_ne (by simpa using hg)] at hown
      exact h.joined g' v' hown
  -- The follow is gone, and the others are dropped still.
  case gone =>
    intro hthree g' hleaves'
    by_cases hg : g' = g
    · subst hg
      exact .inl (by rw [Function.update_self]; rfl)
    · rw [Function.update_of_ne (by simpa using hg)]
      rcases h.gone hthree g' hleaves' with hgone | hgone | ⟨hpc', v', hv', hdrops⟩
      · exact .inl hgone
      · exact .inr (.inl hgone)
      · exact .inr (.inr ⟨hpc', v', hv', hdrops.imp (List.mem_append_left _) (List.mem_append_left _)⟩)
  -- What this one reached is inserted later, and what the others reached is there or will be.
  case kept =>
    intro hkeeps g' hown x hx
    by_cases hg : g' = g
    · subst hg
      exact .inr (.inl ⟨hpc, List.mem_append_right _ (hputs hkeeps x hx)⟩)
    · rw [Function.update_of_ne (by simpa using hg)] at hown
      rw [hview]
      rcases h.kept hkeeps g' hown x hx with hsome | ⟨hpc', hput⟩ | hlost
      · exact .inl hsome
      · exact .inr (.inl ⟨hpc', List.mem_append_left _ hput⟩)
      · exact .inr (.inr hlost)
  -- The fourth statement and those behind it have not begun.
  case cleared =>
    intro (hfour : 4 ≤ t.pc)
    omega
  case erased =>
    intro x hown
    rw [hpick] at hown
    exact h.erased x hown
  case written =>
    intro x v' hown
    rw [hpick] at hown
    refine (h.written x v' hown).imp_right fun ⟨hkeeps, g', hown', hx⟩ => ?_
    exact ⟨hkeeps, g', hmono g' hown', hx⟩
  case put =>
    intro (hfive : 5 ≤ t.pc)
    omega
  case follows =>
    intro (hsix : 6 ≤ t.pc)
    omega
  case before => exact h.before
  case after =>
    intro (hseven : 7 ≤ t.pc)
    omega

/-- A pick is deleted or inserted. -/
theorem EditOk.pick (h : EditOk c rows own shares u e t) {x : String} {v : Option ℕ}
    (hcase : (v = none ∧ t.pc = 4 ∧ e.clears x = true) ∨ (v.isSome ∧ ((t.pc = 5 ∧ x ∈ e.puts) ∨
      (t.pc = 3 ∧ e.keeps = true ∧ ∃ g, own (.follow u g) = some none ∧ x ∈ c.reach g)))) :
    EditOk c rows (Function.update own (.pick u x) (some v)) shares u e t := by
  -- No follow is touched, and of the picks this one only.
  have hfollow : ∀ g, Function.update own (.pick u x) (some v) (.follow u g) = own (.follow u g) :=
    fun g => Function.update_of_ne (fun heq : Key.follow u g = .pick u x => nomatch heq) ..
  have hview : ∀ y, view rows (Function.update own (.pick u x) (some v)) (.pick u y) =
      if y = x then v else view rows own (.pick u y) := by
    intro y
    rw [view_update]
    exact if_congr (by simp) rfl rfl
  -- Picks go in the fourth statement, and come in the third and in the fifth.
  have hpc : 3 ≤ t.pc ∧ t.pc ≤ 5 := by
    rcases hcase with ⟨-, hfour, -⟩ | ⟨-, ⟨hfive, -⟩ | ⟨hthree, -⟩⟩ <;> omega
  constructor
  case pc => exact h.pc
  case idle => intro hzero; omega
  case locked =>
    intro hone
    rw [Function.update_of_ne fun heq : Key.user u = .pick u x => nomatch heq]
    exact h.locked hone
  case keys =>
    intro y v' hown
    rw [Function.update_apply] at hown
    split at hown
    · next heq => exact .inr (.inl ⟨x, heq⟩)
    · exact h.keys y v' hown
  case early => intro htwo; omega
  case fits =>
    intro a ha
    have hfits := h.fits a ha
    cases a with
    | put u' y =>
      refine ⟨hfits.1, hfits.2.imp_left fun ⟨hthree, hkeeps, g, hown, hy⟩ => ?_⟩
      exact ⟨hthree, hkeeps, g, (hfollow g).trans hown, hy⟩
    | _ => exact hfits
  case left =>
    intro g hown
    rw [hfollow] at hown
    exact h.left g hown
  case joined =>
    intro g v' hown
    rw [hfollow] at hown
    exact h.joined g v' hown
  case gone =>
    intro hthree g hleaves
    rw [hfollow]
    exact h.gone hthree g hleaves
  -- A pick that goes is one that the operation clears anyway.
  case kept =>
    intro hkeeps g hown y hy
    rw [hfollow] at hown
    rw [hview]
    split
    · next heq =>
      subst heq
      rcases hcase with ⟨-, hfour, hclears⟩ | ⟨hsome, -⟩
      · exact .inr (.inr ⟨by omega, hclears⟩)
      · exact .inl hsome
    · exact h.kept hkeeps g hown y hy
  -- A pick that is cleared comes back only where it is put.
  case cleared =>
    intro hfour y hclears
    rw [hview]
    split
    · next heq =>
      subst heq
      rcases hcase with ⟨hnone, -, -⟩ | ⟨-, ⟨hfive, hputs⟩ | ⟨hthree, -⟩⟩
      · exact .inl hnone
      · exact .inr (.inr ⟨by omega, hputs⟩)
      · omega
    · exact h.cleared hfour y hclears
  case erased =>
    intro y hown
    rw [Function.update_apply] at hown
    split at hown
    · next heq =>
      obtain rfl := (Key.pick.inj heq).2
      rcases hcase with ⟨-, -, hclears⟩ | ⟨hsome, -⟩
      · exact hclears
      · rw [Option.some.inj hown] at hsome
        contradiction
    · exact h.erased y hown
  -- A pick that comes is put, or was reached by a follow that is dropped.
  case written =>
    intro y v' hown
    rw [Function.update_apply] at hown
    split at hown
    · next heq =>
      obtain rfl := (Key.pick.inj heq).2
      rcases hcase with ⟨hnone, -, -⟩ | ⟨-, ⟨hfive, hputs⟩ | ⟨-, hkeeps, g, hown', hy⟩⟩
      · rw [hnone] at hown
        exact absurd (Option.some.inj hown) nofun
      · exact .inl ⟨by omega, hputs⟩
      · exact .inr ⟨hkeeps, g, (hfollow g).trans hown', hy⟩
    · refine (h.written y v' hown).imp_right fun ⟨hkeeps, g, hown', hy⟩ => ?_
      exact ⟨hkeeps, g, (hfollow g).trans hown', hy⟩
  case put =>
    intro hfive y hy
    rw [hview]
    split
    · rcases hcase with ⟨-, hfour, -⟩ | ⟨hsome, -⟩
      · omega
      · exact .inl hsome
    · exact h.put hfive y hy
  case follows => intro hsix; omega
  case before => exact h.before
  case after => intro hseven; omega

/-- A bundle is followed, and locked. -/
theorem EditOk.follow (h : EditOk c rows own shares u e t) (hpc : t.pc = 6) {g : String} (hjoins : e.joins = some g)
    (n : ℕ) (shares' : String → Prop) (hshares : ∀ g', shares g' → shares' g') (hg : shares' g) :
    EditOk c rows (Function.update own (.follow u g) (some (some n))) shares' u e t := by
  -- No pick is touched, and an operation that joins a bundle keeps none that it leaves.
  have hpick : ∀ y, Function.update own (.follow u g) (some (some n)) (.pick u y) = own (.pick u y) :=
    fun y => Function.update_of_ne (fun heq : Key.pick u y = .follow u g => nomatch heq) ..
  have hview : ∀ y, view rows (Function.update own (.follow u g) (some (some n))) (.pick u y) =
      view rows own (.pick u y) := by
    intro y
    unfold view
    rw [hpick]
  have hkeeps : e.keeps ≠ true := by
    intro hkeeps
    rw [e.alone hkeeps] at hjoins
    contradiction
  constructor
  case pc => exact h.pc
  case idle => intro hzero; omega
  case locked =>
    intro hone
    rw [Function.update_of_ne fun heq : Key.user u = .follow u g => nomatch heq]
    exact h.locked hone
  case keys =>
    intro y v' hown
    rw [Function.update_apply] at hown
    split at hown
    · next heq => exact .inr (.inr ⟨g, heq⟩)
    · exact h.keys y v' hown
  case early => intro htwo; omega
  case fits =>
    intro a ha
    have hfits := h.fits a ha
    cases a with
    | put u' y => exact ⟨hfits.1, hfits.2.imp_left fun hthree => absurd hthree.2.1 hkeeps⟩
    | _ => exact hfits
  -- The follow is there now, where it was dropped or not.
  case left =>
    intro g' hown
    rw [Function.update_apply] at hown
    split at hown
    · exact absurd (Option.some.inj hown) nofun
    · exact h.left g' hown
  case joined =>
    intro g' v' hown
    rw [Function.update_apply] at hown
    split at hown
    · next heq =>
      obtain rfl := (Key.follow.inj heq).2
      exact ⟨hjoins, hg, by omega⟩
    · obtain ⟨hjoins', hshared, hsix⟩ := h.joined g' v' hown
      exact ⟨hjoins', hshares g' hshared, hsix⟩
  -- The rows that are dropped are those of the third statement.
  case gone =>
    intro hthree g' hleaves
    rcases h.gone hthree g' hleaves with hgone | hgone | ⟨hpc', -⟩
    · refine .inl ?_
      rw [Function.update_apply]
      split
      · rfl
      · exact hgone
    · exact .inr (.inl hgone)
    · omega
  case kept => exact fun hkeeps' => absurd hkeeps' hkeeps
  case cleared =>
    intro hfour y hclears
    rw [hview]
    exact h.cleared hfour y hclears
  case erased =>
    intro y hown
    rw [hpick] at hown
    exact h.erased y hown
  case written =>
    intro y v' hown
    rw [hpick] at hown
    exact (h.written y v' hown).imp_right fun hkept => absurd hkept.1 hkeeps
  case put =>
    intro hfive y hy
    rw [hview]
    exact h.put hfive y hy
  case follows =>
    intro hsix g' hg'
    obtain rfl := Option.some.inj (hjoins.symm.trans hg')
    exact .inr (.inl ⟨n, Function.update_self ..⟩)
  case before => exact h.before
  case after => intro hseven; omega

/-- A transaction that has just begun is sure of nothing, and has written nothing. -/
theorem EditOk.begin (hown : ∀ x, own x = none) (hpc : t.pc = 0) (hnow : t.now = []) :
    EditOk c rows own shares u e t := by
  have hnone : ∀ {x : Key} {v : Option ℕ}, own x ≠ some v := by
    intro x v hx
    rw [hown x] at hx
    contradiction
  constructor
  case pc => omega
  case idle => exact fun _ => hown
  case locked => intro hone; omega
  case keys => exact fun x v hx => absurd hx hnone
  case early => exact fun _ x v hx => absurd hx hnone
  case fits =>
    rw [hnow]
    exact fun act hact => absurd hact List.not_mem_nil
  case left => exact fun g hx => absurd hx hnone
  case joined => exact fun g v hx => absurd hx hnone
  case gone => intro hthree; omega
  case kept => exact fun _ g hx => absurd hx hnone
  case cleared => intro hfour; omega
  case erased => exact fun x hx => absurd hx hnone
  case written => exact fun x v hx => absurd hx hnone
  case put => intro hfive; omega
  case follows => intro hsix; omega
  case before => intro htwo; omega
  case after => intro hseven; omega

/-- `_lock`: the row of the person is locked, and nothing else has happened. -/
theorem EditOk.lock (h : EditOk c rows own shares u e t) (hpc : t.pc = 0) (hnow : t.now = []) (v : Option ℕ) :
    EditOk c rows (Function.update own (.user u) (some v)) shares u e { t with pc := 1 } := by
  have hown : ∀ {x : Key} {v' : Option ℕ}, Function.update own (.user u) (some v) x = some v' → x = .user u := by
    intro x v' hx
    rw [Function.update_apply] at hx
    split at hx
    · next heq => exact heq
    · rw [h.idle hpc x] at hx
      contradiction
  have hfollow : ∀ {g : String} {v' : Option ℕ}, Function.update own (.user u) (some v) (.follow u g) ≠ some v' :=
    fun hx => nomatch hown hx
  have hpick : ∀ {x : String} {v' : Option ℕ}, Function.update own (.user u) (some v) (.pick u x) ≠ some v' :=
    fun hx => nomatch hown hx
  constructor
  case pc => exact Nat.le_add_left 1 6
  case idle => exact fun hzero => absurd hzero Nat.one_ne_zero
  case locked =>
    intro _
    rw [Function.update_self]
    rfl
  case keys => exact fun x v' hx => .inl (hown hx)
  case early => exact fun _ x v' hx => hown hx
  case fits =>
    dsimp only
    rw [hnow]
    exact fun act hact => absurd hact List.not_mem_nil
  case left => exact fun g hx => absurd hx hfollow
  case joined => exact fun g v' hx => absurd hx hfollow
  case gone => exact fun hthree : 3 ≤ 1 => absurd hthree (by decide)
  case kept => exact fun _ g hx => absurd hx hfollow
  case cleared => exact fun hfour : 4 ≤ 1 => absurd hfour (by decide)
  case erased => exact fun x hx => absurd hx hpick
  case written => exact fun x v' hx => absurd hx hpick
  case put => exact fun hfive : 5 ≤ 1 => absurd hfive (by decide)
  case follows => exact fun hsix : 6 ≤ 1 => absurd hsix (by decide)
  case before => exact fun htwo : 2 ≤ 1 => absurd htwo (by decide)
  case after => exact fun hseven : 7 ≤ 1 => absurd hseven (by decide)

/-- A statement starts, with the rows that it has selected. -/
theorem EditOk.next (h : EditOk c rows own shares u e t) (hnow : t.now = []) (hlow : 2 ≤ t.pc) (hhigh : t.pc ≤ 5)
    (now : List RowAct) (hfits : ∀ act ∈ now, e.Fits u (t.pc + 1) own act)
    (hdrops : t.pc = 2 → ∀ g v, e.leaves g = true → rows (.follow u g) = some v → Drops u g v now)
    (hclears : t.pc = 3 → ∀ x v, e.clears x = true → view rows own (.pick u x) = some v →
      .erase (.pick u x) v ∈ now)
    (hputs : t.pc = 4 → ∀ x ∈ e.puts, .put u x ∈ now ∨ .insert u x ∈ now)
    (hjoins : t.pc = 5 → ∀ g, e.joins = some g → .follow u g ∈ now) :
    EditOk c rows own shares u e { t with pc := t.pc + 1, now := now } := by
  -- All rows of the statement before are done.
  have hmem : ∀ {act : RowAct}, act ∉ t.now := by
    intro act
    rw [hnow]
    exact List.not_mem_nil
  constructor
  case pc =>
    show t.pc + 1 ≤ 7
    omega
  case idle =>
    intro (hzero : t.pc + 1 = 0)
    omega
  case locked => exact fun _ => h.locked (by omega)
  case keys => exact h.keys
  case early =>
    intro (htwo : t.pc + 1 ≤ 2)
    omega
  case fits => exact hfits
  case left => exact h.left
  case joined =>
    intro g v hown
    have hsix := (h.joined g v hown).2.2
    -- The statement that drops follows has all of them before it, and the others have done with
    -- them.
    omega
  case gone =>
    intro _ g hleaves
    rcases Nat.lt_or_ge t.pc 3 with hlt | hge
    · rcases hrow : rows (.follow u g) with _ | v
      · exact .inr (.inl rfl)
      · exact .inr (.inr ⟨show t.pc + 1 = 3 by omega, v, rfl, hdrops (by omega) g v hleaves hrow⟩)
    · rcases h.gone hge g hleaves with hgone | hgone | ⟨-, v, -, hdrop⟩
      · exact .inl hgone
      · exact .inr (.inl hgone)
      · exact absurd hdrop (not_or.mpr ⟨hmem, hmem⟩)
  case kept =>
    intro hkeeps g hown x hx
    rcases h.kept hkeeps g hown x hx with hseen | ⟨-, hput⟩ | ⟨hfour, hlost⟩
    · exact .inl hseen
    · exact absurd hput hmem
    -- So with the names that are cleared, those that are put, and the bundle that is joined.
    · exact .inr (.inr ⟨Nat.le_succ_of_le hfour, hlost⟩)
  case cleared =>
    intro (hfour : 4 ≤ t.pc + 1) x hx
    rcases Nat.lt_or_ge t.pc 4 with hlt | hge
    · rcases hseen : view rows own (.pick u x) with _ | v
      · exact .inl rfl
      · exact .inr (.inl ⟨show t.pc + 1 = 4 by omega, v, rfl, hclears (by omega) x v hx hseen⟩)
    · rcases h.cleared hge x hx with hnone | ⟨-, v, -, herase⟩ | ⟨hfive, hput⟩
      · exact .inl hnone
      · exact absurd herase hmem
      · exact .inr (.inr ⟨Nat.le_succ_of_le hfive, hput⟩)
  case erased => exact h.erased
  case written =>
    intro x v hown
    refine (h.written x v hown).imp_left fun ⟨hfive, hput⟩ => ⟨Nat.le_succ_of_le hfive, hput⟩
  case put =>
    intro (hfive : 5 ≤ t.pc + 1) x hx
    rcases Nat.lt_or_ge t.pc 5 with hlt | hge
    · exact .inr ⟨show t.pc + 1 = 5 by omega, hputs (by omega) x hx⟩
    · rcases h.put hge x hx with hseen | ⟨-, hput⟩
      · exact .inl hseen
      · exact absurd hput (not_or.mpr ⟨hmem, hmem⟩)
  case follows =>
    intro (hsix : 6 ≤ t.pc + 1) g hg
    exact .inl ⟨show t.pc + 1 = 6 by omega, hjoins (by omega) g hg⟩
  case before => exact fun _ => h.before hlow
  case after =>
    intro (hseven : 7 ≤ t.pc + 1)
    omega

/-- The person's set is read before the operation. -/
theorem EditOk.readBefore (h : EditOk c rows own shares u e t) (hpc : t.pc = 1) (hnow : t.now = [])
    {before : List String} (hbefore : ∀ x, x ∈ before ↔ x ∈ e.touched ∧ Holds c (view rows own) u x) :
    EditOk c rows own shares u e { t with pc := 2, before := before } := by
  have hnone : ∀ x, (∀ w, x ≠ .user w) → own x = none := by
    intro x hx
    rcases hown : own x with _ | v
    · rfl
    · exact absurd (h.early (by omega) x v hown) (hx u)
  have hview : ∀ x, (∀ w, x ≠ .user w) → view rows own x = rows x := fun x hx => view_of_none (hnone x hx)
  have hfollow : ∀ {g : String} {v : Option ℕ}, own (.follow u g) ≠ some v := by
    intro g v hown
    exact absurd (hown.symm.trans (hnone _ nofun)) nofun
  have hpick : ∀ {x : String} {v : Option ℕ}, own (.pick u x) ≠ some v := by
    intro x v hown
    exact absurd (hown.symm.trans (hnone _ nofun)) nofun
  constructor
  case pc => exact Nat.le_add_left 2 5
  case idle => exact fun hzero : 2 = 0 => absurd hzero (by decide)
  case locked => exact fun _ => h.locked (by omega)
  case keys => exact h.keys
  case early => exact fun _ => h.early (by omega)
  case fits =>
    dsimp only
    rw [hnow]
    exact fun act hact => absurd hact List.not_mem_nil
  case left => exact fun g hx => absurd hx hfollow
  case joined => exact fun g v' hx => absurd hx hfollow
  case gone => exact fun hthree : 3 ≤ 2 => absurd hthree (by decide)
  case kept => exact fun _ g hx => absurd hx hfollow
  case cleared => exact fun hfour : 4 ≤ 2 => absurd hfour (by decide)
  case erased => exact fun x hx => absurd hx hpick
  case written => exact fun x v' hx => absurd hx hpick
  case put => exact fun hfive : 5 ≤ 2 => absurd hfive (by decide)
  case follows => exact fun hsix : 6 ≤ 2 => absurd hsix (by decide)
  case before =>
    intro _ x
    have hholds : Holds c (view rows own) u x ↔ Holds c rows u x := by
      unfold Holds
      rw [hview (.pick u x) nofun]
      refine or_congr_right (exists_congr fun g => ?_)
      rw [hview (.follow u g) nofun, hview (.group g) nofun]
    rw [← hholds]
    exact hbefore x
  case after => exact fun hseven : 7 ≤ 2 => absurd hseven (by decide)

/-- The person's set is read after the operation. -/
theorem EditOk.readAfter (h : EditOk c rows own shares u e t) (hpc : t.pc = 6) (hnow : t.now = [])
    (hfk : ∀ g, (rows (.follow u g)).isSome → (rows (.group g)).isSome)
    (hshares : ∀ g, shares g → (rows (.group g)).isSome)
    {after : List String} (hafter : ∀ x, x ∈ after ↔ x ∈ e.touched ∧ Holds c (view rows own) u x) :
    EditOk c rows own shares u e { t with pc := 7, after := after } := by
  -- All rows are done, so that every clause says that it is.
  have hmem : ∀ {act : RowAct}, act ∉ t.now := by
    intro act
    rw [hnow]
    exact List.not_mem_nil
  constructor
  case pc => exact le_rfl
  case idle => exact fun hzero : 7 = 0 => absurd hzero (by decide)
  case locked => exact fun _ => h.locked (by omega)
  case keys => exact h.keys
  case early => exact fun htwo : 7 ≤ 2 => absurd htwo (by decide)
  case fits => exact fun act hact => absurd hact hmem
  case left => exact h.left
  case joined =>
    intro g v hown
    obtain ⟨hjoins, hshared, -⟩ := h.joined g v hown
    exact ⟨hjoins, hshared, show 6 ≤ 7 by decide⟩
  case gone =>
    intro _ g hleaves
    rcases h.gone (by omega) g hleaves with hgone | hgone | ⟨hthree, -⟩
    · exact .inl hgone
    · exact .inr (.inl hgone)
    · omega
  case kept =>
    intro hkeeps g hown x hx
    rcases h.kept hkeeps g hown x hx with hseen | ⟨hthree, -⟩ | ⟨-, hlost⟩
    · exact .inl hseen
    · omega
    · exact .inr (.inr ⟨show 4 ≤ 7 by decide, hlost⟩)
  case cleared =>
    intro _ x hx
    rcases h.cleared (by omega) x hx with hnone | ⟨hfour, -⟩ | ⟨-, hput⟩
    · exact .inl hnone
    · omega
    · exact .inr (.inr ⟨show 5 ≤ 7 by decide, hput⟩)
  case erased => exact h.erased
  case written =>
    intro x v hown
    exact (h.written x v hown).imp_left fun hput => ⟨show 5 ≤ 7 by decide, hput.2⟩
  case put =>
    intro _ x hx
    rcases h.put (by omega) x hx with hseen | ⟨hfive, -⟩
    · exact .inl hseen
    · omega
  case follows =>
    intro _ g hg
    rcases h.follows (by omega) g hg with ⟨-, hfollow⟩ | hdone
    · exact absurd hfollow hmem
    · exact .inr hdone
  case before => exact fun _ => h.before (by omega)
  -- What is read now is what the operation means.
  case after =>
    intro _ x
    rw [← h.view_holds hfk hshares (by omega) hnow]
    exact hafter x

end Edits

end JobScripts.Catalog.Selection

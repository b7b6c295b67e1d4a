import JobScripts.Catalog.Selection.Sure

/-!
# What a deletion is sure of

`delete_group` drops the follows of a bundle, picks for their people what the bundle reached, and removes the bundle.
What it is sure of (`DeleteOk`) is kept by its rows, and by the other transactions as long as nobody follows the bundle
anew; in the end everybody holds what they held (`DeleteOk.view_holds`).
-/

namespace JobScripts.Catalog.Selection

/-- The row is one that a statement of `delete_group` may work on. -/
def DeleteFits (c : Offer) (g : String) (own : Key → Option (Option ℕ)) : RowAct → Prop
  | .unfollow _ g' _ => g' = g
  | .put u x => x ∈ c.reach g ∧ own (.follow u g) = some none
  | .remove g' _ => g' = g
  | _ => False

/-- What `delete_group` is sure of: what a follow that it has dropped reached is there, or still to do; and where it
has deleted the bundle, no one follows it. -/
structure DeleteOk (c : Offer) (rows : Rows) (own : Key → Option (Option ℕ)) (g : String) (t : Tx) : Prop where
  keys : ∀ x v, own x = some v → (∃ u, x = .follow u g ∧ v = none) ∨ (x = .group g ∧ v = none) ∨
    ∃ u y, x = .pick u y ∧ v.isSome ∧ y ∈ c.reach g ∧ own (.follow u g) = some none
  fits : ∀ act ∈ t.now, DeleteFits c g own act
  dropped : ∀ u, own (.follow u g) = some none → (rows (.follow u g)).isSome
  kept : ∀ u, own (.follow u g) = some none → ∀ x ∈ c.reach g,
    (view rows own (.pick u x)).isSome ∨ .put u x ∈ t.now
  removed : own (.group g) = some none → ∀ u, view rows own (.follow u g) = none
  lists : t.before = [] ∧ t.after = []

section Deletes

variable {c : Offer} {rows rows' : Rows} {own own' : Key → Option (Option ℕ)} {shares : String → Prop} {g : String}
  {t : Tx}

/-- A deletion that has just begun has written nothing. -/
theorem DeleteOk.begin (hown : ∀ x, own x = none) (hnow : t.now = []) (hlists : t.before = [] ∧ t.after = []) :
    DeleteOk c rows own g t := by
  have hnone : ∀ {x : Key} {v : Option ℕ}, own x ≠ some v := by
    intro x v hx
    rw [hown x] at hx
    contradiction
  refine ⟨fun x v hx => absurd hx hnone, ?_, fun u hx => absurd hx hnone, fun u hx => absurd hx hnone,
    fun hx => absurd hx hnone, hlists⟩
  rw [hnow]
  exact fun act hact => absurd hact List.not_mem_nil

/-- A row that is done is left out. -/
theorem DeleteOk.skip (h : DeleteOk c rows own g t) {i : ℕ} {act : RowAct} (hact : t.now[i]? = some act)
    (hdone : ∀ u x, act = .put u x → (view rows own (.pick u x)).isSome) :
    DeleteOk c rows own g { t with now := t.now.eraseIdx i } where
  keys := h.keys
  fits a ha := h.fits a (List.mem_of_mem_eraseIdx ha)
  dropped := h.dropped
  kept u hown x hx := by
    rcases h.kept u hown x hx with hseen | hput
    · exact .inl hseen
    · rcases mem_eraseIdx_cases hact hput with rfl | hmem
      · exact .inl (hdone u x rfl)
      · exact .inr hmem
  removed := h.removed
  lists := h.lists

/-- The next statement, with the rows that it has selected. -/
theorem DeleteOk.next (h : DeleteOk c rows own g t) (hnow : t.now = []) {t' : Tx}
    (hfits : ∀ act ∈ t'.now, DeleteFits c g own act) (hlists : t'.before = t.before ∧ t'.after = t.after) :
    DeleteOk c rows own g t' where
  keys := h.keys
  fits := hfits
  dropped := h.dropped
  kept u hown x hx := by
    refine (h.kept u hown x hx).imp_right fun hput => ?_
    rw [hnow] at hput
    exact absurd hput List.not_mem_nil
  removed := h.removed
  lists := ⟨hlists.1.trans h.lists.1, hlists.2.trans h.lists.2⟩

/-- No deletion inserts a follow. -/
theorem DeleteOk.own_follow (h : DeleteOk c rows own g t) {u : ℕ} {g' : String} {v : Option ℕ}
    (hown : own (.follow u g') = some v) : g' = g ∧ v = none := by
  rcases h.keys _ v hown with ⟨u', hkey, hnone⟩ | ⟨hkey, -⟩ | ⟨u', y, hkey, -⟩
  · exact ⟨(Key.follow.inj hkey).2, hnone⟩
  · contradiction
  · contradiction

/-- A pick that a deletion has written is there, and was reached by a follow that it dropped. -/
theorem DeleteOk.own_pick (h : DeleteOk c rows own g t) {u : ℕ} {x : String} {v : Option ℕ}
    (hown : own (.pick u x) = some v) : v.isSome ∧ x ∈ c.reach g ∧ own (.follow u g) = some none := by
  rcases h.keys _ v hown with ⟨u', hkey, -⟩ | ⟨hkey, -⟩ | ⟨u', y, hkey, hsome, hy, hdropped⟩
  · contradiction
  · contradiction
  · obtain ⟨rfl, rfl⟩ := Key.pick.inj hkey
    exact ⟨hsome, hy, hdropped⟩

/-- A bundle that a deletion has written is the one, and gone. -/
theorem DeleteOk.own_group (h : DeleteOk c rows own g t) {g' : String} {v : Option ℕ}
    (hown : own (.group g') = some v) : g' = g ∧ v = none := by
  rcases h.keys _ v hown with ⟨u', hkey, -⟩ | ⟨hkey, hnone⟩ | ⟨u', y, hkey, -⟩
  · contradiction
  · exact ⟨Key.group.inj hkey, hnone⟩
  · contradiction

/-- A follower is dropped, and what the bundle reached is still to be inserted. -/
theorem DeleteOk.drop (h : DeleteOk c rows own g t) {u v : ℕ} (hseen : view rows own (.follow u g) = some v) :
    DeleteOk c rows (Function.update own (.follow u g) (some none)) g
      { t with now := t.now ++ (c.reach g).map (.put u) } := by
  -- The follow has not been written before.
  have hrow : rows (.follow u g) = some v := by
    rcases hown : own (.follow u g) with _ | v'
    · rw [view_of_none hown] at hseen
      exact hseen
    · rw [view_of_some hown, (h.own_follow hown).2] at hseen
      contradiction
  have hmono : ∀ u', own (.follow u' g) = some none →
      Function.update own (.follow u g) (some none) (.follow u' g) = some none := by
    intro u' hown
    rw [Function.update_apply]
    split
    · rfl
    · exact hown
  constructor
  case keys =>
    intro x v' hown
    rw [Function.update_apply] at hown
    split at hown
    · next heq => exact .inl ⟨u, heq, (Option.some.inj hown).symm⟩
    · rcases h.keys x v' hown with hfollow | hgroup | ⟨u', y, hkey, hsome, hy, hdropped⟩
      · exact .inl hfollow
      · exact .inr (.inl hgroup)
      · exact .inr (.inr ⟨u', y, hkey, hsome, hy, hmono u' hdropped⟩)
  -- What is to be inserted is for a follow that is dropped by now.
  case fits =>
    intro a ha
    rcases List.mem_append.mp ha with ha | ha
    · have hfits := h.fits a ha
      cases a with
      | put u' x => exact ⟨hfits.1, hmono u' hfits.2⟩
      | _ => exact hfits
    · obtain ⟨x, hx, rfl⟩ := List.mem_map.mp ha
      exact ⟨hx, Function.update_self ..⟩
  case dropped =>
    intro u' hown
    rw [Function.update_apply] at hown
    split at hown
    · next heq =>
      rw [heq, hrow]
      rfl
    · exact h.dropped u' hown
  -- What the bundle reached for this person is inserted later.
  case kept =>
    intro u' hown x hx
    rw [Function.update_apply] at hown
    split at hown
    · next heq =>
      obtain rfl := (Key.follow.inj heq).1
      exact .inr (List.mem_append_right _ (List.mem_map_of_mem hx))
    · rw [view_update, if_neg fun heq : Key.pick u' x = .follow u g => nomatch heq]
      exact (h.kept u' hown x hx).imp_right (List.mem_append_left _)
  -- Where the bundle is deleted, nobody follows it still.
  case removed =>
    intro hown u'
    rw [Function.update_of_ne fun heq : Key.group g = .follow u g => nomatch heq] at hown
    rw [view_update]
    split
    · rfl
    · exact h.removed hown u'
  case lists => exact h.lists

/-- What a follow reached is picked. -/
theorem DeleteOk.pick (h : DeleteOk c rows own g t) {u n : ℕ} {x : String} (hx : x ∈ c.reach g)
    (hdropped : own (.follow u g) = some none) :
    DeleteOk c rows (Function.update own (.pick u x) (some (some n))) g t := by
  have hfollow : ∀ u', Function.update own (.pick u x) (some (some n)) (.follow u' g) = own (.follow u' g) :=
    fun u' => Function.update_of_ne (fun heq : Key.follow u' g = .pick u x => nomatch heq) ..
  constructor
  case keys =>
    intro y v hown
    rw [Function.update_apply] at hown
    split at hown
    · next heq =>
      exact .inr (.inr ⟨u, x, heq, by rw [← Option.some.inj hown]; rfl, hx, (hfollow u).trans hdropped⟩)
    · rcases h.keys y v hown with hkey | hkey | ⟨u', z, hkey, hsome, hz, hdropped'⟩
      · exact .inl hkey
      · exact .inr (.inl hkey)
      · exact .inr (.inr ⟨u', z, hkey, hsome, hz, (hfollow u').trans hdropped'⟩)
  case fits =>
    intro a ha
    have hfits := h.fits a ha
    cases a with
    | put u' y => exact ⟨hfits.1, (hfollow u').trans hfits.2⟩
    | _ => exact hfits
  case dropped =>
    intro u' hown
    rw [hfollow] at hown
    exact h.dropped u' hown
  case kept =>
    intro u' hown y hy
    rw [hfollow] at hown
    rw [view_update]
    split
    · exact .inl rfl
    · exact h.kept u' hown y hy
  case removed =>
    intro hown u'
    rw [Function.update_of_ne fun heq : Key.group g = .pick u x => nomatch heq] at hown
    rw [view_update, if_neg fun heq : Key.follow u' g = .pick u x => nomatch heq]
    exact h.removed hown u'
  case lists => exact h.lists

/-- The bundle is deleted, and no one follows it. -/
theorem DeleteOk.remove (h : DeleteOk c rows own g t) (hnone : ∀ u, view rows own (.follow u g) = none) :
    DeleteOk c rows (Function.update own (.group g) (some none)) g t := by
  have hfollow : ∀ u, Function.update own (.group g) (some none) (.follow u g) = own (.follow u g) :=
    fun u => Function.update_of_ne (fun heq : Key.follow u g = .group g => nomatch heq) ..
  constructor
  case keys =>
    intro y v hown
    rw [Function.update_apply] at hown
    split at hown
    · next heq => exact .inr (.inl ⟨heq, (Option.some.inj hown).symm⟩)
    · rcases h.keys y v hown with hkey | hkey | ⟨u', z, hkey, hsome, hz, hdropped⟩
      · exact .inl hkey
      · exact .inr (.inl hkey)
      · exact .inr (.inr ⟨u', z, hkey, hsome, hz, (hfollow u').trans hdropped⟩)
  case fits =>
    intro a ha
    have hfits := h.fits a ha
    cases a with
    | put u y => exact ⟨hfits.1, (hfollow u).trans hfits.2⟩
    | _ => exact hfits
  case dropped =>
    intro u hown
    rw [hfollow] at hown
    exact h.dropped u hown
  case kept =>
    intro u hown y hy
    rw [hfollow] at hown
    rw [view_update, if_neg fun heq : Key.pick u y = .group g => nomatch heq]
    exact h.kept u hown y hy
  case removed =>
    intro _ u
    rw [view_update, if_neg fun heq : Key.follow u g = .group g => nomatch heq]
    exact hnone u
  case lists => exact h.lists

/-- A deletion that is done leaves every person what they held. -/
theorem DeleteOk.view_holds (h : DeleteOk c rows own g t) (hnow : t.now = [])
    (hfk : ∀ u g, (rows (.follow u g)).isSome → (rows (.group g)).isSome) (u : ℕ) (x : String) :
    Holds c (view rows own) u x ↔ Holds c rows u x := by
  constructor
  · rintro (hseen | ⟨g', hf, hg, hx⟩)
    · rcases hown : own (.pick u x) with _ | v
      · rw [view_of_none hown] at hseen
        exact .inl hseen
      · obtain ⟨-, hx, hdropped⟩ := h.own_pick hown
        have hf := h.dropped u hdropped
        exact .of_follow hf (hfk u g hf) hx
    · rcases hown : own (.follow u g') with _ | v
      · rw [view_of_none hown] at hf
        exact .of_follow hf (hfk u g' hf) hx
      · rw [view_of_some hown, (h.own_follow hown).2] at hf
        contradiction
  · rintro (hpick | ⟨g', hf, hg, hx⟩)
    · refine .inl ?_
      rcases hown : own (.pick u x) with _ | v
      · rw [view_of_none hown]
        exact hpick
      · rw [view_of_some hown]
        exact (h.own_pick hown).1
    · rcases hown : own (.follow u g') with _ | v
      · rcases hgroup : own (.group g') with _ | v
        · refine .of_follow ?_ ?_ hx
          · rw [view_of_none hown]
            exact hf
          · rw [view_of_none hgroup]
            exact hg
        · -- The bundle is deleted, and the person did not follow it any more.
          obtain ⟨rfl, rfl⟩ := h.own_group hgroup
          have hnone := h.removed hgroup u
          rw [view_of_none hown] at hnone
          rw [hnone] at hf
          contradiction
      · obtain ⟨rfl, rfl⟩ := h.own_follow hown
        rcases h.kept u hown x hx with hseen | hput
        · exact .inl hseen
        · rw [hnow] at hput
          exact absurd hput List.not_mem_nil

/-- What a deletion commits for a person, another transaction can bear. -/
theorem DeleteOk.settles (h : DeleteOk c rows own g t) (hnow : t.now = [])
    (hfk : ∀ u g, (rows (.follow u g)).isSome → (rows (.group g)).isSome)
    (hother : ∀ x, (own x).isSome → own' x = none) (u : ℕ) : Settles c u own' rows (view rows own) where
  pick x := by
    rcases hown : own (.pick u x) with _ | v
    · exact .inl (view_of_none hown)
    · obtain ⟨hsome, hx, hdropped⟩ := h.own_pick hown
      refine .inr ⟨hother _ (by rw [hown]; rfl), ?_, g, hx, h.dropped u hdropped, hother _ (by rw [hdropped]; rfl)⟩
      rw [view_of_some hown]
      exact hsome
  follow g' := by
    rcases hown : own (.follow u g') with _ | v
    · exact .inl (view_of_none hown)
    · refine .inr ⟨hother _ (by rw [hown]; rfl), ?_⟩
      rw [view_of_some hown]
      exact (h.own_follow hown).2
  holds x := h.view_holds hnow hfk u x

/-- What another transaction commits, a deletion can bear if the follows that it dropped and the picks that it relies
on stay, and no one comes to follow a bundle that it has deleted. -/
theorem DeleteOk.settle (h : DeleteOk c rows own g t)
    (hfollow : ∀ u, own (.follow u g) = some none → rows' (.follow u g) = rows (.follow u g))
    (hpick : ∀ u x, own (.follow u g) = some none → x ∈ c.reach g → (view rows own (.pick u x)).isSome →
      (view rows' own (.pick u x)).isSome)
    (hremoved : own (.group g) = some none → ∀ u, view rows own (.follow u g) = none →
      view rows' own (.follow u g) = none) : DeleteOk c rows' own g t where
  keys := h.keys
  fits := h.fits
  dropped u hown := hfollow u hown ▸ h.dropped u hown
  kept u hown x hx := (h.kept u hown x hx).imp_left (hpick u x hown hx)
  removed hown u := hremoved hown u (h.removed hown u)
  lists := h.lists

end Deletes

end JobScripts.Catalog.Selection

import JobScripts.Catalog.Selection.Invariant

/-!
# The steps of selections

One row at a time, and the commits. A commit adds its operation to the log, and the others go on with what is committed
now (`State.Inv.commit`); with this every step keeps the invariant (`State.Inv.step`).
-/

namespace JobScripts.Catalog.Selection

section Steps

variable {c : Offer} {H₀ : Held} {s s' : State} {k : ℕ} {t t' : Tx}

/-- A row that another version has taken the place of, or no one. -/
theorem done_of_view {rows : Rows} {own : Key → Option (Option ℕ)} {x : Key} {v : ℕ} (h : view rows own x ≠ some v) :
    (own x).isSome ∨ rows x ≠ some v := by
  rcases hown : own x with _ | v'
  · rw [view_of_none hown] at h
    exact .inr h
  · exact .inl rfl

/-- A row that is left is removed from those that are left, and what was added after them stays. -/
theorem eraseIdx_append {now : List RowAct} {i : ℕ} {act : RowAct} (hact : now[i]? = some act) (more : List RowAct) :
    (now ++ more)[i]? = some act ∧ (now ++ more).eraseIdx i = now.eraseIdx i ++ more := by
  have hi := (List.getElem?_eq_some_iff.mp hact).1
  exact ⟨(List.getElem?_append_left hi).trans hact, List.eraseIdx_append_of_lt_length hi more⟩

/-- A follow is dropped. -/
theorem State.Inv.unfollow (h : s.Inv c H₀) (hk : s.txs k = some t) {i : ℕ} {u v : ℕ} {g : String}
    (hact : t.now[i]? = some (.unfollow u g v)) (hs : s.exec c k { t with now := t.now.eraseIdx i } (.unfollow u g v) =
      some s') : s'.Inv c H₀ := by
  have hmem := List.mem_of_getElem? hact
  dsimp only [State.exec] at hs
  split at hs
  · contradiction
  next hfree =>
  rw [Bool.not_eq_true, Bool.not_eq_false'] at hfree
  split at hs
  · next hseen =>
    obtain rfl := Option.some.inj hs
    obtain ⟨hact', herase⟩ := eraseIdx_append hact ((c.reach g).map (.put u))
    refine h.write hk ?_ hfree (fun g' hg' => nomatch hg') (fun u' e he => ?_) fun g' hg' => ?_
    · rfl
    · have hok := h.edits k t u' e hk he
      obtain ⟨rfl, hpc, hkeeps, hleaves⟩ := hok.fits _ hmem
      have hdrop := hok.drop hpc hleaves hseen ((c.reach g).map (.put u))
        (fun a ha => ⟨hkeeps, (List.mem_map.mp ha).imp fun x hx => ⟨hx.1, hx.2.symm⟩⟩)
        fun _ x hx => List.mem_map_of_mem hx
      have hskip := hdrop.skip hact' fun _ => .inl (by rw [Function.update_self]; rfl)
      dsimp only at hskip
      rw [herase] at hskip
      exact hskip
    · have hok := h.deletes k t g' hk hg'
      obtain rfl : g = g' := hok.fits _ hmem
      have hskip := (hok.drop hseen).skip hact' fun _ _ heq => nomatch heq
      dsimp only at hskip
      rw [herase] at hskip
      exact hskip
  · next hseen =>
    obtain rfl := Option.some.inj hs
    refine h.goOn hk ?_ (fun u' e he => ?_) fun g' hg' => ?_
    · rfl
    · refine (h.edits k t u' e hk he).skip hact fun heq => ?_
      subst heq
      exact done_of_view hseen
    · exact (h.deletes k t g' hk hg').skip hact fun _ _ heq => nomatch heq

/-- A row is deleted. -/
theorem State.Inv.erase (h : s.Inv c H₀) (hk : s.txs k = some t) {i v : ℕ} {x : Key}
    (hact : t.now[i]? = some (.erase x v)) (hs : s.exec c k { t with now := t.now.eraseIdx i } (.erase x v) = some s') :
    s'.Inv c H₀ := by
  have hmem := List.mem_of_getElem? hact
  have hdelete : ∀ {P : String → Prop} g, t.op = .deleteGroup g → P g :=
    fun g hg => ((h.deletes k t g hk hg).fits _ hmem).elim
  have hgroup : ∀ u e, t.op.edit c = some (u, e) → ∀ g, x ≠ .group g := by
    rintro u e he g rfl
    rcases (h.edits k t u e hk he).fits _ hmem with ⟨-, -, g', hx, -⟩ | ⟨-, y, hx, -⟩ <;> contradiction
  -- A deletion erases no row one by one, so that the transaction is of one person.
  obtain ⟨u, e, he⟩ := (Op.edit_cases c t.op).resolve_right fun ⟨g, hg⟩ => hdelete (P := fun _ => False) g hg
  have hok := h.edits k t u e hk he
  have hedit : ∀ {P : ∀ u, Edit c → Prop}, P u e → ∀ u' e', t.op.edit c = some (u', e') → P u' e' := by
    intro P hP u' e' he'
    obtain ⟨rfl, rfl⟩ := Prod.mk.inj (Option.some.inj (he.symm.trans he'))
    exact hP
  dsimp only [State.exec] at hs
  split at hs
  · contradiction
  next hfree =>
  rw [Bool.not_eq_true, Bool.not_eq_false'] at hfree
  split at hs
  · next hseen =>
    obtain rfl := Option.some.inj hs
    refine h.write hk ?_ hfree (fun g hg => absurd hg (hgroup u e he g)) (hedit ?_) hdelete
    · rfl
    · rcases hok.fits _ hmem with ⟨hpc, hkeeps, g, rfl, hleaves⟩ | ⟨hpc, y, rfl, hclears⟩
      · have hdrop := hok.drop hpc hleaves hseen [] (fun a ha => absurd ha List.not_mem_nil)
          fun hkeeps' => absurd (hkeeps.symm.trans hkeeps') Bool.false_ne_true
        rw [List.append_nil] at hdrop
        refine hdrop.skip hact ⟨fun g' _ => .inl ?_, fun y hy => nomatch hy⟩
        rw [Function.update_self]
        rfl
      · refine (hok.pick (.inl ⟨rfl, hpc, hclears⟩)).skip hact ⟨fun g hg => (nomatch hg), fun y' hy' => ?_⟩
        rw [view_update, if_pos rfl]
        nofun
  · next hseen =>
    obtain rfl := Option.some.inj hs
    refine h.goOn hk ?_ (hedit (hok.skip hact ⟨fun g hg => ?_, fun y hy => hseen⟩)) hdelete
    · rfl
    · exact done_of_view hseen

/-- A pick is inserted, or is there. -/
theorem State.Inv.put (h : s.Inv c H₀) (hk : s.txs k = some t) {i u : ℕ} {x : String} {act : RowAct}
    (hact : t.now[i]? = some act) (hput : act = .put u x ∨ act = .insert u x)
    (hfree : s.free k (.pick u x) = true) :
    ((s.view k (.pick u x)).isSome → (s.go k { t with now := t.now.eraseIdx i }).Inv c H₀) ∧
      ((s.write k (.pick u x) (some s.next)).go k { t with now := t.now.eraseIdx i }).Inv c H₀ := by
  have hmem := List.mem_of_getElem? hact
  have hdone : ∀ {own : Key → Option (Option ℕ)} (u' : ℕ) (e : Edit c),
      (Selection.view s.rows own (.pick u x)).isSome → RowDone c s.rows own u' e act := by
    rintro own u' e hseen
    rcases hput with rfl | rfl
    · rintro rfl
      exact hseen
    · rintro rfl
      exact hseen
  have hdone' : ∀ {own : Key → Option (Option ℕ)}, (Selection.view s.rows own (.pick u x)).isSome →
      ∀ u' x', act = .put u' x' → (Selection.view s.rows own (.pick u' x')).isSome := by
    rintro own hseen u' x' rfl
    rcases hput with hput | hput
    · obtain ⟨rfl, rfl⟩ := RowAct.put.inj hput
      exact hseen
    · contradiction
  constructor
  · intro hseen
    refine h.goOn hk ?_ (fun u' e he => ?_) fun g hg => ?_
    · rfl
    · exact (h.edits k t u' e hk he).skip hact (hdone u' e hseen)
    · exact (h.deletes k t g hk hg).skip hact (hdone' hseen)
  · have hsome : ∀ own : Key → Option (Option ℕ),
        (Selection.view s.rows (Function.update own (.pick u x) (some (some s.next))) (.pick u x)).isSome := by
      intro own
      rw [view_update, if_pos rfl]
      rfl
    refine h.write hk ?_ hfree (fun g hg => nomatch hg) (fun u' e he => ?_) fun g hg => ?_
    · rfl
    · have hok := h.edits k t u' e hk he
      have hfits := hok.fits _ hmem
      obtain ⟨rfl, hcase⟩ : u = u' ∧ ((t.pc = 5 ∧ x ∈ e.puts) ∨
          (t.pc = 3 ∧ e.keeps = true ∧ ∃ g, s.own k (.follow u' g) = some none ∧ x ∈ c.reach g)) := by
        rcases hput with rfl | rfl
        · exact ⟨hfits.1, hfits.2.symm⟩
        · exact ⟨hfits.1, .inl hfits.2⟩
      exact (hok.pick (.inr ⟨rfl, hcase⟩)).skip hact (hdone u e (hsome _))
    · have hok := h.deletes k t g hk hg
      have hfits := hok.fits _ hmem
      rcases hput with rfl | rfl
      · exact (hok.pick hfits.1 hfits.2).skip hact (hdone' (hsome _))
      · exact hfits.elim

/-- A row that is free and that the transaction has not written is written by no one. -/
theorem writes_eq_none {x : Key} (hfree : s.free k x = true) (hown : s.own k x = none) : s.writes x = none := by
  rcases hw : s.writes x with _ | ⟨k', v⟩
  · rfl
  · unfold State.free at hfree
    rw [hw, Option.all_some, decide_eq_true_eq] at hfree
    rw [own_eq_some.mpr (hw.trans (by rw [← hfree]))] at hown
    contradiction

/-- A bundle is followed, or was. -/
theorem State.Inv.follow (h : s.Inv c H₀) (hk : s.txs k = some t) {i u : ℕ} {g : String}
    (hact : t.now[i]? = some (.follow u g))
    (hs : s.exec c k { t with now := t.now.eraseIdx i } (.follow u g) = some s') : s'.Inv c H₀ := by
  have hmem := List.mem_of_getElem? hact
  have hdelete : ∀ {P : String → Prop} g, t.op = .deleteGroup g → P g :=
    fun g hg => ((h.deletes k t g hk hg).fits _ hmem).elim
  obtain ⟨u', e, he⟩ | ⟨g, hg⟩ := Op.edit_cases c t.op
  swap
  · exact hdelete (P := fun _ => State.Inv c H₀ s') g hg
  have hok := h.edits k t u' e hk he
  obtain ⟨rfl, hpc, hjoins⟩ := hok.fits _ hmem
  have hedit : ∀ {P : ∀ u, Edit c → Prop}, P u e → ∀ u' e', t.op.edit c = some (u', e') → P u' e' := by
    intro P hP u' e' he'
    obtain ⟨rfl, rfl⟩ := Prod.mk.inj (Option.some.inj (he.symm.trans he'))
    exact hP
  dsimp only [State.exec] at hs
  split at hs
  · contradiction
  next hfree =>
  rw [Bool.not_eq_true, Bool.not_eq_false'] at hfree
  split at hs
  · next hseen =>
    obtain rfl := Option.some.inj hs
    refine h.goOn hk ?_ (hedit (hok.skip hact fun _ => ?_)) hdelete
    · rfl
    · rcases hown : s.own k (.follow u g) with _ | _ | v
      · -- The person follows it already, and has dropped nothing that it reaches.
        rw [State.view, view_of_none hown] at hseen
        refine .inr fun x hx => ⟨.of_follow hseen (h.follows u g hseen) hx, ?_⟩
        by_contra hclears
        rcases hok.gone (by omega) g (e.left g x hx (Bool.not_eq_false _ ▸ hclears)) with hgone | hgone | ⟨hthree, -⟩
        · rw [hown] at hgone
          contradiction
        · rw [hgone] at hseen
          contradiction
        · omega
      · rw [State.view, view_of_some hown] at hseen
        contradiction
      · exact .inl ⟨v, rfl⟩
  split at hs
  · contradiction
  next hgroup =>
  rw [Bool.not_eq_true, Bool.not_eq_false'] at hgroup
  split at hs
  · obtain rfl := Option.some.inj hs
    exact h.ended
  · next hthere =>
    obtain rfl := Option.some.inj hs
    have hrow : (s.rows (.group g)).isSome := by
      rw [← hok.view_group g]
      exact Option.isSome_iff_ne_none.mpr fun hnone => hthere (Option.isNone_iff_eq_none.mpr hnone)
    have hnone := writes_eq_none hgroup (hok.own_group g)
    refine h.writes hk ?_ hfree (.inr ⟨u, g, rfl, rfl, hrow, hnone, by rw [he]; rfl⟩) (fun g' hg' => Key.noConfusion hg')
      (hedit ?_) hdelete
    · rfl
    · have hfollow := hok.follow hpc hjoins s.next (fun g' => (k, g') ∈ (k, g) :: s.shares)
        (fun g' hg' => List.mem_cons_of_mem _ hg') List.mem_cons_self
      exact hfollow.skip hact fun _ => .inl ⟨s.next, Function.update_self ..⟩

/-- A bundle that no one follows is deleted, or another transaction has seen to it. -/
theorem State.Inv.remove (h : s.Inv c H₀) (hk : s.txs k = some t) {i v : ℕ} {g : String}
    (hact : t.now[i]? = some (.remove g v)) (hfollowers : s.followers k g = [])
    (hs : s.exec c k { t with now := t.now.eraseIdx i } (.remove g v) = some s') : s'.Inv c H₀ := by
  have hmem := List.mem_of_getElem? hact
  have hedit : ∀ {P : ∀ u, Edit c → Prop} u e, t.op.edit c = some (u, e) → P u e :=
    fun u e he => ((h.edits k t u e hk he).fits _ hmem).elim
  have hnone : ∀ u, s.view k (.follow u g) = none := by
    intro u
    rcases hseen : s.view k (.follow u g) with _ | v'
    · rfl
    · have hkey : Key.follow u g ∈ s.keys := h.mem_keys (k := k) (by rw [hseen]; rfl)
      have hfollower : (u, v') ∈ s.followers k g := by
        refine List.mem_filterMap.mpr ⟨.follow u g, hkey, ?_⟩
        dsimp only
        rw [if_pos rfl, hseen]
        rfl
      rw [hfollowers] at hfollower
      exact absurd hfollower List.not_mem_nil
  dsimp only [State.exec] at hs
  rw [hfollowers, List.map_nil, List.append_nil] at hs
  split at hs
  · contradiction
  next hfree =>
  rw [Bool.or_eq_true, not_or, Bool.not_eq_true, Bool.not_eq_true, Bool.not_eq_false', Bool.not_eq_false'] at hfree
  obtain ⟨hfree, hunshared⟩ := hfree
  split at hs
  · obtain rfl := Option.some.inj hs
    refine h.write hk ?_ hfree ?_ hedit fun g' hg' => ?_
    · rfl
    · -- A deletion locks no bundle by a follow.
      rintro g' hg' k' hshare
      obtain rfl := Key.group.inj hg'
      unfold State.unshared at hunshared
      have hcond := List.all_eq_true.mp hunshared _ hshare
      rw [Bool.or_eq_true, decide_eq_true_eq, decide_eq_true_eq] at hcond
      obtain rfl := hcond.resolve_right (not_not.mpr rfl)
      obtain ⟨-, -, t', ht', hsome⟩ := h.shares k' g hshare
      obtain rfl := Option.some.inj (hk.symm.trans ht')
      obtain ⟨⟨u, e⟩, he⟩ := Option.isSome_iff_exists.mp hsome
      exact hedit (P := fun _ _ => False) u e he
    · have hok := h.deletes k t g' hk hg'
      obtain rfl : g = g' := hok.fits _ hmem
      exact (hok.remove hnone).skip hact fun _ _ heq => nomatch heq
  · obtain rfl := Option.some.inj hs
    refine h.goOn hk ?_ hedit fun g' hg' => ?_
    · rfl
    · exact (h.deletes k t g' hk hg').skip hact fun _ _ heq => nomatch heq

/-- A transaction that is finished has no row left. -/
theorem finished_edit {u : ℕ} {e : Edit c} (he : t.op.edit c = some (u, e)) (hfin : t.finished c = true) :
    t.now = [] ∧ t.pc = 7 := by
  unfold Tx.finished at hfin
  rw [he, Option.isSome_some, if_pos rfl, Bool.and_eq_true, decide_eq_true_eq, decide_eq_true_eq] at hfin
  exact hfin

/-- The same of a deletion. -/
theorem finished_delete (hfin : t.finished c = true) : t.now = [] := by
  unfold Tx.finished at hfin
  rw [Bool.and_eq_true, decide_eq_true_eq] at hfin
  exact hfin.1

/-- What a transaction sees keeps the foreign key. -/
theorem State.Inv.view_follows (h : s.Inv c H₀) (hk : s.txs k = some t) {u : ℕ} {g : String}
    (hf : (s.view k (.follow u g)).isSome) : (s.view k (.group g)).isSome := by
  rcases Op.edit_cases c t.op with ⟨u', e, he⟩ | ⟨g', hg'⟩
  · have hok := h.edits k t u' e hk he
    show (Selection.view s.rows (s.own k) (.group g)).isSome
    rw [hok.view_group]
    rcases hown : s.own k (.follow u g) with _ | _ | v
    · rw [State.view, view_of_none hown] at hf
      exact h.follows u g hf
    · rw [State.view, view_of_some hown] at hf
      contradiction
    · -- A follow of the transaction's own, which has locked the bundle.
      rcases hok.keys _ _ hown with hkey | ⟨y, hkey⟩ | ⟨g'', hkey⟩
      · contradiction
      · contradiction
      · obtain ⟨rfl, rfl⟩ := Key.follow.inj hkey
        exact (h.shares k g (hok.joined g v hown).2.1).1
  · have hok := h.deletes k t g' hk hg'
    rcases hown : s.own k (.follow u g) with _ | v
    · rcases hgroup : s.own k (.group g) with _ | v
      · rw [State.view, view_of_none hgroup]
        rw [State.view, view_of_none hown] at hf
        exact h.follows u g hf
      · obtain ⟨rfl, rfl⟩ := hok.own_group hgroup
        rw [State.view, hok.removed hgroup u] at hf
        contradiction
    · rw [State.view, view_of_some hown, (hok.own_follow hown).2] at hf
      contradiction

/-- What a finished transaction sees is what its call means. -/
theorem State.Inv.view_held (h : s.Inv c H₀) (hk : s.txs k = some t) (hfin : t.finished c = true) (w : ℕ)
    (x : String) : Holds c (s.view k) w x ↔ x ∈ t.op.meaning c (replay c H₀ (s.log.map Done.op)) w := by
  rcases Op.edit_cases c t.op with ⟨u, e, he⟩ | ⟨g, hg⟩
  · have hok := h.edits k t u e hk he
    obtain ⟨hnow, hpc⟩ := finished_edit he hfin
    rw [Op.meaning_of_edit he]
    rcases eq_or_ne w u with rfl | hne
    · rw [Function.update_self, State.view,
        hok.view_holds (h.follows w) (fun g hg => (h.shares k g hg).1) (by omega) hnow]
      unfold Edit.Means
      rw [h.held]
      rfl
    · rw [Function.update_of_ne hne, State.view, hok.holds_other hne]
      exact h.held w x
  · rw [hg]
    exact ((h.deletes k t g hk hg).view_holds (finished_delete hfin) h.follows w x).trans (h.held w x)

/-- The lists that a finished transaction returns are exact. -/
theorem State.Inv.done_exact (h : s.Inv c H₀) (hk : s.txs k = some t) (hfin : t.finished c = true) :
    Done.Exact c (replay c H₀ (s.log.map Done.op))
      ⟨t.op, t.after.filter (!t.before.contains ·), t.before.filter (!t.after.contains ·)⟩ := by
  intro u add remove hop
  have he : t.op.edit c = some (u, Selection.change c add remove) := by
    have hop' : t.op = .change u add remove := hop
    rw [hop']
    rfl
  have hok := h.edits k t u _ hk he
  obtain ⟨hnow, hpc⟩ := finished_edit he hfin
  have htouched : ∀ x, x ∈ (Selection.change c add remove).touched ↔ x ∈ add ∨ x ∈ remove :=
    fun x => mem_sortedSet.trans List.mem_append
  have hbefore : ∀ x, x ∈ t.before ↔ (x ∈ add ∨ x ∈ remove) ∧ x ∈ replay c H₀ (s.log.map Done.op) u := by
    intro x
    rw [hok.before (by omega), htouched, h.held]
  have hafter : ∀ x, x ∈ t.after ↔
      (x ∈ add ∨ x ∈ remove) ∧ x ∈ t.op.meaning c (replay c H₀ (s.log.map Done.op)) u := by
    intro x
    rw [hok.after (by omega), htouched, Op.meaning_of_edit he, Function.update_self]
    refine and_congr_right fun _ => ?_
    show _ ↔ Edit.Means _ _ x
    unfold Edit.Means
    rw [h.held]
  dsimp only
  constructor
  · intro x
    rw [List.mem_filter, Bool.not_eq_true', ← Bool.not_eq_true, List.contains_iff_mem, hbefore, hafter]
    tauto
  · intro x
    rw [List.mem_filter, Bool.not_eq_true', ← Bool.not_eq_true, List.contains_iff_mem, hbefore, hafter]
    tauto

/-- What a commit leaves of what an operation of one person is sure of. -/
theorem State.Inv.commit_edits (h : s.Inv c H₀) (hk : s.txs k = some t) (hfin : t.finished c = true) {k' : ℕ}
    (hne : k' ≠ k) {u : ℕ} {e : Edit c} {shares : String → Prop}
    (hok : EditOk c s.rows (s.own k') shares u e t') : EditOk c (s.view k) (s.own k') shares u e t' := by
  have hother : ∀ {x : Key}, (s.own k x).isSome → s.own k' x = none := own_eq_none hne
  rcases Op.edit_cases c t.op with ⟨u', e', he⟩ | ⟨g, hg⟩
  -- The one that commits is an operation of a person, who is another one.
  · have hok' := h.edits k t u' e' hk he
    obtain ⟨-, hpc⟩ := finished_edit he hfin
    rcases Nat.eq_zero_or_pos t'.pc with hzero | hpos
    · exact .begin (hok.idle hzero) hzero (hok.now_eq_nil hzero)
    · -- Both have locked the row of their person.
      have hdiff : u ≠ u' := by
        rintro rfl
        have hlocked := hok.locked hpos
        rw [hother (hok'.locked (by omega))] at hlocked
        contradiction
      exact hok.settle {
        pick := fun x => .inl (hok'.view_pick hdiff x)
        follow := fun g => .inl (hok'.view_follow hdiff g)
        holds := hok'.holds_other hdiff }
  -- Or a deletion, whose followers are settled.
  · have hok' := h.deletes k t g hk hg
    exact hok.settle (hok'.settles (finished_delete hfin) h.follows (fun x => hother) u)

/-- What a commit leaves of what a deletion is sure of. -/
theorem State.Inv.commit_deletes (h : s.Inv c H₀) (hk : s.txs k = some t) (hfin : t.finished c = true) {k' : ℕ}
    (hne : k' ≠ k) {g : String} (hok : DeleteOk c s.rows (s.own k') g t') :
    DeleteOk c (s.view k) (s.own k') g t' := by
  have hother : ∀ {x : Key}, (s.own k' x).isSome → s.own k x = none := own_eq_none hne.symm
  -- What the deletion has dropped, what it picked, and who follows the bundle it deleted.
  refine hok.settle (fun u hown => ?_) (fun u x hown hx hseen => ?_) fun hown u hseen => ?_
  · exact view_of_none (hother (by rw [hown]; rfl))
  · rcases hpick : s.own k' (.pick u x) with _ | v
    · rw [view_of_none hpick] at hseen
      rw [view_of_none hpick]
      rcases hpick' : s.own k (.pick u x) with _ | _ | v
      · rw [State.view, view_of_none hpick']
        exact hseen
      · -- Only an operation of the person deletes a pick, and it would have dropped the follow.
        rcases Op.edit_cases c t.op with ⟨u', e, he⟩ | ⟨g', hg'⟩
        · have hok' := h.edits k t u' e hk he
          obtain ⟨-, hpc⟩ := finished_edit he hfin
          obtain rfl : u = u' := by
            rcases hok'.keys _ _ hpick' with hkey | ⟨y, hkey⟩ | ⟨g', hkey⟩
            · contradiction
            · exact (Key.pick.inj hkey).1
            · contradiction
          have hdropped := hok.dropped u hown
          rcases hok'.gone (by omega) g (e.left g x hx (hok'.erased x hpick')) with hgone | hgone | ⟨hthree, -⟩
          · rw [hother (by rw [hown]; rfl)] at hgone
            contradiction
          · rw [hgone] at hdropped
            contradiction
          · omega
        · have hsome := ((h.deletes k t g' hk hg').own_pick hpick').1
          contradiction
      · rw [State.view, view_of_some hpick']
        rfl
    · rw [view_of_some hpick] at hseen ⊢
      exact hseen
  · rcases hfollow : s.own k' (.follow u g) with _ | v
    · rw [view_of_none hfollow] at hseen ⊢
      rcases hfollow' : s.own k (.follow u g) with _ | _ | v
      · rw [State.view, view_of_none hfollow']
        exact hseen
      · rw [State.view, view_of_some hfollow']
      · -- A follow locks its bundle, which could not have been deleted.
        rcases Op.edit_cases c t.op with ⟨u', e, he⟩ | ⟨g', hg'⟩
        · have hok' := h.edits k t u' e hk he
          obtain rfl : u = u' := by
            rcases hok'.keys _ _ hfollow' with hkey | ⟨y, hkey⟩ | ⟨g', hkey⟩
            · contradiction
            · contradiction
            · exact (Key.follow.inj hkey).1
          have hwrites := (h.shares k g (hok'.joined g v hfollow').2.1).2.1
          rw [own_eq_some.mp hown] at hwrites
          contradiction
        · have hnone := ((h.deletes k t g' hk hg').own_follow hfollow').2
          contradiction
    · rw [view_of_some hfollow] at hseen ⊢
      exact hseen

/-- A commit keeps the invariant. -/
theorem State.Inv.commit (h : s.Inv c H₀) (hk : s.txs k = some t) (hfin : t.finished c = true) :
    State.Inv c H₀ { s.committed k with
      log := s.log ++ [⟨t.op, t.after.filter (!t.before.contains ·), t.before.filter (!t.after.contains ·)⟩] } := by
  -- Without its transaction the state is one in which nothing was committed.
  have hended := h.ended (k := k)
  have hne : ∀ {k' : ℕ} {t' : Tx}, (s.ended k).txs k' = some t' → k' ≠ k := by
    rintro k' t' ht' rfl
    have hnone : (s.ended k').txs k' = none := Function.update_self ..
    rw [hnone] at ht'
    contradiction
  have hown : ∀ {k' : ℕ}, k' ≠ k → (s.ended k).own k' = s.own k' := by
    intro k' hne
    refine own_congr fun x v => ?_
    show (s.writes x).filter _ = _ ↔ _
    rw [Option.filter_eq_some_iff]
    exact and_iff_left (decide_eq_true hne)
  constructor
  -- A follow that is committed is of a bundle that is there.
  case follows => exact fun u g hf => h.view_follows hk hf
  case shares =>
    intro k' g hg
    obtain ⟨hrow, hnone, ht'⟩ := hended.shares k' g hg
    refine ⟨?_, hnone, ht'⟩
    obtain ⟨-, hwrites, -⟩ := h.shares k' g (List.mem_of_mem_filter hg)
    show (Selection.view s.rows (s.own k) (.group g)).isSome
    rw [view_of_none (by unfold State.own; rw [hwrites]; rfl)]
    exact hrow
  case live => exact hended.live
  case keys =>
    rintro x (hx | hx)
    · exact h.mem_keys hx
    · exact hended.keys x (.inr hx)
  -- The others are sure of it with what is committed now.
  case edits =>
    intro k' t' u e ht' he
    have hok := hended.edits k' t' u e ht' he
    have hdiff := hne ht'
    rw [hown hdiff] at hok
    show EditOk c (s.view k) ((s.ended k).own k') _ u e t'
    rw [hown hdiff]
    exact h.commit_edits hk hfin hdiff hok
  case deletes =>
    intro k' t' g ht' hg
    have hok := hended.deletes k' t' g ht' hg
    have hdiff := hne ht'
    rw [hown hdiff] at hok
    show DeleteOk c (s.view k) ((s.ended k).own k') g t'
    rw [hown hdiff]
    exact h.commit_deletes hk hfin hdiff hok
  case held =>
    intro u x
    dsimp only
    rw [List.map_append, replay, List.foldl_append]
    exact h.view_held hk hfin u x
  -- What was logged before is exact, and so is the last one.
  case exact =>
    intro pre d post hlog
    dsimp only at hlog
    rcases List.eq_nil_or_concat post with rfl | ⟨post', d', rfl⟩
    · obtain ⟨rfl, hd⟩ := List.append_inj' hlog rfl
      obtain rfl := List.singleton_inj.mp hd
      exact h.done_exact hk hfin
    · refine h.exact pre d post' ?_
      rw [List.concat_eq_append, ← List.cons_append, ← List.append_assoc] at hlog
      exact (List.append_inj' hlog rfl).1

/-- Such a step keeps the invariant. -/
theorem State.Inv.step {act : Act} (h : s.Inv c H₀) (hcond : s.unfollowed act = true)
    (hs : Selection.step c s act = some s') : s'.Inv c H₀ := by
  cases act with
  | call k op =>
    dsimp only [Selection.step] at hs
    split at hs
    · contradiction
    · next hk =>
      obtain rfl := Option.some.inj hs
      exact h.call (Option.not_isSome_iff_eq_none.mp hk) op
  -- A statement begins where the one before is done.
  | statement k =>
    dsimp only [Selection.step] at hs
    split at hs
    · next t hk =>
      split at hs
      · contradiction
      · next hnow =>
        rw [not_not] at hnow
        split at hs
        · next he => exact h.advance hk hnow he hs
        · next hg _ => exact h.deleting hk hnow hg hs
        · contradiction
    · contradiction
  | row k i =>
    dsimp only [Selection.step] at hs
    split at hs
    · next t hk =>
      split at hs
      · next act hact =>
        -- One case for each thing that a statement does to a row.
        cases act with
        | erase x v => exact h.erase hk hact hs
        | unfollow u g v => exact h.unfollow hk hact hs
        | put u x =>
          dsimp only [State.exec] at hs
          split at hs
          · contradiction
          next hfree =>
          rw [Bool.not_eq_true, Bool.not_eq_false'] at hfree
          obtain ⟨hskip, hwrite⟩ := h.put hk hact (.inl rfl) hfree
          split at hs
          · next hseen =>
            obtain rfl := Option.some.inj hs
            exact hskip hseen
          · obtain rfl := Option.some.inj hs
            exact hwrite
        | insert u x =>
          dsimp only [State.exec] at hs
          split at hs
          · contradiction
          next hfree =>
          rw [Bool.not_eq_true, Bool.not_eq_false'] at hfree
          split at hs
          · obtain rfl := Option.some.inj hs
            exact h.ended
          · obtain rfl := Option.some.inj hs
            exact (h.put hk hact (.inr rfl) hfree).2
        | follow u g => exact h.follow hk hact hs
        -- Only a bundle without followers is removed.
        | remove g v =>
          dsimp only [State.unfollowed] at hcond
          rw [hk, Option.bind_some, hact, Option.all_some] at hcond
          exact h.remove hk hact (List.isEmpty_iff.mp hcond) hs
      · contradiction
    · contradiction
  | commit k =>
    dsimp only [Selection.step] at hs
    split at hs
    · next t hk =>
      split at hs
      · next hfin =>
        obtain rfl := Option.some.inj hs
        exact h.commit hk hfin
      · contradiction
    · contradiction
  | abort k =>
    dsimp only [Selection.step] at hs
    split at hs
    · obtain rfl := Option.some.inj hs
      exact h.ended
    · contradiction

end Steps

end JobScripts.Catalog.Selection

import JobScripts.Catalog.Selection.Deletes
import JobScripts.Catalog.Selection.Edits

/-!
# The invariant of selections

Every transaction is sure of what it has done so far, and what people hold in the committed rows is what the logged
operations mean, one after the other. A transaction that begins a statement, writes a row or gives up keeps this.
-/

namespace JobScripts.Catalog.Selection

/-- What the calls mean, one after the other. -/
def replay (c : Offer) (H₀ : Held) (ops : List Op) : Held := ops.foldl (Op.meaning c) H₀

/-- The lists that a call returned are the difference that it made to the names that it touched. -/
def Done.Exact (c : Offer) (H : Held) (d : Done) : Prop :=
  ∀ u add remove, d.op = .change u add remove →
    (∀ x, x ∈ d.added ↔ (x ∈ add ∨ x ∈ remove) ∧ x ∈ d.op.meaning c H u ∧ x ∉ H u) ∧
    ∀ x, x ∈ d.removed ↔ (x ∈ add ∨ x ∈ remove) ∧ x ∈ H u ∧ x ∉ d.op.meaning c H u

/-- The invariant. -/
structure State.Inv (c : Offer) (H₀ : Held) (s : State) : Prop where
  follows : ∀ u g, (s.rows (.follow u g)).isSome → (s.rows (.group g)).isSome
  shares : ∀ k g, (k, g) ∈ s.shares → (s.rows (.group g)).isSome ∧ s.writes (.group g) = none ∧
    ∃ t, s.txs k = some t ∧ (t.op.edit c).isSome
  live : ∀ x k v, s.writes x = some (k, v) → (s.txs k).isSome
  keys : ∀ x, (s.rows x).isSome ∨ (s.writes x).isSome → x ∈ s.keys
  edits : ∀ k t u e, s.txs k = some t → t.op.edit c = some (u, e) →
    EditOk c s.rows (s.own k) (fun g => (k, g) ∈ s.shares) u e t
  deletes : ∀ k t g, s.txs k = some t → t.op = .deleteGroup g → DeleteOk c s.rows (s.own k) g t
  held : ∀ u x, Holds c s.rows u x ↔ x ∈ replay c H₀ (s.log.map Done.op) u
  exact : ∀ pre d post, s.log = pre ++ d :: post → d.Exact c (replay c H₀ (pre.map Done.op))

section Steps

variable {c : Offer} {H₀ : Held} {s s' : State} {k : ℕ} {t t' : Tx}

/-- What a transaction has written. -/
theorem own_eq_some {x : Key} {v : Option ℕ} : s.own k x = some v ↔ s.writes x = some (k, v) := by
  unfold State.own
  rw [Option.bind_eq_some_iff]
  constructor
  · rintro ⟨⟨k', v'⟩, hw, hv⟩
    split at hv
    · next heq =>
      obtain rfl := Option.some.inj hv
      rw [hw, ← (heq : k' = k)]
    · contradiction
  · intro hw
    exact ⟨(k, v), hw, if_pos rfl⟩

/-- What a transaction has written, no other one has. -/
theorem own_eq_none {x : Key} {k' : ℕ} (hk : k' ≠ k) (h : (s.own k x).isSome) : s.own k' x = none := by
  obtain ⟨v, hv⟩ := Option.isSome_iff_exists.mp h
  rcases hown : s.own k' x with _ | v'
  · rfl
  · have hw := own_eq_some.mp hv
    rw [own_eq_some.mp hown] at hw
    exact absurd (Prod.mk.inj (Option.some.inj hw)).1 hk

/-- Who has the same writes sees the same. -/
theorem own_congr (h : ∀ x v, s'.writes x = some (k, v) ↔ s.writes x = some (k, v)) : s'.own k = s.own k := by
  funext x
  rcases hown : s.own k x with _ | v
  · rcases hown' : s'.own k x with _ | v
    · rfl
    · rw [own_eq_some, h, ← own_eq_some, hown] at hown'
      contradiction
  · rw [own_eq_some, h, ← own_eq_some]
    exact hown

/-- What a transaction sees that is there has a key. -/
theorem State.Inv.mem_keys (h : s.Inv c H₀) {x : Key} (hx : (s.view k x).isSome) : x ∈ s.keys := by
  refine h.keys x ?_
  rcases hown : s.own k x with _ | v
  · rw [State.view, view_of_none hown] at hx
    exact .inl hx
  · exact .inr (by rw [own_eq_some.mp hown]; rfl)

/-- The transaction that writes a free row has written it, and nothing else has changed. -/
theorem own_write {x : Key} {v : Option ℕ} : (s.write k x v).own k = Function.update (s.own k) x (some v) := by
  funext y
  unfold State.own State.write
  dsimp only
  rw [Function.update_apply, Function.update_apply]
  split
  · exact if_pos rfl
  · rfl

/-- A transaction goes on: what the others are sure of stays, if it writes only free rows. -/
theorem State.Inv.goes (h : s.Inv c H₀) (hop : t'.op = t.op) (hrows : s'.rows = s.rows)
    (hlog : s'.log = s.log) (htxs : s'.txs = Function.update s.txs k (some t'))
    (hwrites : ∀ k' x v, k' ≠ k → (s'.writes x = some (k', v) ↔ s.writes x = some (k', v)))
    (hkeys : ∀ x, (s'.writes x).isSome ∨ x ∈ s.keys → x ∈ s'.keys)
    (hshares : ∀ k' g, k' ≠ k → ((k', g) ∈ s'.shares ↔ (k', g) ∈ s.shares))
    (hothers : ∀ k' g, (k', g) ∈ s'.shares → s'.writes (.group g) = none)
    (hmine : ∀ g, (k, g) ∈ s'.shares → (s.rows (.group g)).isSome ∧ (t.op.edit c).isSome)
    (hedit : ∀ u e, t.op.edit c = some (u, e) → EditOk c s.rows (s'.own k) (fun g => (k, g) ∈ s'.shares) u e t')
    (hdelete : ∀ g, t.op = .deleteGroup g → DeleteOk c s.rows (s'.own k) g t') : s'.Inv c H₀ := by
  -- The transaction is the one that goes on, or one that stays where it is.
  have hcases : ∀ {k' : ℕ} {t'' : Tx}, s'.txs k' = some t'' → (k' = k ∧ t'' = t') ∨ (k' ≠ k ∧ s.txs k' = some t'') := by
    intro k' t'' ht
    rw [htxs, Function.update_apply] at ht
    split at ht
    · next heq => exact .inl ⟨heq, (Option.some.inj ht).symm⟩
    · next hne => exact .inr ⟨hne, ht⟩
  have hself : s'.txs k = some t' := by rw [htxs, Function.update_self]
  constructor
  case follows =>
    rw [hrows]
    exact h.follows
  -- A bundle that is locked is there, and no one writes it.
  case shares =>
    intro k' g hg
    rw [hrows]
    rcases eq_or_ne k' k with rfl | hne
    · exact ⟨(hmine g hg).1, hothers k' g hg, t', hself, hop ▸ (hmine g hg).2⟩
    · obtain ⟨hrow, -, t'', ht'', hedit'⟩ := h.shares k' g ((hshares k' g hne).mp hg)
      refine ⟨hrow, hothers k' g hg, t'', ?_, hedit'⟩
      rw [htxs, Function.update_of_ne hne]
      exact ht''
  case live =>
    intro x k' v hw
    rcases eq_or_ne k' k with rfl | hne
    · rw [hself]
      rfl
    · rw [htxs, Function.update_of_ne hne]
      exact h.live x k' v ((hwrites k' x v hne).mp hw)
  case keys =>
    intro x hx
    rw [hrows] at hx
    rcases hx with hx | hx
    · exact hkeys x (.inr (h.keys x (.inl hx)))
    · exact hkeys x (.inl hx)
  -- What the others have written and locked is what it was.
  case edits =>
    intro k' t'' u e ht'' he
    rw [hrows]
    rcases hcases ht'' with ⟨rfl, rfl⟩ | ⟨hne, ht''⟩
    · exact hedit u e (hop ▸ he)
    · rw [own_congr fun x v => hwrites k' x v hne]
      have hshared : (fun g => (k', g) ∈ s'.shares) = fun g => (k', g) ∈ s.shares :=
        funext fun g => propext (hshares k' g hne)
      rw [hshared]
      exact h.edits k' t'' u e ht'' he
  case deletes =>
    intro k' t'' g ht'' hg
    rw [hrows]
    rcases hcases ht'' with ⟨rfl, rfl⟩ | ⟨hne, ht''⟩
    · exact hdelete g (hop ▸ hg)
    · rw [own_congr fun x v => hwrites k' x v hne]
      exact h.deletes k' t'' g ht'' hg
  case held =>
    rw [hrows, hlog]
    exact h.held
  case exact =>
    rw [hlog]
    exact h.exact

/-- A transaction goes on without a write. -/
theorem State.Inv.goOn (h : s.Inv c H₀) (hk : s.txs k = some t) (hop : t'.op = t.op)
    (hedit : ∀ u e, t.op.edit c = some (u, e) → EditOk c s.rows (s.own k) (fun g => (k, g) ∈ s.shares) u e t')
    (hdelete : ∀ g, t.op = .deleteGroup g → DeleteOk c s.rows (s.own k) g t') : (s.go k t').Inv c H₀ := by
  refine h.goes hop rfl rfl rfl (fun _ _ _ _ => Iff.rfl) ?_ (fun _ _ _ => Iff.rfl) (fun k' g hg => (h.shares k' g hg).2.1)
    ?_ hedit hdelete
  · rintro x (hx | hx)
    · exact h.keys x (.inr hx)
    · exact hx
  · intro g hg
    obtain ⟨hrow, -, t'', ht'', hedit'⟩ := h.shares k g hg
    obtain rfl := Option.some.inj (hk.symm.trans ht'')
    exact ⟨hrow, hedit'⟩

/-- The keys after a write. -/
theorem mem_keys_write {x y : Key} {v : Option ℕ} (hy : y = x ∨ y ∈ s.keys) : y ∈ (s.write k x v).keys := by
  unfold State.write
  dsimp only
  split
  · next hx =>
    rcases hy with rfl | hy
    · exact List.contains_iff_mem.mp hx
    · exact hy
  · rcases hy with rfl | hy
    · exact List.mem_append_right _ (List.mem_singleton_self _)
    · exact List.mem_append_left _ hy

/-- A transaction writes a free row, and may lock the bundle that it follows. -/
theorem State.Inv.writes (h : s.Inv c H₀) (hk : s.txs k = some t) (hop : t'.op = t.op) {x : Key} {v : Option ℕ}
    (hfree : s.free k x = true) {shares : List (ℕ × String)}
    (hshares : shares = s.shares ∨ ∃ u g, x = .follow u g ∧ shares = (k, g) :: s.shares ∧
      (s.rows (.group g)).isSome ∧ s.writes (.group g) = none ∧ (t.op.edit c).isSome)
    (hgroup : ∀ g, x = .group g → ∀ k', (k', g) ∉ s.shares)
    (hedit : ∀ u e, t.op.edit c = some (u, e) →
      EditOk c s.rows (Function.update (s.own k) x (some v)) (fun g => (k, g) ∈ shares) u e t')
    (hdelete : ∀ g, t.op = .deleteGroup g → DeleteOk c s.rows (Function.update (s.own k) x (some v)) g t') :
    State.Inv c H₀ { (s.write k x v).go k t' with shares := shares } := by
  have hown : State.own { (s.write k x v).go k t' with shares := shares } k = Function.update (s.own k) x (some v) :=
    own_write
  have hwrites : ∀ y, (s.write k x v).writes y = if y = x then some (k, v) else s.writes y :=
    fun y => Function.update_apply ..
  refine h.goes hop rfl rfl rfl ?_ ?_ ?_ ?_ ?_ (hown ▸ hedit) (hown ▸ hdelete)
  -- The writes of the others, the keys, and the locks of the others.
  · intro k' y v' hne
    show (s.write k x v).writes y = _ ↔ _
    rw [hwrites]
    split
    · next heq =>
      -- The row is free: what is written there is the transaction's own.
      rw [heq]
      constructor
      · intro hsome
        exact absurd (Prod.mk.inj (Option.some.inj hsome)).1.symm hne
      · intro hsome
        unfold State.free at hfree
        rw [hsome, Option.all_some, decide_eq_true_eq] at hfree
        exact absurd hfree hne
    · exact Iff.rfl
  · rintro y (hy | hy)
    · refine mem_keys_write (k := k) (v := v) ?_
      have hy' : ((s.write k x v).writes y).isSome := hy
      rw [hwrites] at hy'
      split at hy'
      · next heq => exact .inl heq
      · exact .inr (h.keys y (.inr hy'))
    · exact mem_keys_write (k := k) (v := v) (.inr hy)
  · intro k' g hne
    dsimp only
    rcases hshares with heq | ⟨u, g', -, heq, -⟩
    · rw [heq]
    · rw [heq, List.mem_cons, Prod.mk.injEq]
      exact ⟨fun hmem => hmem.resolve_left fun hkg => hne hkg.1, .inr⟩
  -- A bundle that is locked is not the row that is written.
  · intro k' g hg
    show (s.write k x v).writes (.group g) = none
    rw [hwrites]
    rcases hshares with heq | ⟨u, g', hx, heq, -, hnone, -⟩
    · rw [heq] at hg
      rw [if_neg fun hx => hgroup g hx.symm k' hg]
      exact (h.shares k' g hg).2.1
    · rw [hx, if_neg fun heq' : Key.group g = .follow u g' => nomatch heq']
      rw [heq] at hg
      rcases List.mem_cons.mp hg with hkg | hg
      · rw [(Prod.mk.inj hkg).2]
        exact hnone
      · exact (h.shares k' g hg).2.1
  -- What the transaction locks is there, and it is an operation of one person.
  · intro g hg
    have hold : (k, g) ∈ s.shares → (s.rows (.group g)).isSome ∧ (t.op.edit c).isSome := by
      intro hg
      obtain ⟨hrow, -, t'', ht'', hedit'⟩ := h.shares k g hg
      obtain rfl := Option.some.inj (hk.symm.trans ht'')
      exact ⟨hrow, hedit'⟩
    rcases hshares with heq | ⟨u, g', -, heq, hrow, -, hedit'⟩
    · rw [heq] at hg
      exact hold hg
    · rw [heq] at hg
      rcases List.mem_cons.mp hg with hkg | hg
      · rw [(Prod.mk.inj hkg).2]
        exact ⟨hrow, hedit'⟩
      · exact hold hg

/-- A transaction writes a free row, and goes on. -/
theorem State.Inv.write (h : s.Inv c H₀) (hk : s.txs k = some t) (hop : t'.op = t.op) {x : Key} {v : Option ℕ}
    (hfree : s.free k x = true) (hgroup : ∀ g, x = .group g → ∀ k', (k', g) ∉ s.shares)
    (hedit : ∀ u e, t.op.edit c = some (u, e) →
      EditOk c s.rows (Function.update (s.own k) x (some v)) (fun g => (k, g) ∈ s.shares) u e t')
    (hdelete : ∀ g, t.op = .deleteGroup g → DeleteOk c s.rows (Function.update (s.own k) x (some v)) g t') :
    ((s.write k x v).go k t').Inv c H₀ := h.writes hk hop hfree (.inl rfl) hgroup hedit hdelete

/-- A call begins. -/
theorem State.Inv.call (h : s.Inv c H₀) (hk : s.txs k = none) (op : Op) : (s.go k { op := op }).Inv c H₀ := by
  have hown : ∀ x, s.own k x = none := by
    intro x
    rcases hx : s.own k x with _ | v
    · rfl
    · have hlive := h.live x k v (own_eq_some.mp hx)
      rw [hk] at hlive
      contradiction
  refine h.goes (t := { op := op }) rfl rfl rfl rfl (fun _ _ _ _ => Iff.rfl) ?_ (fun _ _ _ => Iff.rfl)
    (fun k' g hg => (h.shares k' g hg).2.1) ?_ (fun u e _ => .begin hown rfl rfl)
    fun g _ => .begin hown rfl ⟨rfl, rfl⟩
  · rintro x (hx | hx)
    · exact h.keys x (.inr hx)
    · exact hx
  · intro g hg
    obtain ⟨-, -, t, ht, -⟩ := h.shares k g hg
    rw [hk] at ht
    contradiction

/-- A transaction ends without a commit. -/
theorem State.Inv.ended (h : s.Inv c H₀) : (s.ended k).Inv c H₀ := by
  -- What is left are the writes, the calls and the locks of the others.
  have hwrites : ∀ k' x v, k' ≠ k → ((s.ended k).writes x = some (k', v) ↔ s.writes x = some (k', v)) := by
    intro k' x v hne
    show (s.writes x).filter _ = _ ↔ _
    rw [Option.filter_eq_some_iff]
    exact and_iff_left (decide_eq_true hne)
  have htxs : ∀ {k' : ℕ} {t' : Tx}, (s.ended k).txs k' = some t' → k' ≠ k ∧ s.txs k' = some t' := by
    intro k' t' ht'
    unfold State.ended at ht'
    dsimp only at ht'
    rw [Function.update_apply] at ht'
    split at ht'
    · contradiction
    · next hne => exact ⟨hne, ht'⟩
  have hnot : ∀ {x : Key} {k' : ℕ} {v : Option ℕ}, (s.ended k).writes x = some (k', v) → k' ≠ k := by
    intro x k' v hw
    exact of_decide_eq_true (Option.filter_eq_some_iff.mp (hw : (s.writes x).filter _ = _)).2
  have hshares : ∀ k' g, (k', g) ∈ (s.ended k).shares ↔ (k', g) ∈ s.shares ∧ k' ≠ k := by
    intro k' g
    unfold State.ended
    dsimp only
    rw [List.mem_filter, decide_eq_true_eq]
  constructor
  case follows => exact h.follows
  -- The others are as they were.
  case shares =>
    intro k' g hg
    obtain ⟨hg, hne⟩ := (hshares k' g).mp hg
    obtain ⟨hrow, hnone, t', ht', hedit⟩ := h.shares k' g hg
    refine ⟨hrow, ?_, t', ?_, hedit⟩
    · show (s.writes (.group g)).filter _ = none
      rw [hnone]
      rfl
    · exact (Function.update_of_ne hne ..).trans ht'
  case live =>
    intro x k' v hw
    have hne := hnot hw
    have hlive := h.live x k' v ((hwrites k' x v hne).mp hw)
    show (Function.update s.txs k none k').isSome
    rw [Function.update_of_ne hne]
    exact hlive
  case keys =>
    rintro x (hx | hx)
    · exact h.keys x (.inl hx)
    · obtain ⟨⟨k', v⟩, hw⟩ := Option.isSome_iff_exists.mp hx
      exact h.keys x (.inr (by rw [(hwrites k' x v (hnot hw)).mp hw]; rfl))
  case edits =>
    intro k' t' u e ht' he
    obtain ⟨hne, ht'⟩ := htxs ht'
    rw [own_congr fun x v => hwrites k' x v hne]
    have hshared : (fun g => (k', g) ∈ (s.ended k).shares) = fun g => (k', g) ∈ s.shares :=
      funext fun g => propext ((hshares k' g).trans (and_iff_left hne))
    rw [hshared]
    exact h.edits k' t' u e ht' he
  case deletes =>
    intro k' t' g ht' hg
    obtain ⟨hne, ht'⟩ := htxs ht'
    rw [own_congr fun x v => hwrites k' x v hne]
    exact h.deletes k' t' g ht' hg
  case held => exact h.held
  case exact => exact h.exact

/-- What a transaction reads of the touched names. -/
theorem State.Inv.mem_reading (h : s.Inv c H₀) {u : ℕ} {touched : List String} {x : String} :
    x ∈ s.reading c k u touched ↔ x ∈ touched ∧ Holds c (Selection.view s.rows (s.own k)) u x := by
  unfold State.reading
  rw [List.mem_filter, holds_iff fun y hy => h.mem_keys hy]
  rfl

/-- The follows that a statement drops are the person's. -/
theorem leaving_fits {u : ℕ} {e : Edit c} {act : RowAct} (hact : act ∈ s.leaving k u e) :
    e.Fits u 3 (s.own k) act := by
  unfold State.leaving at hact
  obtain ⟨x, -, hx⟩ := List.mem_filterMap.mp hact
  split at hx
  · next u' g =>
    split at hx
    · next hcond =>
      simp only [Bool.and_eq_true, decide_eq_true_eq] at hcond
      obtain ⟨v, -, rfl⟩ := Option.map_eq_some_iff.mp hx
      rcases hkeeps : e.keeps with _ | _
      · exact .inl ⟨rfl, hkeeps, g, rfl, hcond.1.2⟩
      · exact ⟨rfl, rfl, hkeeps, hcond.1.2⟩
    · contradiction
  · contradiction

/-- All of them. -/
theorem State.Inv.drops (h : s.Inv c H₀) {u : ℕ} {e : Edit c}
    (hown : ∀ x v, s.own k x = some v → x = .user u) {g : String} {v : ℕ} (hleaves : e.leaves g = true)
    (hrow : s.rows (.follow u g) = some v) : Drops u g v (s.leaving k u e) := by
  have hview : ∀ x, (∀ w, x ≠ .user w) → s.view k x = s.rows x := by
    intro x hx
    refine view_of_none ?_
    rcases hx' : s.own k x with _ | v
    · rfl
    · exact absurd (hown x v hx') (hx u)
  have hmem : (if e.keeps then RowAct.unfollow u g v else .erase (.follow u g) v) ∈ s.leaving k u e := by
    refine List.mem_filterMap.mpr ⟨.follow u g, h.keys _ (.inl (by rw [hrow]; rfl)), ?_⟩
    have hgroup := h.follows u g (by rw [hrow]; rfl)
    dsimp only
    rw [hview (.follow u g) nofun, hview (.group g) nofun, hrow, hleaves, hgroup, if_pos (by simp)]
    rfl
  unfold Drops
  split at hmem
  · exact .inr hmem
  · exact .inl hmem

/-- The picks that a statement deletes are the person's. -/
theorem clearing_fits {u : ℕ} {e : Edit c} {act : RowAct} (hact : act ∈ s.clearing k u e) :
    e.Fits u 4 (s.own k) act := by
  unfold State.clearing at hact
  obtain ⟨x, -, hx⟩ := List.mem_filterMap.mp hact
  split at hx
  · next u' y =>
    split at hx
    · next hcond =>
      rw [Bool.and_eq_true] at hcond
      obtain ⟨v, -, rfl⟩ := Option.map_eq_some_iff.mp hx
      exact .inr ⟨rfl, y, rfl, hcond.2⟩
    · contradiction
  · contradiction

/-- All of them. -/
theorem State.Inv.clears (h : s.Inv c H₀) {u : ℕ} {e : Edit c} {x : String} {v : ℕ} (hclears : e.clears x = true)
    (hseen : Selection.view s.rows (s.own k) (.pick u x) = some v) : .erase (.pick u x) v ∈ s.clearing k u e := by
  have hkey : Key.pick u x ∈ s.keys := h.mem_keys (k := k) (by rw [State.view, hseen]; rfl)
  refine List.mem_filterMap.mpr ⟨.pick u x, hkey, ?_⟩
  dsimp only
  rw [hclears, State.view, hseen, if_pos (by simp)]
  rfl

/-- The next statement of an operation of one person keeps the invariant. -/
theorem State.Inv.advance (h : s.Inv c H₀) (hk : s.txs k = some t) (hnow : t.now = []) {u : ℕ} {e : Edit c}
    (he : t.op.edit c = some (u, e)) (hs : s.advance k u e t = some s') : s'.Inv c H₀ := by
  have hok := h.edits k t u e hk he
  have hdelete : ∀ {P : String → Prop} (g : String), t.op = .deleteGroup g → P g := by
    intro P g hg
    rw [hg] at he
    contradiction
  have hedit : ∀ {P : ∀ u, Edit c → Prop}, P u e → ∀ u' e', t.op.edit c = some (u', e') → P u' e' := by
    intro P hP u' e' he'
    obtain ⟨rfl, rfl⟩ := Prod.mk.inj (Option.some.inj (he.symm.trans he'))
    exact hP
  -- One case for each statement: the lock, the first read, the four that write, and the last read.
  unfold State.advance at hs
  split at hs
  · next hpc =>
    split at hs
    · next hfree =>
      obtain rfl := Option.some.inj hs
      refine h.write hk ?_ hfree (fun g hg => nomatch hg) ?_ hdelete
      · rfl
      · exact hedit (hok.lock hpc hnow _)
    · contradiction
  · next hpc =>
    obtain rfl := Option.some.inj hs
    exact h.goOn hk rfl (hedit (hok.readBefore hpc hnow fun x => h.mem_reading)) hdelete
  · next hpc =>
    obtain rfl := Option.some.inj hs
    -- Each of them begins with its rows before it.
    have hnext := hok.next hnow (by omega) (by omega) _ (fun act hact => by rw [hpc]; exact leaving_fits hact)
      (fun _ g v hleaves hrow => h.drops (hok.early (by omega)) hleaves hrow) (fun _ => by omega) (fun _ => by omega)
      fun _ => by omega
    rw [hpc] at hnext
    exact h.goOn hk rfl (hedit hnext) hdelete
  · next hpc =>
    obtain rfl := Option.some.inj hs
    have hnext := hok.next hnow (by omega) (by omega) _ (fun act hact => by rw [hpc]; exact clearing_fits hact)
      (fun _ => by omega) (fun _ x v hclears hseen => h.clears hclears hseen) (fun _ => by omega) fun _ => by omega
    rw [hpc] at hnext
    exact h.goOn hk rfl (hedit hnext) hdelete
  · next hpc =>
    obtain rfl := Option.some.inj hs
    have hnext := hok.next hnow (by omega) (by omega) (e.puts.map fun x => if e.plain then .insert u x else .put u x)
      ?_
      (fun _ => by omega) (fun _ => by omega) ?_ fun _ => by omega
    · rw [hpc] at hnext
      exact h.goOn hk rfl (hedit hnext) hdelete
    · intro act hact
      obtain ⟨x, hx, rfl⟩ := List.mem_map.mp hact
      rw [hpc]
      split
      · exact ⟨rfl, rfl, hx⟩
      · exact ⟨rfl, .inr ⟨rfl, hx⟩⟩
    · intro _ x hx
      rcases hplain : e.plain with _ | _
      · exact .inl (List.mem_map.mpr ⟨x, hx, if_neg Bool.false_ne_true⟩)
      · exact .inr (List.mem_map.mpr ⟨x, hx, if_pos rfl⟩)
  · next hpc =>
    obtain rfl := Option.some.inj hs
    have hnext := hok.next hnow (by omega) (by omega) (e.joins.toList.map (.follow u)) ?_
      (fun _ => by omega) (fun _ => by omega) (fun _ => by omega) ?_
    · rw [hpc] at hnext
      exact h.goOn hk rfl (hedit hnext) hdelete
    · intro act hact
      obtain ⟨g, hg, rfl⟩ := List.mem_map.mp hact
      rw [hpc]
      exact ⟨rfl, rfl, Option.mem_toList.mp hg⟩
    · intro _ g hg
      exact List.mem_map_of_mem (Option.mem_toList.mpr hg)
  · next hpc =>
    obtain rfl := Option.some.inj hs
    refine h.goOn hk rfl (hedit (hok.readAfter hpc hnow (h.follows u) ?_ fun x => h.mem_reading)) hdelete
    exact fun g hg => (h.shares k g hg).1
  · contradiction

/-- The next statement of a deletion keeps the invariant. -/
theorem State.Inv.deleting (h : s.Inv c H₀) (hk : s.txs k = some t) (hnow : t.now = []) {g : String}
    (hg : t.op = .deleteGroup g) (hs : s.deleting k g t = some s') : s'.Inv c H₀ := by
  have hok := h.deletes k t g hk hg
  have hedit : ∀ {P : ∀ u, Edit c → Prop} u e, t.op.edit c = some (u, e) → P u e := by
    intro P u e he
    rw [hg] at he
    contradiction
  have hdelete : ∀ {P : String → Prop}, P g → ∀ g', t.op = .deleteGroup g' → P g' := by
    intro P hP g' hg'
    obtain rfl := Op.deleteGroup.inj (hg.symm.trans hg')
    exact hP
  unfold State.deleting at hs
  split at hs
  · obtain rfl := Option.some.inj hs
    refine h.goOn hk ?_ hedit (hdelete (hok.next hnow (fun act hact => ?_) ⟨rfl, rfl⟩))
    · rfl
    · rw [hnow] at hact
      exact absurd hact List.not_mem_nil
  · obtain rfl := Option.some.inj hs
    refine h.goOn hk ?_ hedit (hdelete (hok.next hnow (fun act hact => ?_) ⟨rfl, rfl⟩))
    · rfl
    · obtain ⟨v, -, rfl⟩ := List.mem_map.mp hact
      rfl
  · obtain rfl := Option.some.inj hs
    refine h.goOn hk ?_ hedit (hdelete (hok.next hnow (fun act hact => ?_) ⟨rfl, rfl⟩))
    · rfl
    · obtain ⟨v, -, rfl⟩ := List.mem_map.mp hact
      rfl
  · contradiction

end Steps

end JobScripts.Catalog.Selection

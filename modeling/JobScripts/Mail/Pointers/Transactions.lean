import JobScripts.Mail.Pointers.Invariant

/-!
# Messages and transactions

A message that arrives and each statement of a transaction keep the invariant, its commit and its end without one
too.
-/

namespace JobScripts.Mail.Pointers

open Lib

section Invariant

variable {b : Start} {s s' : State}

/-- A message is stored. -/
theorem State.Inv.arrive (h : s.Inv b) {m : ℕ} (hs : step s (.arrive m) = some s') :
    s'.Inv b ∧ Grows b s s' := by
  simp only [step] at hs
  rw [Option.ite_none_left_eq_some, not_or] at hs
  obtain ⟨⟨hnew, hpos⟩, hs⟩ := hs
  obtain rfl := Option.some.inj hs
  have hnorow : ∀ r ∈ s.rows, r.message ≠ m := by
    rintro r hr rfl
    exact hnew (h.committed.known r hr).1
  -- Its pointers were null already, as no row is of the message.
  have hnull : Function.update s.pointers m (fun _ => none) = s.pointers := by
    refine Function.update_eq_self_iff.mpr (funext fun log => ?_)
    cases hp : s.pointers m log with
    | none => rfl
    | some p => exact absurd rfl (hnorow _ (h.committed.names m log p hp))
  rw [hnull]
  have hold : m ∉ b.ids := fun hmem => hnew (h.committed.kept m hmem)
  have hc : Committed b { s with ids := s.ids ++ [m] } := by
    refine ⟨?_, fun m' hm' => List.mem_append_left _ (h.committed.kept m' hm'), h.committed.base,
      fun r hr => ⟨List.mem_append_left _ (h.committed.known r hr).1, (h.committed.known r hr).2⟩,
      h.committed.fresh, h.committed.reached, h.committed.names⟩
    intro hmem
    rcases List.mem_append.mp hmem with hmem | hmem
    · exact h.committed.pos hmem
    · exact hpos (List.mem_singleton.mp hmem).symm
  have hg : Grows b s { s with ids := s.ids ++ [m] } := by
    refine ⟨fun m' hm' => List.mem_append_left _ hm', fun m' hm' => ?_, fun r hr => hr, fun r hr => .inl hr,
      fun m' log => .refl _⟩
    rcases List.mem_append.mp hm' with hm' | hm'
    · exact .inl hm'
    · rw [List.mem_singleton.mp hm']
      exact .inr hold
  refine ⟨⟨hc, ⟨fun x t r ht hr => ?_, fun x t r ht hr => ?_, h.pending.version⟩,
    h.passes.mono hg h.committed hc rfl (fun _ _ _ => Iff.rfl) fun _ _ _ _ => rfl⟩, hg⟩
  · obtain ⟨hmem, hrest⟩ := h.pending.waiting x t r ht hr
    exact ⟨List.mem_append_left _ hmem, hrest⟩
  · obtain ⟨hmem, hrest⟩ := h.pending.inserted x t r ht hr
    exact ⟨List.mem_append_left _ hmem, hrest⟩

/-- What is stored for one transaction. -/
theorem update_txs {txs : ℕ → Option Tx} {x y : ℕ} {new : Option Tx} {t : Tx}
    (h : Function.update txs x new y = some t) : (y = x ∧ new = some t) ∨ (y ≠ x ∧ txs y = some t) := by
  by_cases hy : y = x
  · subst hy
    rw [Function.update_self] at h
    exact .inl ⟨rfl, h⟩
  · rw [Function.update_of_ne hy] at h
    exact .inr ⟨hy, h⟩

/-- A transaction begins. -/
theorem State.Inv.begin (h : s.Inv b) {x : ℕ} (hs : step s (.begin x) = some s') :
    s'.Inv b ∧ Grows b s s' := by
  simp only [step] at hs
  split at hs
  · next hnone =>
    obtain rfl := Option.some.inj hs
    set s₁ : State := { s with txs := Function.update s.txs x (some ⟨[], none⟩) } with hs₁
    have hg : Grows b s s₁ := Grows.frame b rfl rfl rfl
    have hc : Committed b s₁ := h.committed.frame rfl rfl rfl fun _ => Nat.le_refl _
    refine ⟨⟨hc, ⟨fun y t r ht hr => ?_, fun y t r ht hr => ?_, fun m y p hlock => ?_⟩,
      h.passes.mono hg h.committed hc rfl (fun _ _ _ => Iff.rfl) fun _ _ _ _ => rfl⟩, hg⟩
    · rcases update_txs ht with ⟨-, hnew⟩ | ⟨-, ht⟩
      · obtain rfl := Option.some.inj hnew
        contradiction
      · exact h.pending.waiting y t r ht hr
    · rcases update_txs ht with ⟨-, hnew⟩ | ⟨-, ht⟩
      · obtain rfl := Option.some.inj hnew
        exact absurd hr List.not_mem_nil
      · exact h.pending.inserted y t r ht hr
    · obtain ⟨t, ht, hver⟩ := h.pending.version m y p hlock
      have hy : y ≠ x := by
        rintro rfl
        rw [hnone] at ht
        contradiction
      exact ⟨t, by rw [hs₁]; dsimp only; rw [Function.update_of_ne hy]; exact ht, hver⟩
  · contradiction

/-- A row is inserted, with the next id of its sequence. -/
theorem State.Inv.insert (h : s.Inv b) {x m : ℕ} {log : Log} (hs : step s (.insert x log m) = some s') :
    s'.Inv b ∧ Grows b s s' := by
  simp only [step] at hs
  split at hs
  · next inserted htx =>
    rw [Option.ite_none_right_eq_some] at hs
    obtain ⟨hm, hs⟩ := hs
    obtain rfl := Option.some.inj hs
    have hnext : ∀ l, s.next l ≤ Function.update s.next log (s.next log + 1) l := by
      intro l
      by_cases hl : l = log
      · subst hl
        rw [Function.update_self]
        omega
      · rw [Function.update_of_ne hl]
    set s₁ : State := { s with
      next := Function.update s.next log (s.next log + 1)
      txs := Function.update s.txs x (some ⟨inserted, some ⟨log, s.next log, m⟩⟩) } with hs₁
    have hg : Grows b s s₁ := Grows.frame b rfl rfl rfl
    have hc : Committed b s₁ := h.committed.frame rfl rfl rfl hnext
    refine ⟨⟨hc, ⟨fun y t r ht hr => ?_, fun y t r ht hr => ?_, fun m' y p hlock => ?_⟩,
      h.passes.mono hg h.committed hc rfl (fun _ _ _ => Iff.rfl) fun _ _ _ _ => rfl⟩, hg⟩
    · rcases update_txs ht with ⟨-, hnew⟩ | ⟨-, ht⟩
      · obtain rfl := Option.some.inj hnew
        obtain rfl := Option.some.inj hr
        refine ⟨hm, h.committed.base log, ?_⟩
        rw [hs₁]
        dsimp only
        rw [Function.update_self]
        omega
      · obtain ⟨hmem, hbase, hlt⟩ := h.pending.waiting y t r ht hr
        exact ⟨hmem, hbase, Nat.lt_of_lt_of_le hlt (hnext _)⟩
    · have hold : ∃ t', s.txs y = some t' ∧ r ∈ t'.inserted := by
        rcases update_txs ht with ⟨rfl, hnew⟩ | ⟨-, ht⟩
        · obtain rfl := Option.some.inj hnew
          exact ⟨_, htx, hr⟩
        · exact ⟨t, ht, hr⟩
      obtain ⟨t', ht', hr'⟩ := hold
      obtain ⟨hmem, hbase, hlt, hlock⟩ := h.pending.inserted y t' r ht' hr'
      exact ⟨hmem, hbase, Nat.lt_of_lt_of_le hlt (hnext _), hlock⟩
    · obtain ⟨t, ht, hver⟩ := h.pending.version m' y p hlock
      by_cases hy : y = x
      · subst hy
        rw [htx] at ht
        obtain rfl := Option.some.inj ht
        exact ⟨_, Function.update_self .., hver⟩
      · exact ⟨t, by rw [hs₁]; dsimp only; rw [Function.update_of_ne hy]; exact ht, hver⟩
  · contradiction

/-- The version that a transaction sees of a row: its lock on the row, or the committed row with no lock. -/
theorem version_some {x m : ℕ} {p : Pair} (h : s.version x m = some p) :
    s.locks m = some (.tx x, p) ∨ (s.locks m = none ∧ p = s.pointers m) := by
  unfold State.version at h
  split at h
  · next who q hlock =>
    rw [Option.ite_none_right_eq_some] at h
    obtain ⟨rfl, hp⟩ := h
    exact .inl (Option.some.inj hp ▸ hlock)
  · next hlock => exact .inr ⟨hlock, (Option.some.inj h).symm⟩

/-- The pointer that an append leaves, in the row of its message. -/
theorem point_version {p : Pair} {r : LogRow} (log : Log) :
    let q : Pair := Function.update p r.log (greatest (p r.log) (some r.id))
    NotBehind (q log) (p log) ∧ (q log = p log ∨ (log = r.log ∧ q log = some r.id)) := by
  intro q
  by_cases hl : log = r.log
  · have hq : q log = greatest (p r.log) (some r.id) := by rw [hl]; exact Function.update_self ..
    rw [hq, hl]
    exact ⟨greatest_left _ _, (greatest_eq _ _).imp_right fun he => ⟨rfl, he⟩⟩
  · have hq : q log = p log := Function.update_of_ne hl ..
    rw [hq]
    exact ⟨.refl _, .inl rfl⟩

/-- An append moves the pointer of its message, in the version that its transaction will commit. -/
theorem State.Inv.point (h : s.Inv b) {x : ℕ} (hs : step s (.point x) = some s') :
    s'.Inv b ∧ Grows b s s' := by
  simp only [step] at hs
  split at hs
  · next inserted r htx =>
    split at hs
    · next p hp =>
      obtain rfl := Option.some.inj hs
      have hsees := version_some hp
      obtain ⟨hrmem, hrbase, hrlt⟩ := h.pending.waiting x _ r htx rfl
      set q : Pair := Function.update p r.log (greatest (p r.log) (some r.id)) with hq
      set s₁ : State := { s with
        txs := Function.update s.txs x (some ⟨r :: inserted, none⟩)
        locks := Function.update s.locks r.message (some (.tx x, q)) } with hs₁
      have hg : Grows b s s₁ := Grows.frame b rfl rfl rfl
      have hc : Committed b s₁ := h.committed.frame rfl rfl rfl fun _ => Nat.le_refl _
      -- The row was this transaction's or nobody's, so that the locks of the others are as they were.
      have hothers : ∀ m who p', who ≠ .tx x → (s₁.locks m = some (who, p') ↔ s.locks m = some (who, p')) := by
        intro m who p' hwho
        rw [hs₁]
        dsimp only
        by_cases hm : m = r.message
        · subst hm
          rw [Function.update_self]
          refine ⟨fun he => ?_, fun he => ?_⟩
          · exact absurd (congrArg Prod.fst (Option.some.inj he)).symm hwho
          · rcases hsees with hlock | ⟨hlock, -⟩
            · rw [hlock] at he
              exact absurd (congrArg Prod.fst (Option.some.inj he)).symm hwho
            · rw [hlock] at he
              contradiction
        · rw [Function.update_of_ne hm]
      -- What is committed is as it was; the transactions, then what each has inserted, then the
      -- versions.
      refine ⟨⟨hc, ⟨fun y t r' ht hr' => ?_, fun y t r' ht hr' => ?_, fun m y p' hlock => ?_⟩,
        h.passes.mono hg h.committed hc rfl (fun m k p' => hothers m _ p' Holder.noConfusion)
          fun _ _ _ _ => rfl⟩, hg⟩
      -- A row that waits for its pointer is another transaction's.
      · rcases update_txs ht with ⟨-, hnew⟩ | ⟨-, ht⟩
        · obtain rfl := Option.some.inj hnew
          contradiction
        · exact h.pending.waiting y t r' ht hr'
      -- The version under the lock reaches the rows that were inserted.
      · rcases update_txs ht with ⟨rfl, hnew⟩ | ⟨hy, ht⟩
        · obtain rfl := Option.some.inj hnew
          rcases List.mem_cons.mp hr' with rfl | hr'
          · refine ⟨hrmem, hrbase, hrlt, q, Function.update_self .., ?_⟩
            rw [hq, Function.update_self]
            exact greatest_right _ _ _ rfl
          -- A row inserted before, at the same message or at another.
          · obtain ⟨hmem, hbase, hlt, p', hlock, hreach⟩ := h.pending.inserted y _ r' htx hr'
            refine ⟨hmem, hbase, hlt, ?_⟩
            by_cases hm : r'.message = r.message
            · have hpp : p' = p := by
                rw [hm] at hlock
                rcases hsees with hlock' | ⟨hlock', -⟩
                · rw [hlock] at hlock'
                  exact congrArg Prod.snd (Option.some.inj hlock')
                · rw [hlock] at hlock'
                  contradiction
              refine ⟨q, ?_, (point_version r'.log).1.reaches (hpp ▸ hreach)⟩
              rw [hs₁]
              dsimp only
              rw [hm, Function.update_self]
            · exact ⟨p', by rw [hs₁]; dsimp only; rw [Function.update_of_ne hm]; exact hlock, hreach⟩
        · obtain ⟨hmem, hbase, hlt, p', hlock, hreach⟩ := h.pending.inserted y t r' ht hr'
          exact ⟨hmem, hbase, hlt, p', (hothers _ _ p' fun he => hy (Holder.tx.inj he)).mpr hlock, hreach⟩
      -- Every version is at what is committed or at a row of its transaction.
      · by_cases hy : y = x
        · subst hy
          refine ⟨_, Function.update_self .., fun log => ?_⟩
          by_cases hm : m = r.message
          · subst hm
            have hpq : p' = q := by
              rw [hs₁] at hlock
              dsimp only at hlock
              rw [Function.update_self] at hlock
              exact (congrArg Prod.snd (Option.some.inj hlock)).symm
            rw [hpq]
            -- What the version was before the append.
            have hbefore : NotBehind (p log) (s.pointers r.message log) ∧
                (p log = s.pointers r.message log ∨
                  ∃ id, p log = some id ∧ ⟨log, id, r.message⟩ ∈ inserted) := by
              rcases hsees with hlock' | ⟨-, rfl⟩
              · obtain ⟨t, ht, hver⟩ := h.pending.version r.message y p hlock'
                rw [htx] at ht
                obtain rfl := Option.some.inj ht
                exact hver log
              · exact ⟨.refl _, .inl rfl⟩
            obtain ⟨hback, hcases⟩ := point_version (p := p) (r := r) log
            refine ⟨hbefore.1.trans hback, ?_⟩
            rcases hcases with hsame | ⟨rfl, hid⟩
            · rcases hbefore.2 with hptr | ⟨id, hid, hmem⟩
              · exact .inl (hsame.trans hptr)
              · exact .inr ⟨id, hsame.trans hid, List.mem_cons_of_mem _ hmem⟩
            · exact .inr ⟨r.id, hid, List.mem_cons_self ..⟩
          · rw [hs₁] at hlock
            dsimp only at hlock
            rw [Function.update_of_ne hm] at hlock
            obtain ⟨t, ht, hver⟩ := h.pending.version m y p' hlock
            rw [htx] at ht
            obtain rfl := Option.some.inj ht
            refine ⟨(hver log).1, (hver log).2.imp_right ?_⟩
            rintro ⟨id, hid, hmem⟩
            exact ⟨id, hid, List.mem_cons_of_mem _ hmem⟩
        · obtain ⟨t, ht, hver⟩ := h.pending.version m y p'
            ((hothers m _ p' fun he => hy (Holder.tx.inj he)).mp hlock)
          exact ⟨t, by rw [hs₁]; dsimp only; rw [Function.update_of_ne hy]; exact ht, hver⟩
    · contradiction
  · contradiction

/-- The locks of the others when one has gone. -/
theorem release_of_ne {who who' : Holder} {m : ℕ} {p : Pair} (hne : who' ≠ who) :
    s.release who m = some (who', p) ↔ s.locks m = some (who', p) := by
  rw [release_some]
  exact ⟨And.left, fun h => ⟨h, hne⟩⟩

/-- What holds of the other transactions when one has gone, and what is committed has not changed for the
rows that they hold. -/
theorem Pending.leave (h : Pending b s) {x : ℕ} (hids : s'.ids = s.ids) (hnext : s'.next = s.next)
    (htxs : s'.txs = Function.update s.txs x none) (hlocks : s'.locks = s.release (.tx x))
    (hpointers : ∀ m y p, y ≠ x → s.locks m = some (.tx y, p) → s'.pointers m = s.pointers m) :
    Pending b s' := by
  have hothers : ∀ y t, s'.txs y = some t → y ≠ x ∧ s.txs y = some t := by
    intro y t ht
    rw [htxs] at ht
    rcases update_txs ht with ⟨-, hnew⟩ | hold
    · contradiction
    · exact hold
  refine ⟨fun y t r ht hr => ?_, fun y t r ht hr => ?_, fun m y p hlock => ?_⟩
  · rw [hids, hnext]
    exact h.waiting y t r (hothers y t ht).2 hr
  · obtain ⟨hy, ht⟩ := hothers y t ht
    obtain ⟨hmem, hbase, hlt, p, hlock, hreach⟩ := h.inserted y t r ht hr
    rw [hids, hnext, hlocks]
    exact ⟨hmem, hbase, hlt, p, (release_of_ne fun he => hy (Holder.tx.inj he)).mpr hlock, hreach⟩
  · rw [hlocks, release_some] at hlock
    obtain ⟨hlock, hne⟩ := hlock
    have hy : y ≠ x := fun he => hne (congrArg Holder.tx he)
    obtain ⟨t, ht, hver⟩ := h.version m y p hlock
    refine ⟨t, ?_, ?_⟩
    · rw [htxs, Function.update_of_ne hy]
      exact ht
    · rw [hpointers m y p hy hlock]
      exact hver

/-- A transaction commits: its rows show, and so do the pointers of the messages that it appended to. -/
theorem State.Inv.commit (h : s.Inv b) {x : ℕ} (hs : step s (.commit x) = some s') :
    s'.Inv b ∧ Grows b s s' := by
  simp only [step] at hs
  split at hs
  · next inserted htx =>
    obtain rfl := Option.some.inj hs
    set s₁ : State := { s with
      pointers := s.settle (.tx x)
      rows := inserted ++ s.rows
      txs := Function.update s.txs x none
      locks := s.release (.tx x) } with hs₁
    -- A row that is committed now is reached by the version that is committed with it.
    have hreached : ∀ r ∈ inserted, Reaches (s.settle (.tx x) r.message r.log) r.id := by
      intro r hr
      obtain ⟨-, -, -, p, hlock, hreach⟩ := h.pending.inserted x _ r htx hr
      rw [settle_of_lock hlock]
      exact hreach
    -- The rows grow, and no pointer falls behind.
    have hg : Grows b s s₁ := by
      refine ⟨fun m hm => hm, fun m hm => .inl hm, fun r hr => List.mem_append_right _ hr, fun r hr => ?_,
        h.settle_notBehind (.tx x)⟩
      rcases List.mem_append.mp hr with hr | hr
      · exact .inr (hreached r hr)
      · exact .inl hr
    -- The committed state.
    have hc : Committed b s₁ := by
      refine ⟨h.committed.pos, h.committed.kept, h.committed.base, fun r hr => ?_, fun r hr hnew => ?_,
        fun r hr hid => ?_, fun m log p hp => ?_⟩
      · rcases List.mem_append.mp hr with hr | hr
        · obtain ⟨hmem, -, hlt, -⟩ := h.pending.inserted x _ r htx hr
          exact ⟨hmem, hlt⟩
        · exact h.committed.known r hr
      · rcases List.mem_append.mp hr with hr | hr
        · exact (h.pending.inserted x _ r htx hr).2.1
        · exact h.committed.fresh r hr hnew
      · rcases List.mem_append.mp hr with hr | hr
        · exact hreached r hr
        · exact (hg.notBehind r.message r.log).reaches (h.committed.reached r hr hid)
      -- A pointer that this transaction has moved names a row of its own.
      · by_cases hmine : ∃ q, s.locks m = some (.tx x, q)
        · obtain ⟨q, hlock⟩ := hmine
          change s.settle (.tx x) m log = some p at hp
          rw [settle_of_lock hlock] at hp
          obtain ⟨t, ht, hver⟩ := h.pending.version m x q hlock
          rw [htx] at ht
          obtain rfl := Option.some.inj ht
          rcases (hver log).2 with hsame | ⟨id, hid, hmem⟩
          · rw [hsame] at hp
            exact List.mem_append_right _ (h.committed.names m log p hp)
          · rw [hid] at hp
            obtain rfl := Option.some.inj hp
            exact List.mem_append_left _ hmem
        · change s.settle (.tx x) m log = some p at hp
          rw [settle_of_ne fun q hlock => hmine ⟨q, hlock⟩] at hp
          exact List.mem_append_right _ (h.committed.names m log p hp)
    -- What the other transactions and the runs of the backfill still hold.
    refine ⟨⟨hc, h.pending.leave rfl rfl rfl rfl fun m y p hy hlock => ?_,
      h.passes.mono hg h.committed hc rfl (fun m k p => release_of_ne Holder.noConfusion)
        fun m k p hlock => ?_⟩, hg⟩
    · refine settle_of_ne fun q hlock' => ?_
      rw [hlock] at hlock'
      exact hy (Holder.tx.inj (congrArg Prod.fst (Option.some.inj hlock')))
    -- A message that a run of the backfill holds gets no row, as the transaction would hold it too.
    · have hnone : ∀ r ∈ inserted, r.message ≠ m := by
        rintro r hr rfl
        obtain ⟨-, -, -, q, hlock', -⟩ := h.pending.inserted x _ r htx hr
        rw [hlock] at hlock'
        exact Holder.noConfusion (congrArg Prod.fst (Option.some.inj hlock'))
      funext log
      rw [hs₁]
      unfold State.newest
      dsimp only
      rw [List.filter_append, List.filter_eq_nil_iff.mpr, List.nil_append]
      intro r hr hcond
      rw [Bool.and_eq_true, decide_eq_true_eq, decide_eq_true_eq] at hcond
      exact hnone r hr hcond.2
  · contradiction

/-- A transaction aborts. -/
theorem State.Inv.abort (h : s.Inv b) {x : ℕ} (hs : step s (.abort x) = some s') :
    s'.Inv b ∧ Grows b s s' := by
  simp only [step] at hs
  obtain rfl := Option.some.inj hs
  set s₁ : State := { s with txs := Function.update s.txs x none, locks := s.release (.tx x) } with hs₁
  have hg : Grows b s s₁ := Grows.frame b rfl rfl rfl
  have hc : Committed b s₁ := h.committed.frame rfl rfl rfl fun _ => Nat.le_refl _
  exact ⟨⟨hc, h.pending.leave rfl rfl rfl rfl fun _ _ _ _ _ => rfl,
    h.passes.mono hg h.committed hc rfl (fun m k p => release_of_ne Holder.noConfusion)
      fun _ _ _ _ => rfl⟩, hg⟩

end Invariant

end JobScripts.Mail.Pointers

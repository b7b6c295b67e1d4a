import JobScripts.Mail.Pointers.Transactions

/-!
# The backfill

A pass reads a chunk and takes its rows; behind it all pointers are right. With this every step keeps the invariant
(`State.Inv.step`).
-/

namespace JobScripts.Mail.Pointers

open Lib

section Invariant

variable {b : Start} {s s' : State}

/-- A step that no transaction takes part in. -/
theorem Pending.frame (h : Pending b s) (hids : s'.ids = s.ids) (hnext : s'.next = s.next)
    (htxs : s'.txs = s.txs)
    (hlocks : ∀ m y p, s'.locks m = some (.tx y, p) ↔ s.locks m = some (.tx y, p))
    (hpointers : ∀ m y p, s.locks m = some (.tx y, p) → s'.pointers m = s.pointers m) : Pending b s' := by
  refine ⟨fun y t r ht hr => ?_, fun y t r ht hr => ?_, fun m y p hlock => ?_⟩
  · rw [htxs] at ht
    rw [hids, hnext]
    exact h.waiting y t r ht hr
  · rw [htxs] at ht
    obtain ⟨hmem, hbase, hlt, p, hlock, hreach⟩ := h.inserted y t r ht hr
    rw [hids, hnext]
    exact ⟨hmem, hbase, hlt, p, (hlocks _ y p).mpr hlock, hreach⟩
  · have hlock' := (hlocks m y p).mp hlock
    rw [htxs, hpointers m y p hlock']
    exact h.version m y p hlock'

/-- A step of one run of the backfill, from what holds of that run after it. -/
theorem Passes.turn (h : Passes b s) {k : ℕ} {f : Option Fill} (hg : Grows b s s') (hold : Committed b s)
    (hc : Committed b s') (hfills : s'.fills = Function.update s.fills k f) (hrows : s'.rows = s.rows)
    (hlocks : ∀ m j p, j ≠ k → (s'.locks m = some (.fill j, p) ↔ s.locks m = some (.fill j, p)))
    (hmine : ∀ m p, s'.locks m = some (.fill k, p) →
      (∃ after chunk newest todo, f = some (.filling after chunk newest todo)) ∧
        ∀ log, p log = s.newest m log)
    (hfilling : ∀ after chunk newest todo, f = some (.filling after chunk newest todo) →
      Filling b s' k after chunk newest todo)
    (hidle : ∀ after, f = some (.idle after) → ∀ m ∈ s'.ids, m ≤ after → ∀ log, s'.Right m log)
    (hdone : f = some .done → ∀ m ∈ s'.ids, ∀ log, s'.Right m log) : Passes b s' := by
  have hnewest : s'.newest = s.newest := by
    unfold State.newest
    rw [hrows]
  have hself : s'.fills k = f := by rw [hfills, Function.update_self]
  have hother : ∀ j, j ≠ k → s'.fills j = s.fills j := by
    intro j hj
    rw [hfills, Function.update_of_ne hj]
  refine ⟨fun m j p hlock => ?_, fun j after chunk newest todo hj => ?_, fun j after hj => ?_,
    fun j hj m hm => ?_⟩
  · rw [hnewest]
    by_cases hk : j = k
    · subst hk
      rw [hself]
      exact hmine m p hlock
    · rw [hother j hk]
      exact h.version m j p ((hlocks m j p hk).mp hlock)
  · by_cases hk : j = k
    · subst hk
      exact hfilling after chunk newest todo (hself ▸ hj)
    · rw [hother j hk] at hj
      exact (h.filling j after chunk newest todo hj).mono hg hold hc fun m p hlock =>
        ⟨p, (hlocks m j p hk).mpr hlock⟩
  · by_cases hk : j = k
    · subst hk
      exact hidle after (hself ▸ hj)
    · rw [hother j hk] at hj
      exact hg.all_right hc (h.idle j after hj)
  · by_cases hk : j = k
    · subst hk
      exact hdone (hself ▸ hj) m hm
    · rw [hother j hk] at hj
      exact hg.all_right hc (P := fun _ => True) (fun m hm _ => h.done j hj m hm) m hm trivial

/-- A run that is in no statement holds no row. -/
theorem Passes.no_lock (h : Passes b s) {k : ℕ}
    (hk : ∀ after chunk newest todo, s.fills k ≠ some (.filling after chunk newest todo)) (m : ℕ) (p : Pair) :
    s.locks m ≠ some (.fill k, p) := by
  intro hlock
  obtain ⟨⟨after, chunk, newest, todo, hfill⟩, -⟩ := h.version m k p hlock
  exact hk after chunk newest todo hfill

/-- A run of the backfill begins. -/
theorem State.Inv.backfill (h : s.Inv b) {k : ℕ} (hs : step s (.backfill k) = some s') :
    s'.Inv b ∧ Grows b s s' := by
  simp only [step] at hs
  split at hs
  · next hnone =>
    obtain rfl := Option.some.inj hs
    set s₁ : State := { s with fills := Function.update s.fills k (some (.idle 0)) } with hs₁
    have hg : Grows b s s₁ := Grows.frame b rfl rfl rfl
    have hc : Committed b s₁ := h.committed.frame rfl rfl rfl fun _ => Nat.le_refl _
    refine ⟨⟨hc, h.pending.frame rfl rfl rfl (fun _ _ _ => Iff.rfl) fun _ _ _ _ => rfl,
      h.passes.turn hg h.committed hc rfl rfl (fun _ _ _ _ => Iff.rfl) (fun m p hlock => ?_)
        (fun _ _ _ _ he => ?_) (fun after he m hm hle => ?_) fun he => ?_⟩, hg⟩
    · refine absurd hlock (h.passes.no_lock (fun _ _ _ _ hk => ?_) m p)
      rw [hnone] at hk
      contradiction
    · exact Fill.noConfusion (Option.some.inj he)
    · have hzero : m = 0 := by
        have := Fill.idle.inj (Option.some.inj he)
        omega
      rw [hzero] at hm
      exact absurd hm h.committed.pos
    · exact Fill.noConfusion (Option.some.inj he)
  · contradiction

/-- Two pairs that are not distinct. -/
theorem eq_of_not_distinct {p q : Pair} (h : ¬p.distinct q = true) (log : Log) : p log = q log := by
  unfold Pair.distinct at h
  rw [Bool.or_eq_true, decide_eq_true_eq, decide_eq_true_eq, not_or, not_not, not_not] at h
  cases log with
  | event => exact h.1
  | match_ => exact h.2

/-- The messages of a chunk. -/
theorem mem_chunk {after limit m : ℕ} (h : m ∈ s.chunk after limit) : m ∈ s.ids ∧ after < m := by
  have hmem := (List.mem_insertionSort _).mp (List.mem_of_mem_take h)
  rw [List.mem_filter, decide_eq_true_eq] at hmem
  exact hmem

/-- A chunk holds every message after the last chunk, up to its own greatest id. -/
theorem chunk_covers {after limit m : ℕ} (hlimit : limit ≠ 0) (hm : m ∈ s.ids) (hafter : after < m)
    (hlast : ∀ last, (s.chunk after limit).max? = some last → m ≤ last) : m ∈ s.chunk after limit := by
  have hmem : m ∈ (s.ids.filter fun m => after < m).insertionSort (· ≤ ·) :=
    (List.mem_insertionSort _).mpr (List.mem_filter.mpr ⟨hm, decide_eq_true hafter⟩)
  have hsorted := List.pairwise_insertionSort (· ≤ ·) (s.ids.filter fun m => after < m)
  unfold State.chunk at hlast ⊢
  set l := (s.ids.filter fun m => after < m).insertionSort (· ≤ ·) with hl
  rw [← List.take_append_drop limit l] at hmem hsorted
  rcases List.mem_append.mp hmem with hin | hout
  · exact hin
  -- Past the limit the message is not smaller than the greatest of the chunk, which it does not pass.
  · have hne : l.take limit ≠ [] := by
      intro hnil
      rcases List.take_eq_nil_iff.mp hnil with hzero | hempty
      · exact hlimit hzero
      · rw [hempty, List.drop_nil] at hout
        exact absurd hout List.not_mem_nil
    cases hmax : (l.take limit).max? with
    | none => exact absurd (List.max?_eq_none_iff.mp hmax) hne
    | some last =>
      have hin := (List.max?_eq_some_iff.mp hmax).1
      have hle : last ≤ m := (List.pairwise_append.mp hsorted).2.2 last hin m hout
      have heq : m = last := Nat.le_antisymm (hlast last hmax) hle
      exact heq ▸ hin

/-- A statement of the backfill reads its chunk and the newest ids. -/
theorem State.Inv.read (h : s.Inv b) {k limit : ℕ} (hs : step s (.read k limit) = some s') :
    s'.Inv b ∧ Grows b s s' := by
  simp only [step] at hs
  split at hs
  · next after hidle =>
    rw [Option.ite_none_left_eq_some] at hs
    obtain ⟨hlimit, hs⟩ := hs
    obtain rfl := Option.some.inj hs
    set todo := (s.chunk after limit).filter fun m => (s.pointers m).distinct (s.newest m) with htodo
    set s₁ : State := { s with
      fills := Function.update s.fills k (some (.filling after (s.chunk after limit) s.newest todo)) } with hs₁
    have hg : Grows b s s₁ := Grows.frame b rfl rfl rfl
    have hc : Committed b s₁ := h.committed.frame rfl rfl rfl fun _ => Nat.le_refl _
    have hfilling : Filling b s₁ k after (s.chunk after limit) s.newest todo := by
      refine ⟨fun m hm => (List.mem_filter.mp hm).1, fun m hm => mem_chunk hm, fun m log p hp => newest_mem hp,
        fun r hr _ => .inl (newest_reaches hr), fun m hm hnot => .inl fun log => ?_,
        h.passes.idle k after hidle, fun m hm _ hafter hlast => chunk_covers hlimit hm hafter hlast⟩
      exact eq_of_not_distinct (fun hd => hnot (List.mem_filter.mpr ⟨hm, hd⟩)) log
    refine ⟨⟨hc, h.pending.frame rfl rfl rfl (fun _ _ _ => Iff.rfl) fun _ _ _ _ => rfl,
      h.passes.turn hg h.committed hc rfl rfl (fun _ _ _ _ => Iff.rfl) (fun m p hlock => ?_)
        (fun _ _ _ _ he => ?_) (fun after he => ?_) fun he => ?_⟩, hg⟩
    · refine absurd hlock (h.passes.no_lock (fun _ _ _ _ hk => ?_) m p)
      rw [hidle] at hk
      exact Fill.noConfusion (Option.some.inj hk)
    · obtain ⟨rfl, rfl, rfl, rfl⟩ := Fill.filling.inj (Option.some.inj he)
      exact hfilling
    · exact Fill.noConfusion (Option.some.inj he)
    · exact Fill.noConfusion (Option.some.inj he)
  · contradiction

/-- A row of the chunk is reached by the newest id of the snapshot and the pointer together, which name rows:
their greatest is the newest id of the log. -/
theorem State.Inv.greatest_newest (h : s.Inv b) {k after m : ℕ} {chunk todo : List ℕ} {newest : ℕ → Pair}
    (hf : Filling b s k after chunk newest todo) (hm : m ∈ chunk) (log : Log) :
    (s.pointers m).greatest (newest m) log = s.newest m log := by
  refine eq_newest (fun q hq => ?_) fun id hrow => ?_
  · rcases greatest_eq (s.pointers m log) (newest m log) with he | he
    · exact h.committed.names m log q (he ▸ hq)
    · exact hf.names m log q (he ▸ hq)
  · rcases hf.reached _ hrow hm with hreach | hreach
    · exact (greatest_right _ _).reaches hreach
    · exact (greatest_left _ _).reaches hreach

/-- `GREATEST` of a value with itself. -/
theorem greatest_self (p : Option ℕ) : greatest p p = p :=
  (greatest_eq p p).elim id id

/-- A statement of the backfill looks at a row. -/
theorem State.Inv.fill (h : s.Inv b) {k m : ℕ} (hs : step s (.fill k m) = some s') :
    s'.Inv b ∧ Grows b s s' := by
  simp only [step] at hs
  split at hs
  · next after chunk newest todo hfill =>
    rw [Option.ite_none_right_eq_some] at hs
    obtain ⟨⟨hm, hfree⟩, hs⟩ := hs
    have hf := h.passes.filling k after chunk newest todo hfill
    have hmax := h.greatest_newest hf (hf.subset m hm)
    have hrest : ∀ m' ∈ chunk, m' ∉ todo.filter (· ≠ m) → m' = m ∨ m' ∉ todo := by
      intro m' _ hnot
      by_cases he : m' = m
      · exact .inl he
      · exact .inr fun hin => hnot (List.mem_filter.mpr ⟨hin, decide_eq_true he⟩)
    split at hs
    -- The row is locked, and its version holds the newest ids.
    · obtain rfl := Option.some.inj hs
      set p := (s.pointers m).greatest (newest m) with hp
      set s₁ : State := { s with
        fills := Function.update s.fills k (some (.filling after chunk newest (todo.filter (· ≠ m))))
        locks := Function.update s.locks m (some (.fill k, p)) } with hs₁
      have hg : Grows b s s₁ := Grows.frame b rfl rfl rfl
      have hc : Committed b s₁ := h.committed.frame rfl rfl rfl fun _ => Nat.le_refl _
      -- The locks of the others, and the run's own that it held before.
      have hothers : ∀ m' who p', who ≠ .fill k →
          (s₁.locks m' = some (who, p') ↔ s.locks m' = some (who, p')) := by
        intro m' who p' hwho
        rw [hs₁]
        dsimp only
        by_cases he : m' = m
        · rw [he, Function.update_self, hfree]
          refine ⟨fun he' => absurd (congrArg Prod.fst (Option.some.inj he')).symm hwho, fun he' => ?_⟩
          contradiction
        · rw [Function.update_of_ne he]
      have hmine : ∀ m' p', s.locks m' = some (.fill k, p') → ∃ p', s₁.locks m' = some (.fill k, p') := by
        intro m' p' hlock
        have he : m' ≠ m := by
          rintro rfl
          rw [hfree] at hlock
          contradiction
        exact ⟨p', by rw [hs₁]; dsimp only; rw [Function.update_of_ne he]; exact hlock⟩
      refine ⟨⟨hc, h.pending.frame rfl rfl rfl (fun m' y p' => hothers m' _ p' Holder.noConfusion)
          fun _ _ _ _ => rfl, h.passes.turn hg h.committed hc rfl rfl
          (fun m' j p' hj => hothers m' _ p' fun he => hj (Holder.fill.inj he)) (fun m' p' hlock => ?_)
          (fun _ _ _ _ he => ?_) (fun after he => ?_) fun he => ?_⟩, hg⟩
      -- The version under the run's lock is the newest.
      · refine ⟨⟨after, chunk, newest, _, rfl⟩, fun log => ?_⟩
        by_cases he : m' = m
        · subst he
          rw [hs₁] at hlock
          dsimp only at hlock
          rw [Function.update_self] at hlock
          have hpp : p = p' := congrArg Prod.snd (Option.some.inj hlock)
          rw [← hpp]
          exact hmax log
        · rw [hs₁] at hlock
          dsimp only at hlock
          rw [Function.update_of_ne he] at hlock
          exact (h.passes.version m' k p' hlock).2 log
      -- What is left to look at.
      · obtain ⟨rfl, rfl, rfl, rfl⟩ := Fill.filling.inj (Option.some.inj he)
        obtain ⟨-, hlater, hnames, hreached, hlooked, hbefore, hcovers⟩ := hf.mono hg h.committed hc hmine
        refine ⟨fun m' hm' => hf.subset m' (List.mem_filter.mp hm').1, hlater, hnames, hreached,
          fun m' hm' hnot => ?_, hbefore, hcovers⟩
        rcases hrest m' hm' hnot with rfl | hnot
        · exact .inr ⟨p, Function.update_self ..⟩
        · exact hlooked m' hm' hnot
      · exact Fill.noConfusion (Option.some.inj he)
      · exact Fill.noConfusion (Option.some.inj he)
    -- The row is as the snapshot would have it, and that is the newest.
    · next hsame =>
      obtain rfl := Option.some.inj hs
      set s₁ : State := { s with
        fills := Function.update s.fills k (some (.filling after chunk newest (todo.filter (· ≠ m)))) } with hs₁
      have hg : Grows b s s₁ := Grows.frame b rfl rfl rfl
      have hc : Committed b s₁ := h.committed.frame rfl rfl rfl fun _ => Nat.le_refl _
      have hright : ∀ log, s₁.Right m log := by
        intro log
        have he := hmax log
        unfold Pair.greatest at he
        rw [← eq_of_not_distinct hsame log, greatest_self] at he
        exact he
      -- No lock is taken, and the message needs none as its pointers are right.
      refine ⟨⟨hc, h.pending.frame rfl rfl rfl (fun _ _ _ => Iff.rfl) fun _ _ _ _ => rfl,
        h.passes.turn hg h.committed hc rfl rfl (fun _ _ _ _ => Iff.rfl) (fun m' p' hlock => ?_)
          (fun _ _ _ _ he => ?_) (fun after he => ?_) fun he => ?_⟩, hg⟩
      · exact ⟨⟨after, chunk, newest, _, rfl⟩, (h.passes.version m' k p' hlock).2⟩
      · obtain ⟨rfl, rfl, rfl, rfl⟩ := Fill.filling.inj (Option.some.inj he)
        obtain ⟨-, hlater, hnames, hreached, hlooked, hbefore, hcovers⟩ :=
          hf.mono hg h.committed hc fun m' p' hlock => ⟨p', hlock⟩
        refine ⟨fun m' hm' => hf.subset m' (List.mem_filter.mp hm').1, hlater, hnames, hreached,
          fun m' hm' hnot => ?_, hbefore, hcovers⟩
        rcases hrest m' hm' hnot with rfl | hnot
        · exact .inl hright
        · exact hlooked m' hm' hnot
      · exact Fill.noConfusion (Option.some.inj he)
      · exact Fill.noConfusion (Option.some.inj he)
  · contradiction

/-- A statement of the backfill commits, and the pass goes on after its chunk, or is over. -/
theorem State.Inv.filled (h : s.Inv b) {k : ℕ} (hs : step s (.filled k) = some s') :
    s'.Inv b ∧ Grows b s s' := by
  simp only [step] at hs
  split at hs
  · next after chunk newest hfill =>
    have hs₁ : { s with
      pointers := s.settle (.fill k)
      fills := Function.update s.fills k (some (chunk.max?.elim .done .idle))
      locks := s.release (.fill k) } = s' := by
      rw [← Option.some.inj hs]
      cases chunk.max? <;> rfl
    subst hs₁
    set s₁ : State := { s with
      pointers := s.settle (.fill k)
      fills := Function.update s.fills k (some (chunk.max?.elim .done .idle))
      locks := s.release (.fill k) } with hs₁
    have hf := h.passes.filling k after chunk newest [] hfill
    have hg : Grows b s s₁ :=
      ⟨fun m hm => hm, fun m hm => .inl hm, fun r hr => hr, fun r hr => .inl hr, h.settle_notBehind (.fill k)⟩
    have hc : Committed b s₁ := by
      refine ⟨h.committed.pos, h.committed.kept, h.committed.base, h.committed.known, h.committed.fresh,
        fun r hr hid => (hg.notBehind _ _).reaches (h.committed.reached r hr hid), fun m log p hp => ?_⟩
      change s.settle (.fill k) m log = some p at hp
      by_cases hmine : ∃ q, s.locks m = some (.fill k, q)
      · obtain ⟨q, hlock⟩ := hmine
        rw [settle_of_lock hlock, (h.passes.version m k q hlock).2 log] at hp
        exact newest_mem hp
      · rw [settle_of_ne fun q hlock => hmine ⟨q, hlock⟩] at hp
        exact h.committed.names m log p hp
    -- Every message of the chunk is right by now, and so is every message before its last.
    have hright : ∀ m ∈ s₁.ids, (∀ last, chunk.max? = some last → m ≤ last) → ∀ log, s₁.Right m log := by
      intro m hm hlast log
      by_cases hnew : m ∈ b.ids
      · by_cases hafter : m ≤ after
        · exact hg.right hc (hf.before m hm hafter log)
        · have hin := hf.covers m hm hnew (Nat.lt_of_not_le hafter) hlast
          rcases hf.looked m hin List.not_mem_nil with hok | ⟨p, hlock⟩
          · exact hg.right hc (hok log)
          · change s.settle (.fill k) m log = s.newest m log
            rw [settle_of_lock hlock]
            exact (h.passes.version m k p hlock).2 log
      · exact hc.right_of_new hnew log
    refine ⟨⟨hc, h.pending.frame rfl rfl rfl (fun m y p => release_of_ne Holder.noConfusion)
      fun m y p hlock => ?_, h.passes.turn hg h.committed hc rfl rfl
        (fun m j p hj => release_of_ne fun he => hj (Holder.fill.inj he)) (fun m p hlock => ?_)
        (fun _ _ _ _ he => ?_) (fun after he m hm hle => hright m hm fun last hlast => ?_)
        fun he m hm => hright m hm fun last hlast => ?_⟩, hg⟩
    · refine settle_of_ne fun q hlock' => ?_
      rw [hlock] at hlock'
      exact Holder.noConfusion (congrArg Prod.fst (Option.some.inj hlock'))
    · exact absurd rfl (release_some.mp hlock).2
    · cases hmax : chunk.max? <;> rw [hmax] at he <;> exact Fill.noConfusion (Option.some.inj he)
    · rw [hlast] at he
      rw [Fill.idle.inj (Option.some.inj he)]
      exact hle
    · rw [hlast] at he
      exact Fill.noConfusion (Option.some.inj he)
  · contradiction

/-- A run of the backfill ends before its pass does. -/
theorem State.Inv.stop (h : s.Inv b) {k : ℕ} (hs : step s (.stop k) = some s') :
    s'.Inv b ∧ Grows b s s' := by
  simp only [step] at hs
  obtain rfl := Option.some.inj hs
  set s₁ : State := { s with fills := Function.update s.fills k none, locks := s.release (.fill k) } with hs₁
  have hg : Grows b s s₁ := Grows.frame b rfl rfl rfl
  have hc : Committed b s₁ := h.committed.frame rfl rfl rfl fun _ => Nat.le_refl _
  refine ⟨⟨hc, h.pending.frame rfl rfl rfl (fun m y p => release_of_ne Holder.noConfusion)
    fun _ _ _ _ => rfl, h.passes.turn hg h.committed hc rfl rfl
      (fun m j p hj => release_of_ne fun he => hj (Holder.fill.inj he))
      (fun m p hlock => absurd rfl (release_some.mp hlock).2)
      (fun _ _ _ _ he => ?_) (fun after he => ?_) fun he => ?_⟩, hg⟩
  · contradiction
  · contradiction
  · contradiction

/-- Every step keeps the invariant, and what is committed grows. -/
theorem State.Inv.step (h : s.Inv b) {a : Act} (hs : Pointers.step s a = some s') :
    s'.Inv b ∧ Grows b s s' := by
  cases a with
  | arrive m => exact h.arrive hs
  | begin x => exact h.begin hs
  | insert x log m => exact h.insert hs
  | point x => exact h.point hs
  | commit x => exact h.commit hs
  | abort x => exact h.abort hs
  | backfill k => exact h.backfill hs
  | read k limit => exact h.read hs
  | fill k m => exact h.fill hs
  | filled k => exact h.filled hs
  | stop k => exact h.stop hs

/-- The invariant holds at the start. -/
theorem Start.inv (b : Start) : b.state.Inv b := by
  refine ⟨⟨b.ids_pos, fun m hm => hm, fun log => Nat.le_refl _, b.rows_known, fun r hr hnew => ?_,
    fun r hr hid => ?_, fun m log p hp => ?_⟩, ⟨fun x t r ht => ?_, fun x t r ht => ?_, fun m x p hlock => ?_⟩,
    ⟨fun m k p hlock => ?_, fun k after chunk newest todo hk => ?_, fun k after hk => ?_, fun k hk => ?_⟩⟩
  · exact absurd (b.rows_known r hr).1 hnew
  · exact absurd (b.rows_known r hr).2 (Nat.not_lt_of_le hid)
  all_goals contradiction

/-- The invariant holds in every state that is reached. -/
theorem Start.run_inv (h : Run Pointers.step Always b.state s) : s.Inv b :=
  h.invariant b.inv fun _ _ _ hi _ hs => (hi.step hs).1

/-- Once all pointers are right they stay so, and those of the messages that are added are right. -/
theorem State.Inv.stay_right (h : s.Inv b) (hright : ∀ m ∈ s.ids, ∀ log, s.Right m log)
    (hrun : Run Pointers.step Always s s') : ∀ m ∈ s'.ids, ∀ log, s'.Right m log := by
  refine (hrun.invariant (I := fun t => t.Inv b ∧ ∀ m ∈ t.ids, ∀ log, t.Right m log) ⟨h, hright⟩ ?_).2
  rintro t a t' ⟨hi, hall⟩ - hs
  obtain ⟨hi', hg⟩ := hi.step hs
  exact ⟨hi', fun m hm => hg.all_right hi'.committed (P := fun _ => True) (fun m hm _ => hall m hm) m hm trivial⟩

end Invariant

end JobScripts.Mail.Pointers

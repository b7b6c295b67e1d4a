import JobScripts.Mail.Pointers.Statements

/-!
# The invariant of the pointers

A pointer of a message that is new, or that was appended to, is the newest row that is committed, and a lock holds at
least what is committed (`State.Inv`). Pointers only go up (`Grows`).
-/

namespace JobScripts.Mail.Pointers

open Lib

/-! ## Pointers that reach -/

section Reaching

variable {p q : Option ℕ} {id : ℕ}

/-- `GREATEST` is one of the two. -/
theorem greatest_eq (p q : Option ℕ) : greatest p q = p ∨ greatest p q = q := by
  cases p with
  | none => exact .inr rfl
  | some a =>
    cases q with
    | none => exact .inl rfl
    | some b =>
      rcases Nat.le_total a b with hle | hle
      · exact .inr (congrArg some (Nat.max_eq_right hle))
      · exact .inl (congrArg some (Nat.max_eq_left hle))

/-- `GREATEST` is not behind the first. -/
theorem greatest_left (p q : Option ℕ) : NotBehind (greatest p q) p := by
  rintro id rfl
  cases q with
  | none => exact ⟨id, rfl, Nat.le_refl _⟩
  | some b => exact ⟨max id b, rfl, Nat.le_max_left _ _⟩

/-- `GREATEST` is not behind the second. -/
theorem greatest_right (p q : Option ℕ) : NotBehind (greatest p q) q := by
  rintro id rfl
  cases p with
  | none => exact ⟨id, rfl, Nat.le_refl _⟩
  | some a => exact ⟨max a id, rfl, Nat.le_max_right _ _⟩

/-- What a pointer reaches, one that is not behind it reaches. -/
theorem NotBehind.reaches (h : NotBehind q p) (hp : Reaches p id) : Reaches q id := by
  obtain ⟨a, rfl, hle⟩ := hp
  obtain ⟨c, rfl, hle'⟩ := h a rfl
  exact ⟨c, rfl, Nat.le_trans hle hle'⟩

/-- A pointer is not behind itself. -/
theorem NotBehind.refl (p : Option ℕ) : NotBehind p p := by
  rintro id rfl
  exact ⟨id, rfl, Nat.le_refl _⟩

/-- Pointers that are not behind one another, in a row. -/
theorem NotBehind.trans {r : Option ℕ} (h : NotBehind q p) (h' : NotBehind r q) : NotBehind r p :=
  fun id hid => h'.reaches (h id hid)

end Reaching

/-! ## The newest row -/

section Newest

variable {s : State} {m : ℕ} {log : Log}

/-- The ids of the rows of a message. -/
theorem mem_newest_ids {id : ℕ} :
    id ∈ (s.rows.filter fun r => r.log = log && r.message = m).map LogRow.id ↔ ⟨log, id, m⟩ ∈ s.rows := by
  rw [List.mem_map]
  constructor
  · rintro ⟨⟨l, i, m'⟩, hr, rfl⟩
    obtain ⟨hmem, hcond⟩ := List.mem_filter.mp hr
    rw [Bool.and_eq_true, decide_eq_true_eq, decide_eq_true_eq] at hcond
    obtain ⟨rfl, rfl⟩ := hcond
    exact hmem
  · intro hmem
    refine ⟨⟨log, id, m⟩, List.mem_filter.mpr ⟨hmem, ?_⟩, rfl⟩
    rw [Bool.and_eq_true, decide_eq_true_eq, decide_eq_true_eq]
    exact ⟨rfl, rfl⟩

/-- The newest id is that of a row. -/
theorem newest_mem {p : ℕ} (h : s.newest m log = some p) : ⟨log, p, m⟩ ∈ s.rows :=
  mem_newest_ids.mp (List.max?_eq_some_iff.mp h).1

/-- The newest id reaches every row. -/
theorem newest_reaches {id : ℕ} (h : ⟨log, id, m⟩ ∈ s.rows) : Reaches (s.newest m log) id := by
  have hmem := mem_newest_ids.mpr h
  cases hmax : s.newest m log with
  | none =>
    rw [State.newest, List.max?_eq_none_iff] at hmax
    rw [hmax] at hmem
    exact absurd hmem List.not_mem_nil
  | some p => exact ⟨p, rfl, (List.max?_eq_some_iff.mp hmax).2 id hmem⟩

/-- A pointer that names a row, if any, and reaches every row is the newest id. -/
theorem eq_newest {p : Option ℕ} (hnames : ∀ q, p = some q → ⟨log, q, m⟩ ∈ s.rows)
    (hreaches : ∀ id, ⟨log, id, m⟩ ∈ s.rows → Reaches p id) : p = s.newest m log := by
  cases p with
  | none =>
    cases hmax : s.newest m log with
    | none => rfl
    | some q =>
      obtain ⟨c, hc, -⟩ := hreaches q (newest_mem hmax)
      contradiction
  | some q =>
    refine (List.max?_eq_some_iff.mpr ⟨mem_newest_ids.mpr (hnames q rfl), fun id hid => ?_⟩).symm
    obtain ⟨c, hc, hle⟩ := hreaches id (mem_newest_ids.mp hid)
    obtain rfl := Option.some.inj hc
    exact hle

end Newest

/-! ## The invariant -/

/-- What holds of the committed rows. Every row since the start is reached by its pointer, and a pointer
names a row. -/
structure Committed (b : Start) (s : State) : Prop where
  pos : 0 ∉ s.ids
  kept : ∀ m ∈ b.ids, m ∈ s.ids
  base : ∀ log, b.next log ≤ s.next log
  known : ∀ r ∈ s.rows, r.message ∈ s.ids ∧ r.id < s.next r.log
  fresh : ∀ r ∈ s.rows, r.message ∉ b.ids → b.next r.log ≤ r.id
  reached : ∀ r ∈ s.rows, b.next r.log ≤ r.id → Reaches (s.pointers r.message r.log) r.id
  names : ∀ m log p, s.pointers m log = some p → ⟨log, p, m⟩ ∈ s.rows

/-- What holds of the rows that are not committed, and of the versions that wait for the commit. -/
structure Pending (b : Start) (s : State) : Prop where
  waiting : ∀ x t r, s.txs x = some t → t.waiting = some r →
    r.message ∈ s.ids ∧ b.next r.log ≤ r.id ∧ r.id < s.next r.log
  inserted : ∀ x t r, s.txs x = some t → r ∈ t.inserted →
    r.message ∈ s.ids ∧ b.next r.log ≤ r.id ∧ r.id < s.next r.log ∧
      ∃ p, s.locks r.message = some (.tx x, p) ∧ Reaches (p r.log) r.id
  version : ∀ m x p, s.locks m = some (.tx x, p) → ∃ t, s.txs x = some t ∧ ∀ log,
    NotBehind (p log) (s.pointers m log) ∧
      (p log = s.pointers m log ∨ ∃ q, p log = some q ∧ ⟨log, q, m⟩ ∈ t.inserted)

/-- What holds of a statement of the backfill: its chunk is after the last one; a row of a message of the
chunk is reached by the snapshot or by the pointer; a message that it has looked at is right, or will be at
the commit. -/
structure Filling (b : Start) (s : State) (k after : ℕ) (chunk : List ℕ) (newest : ℕ → Pair)
    (todo : List ℕ) : Prop where
  subset : ∀ m ∈ todo, m ∈ chunk
  later : ∀ m ∈ chunk, m ∈ s.ids ∧ after < m
  names : ∀ m log p, newest m log = some p → ⟨log, p, m⟩ ∈ s.rows
  reached : ∀ r ∈ s.rows, r.message ∈ chunk →
    Reaches (newest r.message r.log) r.id ∨ Reaches (s.pointers r.message r.log) r.id
  looked : ∀ m ∈ chunk, m ∉ todo → (∀ log, s.Right m log) ∨ ∃ p, s.locks m = some (.fill k, p)
  before : ∀ m ∈ s.ids, m ≤ after → ∀ log, s.Right m log
  covers : ∀ m ∈ s.ids, m ∈ b.ids → after < m → (∀ last, chunk.max? = some last → m ≤ last) → m ∈ chunk

/-- What holds of the runs of the backfill. -/
structure Passes (b : Start) (s : State) : Prop where
  version : ∀ m k p, s.locks m = some (.fill k, p) →
    (∃ after chunk newest todo, s.fills k = some (.filling after chunk newest todo)) ∧
      ∀ log, p log = s.newest m log
  filling : ∀ k after chunk newest todo, s.fills k = some (.filling after chunk newest todo) →
    Filling b s k after chunk newest todo
  idle : ∀ k after, s.fills k = some (.idle after) → ∀ m ∈ s.ids, m ≤ after → ∀ log, s.Right m log
  done : ∀ k, s.fills k = some .done → ∀ m ∈ s.ids, ∀ log, s.Right m log

/-- The invariant. -/
structure State.Inv (b : Start) (s : State) : Prop where
  committed : Committed b s
  pending : Pending b s
  passes : Passes b s

section Invariant

variable {b : Start} {s s' : State}

/-- A pointer is right when it reaches every row. -/
theorem Committed.right (h : Committed b s) {m : ℕ} {log : Log}
    (hreaches : ∀ id, ⟨log, id, m⟩ ∈ s.rows → Reaches (s.pointers m log) id) : s.Right m log :=
  eq_newest (fun q hq => h.names m log q hq) hreaches

/-- A right pointer reaches every row. -/
theorem State.Right.reaches {m : ℕ} {log : Log} (h : s.Right m log) {id : ℕ}
    (hrow : ⟨log, id, m⟩ ∈ s.rows) : Reaches (s.pointers m log) id := by
  unfold State.Right at h
  rw [h]
  exact newest_reaches hrow

/-- The pointers of a message that was stored since the start are right. -/
theorem Committed.right_of_new (h : Committed b s) {m : ℕ} (hnew : m ∉ b.ids) (log : Log) :
    s.Right m log :=
  h.right fun id hrow => h.reached ⟨log, id, m⟩ hrow (h.fresh ⟨log, id, m⟩ hrow hnew)

/-- A pointer since which a row was appended is right: it has moved past every row of the start. -/
theorem Committed.right_of_appended (h : Committed b s) {m id : ℕ} {log : Log}
    (hrow : ⟨log, id, m⟩ ∈ s.rows) (hid : b.next log ≤ id) : s.Right m log := by
  refine h.right fun id' hrow' => ?_
  by_cases hold : b.next log ≤ id'
  · exact h.reached ⟨log, id', m⟩ hrow' hold
  · obtain ⟨q, hq, hle⟩ := h.reached ⟨log, id, m⟩ hrow hid
    exact ⟨q, hq, by dsimp only at hle; omega⟩

/-- The version of a locked row is not behind the committed one. -/
theorem State.Inv.version_notBehind (h : s.Inv b) {m : ℕ} {who : Holder} {p : Pair}
    (hlock : s.locks m = some (who, p)) (log : Log) : NotBehind (p log) (s.pointers m log) := by
  cases who with
  | tx x =>
    obtain ⟨t, -, hver⟩ := h.pending.version m x p hlock
    exact (hver log).1
  | fill k =>
    intro id hid
    rw [(h.passes.version m k p hlock).2 log]
    exact newest_reaches (h.committed.names m log id hid)

/-- The pointers of a row that another one holds, or nobody, stay as they are. -/
theorem settle_of_ne {who : Holder} {m : ℕ} (h : ∀ p, s.locks m ≠ some (who, p)) :
    s.settle who m = s.pointers m := by
  unfold State.settle
  split
  · next h' p hlock =>
    rw [if_neg]
    rintro rfl
    exact h p hlock
  · rfl

/-- The pointers of a row that the holder has. -/
theorem settle_of_lock {who : Holder} {m : ℕ} {p : Pair} (h : s.locks m = some (who, p)) :
    s.settle who m = p := by
  unfold State.settle
  rw [h]
  exact if_pos rfl

/-- The locks after one holder has gone. -/
theorem release_some {who who' : Holder} {m : ℕ} {p : Pair} :
    s.release who m = some (who', p) ↔ s.locks m = some (who', p) ∧ who' ≠ who := by
  unfold State.release
  rw [Option.filter_eq_some_iff, decide_eq_true_eq]

/-- What a commit leaves is not behind what was committed. -/
theorem State.Inv.settle_notBehind (h : s.Inv b) (who : Holder) (m : ℕ) (log : Log) :
    NotBehind (s.settle who m log) (s.pointers m log) := by
  by_cases hmine : ∃ p, s.locks m = some (who, p)
  · obtain ⟨p, hlock⟩ := hmine
    rw [settle_of_lock hlock]
    exact h.version_notBehind hlock log
  · rw [settle_of_ne fun p hlock => hmine ⟨p, hlock⟩]
    exact .refl _

/-! ## Growth -/

/-- What every step keeps: messages that are added are new, rows stay, a row that is added is reached by its
pointer, and no pointer moves back. -/
structure Grows (b : Start) (s s' : State) : Prop where
  kept : ∀ m ∈ s.ids, m ∈ s'.ids
  ids : ∀ m ∈ s'.ids, m ∈ s.ids ∨ m ∉ b.ids
  rows : ∀ r ∈ s.rows, r ∈ s'.rows
  reached : ∀ r ∈ s'.rows, r ∈ s.rows ∨ Reaches (s'.pointers r.message r.log) r.id
  notBehind : ∀ m log, NotBehind (s'.pointers m log) (s.pointers m log)

/-- A step that leaves what is committed alone. -/
theorem Grows.frame (b : Start) (hids : s'.ids = s.ids) (hpointers : s'.pointers = s.pointers)
    (hrows : s'.rows = s.rows) : Grows b s s' := by
  refine ⟨fun m hm => hids ▸ hm, fun m hm => .inl (hids ▸ hm), fun r hr => hrows ▸ hr, fun r hr => .inl (hrows ▸ hr),
    fun m log => ?_⟩
  rw [hpointers]
  exact .refl _

/-- A step that leaves what is committed alone, and draws ids at most. -/
theorem Committed.frame (h : Committed b s) (hids : s'.ids = s.ids) (hpointers : s'.pointers = s.pointers)
    (hrows : s'.rows = s.rows) (hnext : ∀ log, s.next log ≤ s'.next log) : Committed b s' := by
  refine ⟨?_, ?_, fun log => Nat.le_trans (h.base log) (hnext log), ?_, ?_, ?_, ?_⟩
  · rw [hids]
    exact h.pos
  · rw [hids]
    exact h.kept
  · intro r hr
    rw [hrows] at hr
    rw [hids]
    exact ⟨(h.known r hr).1, Nat.lt_of_lt_of_le (h.known r hr).2 (hnext r.log)⟩
  · rw [hrows]
    exact h.fresh
  · rw [hrows, hpointers]
    exact h.reached
  · rw [hrows, hpointers]
    exact h.names

/-- A right pointer stays right. -/
theorem Grows.right (hg : Grows b s s') (hc : Committed b s') {m : ℕ} {log : Log} (h : s.Right m log) :
    s'.Right m log := by
  refine hc.right fun id hrow => ?_
  rcases hg.reached _ hrow with hold | hreach
  · exact (hg.notBehind m log).reaches (h.reaches hold)
  · exact hreach

/-- So do the pointers of all messages up to some point, as a message that is added has right pointers. -/
theorem Grows.all_right (hg : Grows b s s') (hc : Committed b s') {P : ℕ → Prop}
    (h : ∀ m ∈ s.ids, P m → ∀ log, s.Right m log) : ∀ m ∈ s'.ids, P m → ∀ log, s'.Right m log := by
  intro m hm hP log
  rcases hg.ids m hm with hold | hnew
  · exact hg.right hc (h m hold hP log)
  · exact hc.right_of_new hnew log

/-- What holds of a statement of the backfill is kept by whatever others do. -/
theorem Filling.mono {k after : ℕ} {chunk todo : List ℕ} {newest : ℕ → Pair}
    (h : Filling b s k after chunk newest todo) (hg : Grows b s s') (hold : Committed b s)
    (hc : Committed b s')
    (hlocks : ∀ m p, s.locks m = some (.fill k, p) → ∃ p', s'.locks m = some (.fill k, p')) :
    Filling b s' k after chunk newest todo := by
  refine ⟨h.subset, fun m hm => ⟨hg.kept m (h.later m hm).1, (h.later m hm).2⟩, fun m log p hp => hg.rows _ (h.names m log p hp),
    fun r hr hm => ?_, fun m hm hnot => ?_, hg.all_right hc h.before, fun m _ hb => h.covers m (hold.kept m hb) hb⟩
  · rcases hg.reached r hr with hrow | hreach
    · exact (h.reached r hrow hm).imp_right (hg.notBehind r.message r.log).reaches
    · exact .inr hreach
  · rcases h.looked m hm hnot with hright | ⟨p, hlock⟩
    · exact .inl fun log => hg.right hc (hright log)
    · exact .inr (hlocks m p hlock)

/-- A step that no run of the backfill takes part in. -/
theorem Passes.mono (h : Passes b s) (hg : Grows b s s') (hold : Committed b s) (hc : Committed b s')
    (hfills : s'.fills = s.fills)
    (hlocks : ∀ m k p, s'.locks m = some (.fill k, p) ↔ s.locks m = some (.fill k, p))
    (hnewest : ∀ m k p, s.locks m = some (.fill k, p) → s'.newest m = s.newest m) : Passes b s' := by
  refine ⟨fun m k p hlock => ?_, fun k after chunk newest todo hk => ?_, fun k after hk => ?_,
    fun k hk m hm => ?_⟩
  · have hlock' := (hlocks m k p).mp hlock
    rw [hfills, hnewest m k p hlock']
    exact h.version m k p hlock'
  · rw [hfills] at hk
    exact (h.filling k after chunk newest todo hk).mono hg hold hc fun m p hlock =>
      ⟨p, (hlocks m k p).mpr hlock⟩
  · rw [hfills] at hk
    exact hg.all_right hc (h.idle k after hk)
  · rw [hfills] at hk
    exact hg.all_right hc (P := fun _ => True) (fun m hm _ => h.done k hk m hm) m hm trivial

end Invariant

end JobScripts.Mail.Pointers

import JobScripts.Lib.Run
import Mathlib.Data.List.Nodup

/-!
# Receipts of collected results

`checkpoint` writes a receipt for every collected result, and a result that is collected again
leaves its receipt alone. A handler then consumes its results in transactions that lock receipts,
make the domain writes of those that are pending, and acknowledge them: one receipt at a time with
`consume_result`, a chunk at a time with `consume_results`.

The state holds the receipts, the domain writes that are committed, and any number of transactions,
each at one of its statements; what an open transaction has written is its own until it commits.
Rows are locked one by one, in any order, and a lock is waited for; the outcome is the one read
under the lock. `consumed_exactly_once` proves, over every run, that the domain writes of a receipt
and its outcome are committed together and once, and that `unconsumed` returns what is left.
-/

namespace JobScripts.Queue.Receipts

open Lib

/-- The primary key of a receipt: `provider_batch_id` and `custom_id`. -/
abbrev Key := String × String

/-- A collected result, with the response that its receipt keeps. -/
structure BatchResult (R : Type) where
  batch_id : String
  custom_id : String
  response : R
  model : Option String

/-- A row of `batch_result_receipts`. -/
structure Row (R : Type) where
  key : Key
  task_id : ℕ
  response : R
  model : Option String
  outcome : Option String := none
  consumed_at : Option ℕ := none

/-- What `consume_result` yields for a result. -/
structure Receipt where
  pending : Bool
  outcome : String

variable {R W : Type}

/-- The key of a result. -/
def BatchResult.key (result : BatchResult R) : Key := (result.batch_id, result.custom_id)

/-- The receipt loop of `checkpoint`: `ON CONFLICT DO NOTHING`, then the check that the receipt is
the task's; `none` is the error that rolls the transaction back. -/
def storeReceipts (task_id : ℕ) : List (BatchResult R) → List (Row R) → Option (List (Row R))
  | [], rows => some rows
  | result :: rest, rows =>
    match rows.find? fun r => r.key = result.key with
    | none =>
      storeReceipts task_id rest
        (rows ++ [{ key := result.key, task_id, response := result.response,
                    model := result.model }])
    | some owner => if owner.task_id = task_id then storeReceipts task_id rest rows else none

/-- `Receipt(pending=…, outcome=row["outcome"] or "processed")`: a receipt out of its row. -/
def Receipt.of (outcome : Option String) (pending : Bool) : Receipt :=
  ⟨pending, if outcome.getD "" = "" then "processed" else outcome.getD ""⟩

/-- Keys are compared text by text. -/
instance lawfulBEq_key : LawfulBEq (String × String) := inferInstance

/-- The receipts that line up with the results of a chunk. A result collected twice is pending only
the first time; `none` is the error for a result without a receipt. -/
def lineUp (outcomes : List (Key × Option String)) : List Key → List Key →
    Option (List (Key × Receipt))
  | _, [] => some []
  | seen, key :: keys =>
    match outcomes.find? fun row => row.1 = key with
    | none => none
    | some (_, outcome) =>
      (lineUp outcomes (key :: seen) keys).map fun rest =>
        (key, .of outcome (outcome.isNone && key ∉ seen)) :: rest

/-- A consumer's body: it decides the outcome and the domain writes of each pending receipt, in
order, and leaves the others alone; `none` is an exception. -/
def consumeBody (plan : Key → Option (String × W)) : List (Key × Receipt) →
    Option (List (Key × Receipt) × List (Key × W))
  | [] => some ([], [])
  | (key, receipt) :: rest =>
    if receipt.pending then
      match plan key, consumeBody plan rest with
      | some (outcome, writes), some (receipts, written) =>
        some ((key, { receipt with outcome }) :: receipts, (key, writes) :: written)
      | _, _ => none
    else
      (consumeBody plan rest).map fun out => ((key, receipt) :: out.1, out.2)

/-- The receipts to acknowledge, with their outcomes. -/
def acknowledged (receipts : List (Key × Receipt)) : List (Key × String) :=
  (receipts.filter (·.2.pending)).map fun kr => (kr.1, kr.2.outcome)

/-- The acknowledging `UPDATE`. -/
def acknowledge (task_id now : ℕ) (acks : List (Key × String)) (row : Row R) : Row R :=
  match acks.find? fun a => a.1 = row.key with
  | some (_, outcome) =>
    if row.task_id = task_id then
      { row with outcome := some outcome, consumed_at := some now }
    else row
  | none => row

/-- The statement a consuming transaction is at. -/
inductive Phase (W : Type)
  /-- The `SELECT … FOR UPDATE`, with the rows left to lock. -/
  | locking (toLock : List Key)
  /-- The receipts are yielded to the body. -/
  | consuming (receipts : List (Key × Receipt))
  /-- The body has ended; the receipts are to be acknowledged. -/
  | acknowledging (receipts : List (Key × Receipt)) (written : List (Key × W))
  /-- The `UPDATE` is made; the transaction is to commit. -/
  | committing (acks : List (Key × String)) (written : List (Key × W))

/-- A consuming transaction: the results it was called with, the outcomes it has read under its
locks, and where it is. -/
structure Tx (W : Type) where
  task_id : ℕ
  keys : List Key
  outcomes : List (Key × Option String)
  phase : Phase W

/-- The receipts and the consumers. -/
structure State (R W : Type) where
  receipts : List (Row R)
  /-- The domain writes that are committed, by the receipt they were made for. -/
  domain : List (Key × W)
  /-- The transaction that holds the lock of a row. -/
  locks : Key → Option ℕ
  txs : ℕ → Option (Tx W)

/-- Nothing collected yet. -/
def State.empty : State R W := ⟨[], [], fun _ => none, fun _ => none⟩

/-- The receipt of a key. -/
def State.receipt (s : State R W) (key : Key) : Option (Row R) :=
  s.receipts.find? fun r => r.key = key

/-- The outcome of a receipt, if it has one. -/
def State.outcome (s : State R W) (key : Key) : Option String :=
  (s.receipt key).bind (·.outcome)

/-- The committed domain writes of a receipt, one entry for each time they were made. -/
def State.writes (s : State R W) (key : Key) : List (Key × W) :=
  s.domain.filter fun e => e.1 = key

/-- `unconsumed`, in the key order `le` of the database. -/
def unconsumed (le : Key → Key → Bool) (s : State R W) (task_id : ℕ) : List (Row R) :=
  (s.receipts.filter fun r => r.task_id = task_id ∧ r.consumed_at = none).mergeSort
    fun r r' => le r.key r'.key

/-- A transaction goes on. -/
def State.put (s : State R W) (i : ℕ) (t : Tx W) : State R W :=
  { s with txs := Function.update s.txs i (some t) }

/-- A transaction ends, and its locks are released. -/
def State.close (s : State R W) (i : ℕ) : State R W :=
  { s with
    locks := fun key => if s.locks key = some i then none else s.locks key
    txs := Function.update s.txs i none }

/-- What a transaction that commits has done: its acknowledgements and its domain writes. -/
def State.apply (s : State R W) (task_id now : ℕ) (acks : List (Key × String))
    (written : List (Key × W)) : State R W :=
  { s with
    receipts := s.receipts.map (acknowledge task_id now acks)
    domain := s.domain ++ written }

/-- What can happen next. -/
inductive Act (R W : Type)
  /-- `checkpoint`, one transaction. -/
  | checkpoint (task_id : ℕ) (results : List (BatchResult R))
  /-- `consume_result` opens its transaction. -/
  | consumeResult (i task_id : ℕ) (key : Key)
  /-- `consume_results` opens its transaction. -/
  | consumeResults (i task_id : ℕ) (keys : List Key)
  /-- A transaction gets the lock of a row, and reads its outcome. -/
  | lock (i : ℕ) (key : Key)
  /-- The rows are locked, and the receipts are yielded. -/
  | yield (i : ℕ)
  /-- The body runs. -/
  | body (i : ℕ) (plan : Key → Option (String × W))
  /-- The receipts are acknowledged. -/
  | acknowledge (i : ℕ)
  /-- The transaction commits. -/
  | commit (i now : ℕ)
  /-- The worker dies, or the transaction fails for any other reason. -/
  | abort (i : ℕ)

/-- A transaction opens: its `SELECT` sees the receipts of the task that there are. -/
def State.open (s : State R W) (i task_id : ℕ) (keys : List Key) : Option (State R W) :=
  if (s.txs i).isNone then
    let seen := keys.dedup.filter fun key => (s.receipt key).any fun r => r.task_id = task_id
    some (s.put i ⟨task_id, keys, [], .locking seen⟩)
  else none

/-- One step. -/
def step (s : State R W) : Act R W → Option (State R W)
  | .checkpoint task_id results =>
    if results.any fun result => result.batch_id = "" then none
    else (storeReceipts task_id results s.receipts).map fun receipts => { s with receipts }
  | .consumeResult i task_id key => s.open i task_id [key]
  | .consumeResults i task_id keys => s.open i task_id keys
  | .lock i key =>
    match s.txs i, s.receipt key with
    | some ⟨task_id, keys, outcomes, .locking toLock⟩, some row =>
      if key ∈ toLock ∧ s.locks key = none then
        some ({ s with locks := Function.update s.locks key (some i) }.put i
          ⟨task_id, keys, (key, row.outcome) :: outcomes, .locking (toLock.erase key)⟩)
      else none
    | _, _ => none
  | .yield i =>
    match s.txs i with
    | some ⟨task_id, keys, outcomes, .locking []⟩ =>
      match lineUp outcomes [] keys with
      | some receipts => some (s.put i ⟨task_id, keys, outcomes, .consuming receipts⟩)
      | none => some (s.close i)
    | _ => none
  | .body i plan =>
    match s.txs i with
    | some ⟨task_id, keys, outcomes, .consuming receipts⟩ =>
      match consumeBody plan receipts with
      | some (receipts, written) =>
        some (s.put i ⟨task_id, keys, outcomes, .acknowledging receipts written⟩)
      | none => some (s.close i)
    | _ => none
  | .acknowledge i =>
    match s.txs i with
    | some ⟨task_id, keys, outcomes, .acknowledging receipts written⟩ =>
      some (s.put i ⟨task_id, keys, outcomes, .committing (acknowledged receipts) written⟩)
    | _ => none
  | .commit i now =>
    match s.txs i with
    | some ⟨task_id, _, _, .committing acks written⟩ =>
      some ((s.apply task_id now acks written).close i)
    | _ => none
  | .abort i => if (s.txs i).isSome then some (s.close i) else none

/-! ## What each operation does -/

/-- A row found by its key has that key. -/
theorem State.key_of_receipt {s : State R W} {key : Key} {row : Row R}
    (h : s.receipt key = some row) : row.key = key := by
  simpa using List.find?_some h

/-- A receipt loop that goes through keeps every row, and adds rows of the task that are not
consumed, under new keys. -/
theorem storeReceipts_spec {task_id : ℕ} :
    ∀ {results : List (BatchResult R)} {rows rows' : List (Row R)},
      storeReceipts task_id results rows = some rows' → (rows.map (·.key)).Nodup →
        (rows'.map (·.key)).Nodup ∧ ∃ added, rows' = rows ++ added ∧
          ∀ r ∈ added, r.outcome = none ∧ r.consumed_at = none ∧ r.task_id = task_id
  | [], rows, rows', h, hnd => by
    obtain rfl : rows = rows' := by simpa [storeReceipts] using h
    exact ⟨hnd, [], by simp⟩
  | result :: rest, rows, rows', h, hnd => by
    unfold storeReceipts at h
    split at h
    next hnone =>
      have hnew : result.key ∉ rows.map (·.key) := by
        intro hmem
        obtain ⟨r, hr, hkey⟩ := List.mem_map.mp hmem
        exact absurd hkey (by simpa using List.find?_eq_none.mp hnone r hr)
      obtain ⟨hnd', added, rfl, hadded⟩ := storeReceipts_spec h (by
        rw [List.map_append, List.nodup_append]
        refine ⟨hnd, by simp, fun a ha b hb => ?_⟩
        obtain rfl : b = result.key := by simpa using hb
        exact fun heq => hnew (heq ▸ ha))
      refine ⟨hnd', _ :: added, by rw [List.append_assoc, List.singleton_append], fun r hr => ?_⟩
      rcases List.mem_cons.mp hr with rfl | hr
      · exact ⟨rfl, rfl, rfl⟩
      · exact hadded r hr
    next owner howner =>
      split at h
      · exact storeReceipts_spec h hnd
      · contradiction

/-- The keys of the pending receipts. -/
def pendingKeys (receipts : List (Key × Receipt)) : List Key :=
  (receipts.filter (·.2.pending)).map (·.1)

/-- The keys of the pending receipts, one receipt further. -/
theorem pendingKeys_cons (key : Key) (receipt : Receipt) (rest : List (Key × Receipt)) :
    pendingKeys ((key, receipt) :: rest) =
      if receipt.pending then key :: pendingKeys rest else pendingKeys rest := by
  unfold pendingKeys
  by_cases hp : receipt.pending = true
  · rw [List.filter_cons, if_pos hp, if_pos hp, List.map_cons]
  · rw [List.filter_cons, if_neg hp, if_neg hp]

/-- A pending receipt was read without an outcome, and is the first of its key. -/
theorem lineUp_spec {outcomes : List (Key × Option String)} :
    ∀ {seen keys : List Key} {receipts : List (Key × Receipt)},
      lineUp outcomes seen keys = some receipts →
        (pendingKeys receipts).Nodup ∧
          ∀ key ∈ pendingKeys receipts, (key, none) ∈ outcomes ∧ key ∉ seen
  | _, [], receipts, h => by
    obtain rfl : [] = receipts := by simpa [lineUp] using h
    simp [pendingKeys]
  | seen, key :: keys, receipts, h => by
    unfold lineUp at h
    split at h
    · contradiction
    next key' outcome hfind =>
      obtain ⟨rest, hrest, rfl⟩ := Option.map_eq_some_iff.mp h
      obtain ⟨hnd, hall⟩ := lineUp_spec hrest
      obtain rfl : key' = key := by simpa using List.find?_some hfind
      have hmem := List.mem_of_find?_eq_some hfind
      have hout : ∀ k ∈ pendingKeys rest, (k, none) ∈ outcomes ∧ k ∉ seen ∧ k ≠ key' := by
        intro k hk
        obtain ⟨ho, hseen⟩ := hall k hk
        rw [List.mem_cons, not_or] at hseen
        exact ⟨ho, hseen.2, hseen.1⟩
      have hof : (Receipt.of outcome (outcome.isNone && key' ∉ seen)).pending =
          (outcome.isNone && key' ∉ seen) := rfl
      rw [pendingKeys_cons, hof]
      by_cases hp : (outcome.isNone && key' ∉ seen) = true
      · rw [if_pos hp]
        simp only [Bool.and_eq_true, Option.isNone_iff_eq_none, decide_eq_true_eq] at hp
        refine ⟨List.nodup_cons.mpr ⟨fun hk => (hout _ hk).2.2 rfl, hnd⟩, fun k hk => ?_⟩
        rcases List.mem_cons.mp hk with rfl | hk
        · exact ⟨hp.1 ▸ hmem, hp.2⟩
        · exact ⟨(hout k hk).1, (hout k hk).2.1⟩
      · rw [if_neg hp]
        exact ⟨hnd, fun k hk => ⟨(hout k hk).1, (hout k hk).2.1⟩⟩

/-- A body that ends without an exception writes for the pending receipts, each once, and leaves
them pending. -/
theorem consumeBody_spec {plan : Key → Option (String × W)} :
    ∀ {receipts receipts' : List (Key × Receipt)} {written : List (Key × W)},
      consumeBody plan receipts = some (receipts', written) →
        pendingKeys receipts' = pendingKeys receipts ∧ written.map (·.1) = pendingKeys receipts
  | [], receipts', written, h => by
    obtain ⟨rfl, rfl⟩ : [] = receipts' ∧ [] = written := by simpa [consumeBody] using h
    exact ⟨rfl, rfl⟩
  | (key, receipt) :: rest, receipts', written, h => by
    unfold consumeBody at h
    by_cases hp : receipt.pending = true
    · rw [if_pos hp] at h
      split at h
      next outcome writes receipts₁ written₁ _ hrest =>
        obtain ⟨rfl, rfl⟩ := Prod.mk.inj (Option.some.inj h)
        obtain ⟨hkeys, hwritten⟩ := consumeBody_spec hrest
        rw [pendingKeys_cons, pendingKeys_cons, if_pos hp, if_pos hp, List.map_cons, hkeys, hwritten]
        exact ⟨rfl, rfl⟩
      next => contradiction
    · rw [if_neg hp] at h
      obtain ⟨⟨receipts₁, written₁⟩, hrest, heq⟩ := Option.map_eq_some_iff.mp h
      obtain ⟨rfl, rfl⟩ := Prod.mk.inj heq
      obtain ⟨hkeys, hwritten⟩ := consumeBody_spec hrest
      rw [pendingKeys_cons, pendingKeys_cons, if_neg hp, if_neg hp]
      exact ⟨hkeys, hwritten⟩

/-- The keys of the acknowledgements are those of the pending receipts. -/
theorem acknowledged_keys (receipts : List (Key × Receipt)) :
    (acknowledged receipts).map (·.1) = pendingKeys receipts := by
  unfold acknowledged pendingKeys
  rw [List.map_map]
  rfl

/-- The acknowledgement keeps what identifies a row. -/
theorem acknowledge_key (task_id now : ℕ) (acks : List (Key × String)) (row : Row R) :
    (acknowledge task_id now acks row).key = row.key ∧
      (acknowledge task_id now acks row).task_id = row.task_id := by
  unfold acknowledge
  split
  · split <;> exact ⟨rfl, rfl⟩
  · exact ⟨rfl, rfl⟩

/-- A row that is not named is not acknowledged. -/
theorem acknowledge_of_notMem {task_id now : ℕ} {acks : List (Key × String)} {row : Row R}
    (h : row.key ∉ acks.map (·.1)) : acknowledge task_id now acks row = row := by
  unfold acknowledge
  have hnone : (acks.find? fun a => a.1 = row.key) = none := by
    rw [List.find?_eq_none]
    intro a ha heq
    exact h (List.mem_map.mpr ⟨a, ha, by simpa using heq⟩)
  rw [hnone]

/-- The outcome and the stamp are written together. -/
theorem acknowledge_stamped {task_id now : ℕ} {acks : List (Key × String)} {row : Row R}
    (h : row.consumed_at = none ↔ row.outcome = none) :
    (acknowledge task_id now acks row).consumed_at = none ↔
      (acknowledge task_id now acks row).outcome = none := by
  unfold acknowledge
  split
  · split
    · simp
    · exact h
  · exact h

/-- A row of the task that is named gets an outcome. -/
theorem acknowledge_of_mem {task_id now : ℕ} {acks : List (Key × String)} {row : Row R}
    (h : row.key ∈ acks.map (·.1)) (htask : row.task_id = task_id) :
    (acknowledge task_id now acks row).outcome ≠ none := by
  obtain ⟨a, ha, hkey⟩ := List.mem_map.mp h
  unfold acknowledge
  split
  · rw [if_pos htask]
    simp
  next hnone => exact absurd hkey (by simpa using List.find?_eq_none.mp hnone a ha)

/-! ## The invariant -/

/-- The keys are distinct, and were read without an outcome under the transaction's locks. -/
def Owed (t : Tx W) (keys : List Key) : Prop :=
  keys.Nodup ∧ ∀ key ∈ keys, (key, none) ∈ t.outcomes

/-- What holds of a transaction at each statement: from the yield on, it writes and acknowledges for
the same keys, and they are owed. -/
def PhaseOk (s : State R W) (t : Tx W) : Prop :=
  match t.phase with
  | .locking toLock =>
    ∀ key ∈ toLock, ∃ row, s.receipt key = some row ∧ row.task_id = t.task_id
  | .consuming receipts => Owed t (pendingKeys receipts)
  | .acknowledging receipts written =>
    Owed t (pendingKeys receipts) ∧ written.map (·.1) = pendingKeys receipts
  | .committing acks written =>
    Owed t (written.map (·.1)) ∧ acks.map (·.1) = written.map (·.1)

/-- A transaction holds the lock of every row it has read, and the row is still as it read it. -/
structure TxOk (s : State R W) (i : ℕ) (t : Tx W) : Prop where
  held : ∀ key outcome, (key, outcome) ∈ t.outcomes → s.locks key = some i ∧
    ∃ row, s.receipt key = some row ∧ row.task_id = t.task_id ∧ row.outcome = outcome
  phase : PhaseOk s t

/-- The receipts and the domain writes in lock-step. -/
structure Consistent (s : State R W) : Prop where
  nodup : (s.receipts.map (·.key)).Nodup
  stamped : ∀ r ∈ s.receipts, r.consumed_at = none ↔ r.outcome = none
  once : ∀ key, (s.writes key).length = if s.outcome key = none then 0 else 1
  txs : ∀ i t, s.txs i = some t → TxOk s i t

/-- What a step may do around a transaction: its locks and the rows under them stay, and no receipt
is lost or changes hands. -/
structure Around (s s' : State R W) (i : ℕ) : Prop where
  held : ∀ key row, s.locks key = some i → s.receipt key = some row →
    s'.locks key = some i ∧ s'.receipt key = some row
  kept : ∀ key row, s.receipt key = some row →
    ∃ row', s'.receipt key = some row' ∧ row'.task_id = row.task_id

/-- A transaction is not disturbed by what is done around it. -/
theorem TxOk.around {s s' : State R W} {i : ℕ} {t : Tx W} (h : TxOk s i t) (ha : Around s s' i) :
    TxOk s' i t := by
  refine ⟨fun key outcome hmem => ?_, ?_⟩
  · obtain ⟨hlock, row, hrow, hrest⟩ := h.held key outcome hmem
    obtain ⟨hlock', hrow'⟩ := ha.held key row hlock hrow
    exact ⟨hlock', row, hrow', hrest⟩
  · have hphase := h.phase
    unfold PhaseOk at hphase ⊢
    split
    next toLock hlocking =>
      rw [hlocking] at hphase
      intro key hkey
      obtain ⟨row, hrow, htask⟩ := hphase key hkey
      obtain ⟨row', hrow', htask'⟩ := ha.kept key row hrow
      exact ⟨row', hrow', htask'.trans htask⟩
    next hlocking => simpa only [hlocking] using hphase
    next hlocking => simpa only [hlocking] using hphase
    next hlocking => simpa only [hlocking] using hphase

/-- A transaction that is replaced, and the others left alone. -/
theorem Consistent.put {s : State R W} (h : Consistent s) {i : ℕ} {t : Tx W} (ht : TxOk s i t) :
    Consistent (s.put i t) := by
  have haround : ∀ j, Around s (s.put i t) j := fun j =>
    ⟨fun key row hk hr => ⟨hk, hr⟩, fun key row hr => ⟨row, hr, rfl⟩⟩
  refine ⟨h.nodup, h.stamped, h.once, fun j t' hj => ?_⟩
  by_cases hij : j = i
  · subst hij
    obtain rfl : t = t' := by simpa [State.put] using hj
    exact ht.around (haround j)
  · exact (h.txs j t' (by simpa [State.put, Function.update_of_ne hij] using hj)).around (haround j)

/-- A transaction that ends leaves the others alone. -/
theorem Consistent.close {s : State R W} (h : Consistent s) (i : ℕ) : Consistent (s.close i) := by
  refine ⟨h.nodup, h.stamped, h.once, fun j t hj => ?_⟩
  by_cases hij : j = i
  · subst hij
    simp [State.close] at hj
  · refine (h.txs j t (by simpa [State.close, Function.update_of_ne hij] using hj)).around
      ⟨fun key row hk hr => ⟨?_, hr⟩, fun key row hr => ⟨row, hr, rfl⟩⟩
    simp only [State.close, hk]
    rw [if_neg]
    exact fun heq => hij (Option.some.inj heq)

/-- A checkpoint changes no receipt that is there, and the new ones have no outcome. -/
theorem Consistent.checkpoint {s : State R W} (h : Consistent s) {task_id : ℕ}
    {results : List (BatchResult R)} {rows : List (Row R)}
    (hrows : storeReceipts task_id results s.receipts = some rows) :
    Consistent { s with receipts := rows } ∧
      ∀ key, State.outcome { s with receipts := rows } key = s.outcome key := by
  obtain ⟨hnd, added, rfl, hadded⟩ := storeReceipts_spec hrows h.nodup
  have hreceipt : ∀ key, State.receipt { s with receipts := s.receipts ++ added } key =
      (s.receipt key).or (added.find? fun r => r.key = key) := fun key => List.find?_append
  have hkept : ∀ key row, s.receipt key = some row →
      State.receipt { s with receipts := s.receipts ++ added } key = some row := by
    intro key row hrow
    rw [hreceipt, hrow, Option.some_or]
  have houtcome : ∀ key,
      State.outcome { s with receipts := s.receipts ++ added } key = s.outcome key := by
    intro key
    unfold State.outcome
    cases hrow : s.receipt key with
    | some row => rw [hkept key row hrow]
    | none =>
      rw [hreceipt, hrow, Option.none_or, Option.bind_none]
      cases hnew : added.find? fun r => r.key = key with
      | none => rfl
      | some row => exact (hadded row (List.mem_of_find?_eq_some hnew)).1
  refine ⟨⟨hnd, fun r hr => ?_, fun key => ?_, fun i t ht => ?_⟩, houtcome⟩
  · rcases List.mem_append.mp hr with hr | hr
    · exact h.stamped r hr
    · obtain ⟨ho, hc, -⟩ := hadded r hr
      exact iff_of_true hc ho
  · rw [houtcome]
    exact h.once key
  · exact (h.txs i t ht).around
      ⟨fun key row hk hr => ⟨hk, hkept key row hr⟩, fun key row hr => ⟨row, hkept key row hr, rfl⟩⟩

/-- A transaction may take a lock that is free, and read the row under it. -/
theorem Consistent.lock {s : State R W} (h : Consistent s) {i : ℕ} {task_id : ℕ} {keys : List Key}
    {outcomes : List (Key × Option String)} {toLock : List Key} {key : Key} {row : Row R}
    (ht : s.txs i = some ⟨task_id, keys, outcomes, .locking toLock⟩)
    (hrow : s.receipt key = some row) (hmem : key ∈ toLock) (hfree : s.locks key = none) :
    Consistent ({ s with locks := Function.update s.locks key (some i) }.put i
      ⟨task_id, keys, (key, row.outcome) :: outcomes, .locking (toLock.erase key)⟩) := by
  have hlock : ∀ j key', s.locks key' = some j →
      Function.update s.locks key (some i) key' = some j := by
    intro j key' hj
    have hne : key' ≠ key := by
      rintro rfl
      rw [hfree] at hj
      contradiction
    rwa [Function.update_of_ne hne]
  have haround : ∀ j, Around s { s with locks := Function.update s.locks key (some i) } j :=
    fun j => ⟨fun key' row' hj hr => ⟨hlock j key' hj, hr⟩, fun key' row' hr => ⟨row', hr, rfl⟩⟩
  have hs : Consistent { s with locks := Function.update s.locks key (some i) } :=
    ⟨h.nodup, h.stamped, h.once, fun j t hj => (h.txs j t hj).around (haround j)⟩
  obtain ⟨hheld, hphase⟩ := hs.txs i _ ht
  refine hs.put ⟨fun key' outcome hmem' => ?_, fun key' hkey' => ?_⟩
  · rcases List.mem_cons.mp hmem' with heq | hmem'
    · obtain ⟨rfl, rfl⟩ := Prod.mk.inj heq
      obtain ⟨row', hrow', htask⟩ := hphase key' hmem
      obtain rfl : row = row' := Option.some.inj (hrow.symm.trans hrow')
      exact ⟨Function.update_self .., row, hrow, htask, rfl⟩
    · exact hheld key' outcome hmem'
  · exact hphase key' (List.mem_of_mem_erase hkey')

/-- The rows after a commit. -/
theorem State.receipt_apply (s : State R W) (task_id now : ℕ) (acks : List (Key × String))
    (written : List (Key × W)) (key : Key) :
    (s.apply task_id now acks written).receipt key =
      (s.receipt key).map (acknowledge task_id now acks) := by
  unfold State.receipt State.apply
  rw [List.find?_map]
  congr 2
  funext r
  simp only [Function.comp_apply, (acknowledge_key task_id now acks r).1]

/-- Writes made for distinct receipts are one for each. -/
theorem length_filter_key_of_nodup {written : List (Key × W)} (hnd : (written.map (·.1)).Nodup)
    (key : Key) :
    (written.filter fun e => e.1 = key).length = if key ∈ written.map (·.1) then 1 else 0 := by
  rw [← hnd.count, List.count, List.countP_map, List.countP_eq_length_filter]
  congr 2
  funext e
  simp [beq_eq_decide]

/-- A commit sets the outcome of exactly the receipts it makes writes for, which had none. -/
theorem TxOk.outcome_apply {s : State R W} {i : ℕ} {t : Tx W} (ht : TxOk s i t)
    {acks : List (Key × String)} {written : List (Key × W)}
    (hphase : t.phase = .committing acks written) (now : ℕ) (key : Key) :
    (key ∈ written.map (·.1) →
      s.outcome key = none ∧ (s.apply t.task_id now acks written).outcome key ≠ none) ∧
    (key ∉ written.map (·.1) →
      (s.apply t.task_id now acks written).receipt key = s.receipt key) := by
  have hok := ht.phase
  unfold PhaseOk at hok
  rw [hphase] at hok
  obtain ⟨⟨-, howed⟩, hkeys⟩ := hok
  refine ⟨fun hmem => ?_, fun hmem => ?_⟩
  · obtain ⟨-, row, hrow, htask, hnone⟩ := ht.held key none (howed key hmem)
    unfold State.outcome
    rw [State.receipt_apply, hrow, Option.map_some, Option.bind_some, Option.bind_some]
    refine ⟨hnone, acknowledge_of_mem ?_ htask⟩
    rw [State.key_of_receipt hrow, hkeys]
    exact hmem
  · rw [State.receipt_apply]
    cases hrow : s.receipt key with
    | none => rfl
    | some row =>
      rw [Option.map_some, acknowledge_of_notMem]
      rw [State.key_of_receipt hrow, hkeys]
      exact hmem

/-- A commit keeps the receipts and the domain writes in lock-step. -/
theorem Consistent.commit {s : State R W} (h : Consistent s) {i : ℕ} {t : Tx W}
    (ht : s.txs i = some t) {acks : List (Key × String)} {written : List (Key × W)}
    (hphase : t.phase = .committing acks written) (now : ℕ) :
    Consistent ((s.apply t.task_id now acks written).close i) := by
  have hok := h.txs i t ht
  have hout := hok.outcome_apply hphase now
  have hphase' := hok.phase
  unfold PhaseOk at hphase'
  rw [hphase] at hphase'
  obtain ⟨⟨hnd, howed⟩, hkeys⟩ := hphase'
  -- The others' locks are on other rows, which the acknowledgement leaves alone.
  have haround : ∀ j, j ≠ i → Around s ((s.apply t.task_id now acks written).close i) j := by
    intro j hj
    refine ⟨fun key row hk hr => ⟨?_, ?_⟩,
      fun key row hr => ⟨acknowledge t.task_id now acks row, ?_, (acknowledge_key ..).2⟩⟩
    · simp only [State.close, State.apply, hk]
      exact if_neg fun heq => hj (Option.some.inj heq)
    · refine ((hout key).2 fun hmem => ?_).trans hr
      obtain ⟨hlock, -⟩ := hok.held key none (howed key hmem)
      exact hj (Option.some.inj (hk.symm.trans hlock))
    · exact (s.receipt_apply t.task_id now acks written key).trans (by rw [hr, Option.map_some])
  refine ⟨?_, fun r hr => ?_, fun key => ?_, fun j t' hj => ?_⟩
  · have hmap : (s.receipts.map (acknowledge t.task_id now acks)).map (·.key) =
        s.receipts.map (·.key) := by
      rw [List.map_map]
      exact List.map_congr_left fun r _ => (acknowledge_key ..).1
    exact hmap ▸ h.nodup
  · obtain ⟨r₀, hr₀, rfl⟩ := List.mem_map.mp hr
    exact acknowledge_stamped (h.stamped r₀ hr₀)
  · have hwrites : ((s.apply t.task_id now acks written).close i).writes key =
        s.writes key ++ written.filter fun e => e.1 = key := List.filter_append ..
    have houtcome : ((s.apply t.task_id now acks written).close i).outcome key =
        (s.apply t.task_id now acks written).outcome key := rfl
    rw [hwrites, List.length_append, length_filter_key_of_nodup hnd, h.once key, houtcome]
    by_cases hmem : key ∈ written.map (·.1)
    · obtain ⟨hnone, hsome⟩ := (hout key).1 hmem
      rw [if_pos hmem, if_pos hnone, if_neg hsome]
    · have hsame : (s.apply t.task_id now acks written).outcome key = s.outcome key := by
        unfold State.outcome
        rw [(hout key).2 hmem]
      rw [if_neg hmem, hsame, Nat.add_zero]
  · have hij : j ≠ i := by
      rintro rfl
      simp [State.close] at hj
    have hj' : s.txs j = some t' := by
      simpa [State.close, State.apply, Function.update_of_ne hij] using hj
    exact (h.txs j t' hj').around (haround j hij)

/-! ## Runs -/

/-- A transaction may open. -/
theorem Consistent.open {s s' : State R W} (h : Consistent s) {i task_id : ℕ} {keys : List Key}
    (hs : s.open i task_id keys = some s') : Consistent s' := by
  unfold State.open at hs
  split at hs
  · obtain rfl := Option.some.inj hs
    refine h.put ⟨by simp, fun key hkey => ?_⟩
    obtain ⟨-, hany⟩ := List.mem_filter.mp hkey
    obtain ⟨row, hrow, htask⟩ := (Option.any_eq_true _ _).mp hany
    exact ⟨row, hrow, by simpa using htask⟩
  · contradiction

/-- One step keeps the receipts and the domain writes in lock-step. -/
theorem consistent_step (s : State R W) (a : Act R W) (s' : State R W) (h : Consistent s)
    (hs : step s a = some s') : Consistent s' := by
  cases a with
  | checkpoint task_id results =>
    simp only [step, Option.ite_none_left_eq_some, Option.map_eq_some_iff] at hs
    obtain ⟨-, rows, hrows, rfl⟩ := hs
    exact (h.checkpoint hrows).1
  | consumeResult i task_id key => exact h.open hs
  | consumeResults i task_id keys => exact h.open hs
  -- A consumer takes its locks one by one, then is given its receipts or turned away.
  | lock i key =>
    unfold step at hs
    dsimp only at hs
    split at hs
    next task_id keys outcomes toLock row ht hrow =>
      simp only [Option.ite_none_right_eq_some, Option.some.injEq] at hs
      obtain ⟨⟨hmem, hfree⟩, rfl⟩ := hs
      exact h.lock ht hrow hmem hfree
    next => contradiction
  | yield i =>
    unfold step at hs
    dsimp only at hs
    split at hs
    next task_id keys outcomes ht =>
      have hok := h.txs i _ ht
      split at hs
      next receipts hline =>
        obtain rfl := Option.some.inj hs
        obtain ⟨hnd, hall⟩ := lineUp_spec hline
        exact h.put ⟨hok.held, hnd, fun key hkey => (hall key hkey).1⟩
      next =>
        obtain rfl := Option.some.inj hs
        exact h.close i
    next => contradiction
  -- The caller's body decides the outcomes and writes its rows.
  | body i plan =>
    unfold step at hs
    dsimp only at hs
    split at hs
    next task_id keys outcomes receipts ht =>
      have hok := h.txs i _ ht
      split at hs
      next receipts' written hbody =>
        obtain rfl := Option.some.inj hs
        obtain ⟨hkeys, hwritten⟩ := consumeBody_spec hbody
        refine h.put ⟨hok.held, ?_, ?_⟩
        · rw [hkeys]
          exact hok.phase
        · rw [hkeys]
          exact hwritten
      next =>
        obtain rfl := Option.some.inj hs
        exact h.close i
    next => contradiction
  | acknowledge i =>
    unfold step at hs
    dsimp only at hs
    split at hs
    next task_id keys outcomes receipts written ht =>
      obtain rfl := Option.some.inj hs
      obtain ⟨hheld, howed, hwritten⟩ := h.txs i _ ht
      refine h.put ⟨hheld, ?_, ?_⟩
      · rw [hwritten]
        exact howed
      · rw [hwritten]
        exact acknowledged_keys receipts
    next => contradiction
  -- Only the commit makes anything of it visible.
  | commit i now =>
    unfold step at hs
    dsimp only at hs
    split at hs
    next task_id keys outcomes acks written ht =>
      obtain rfl := Option.some.inj hs
      exact h.commit ht rfl now
    next => contradiction
  | abort i =>
    simp only [step, Option.ite_none_right_eq_some, Option.some.injEq] at hs
    obtain ⟨-, rfl⟩ := hs
    exact h.close i

/-- Every state of a run is consistent. -/
theorem consistent_of_run {s : State R W} (h : Run step Always .empty s) : Consistent s :=
  h.invariant (by constructor <;> simp [State.empty, State.writes, State.outcome, State.receipt])
    fun s a s' hs _ => consistent_step s a s' hs

/-- What one step does to a receipt: it leaves its outcome and its committed writes alone, or it
sets the first and adds to the second. -/
theorem step_effect {s s' : State R W} {a : Act R W} (h : Consistent s) (hs : step s a = some s')
    (key : Key) :
    (s'.writes key = s.writes key ∧ s'.outcome key = s.outcome key) ∨
      (∃ w, s'.writes key = s.writes key ++ [(key, w)]) ∧ s.outcome key = none ∧
        s'.outcome key ≠ none := by
  cases a with
  | checkpoint task_id results =>
    simp only [step, Option.ite_none_left_eq_some, Option.map_eq_some_iff] at hs
    obtain ⟨-, rows, hrows, rfl⟩ := hs
    exact .inl ⟨rfl, (h.checkpoint hrows).2 key⟩
  | consumeResult | consumeResults =>
    simp only [step, State.open, Option.ite_none_right_eq_some, Option.some.injEq] at hs
    obtain ⟨-, rfl⟩ := hs
    exact .inl ⟨rfl, rfl⟩
  | lock i key' =>
    unfold step at hs
    dsimp only at hs
    split at hs
    · simp only [Option.ite_none_right_eq_some, Option.some.injEq] at hs
      obtain ⟨-, rfl⟩ := hs
      exact .inl ⟨rfl, rfl⟩
    · contradiction
  | yield | body =>
    unfold step at hs
    dsimp only at hs
    split at hs
    · split at hs <;> obtain rfl := Option.some.inj hs <;> exact .inl ⟨rfl, rfl⟩
    · contradiction
  | acknowledge i =>
    unfold step at hs
    dsimp only at hs
    split at hs
    · obtain rfl := Option.some.inj hs
      exact .inl ⟨rfl, rfl⟩
    · contradiction
  | commit i now =>
    unfold step at hs
    dsimp only at hs
    split at hs
    next task_id keys outcomes acks written ht =>
      obtain rfl := Option.some.inj hs
      have hok := h.txs i _ ht
      have hnd : (written.map (·.1)).Nodup := hok.phase.1.1
      have hwrites : ((s.apply task_id now acks written).close i).writes key =
          s.writes key ++ written.filter fun e => e.1 = key := List.filter_append ..
      have hlen := length_filter_key_of_nodup hnd key
      rw [hwrites]
      by_cases hmem : key ∈ written.map (·.1)
      · rw [if_pos hmem] at hlen
        obtain ⟨⟨key', w⟩, he⟩ := List.length_eq_one_iff.mp hlen
        have hkey : (key', w) ∈ written.filter fun e => e.1 = key := by rw [he]; simp
        obtain rfl : key' = key := by simpa using (List.mem_filter.mp hkey).2
        exact .inr ⟨⟨w, by rw [he]⟩, (hok.outcome_apply rfl now key').1 hmem⟩
      · rw [if_neg hmem, List.length_eq_zero_iff] at hlen
        refine .inl ⟨by rw [hlen, List.append_nil], ?_⟩
        exact congrArg (Option.bind · Row.outcome) ((hok.outcome_apply rfl now key).2 hmem)
    next => contradiction
  | abort i =>
    simp only [step, Option.ite_none_right_eq_some, Option.some.injEq] at hs
    obtain ⟨-, rfl⟩ := hs
    exact .inl ⟨rfl, rfl⟩

/-- A receipt is unconsumed exactly when none of its writes are committed. -/
theorem Consistent.consumed_at_eq_none_iff {s : State R W} (h : Consistent s) {r : Row R}
    (hr : r ∈ s.receipts) : r.consumed_at = none ↔ s.writes r.key = [] := by
  have hreceipt : s.receipt r.key = some r := by
    cases hfind : s.receipt r.key with
    | none => simpa using List.find?_eq_none.mp hfind r hr
    | some r' =>
      have hmem : r' ∈ s.receipts := List.mem_of_find?_eq_some hfind
      rw [List.inj_on_of_nodup_map h.nodup hmem hr (State.key_of_receipt hfind)]
  have hout : s.outcome r.key = r.outcome := by
    unfold State.outcome
    rw [hreceipt, Option.bind_some]
  have hlen := h.once r.key
  rw [hout] at hlen
  rw [h.stamped r hr, ← List.length_eq_zero_iff, hlen]
  by_cases hnone : r.outcome = none
  · rw [if_pos hnone]
    exact iff_of_true hnone rfl
  · rw [if_neg hnone]
    exact iff_of_false hnone Nat.one_ne_zero

/-- Each collected result is consumed exactly once. In every state of every run: the domain writes
of a receipt are committed at most once; a step commits them if and only if it sets the outcome of
the receipt; an outcome, once set, never changes; and `unconsumed` returns exactly the receipts of
the task whose writes are not committed. -/
theorem consumed_exactly_once {s : State R W} (h : Run step Always .empty s) :
    (∀ key, (s.writes key).length ≤ 1) ∧
      (∀ a s' key, step s a = some s' →
        (s'.writes key ≠ s.writes key ↔ s.outcome key = none ∧ s'.outcome key ≠ none)) ∧
      (∀ a s' key outcome, step s a = some s' → s.outcome key = some outcome →
        s'.outcome key = some outcome) ∧
      ∀ le task_id, (unconsumed le s task_id).Perm
        (s.receipts.filter fun r => r.task_id = task_id ∧ (s.writes r.key).isEmpty) := by
  have hc := consistent_of_run h
  refine ⟨fun key => ?_, fun a s' key hs => ?_, fun a s' key outcome hs ho => ?_,
    fun le task_id => ?_⟩
  · rw [hc.once]
    split
    · exact Nat.zero_le _
    · exact Nat.le_refl 1
  · rcases step_effect hc hs key with ⟨hw, ho⟩ | ⟨⟨w, hw⟩, hnone, hsome⟩
    · rw [hw, ho]
      exact iff_of_false (fun hne => hne rfl) fun hne => hne.2 hne.1
    · rw [hw]
      exact iff_of_true (by simp) ⟨hnone, hsome⟩
  · rcases step_effect hc hs key with ⟨-, ho'⟩ | ⟨-, hnone, -⟩
    · rw [ho', ho]
    · rw [ho] at hnone
      contradiction
  · refine (List.mergeSort_perm _ _).trans (List.Perm.of_eq ?_)
    refine List.filter_congr fun r hr => ?_
    rw [decide_eq_decide, hc.consumed_at_eq_none_iff hr, List.isEmpty_iff]

/-- A result is collected twice. One worker consumes it in a chunk that names it twice, while a
second waits for its lock; the second then finds it consumed. -/
def twoConsumersRun : List (Act Unit String) :=
  let key := ("batch_1", "https://example.com/job")
  let result : BatchResult Unit := ⟨key.1, key.2, (), some "gpt-5-mini"⟩
  let plan := fun _ => some ("written", "verdict")
  [.checkpoint 1 [result], .consumeResults 1 1 [key, key], .checkpoint 1 [result],
    .consumeResult 2 1 key, .lock 1 key, .yield 1, .body 1 plan, .acknowledge 1, .commit 1 5,
    .lock 2 key, .yield 2, .body 2 plan, .acknowledge 2, .commit 2 6]

/-- After `twoConsumersRun` the result has its outcome, its writes are committed once, and nothing
is left to consume. -/
theorem consumed_exactly_once_two_consumers :
    ∃ s, runList step .empty twoConsumersRun = some s ∧
      s.outcome ("batch_1", "https://example.com/job") = some "written" ∧
      (s.writes ("batch_1", "https://example.com/job")).length ≤ 1 ∧
      ∀ le, unconsumed le s 1 = [] := by
  have hrun : runList step .empty twoConsumersRun =
      some ((runList step .empty twoConsumersRun).get (by decide)) := by simp
  have h := consumed_exactly_once (run_of_runList hrun)
  refine ⟨_, hrun, by decide, h.1 _, fun le => ?_⟩
  refine List.perm_nil.mp ((h.2.2.2 le 1).trans (List.Perm.of_eq ?_))
  rfl

end JobScripts.Queue.Receipts

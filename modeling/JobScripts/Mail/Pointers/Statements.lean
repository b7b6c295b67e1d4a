import Mathlib.Data.List.Sort
import JobScripts.Lib.Run

/-!
# The current pointers of a message

`email_events` and `application_matches` are append-only, and `email_messages` holds the newest id of each
(`current_event_id`, `current_match_id`). `events.append` and `match.record` insert a row and move the pointer
in one statement; `fill_batch` of `tasks/mail/pointers.py` brings the pointers of older messages up.

Any number of transactions are in flight, under READ COMMITTED. A statement that appends draws its id from a
sequence, then waits for the row of its message and compares with the pointer that is committed by then; what
it wrote shows when its transaction commits. A statement of the backfill reads its chunk and the newest ids
from one snapshot, then takes the rows one by one, in any order and each when it is free, and looks at a row
again when it has changed since the snapshot. Transactions may abort at any time.

The pointers of the logs are moved alike, so that a state holds a pointer for each `Log`.
-/

namespace JobScripts.Mail.Pointers

open Lib

/-! ## Pointers -/

/-- The two logs. -/
inductive Log
  /-- `email_events`. -/
  | event
  /-- `application_matches`. -/
  | match_
  deriving DecidableEq

/-- `GREATEST`, which passes over nulls. -/
def greatest : Option ℕ → Option ℕ → Option ℕ
  | some a, some b => some (max a b)
  | some a, none => some a
  | none, b => b

/-- The pointer is not behind the id. -/
def Reaches (p : Option ℕ) (id : ℕ) : Prop := ∃ q, p = some q ∧ id ≤ q

/-- The pointer is not behind another one. -/
def NotBehind (p q : Option ℕ) : Prop := ∀ id, q = some id → Reaches p id

/-- The two pointers of a message. -/
abbrev Pair := Log → Option ℕ

/-- `GREATEST` on both columns. -/
def Pair.greatest (p q : Pair) : Pair := fun log => Pointers.greatest (p log) (q log)

/-- `IS DISTINCT FROM` on one column or the other. -/
def Pair.distinct (p q : Pair) : Bool := p .event ≠ q .event || p .match_ ≠ q .match_

/-! ## States -/

/-- A row of a log: its id and its message. -/
structure LogRow where
  log : Log
  id : ℕ
  message : ℕ
  deriving DecidableEq

/-- A transaction that appends: the rows it has inserted, and the one whose pointer it still has to move. -/
structure Tx where
  inserted : List LogRow
  waiting : Option LogRow

/-- A run of the backfill. -/
inductive Fill
  /-- Before the statement for the ids after this one. -/
  | idle (after : ℕ)
  /-- In the statement: the chunk, the newest ids of its snapshot, and the rows still to look at. -/
  | filling (after : ℕ) (chunk : List ℕ) (newest : ℕ → Pair) (todo : List ℕ)
  /-- The pass is over. -/
  | done

/-- Whether the pass is over. -/
def Fill.isDone : Fill → Bool
  | .done => true
  | .idle _ | .filling .. => false

/-- A pass that is over. -/
theorem Fill.eq_done {fill : Fill} (h : fill.isDone = true) : fill = .done := by
  cases fill <;> first | rfl | contradiction

/-- Who holds the lock of a message row. -/
inductive Holder
  | tx (x : ℕ)
  | fill (k : ℕ)
  deriving DecidableEq

/-- What is committed (the ids of the messages, their pointers, the logs), the sequences, and what is in
flight, with the new version of each row that is locked. -/
structure State where
  ids : List ℕ
  pointers : ℕ → Pair
  rows : List LogRow
  next : Log → ℕ
  txs : ℕ → Option Tx
  fills : ℕ → Option Fill
  locks : ℕ → Option (Holder × Pair)

/-- `max(id)` over the rows of a message in a log. -/
def State.newest (s : State) (m : ℕ) : Pair := fun log =>
  ((s.rows.filter fun r => r.log = log && r.message = m).map LogRow.id).max?

/-- The pointer of a message is the newest row of its log. -/
def State.Right (s : State) (m : ℕ) (log : Log) : Prop := s.pointers m log = s.newest m log

/-! ## Steps -/

/-- What can happen next. -/
inductive Act
  /-- A message is stored. -/
  | arrive (m : ℕ)
  /-- A transaction begins. -/
  | begin (x : ℕ)
  /-- `append` or `record` inserts its row. -/
  | insert (x : ℕ) (log : Log) (m : ℕ)
  /-- It has the row of the message, and moves the pointer. -/
  | point (x : ℕ)
  /-- Its transaction commits. -/
  | commit (x : ℕ)
  /-- Its transaction aborts. -/
  | abort (x : ℕ)
  /-- `handle_backfill_mail_pointers` begins. -/
  | backfill (k : ℕ)
  /-- `fill_batch` reads its chunk and the newest ids. -/
  | read (k limit : ℕ)
  /-- It looks at a row of its chunk. -/
  | fill (k m : ℕ)
  /-- The statement is over, and committed. -/
  | filled (k : ℕ)
  /-- The run ends before its pass does. -/
  | stop (k : ℕ)

/-- `SELECT id FROM email_messages WHERE id > after ORDER BY id LIMIT limit`: the next ids in order. -/
def State.chunk (s : State) (after limit : ℕ) : List ℕ :=
  ((s.ids.filter fun m => after < m).insertionSort (· ≤ ·)).take limit

/-- The pointers that a transaction, or a run, leaves when it commits. -/
def State.settle (s : State) (who : Holder) : ℕ → Pair := fun m =>
  match s.locks m with
  | some (h, p) => if h = who then p else s.pointers m
  | none => s.pointers m

/-- The locks without those of one holder. -/
def State.release (s : State) (who : Holder) : ℕ → Option (Holder × Pair) := fun m =>
  (s.locks m).filter fun l => l.1 ≠ who

/-- The version of a row that a transaction sees when it may lock it: its own, or the committed one. -/
def State.version (s : State) (x m : ℕ) : Option Pair :=
  match s.locks m with
  | some (h, p) => if h = .tx x then some p else none
  | none => some (s.pointers m)

/-- One step. -/
def step (s : State) : Act → Option State
  | .arrive m =>
    if m ∈ s.ids ∨ m = 0 then none
    else some { s with ids := s.ids ++ [m], pointers := Function.update s.pointers m fun _ => none }
  | .begin x =>
    match s.txs x with
    | none => some { s with txs := Function.update s.txs x (some ⟨[], none⟩) }
    | some _ => none
  | .insert x log m =>
    match s.txs x with
    | some ⟨inserted, none⟩ =>
      if m ∈ s.ids then
        -- The sequence is not part of the transaction.
        let r : LogRow := ⟨log, s.next log, m⟩
        some { s with
          next := Function.update s.next log (s.next log + 1)
          txs := Function.update s.txs x (some ⟨inserted, some r⟩) }
      else none
    | _ => none
  | .point x =>
    match s.txs x with
    | some ⟨inserted, some r⟩ =>
      match s.version x r.message with
      | some p =>
        -- The version is the committed one at this moment, or this transaction's own.
        some { s with
          txs := Function.update s.txs x (some ⟨r :: inserted, none⟩)
          locks := Function.update s.locks r.message
            (some (.tx x, Function.update p r.log (greatest (p r.log) (some r.id)))) }
      | none => none
    | _ => none
  | .commit x =>
    match s.txs x with
    | some ⟨inserted, none⟩ =>
      some { s with
        pointers := s.settle (.tx x)
        rows := inserted ++ s.rows
        txs := Function.update s.txs x none
        locks := s.release (.tx x) }
    | _ => none
  | .abort x =>
    some { s with txs := Function.update s.txs x none, locks := s.release (.tx x) }
  | .backfill k =>
    match s.fills k with
    | none => some { s with fills := Function.update s.fills k (some (.idle 0)) }
    | some _ => none
  | .read k limit =>
    match s.fills k with
    | some (.idle after) =>
      if limit = 0 then none
      else
        let chunk := s.chunk after limit
        some { s with
          fills := Function.update s.fills k (some (.filling after chunk s.newest
            (chunk.filter fun m => (s.pointers m).distinct (s.newest m)))) }
    | _ => none
  | .fill k m =>
    match s.fills k with
    | some (.filling after chunk newest todo) =>
      if m ∈ todo ∧ s.locks m = none then
        let rest : Option Fill := some (.filling after chunk newest (todo.filter (· ≠ m)))
        -- The row is looked at again as it is committed now.
        if (s.pointers m).distinct (newest m) then
          some { s with
            fills := Function.update s.fills k rest
            locks := Function.update s.locks m (some (.fill k, (s.pointers m).greatest (newest m))) }
        else some { s with fills := Function.update s.fills k rest }
      else none
    | _ => none
  | .filled k =>
    match s.fills k with
    | some (.filling _ chunk _ []) =>
      some { s with
        pointers := s.settle (.fill k)
        fills := Function.update s.fills k (some (match chunk.max? with
          | some last => .idle last
          | none => .done))
        locks := s.release (.fill k) }
    | _ => none
  | .stop k =>
    some { s with fills := Function.update s.fills k none, locks := s.release (.fill k) }

/-- What was there when the pointers were added: messages, all pointers null, and rows of both logs whose ids
the sequences have given. -/
structure Start where
  ids : List ℕ
  rows : List LogRow
  next : Log → ℕ
  ids_pos : 0 ∉ ids
  rows_known : ∀ r ∈ rows, r.message ∈ ids ∧ r.id < next r.log

/-- Nothing is in flight. -/
def Start.state (b : Start) : State :=
  ⟨b.ids, fun _ _ => none, b.rows, b.next, fun _ => none, fun _ => none, fun _ => none⟩

end JobScripts.Mail.Pointers

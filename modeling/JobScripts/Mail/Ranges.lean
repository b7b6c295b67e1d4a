import JobScripts.Lib.Text
import JobScripts.Mail.Gmail
import Mathlib.Algebra.Order.BigOperators.Group.List
import Mathlib.Data.List.Perm.Basic
import Mathlib.Tactic.Ring

/-!
# A traversal by one worker

`_split_epoch` splits a range that has more than one page, at the clock's reading when both its ends
are open, across zero and then by doubling when one is. A traversal starts from `[[null, null]]` and
ends when nothing is pending and no range is left. `Scan` is one with a single worker, which may be
interrupted at any statement and called again, and counts what it does; the mailbox does not change.

Splitting stops because an open range that still holds a message cannot have gone far beyond the
messages: `cost` counts the seconds from the open range's end to a bound on twice every message's
second. `potential` adds what a worker still has to do, and every statement lowers it
(`potential_lt`). What was made pending and what the ranges still hold are together the mailbox
(`Scan.Inv`).
-/

namespace JobScripts.Mail.Gmail

open Lib

/-! ## Splitting one range -/

/-- An epoch second is strictly inside a range. -/
def Range.inside (r : Range) (epoch : ℤ) : Prop :=
  (∀ start_epoch ∈ r.1, start_epoch < epoch) ∧ ∀ end_epoch ∈ r.2, epoch < end_epoch

/-- The half before the midpoint, and the half from it. -/
def Range.halves (r : Range) (midpoint : ℤ) : Range × Range :=
  ((r.1, some midpoint), (some midpoint, r.2))

/-- `_split_epoch` gives no midpoint exactly to a range of a single second or less. -/
theorem splitEpoch_eq_none_iff {now : ℤ} {r : Range} :
    splitEpoch now r = none ↔
      ∃ start_epoch end_epoch, r = (some start_epoch, some end_epoch) ∧ end_epoch - start_epoch ≤ 1 := by
  obtain ⟨_ | a, _ | b⟩ := r <;> simp [splitEpoch]

/-- A midpoint is strictly inside the range. -/
theorem inside_of_splitEpoch {now midpoint : ℤ} {r : Range} (h : splitEpoch now r = some midpoint) :
    r.inside midpoint := by
  obtain ⟨_ | a, _ | b⟩ := r
  · simp [Range.inside]
  · obtain rfl : b - (max 1 b.natAbs : ℕ) = midpoint := by simpa [splitEpoch] using h
    refine ⟨nofun, fun b' hb' => ?_⟩
    obtain rfl : b = b' := by simpa using hb'
    omega
  · obtain rfl : a + (max 1 a.natAbs : ℕ) = midpoint := by simpa [splitEpoch] using h
    refine ⟨fun a' ha' => ?_, nofun⟩
    obtain rfl : a = a' := by simpa using ha'
    omega
  · have h' : 1 < b - a ∧ (a + b) / 2 = midpoint := by
      unfold splitEpoch at h
      dsimp only at h
      split at h
      · exact absurd h nofun
      · exact ⟨by omega, by simpa using h⟩
    refine ⟨fun a' ha' => ?_, fun b' hb' => ?_⟩
    · obtain rfl : a = a' := by simpa using ha'
      omega
    · obtain rfl : b = b' := by simpa using hb'
      omega

/-- A second before the midpoint of a range is in the first half when it is in the range. -/
theorem holds_halves_fst {r : Range} {midpoint epoch : ℤ} (h : r.inside midpoint) :
    (r.halves midpoint).1.holds epoch = (r.holds epoch && decide (epoch < midpoint)) := by
  obtain ⟨ra, _ | b⟩ := r
  · simp [Range.halves, Range.holds]
  · have hb : midpoint < b := h.2 b rfl
    have hand : (decide (epoch < b) && decide (epoch < midpoint)) = decide (epoch < midpoint) := by
      rw [← Bool.decide_and, decide_eq_decide]
      omega
    simp [Range.halves, Range.holds, Bool.and_assoc, hand]

/-- A second from the midpoint of a range on is in the second half when it is in the range. -/
theorem holds_halves_snd {r : Range} {midpoint epoch : ℤ} (h : r.inside midpoint) :
    (r.halves midpoint).2.holds epoch = (r.holds epoch && !decide (epoch < midpoint)) := by
  obtain ⟨_ | a, rb⟩ := r
  · simp [Range.halves, Range.holds, Bool.and_comm, ← decide_not]
  · have ha : a < midpoint := h.1 a rfl
    have hand : (decide (a ≤ epoch) && decide (midpoint ≤ epoch)) = decide (midpoint ≤ epoch) := by
      rw [← Bool.decide_and, decide_eq_decide]
      omega
    simp only [Range.halves, Range.holds, Option.all_some, ← decide_not, not_lt]
    rw [Bool.and_right_comm, hand]

/-- The halves partition the range. -/
theorem holds_iff_halves {r : Range} {midpoint epoch : ℤ} (h : r.inside midpoint) :
    (r.holds epoch ↔ ((r.halves midpoint).1.holds epoch ∨ (r.halves midpoint).2.holds epoch)) ∧
      ¬((r.halves midpoint).1.holds epoch ∧ (r.halves midpoint).2.holds epoch) := by
  rw [holds_halves_fst h, holds_halves_snd h]
  by_cases hlt : epoch < midpoint <;> simp [hlt]

/-! ## The messages of a range -/

/-- The ids of the messages of a range. -/
def idsOf (mailbox : List Message) (r : Range) : List String :=
  (mailbox.filter fun m => r.holds m.epoch).map (·.id)

/-- The ids of a range are ids of the mailbox, in its order. -/
theorem idsOf_sublist {mailbox : List Message} {r : Range} :
    (idsOf mailbox r).Sublist (mailbox.map (·.id)) :=
  List.filter_sublist.map _

/-- The whole mailbox is in the range without ends. -/
@[simp]
theorem idsOf_whole {mailbox : List Message} : idsOf mailbox (none, none) = mailbox.map (·.id) := by
  simp [idsOf, Range.holds]

/-- The ids of a range are those of its halves. -/
theorem idsOf_perm_halves (mailbox : List Message) {r : Range} {midpoint : ℤ} (h : r.inside midpoint) :
    (idsOf mailbox (r.halves midpoint).1 ++ idsOf mailbox (r.halves midpoint).2).Perm
      (idsOf mailbox r) := by
  have hfst : (mailbox.filter fun m => (r.halves midpoint).1.holds m.epoch) =
      (mailbox.filter fun m => r.holds m.epoch).filter fun m => decide (m.epoch < midpoint) := by
    rw [List.filter_filter]
    exact List.filter_congr fun m _ => by rw [holds_halves_fst h, Bool.and_comm]
  have hsnd : (mailbox.filter fun m => (r.halves midpoint).2.holds m.epoch) =
      (mailbox.filter fun m => r.holds m.epoch).filter fun m => !decide (m.epoch < midpoint) := by
    rw [List.filter_filter]
    exact List.filter_congr fun m _ => by rw [holds_halves_snd h, Bool.and_comm]
  unfold idsOf
  rw [hfst, hsnd, ← List.map_append]
  exact (List.filter_append_perm _ _).map _

/-- A page without a continuation token lists the whole range. -/
theorem listMessagePage_of_no_token {mailbox : List Message} {r : Range}
    (h : (listMessagePage mailbox r).2 = false) :
    (listMessagePage mailbox r).1 = idsOf mailbox r := by
  have hle : (idsOf mailbox r).length ≤ pageSize := by simpa [listMessagePage, idsOf] using h
  exact List.take_of_length_le hle

/-- A page with a continuation token is one of a range that holds more than a page. -/
theorem length_idsOf_of_token {mailbox : List Message} {r : Range}
    (h : (listMessagePage mailbox r).2 = true) : pageSize < (idsOf mailbox r).length := by
  simpa [listMessagePage, idsOf] using h

/-- No second holds more than a page. -/
def OnePageASecond (mailbox : List Message) : Prop :=
  ∀ epoch : ℤ, (mailbox.filter fun m => m.epoch = epoch).length ≤ pageSize

/-- A range that holds more than a page has a midpoint. -/
theorem exists_splitEpoch {mailbox : List Message} (hpage : OnePageASecond mailbox) {r : Range}
    (h : (listMessagePage mailbox r).2 = true) (now : ℤ) : ∃ midpoint, splitEpoch now r = some midpoint := by
  rw [← Option.isSome_iff_exists, ← Option.ne_none_iff_isSome]
  intro hnone
  obtain ⟨a, b, rfl, hab⟩ := splitEpoch_eq_none_iff.mp hnone
  have hlong := length_idsOf_of_token h
  have hsub : (mailbox.filter fun m => Range.holds (some a, some b) m.epoch).Sublist
      (mailbox.filter fun m => m.epoch = a) := by
    refine List.monotone_filter_right mailbox fun m hm => ?_
    have hm' : a ≤ m.epoch ∧ m.epoch < b := by simpa [Range.holds] using hm
    show decide (m.epoch = a) = true
    rw [decide_eq_true_eq]
    omega
  have hle := hsub.length_le.trans (hpage a)
  simp only [idsOf, List.length_map] at hlong
  omega

/-! ## What a range can cost -/

/-- A bound on the seconds of the messages, on both sides of zero. -/
def horizon (mailbox : List Message) : ℕ := (mailbox.map fun m => m.epoch.natAbs).sum

/-- Every message is within the bound. -/
theorem natAbs_le_horizon {mailbox : List Message} {m : Message} (hm : m ∈ mailbox) :
    m.epoch.natAbs ≤ horizon mailbox :=
  List.single_le_sum (fun _ _ => Nat.zero_le _) _ (List.mem_map_of_mem hm)

/-- What reading a range can cost yet, with the clock's readings at most `clock` away from zero: its
messages, and twice the seconds that splitting can still go through, which for an open end are those
up to where doubling is past every message. -/
def cost (mailbox : List Message) (clock : ℕ) (r : Range) : ℕ :=
  let far : ℤ := 2 * horizon mailbox + 1
  (idsOf mailbox r).length + 1 +
    match r with
    | (none, none) => 2 * (clock + far).toNat + 2 * (clock + far).toNat + 2
    | (none, some end_epoch) => 2 * (end_epoch + far).toNat
    | (some start_epoch, none) => 2 * (far - start_epoch).toNat
    | (some start_epoch, some end_epoch) => 2 * (end_epoch - start_epoch).toNat - 2

/-- Splitting a range that holds a message lowers what it can cost. -/
theorem cost_halves_lt {mailbox : List Message} {clock : ℕ} {now midpoint : ℤ} {r : Range}
    (hnow : now.natAbs ≤ clock) (h : splitEpoch now r = some midpoint) (hne : idsOf mailbox r ≠ []) :
    cost mailbox clock (r.halves midpoint).1 + cost mailbox clock (r.halves midpoint).2 <
      cost mailbox clock r := by
  have hinside := inside_of_splitEpoch h
  have hlen := (idsOf_perm_halves mailbox hinside).length_eq
  rw [List.length_append] at hlen
  obtain ⟨id, hid⟩ := List.exists_mem_of_ne_nil _ hne
  obtain ⟨m, hm, -⟩ := List.mem_map.mp hid
  obtain ⟨hm, hholds⟩ := List.mem_filter.mp hm
  have hfar := natAbs_le_horizon hm
  simp only [cost, Range.halves] at hlen ⊢
  obtain ⟨_ | a, _ | b⟩ := r
  · -- Open on both sides: each half starts from the clock's reading.
    obtain rfl : now = midpoint := by simpa [splitEpoch] using h
    dsimp only at hlen ⊢
    omega
  · -- Open at the start: the message is before the end, so the midpoint is not past twice its second.
    obtain rfl : b - (max 1 b.natAbs : ℕ) = midpoint := by simpa [splitEpoch] using h
    have hb : m.epoch < b := by simpa [Range.holds] using hholds
    dsimp only at hlen ⊢
    omega
  · obtain rfl : a + (max 1 a.natAbs : ℕ) = midpoint := by simpa [splitEpoch] using h
    have ha : a ≤ m.epoch := by simpa [Range.holds] using hholds
    dsimp only at hlen ⊢
    omega
  · have ha : a < midpoint := hinside.1 a rfl
    have hb : midpoint < b := hinside.2 b rfl
    dsimp only at hlen ⊢
    omega

/-! ## The traversal -/

/-- A traversal, with what was made pending in it, the range reads, the statements of the worker, its
calls, and the times it was interrupted. -/
structure Scan where
  state : State
  made : List String
  reads : ℕ
  statements : ℕ
  calls : ℕ
  interrupts : ℕ

/-- The ids that the next statement of a worker makes pending: those of a claim that finds the cursor
as it was read. -/
def claimedBy (s : State) (i : ℕ) : List String :=
  match s.cursor, s.workers i with
  | some c, some ⟨_, _, .claiming ranges ids _⟩ =>
    if c.pending_ids = [] ∧ c.ranges = ranges then ids else []
  | _, _ => []

/-- The next statement of a worker reads a range. -/
def isRead (s : State) (i : ℕ) : Bool :=
  match s.workers i with
  | some ⟨_, _, .listing _⟩ => true
  | _ => false

/-- What an action adds to the counts. -/
def Scan.count (t : Scan) : Act → Scan
  | .advance i _ =>
    { t with
      made := t.made ++ claimedBy t.state i
      reads := t.reads + (isRead t.state i).toNat
      statements := t.statements + 1 }
  | .call _ _ _ => { t with calls := t.calls + 1 }
  | .interrupt _ => { t with interrupts := t.interrupts + 1 }
  | .arrive _ | .keep _ => t

/-- One step, counted. -/
def Scan.step (t : Scan) (a : Act) : Option Scan :=
  (Gmail.step t.state a).map fun state => { t.count a with state }

/-- The traversal has ended: nothing is pending and no range is left. -/
def State.Ended (s : State) : Prop := ∀ c ∈ s.cursor, c.pending_ids = [] ∧ c.ranges = []

/-- The condition on a step of a traversal: it has not ended, no mail arrives, the only worker is
called with positive budgets, and the clock is at most `clock` seconds away from zero. -/
def Alone (i clock : ℕ) (t : Scan) (a : Act) : Prop :=
  ¬t.state.Ended ∧
    match a with
    | .arrive _ => False
    | .keep _ => True
    | .call j ranges_per_cycle messages_per_cycle => j = i ∧ 0 < ranges_per_cycle ∧ 0 < messages_per_cycle
    | .advance j now => j = i ∧ now.natAbs ≤ clock
    | .interrupt _ => True

instance (s : State) : Decidable s.Ended := by
  unfold State.Ended
  infer_instance

instance (i clock : ℕ) (t : Scan) : (a : Act) → Decidable (Alone i clock t a)
  | .arrive _ => inferInstanceAs (Decidable (_ ∧ False))
  | .keep _ => inferInstanceAs (Decidable (_ ∧ True))
  | .call .. => inferInstanceAs (Decidable (_ ∧ _ ∧ _ ∧ _))
  | .advance .. => inferInstanceAs (Decidable (_ ∧ _ ∧ _))
  | .interrupt _ => inferInstanceAs (Decidable (_ ∧ True))

/-- A traversal starts: its one range is `[null, null]`, nothing is pending, and the worker, if it
is there, is at the top of its loop. -/
structure Starts (i : ℕ) (s : State) : Prop where
  nodup : (s.mailbox.map (·.id)).Nodup
  cursor : ∃ completed_at, s.cursor = some ⟨[], [(none, none)], completed_at⟩
  worker : ∀ w ∈ s.workers i, w.phase = .reading
  alone : ∀ j, j ≠ i → s.workers j = none

/-- The traversal before its first step. -/
def Scan.begin (s : State) : Scan := ⟨s, [], 0, 0, 0, 0⟩

/-! ## The worker and the cursor -/

/-- What the worker read is still in the cursor. -/
def Phase.Agrees (mailbox : List Message) (clock : ℕ) (c : Cursor) (messages_left : ℕ) : Phase → Prop
  | .reading => True
  | .fetching pending ranges =>
    c.pending_ids = pending ∧ c.ranges = ranges ∧ pending ≠ [] ∧ 0 < messages_left
  | .storing pending ranges batch_ids new_messages =>
    c.pending_ids = pending ∧ c.ranges = ranges ∧ pending ≠ [] ∧ 0 < messages_left ∧
      batch_ids = pending.take messages_left ∧ new_messages.length ≤ mailbox.length
  | .restarting => False
  | .listing ranges => c.pending_ids = [] ∧ c.ranges = ranges ∧ ranges ≠ []
  | .splitting ranges replacement =>
    c.pending_ids = [] ∧ c.ranges = ranges ∧
      ∃ init r now midpoint, ranges = init ++ [r] ∧ now.natAbs ≤ clock ∧
        splitEpoch now r = some midpoint ∧ pageSize < (idsOf mailbox r).length ∧
        replacement = init ++ [(r.halves midpoint).1, (r.halves midpoint).2]
  | .claiming ranges ids _ =>
    c.pending_ids = [] ∧ c.ranges = ranges ∧ ∃ init r, ranges = init ++ [r] ∧ ids = idsOf mailbox r
  | .finishing => c.pending_ids = [] ∧ c.ranges = []

/-- What was made pending and what the ranges hold are together the mailbox, and the pending ids are
ids of the mailbox, each once. -/
structure Remaining (mailbox : List Message) (made : List String) (c : Cursor) : Prop where
  perm : (made ++ c.ranges.flatMap (idsOf mailbox)).Perm (mailbox.map (·.id))
  pending : c.pending_ids.Sublist (mailbox.map (·.id))

/-- What holds in every state of a traversal of a mailbox. -/
structure Scan.Inv (mailbox : List Message) (i clock : ℕ) (t : Scan) : Prop where
  mailbox_eq : t.state.mailbox = mailbox
  alone : ∀ j, j ≠ i → t.state.workers j = none
  cursor : ∃ c, t.state.cursor = some c ∧ Remaining mailbox t.made c ∧
    ∀ w ∈ t.state.workers i, w.phase.Agrees mailbox clock c w.messages_left

/-- What the cursor can cost yet: the pending ids and the ranges. -/
def Cursor.weight (mailbox : List Message) (clock : ℕ) (c : Cursor) : ℕ :=
  c.pending_ids.length + (c.ranges.map (cost mailbox clock)).sum

/-- The most that a worker can have to do before its next write to the cursor. -/
def roundLength (mailbox : List Message) : ℕ := mailbox.length + 4

/-- What the worker has to do before its next write to the cursor. A worker that is about to return
stands above one that is not there, and a call with positive budgets does not start there. -/
def rank (mailbox : List Message) (c : Cursor) : Option Worker → ℕ
  | none => roundLength mailbox
  | some w =>
    match w.phase with
    | .reading =>
      if w.messages_left = 0 ∨ (c.pending_ids = [] ∧ w.ranges_left = 0) then roundLength mailbox + 1
      else roundLength mailbox
    | .fetching _ _ | .listing _ => mailbox.length + 3
    | .storing _ _ _ new_messages => new_messages.length + 1
    | .splitting _ _ | .claiming _ _ _ => 1
    | .restarting | .finishing => 0

/-- What the traversal can cost yet, in statements of the worker. -/
def potential (mailbox : List Message) (clock : ℕ) (c : Cursor) (w : Option Worker) : ℕ :=
  (roundLength mailbox + 2) * c.weight mailbox clock + rank mailbox c w

/-- A worker whose reading is still in the cursor has at most a round and a return to do. -/
theorem rank_le {mailbox : List Message} {clock : ℕ} {c : Cursor} {o : Option Worker}
    (h : ∀ w ∈ o, w.phase.Agrees mailbox clock c w.messages_left) :
    rank mailbox c o ≤ roundLength mailbox + 1 := by
  obtain _ | ⟨ranges_left, messages_left, phase⟩ := o
  · exact Nat.le_succ _
  · have hagrees := h _ rfl
    cases phase with
    | reading =>
      simp only [rank]
      split <;> omega
    | storing pending ranges batch_ids new_messages =>
      have hlen := hagrees.2.2.2.2.2
      simp only [rank, roundLength]
      omega
    | fetching | restarting | listing | splitting | claiming | finishing =>
      simp only [rank, roundLength]
      omega

/-- A statement that leaves the cursor alone brings the worker nearer to its next write. -/
theorem potential_lt_of_rank {mailbox : List Message} {clock : ℕ} {c : Cursor} {o o' : Option Worker}
    (h : rank mailbox c o' < rank mailbox c o) :
    potential mailbox clock c o' < potential mailbox clock c o :=
  Nat.add_lt_add_left h _

/-- A write to the cursor pays for the next round of the worker. -/
theorem potential_lt_of_weight {mailbox : List Message} {clock : ℕ} {c c' : Cursor}
    {o o' : Option Worker} (h : c'.weight mailbox clock < c.weight mailbox clock)
    (hagrees : ∀ w ∈ o', w.phase.Agrees mailbox clock c' w.messages_left) :
    potential mailbox clock c' o' < potential mailbox clock c o := by
  have hrank := rank_le hagrees
  have hmul : (roundLength mailbox + 2) * (c'.weight mailbox clock + 1) ≤
      (roundLength mailbox + 2) * c.weight mailbox clock := Nat.mul_le_mul_left _ h
  calc potential mailbox clock c' o'
      ≤ (roundLength mailbox + 2) * c'.weight mailbox clock + (roundLength mailbox + 1) :=
        Nat.add_le_add_left hrank _
    _ < (roundLength mailbox + 2) * (c'.weight mailbox clock + 1) := by
        rw [Nat.mul_add]
        omega
    _ ≤ potential mailbox clock c o := hmul.trans (Nat.le_add_right _ _)

/-- Ids of the mailbox are fetched, one message for each. -/
theorem exists_mapM_fetchMessage {mailbox : List Message} :
    ∀ {ids : List String}, ids ⊆ mailbox.map (·.id) →
      ∃ messages, ids.mapM (fetchMessage mailbox) = some messages ∧ messages.length = ids.length
  | [], _ => ⟨[], rfl, rfl⟩
  | id :: ids, h => by
    obtain ⟨hid, hids⟩ := List.cons_subset.mp h
    obtain ⟨messages, hmessages, hlen⟩ := exists_mapM_fetchMessage hids
    obtain ⟨m, hm, rfl⟩ := List.mem_map.mp hid
    have hsome : (fetchMessage mailbox m.id).isSome := by
      rw [fetchMessage, List.find?_isSome]
      exact ⟨m, hm, by simp⟩
    obtain ⟨m', hm'⟩ := Option.isSome_iff_exists.mp hsome
    exact ⟨m' :: messages, by simp [hm', hmessages], by simp [hlen]⟩

/-! ## What one statement does -/

/-- A statement of the worker moves the traversal on: it writes the stored keys, the cursor and the
worker's place, it keeps what is remaining, and there is less to do. -/
structure Moves (mailbox : List Message) (i clock : ℕ) (made : List String) (s : State) (c : Cursor)
    (w : Worker) (s' : State) (stored' : List String) (c' : Cursor) (o : Option Worker) : Prop where
  state : s' = { s with stored := stored', cursor := some c', workers := Function.update s.workers i o }
  remaining : Remaining mailbox (made ++ claimedBy s i) c'
  agrees : ∀ w' ∈ o, w'.phase.Agrees mailbox clock c' w'.messages_left
  potential : potential mailbox clock c' o < potential mailbox clock c (some w)

section

variable {mailbox : List Message} {i clock : ℕ} {made : List String} {s : State} {c : Cursor} {w : Worker}

/-- A statement that leaves the cursor alone. -/
theorem Moves.same (hcursor : s.cursor = some c) (hclaimed : claimedBy s i = [])
    (hrem : Remaining mailbox made c) {o : Option Worker}
    (hagrees : ∀ w' ∈ o, w'.phase.Agrees mailbox clock c w'.messages_left)
    (hrank : rank mailbox c o < rank mailbox c (some w)) (stored' : List String) :
    Moves mailbox i clock made s c w
      { s with stored := stored', workers := Function.update s.workers i o } stored' c o where
  state := by rw [← hcursor]
  remaining := by rwa [hclaimed, List.append_nil]
  agrees := hagrees
  potential := potential_lt_of_rank hrank

/-- A statement that writes the cursor. -/
theorem Moves.write {c' : Cursor} {o : Option Worker} {stored' : List String}
    (hrem : Remaining mailbox (made ++ claimedBy s i) c')
    (hagrees : ∀ w' ∈ o, w'.phase.Agrees mailbox clock c' w'.messages_left)
    (hweight : c'.weight mailbox clock < c.weight mailbox clock) :
    Moves mailbox i clock made s c w
      { s with stored := stored', cursor := some c', workers := Function.update s.workers i o }
      stored' c' o where
  state := rfl
  remaining := hrem
  agrees := hagrees
  potential := potential_lt_of_weight hweight hagrees

/-- What agrees of a worker agrees of the only one there is. -/
theorem agrees_some (h : w.phase.Agrees mailbox clock c w.messages_left) :
    ∀ w' ∈ some w, w'.phase.Agrees mailbox clock c w'.messages_left := by
  intro w' hw'
  obtain rfl : w = w' := Option.mem_some_iff.mp hw'
  exact h

/-- Nothing is asked of a worker that is not there. -/
theorem agrees_none : ∀ w' ∈ (none : Option Worker), w'.phase.Agrees mailbox clock c w'.messages_left :=
  fun w' hw' => absurd hw' (Option.not_mem_none w')

/-- The top of the loop. -/
theorem moves_reading (hcursor : s.cursor = some c) (hw : s.workers i = some w)
    (hphase : w.phase = .reading) (hrem : Remaining mailbox made c)
    (hgoes : ¬(c.pending_ids = [] ∧ c.ranges = [])) (now : ℤ) :
    ∃ stored' c' o, Moves mailbox i clock made s c w (statement s c i w now) stored' c' o := by
  obtain ⟨ranges_left, messages_left, phase⟩ := w
  dsimp only at hphase
  subst hphase
  have hclaimed : claimedBy s i = [] := by simp [claimedBy, hcursor, hw]
  unfold statement
  dsimp only
  split
  · next hzero =>
    refine ⟨s.stored, c, none, Moves.same hcursor hclaimed hrem agrees_none ?_ _⟩
    simp [rank, hzero]
  · next hmessages =>
    split
    · next hpending =>
      have hagrees : Phase.Agrees mailbox clock c messages_left (.fetching c.pending_ids c.ranges) :=
        ⟨rfl, rfl, hpending, Nat.pos_of_ne_zero hmessages⟩
      refine ⟨s.stored, c, some _, Moves.same hcursor hclaimed hrem (agrees_some hagrees) ?_ _⟩
      simp [rank, hmessages, hpending, roundLength]
    · next hpending =>
      have hnil : c.pending_ids = [] := not_not.mp hpending
      have hranges : c.ranges ≠ [] := fun hranges => hgoes ⟨hnil, hranges⟩
      rw [if_neg hranges]
      split
      · next hzero =>
        refine ⟨s.stored, c, none, Moves.same hcursor hclaimed hrem agrees_none ?_ _⟩
        simp [rank, hzero, hnil]
      · next hleft =>
        have hagrees : Phase.Agrees mailbox clock c messages_left (.listing c.ranges) :=
          ⟨hnil, rfl, hranges⟩
        refine ⟨s.stored, c, some _, Moves.same hcursor hclaimed hrem (agrees_some hagrees) ?_ _⟩
        simp [rank, hmessages, hleft, roundLength]

/-- The fetch of the first pending ids. -/
theorem moves_fetching (hmailbox : s.mailbox = mailbox) (hcursor : s.cursor = some c)
    (hw : s.workers i = some w) {pending : List String} {ranges : List Range}
    (hphase : w.phase = .fetching pending ranges)
    (hagrees : w.phase.Agrees mailbox clock c w.messages_left)
    (hrem : Remaining mailbox made c) (now : ℤ) :
    ∃ stored' c' o, Moves mailbox i clock made s c w (statement s c i w now) stored' c' o := by
  obtain ⟨ranges_left, messages_left, phase⟩ := w
  dsimp only at hphase
  subst hphase hmailbox
  obtain ⟨rfl, rfl, hne, hmessages⟩ := hagrees
  have hclaimed : claimedBy s i = [] := by simp [claimedBy, hcursor, hw]
  have hsub := (List.take_sublist messages_left c.pending_ids).trans hrem.pending
  obtain ⟨messages, hmapM, hlen⟩ := exists_mapM_fetchMessage hsub.subset
  have hle : messages.length ≤ s.mailbox.length := by
    have := hsub.length_le
    rw [List.length_map] at this
    omega
  unfold statement
  dsimp only
  rw [hmapM]
  have hnew : ((unseen s.stored messages).take messages.length).length ≤ s.mailbox.length :=
    (List.length_take_le _ _).trans hle
  refine ⟨s.stored, c, some _, Moves.same hcursor hclaimed hrem (agrees_some ?_) ?_ _⟩
  · exact ⟨rfl, rfl, hne, hmessages, rfl, hnew⟩
  · simp only [rank]
    omega

/-- The write of a chunk of new messages, and then of the pending ids. -/
theorem moves_storing (hcursor : s.cursor = some c) (hw : s.workers i = some w)
    {pending batch_ids : List String} {ranges : List Range} {new_messages : List Message}
    (hphase : w.phase = .storing pending ranges batch_ids new_messages)
    (hagrees : w.phase.Agrees mailbox clock c w.messages_left)
    (hrem : Remaining mailbox made c) (now : ℤ) :
    ∃ stored' c' o, Moves mailbox i clock made s c w (statement s c i w now) stored' c' o := by
  obtain ⟨ranges_left, messages_left, phase⟩ := w
  dsimp only at hphase
  subst hphase
  dsimp only [Phase.Agrees] at hagrees
  obtain ⟨rfl, rfl, hne, hmessages, rfl, hnew⟩ := hagrees
  have hclaimed : claimedBy s i = [] := by simp [claimedBy, hcursor, hw]
  obtain _ | ⟨m, ms⟩ := new_messages
  · -- Nothing is left to store: the batch comes off the pending ids, which are not empty.
    have hpos : 0 < c.pending_ids.length := List.length_pos_iff.mpr hne
    have hlen : (c.pending_ids.take messages_left).length = min messages_left c.pending_ids.length :=
      List.length_take
    have hweight : Cursor.weight mailbox clock
        { c with pending_ids := c.pending_ids.drop (c.pending_ids.take messages_left).length } <
        c.weight mailbox clock := by
      simp only [Cursor.weight, List.length_drop]
      omega
    have hrem' : Remaining mailbox (made ++ claimedBy s i)
        { c with pending_ids := c.pending_ids.drop (c.pending_ids.take messages_left).length } := by
      rw [hclaimed, List.append_nil]
      exact ⟨hrem.perm, (List.drop_sublist _ _).trans hrem.pending⟩
    unfold statement
    dsimp only
    rw [if_pos ⟨rfl, rfl⟩]
    refine ⟨s.stored, _, some _, Moves.write hrem' (agrees_some ?_) hweight⟩
    split
    · next hend => exact hend
    · exact trivial
  · have hdrop : ((m :: ms).drop insertChunk).length < (m :: ms).length := by
      rw [List.length_drop]
      exact Nat.sub_lt (Nat.succ_pos _) (by decide)
    unfold statement
    dsimp only
    refine ⟨_, c, some _, Moves.same hcursor hclaimed hrem (agrees_some ?_) ?_ _⟩
    · exact ⟨rfl, rfl, hne, hmessages, rfl, by omega⟩
    · simp only [rank]
      omega

/-- The read of the last range. A range with more than a page has a midpoint. -/
theorem moves_listing (hpage : OnePageASecond mailbox) (hmailbox : s.mailbox = mailbox)
    (hcursor : s.cursor = some c) (hw : s.workers i = some w) {ranges : List Range}
    (hphase : w.phase = .listing ranges) (hagrees : w.phase.Agrees mailbox clock c w.messages_left)
    (hrem : Remaining mailbox made c) {now : ℤ} (hnow : now.natAbs ≤ clock) :
    ∃ stored' c' o, Moves mailbox i clock made s c w (statement s c i w now) stored' c' o := by
  obtain ⟨ranges_left, messages_left, phase⟩ := w
  dsimp only at hphase
  subst hphase hmailbox
  obtain ⟨hnil, rfl, hne⟩ := hagrees
  have hclaimed : claimedBy s i = [] := by simp [claimedBy, hcursor, hw]
  obtain ⟨init, r, hinit⟩ := List.eq_nil_or_concat c.ranges |>.resolve_left hne
  rw [List.concat_eq_append] at hinit
  unfold statement
  dsimp only
  rw [hinit, List.getLast?_concat]
  dsimp only
  by_cases htoken : (listMessagePage s.mailbox r).2 = true
  · obtain ⟨midpoint, hmid⟩ := exists_splitEpoch hpage htoken now
    rw [if_pos htoken, hmid]
    refine ⟨s.stored, c, some _, Moves.same hcursor hclaimed hrem (agrees_some ?_) ?_ _⟩
    · exact ⟨hnil, hinit, init, r, now, midpoint, rfl, hnow, hmid, length_idsOf_of_token htoken,
        by rw [List.dropLast_concat]; rfl⟩
    · simp only [rank]
      omega
  · rw [if_neg htoken]
    refine ⟨s.stored, c, some _, Moves.same hcursor hclaimed hrem (agrees_some ?_) ?_ _⟩
    · exact ⟨hnil, hinit, init, r, rfl, listMessagePage_of_no_token (by simpa using htoken)⟩
    · simp only [rank]
      omega

/-- The write of the halves of a range. -/
theorem moves_splitting (hcursor : s.cursor = some c) (hw : s.workers i = some w)
    {ranges replacement : List Range} (hphase : w.phase = .splitting ranges replacement)
    (hagrees : w.phase.Agrees mailbox clock c w.messages_left)
    (hrem : Remaining mailbox made c) (now : ℤ) :
    ∃ stored' c' o, Moves mailbox i clock made s c w (statement s c i w now) stored' c' o := by
  obtain ⟨ranges_left, messages_left, phase⟩ := w
  dsimp only at hphase
  subst hphase
  obtain ⟨hnil, rfl, init, r, now', midpoint, hinit, hnow', hmid, hlong, rfl⟩ := hagrees
  have hclaimed : claimedBy s i = [] := by simp [claimedBy, hcursor, hw]
  have hne : idsOf mailbox r ≠ [] := List.ne_nil_of_length_pos (by omega)
  have hlt := cost_halves_lt hnow' hmid hne
  have hperm := idsOf_perm_halves mailbox (inside_of_splitEpoch hmid)
  have hweight : Cursor.weight mailbox clock
      { c with ranges := init ++ [(r.halves midpoint).1, (r.halves midpoint).2] } <
      c.weight mailbox clock := by
    simp only [Cursor.weight, hinit, List.map_append, List.sum_append, List.map_cons, List.map_nil,
      List.sum_cons, List.sum_nil]
    omega
  have hrem' : Remaining mailbox (made ++ claimedBy s i)
      { c with ranges := init ++ [(r.halves midpoint).1, (r.halves midpoint).2] } := by
    refine ⟨?_, hrem.pending⟩
    have hold := hrem.perm
    rw [hinit] at hold
    rw [hclaimed, List.append_nil]
    refine List.Perm.trans (List.Perm.append_left made ?_) hold
    simp only [List.flatMap_append, List.flatMap_cons, List.flatMap_nil, List.append_nil]
    exact hperm.append_left _
  unfold statement
  dsimp only
  rw [if_pos ⟨hnil, rfl⟩]
  exact ⟨s.stored, _, some _, Moves.write hrem' (agrees_some trivial) hweight⟩

/-- The write of a page: its ids are pending, and its range is gone. -/
theorem moves_claiming (hcursor : s.cursor = some c) (hw : s.workers i = some w)
    {ranges : List Range} {ids : List String} {traversal : ℕ}
    (hphase : w.phase = .claiming ranges ids traversal)
    (hagrees : w.phase.Agrees mailbox clock c w.messages_left)
    (hrem : Remaining mailbox made c) (now : ℤ) :
    ∃ stored' c' o, Moves mailbox i clock made s c w (statement s c i w now) stored' c' o := by
  obtain ⟨ranges_left, messages_left, phase⟩ := w
  dsimp only at hphase
  subst hphase
  obtain ⟨hnil, rfl, init, r, hinit, rfl⟩ := hagrees
  have hclaimed : claimedBy s i = idsOf mailbox r := by simp [claimedBy, hcursor, hw, hnil]
  have hdrop : c.ranges.dropLast = init := by rw [hinit, List.dropLast_concat]
  have hweight : Cursor.weight mailbox clock ⟨idsOf mailbox r, init, none⟩ < c.weight mailbox clock := by
    simp only [Cursor.weight, hinit, hnil, List.map_append, List.sum_append, List.map_cons, List.map_nil,
      List.sum_cons, List.sum_nil, cost, List.length_nil]
    omega
  have hrem' : Remaining mailbox (made ++ claimedBy s i) ⟨idsOf mailbox r, init, none⟩ := by
    refine ⟨?_, idsOf_sublist⟩
    have hold := hrem.perm
    rw [hinit] at hold
    rw [hclaimed, List.append_assoc]
    refine List.Perm.trans (List.Perm.append_left made ?_) hold
    simp only [List.flatMap_append, List.flatMap_cons, List.flatMap_nil, List.append_nil]
    exact List.perm_append_comm
  unfold statement
  dsimp only
  rw [if_pos ⟨hnil, rfl⟩, hdrop]
  refine ⟨s.stored, _, some _, Moves.write hrem' (agrees_some ?_) hweight⟩
  split
  · next hend => exact hend
  · exact trivial

/-- Every statement of the worker before the end moves the traversal on. -/
theorem moves_statement (hpage : OnePageASecond mailbox) (hmailbox : s.mailbox = mailbox)
    (hcursor : s.cursor = some c) (hw : s.workers i = some w)
    (hagrees : w.phase.Agrees mailbox clock c w.messages_left) (hrem : Remaining mailbox made c)
    (hgoes : ¬(c.pending_ids = [] ∧ c.ranges = [])) {now : ℤ} (hnow : now.natAbs ≤ clock) :
    ∃ stored' c' o, Moves mailbox i clock made s c w (statement s c i w now) stored' c' o := by
  cases hphase : w.phase with
  | reading => exact moves_reading hcursor hw hphase hrem hgoes now
  | fetching pending ranges => exact moves_fetching hmailbox hcursor hw hphase hagrees hrem now
  | storing pending ranges batch_ids new_messages =>
    exact moves_storing hcursor hw hphase hagrees hrem now
  | restarting =>
    rw [hphase] at hagrees
    exact absurd hagrees id
  | listing ranges => exact moves_listing hpage hmailbox hcursor hw hphase hagrees hrem hnow
  | splitting ranges replacement => exact moves_splitting hcursor hw hphase hagrees hrem now
  | claiming ranges ids traversal => exact moves_claiming hcursor hw hphase hagrees hrem now
  | finishing =>
    rw [hphase] at hagrees
    exact absurd hagrees hgoes

end

/-! ## Every run of a traversal -/

/-- What the statements of a traversal so far and what it can cost yet come to, against its start and
its interruptions. -/
def Scan.Budget (mailbox : List Message) (i clock total : ℕ) (t : Scan) : Prop :=
  ∀ c ∈ t.state.cursor,
    t.statements + potential mailbox clock c (t.state.workers i) ≤
      total + (roundLength mailbox) * t.interrupts

/-- Calls are those the worker returned from, and the one it is in. -/
def Scan.CallsPaid (i : ℕ) (t : Scan) : Prop :=
  t.calls + (if t.state.workers i = none then 1 else 0) ≤ t.statements + t.interrupts + 1

/-- The invariant and the bounds on the counts. -/
def Scan.Holds (mailbox : List Message) (i clock total : ℕ) (t : Scan) : Prop :=
  t.Inv mailbox i clock ∧ t.Budget mailbox i clock total ∧ t.CallsPaid i ∧ t.reads ≤ t.statements

/-- A step keeps the invariant and the bounds on the counts. -/
theorem Scan.Holds.step {mailbox : List Message} {i clock total : ℕ} (hpage : OnePageASecond mailbox)
    {t t' : Scan} {a : Act} (h : t.Holds mailbox i clock total) (hok : Alone i clock t a)
    (hstep : t.step a = some t') : t'.Holds mailbox i clock total := by
  obtain ⟨⟨hmailbox, halone, c, hcursor, hrem, hagrees⟩, hbudget, hcalls, hreads⟩ := h
  obtain ⟨hgoes, hok⟩ := hok
  -- The stored cursor is read by every case; it does not end the traversal, as a run goes on.
  have hgoes' : ¬(c.pending_ids = [] ∧ c.ranges = []) := by
    intro hend
    refine hgoes fun c' hc' => ?_
    obtain rfl : c = c' := by simpa [hcursor] using hc'
    exact hend
  have hleft := hbudget c hcursor
  obtain ⟨s', hs', rfl⟩ := Option.map_eq_some_iff.mp hstep
  cases a with
  | arrive mailbox' => exact absurd hok id
  | keep keys =>
    obtain rfl := Option.some.inj hs'
    exact ⟨⟨hmailbox, halone, c, hcursor, hrem, hagrees⟩, hbudget, hcalls, hreads⟩
  | call j ranges_per_cycle messages_per_cycle =>
    obtain ⟨rfl, hranges, hmessages⟩ := hok
    dsimp only [Gmail.step] at hs'
    split at hs'
    · next hnone =>
      rw [if_neg (by rw [hcursor]; exact Option.some_ne_none c)] at hs'
      obtain rfl := Option.some.inj hs'
      refine ⟨⟨hmailbox, fun k hk => ?_, c, hcursor, hrem, ?_⟩, ?_, ?_, hreads⟩
      -- The call starts to read; what is left of the traversal and its rank stay.
      · simpa [State.goto, hk] using halone k hk
      · have hself : (t.state.goto j ⟨ranges_per_cycle, messages_per_cycle, .reading⟩).workers j =
            some ⟨ranges_per_cycle, messages_per_cycle, .reading⟩ := Function.update_self _ _ _
        dsimp only
        rw [hself]
        exact agrees_some trivial
      · intro c' hc'
        obtain rfl : c = c' := by simpa [State.goto, hcursor] using hc'
        have hrank : rank mailbox c (some ⟨ranges_per_cycle, messages_per_cycle, .reading⟩) =
            rank mailbox c none := by
          simp [rank, hranges.ne', hmessages.ne']
        rw [hnone] at hleft
        simpa [State.goto, potential, hrank, Scan.count] using hleft
      · simp only [CallsPaid, hnone, if_true, Scan.count, State.goto, Function.update_self,
          reduceCtorEq, if_false] at hcalls ⊢
        omega
    · contradiction
  | advance j now =>
    obtain ⟨rfl, hnow⟩ := hok
    dsimp only [Gmail.step] at hs'
    rw [hcursor] at hs'
    cases hw : t.state.workers j with
    | none =>
      rw [hw] at hs'
      contradiction
    | some w =>
      -- A statement of the call: what it moves is `moves_statement`.
      rw [hw] at hs'
      obtain rfl := Option.some.inj hs'
      obtain ⟨stored', c', o, hmoves⟩ := moves_statement hpage hmailbox hcursor hw (hagrees w hw) hrem
        hgoes' hnow
      have hlt := hmoves.potential
      rw [hw] at hleft
      rw [hmoves.state]
      -- The messages that remain, the stage of the worker, the budget, the calls and the reads.
      refine ⟨⟨hmailbox, fun k hk => ?_, c', rfl, hmoves.remaining, ?_⟩, ?_, ?_, ?_⟩
      · simpa [hk] using halone k hk
      · simpa using hmoves.agrees
      · intro c'' hc''
        obtain rfl : c' = c'' := by simpa using hc''
        simp only [Scan.count, Function.update_self]
        omega
      · simp only [CallsPaid, hw, reduceCtorEq, if_false, Scan.count, Function.update_self] at hcalls ⊢
        split <;> omega
      · have hone := Bool.toNat_le (isRead t.state j)
        simp only [Scan.count]
        omega
  | interrupt j =>
    obtain rfl := Option.some.inj hs'
    -- The worker has gone, so that its call is counted once more and its rank is that of no call.
    refine ⟨⟨hmailbox, fun k hk => ?_, c, hcursor, hrem, ?_⟩, ?_, ?_, hreads⟩
    · by_cases hkj : k = j
      · simp [State.leave, hkj]
      · simpa [State.leave, hkj] using halone k hk
    · intro w hw
      by_cases hij : i = j
      · simp [State.leave, hij] at hw
      · exact hagrees w (by simpa [State.leave, hij] using hw)
    · intro c' hc'
      obtain rfl : c = c' := by simpa [State.leave, hcursor] using hc'
      by_cases hij : i = j
      · simp only [Scan.count, State.leave, hij, Function.update_self, potential, rank, Nat.mul_add]
          at hleft ⊢
        omega
      · simp only [Scan.count, State.leave, Function.update_of_ne hij, Nat.mul_add]
        omega
    · have hone : (if (t.state.leave j).workers i = none then 1 else 0) ≤ 1 := by split <;> omega
      simp only [CallsPaid, Scan.count] at hcalls ⊢
      omega

/-- The bound on what a traversal can cost, at its start. -/
def totalCost (mailbox : List Message) (clock : ℕ) : ℕ :=
  (roundLength mailbox + 2) * cost mailbox clock (none, none) + (roundLength mailbox + 1)

/-- A traversal that starts meets the invariant and the bounds. -/
theorem Starts.holds {i clock : ℕ} {s : State} (h : Starts i s) :
    (Scan.begin s).Holds s.mailbox i clock (totalCost s.mailbox clock) := by
  obtain ⟨completed_at, hcursor⟩ := h.cursor
  have hagrees : ∀ w ∈ s.workers i,
      w.phase.Agrees s.mailbox clock ⟨[], [(none, none)], completed_at⟩ w.messages_left := by
    intro w hw
    rw [h.worker w hw]
    trivial
  refine ⟨⟨rfl, h.alone, _, hcursor, ⟨?_, List.nil_sublist _⟩, hagrees⟩, ?_, ?_, le_rfl⟩
  · simp [Scan.begin]
  · intro c hc
    obtain rfl : ⟨[], [(none, none)], completed_at⟩ = c := by simpa [Scan.begin, hcursor] using hc
    have hrank := rank_le hagrees
    simpa [Scan.begin, potential, Cursor.weight, totalCost] using hrank
  · have hcalls : (Scan.begin s).calls = 0 := rfl
    have hone : (if (Scan.begin s).state.workers i = none then 1 else 0) ≤ 1 := by split <;> omega
    unfold Scan.CallsPaid
    omega

/-- Every state of a traversal meets the invariant and the bounds. -/
theorem holds_of_run {i clock : ℕ} {s : State} (hstart : Starts i s) (hpage : OnePageASecond s.mailbox)
    {t : Scan} (hrun : Run Scan.step (Alone i clock) (Scan.begin s) t) :
    t.Holds s.mailbox i clock (totalCost s.mailbox clock) :=
  hrun.invariant (I := Scan.Holds s.mailbox i clock (totalCost s.mailbox clock)) hstart.holds
    fun _ _ _ h hok hstep => h.step hpage hok hstep

/-- Where a traversal has not ended its worker can make a statement, or be called. -/
theorem Scan.Inv.goes_on {mailbox : List Message} {i clock : ℕ} {t : Scan} (h : t.Inv mailbox i clock) :
    (t.state.workers i = none → ∀ ranges_per_cycle messages_per_cycle,
      (t.step (.call i ranges_per_cycle messages_per_cycle)).isSome) ∧
    (t.state.workers i ≠ none → ∀ now, (t.step (.advance i now)).isSome) := by
  obtain ⟨c, hcursor, -, -⟩ := h.cursor
  refine ⟨fun hnone ranges_per_cycle messages_per_cycle => ?_, fun hsome now => ?_⟩
  · simp [Scan.step, Gmail.step, hnone]
  · obtain ⟨w, hw⟩ := Option.ne_none_iff_exists'.mp hsome
    simp [Scan.step, Gmail.step, hcursor, hw]

/-- Where a traversal has not ended it can go on by one statement, after a call if the worker is not
there. -/
theorem Scan.Holds.exists_statement {mailbox : List Message} {i clock total : ℕ}
    (hpage : OnePageASecond mailbox) {t : Scan} (h : t.Holds mailbox i clock total)
    (hgoes : ¬t.state.Ended) :
    ∃ t', Run Scan.step (Alone i clock) t t' ∧ t'.Holds mailbox i clock total ∧
      t'.statements = t.statements + 1 ∧ t'.interrupts = t.interrupts := by
  -- One statement of a worker that is there.
  have hadvance : ∀ u : Scan, u.Holds mailbox i clock total → ¬u.state.Ended → u.state.workers i ≠ none →
      ∃ u', Run Scan.step (Alone i clock) u u' ∧ u'.Holds mailbox i clock total ∧
        u'.statements = u.statements + 1 ∧ u'.interrupts = u.interrupts := by
    intro u hu hgoes hsome
    obtain ⟨u', hu'⟩ := Option.isSome_iff_exists.mp (hu.1.goes_on.2 hsome 0)
    have hok : Alone i clock u (.advance i 0) := ⟨hgoes, rfl, Nat.zero_le _⟩
    refine ⟨u', Run.start.next _ hok hu', hu.step hpage hok hu', ?_, ?_⟩ <;>
    · obtain ⟨s', -, rfl⟩ := Option.map_eq_some_iff.mp hu'
      rfl
  by_cases hnone : t.state.workers i = none
  · have hok : Alone i clock t (.call i 1 1) := ⟨hgoes, rfl, Nat.one_pos, Nat.one_pos⟩
    obtain ⟨u, hu⟩ := Option.isSome_iff_exists.mp (h.1.goes_on.1 hnone 1 1)
    obtain ⟨c, hcursor, -, -⟩ := h.1.cursor
    have hfields : u.state = t.state.goto i ⟨1, 1, .reading⟩ ∧ u.statements = t.statements ∧
        u.interrupts = t.interrupts := by
      obtain ⟨s', hs', rfl⟩ := Option.map_eq_some_iff.mp hu
      simp only [Gmail.step, hnone, hcursor, if_true, reduceCtorEq, if_false, Option.some.injEq] at hs'
      exact ⟨hs'.symm, rfl, rfl⟩
    obtain ⟨hstate, hstatements, hinterrupts⟩ := hfields
    have hgoes' : ¬u.state.Ended := by rwa [hstate]
    have hsome : u.state.workers i ≠ none := by simp [hstate, State.goto]
    obtain ⟨u', hrun, hu', hone, hint⟩ := hadvance u (h.step hpage hok hu) hgoes' hsome
    exact ⟨u', (Run.start.next _ hok hu).trans hrun, hu', by omega, by omega⟩
  · exact hadvance t h hgoes hnone

/-- A traversal can be finished without an interruption: the statements left are bounded, and while it
has not ended there is one to make. -/
theorem Scan.Holds.exists_ended {mailbox : List Message} {i clock total : ℕ}
    (hpage : OnePageASecond mailbox) (left : ℕ) {t : Scan} (h : t.Holds mailbox i clock total)
    (hleft : total + roundLength mailbox * t.interrupts ≤ t.statements + left) :
    ∃ t', Run Scan.step (Alone i clock) t t' ∧ t'.state.Ended := by
  induction left generalizing t with
  | zero =>
    by_cases hended : t.state.Ended
    · exact ⟨t, .start, hended⟩
    · obtain ⟨t', -, ⟨hinv, hbudget, -⟩, hone, hint⟩ := h.exists_statement hpage hended
      obtain ⟨c, hcursor, -, -⟩ := hinv.cursor
      have hpaid := hbudget c hcursor
      rw [hint] at hpaid
      omega
  | succ left ih =>
    by_cases hended : t.state.Ended
    · exact ⟨t, .start, hended⟩
    · obtain ⟨t', hrun, ht', hone, hint⟩ := h.exists_statement hpage hended
      obtain ⟨t'', hrun', hended'⟩ := ih ht' (by rw [hint]; omega)
      exact ⟨t'', hrun.trans hrun', hended'⟩

/-- Five hundred and two messages in three seconds: the last two fill more than a page together. -/
def fullMailbox : List Message :=
  (List.range 502).map fun k => ⟨toString k, if k < 1 then 0 else if k < 251 then 2 else 3, ""⟩

/-- A traversal of that mailbox starts. -/
def fullTraversal : State :=
  { mailbox := fullMailbox, stored := [], cursor := some .default, workers := fun _ => none, traversal := 1,
    started := fullMailbox }

/-- Three calls. The first splits `[null, null]` at the clock and the half from there by doubling, which
is its budget of ranges; the second lists the open range that is left and is interrupted; the third
lists it again and splits it, finds its far half empty, splits `[2, 4]` in the middle and makes the
second 3 pending. -/
def threeCalls : List Act :=
  .call 0 2 500 :: List.replicate 7 (.advance 0 1) ++ .call 0 3 500 :: List.replicate 2 (.advance 0 1) ++
    .interrupt 0 :: .call 0 9 500 :: List.replicate 12 (.advance 0 1)

end JobScripts.Mail.Gmail

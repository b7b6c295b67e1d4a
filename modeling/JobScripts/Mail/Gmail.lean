import JobScripts.Lib.Run
import Mathlib.Algebra.Order.Group.Int
import Mathlib.Data.List.Nodup

/-!
# Reconciling a Gmail mailbox

`_reconcile_one` walks a whole mailbox in date ranges. The row of `gmail_scan_cursors` holds the
ranges not listed yet (a stack, newest last) and the ids listed but not fetched yet; every worker
moves it by compare-and-set, with provider calls between the read and the write. A traversal starts
when `ranges` is set to `[[null, null]]`, by the insert of the row or by the restart of a completed
traversal.

The state is one user's: the mailbox, `email_messages`, the cursor, and any number of workers, each
at one of its statements. `reconciliation_never_forgets` proves that a message of the mailbox is
stored, pending or in a range until the next traversal starts, in every run that claims a listing
only in the traversal it was made in. The compare-and-set does not see the difference when a
restart has put the same `[[null, null]]` back: `restart_forgets_message`.
-/

namespace JobScripts.Mail.Gmail

open Lib

/-! ## The provider -/

/-- A message of the mailbox: its Gmail id, its epoch second and its `Message-ID` header. -/
structure Message where
  id : String
  epoch : ℤ
  message_id : String
  deriving DecidableEq

/-- The key of the row: the `Message-ID` header, or the Gmail id when there is none. -/
def Message.providerMessageId (m : Message) : String :=
  if m.message_id = "" then "gmail-" ++ m.id else m.message_id

/-- A range of epoch seconds, its end excluded; a null bound is open. -/
abbrev Range := Option ℤ × Option ℤ

/-- The range holds an epoch second. -/
def Range.holds (r : Range) (epoch : ℤ) : Bool :=
  r.1.all (· ≤ epoch) && r.2.all (epoch < ·)

/-- The most ids that a page lists. -/
def pageSize : ℕ := 500

/-- One page of a range, and whether there is a continuation token. -/
def listMessagePage (mailbox : List Message) (r : Range) : List String × Bool :=
  let ids := (mailbox.filter fun m => r.holds m.epoch).map (·.id)
  (ids.take pageSize, pageSize < ids.length)

/-- A message fetched by its id. -/
def fetchMessage (mailbox : List Message) (id : String) : Option Message :=
  mailbox.find? fun m => m.id = id

/-! ## The worker -/

/-- The row of `gmail_scan_cursors`. -/
structure Cursor where
  pending_ids : List String
  ranges : List Range
  completed_at : Option ℤ
  deriving DecidableEq

/-- The row that the insert makes, by the column defaults. -/
def Cursor.default : Cursor := ⟨[], [(none, none)], none⟩

/-- Split one search range at a whole-second boundary. -/
def splitEpoch (now : ℤ) : Range → Option ℤ
  | (none, none) => some now
  | (none, some end_epoch) => some (end_epoch - max 1 end_epoch.natAbs)
  | (some start_epoch, none) => some (start_epoch + max 1 start_epoch.natAbs)
  | (some start_epoch, some end_epoch) =>
    if end_epoch - start_epoch ≤ 1 then none else some ((start_epoch + end_epoch) / 2)

/-- The messages of a page that `_store_unseen` stores: those whose key is not seen yet, each key
once. -/
def unseen : List String → List Message → List Message
  | _, [] => []
  | seen, m :: messages =>
    if m.providerMessageId ∈ seen then unseen seen messages
    else m :: unseen (m.providerMessageId :: seen) messages

/-- Rows that `store_messages` writes in one transaction. -/
def insertChunk : ℕ := 1000

/-- The statement a worker is at. -/
inductive Phase
  /-- The top of the loop: read the cursor. -/
  | reading
  /-- Fetch the first pending ids and ask which of them are stored. -/
  | fetching (pending : List String) (ranges : List Range)
  /-- Store the rest of the new messages of a batch, then take the batch off the pending ids. -/
  | storing (pending : List String) (ranges : List Range) (batch_ids : List String)
      (new_messages : List Message)
  /-- Start a new traversal. -/
  | restarting
  /-- List the last range. -/
  | listing (ranges : List Range)
  /-- Replace the last range by its halves. -/
  | splitting (ranges replacement : List Range)
  /-- Make the listed ids pending and drop the last range. The number is that of the traversal the
  listing was made in; the worker does not know it. -/
  | claiming (ranges : List Range) (ids : List String) (traversal : ℕ)
  /-- Set `completed_at`. -/
  | finishing

/-- A call of `_reconcile_one`: what is left of its budgets, and where it is. -/
structure Worker where
  ranges_left : ℕ
  messages_left : ℕ
  phase : Phase

/-- One user's mail. The last two fields are for the statements only: the number of the current
traversal, and the mailbox as it was when the traversal started. -/
structure State where
  mailbox : List Message
  /-- The keys of `email_messages`. -/
  stored : List String
  cursor : Option Cursor
  workers : ℕ → Option Worker
  traversal : ℕ
  started : List Message

/-- An empty mailbox, never scanned. -/
def State.empty : State := ⟨[], [], none, fun _ => none, 0, []⟩

/-- The message has its row. -/
def State.isStored (s : State) (m : Message) : Prop := m.providerMessageId ∈ s.stored

/-- A worker goes on at another statement. -/
def State.goto (s : State) (i : ℕ) (w : Worker) : State :=
  { s with workers := Function.update s.workers i (some w) }

/-- A worker returns, raises or dies. -/
def State.leave (s : State) (i : ℕ) : State :=
  { s with workers := Function.update s.workers i none }

/-- A traversal starts: `ranges` is `[[null, null]]`. -/
def State.startTraversal (s : State) : State :=
  { s with cursor := some .default, traversal := s.traversal + 1, started := s.mailbox }

/-- The next statement of a worker, and where it goes from there. -/
def statement (s : State) (c : Cursor) (i : ℕ) (w : Worker) (now : ℤ) : State :=
  match w.phase with
  | .reading =>
    if w.messages_left = 0 then s.leave i
    else if c.pending_ids ≠ [] then s.goto i { w with phase := .fetching c.pending_ids c.ranges }
    else if c.ranges = [] then s.goto i { w with phase := .restarting }
    else if w.ranges_left = 0 then s.leave i
    else s.goto i { w with phase := .listing c.ranges }
  | .fetching pending ranges =>
    let batch_ids := pending.take w.messages_left
    match batch_ids.mapM (fetchMessage s.mailbox) with
    | none => s.leave i
    | some messages =>
      let new_messages := (unseen s.stored messages).take messages.length
      s.goto i { w with phase := .storing pending ranges batch_ids new_messages }
  | .storing pending ranges batch_ids [] =>
    let w := { w with messages_left := w.messages_left - batch_ids.length, phase := .reading }
    let remaining := pending.drop batch_ids.length
    if c.pending_ids = pending ∧ c.ranges = ranges then
      { s with cursor := some { c with pending_ids := remaining } }.goto i
        (if remaining = [] ∧ ranges = [] then { w with phase := .finishing } else w)
    else s.goto i w
  | .storing pending ranges batch_ids (m :: ms) =>
    { s with
      stored := s.stored ++ ((m :: ms).take insertChunk).map Message.providerMessageId }.goto i
      { w with phase := .storing pending ranges batch_ids ((m :: ms).drop insertChunk) }
  | .restarting =>
    (if c.ranges = [] ∧ c.pending_ids = [] then s.startTraversal else s).goto i
      { w with phase := .reading }
  | .listing ranges =>
    match ranges.getLast? with
    | none => s.leave i
    | some r =>
      let page := listMessagePage s.mailbox r
      let w := { w with ranges_left := w.ranges_left - 1 }
      if page.2 then
        match splitEpoch now r with
        | none => s.leave i
        | some midpoint =>
          s.goto i { w with
            phase := .splitting ranges (ranges.dropLast ++ [(r.1, some midpoint),
              (some midpoint, r.2)]) }
      else s.goto i { w with phase := .claiming ranges page.1 s.traversal }
  | .splitting ranges replacement =>
    { s with
      cursor := some (if c.pending_ids = [] ∧ c.ranges = ranges then
        { c with ranges := replacement } else c) }.goto i { w with phase := .reading }
  | .claiming ranges ids _ =>
    let w := { w with phase := .reading }
    if c.pending_ids = [] ∧ c.ranges = ranges then
      { s with cursor := some ⟨ids, ranges.dropLast, none⟩ }.goto i
        (if ids = [] ∧ ranges.dropLast = [] then { w with phase := .finishing } else w)
    else s.goto i w
  | .finishing =>
    { s with
      cursor := some (if c.pending_ids = [] ∧ c.ranges = [] then
        { c with completed_at := some now } else c) }.leave i

/-- What can happen next. -/
inductive Act
  /-- Mail arrives. -/
  | arrive (mailbox : List Message)
  /-- The recent search or an archive import stores messages. -/
  | keep (keys : List String)
  /-- `_reconcile_one` is called: the row is inserted if it is missing. -/
  | call (i ranges_per_cycle messages_per_cycle : ℕ)
  /-- A worker makes its next statement. -/
  | advance (i : ℕ) (now : ℤ)
  /-- A worker is interrupted. -/
  | interrupt (i : ℕ)

/-- One step. -/
def step (s : State) : Act → Option State
  | .arrive mailbox =>
    if s.mailbox ⊆ mailbox ∧ (mailbox.map (·.id)).Nodup then some { s with mailbox } else none
  | .keep keys => some { s with stored := s.stored ++ keys }
  | .call i ranges_per_cycle messages_per_cycle =>
    if s.workers i = none then
      some ((if s.cursor = none then s.startTraversal else s).goto i
        ⟨ranges_per_cycle, messages_per_cycle, .reading⟩)
    else none
  | .advance i now =>
    match s.cursor, s.workers i with
    | some c, some w => some (statement s c i w now)
    | _, _ => none
  | .interrupt i => some (s.leave i)

/-- The condition on a step: a claim takes effect only in the traversal its listing was made in. -/
def Fresh (s : State) : Act → Prop
  | .advance i _ =>
    match s.cursor, s.workers i with
    | some c, some ⟨_, _, .claiming ranges _ traversal⟩ =>
      c.pending_ids = [] ∧ c.ranges = ranges → traversal = s.traversal
    | _, _ => True
  | _ => True

instance (s : State) (a : Act) : Decidable (Fresh s a) := by
  unfold Fresh
  split
  · split <;> infer_instance
  · infer_instance

/-! ## What a worker is owed -/

/-- An id is that of a message of the mailbox that is stored or among the new messages. -/
def Handled (s : State) (new_messages : List Message) (id : String) : Prop :=
  ∃ m ∈ s.mailbox, m.id = id ∧
    (s.isStored m ∨ m.providerMessageId ∈ new_messages.map Message.providerMessageId)

/-- Some range holds the epoch second. -/
def InRanges (ranges : List Range) (epoch : ℤ) : Prop := ∃ r ∈ ranges, r.holds epoch = true

/-- What holds of a worker at each statement. A batch being stored is handled; a split loses no
epoch second; and a listing made in the current traversal has every message of its range that was
there when the traversal started. -/
def PhaseOk (s : State) : Phase → Prop
  | .storing pending _ batch_ids new_messages =>
    batch_ids <+: pending ∧ ∀ id ∈ batch_ids, Handled s new_messages id
  | .splitting ranges replacement =>
    ranges ≠ [] ∧ ∀ epoch, InRanges ranges epoch → InRanges replacement epoch
  | .claiming ranges ids traversal =>
    traversal ≤ s.traversal ∧ (∀ id ∈ ids, ∃ m ∈ s.mailbox, m.id = id) ∧
      (traversal = s.traversal → ∀ m ∈ s.started, ∀ r ∈ ranges.getLast?, r.holds m.epoch = true →
        m.id ∈ ids)
  | _ => True

/-- The mail only grows: more messages, more rows, and the same traversal or a later one. -/
structure Grows (s s' : State) : Prop where
  mailbox : s.mailbox ⊆ s'.mailbox
  stored : s.stored ⊆ s'.stored
  traversal : s.traversal < s'.traversal ∨
    s'.traversal = s.traversal ∧ s'.started = s.started

/-- What a worker is owed survives growth. -/
theorem PhaseOk.mono {s s' : State} (hg : Grows s s') {phase : Phase} (h : PhaseOk s phase) :
    PhaseOk s' phase := by
  cases phase with
  | storing pending ranges batch_ids new_messages =>
    refine ⟨h.1, fun id hid => ?_⟩
    obtain ⟨m, hm, rfl, hs⟩ := h.2 id hid
    exact ⟨m, hg.mailbox hm, rfl, hs.imp_left fun hs => hg.stored hs⟩
  | splitting ranges replacement => exact h
  | claiming ranges ids traversal =>
    obtain ⟨hle, hids, hlist⟩ := h
    refine ⟨?_, fun id hid => ?_, fun ht => ?_⟩
    · rcases hg.traversal with hlt | ⟨heq, -⟩ <;> omega
    · obtain ⟨m, hm, rfl⟩ := hids id hid
      exact ⟨m, hg.mailbox hm, rfl⟩
    · rcases hg.traversal with hlt | ⟨heq, hstarted⟩
      · omega
      · rw [hstarted]
        exact hlist (ht.trans heq)
  | reading | fetching | restarting | listing | finishing => trivial

/-- The row of the cursor covers the messages that were there when the traversal started. -/
structure CursorOk (s : State) (c : Cursor) : Prop where
  covered : ∀ m ∈ s.started, s.isStored m ∨ m.id ∈ c.pending_ids ∨ InRanges c.ranges m.epoch
  known : ∀ id ∈ c.pending_ids, ∃ m ∈ s.mailbox, m.id = id
  completed : c.completed_at ≠ none → c.pending_ids = [] ∧ c.ranges = []

/-- A cursor that covers still does when the mail grows in the same traversal. -/
theorem CursorOk.mono {s s' : State} {c : Cursor} (h : CursorOk s c)
    (hmail : s.mailbox ⊆ s'.mailbox) (hstored : s.stored ⊆ s'.stored)
    (hstarted : s'.started = s.started) : CursorOk s' c := by
  refine ⟨fun m hm => ?_, fun id hid => ?_, h.completed⟩
  · rw [hstarted] at hm
    exact (h.covered m hm).imp_left fun hs => hstored hs
  · obtain ⟨m, hm, rfl⟩ := h.known id hid
    exact ⟨m, hmail hm, rfl⟩

/-- The coverage invariant. -/
structure Covered (s : State) : Prop where
  nodup : (s.mailbox.map (·.id)).Nodup
  started : s.started ⊆ s.mailbox
  cursor : ∀ c, s.cursor = some c → CursorOk s c
  workers : ∀ i w, s.workers i = some w → PhaseOk s w.phase

/-! ## One statement keeps the coverage -/

/-- A worker may go on at a statement that it meets the requirements of. -/
theorem Covered.goto {s : State} (h : Covered s) {i : ℕ} {w : Worker} (hw : PhaseOk s w.phase) :
    Covered (s.goto i w) := by
  refine ⟨h.nodup, h.started, fun c hc => ?_, fun j w' hj => ?_⟩
  · exact (h.cursor c hc).mono (fun _ hm => hm) (fun _ hk => hk) rfl
  · by_cases hij : j = i
    · subst hij
      obtain rfl : w = w' := by simpa [State.goto] using hj
      exact hw
    · exact h.workers j w' (by simpa [State.goto, Function.update_of_ne hij] using hj)

/-- A worker may leave. -/
theorem Covered.leave {s : State} (h : Covered s) {i : ℕ} : Covered (s.leave i) := by
  refine ⟨h.nodup, h.started, fun c hc => ?_, fun j w hj => ?_⟩
  · exact (h.cursor c hc).mono (fun _ hm => hm) (fun _ hk => hk) rfl
  · by_cases hij : j = i
    · subst hij
      simp [State.leave] at hj
    · exact h.workers j w (by simpa [State.leave, Function.update_of_ne hij] using hj)

/-- The cursor may be written with a row that covers. -/
theorem Covered.write {s : State} (h : Covered s) {c : Cursor} (hc : CursorOk s c) :
    Covered { s with cursor := some c } := by
  refine ⟨h.nodup, h.started, fun c' hc' => ?_, h.workers⟩
  obtain rfl := Option.some.inj hc'
  exact hc.mono (fun _ hm => hm) (fun _ hk => hk) rfl

/-- Rows may be stored. -/
theorem Covered.store {s : State} (h : Covered s) (keys : List String) :
    Covered { s with stored := s.stored ++ keys } := by
  have hg : Grows s { s with stored := s.stored ++ keys } :=
    ⟨fun _ hm => hm, List.subset_append_left _ _, .inr ⟨rfl, rfl⟩⟩
  refine ⟨h.nodup, h.started, fun c hc => ?_, fun i w hw => (h.workers i w hw).mono hg⟩
  exact (h.cursor c hc).mono hg.mailbox hg.stored rfl

/-- Mail may arrive. -/
theorem Covered.arrive {s : State} (h : Covered s) {mailbox : List Message}
    (hsub : s.mailbox ⊆ mailbox) (hnd : (mailbox.map (·.id)).Nodup) :
    Covered { s with mailbox } := by
  have hg : Grows s { s with mailbox } := ⟨hsub, fun _ hk => hk, .inr ⟨rfl, rfl⟩⟩
  refine ⟨hnd, fun m hm => hsub (h.started hm), fun c hc => ?_,
    fun i w hw => (h.workers i w hw).mono hg⟩
  exact (h.cursor c hc).mono hg.mailbox hg.stored rfl

/-- A traversal may start: the open range holds everything. -/
theorem Covered.startTraversal {s : State} (h : Covered s) : Covered s.startTraversal := by
  have hg : Grows s s.startTraversal :=
    ⟨fun _ hm => hm, fun _ hk => hk, .inl (Nat.lt_succ_self _)⟩
  refine ⟨h.nodup, fun _ hm => hm, fun c hc => ?_, fun i w hw => (h.workers i w hw).mono hg⟩
  obtain rfl : Cursor.default = c := Option.some.inj hc
  refine ⟨fun m _ => .inr (.inr ⟨(none, none), ?_, ?_⟩), ?_, ?_⟩ <;>
    simp [Cursor.default, Range.holds]

/-- Every id of a batch that was fetched is that of a message of the mailbox. -/
theorem mem_of_mapM_fetchMessage {mailbox : List Message} :
    ∀ {ids : List String} {messages : List Message},
      ids.mapM (fetchMessage mailbox) = some messages →
        ∀ id ∈ ids, ∃ m ∈ messages, m ∈ mailbox ∧ m.id = id
  | [], _, _, _, hid => by simp at hid
  | id :: ids, messages, h, id', hid => by
    simp only [List.mapM_cons, Option.bind_eq_bind, Option.pure_def, Option.bind_eq_some_iff,
      Option.some.injEq] at h
    obtain ⟨m, hm, ms, hms, rfl⟩ := h
    rcases List.mem_cons.mp hid with rfl | hid
    · have hmid : m.id = id' := by simpa using List.find?_some hm
      exact ⟨m, List.mem_cons_self, List.mem_of_find?_eq_some hm, hmid⟩
    · obtain ⟨m', hm', hrest⟩ := mem_of_mapM_fetchMessage hms id' hid
      exact ⟨m', List.mem_cons_of_mem _ hm', hrest⟩

/-- A message of a page is seen or new. -/
theorem seen_or_mem_unseen : ∀ (seen : List String) (messages : List Message), ∀ m ∈ messages,
    m.providerMessageId ∈ seen ∨
      m.providerMessageId ∈ (unseen seen messages).map Message.providerMessageId
  | _, [], _, hm => by simp at hm
  | seen, m' :: messages, m, hm => by
    unfold unseen
    by_cases hseen : m'.providerMessageId ∈ seen
    · rw [if_pos hseen]
      rcases List.mem_cons.mp hm with rfl | hm
      · exact .inl hseen
      · exact seen_or_mem_unseen seen messages m hm
    · rw [if_neg hseen, List.map_cons, List.mem_cons]
      rcases List.mem_cons.mp hm with rfl | hm
      · exact .inr (.inl rfl)
      · rcases seen_or_mem_unseen (m'.providerMessageId :: seen) messages m hm with h | h
        · exact (List.mem_cons.mp h).elim (fun h => .inr (.inl h)) .inl
        · exact .inr (.inr h)

/-- There are at most as many new messages as messages, so the limit of `_store_unseen` cuts
nothing off. -/
theorem length_unseen_le : ∀ (seen : List String) (messages : List Message),
    (unseen seen messages).length ≤ messages.length
  | _, [] => le_rfl
  | seen, m :: messages => by
    unfold unseen
    split
    · exact (length_unseen_le seen messages).trans (Nat.le_succ _)
    · exact Nat.succ_le_succ (length_unseen_le _ messages)

/-- A batch that was fetched is handled by its new messages. -/
theorem handled_of_fetched {s : State} {batch_ids : List String} {messages : List Message}
    (h : batch_ids.mapM (fetchMessage s.mailbox) = some messages) :
    ∀ id ∈ batch_ids, Handled s ((unseen s.stored messages).take messages.length) id := by
  intro id hid
  obtain ⟨m, hmem, hmail, rfl⟩ := mem_of_mapM_fetchMessage h id hid
  rw [List.take_of_length_le (length_unseen_le _ _)]
  exact ⟨m, hmail, rfl, seen_or_mem_unseen s.stored messages m hmem⟩

/-- Storing a chunk handles what it stores. -/
theorem Handled.store {s : State} {new_messages : List Message} {id : String}
    (h : Handled s new_messages id) (k : ℕ) :
    Handled { s with stored := s.stored ++ (new_messages.take k).map Message.providerMessageId }
      (new_messages.drop k) id := by
  obtain ⟨m, hm, rfl, hs⟩ := h
  refine ⟨m, hm, rfl, ?_⟩
  rcases hs with hs | hs
  · exact .inl (List.mem_append_left _ hs)
  · rw [← List.take_append_drop k new_messages, List.map_append, List.mem_append] at hs
    exact hs.imp_left (List.mem_append_right _)

/-- A page without a continuation token lists the whole range. -/
theorem mem_listMessagePage {mailbox : List Message} {r : Range}
    (h : (listMessagePage mailbox r).2 = false) {id : String} :
    id ∈ (listMessagePage mailbox r).1 ↔ ∃ m ∈ mailbox, r.holds m.epoch = true ∧ m.id = id := by
  simp only [listMessagePage, decide_eq_false_iff_not, Nat.not_lt] at h ⊢
  rw [List.take_of_length_le h]
  simp [and_assoc]

/-- The halves of a range hold what it holds. -/
theorem holds_halves {r : Range} {epoch : ℤ} (h : r.holds epoch = true) (midpoint : ℤ) :
    Range.holds (r.1, some midpoint) epoch = true ∨
      Range.holds (some midpoint, r.2) epoch = true := by
  simp only [Range.holds, Bool.and_eq_true, Option.all_some, decide_eq_true_eq] at h ⊢
  rcases lt_or_ge epoch midpoint with hlt | hge
  · exact .inl ⟨h.1, hlt⟩
  · exact .inr ⟨hge, h.2⟩

/-- Replacing the last range by its halves loses no epoch second. -/
theorem inRanges_split {ranges : List Range} {r : Range} (hr : ranges.getLast? = some r)
    (midpoint epoch : ℤ) (h : InRanges ranges epoch) :
    InRanges (ranges.dropLast ++ [(r.1, some midpoint), (some midpoint, r.2)]) epoch := by
  obtain ⟨r', hr', hold⟩ := h
  rw [← List.dropLast_append_getLast? r hr, List.mem_append, List.mem_singleton] at hr'
  rcases hr' with hr' | rfl
  · exact ⟨r', List.mem_append_left _ hr', hold⟩
  · rcases holds_halves hold midpoint with hl | hl
    · exact ⟨_, List.mem_append_right _ (by simp), hl⟩
    · exact ⟨_, List.mem_append_right _ (by simp), hl⟩

/-- Taking a batch that is handled, with nothing left to store, off the pending ids keeps the
coverage. -/
theorem CursorOk.drop {s : State} {c : Cursor} (h : CursorOk s c) (hnd : (s.mailbox.map (·.id)).Nodup)
    (hstarted : s.started ⊆ s.mailbox) {batch_ids : List String}
    (hpre : batch_ids <+: c.pending_ids) (hb : ∀ id ∈ batch_ids, Handled s [] id) :
    CursorOk s { c with pending_ids := c.pending_ids.drop batch_ids.length } := by
  obtain ⟨rest, hrest⟩ := hpre
  have hdrop : c.pending_ids.drop batch_ids.length = rest := by
    rw [← hrest, List.drop_left]
  refine ⟨fun m hm => ?_, fun id hid => ?_, fun hc => ?_⟩
  · rcases h.covered m hm with hs | hp | hr
    · exact .inl hs
    · rw [← hrest, List.mem_append] at hp
      rcases hp with hp | hp
      · -- The batch held the message: the row it handled is this message's, by its id.
        obtain ⟨m', hm', hid, hs⟩ := hb _ hp
        obtain rfl := List.inj_on_of_nodup_map hnd hm' (hstarted hm) hid
        exact .inl (by simpa using hs)
      · exact .inr (.inl (by rw [hdrop]; exact hp))
    · exact .inr (.inr hr)
  · exact h.known id (List.mem_of_mem_drop hid)
  · obtain ⟨hp, hr⟩ := h.completed hc
    exact ⟨by simp [hp], hr⟩

/-- Claiming the ids of the last range, when they have every message of it that was there when the
traversal started, keeps the coverage. -/
theorem CursorOk.claim {s : State} {c : Cursor} (h : CursorOk s c) {ids : List String}
    (hp : c.pending_ids = []) (hknown : ∀ id ∈ ids, ∃ m ∈ s.mailbox, m.id = id)
    (hlist : ∀ m ∈ s.started, ∀ r ∈ c.ranges.getLast?, r.holds m.epoch = true → m.id ∈ ids) :
    CursorOk s ⟨ids, c.ranges.dropLast, none⟩ := by
  refine ⟨fun m hm => ?_, hknown, fun hc => absurd rfl hc⟩
  rcases h.covered m hm with hs | hmem | ⟨r, hr, hold⟩
  · exact .inl hs
  · simp [hp] at hmem
  · have hne : c.ranges ≠ [] := List.ne_nil_of_mem hr
    rw [← List.dropLast_append_getLast hne, List.mem_append, List.mem_singleton] at hr
    rcases hr with hr | rfl
    · exact .inr (.inr ⟨r, hr, hold⟩)
    · exact .inr (.inl (hlist m hm _ (List.getLast?_eq_getLast_of_ne_nil hne) hold))

/-- One statement of a worker keeps the coverage, a claim when its listing is of the current
traversal. -/
theorem covered_statement {s : State} {c : Cursor} {i : ℕ} {w : Worker} (h : Covered s)
    (hc : s.cursor = some c) (hw : s.workers i = some w) (now : ℤ)
    (hfresh : Fresh s (.advance i now)) :
    Covered (statement s c i w now) := by
  have hphase := h.workers i w hw
  have hcur := h.cursor c hc
  have hsame : { s with cursor := some c } = s := by rw [← hc]
  unfold statement
  split
  -- The cursor is read, and with it what the worker does next.
  next =>
    split_ifs
    · exact h.leave
    · exact h.goto trivial
    · exact h.goto trivial
    · exact h.leave
    · exact h.goto trivial
  -- Messages that are fetched are handled, whether they are stored or gone.
  next pending ranges heq =>
    dsimp only
    split
    · exact h.leave
    next messages hm =>
      exact h.goto ⟨List.take_prefix _ _, handled_of_fetched hm⟩
  -- The drain is written only where the pending ids are still those that were fetched.
  next pending ranges batch_ids heq =>
    rw [heq] at hphase
    dsimp only
    split_ifs with hcas
    · obtain ⟨rfl, rfl⟩ := hcas
      exact (h.write (hcur.drop h.nodup h.started hphase.1 hphase.2)).goto trivial
    · obtain ⟨rfl, rfl⟩ := hcas
      exact (h.write (hcur.drop h.nodup h.started hphase.1 hphase.2)).goto trivial
    · exact h.goto trivial
  next pending ranges batch_ids m ms heq =>
    rw [heq] at hphase
    refine (h.store _).goto ⟨hphase.1, fun id hid => ?_⟩
    exact (hphase.2 id hid).store insertChunk
  -- A traversal starts where none is under way.
  next =>
    split_ifs
    · exact h.startTraversal.goto trivial
    · exact h.goto trivial
  -- A range is split, or listed to its end.
  next ranges heq =>
    split
    · exact h.leave
    next r hr =>
      dsimp only
      split_ifs with htoken
      -- The halves hold what the range held.
      · split
        · exact h.leave
        next midpoint hmid =>
          refine h.goto ⟨?_, fun epoch => inRanges_split hr midpoint epoch⟩
          rintro rfl
          simp at hr
      -- The list is complete, so that it has every message of the range that is old enough.
      · have hpage : (listMessagePage s.mailbox r).2 = false := by simpa using htoken
        refine h.goto ⟨le_rfl, fun id hid => ?_, fun _ m hm r' hr' hold => ?_⟩
        · obtain ⟨m, hm, -, rfl⟩ := (mem_listMessagePage hpage).mp hid
          exact ⟨m, hm, rfl⟩
        · obtain rfl : r = r' := Option.some.inj (hr.symm.trans hr')
          exact (mem_listMessagePage hpage).mpr ⟨m, h.started hm, hold, rfl⟩
  -- The split is written only where the cursor is still the one that was read.
  next ranges replacement heq =>
    rw [heq] at hphase
    obtain ⟨hne, hkeep⟩ := hphase
    split_ifs with hcas
    · obtain ⟨hp, rfl⟩ := hcas
      have hok : CursorOk s { c with ranges := replacement } :=
        ⟨fun m hm => (hcur.covered m hm).imp_right fun hr => hr.imp_right (hkeep m.epoch),
          hcur.known, fun hdone => absurd (hcur.completed hdone).2 hne⟩
      exact (h.write hok).goto trivial
    · rw [hsame]
      exact h.goto trivial
  -- The list becomes the pending ids in place of its range.
  next ranges ids traversal heq =>
    rw [heq] at hphase
    obtain ⟨-, hknown, hlist⟩ := hphase
    dsimp only
    by_cases hcas : c.pending_ids = [] ∧ c.ranges = ranges
    · rw [if_pos hcas]
      -- The list is of the current traversal, which the condition says.
      have hcurrent : traversal = s.traversal := by
        obtain ⟨ranges_left, messages_left, phase⟩ := w
        obtain rfl : phase = .claiming ranges ids traversal := heq
        simp only [Fresh, hc, hw] at hfresh
        exact hfresh hcas
      obtain ⟨hp, rfl⟩ := hcas
      have hok : CursorOk s ⟨ids, c.ranges.dropLast, none⟩ :=
        hcur.claim hp hknown (hlist hcurrent)
      split_ifs
      · exact (h.write hok).goto trivial
      · exact (h.write hok).goto trivial
    · rw [if_neg hcas]
      exact h.goto trivial
  -- The traversal is complete with no range left and nothing pending.
  next =>
    split_ifs with hcas
    · have hok : CursorOk s { c with completed_at := some now } :=
        ⟨hcur.covered, hcur.known, fun _ => hcas⟩
      exact (h.write hok).leave
    · rw [hsame]
      exact h.leave

/-- One step keeps the coverage. -/
theorem covered_step (s : State) (a : Act) (s' : State) (h : Covered s) (ha : Fresh s a)
    (hs : step s a = some s') : Covered s' := by
  cases a with
  | arrive mailbox =>
    simp only [step, Option.ite_none_right_eq_some, Option.some.injEq] at hs
    obtain ⟨⟨hsub, hnd⟩, rfl⟩ := hs
    exact h.arrive hsub hnd
  | keep keys =>
    simp only [step, Option.some.injEq] at hs
    subst hs
    exact h.store keys
  | call i ranges_per_cycle messages_per_cycle =>
    simp only [step, Option.ite_none_right_eq_some, Option.some.injEq] at hs
    obtain ⟨-, rfl⟩ := hs
    split_ifs
    · exact h.startTraversal.goto trivial
    · exact h.goto trivial
  | advance i now =>
    simp only [step] at hs
    split at hs
    next c w hc hw =>
      obtain rfl := Option.some.inj hs
      exact covered_statement h hc hw now ha
    next => contradiction
  | interrupt i =>
    simp only [step, Option.some.injEq] at hs
    subst hs
    exact h.leave

/-- Every state of a fresh run is covered. -/
theorem covered_of_run {s : State} (h : Run step Fresh .empty s) : Covered s :=
  h.invariant (by constructor <;> simp [State.empty]) covered_step

/-- A statement keeps the pending ids, unless it takes a batch off them. -/
theorem statement_pending {s : State} {c c' : Cursor} {i : ℕ} {w : Worker} {now : ℤ}
    (hc : s.cursor = some c) (hc' : (statement s c i w now).cursor = some c') :
    (∃ ranges batch_ids, w.phase = .storing c.pending_ids ranges batch_ids [] ∧
      c'.pending_ids = c.pending_ids.drop batch_ids.length) ∨ c.pending_ids ⊆ c'.pending_ids := by
  have hkept : s.cursor = some c' → c.pending_ids ⊆ c'.pending_ids := by
    intro h
    obtain rfl := Option.some.inj (hc.symm.trans h)
    exact List.Subset.refl _
  have hwrite : ∀ {c''}, c.pending_ids ⊆ c''.pending_ids → some c'' = some c' →
      c.pending_ids ⊆ c'.pending_ids := by
    rintro c'' hsub ⟨⟩
    exact hsub
  have hnil : c.pending_ids = [] → c.pending_ids ⊆ c'.pending_ids := by
    intro h
    rw [h]
    exact List.nil_subset _
  unfold statement at hc'
  split at hc'
  next => split_ifs at hc' <;> exact .inr (hkept hc')
  next =>
    dsimp only at hc'
    split at hc' <;> exact .inr (hkept hc')
  next pending ranges batch_ids heq =>
    dsimp only at hc'
    split_ifs at hc' with hcas
    · obtain ⟨rfl, rfl⟩ := hcas
      exact .inl ⟨c.ranges, batch_ids, heq, by rw [← Option.some.inj hc']⟩
    · obtain ⟨rfl, rfl⟩ := hcas
      exact .inl ⟨c.ranges, batch_ids, heq, by rw [← Option.some.inj hc']⟩
    · exact .inr (hkept hc')
  next => exact .inr (hkept hc')
  next =>
    split_ifs at hc' with hcas
    · exact .inr (hnil hcas.2)
    · exact .inr (hkept hc')
  next =>
    split at hc'
    · exact .inr (hkept hc')
    · dsimp only at hc'
      split_ifs at hc'
      · split at hc' <;> exact .inr (hkept hc')
      · exact .inr (hkept hc')
  next =>
    split_ifs at hc' with hcas
    · exact .inr (hnil hcas.1)
    · exact .inr (hwrite (List.Subset.refl _) hc')
  next =>
    dsimp only at hc'
    split_ifs at hc' with hcas
    · exact .inr (hnil hcas.1)
    · exact .inr (hnil hcas.1)
    · exact .inr (hkept hc')
  next =>
    split_ifs at hc' with hcas
    · exact .inr (hnil hcas.1)
    · exact .inr (hwrite (List.Subset.refl _) hc')

/-- An id leaves the pending ids only after it is stored. -/
theorem Covered.stored_of_dropped {s s' : State} (h : Covered s) {a : Act} {c c' : Cursor}
    (hs : step s a = some s') (hc : s.cursor = some c) (hc' : s'.cursor = some c') {id : String}
    (hid : id ∈ c.pending_ids) (hid' : id ∉ c'.pending_ids) :
    ∃ m ∈ s.mailbox, m.id = id ∧ s.isStored m := by
  have hkept : s'.cursor ≠ s.cursor := by
    intro heq
    obtain rfl := Option.some.inj (hc.symm.trans (heq.symm.trans hc'))
    exact hid' hid
  cases a with
  | arrive mailbox =>
    simp only [step, Option.ite_none_right_eq_some, Option.some.injEq] at hs
    obtain ⟨-, rfl⟩ := hs
    exact absurd rfl hkept
  | keep keys =>
    simp only [step, Option.some.injEq] at hs
    subst hs
    exact absurd rfl hkept
  | call i ranges_per_cycle messages_per_cycle =>
    simp only [step, hc, reduceCtorEq, if_false, Option.ite_none_right_eq_some,
      Option.some.injEq] at hs
    obtain ⟨-, rfl⟩ := hs
    exact absurd rfl hkept
  | interrupt i =>
    simp only [step, Option.some.injEq] at hs
    subst hs
    exact absurd rfl hkept
  | advance i now =>
    simp only [step] at hs
    split at hs
    next c₀ w hc₀ hw =>
      obtain rfl : c = c₀ := Option.some.inj (hc.symm.trans hc₀)
      obtain rfl := Option.some.inj hs
      rcases statement_pending hc hc' with ⟨ranges, batch_ids, hphase, hdrop⟩ | hsub
      · have hok := h.workers i w hw
        rw [hphase] at hok
        obtain ⟨⟨rest, hrest⟩, hb⟩ := hok
        have hrest' : c'.pending_ids = rest := by rw [hdrop, ← hrest, List.drop_left]
        rw [← hrest, List.mem_append, ← hrest'] at hid
        obtain ⟨m, hm, hmid, hst⟩ := hb id (hid.resolve_right hid')
        exact ⟨m, hm, hmid, by simpa using hst⟩
      · exact absurd (hsub hid) hid'
    next => contradiction

/-- Reconciliation never forgets a message, in a run that claims a listing only in the traversal it
was made in. A message that was in the mailbox when the traversal started is stored, or its id is
pending, or one of the outstanding ranges holds its epoch second; when `completed_at` is set it is
stored; and an id leaves the pending ids only after its message is stored. -/
theorem reconciliation_never_forgets {s : State} (h : Run step Fresh .empty s) (c : Cursor)
    (hc : s.cursor = some c) :
    (∀ m ∈ s.started, s.isStored m ∨ m.id ∈ c.pending_ids ∨ InRanges c.ranges m.epoch) ∧
      (c.completed_at ≠ none → ∀ m ∈ s.started, s.isStored m) ∧
      ∀ a s' c', step s a = some s' → s'.cursor = some c' → ∀ id ∈ c.pending_ids,
        id ∉ c'.pending_ids → ∃ m ∈ s.mailbox, m.id = id ∧ s.isStored m := by
  have hcov := covered_of_run h
  obtain ⟨hcovered, -, hcompleted⟩ := hcov.cursor c hc
  refine ⟨hcovered, fun hdone m hm => ?_, fun a s' c' hs hc' id hid hid' => ?_⟩
  · obtain ⟨hp, hr⟩ := hcompleted hdone
    rcases hcovered m hm with hst | hmem | ⟨r, hmem, -⟩
    · exact hst
    · simp [hp] at hmem
    · simp [hr] at hmem
  · exact hcov.stored_of_dropped hs hc hc' hid hid'

/-- Worker 1 lists the mailbox before the message arrives. Worker 2 finishes that traversal; the
message arrives, and worker 3 starts the next one. Worker 1 then claims its listing. -/
def restartRun : List Act :=
  [.call 1 10 500, .advance 1 0, .advance 1 0, .call 2 10 500, .advance 2 0, .advance 2 0,
    .advance 2 0, .advance 2 0, .arrive [⟨"18f0", 1700000000, "<a@example.com>"⟩], .call 3 10 500,
    .advance 3 0, .advance 3 0, .advance 1 0]

/-- Without the condition the claim fails: after `restartRun` the message was in the mailbox when
the traversal started, and is neither stored nor pending nor in a range. -/
theorem restart_forgets_message :
    ¬ ∀ s, Run step Always .empty s → ∀ c, s.cursor = some c → ∀ m ∈ s.started,
      s.isStored m ∨ m.id ∈ c.pending_ids ∨ InRanges c.ranges m.epoch := by
  intro hall
  have hrun : runList step .empty restartRun =
      some ((runList step .empty restartRun).get (by decide)) := by simp
  have h := hall _ (run_of_runList hrun) ⟨[], [], none⟩ (by decide)
    ⟨"18f0", 1700000000, "<a@example.com>"⟩ (by decide)
  revert h
  unfold State.isStored InRanges
  decide

/-- A traversal by two workers. Both list the one message, and the second claim is refused. -/
def twoWorkerRun : List Act :=
  [.arrive [⟨"18f0", 1700000000, "<a@example.com>"⟩], .call 1 10 500, .advance 1 0, .call 2 10 500,
    .advance 2 0, .advance 1 0, .advance 2 0, .advance 1 0, .advance 2 0, .advance 1 0,
    .advance 1 0, .advance 1 0, .advance 1 0, .advance 1 0]

/-- A fresh run: the two workers complete the traversal, and the message is stored. -/
theorem reconciliation_never_forgets_two_workers :
    ∃ s c m, Run step Fresh .empty s ∧ s.cursor = some c ∧ c.completed_at ≠ none ∧
      m ∈ s.started ∧ s.isStored m := by
  have hrun : runList (guarded step Fresh) .empty twoWorkerRun =
      some ((runList (guarded step Fresh) .empty twoWorkerRun).get (by decide)) := by simp
  have h := run_of_guarded (run_of_runList hrun)
  refine ⟨_, ⟨[], [], some 0⟩, ⟨"18f0", 1700000000, "<a@example.com>"⟩, h, by decide, by decide,
    by decide, ?_⟩
  exact (reconciliation_never_forgets h ⟨[], [], some 0⟩ (by decide)).2.1 (by decide) _ (by decide)

end JobScripts.Mail.Gmail

import JobScripts.Lib.Run
import Mathlib.Algebra.Order.Ring.Int
import Mathlib.Logic.Function.Basic

/-!
# The grant of a mailbox

`api/oauth`: the row of `user_oauth_tokens` of one person. Any number of workers ask for an access token
(`get_access_token`), which locks the row, and where the stored token is about to end asks the provider for another
under the lock; meanwhile the person may connect again (`exchange_code`) or disconnect (`disconnect`), and a process
may die between any two statements. The provider may put a new refresh token in the place of the one that it is shown.

The lock is what keeps the stored credential alive: while the provider drops nothing by itself and no answer that
replaces the token is lost, the row holds a token that the provider accepts (`stored_token_is_live`).
-/

namespace JobScripts.Mail.Grants

open Lib

/-! ## The statements -/

/-- `EXPIRY_SKEW`, in seconds. -/
def expirySkew : ℤ := 120

/-- `DEAD_GRANT_ERROR`: the error that the provider gives for a grant that is gone. -/
def deadGrantError : String := "invalid_grant"

/-- A row of `user_oauth_tokens`. A token is a number here, and it is stored as it is. -/
structure Row where
  refresh_token : ℕ
  access_token : Option ℕ
  access_token_expires_at : Option ℤ
  invalid_at : Option ℤ
  invalid_reason : Option String

/-- `usable`, with `now()`: there is a token that is good for a while yet. -/
def Row.usable (row : Row) (now : ℤ) : Bool :=
  row.access_token.isSome && row.access_token_expires_at.any fun expires => now + expirySkew < expires

/-- Where a call of `get_access_token` is, with its `now()`, which is fixed when the transaction begins. -/
inductive Call
  /-- Before its `SELECT … FOR UPDATE`. -/
  | begun (now : ℤ)
  /-- The `SELECT` waits for the lock of the row of its snapshot. -/
  | waiting (now : ℤ) (insertion : ℕ)
  /-- It holds the lock, and asks with the refresh token. -/
  | refreshing (now : ℤ) (refresh_token : ℕ)
  /-- It has an answer, which is not stored yet. -/
  | answered (now : ℤ) (access_token expires_in : ℕ) (refresh_token : Option ℕ)
  /-- The answer was that the grant is dead. -/
  | rejected (now : ℤ)

/-- What a call ends with. -/
inductive Outcome
  | token (access_token : ℕ)
  | notConnected
  | needsReconnect
  | providerError
  deriving DecidableEq

/-- The end of a call: its `now()`, when it returned, and what. -/
structure Result where
  now : ℤ
  returned : ℤ
  outcome : Outcome
  deriving DecidableEq

/-- Where a call of `exchange_code` is. -/
inductive Connect
  /-- It has the answer of the provider, since a time. -/
  | granted (answered : ℤ) (refresh_token : ℕ) (access_token : Option ℕ) (expires_in : ℕ)
  /-- Its `INSERT … ON CONFLICT DO UPDATE` has started, with this `now()`. -/
  | sent (now : ℤ) (refresh_token : ℕ) (access_token : Option ℕ) (expires_in : ℕ)

/-- The answer of the token endpoint to a refresh token. -/
inductive Answer
  /-- `required_env` fails, and nothing is asked. -/
  | unconfigured
  /-- Another error than `invalid_grant`, or none in time; the token may have been replaced all the same. -/
  | failed (rotated : Bool)
  /-- `invalid_grant`: the provider says that the grant is gone. -/
  | invalid
  /-- Success, maybe with another refresh token, or without an access token. -/
  | token (rotated access_token : Bool) (expires_in : Option ℕ)

/-- The answer of the token endpoint to a code. -/
inductive CodeAnswer
  /-- An error. -/
  | failed
  /-- Success, with the scopes that are required or not, and with tokens or not. -/
  | token (scopes refresh_token access_token : Bool) (expires_in : Option ℕ)

/-- What was stored, known to the proofs: by `exchange_code` or by a refresh, with its `now()`, and until when the
access token is usable. -/
structure Stored where
  connect : Bool
  now : ℤ
  expires_at : Option ℤ
  deriving DecidableEq

/-- The row, the calls, and what the provider knows; the last of what was stored is first. -/
structure State where
  clock : ℤ
  row : Option Row
  /-- How often the row has been inserted. -/
  insertions : ℕ
  /-- The call that has the lock of the row. -/
  holder : Option ℕ
  calls : ℕ → Option Call
  connects : ℕ → Option Connect
  /-- The refresh token that a call of `disconnect` has yet to revoke. -/
  disconnects : ℕ → Option ℕ
  /-- The refresh tokens that the provider accepts. -/
  live : ℕ → Bool
  /-- Until when the provider accepts an access token. -/
  expires : ℕ → ℤ
  /-- The tokens that the provider has given are below this one. -/
  issued : ℕ
  /-- How often a worker has asked the token endpoint. -/
  asked : ℕ
  /-- An answer that replaced a refresh token was lost. -/
  lost : Bool
  results : List Result
  stored : List Stored

/-- Nobody has connected. -/
def State.start (clock : ℤ) : State where
  clock := clock
  row := none
  insertions := 0
  holder := none
  calls _ := none
  connects _ := none
  disconnects _ := none
  live _ := false
  expires _ := 0
  issued := 0
  asked := 0
  lost := false
  results := []
  stored := []

/-- What can happen next. -/
inductive Act
  | tick (seconds : ℕ)
  /-- The transaction of `get_access_token` begins. -/
  | begin (w : ℕ)
  /-- Its `SELECT` takes its snapshot. -/
  | select (w : ℕ)
  /-- The `SELECT` returns. -/
  | lock (w : ℕ)
  /-- The answer of the provider. -/
  | answer (w : ℕ) (a : Answer)
  /-- The `UPDATE` of `_refresh_locked`, and the commit. -/
  | store (w : ℕ)
  /-- `_mark_invalid`: a worker that got this answer marks the row. -/
  | mark (w : ℕ)
  /-- The process dies. -/
  | crash (w : ℕ)
  /-- The answer of the provider to `exchange_code`. -/
  | exchange (x : ℕ) (a : CodeAnswer)
  /-- Its statement starts. -/
  | send (x : ℕ)
  /-- Its statement writes. -/
  | upsert (x : ℕ)
  /-- The process dies. -/
  | abandon (x : ℕ)
  /-- The `DELETE` of `disconnect`. -/
  | delete (y : ℕ)
  /-- The request of `disconnect`, which may not arrive. -/
  | revoke (y : ℕ) (arrives : Bool)
  /-- The provider drops a refresh token by itself. -/
  | drop (refresh_token : ℕ)

/-- A call goes on. -/
def State.goto (s : State) (w : ℕ) (call : Call) : State := { s with calls := Function.update s.calls w (some call) }

/-- A call ends, and the lock that it has is free. -/
def State.leave (s : State) (w : ℕ) : State :=
  { s with
    calls := Function.update s.calls w none
    holder := if s.holder = some w then none else s.holder }

/-- A call ends with an outcome. -/
def State.reply (s : State) (w : ℕ) (now : ℤ) (outcome : Outcome) : State :=
  { s.leave w with results := ⟨now, s.clock, outcome⟩ :: s.results }

/-- What the provider does when it is shown a refresh token that it accepts. -/
def State.refresh (s : State) (refresh_token : ℕ) (rotated : Bool) (expires_in : ℕ) : State :=
  { s with
    live := if rotated then Function.update (Function.update s.live refresh_token false) s.issued true else s.live
    expires := Function.update s.expires (s.issued + 1) (s.clock + expires_in)
    issued := s.issued + 2
    asked := s.asked + 1 }

/-- The row that a call has locked is read. -/
def State.read (s : State) (w : ℕ) (now : ℤ) (row : Row) : State :=
  if row.invalid_at.isSome then s.reply w now .needsReconnect
  else if row.usable now then
    match row.access_token with
    | some access_token => s.reply w now (.token access_token)
    | none => s
  else { s.goto w (.refreshing now row.refresh_token) with holder := some w }

/-- `_refresh_locked`, up to its `UPDATE`. -/
def State.answer (s : State) (w : ℕ) (now : ℤ) (refresh_token : ℕ) : Answer → Option State
  | .unconfigured => some (s.reply w now .providerError)
  | .failed false => some { s.reply w now .providerError with asked := s.asked + 1 }
  | .failed true =>
    -- The provider has acted, and its answer did not come.
    if s.live refresh_token then
      some { (s.refresh refresh_token true 0).reply w now .providerError with lost := true }
    else none
  | .invalid =>
    if s.live refresh_token then none
    else some { s.goto w (.rejected now) with asked := s.asked + 1 }
  | .token rotated access_token expires_in =>
    if s.live refresh_token then
      -- The tokens that are given are the next two numbers, the refresh token first.
      let t := s.refresh refresh_token rotated (expires_in.getD 0)
      if access_token then
        some (t.goto w (.answered now (s.issued + 1) (expires_in.getD 0) (if rotated then some s.issued else none)))
      else some { t.reply w now .providerError with lost := s.lost || rotated }
    else none

/-- The refresh token that a call has yet to store. -/
def Call.rotated : Call → Option ℕ
  | .answered _ _ _ refresh_token => refresh_token
  | .begun _ | .waiting .. | .refreshing .. | .rejected _ => none

/-- The row after `exchange_code`. -/
def connected (now : ℤ) (refresh_token : ℕ) (access_token : Option ℕ) (expires_in : ℕ) : Row :=
  ⟨refresh_token, access_token, some (now + expires_in), none, none⟩

/-- One statement, or one answer, at a time. -/
def step (s : State) : Act → Option State
  | .tick seconds => some { s with clock := s.clock + seconds }
  | .begin w =>
    match s.calls w with
    | none => some (s.goto w (.begun s.clock))
    | some _ => none
  | .select w =>
    match s.calls w with
    | some (.begun now) =>
      if s.row.isSome then some (s.goto w (.waiting now s.insertions)) else some (s.reply w now .notConnected)
    | _ => none
  | .lock w =>
    match s.calls w with
    | some (.waiting now insertion) =>
      match s.row with
      | some row =>
        -- A row that was inserted after the snapshot is not the one that the statement waits for.
        if s.insertions = insertion then
          if s.holder = none then some (s.read w now row) else none
        else some (s.reply w now .notConnected)
      | none => some (s.reply w now .notConnected)
    | _ => none
  | .answer w a =>
    match s.calls w with
    | some (.refreshing now refresh_token) => s.answer w now refresh_token a
    | _ => none
  | .store w =>
    match s.calls w, s.row with
    | some (.answered now access_token expires_in refresh_token), some row =>
      some { s.reply w now (.token access_token) with
        -- `COALESCE`: without another refresh token, the stored one stays.
        row := some { row with
          access_token := some access_token
          access_token_expires_at := some (now + expires_in)
          refresh_token := refresh_token.getD row.refresh_token }
        stored := ⟨false, now, some (now + expires_in)⟩ :: s.stored }
    | _, _ => none
  | .mark w =>
    match s.calls w, s.row with
    | some (.rejected now), some row =>
      some { s.reply w now .needsReconnect with
        -- The commit comes before the exception, so that the mark is not rolled back.
        row := some { row with
          invalid_at := some now
          invalid_reason := some deadGrantError
          access_token := none
          access_token_expires_at := none } }
    | _, _ => none
  | .crash w =>
    match s.calls w with
    -- The transaction is rolled back, and with it a token that was not stored yet.
    | some call => some { s.leave w with lost := s.lost || call.rotated.isSome }
    | none => none
  | .exchange x a =>
    match s.connects x, a with
    | none, .failed => some s
    | none, .token scopes refresh_token access_token expires_in =>
      let t := { s with
        live := if refresh_token then Function.update s.live s.issued true else s.live
        expires := Function.update s.expires (s.issued + 1) (s.clock + expires_in.getD 0)
        issued := s.issued + 2 }
      if scopes && refresh_token then
        some { t with
          connects := Function.update s.connects x (some (.granted s.clock s.issued
            (if access_token then some (s.issued + 1) else none) (expires_in.getD 0))) }
      -- `ScopeDeclined`, or no refresh token: what was granted is stored nowhere.
      else some t
    | some _, _ => none
  | .send x =>
    match s.connects x with
    | some (.granted _ refresh_token access_token expires_in) =>
      some { s with
        connects := Function.update s.connects x (some (.sent s.clock refresh_token access_token expires_in)) }
    | _ => none
  | .upsert x =>
    match s.connects x with
    | some (.sent now refresh_token access_token expires_in) =>
      -- `ON CONFLICT DO UPDATE` waits for the lock of the row, and its `now()` is the one from before the wait.
      if s.holder = none then
        some { s with
          connects := Function.update s.connects x none
          row := some (connected now refresh_token access_token expires_in)
          insertions := if s.row.isSome then s.insertions else s.insertions + 1
          stored := ⟨true, now, access_token.map fun _ => now + expires_in⟩ :: s.stored }
      else none
    | _ => none
  | .abandon x => some { s with connects := Function.update s.connects x none }
  | .delete y =>
    match s.disconnects y, s.row with
    | none, some row =>
      -- The `DELETE` waits too, and takes what is stored when it gets the row.
      if s.holder = none then
        some { s with row := none, disconnects := Function.update s.disconnects y (some row.refresh_token) }
      else none
    | _, _ => none
  | .revoke y arrives =>
    match s.disconnects y with
    | some refresh_token =>
      some { s with
        disconnects := Function.update s.disconnects y none
        live := if arrives then Function.update s.live refresh_token false else s.live }
    | none => none
  | .drop refresh_token => some { s with live := Function.update s.live refresh_token false }

/-! ## What a step does -/

section Steps

variable {s s' : State} {w : ℕ} {now : ℤ} {row : Row}

/-- A row that is usable has a token that ends after the margin. -/
theorem usable_iff : row.usable now = true ↔
    ∃ access_token expires, row.access_token = some access_token ∧ row.access_token_expires_at = some expires ∧
      now + expirySkew < expires := by
  simp only [Row.usable, Bool.and_eq_true, Option.isSome_iff_exists, Option.any_eq_true, decide_eq_true_eq]
  constructor
  · rintro ⟨⟨access_token, haccess⟩, expires, hexpires, hlt⟩
    exact ⟨access_token, expires, haccess, hexpires, hlt⟩
  · rintro ⟨access_token, expires, haccess, hexpires, hlt⟩
    exact ⟨⟨access_token, haccess⟩, expires, hexpires, hlt⟩

/-- A row that is read is dead, or it has a token that is usable, or the call keeps the lock and asks. -/
theorem read_cases (s : State) (w : ℕ) (now : ℤ) (row : Row) :
    row.invalid_at.isSome = true ∧ s.read w now row = s.reply w now .needsReconnect ∨
      (∃ access_token expires, row.access_token = some access_token ∧ row.access_token_expires_at = some expires ∧
        now + expirySkew < expires ∧ s.read w now row = s.reply w now (.token access_token)) ∨
      row.invalid_at = none ∧ row.usable now = false ∧
        s.read w now row = { s.goto w (.refreshing now row.refresh_token) with holder := some w } := by
  unfold State.read
  split
  · next hinvalid => exact .inl ⟨hinvalid, rfl⟩
  · next hvalid =>
    rw [Bool.not_eq_true, Option.isSome_eq_false_iff, Option.isNone_iff_eq_none] at hvalid
    split
    · next husable =>
      obtain ⟨access_token, expires, haccess, hexpires, hlt⟩ := usable_iff.mp husable
      rw [haccess]
      exact .inr (.inl ⟨access_token, expires, rfl, hexpires, hlt, rfl⟩)
    · next hstale => exact .inr (.inr ⟨hvalid, Bool.not_eq_true _ ▸ hstale, rfl⟩)

/-- An answer ends the call without a change, or with a new token that may be lost; or the grant is dead; or there is
an access token to store. -/
theorem answer_cases {refresh_token : ℕ} {a : Answer} (h : s.answer w now refresh_token a = some s') :
    (∃ asked, s' = { s.reply w now .providerError with asked }) ∨
      (s.live refresh_token = true ∧ ∃ rotated expires_in, s' =
        { (s.refresh refresh_token rotated expires_in).reply w now .providerError with lost := s.lost || rotated }) ∨
      (s.live refresh_token = false ∧ s' = { s.goto w (.rejected now) with asked := s.asked + 1 }) ∨
      (s.live refresh_token = true ∧ ∃ rotated expires_in, a = .token rotated true expires_in ∧
        s' = (s.refresh refresh_token rotated (expires_in.getD 0)).goto w
          (.answered now (s.issued + 1) (expires_in.getD 0) (if rotated then some s.issued else none))) := by
  cases a with
  | unconfigured => exact .inl ⟨s.asked, (Option.some_inj.mp h).symm⟩
  | failed rotated =>
    cases rotated with
    | false => exact .inl ⟨s.asked + 1, (Option.some_inj.mp h).symm⟩
    | true =>
      simp only [State.answer, Option.ite_none_right_eq_some, Option.some.injEq] at h
      obtain ⟨hlive, rfl⟩ := h
      exact .inr (.inl ⟨hlive, true, 0, by rw [Bool.or_true]⟩)
  | invalid =>
    simp only [State.answer, Option.ite_none_left_eq_some, Option.some.injEq] at h
    obtain ⟨hdead, rfl⟩ := h
    exact .inr (.inr (.inl ⟨Bool.not_eq_true _ ▸ hdead, rfl⟩))
  | token rotated access_token expires_in =>
    simp only [State.answer, Option.ite_none_right_eq_some] at h
    obtain ⟨hlive, h⟩ := h
    split at h
    · next haccess =>
      subst haccess
      exact .inr (.inr (.inr ⟨hlive, rotated, expires_in, rfl, (Option.some_inj.mp h).symm⟩))
    · exact .inr (.inl ⟨hlive, rotated, expires_in.getD 0, (Option.some_inj.mp h).symm⟩)

end Steps

/-! ## The lock -/

/-- The call has the lock. -/
def Call.locked : Call → Bool
  | .refreshing .. | .answered .. | .rejected _ => true
  | .begun _ | .waiting .. => false

/-- The lock is with one call, the row is there and was not dead, and the call shows the token that is stored. -/
structure Sound (s : State) : Prop where
  holder : ∀ w, s.holder = some w ↔ (s.calls w).any Call.locked = true
  row : ∀ w, s.holder = some w → ∃ row, s.row = some row ∧ row.invalid_at = none
  shown : ∀ w now refresh_token, s.calls w = some (.refreshing now refresh_token) →
    ∃ row, s.row = some row ∧ row.refresh_token = refresh_token

section Lock

variable {s s' : State} {w : ℕ} {now : ℤ} {a : Act}

/-- A call without the lock goes on without it. -/
theorem Sound.of_calls (h : Sound s) (hrow : s'.row = s.row) (hholder : s'.holder = s.holder)
    (hcalls : ∀ w, s'.calls w = s.calls w ∨
      (s.calls w).any Call.locked = false ∧ (s'.calls w).any Call.locked = false) : Sound s' where
  holder w := by
    rw [hholder, h.holder]
    rcases hcalls w with heq | ⟨hbefore, hafter⟩
    · rw [heq]
    · rw [hbefore, hafter]
  row w hw := hrow ▸ h.row w (hholder ▸ hw)
  shown w now refresh_token hw := by
    rcases hcalls w with heq | ⟨-, hafter⟩
    · exact hrow ▸ h.shown w now refresh_token (heq ▸ hw)
    · rw [hw] at hafter
      contradiction

/-- So does one beside it. -/
theorem Sound.goto (h : Sound s) (call : Call) (hw : (s.calls w).any Call.locked = false)
    (hcall : call.locked = false) : Sound (s.goto w call) := by
  refine h.of_calls rfl rfl fun w' => ?_
  by_cases hne : w' = w
  · subst hne
    exact .inr ⟨hw, by simpa [State.goto] using hcall⟩
  · exact .inl (Function.update_of_ne hne _ _)

/-- The other calls stay when one ends. -/
theorem calls_leave {w' : ℕ} (hne : w' ≠ w) : (s.leave w).calls w' = s.calls w' := Function.update_of_ne hne _ _

/-- A call that has ended is not there. -/
theorem calls_leave_self : (s.leave w).calls w = none := Function.update_self _ _ _

/-- The lock is free when the call that has it ends, and stays with another. -/
theorem holder_leave {w' : ℕ} : (s.leave w).holder = some w' ↔ s.holder = some w' ∧ w' ≠ w := by
  simp only [State.leave]
  split
  · next heq =>
    rw [heq]
    constructor
    · intro h
      contradiction
    · rintro ⟨h, hne⟩
      exact absurd (Option.some_inj.mp h).symm hne
  · next hne =>
    constructor
    · intro h
      refine ⟨h, ?_⟩
      rintro rfl
      exact hne h
    · exact And.left

/-- A call that ends leaves the rest as it is, also when it has written the row. -/
theorem Sound.leave (h : Sound s) (hholder : s'.holder = (s.leave w).holder) (hcalls : s'.calls = (s.leave w).calls)
    (hrow : s'.row = s.row ∨ s.holder = some w) : Sound s' where
  holder w' := by
    rw [hholder, hcalls, holder_leave, h.holder]
    by_cases hne : w' = w
    · subst hne
      rw [calls_leave_self]
      simp
    · rw [calls_leave hne]
      simp [hne]
  row w' hw' := by
    rw [hholder, holder_leave] at hw'
    rcases hrow with hrow | hw
    · exact hrow ▸ h.row w' hw'.1
    · exact absurd (Option.some_inj.mp (hw'.1.symm.trans hw)) hw'.2
  shown w' now refresh_token hw' := by
    rw [hcalls] at hw'
    have hne : w' ≠ w := by
      rintro rfl
      rw [calls_leave_self] at hw'
      contradiction
    rw [calls_leave hne] at hw'
    rcases hrow with hrow | hw
    · exact hrow ▸ h.shown w' now refresh_token hw'
    · have hholds : s.holder = some w' := (h.holder w').mpr (by rw [hw']; rfl)
      exact absurd (Option.some_inj.mp (hholds.symm.trans hw)) hne

/-- The call that has the lock goes on with it. -/
theorem Sound.keep (h : Sound s) (call : Call) (hw : s.holder = some w) (hcall : call.locked = true)
    (hasks : ∀ now refresh_token, call ≠ .refreshing now refresh_token) : Sound (s.goto w call) where
  holder w' := by
    by_cases hne : w' = w
    · subst hne
      simp [State.goto, hw, hcall]
    · simpa [State.goto, Function.update_of_ne hne] using h.holder w'
  row w' hw' := h.row w' hw'
  shown w' now refresh_token hw' := by
    by_cases hne : w' = w
    · subst hne
      simp only [State.goto, Function.update_self] at hw'
      exact absurd (Option.some_inj.mp hw') (hasks now refresh_token)
    · simp only [State.goto, Function.update_of_ne hne] at hw'
      exact h.shown w' now refresh_token hw'

/-- A free row is locked, or written, where nobody has the lock. -/
theorem Sound.free (h : Sound s) (hfree : s.holder = none) (w : ℕ) : (s.calls w).any Call.locked = false := by
  rw [← Bool.not_eq_true, ← h.holder w, hfree]
  exact (Option.some_ne_none w).symm

/-- The row is read by a call that waits for its lock. -/
theorem Sound.read (h : Sound s) (hfree : s.holder = none) {row : Row} (hrow : s.row = some row) :
    Sound (s.read w now row) := by
  rcases read_cases s w now row with ⟨-, heq⟩ | ⟨access_token, expires, -, -, -, heq⟩ | ⟨hvalid, -, heq⟩
  · exact heq ▸ h.leave rfl rfl (.inl rfl)
  · exact heq ▸ h.leave rfl rfl (.inl rfl)
  rw [heq]
  refine ⟨fun w' => ?_, fun w' _ => ⟨row, hrow, hvalid⟩, fun w' now' refresh_token hw' => ?_⟩
  · by_cases hne : w' = w
    · subst hne
      simp [State.goto, Call.locked]
    · simp only [State.goto, Function.update_of_ne hne, h.free hfree w', Bool.false_eq_true, iff_false,
        Option.some.injEq]
      exact fun heq => hne heq.symm
  · by_cases hne : w' = w
    · subst hne
      simp only [State.goto, Function.update_self, Option.some.injEq, Call.refreshing.injEq] at hw'
      exact ⟨row, hrow, hw'.2⟩
    · simp only [State.goto, Function.update_of_ne hne] at hw'
      exact h.shown w' now' refresh_token hw'

/-- The row is written where nobody has the lock. -/
theorem Sound.write (h : Sound s) (hfree : s.holder = none) (hholder : s'.holder = s.holder)
    (hcalls : s'.calls = s.calls) : Sound s' where
  holder w := by rw [hholder, hcalls, h.holder]
  row w hw := by
    rw [hholder, hfree] at hw
    contradiction
  shown w now refresh_token hw := by
    have hlocked := h.free hfree w
    rw [← hcalls, hw] at hlocked
    contradiction

/-- Every step keeps the lock with one call. -/
theorem Sound.step (h : Sound s) (hs : Grants.step s a = some s') : Sound s' := by
  cases a with
  | tick seconds =>
    obtain rfl := Option.some_inj.mp hs
    exact h.of_calls rfl rfl fun _ => .inl rfl
  -- A call takes the lock to read the row, and keeps it while it asks the provider.
  | begin w =>
    simp only [Grants.step] at hs
    split at hs
    · next hcall =>
      obtain rfl := Option.some_inj.mp hs
      exact h.goto (.begun s.clock) (by rw [hcall]; rfl) rfl
    · contradiction
  | select w =>
    simp only [Grants.step] at hs
    split at hs
    · next now hcall =>
      split at hs
      · obtain rfl := Option.some_inj.mp hs
        exact h.goto (.waiting now s.insertions) (by rw [hcall]; rfl) rfl
      · obtain rfl := Option.some_inj.mp hs
        exact h.leave rfl rfl (.inl rfl)
    · contradiction
  | lock w =>
    simp only [Grants.step] at hs
    split at hs
    · next now insertion hcall =>
      split at hs
      · next row hrow =>
        split at hs
        -- The lock is free, and the row is still the one that the call waits for.
        · rw [Option.ite_none_right_eq_some] at hs
          obtain ⟨hfree, hs⟩ := hs
          obtain rfl := Option.some_inj.mp hs
          exact h.read hfree hrow
        · obtain rfl := Option.some_inj.mp hs
          exact h.leave rfl rfl (.inl rfl)
      · obtain rfl := Option.some_inj.mp hs
        exact h.leave rfl rfl (.inl rfl)
    · contradiction
  -- The call with the lock is the one that is answered.
  | answer w a =>
    simp only [Grants.step] at hs
    split at hs
    · next now refresh_token hcall =>
      have hw : s.holder = some w := (h.holder w).mpr (by rw [hcall]; rfl)
      rcases answer_cases hs with ⟨asked, rfl⟩ | ⟨-, rotated, expires_in, rfl⟩ | ⟨-, rfl⟩ |
        ⟨-, rotated, expires_in, -, rfl⟩
      · exact h.leave rfl rfl (.inl rfl)
      · exact h.leave rfl rfl (.inl rfl)
      · exact (h.keep (.rejected now) hw rfl fun _ _ => nofun).of_calls rfl rfl fun _ => .inl rfl
      · have hrefresh : Sound (s.refresh refresh_token rotated (expires_in.getD 0)) :=
          h.of_calls rfl rfl fun _ => .inl rfl
        exact hrefresh.keep _ hw rfl fun _ _ => nofun
    · contradiction
  -- The lock goes with the end of the call.
  | store w =>
    simp only [Grants.step] at hs
    split at hs
    · next now access_token expires_in refresh_token row hcall hrow =>
      obtain rfl := Option.some_inj.mp hs
      exact h.leave rfl rfl (.inr ((h.holder w).mpr (by rw [hcall]; rfl)))
    · contradiction
  | mark w =>
    simp only [Grants.step] at hs
    split at hs
    · next now row hcall hrow =>
      obtain rfl := Option.some_inj.mp hs
      exact h.leave rfl rfl (.inr ((h.holder w).mpr (by rw [hcall]; rfl)))
    · contradiction
  | crash w =>
    simp only [Grants.step] at hs
    split at hs
    · obtain rfl := Option.some_inj.mp hs
      exact h.leave rfl rfl (.inl rfl)
    · contradiction
  -- A connection and a disconnection write the row where the lock is free, and in one step.
  | exchange x a =>
    simp only [Grants.step] at hs
    split at hs
    · exact Option.some_inj.mp hs ▸ h
    · split at hs
      · obtain rfl := Option.some_inj.mp hs
        exact h.of_calls rfl rfl fun _ => .inl rfl
      · obtain rfl := Option.some_inj.mp hs
        exact h.of_calls rfl rfl fun _ => .inl rfl
    · contradiction
  | send x =>
    simp only [Grants.step] at hs
    split at hs
    · obtain rfl := Option.some_inj.mp hs
      exact h.of_calls rfl rfl fun _ => .inl rfl
    · contradiction
  | upsert x =>
    simp only [Grants.step] at hs
    split at hs
    · rw [Option.ite_none_right_eq_some] at hs
      obtain ⟨hfree, hs⟩ := hs
      obtain rfl := Option.some_inj.mp hs
      exact h.write hfree rfl rfl
    · contradiction
  | abandon x =>
    obtain rfl := Option.some_inj.mp hs
    exact h.of_calls rfl rfl fun _ => .inl rfl
  | delete y =>
    simp only [Grants.step] at hs
    split at hs
    · rw [Option.ite_none_right_eq_some] at hs
      obtain ⟨hfree, hs⟩ := hs
      obtain rfl := Option.some_inj.mp hs
      exact h.write hfree rfl rfl
    · contradiction
  | revoke y arrives =>
    simp only [Grants.step] at hs
    split at hs
    · obtain rfl := Option.some_inj.mp hs
      exact h.of_calls rfl rfl fun _ => .inl rfl
    · contradiction
  | drop refresh_token =>
    obtain rfl := Option.some_inj.mp hs
    exact h.of_calls rfl rfl fun _ => .inl rfl

/-- Nobody has the lock at the start. -/
theorem Sound.start (clock : ℤ) : Sound (.start clock) where
  holder w := by simp [State.start]
  row w hw := by
    simp only [State.start] at hw
    contradiction
  shown w now refresh_token hw := by
    simp only [State.start] at hw
    contradiction

end Lock

/-! ## The refresh tokens -/

/-- The refresh token that a connection has yet to store. -/
def Connect.refreshToken : Connect → ℕ
  | .granted _ refresh_token _ _ | .sent _ refresh_token _ _ => refresh_token

/-- Where a refresh token is kept. -/
inductive Owner
  | row
  | call (w : ℕ)
  | connect (x : ℕ)
  | disconnect (y : ℕ)
  deriving DecidableEq

/-- The token that is kept there. -/
def State.token (s : State) : Owner → Option ℕ
  | .row => s.row.map Row.refresh_token
  | .call w => (s.calls w).bind Call.rotated
  | .connect x => (s.connects x).map Connect.refreshToken
  | .disconnect y => s.disconnects y

/-- The condition on a step: the provider drops no refresh token by itself. -/
def Keeps (_ : State) : Act → Prop
  | .drop _ => False
  | _ => True

/-- No token is kept twice; the provider accepts those that are yet to be stored, and that of the row unless a call
is about to replace it; and no answer has been that the grant is dead. -/
structure Alive (s : State) : Prop where
  fresh : ∀ o t, s.token o = some t → t < s.issued
  inj : ∀ o o' t, s.token o = some t → s.token o' = some t → o = o'
  live : ∀ o t, s.token o = some t → (∀ y, o ≠ .disconnect y) → (o = .row → ∀ w, s.token (.call w) = none) →
    s.live t = true
  valid : ∀ row, s.row = some row → row.invalid_at = none
  answers : ∀ w now, s.calls w ≠ some (.rejected now)

section Tokens

variable {s s' : State} {w : ℕ} {now : ℤ} {a : Act}

/-- Tokens move from one place to another. -/
theorem Alive.move (h : Alive s) (source : Owner → Owner)
    (htoken : ∀ o t, s'.token o = some t → s.token (source o) = some t)
    (hinj : ∀ o o' t, s'.token o = some t → s'.token o' = some t → source o = source o' → o = o')
    (hissued : s.issued ≤ s'.issued)
    (hlive : ∀ o t, s'.token o = some t → (∀ y, o ≠ .disconnect y) → (o = .row → ∀ w, s'.token (.call w) = none) →
      s'.live t = true)
    (hvalid : ∀ row, s'.row = some row → row.invalid_at = none)
    (hanswers : ∀ w now, s'.calls w ≠ some (.rejected now)) : Alive s' where
  fresh o t ho := Nat.lt_of_lt_of_le (h.fresh _ t (htoken o t ho)) hissued
  inj o o' t ho ho' := hinj o o' t ho ho' (h.inj _ _ t (htoken o t ho) (htoken o' t ho'))
  live := hlive
  valid := hvalid
  answers := hanswers

/-- Tokens stay where they are, or are forgotten, and none of them is dropped. -/
theorem Alive.of_tokens (h : Alive s) (htoken : ∀ o t, s'.token o = some t → s.token o = some t)
    (hcall : ∀ w, s'.token (.call w) = s.token (.call w)) (hissued : s.issued ≤ s'.issued)
    (hlive : ∀ o t, s'.token o = some t → (∀ y, o ≠ .disconnect y) → s.live t = true → s'.live t = true)
    (hvalid : ∀ row, s'.row = some row → row.invalid_at = none)
    (hanswers : ∀ w now, s'.calls w = some (.rejected now) → s.calls w = some (.rejected now)) : Alive s' := by
  refine h.move id htoken (fun _ _ _ _ _ heq => heq) hissued (fun o t ho hne hrow => ?_) hvalid fun w now hw =>
    h.answers w now (hanswers w now hw)
  exact hlive o t ho hne (h.live o t (htoken o t ho) hne fun heq w => hcall w ▸ hrow heq w)

/-- A call that keeps no token does not change what is kept. -/
theorem token_goto {call : Call} (hbefore : (s.calls w).bind Call.rotated = none) (hafter : call.rotated = none) :
    (s.goto w call).token = s.token := by
  funext o
  cases o with
  | call w' =>
    by_cases hne : w' = w
    · subst hne
      simp only [State.token, State.goto, Function.update_self, Option.bind_some]
      rw [hafter, hbefore]
    · simp only [State.token, State.goto, Function.update_of_ne hne]
  | _ => rfl

/-- Nor does the end of one. -/
theorem token_leave (hbefore : (s.calls w).bind Call.rotated = none) : (s.leave w).token = s.token := by
  funext o
  cases o with
  | call w' =>
    by_cases hne : w' = w
    · subst hne
      simp only [State.token, calls_leave_self, Option.bind_none]
      exact hbefore.symm
    · simp only [State.token, calls_leave hne]
  | _ => rfl

/-- What is kept is in the row and with the calls. -/
theorem token_congr (hrow : s'.row = s.row) (hcalls : s'.calls = s.calls) (hconnects : s'.connects = s.connects)
    (hdisconnects : s'.disconnects = s.disconnects) : s'.token = s.token := by
  funext o
  cases o with
  | row => rw [State.token, State.token, hrow]
  | call w => rw [State.token, State.token, hcalls]
  | connect x => rw [State.token, State.token, hconnects]
  | disconnect y => rw [State.token, State.token, hdisconnects]

/-- Where one call goes on, the other tokens stay. -/
theorem token_of_ne_call {o : Owner} {call : Option Call} (hrow : s'.row = s.row)
    (hcalls : s'.calls = Function.update s.calls w call) (hconnects : s'.connects = s.connects)
    (hdisconnects : s'.disconnects = s.disconnects) (hne : o ≠ .call w) : s'.token o = s.token o := by
  cases o with
  | row => rw [State.token, State.token, hrow]
  | call w' =>
    have hw' : w' ≠ w := fun heq => hne (heq ▸ rfl)
    rw [State.token, State.token, hcalls, Function.update_of_ne hw']
  | connect x => rw [State.token, State.token, hconnects]
  | disconnect y => rw [State.token, State.token, hdisconnects]

/-- Where one connection goes on, the other tokens stay. -/
theorem token_of_ne_connect {o : Owner} {x : ℕ} {connect : Option Connect} (hrow : s'.row = s.row)
    (hcalls : s'.calls = s.calls) (hconnects : s'.connects = Function.update s.connects x connect)
    (hdisconnects : s'.disconnects = s.disconnects) (hne : o ≠ .connect x) : s'.token o = s.token o := by
  cases o with
  | row => rw [State.token, State.token, hrow]
  | call w => rw [State.token, State.token, hcalls]
  | connect x' =>
    have hx' : x' ≠ x := fun heq => hne (heq ▸ rfl)
    rw [State.token, State.token, hconnects, Function.update_of_ne hx']
  | disconnect y => rw [State.token, State.token, hdisconnects]

/-- A connection that goes on keeps its token. -/
theorem token_connect {x : ℕ} {connect connect' : Connect} (hconnect : s.connects x = some connect)
    (hsame : connect'.refreshToken = connect.refreshToken) :
    { s with connects := Function.update s.connects x (some connect') }.token = s.token := by
  funext o
  by_cases hne : o = .connect x
  · simp only [hne, State.token, Function.update_self, hconnect, Option.map_some, hsame]
  · exact token_of_ne_connect rfl rfl rfl rfl hne

/-- Nothing that is kept changes, and the provider drops nothing. -/
theorem Alive.same (h : Alive s) (htoken : s'.token = s.token) (hrow : s'.row = s.row)
    (hissued : s.issued ≤ s'.issued) (hlive : ∀ t, t < s.issued → s'.live t = s.live t)
    (hanswers : ∀ w now, s'.calls w = some (.rejected now) → s.calls w = some (.rejected now)) : Alive s' := by
  refine h.of_tokens (fun o t ho => htoken ▸ ho) (fun w => congrFun htoken _) hissued (fun o t ho _ ht => ?_)
    (hrow ▸ h.valid) hanswers
  rw [htoken] at ho
  rw [hlive t (h.fresh o t ho), ht]

/-- A call without a token to store ends. -/
theorem Alive.reply (h : Alive s) (hcall : (s.calls w).bind Call.rotated = none) (hrow : s'.row = s.row)
    (hcalls : s'.calls = (s.leave w).calls) (hconnects : s'.connects = s.connects)
    (hdisconnects : s'.disconnects = s.disconnects) (hissued : s.issued ≤ s'.issued)
    (hlive : ∀ t, t < s.issued → s'.live t = s.live t) : Alive s' := by
  have htoken : s'.token = (s.leave w).token := token_congr hrow hcalls hconnects hdisconnects
  refine h.same (htoken.trans (token_leave hcall)) hrow hissued hlive fun w' now hw' => ?_
  rw [hcalls] at hw'
  by_cases hne : w' = w
  · subst hne
    rw [calls_leave_self] at hw'
    contradiction
  · rwa [calls_leave hne] at hw'

/-- A call without a token to store goes on. -/
theorem Alive.goto (h : Alive s) (call : Call) (hcall : (s.calls w).bind Call.rotated = none)
    (hafter : call.rotated = none) (hanswer : ∀ now, call ≠ .rejected now) (hrow : s'.row = s.row)
    (hcalls : s'.calls = (s.goto w call).calls) (hconnects : s'.connects = s.connects)
    (hdisconnects : s'.disconnects = s.disconnects) (hissued : s'.issued = s.issued) (hlive : s'.live = s.live) :
    Alive s' := by
  have htoken : s'.token = (s.goto w call).token := token_congr hrow hcalls hconnects hdisconnects
  refine h.same (htoken.trans (token_goto hcall hafter)) hrow (Nat.le_of_eq hissued.symm) (fun t _ => by rw [hlive])
    fun w' now hw' => ?_
  rw [hcalls] at hw'
  by_cases hne : w' = w
  · subst hne
    simp only [State.goto, Function.update_self] at hw'
    exact absurd (Option.some_inj.mp hw') (hanswer now)
  · simpa only [State.goto, Function.update_of_ne hne] using hw'

/-- Only the call that has the lock has a token to store. -/
theorem Sound.rotated (h : Sound s) {t : ℕ} (ht : s.token (.call w) = some t) : s.holder = some w := by
  refine (h.holder w).mpr ?_
  unfold State.token at ht
  rw [Option.bind_eq_some_iff] at ht
  obtain ⟨call, hcall, hrotated⟩ := ht
  rw [hcall]
  cases call with
  | answered => rfl
  | begun | waiting | refreshing | rejected => contradiction

/-- Where the lock is with a call that keeps no token, the token of the row is accepted. -/
theorem Alive.row_live (h : Alive s) (hsound : Sound s) {row : Row} (hrow : s.row = some row)
    (hholder : ∀ w, s.holder = some w → s.token (.call w) = none) : s.live row.refresh_token = true := by
  refine h.live .row row.refresh_token (by rw [State.token, hrow]; rfl) (fun _ => nofun) fun _ w => ?_
  cases ht : s.token (.call w) with
  | none => rfl
  | some t => exact ht ▸ hholder w (hsound.rotated ht)

/-- The provider has replaced the token of the row, and the call that has asked keeps the new one. -/
theorem Alive.rotate (h : Alive s) {row : Row} (hrow : s.row = some row) {access_token expires_in : ℕ}
    (hrow' : s'.row = s.row)
    (hcalls : s'.calls = Function.update s.calls w (some (.answered now access_token expires_in (some s.issued))))
    (hconnects : s'.connects = s.connects) (hdisconnects : s'.disconnects = s.disconnects)
    (hissued : s'.issued = s.issued + 2)
    (hlive : s'.live = Function.update (Function.update s.live row.refresh_token false) s.issued true) :
    Alive s' := by
  have hself : s'.token (.call w) = some s.issued := by
    rw [State.token, hcalls, Function.update_self]
    rfl
  have hnew : ∀ o t, s'.token o = some t → o = .call w ∧ t = s.issued ∨ o ≠ .call w ∧ s.token o = some t := by
    intro o t ho
    by_cases hne : o = .call w
    · subst hne
      exact .inl ⟨rfl, Option.some_inj.mp (ho.symm.trans hself)⟩
    · exact .inr ⟨hne, (token_of_ne_call hrow' hcalls hconnects hdisconnects hne).symm.trans ho⟩
  refine ⟨fun o t ho => ?_, fun o o' t ho ho' => ?_, fun o t ho hne honly => ?_, hrow' ▸ h.valid,
    fun w' now' hw' => ?_⟩
  · rcases hnew o t ho with ⟨-, rfl⟩ | ⟨-, ho⟩
    · omega
    · have := h.fresh o t ho
      omega
  · rcases hnew o t ho with ⟨rfl, rfl⟩ | ⟨-, ho⟩ <;> rcases hnew o' _ ho' with ⟨rfl, heq⟩ | ⟨-, ho'⟩
    · rfl
    · exact absurd (h.fresh o' _ ho') (Nat.lt_irrefl _)
    · subst heq
      exact absurd (h.fresh o _ ho) (Nat.lt_irrefl _)
    · exact h.inj o o' t ho ho'
  · rw [hlive]
    rcases hnew o t ho with ⟨rfl, rfl⟩ | ⟨-, ho⟩
    · exact Function.update_self _ _ _
    -- Another token that is kept is not that of the row, which waits for the new one.
    have hother : o ≠ .row := by
      intro heq
      have hnone := honly heq w
      rw [hself] at hnone
      contradiction
    have hlt := h.fresh o t ho
    have ht : t ≠ row.refresh_token := by
      rintro rfl
      exact hother (h.inj o .row _ ho (by rw [State.token, hrow]; rfl))
    rw [Function.update_of_ne (by omega), Function.update_of_ne ht]
    exact h.live o t ho hne fun heq => absurd heq hother
  · rw [hcalls] at hw'
    by_cases hne : w' = w
    · subst hne
      rw [Function.update_self] at hw'
      exact Call.noConfusion (Option.some_inj.mp hw')
    · rw [Function.update_of_ne hne] at hw'
      exact h.answers w' now' hw'

/-- The answer to a call that keeps the lock. -/
theorem Alive.answer (h : Alive s) (hsound : Sound s) {refresh_token : ℕ}
    (hcall : s.calls w = some (.refreshing now refresh_token)) {b : Answer}
    (hs : s.answer w now refresh_token b = some s') (hlost : s'.lost = false) : Alive s' := by
  have hnone : (s.calls w).bind Call.rotated = none := by rw [hcall]; rfl
  have hw : s.holder = some w := (hsound.holder w).mpr (by rw [hcall]; rfl)
  obtain ⟨row, hrow, rfl⟩ := hsound.shown w now refresh_token hcall
  have hlive := h.row_live hsound hrow fun w' hw' => by
    obtain rfl := Option.some_inj.mp (hw.symm.trans hw')
    exact hnone
  rcases answer_cases hs with ⟨asked, rfl⟩ | ⟨-, rotated, expires_in, rfl⟩ | ⟨hdead, -⟩ |
    ⟨-, rotated, expires_in, -, rfl⟩
  · exact h.reply hnone rfl rfl rfl rfl (Nat.le_refl _) fun _ _ => rfl
  · -- The answer has replaced no token, as none is lost.
    obtain rfl : rotated = false := (Bool.or_eq_false_iff.mp hlost).2
    exact h.reply hnone rfl rfl rfl rfl (Nat.le_add_right _ _) fun _ _ => rfl
  · exact Bool.noConfusion (hlive.symm.trans hdead)
  · cases rotated with
    | false =>
      have hgoes : Alive (s.goto w (.answered now (s.issued + 1) (expires_in.getD 0) none)) :=
        h.goto (.answered now (s.issued + 1) (expires_in.getD 0) none) hnone rfl (fun _ => Call.noConfusion)
          rfl rfl rfl rfl rfl rfl
      exact hgoes.same rfl rfl (Nat.le_add_right _ _) (fun _ _ => rfl) fun _ _ => id
    | true => exact h.rotate hrow rfl rfl rfl rfl rfl rfl

/-- A token moves from one place to another, or stays where both are the same. -/
theorem Alive.transfer (h : Alive s) (p q : Owner) (hgone : p ≠ q → s'.token p = none)
    (htaken : ∀ t, s'.token q = some t → s.token p = some t)
    (hother : ∀ o t, o ≠ q → s'.token o = some t → s.token o = some t) (hissued : s'.issued = s.issued)
    (hlive : ∀ o t, s'.token o = some t → (∀ y, o ≠ .disconnect y) → s'.live t = true)
    (hvalid : ∀ row, s'.row = some row → row.invalid_at = none)
    (hanswers : ∀ w now, s'.calls w ≠ some (.rejected now)) : Alive s' := by
  -- What is taken from is left empty.
  have hempty : ∀ o t, s'.token o = some t → o ≠ q → o ≠ p := by
    rintro o t ho hne rfl
    rw [hgone hne] at ho
    contradiction
  refine h.move (fun o => if o = q then p else o) (fun o t ho => ?_) (fun o o' t ho ho' heq => ?_)
    (Nat.le_of_eq hissued.symm) (fun o t ho hne _ => hlive o t ho hne) hvalid hanswers
  · split
    · next heq => exact htaken t (heq ▸ ho)
    · next hne => exact hother o t hne ho
  · split at heq <;> split at heq
    · next hq hq' => exact hq.trans hq'.symm
    · next hq hq' => exact absurd heq.symm (hempty o' t ho' hq')
    · next hq hq' => exact absurd heq (hempty o t ho hq)
    · exact heq

/-- The row takes a token that the provider accepts. -/
theorem Alive.toRow (h : Alive s) (p : Owner) (hgone : p ≠ .row → s'.token p = none)
    (htaken : ∀ t, s'.token .row = some t → s.token p = some t ∧ s.live t = true)
    (hother : ∀ o t, o ≠ .row → s'.token o = some t → s.token o = some t) (hissued : s'.issued = s.issued)
    (hlive : s'.live = s.live) (hvalid : ∀ row, s'.row = some row → row.invalid_at = none)
    (hanswers : ∀ w now, s'.calls w ≠ some (.rejected now)) : Alive s' := by
  refine h.transfer p .row hgone (fun t ht => (htaken t ht).1) hother hissued (fun o t ho hne => ?_) hvalid hanswers
  rw [hlive]
  by_cases hrow : o = .row
  · subst hrow
    exact (htaken t ho).2
  · exact h.live o t (hother o t hrow ho) hne fun heq => absurd heq hrow

/-- The answers that are left when a call ends. -/
theorem Alive.answers_leave (h : Alive s) (hcalls : s'.calls = (s.leave w).calls) (w' : ℕ) (now : ℤ) :
    s'.calls w' ≠ some (.rejected now) := by
  intro hw'
  rw [hcalls] at hw'
  by_cases hne : w' = w
  · subst hne
    rw [calls_leave_self] at hw'
    contradiction
  · rw [calls_leave hne] at hw'
    exact h.answers w' now hw'

/-- What a call has got is stored. -/
theorem Alive.store (h : Alive s) (hsound : Sound s) {access_token expires_in : ℕ} {refresh_token : Option ℕ}
    {row row' : Row} (hcall : s.calls w = some (.answered now access_token expires_in refresh_token))
    (hrow : s.row = some row) (hrow' : s'.row = some row') (hvalid : row'.invalid_at = row.invalid_at)
    (htoken : row'.refresh_token = refresh_token.getD row.refresh_token) (hcalls : s'.calls = (s.leave w).calls)
    (hconnects : s'.connects = s.connects) (hdisconnects : s'.disconnects = s.disconnects)
    (hissued : s'.issued = s.issued) (hlive : s'.live = s.live) : Alive s' := by
  have hgot : s.token (.call w) = refresh_token := by
    rw [State.token, hcall]
    rfl
  have hended : s'.token (.call w) = none := by
    rw [State.token, hcalls, calls_leave_self]
    rfl
  have hother : ∀ o t, o ≠ .row → s'.token o = some t → s.token o = some t := by
    intro o t hne ho
    cases o with
    | row => exact absurd rfl hne
    | call w' =>
      have hw' : w' ≠ w := by
        rintro rfl
        rw [hended] at ho
        contradiction
      rwa [State.token, hcalls, calls_leave hw'] at ho
    | connect x => rwa [State.token, hconnects] at ho
    | disconnect y => rwa [State.token, hdisconnects] at ho
  have hvalid' : ∀ r, s'.row = some r → r.invalid_at = none := by
    intro r hr
    obtain rfl := Option.some_inj.mp (hrow'.symm.trans hr)
    exact hvalid.trans (h.valid row hrow)
  have hkept : s'.token .row = some row'.refresh_token := by
    rw [State.token, hrow']
    rfl
  cases hrefresh : refresh_token with
  | none =>
    -- The token of the row stays, and no other call has the lock.
    have hsame : row'.refresh_token = row.refresh_token := by rw [htoken, hrefresh]; rfl
    refine h.toRow .row (fun hne => absurd rfl hne) (fun t ht => ?_) hother hissued hlive hvalid'
      (h.answers_leave hcalls)
    obtain rfl := Option.some_inj.mp (hkept.symm.trans ht)
    rw [hsame]
    refine ⟨by rw [State.token, hrow]; rfl, h.row_live hsound hrow fun w' hw' => ?_⟩
    have hw : s.holder = some w := (hsound.holder w).mpr (by rw [hcall]; rfl)
    obtain rfl := Option.some_inj.mp (hw.symm.trans hw')
    rw [hgot, hrefresh]
  | some r =>
    have hsame : row'.refresh_token = r := by rw [htoken, hrefresh]; rfl
    rw [hrefresh] at hgot
    refine h.toRow (.call w) (fun _ => hended) (fun t ht => ?_) hother hissued hlive hvalid' (h.answers_leave hcalls)
    obtain rfl := Option.some_inj.mp (hkept.symm.trans ht)
    rw [hsame]
    exact ⟨hgot, h.live _ r hgot (fun _ => Owner.noConfusion) fun heq => Owner.noConfusion heq⟩

/-- The tokens that are accepted already when the provider gives another. -/
theorem live_of_lt {given : Bool} {t : ℕ} (ht : t < s.issued) :
    (if given then Function.update s.live s.issued true else s.live) t = s.live t := by
  split
  · exact Function.update_of_ne (Nat.ne_of_lt ht) _ _
  · rfl

/-- Where a connection is forgotten, the others stay. -/
theorem token_forget {x : ℕ} {row : Option Row} {insertions : ℕ} {stored : List Stored} {o : Owner} {t : ℕ}
    (hrow : o = .row → row = s.row)
    (ho : { s with connects := Function.update s.connects x none, row, insertions, stored }.token o = some t) :
    s.token o = some t := by
  cases o with
  | row => rwa [State.token, hrow rfl] at ho
  | connect x' =>
    by_cases hne : x' = x
    · subst hne
      simp only [State.token, Function.update_self, Option.map_none] at ho
      contradiction
    · simpa only [State.token, Function.update_of_ne hne] using ho
  | _ => exact ho

/-- Where the row is deleted, the other tokens stay. -/
theorem token_delete {y r : ℕ} {o : Owner} {t : ℕ} (hne : o ≠ .disconnect y)
    (ho : { s with row := none, disconnects := Function.update s.disconnects y (some r) }.token o = some t) :
    s.token o = some t := by
  cases o with
  | row =>
    simp only [State.token, Option.map_none] at ho
    contradiction
  | disconnect y' =>
    have hy : y' ≠ y := fun heq => hne (heq ▸ rfl)
    simpa only [State.token, Function.update_of_ne hy] using ho
  | _ => exact ho

/-- Where a token has been revoked, the others stay. -/
theorem token_revoked {y : ℕ} {live : ℕ → Bool} {o : Owner} {t : ℕ}
    (ho : { s with disconnects := Function.update s.disconnects y none, live }.token o = some t) :
    s.token o = some t := by
  cases o with
  | disconnect y' =>
    by_cases hne : y' = y
    · subst hne
      simp only [State.token, Function.update_self] at ho
      contradiction
    · simpa only [State.token, Function.update_of_ne hne] using ho
  | _ => exact ho

/-- A connection is granted a token that nobody has. -/
theorem Alive.grant (h : Alive s) {x : ℕ} (hconnect : s.connects x = none)
    (hrow : s'.row = s.row) (hcalls : s'.calls = s.calls) {connect : Connect}
    (htoken : connect.refreshToken = s.issued)
    (hconnects : s'.connects = Function.update s.connects x (some connect))
    (hdisconnects : s'.disconnects = s.disconnects) (hissued : s'.issued = s.issued + 2)
    (hlive : s'.live = Function.update s.live s.issued true) : Alive s' := by
  have hnew : ∀ o t, s'.token o = some t → o = .connect x ∧ t = s.issued ∨ s.token o = some t := by
    intro o t ho
    by_cases hne : o = .connect x
    · subst hne
      rw [State.token, hconnects, Function.update_self, Option.map_some, htoken] at ho
      exact .inl ⟨rfl, (Option.some_inj.mp ho).symm⟩
    · exact .inr ((token_of_ne_connect hrow hcalls hconnects hdisconnects hne).symm.trans ho)
  have hold : s.token (.connect x) = none := by
    rw [State.token, hconnect]
    rfl
  refine ⟨fun o t ho => ?_, fun o o' t ho ho' => ?_, fun o t ho hne honly => ?_, hrow ▸ h.valid, hcalls ▸ h.answers⟩
  · rcases hnew o t ho with ⟨-, rfl⟩ | ho
    · omega
    · have := h.fresh o t ho
      omega
  · rcases hnew o t ho with ⟨rfl, rfl⟩ | ho <;> rcases hnew o' _ ho' with ⟨rfl, heq⟩ | ho'
    · rfl
    · exact absurd (h.fresh o' _ ho') (Nat.lt_irrefl _)
    · subst heq
      exact absurd (h.fresh o _ ho) (Nat.lt_irrefl _)
    · exact h.inj o o' t ho ho'
  · rw [hlive]
    rcases hnew o t ho with ⟨rfl, rfl⟩ | ho
    · exact Function.update_self _ _ _
    have hlt := h.fresh o t ho
    rw [Function.update_of_ne (by omega)]
    refine h.live o t ho hne fun heq w => ?_
    have hnone := honly heq w
    rwa [State.token, hcalls] at hnone

/-- What has been lost when a call ends, or goes on, was lost before. -/
theorem lost_read {row : Row} : (s.read w now row).lost = s.lost := by
  rcases read_cases s w now row with ⟨-, heq⟩ | ⟨access_token, expires, -, -, -, heq⟩ | ⟨-, -, heq⟩ <;>
    rw [heq] <;> rfl

/-- What a step has lost stays lost. -/
theorem lost_of_step (hs : Grants.step s a = some s') (hlost : s'.lost = false) : s.lost = false := by
  have hkept : s'.lost = s.lost ∨ ∃ b, s'.lost = (s.lost || b) := by
    cases a with
    | answer w a =>
      simp only [Grants.step] at hs
      split at hs
      · rcases answer_cases hs with ⟨asked, rfl⟩ | ⟨-, rotated, expires_in, rfl⟩ | ⟨-, rfl⟩ |
          ⟨-, rotated, expires_in, -, rfl⟩
        · exact .inl rfl
        · exact .inr ⟨rotated, rfl⟩
        · exact .inl rfl
        · exact .inl rfl
      · contradiction
    | crash w =>
      simp only [Grants.step] at hs
      split at hs
      · obtain rfl := Option.some_inj.mp hs
        exact .inr ⟨_, rfl⟩
      · contradiction
    | lock w =>
      simp only [Grants.step] at hs
      repeat' split at hs
      all_goals first
        | contradiction
        | (obtain rfl := Option.some_inj.mp hs
           exact .inl lost_read)
        | (obtain rfl := Option.some_inj.mp hs
           exact .inl rfl)
    | tick | begin | select | store | mark | exchange | send | upsert | abandon | delete | revoke | drop =>
      simp only [Grants.step] at hs
      repeat' split at hs
      all_goals first
        | contradiction
        | (obtain rfl := Option.some_inj.mp hs
           exact .inl rfl)
  rcases hkept with heq | ⟨b, heq⟩
  · exact heq ▸ hlost
  · exact (Bool.or_eq_false_iff.mp (heq ▸ hlost)).1

/-- Every step keeps the tokens of the row alive, while the provider drops nothing and nothing is lost. -/
theorem Alive.step (h : Alive s) (hsound : Sound s) (hkeeps : Keeps s a) (hs : Grants.step s a = some s')
    (hlost : s'.lost = false) : Alive s' := by
  cases a with
  | tick seconds =>
    obtain rfl := Option.some_inj.mp hs
    exact h.same rfl rfl (Nat.le_refl _) (fun _ _ => rfl) fun _ _ => id
  -- A call of `access_token`: it reads, it waits for the lock, and it asks the provider.
  | begin w =>
    simp only [Grants.step] at hs
    split at hs
    · next hcall =>
      obtain rfl := Option.some_inj.mp hs
      exact h.goto (.begun s.clock) (by rw [hcall]; rfl) rfl (fun _ => Call.noConfusion) rfl rfl rfl rfl rfl rfl
    · contradiction
  | select w =>
    simp only [Grants.step] at hs
    split at hs
    · next now hcall =>
      have hnone : (s.calls w).bind Call.rotated = none := by rw [hcall]; rfl
      split at hs
      · obtain rfl := Option.some_inj.mp hs
        exact h.goto (.waiting now s.insertions) hnone rfl (fun _ => Call.noConfusion) rfl rfl rfl rfl rfl rfl
      · obtain rfl := Option.some_inj.mp hs
        exact h.reply hnone rfl rfl rfl rfl (Nat.le_refl _) fun _ _ => rfl
    · contradiction
  | lock w =>
    simp only [Grants.step] at hs
    split at hs
    · next now insertion hcall =>
      have hnone : (s.calls w).bind Call.rotated = none := by rw [hcall]; rfl
      split at hs
      · next row hrow =>
        split at hs
        · rw [Option.ite_none_right_eq_some] at hs
          obtain ⟨-, hs⟩ := hs
          obtain rfl := Option.some_inj.mp hs
          rcases read_cases s w now row with ⟨-, heq⟩ | ⟨access_token, expires, -, -, -, heq⟩ | ⟨-, -, heq⟩
          · exact heq ▸ h.reply hnone rfl rfl rfl rfl (Nat.le_refl _) fun _ _ => rfl
          · exact heq ▸ h.reply hnone rfl rfl rfl rfl (Nat.le_refl _) fun _ _ => rfl
          · exact heq ▸ h.goto (.refreshing now row.refresh_token) hnone rfl (fun _ => Call.noConfusion)
              rfl rfl rfl rfl rfl rfl
        · obtain rfl := Option.some_inj.mp hs
          exact h.reply hnone rfl rfl rfl rfl (Nat.le_refl _) fun _ _ => rfl
      · obtain rfl := Option.some_inj.mp hs
        exact h.reply hnone rfl rfl rfl rfl (Nat.le_refl _) fun _ _ => rfl
    · contradiction
  | answer w a =>
    simp only [Grants.step] at hs
    split at hs
    · next now refresh_token hcall => exact h.answer hsound hcall hs hlost
    · contradiction
  -- The call that was answered stores the token; a grant that is alive is never marked.
  | store w =>
    simp only [Grants.step] at hs
    split at hs
    · next now access_token expires_in refresh_token row hcall hrow =>
      obtain rfl := Option.some_inj.mp hs
      exact h.store hsound hcall hrow rfl rfl rfl rfl rfl rfl rfl rfl
    · contradiction
  | mark w =>
    simp only [Grants.step] at hs
    split at hs
    · next now row hcall hrow => exact absurd hcall (h.answers w now)
    · contradiction
  | crash w =>
    simp only [Grants.step] at hs
    split at hs
    · next call hcall =>
      obtain rfl := Option.some_inj.mp hs
      -- A call that had a new token would lose it here.
      have hnone : (s.calls w).bind Call.rotated = none := by
        rw [hcall, Option.bind_some, ← Option.isNone_iff_eq_none, ← Option.isSome_eq_false_iff]
        exact (Bool.or_eq_false_iff.mp hlost).2
      exact h.reply hnone rfl rfl rfl rfl (Nat.le_refl _) fun _ _ => rfl
    · contradiction
  -- A person connects: the code is exchanged, and the answer comes back.
  | exchange x a =>
    simp only [Grants.step] at hs
    split at hs
    · exact Option.some_inj.mp hs ▸ h
    · next scopes refresh_token access_token expires_in hconnect =>
      split at hs
      · next hboth =>
        obtain rfl := Option.some_inj.mp hs
        rw [if_pos (Bool.and_eq_true_iff.mp hboth).2]
        exact h.grant hconnect rfl rfl rfl rfl rfl rfl rfl
      · obtain rfl := Option.some_inj.mp hs
        refine h.same rfl rfl (Nat.le_add_right _ _) (fun t ht => ?_) fun _ _ => id
        exact live_of_lt ht
    · contradiction
  | send x =>
    simp only [Grants.step] at hs
    split at hs
    · next answered refresh_token access_token expires_in hconnect =>
      obtain rfl := Option.some_inj.mp hs
      exact h.same (token_connect hconnect rfl) rfl (Nat.le_refl _) (fun _ _ => rfl) fun _ _ => id
    · contradiction
  -- The token of the connection is that of the row now, and the connection keeps it no more.
  | upsert x =>
    simp only [Grants.step] at hs
    split at hs
    · next now refresh_token access_token expires_in hconnect =>
      rw [Option.ite_none_right_eq_some] at hs
      obtain ⟨-, hs⟩ := hs
      obtain rfl := Option.some_inj.mp hs
      have hkept : s.token (.connect x) = some refresh_token := by
        rw [State.token, hconnect]
        rfl
      refine h.toRow (.connect x) (fun _ => ?_) (fun t ht => ?_) (fun o t hne ho => ?_) rfl rfl (fun row hrow => ?_)
        h.answers
      · simp only [State.token, Function.update_self, Option.map_none]
      · obtain rfl : refresh_token = t := Option.some_inj.mp ht
        exact ⟨hkept, h.live _ _ hkept (fun _ => Owner.noConfusion) fun heq => Owner.noConfusion heq⟩
      · exact token_forget (fun heq => absurd heq hne) ho
      · obtain rfl := Option.some_inj.mp hrow
        rfl
    · contradiction
  -- What nobody keeps any more need not be alive.
  | abandon x =>
    obtain rfl := Option.some_inj.mp hs
    exact h.of_tokens (fun o t ho => token_forget (fun _ => rfl) ho) (fun _ => rfl) (Nat.le_refl _)
      (fun _ _ _ _ => id) h.valid fun _ _ => id
  | delete y =>
    simp only [Grants.step] at hs
    split at hs
    · next row hnone hrow =>
      rw [Option.ite_none_right_eq_some] at hs
      obtain ⟨-, hs⟩ := hs
      obtain rfl := Option.some_inj.mp hs
      -- The token of the row is that of the disconnection now, and there is no row to keep alive.
      refine h.transfer .row (.disconnect y) (fun _ => rfl) (fun t ht => ?_) (fun o t hne ho => ?_) rfl
        (fun o t ho hne => ?_) (fun _ => nofun) h.answers
      · simp only [State.token, Function.update_self] at ht
        rw [State.token, hrow, ← ht]
        rfl
      · exact token_delete hne ho
      · have hrow' : o ≠ .row := by
          rintro rfl
          simp only [State.token, Option.map_none] at ho
          contradiction
        exact h.live o t (token_delete (hne y) ho) hne fun heq => absurd heq hrow'
    · contradiction
  | revoke y arrives =>
    simp only [Grants.step] at hs
    split at hs
    · next refresh_token hrevokes =>
      obtain rfl := Option.some_inj.mp hs
      refine h.of_tokens (fun o t ho => ?_) (fun _ => rfl) (Nat.le_refl _) (fun o t ho hne ht => ?_) h.valid
        fun _ _ => id
      · exact token_revoked ho
      · -- The token that is revoked is kept nowhere else.
        have hother : t ≠ refresh_token := by
          rintro rfl
          exact hne y (h.inj o (.disconnect y) t (token_revoked ho) hrevokes)
        dsimp only
        split
        · rwa [Function.update_of_ne hother]
        · exact ht
    · contradiction
  | drop refresh_token => exact absurd hkeeps id

end Tokens

/-- In every run of workers, connections and disconnections in which the provider drops no refresh token by itself and
no answer that replaces one is lost, the provider accepts the token that is stored whenever the row is free, and the
row is not marked as dead. -/
theorem stored_token_is_live {clock : ℤ} {s : State} (h : Run step Keeps (.start clock) s) (hlost : s.lost = false)
    {row : Row} (hrow : s.row = some row) (hfree : s.holder = none) :
    s.live row.refresh_token = true ∧ row.invalid_at = none := by
  have hinv : Sound s ∧ (s.lost = false → Alive s) := by
    refine h.invariant (I := fun s => Sound s ∧ (s.lost = false → Alive s)) ⟨.start clock, fun _ => ?_⟩ ?_
    · have hnone : ∀ o, (State.start clock).token o = none := fun o => by cases o <;> rfl
      refine ⟨fun o t ho => ?_, fun o o' t ho => ?_, fun o t ho => ?_, fun row hr => ?_, fun w now hw => ?_⟩
      · rw [hnone] at ho
        contradiction
      · rw [hnone] at ho
        contradiction
      · rw [hnone] at ho
        contradiction
      · simp only [State.start] at hr
        contradiction
      · simp only [State.start] at hw
        contradiction
    · intro s a s' ⟨hsound, halive⟩ hkeeps hs
      exact ⟨hsound.step hs, fun hlost => (halive (lost_of_step hs hlost)).step hsound hkeeps hs hlost⟩
  obtain ⟨hsound, halive⟩ := hinv
  refine ⟨(halive hlost).row_live hsound hrow fun w hw => ?_, (halive hlost).valid row hrow⟩
  rw [hfree] at hw
  contradiction

/-- Whether the provider drops a token can be decided. -/
instance decidableKeeps (s : State) : ∀ a, Decidable (Keeps s a)
  | .drop _ => isFalse id
  | .tick _ | .begin _ | .select _ | .lock _ | .answer .. | .store _ | .mark _ | .crash _ | .exchange .. | .send _
  | .upsert _ | .abandon _ | .delete _ | .revoke .. => isTrue trivial

/-- A person connects. -/
def connectsOnce : List Act := [.exchange 0 (.token true true true (some 3599)), .send 0, .upsert 0]

/-- Two workers ask, and the second waits while the first gets another refresh token too. -/
def asksTwice : List Act :=
  [.begin 0, .begin 1, .select 0, .select 1, .lock 0, .tick 30, .answer 0 (.token true true (some 3599)), .store 0,
    .lock 1]

/-- An hour after the person has connected, two workers have asked, and the row has the second refresh token. -/
theorem stored_token_is_live_after_refresh : ∃ s row, Run step Keeps (.start 0) s ∧ s.row = some row ∧
    row.refresh_token = 2 ∧ s.live row.refresh_token = true := by
  have hp : (runList (guarded step Keeps) (.start 0) (connectsOnce ++ .tick 3600 :: asksTwice)).any (fun s =>
      !s.lost && s.holder.isNone && s.row.any fun row => row.refresh_token == 2) = true := by
    decide
  obtain ⟨s, hrun, hs⟩ := exists_run_of_any hp
  simp only [Bool.and_eq_true, Bool.not_eq_true', Option.any_eq_true, beq_iff_eq, Option.isNone_iff_eq_none] at hs
  obtain ⟨⟨hlost, hfree⟩, row, hrow, htoken⟩ := hs
  have hkeeps := run_of_guarded hrun
  exact ⟨s, row, hkeeps, hrow, htoken, (stored_token_is_live hkeeps hlost hrow hfree).1⟩

end JobScripts.Mail.Grants

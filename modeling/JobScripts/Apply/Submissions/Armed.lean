import JobScripts.Apply.Submissions.Rows

/-!
# Armed submissions

The extension's receipt and the requests in flight beside the table. All requests of an attempt are for one fill, and
the server records it once, whatever is lost and retried (`State.Inv.step`).
-/

namespace JobScripts.Apply.Submissions

open Lib
open Fills (Field ResolvedField)

/-- The extension has asked for the submission of a fill, for an attempt. -/
def State.Sent (s : State) (attempt id : ℕ) : Prop :=
  ∃ (q : ℕ) (fields : List (String × Option String)), s.requests[q]? = some (.submitted attempt id fields)

/-- The attempt of a request. -/
def Request.attempt : Request → ℕ
  | .resolve attempt _ => attempt
  | .submitted attempt _ _ => attempt

/-- The fill that a request names. -/
def Request.fillId : Request → Option ℕ
  | .resolve .. => none
  | .submitted _ id _ => some id

/-- A request for the submission of a fill asks for it. -/
theorem State.sent_of_request {s : State} {q : ℕ} {r : Request} (hq : s.requests[q]? = some r) {id : ℕ}
    (hid : r.fillId = some id) : s.Sent r.attempt id := by
  cases r with
  | resolve attempt url => contradiction
  | submitted attempt id' fields =>
    obtain rfl := Option.some.inj hid
    exact ⟨q, fields, hq⟩

/-- The invariant. -/
structure State.Inv (s : State) : Prop where
  rows : RowsOk s.server.rows
  attempts : ∀ (q : ℕ) (r : Request), s.requests[q]? = some r → r.attempt < s.attempts
  storage : ∀ a, s.storage = some a → a.attempt < s.attempts
  one_fill : ∀ attempt id id', s.Sent attempt id → s.Sent attempt id' → id = id'
  armed : ∀ a, s.storage = some a → ∀ id, s.Sent a.attempt id → a.fillId = some id
  waiting : ∀ q, s.waiting = some q → ∃ a r, s.storage = some a ∧ s.requests[q]? = some r ∧ r.attempt = a.attempt ∧
    r.fillId = a.fillId
  answered : ∀ q, s.responses q ≠ none → q < s.requests.length
  resolved : ∀ q id, s.responses q = some (.resolved id) → ∃ r, s.requests[q]? = some r ∧ r.fillId = none
  submitted : ∀ q, s.responses q = some .submitted →
    ∃ r id, s.requests[q]? = some r ∧ r.fillId = some id ∧ Settled s.server.rows id
  recorded : ∀ a, s.storage = some a → a.status = .recorded →
    ∃ id, a.fillId = some id ∧ s.Sent a.attempt id ∧ Settled s.server.rows id
  writes : ∀ attempt id, (some attempt, id) ∈ s.writes → s.Sent attempt id ∧ Settled s.server.rows id
  once : ∀ attempt, s.writes.countP (fun w => w.1 = some attempt) ≤ 1
  applications : ∀ attempt, s.server.applications.countP (fun a => a.attempt = some attempt) ≤
    s.writes.countP fun w => w.1 = some attempt

section Steps

variable {s s' : State}

/-- A server that goes on, and nothing else. -/
theorem State.Inv.server (h : s.Inv) {server : Server} (hok : RowsOk server.rows)
    (hlater : RowsLater s.server.rows server.rows) (happlications : server.applications = s.server.applications) :
    State.Inv { s with server := server } where
  rows := hok
  attempts := h.attempts
  storage := h.storage
  one_fill := h.one_fill
  armed := h.armed
  waiting := h.waiting
  answered := h.answered
  resolved := h.resolved
  submitted q hq := by
    obtain ⟨r, id, hr, hid, hsettled⟩ := h.submitted q hq
    exact ⟨r, id, hr, hid, hsettled.later hlater⟩
  recorded a ha hstatus := by
    obtain ⟨id, hid, hsent, hsettled⟩ := h.recorded a ha hstatus
    exact ⟨id, hid, hsent, hsettled.later hlater⟩
  writes attempt id hw := ⟨(h.writes attempt id hw).1, (h.writes attempt id hw).2.later hlater⟩
  once := h.once
  applications attempt := by
    dsimp only
    rw [happlications]
    exact h.applications attempt

/-- A submit is served: of an attempt that has sent it, or of none. -/
theorem State.Inv.submits (h : s.Inv) {u : ℕ} {attempt : Option ℕ} {c : Submit}
    (hsent : ∀ a, attempt = some a → s.Sent a c.fill_id) (hs : s.submitted u attempt c = some s') :
    s'.Inv ∧ RowsLater s.server.rows s'.server.rows ∧ Settled s'.server.rows c.fill_id ∧ s'.storage = s.storage ∧
      s'.waiting = s.waiting ∧ s'.requests = s.requests ∧ s'.responses = s.responses ∧ s'.attempts = s.attempts ∧
      (Settled s.server.rows c.fill_id → s' = s) := by
  unfold State.submitted at hs
  split at hs
  · contradiction
  next server recorded hsub =>
  obtain rfl := Option.some.inj hs
  obtain ⟨hok, hlater, hsettled, hsame, hbefore, happlications⟩ := Server.fillSubmitted_spec h.rows hsub
  refine ⟨?_, hlater, hsettled, rfl, rfl, rfl, rfl, rfl, fun hset => ?_⟩
  -- What was written before is written still; this submit adds one write where it recorded.
  · have hwrites : ∀ w ∈ (if recorded then s.writes ++ [(attempt, c.fill_id)] else s.writes),
        w ∈ s.writes ∨ w = (attempt, c.fill_id) := by
      intro w hw
      split at hw
      · rcases List.mem_append.mp hw with hw | hw
        · exact .inl hw
        · exact .inr (List.mem_singleton.mp hw)
      · exact .inl hw
    constructor
    -- The page script is as it was.
    case rows => exact hok
    case attempts => exact h.attempts
    case storage => exact h.storage
    case one_fill => exact h.one_fill
    case armed => exact h.armed
    case waiting => exact h.waiting
    case answered => exact h.answered
    case resolved => exact h.resolved
    -- The fills are settled in the rows to come as well.
    case submitted =>
      intro q hq
      obtain ⟨r, id, hr, hid, hset⟩ := h.submitted q hq
      exact ⟨r, id, hr, hid, hset.later hlater⟩
    case recorded =>
      intro a ha hstatus
      obtain ⟨id, hid, hsent', hset⟩ := h.recorded a ha hstatus
      exact ⟨id, hid, hsent', hset.later hlater⟩
    case writes =>
      intro a id hw
      rcases hwrites _ hw with hw | hw
      · exact ⟨(h.writes a id hw).1, (h.writes a id hw).2.later hlater⟩
      · obtain ⟨ha, rfl⟩ := Prod.mk.inj hw
        exact ⟨hsent a ha.symm, hsettled⟩
    -- One submission an attempt.
    case once =>
      intro a
      have hle := h.once a
      dsimp only
      split
      · next hrec =>
        rw [List.countP_append, List.countP_singleton]
        split
        · next hattempt =>
          -- A write before this one would be of the same fill, whose submission was not recorded.
          have hzero : s.writes.countP (fun w => w.1 = some a) = 0 := by
            rw [List.countP_eq_zero]
            rintro ⟨attempt', id⟩ hw hwa
            obtain rfl := of_decide_eq_true hwa
            obtain ⟨hsent', hset⟩ := h.writes a id hw
            have hid := h.one_fill a id c.fill_id hsent' (hsent a (of_decide_eq_true hattempt))
            rw [hbefore (hid ▸ hset)] at hrec
            contradiction
          omega
        · omega
      · exact hle
    -- An application comes with a submission only.
    case applications =>
      intro a
      have hle := h.applications a
      dsimp only
      rcases happlications with happlications | ⟨rfl, new, happlications, hnew⟩
      · rw [happlications]
        split
        · rw [List.countP_append]
          omega
        · exact hle
      · rw [happlications, if_pos rfl, List.countP_append, List.countP_append, List.countP_singleton,
          List.countP_singleton, hnew]
        dsimp only
        omega
  -- A fill that is settled before leaves nothing to record.
  · rw [hsame (hbefore hset), hbefore hset]
    rfl

/-- What has been asked for when a run sends its next request. -/
theorem sent_send {a : Armed} {attempt id : ℕ} :
    (s.send a).Sent attempt id ↔ s.Sent attempt id ∨ attempt = a.attempt ∧ a.fillId = some id := by
  unfold State.Sent State.send
  dsimp only
  constructor
  · rintro ⟨q, fields, hq⟩
    rcases Nat.lt_or_ge q s.requests.length with hlt | hge
    · rw [List.getElem?_append_left hlt] at hq
      exact .inl ⟨q, fields, hq⟩
    · rw [List.getElem?_append_right hge, List.getElem?_singleton] at hq
      split at hq
      · have heq := Option.some.inj hq
        split at heq
        · contradiction
        · next id' hid =>
          obtain ⟨rfl, rfl, -⟩ := Request.submitted.inj heq
          exact .inr ⟨rfl, hid⟩
      · contradiction
  · rintro (⟨q, fields, hq⟩ | ⟨rfl, hid⟩)
    · exact ⟨q, fields, (List.getElem?_append_left (List.getElem?_eq_some_iff.mp hq).1).trans hq⟩
    · refine ⟨s.requests.length, a.fields, ?_⟩
      rw [List.getElem?_concat_length, hid]

/-- A run sends its next request, for the fill that was asked for before, if one was. -/
theorem State.Inv.send (h : s.Inv) {a : Armed} (hattempt : a.attempt < s.attempts) (hstatus : a.status ≠ .recorded)
    (harmed : ∀ id, s.Sent a.attempt id → a.fillId = some id) : (s.send a).Inv := by
  -- One request more, for what the run is armed with.
  have hold : ∀ (q : ℕ) (r : Request), s.requests[q]? = some r → (s.send a).requests[q]? = some r :=
    fun q r hq => (List.getElem?_append_left (List.getElem?_eq_some_iff.mp hq).1).trans hq
  obtain ⟨new, hnew, hnewAttempt, hnewFill⟩ : ∃ new, (s.send a).requests = s.requests ++ [new] ∧
      new.attempt = a.attempt ∧ new.fillId = a.fillId := by
    refine ⟨_, rfl, ?_, ?_⟩ <;> split
    · rfl
    · rfl
    · next hnone => exact hnone.symm
    · next id hid => exact hid.symm
  have hsent : ∀ id, (s.send a).Sent a.attempt id → a.fillId = some id := by
    intro id hs
    rcases sent_send.mp hs with hs | ⟨-, hid⟩
    · exact harmed id hs
    · exact hid
  constructor
  case rows => exact h.rows
  -- The attempt of each request, and of what is stored.
  case attempts =>
    intro q r hq
    rw [hnew] at hq
    rcases Nat.lt_or_ge q s.requests.length with hlt | hge
    · exact h.attempts q r ((List.getElem?_append_left hlt).symm.trans hq)
    · rw [List.getElem?_append_right hge, List.getElem?_singleton] at hq
      split at hq
      · rw [← Option.some.inj hq, hnewAttempt]
        exact hattempt
      · contradiction
  case storage =>
    intro a' ha'
    obtain rfl := Option.some.inj ha'
    exact hattempt
  -- One fill an attempt.
  case one_fill =>
    intro attempt id id' hs hs'
    rcases eq_or_ne attempt a.attempt with rfl | hne
    · exact Option.some.inj ((hsent id hs).symm.trans (hsent id' hs'))
    · rcases sent_send.mp hs with hs | ⟨heq, -⟩
      · rcases sent_send.mp hs' with hs' | ⟨heq, -⟩
        · exact h.one_fill attempt id id' hs hs'
        · exact absurd heq hne
      · exact absurd heq hne
  -- What the run is armed with and waits for.
  case armed =>
    intro a' ha'
    obtain rfl := Option.some.inj ha'
    exact hsent
  case waiting =>
    intro q hq
    obtain rfl := Option.some.inj hq
    exact ⟨a, new, rfl, by rw [hnew, List.getElem?_concat_length], hnewAttempt, hnewFill⟩
  -- Responses are of requests that were there.
  case answered =>
    intro q hq
    have hlt := h.answered q hq
    rw [hnew, List.length_append]
    omega
  case resolved =>
    intro q id hq
    obtain ⟨r, hr, hfill⟩ := h.resolved q id hq
    exact ⟨r, hold q r hr, hfill⟩
  case submitted =>
    intro q hq
    obtain ⟨r, id, hr, hrest⟩ := h.submitted q hq
    exact ⟨r, id, hold q r hr, hrest⟩
  case recorded =>
    intro a' ha' hrecorded
    obtain rfl := Option.some.inj ha'
    exact absurd hrecorded hstatus
  case writes => exact fun attempt id hw => ⟨sent_send.mpr (.inl (h.writes attempt id hw).1), (h.writes attempt id hw).2⟩
  case once => exact h.once
  case applications => exact h.applications

/-- The receipt changes while no run waits, or as a run ends. -/
theorem State.Inv.store (h : s.Inv) {storage : Option Armed} {attempts : ℕ} (hle : s.attempts ≤ attempts)
    (hattempt : ∀ a, storage = some a → a.attempt < attempts)
    (harmed : ∀ a, storage = some a → ∀ id, s.Sent a.attempt id → a.fillId = some id)
    (hrecorded : ∀ a, storage = some a → a.status = .recorded →
      ∃ id, a.fillId = some id ∧ s.Sent a.attempt id ∧ Settled s.server.rows id) :
    State.Inv { s with storage := storage, attempts := attempts, waiting := none } where
  rows := h.rows
  attempts q r hq := Nat.lt_of_lt_of_le (h.attempts q r hq) hle
  storage := hattempt
  one_fill := h.one_fill
  armed := harmed
  waiting _ := nofun
  answered := h.answered
  resolved := h.resolved
  submitted := h.submitted
  recorded := hrecorded
  writes := h.writes
  once := h.once
  applications := h.applications

/-- A run stops waiting. -/
theorem State.Inv.stop (h : s.Inv) : State.Inv { s with waiting := none } :=
  h.store le_rfl h.storage h.armed h.recorded

/-- A message that finds no run waiting. -/
theorem State.Inv.run (h : s.Inv) (hwaiting : s.waiting = none) (origin : String → String) (m : Message) (now : ℕ) :
    (s.run origin m now).Inv := by
  have hstop : ∀ storage attempts, State.Inv { s with storage := storage, attempts := attempts, waiting := none } →
      State.Inv { s with storage := storage, attempts := attempts } := by
    intro storage attempts hinv
    rw [← hwaiting] at hinv
    exact hinv
  unfold State.run
  dsimp only
  split
  · exact h
  · split
    · exact hstop none s.attempts (h.store le_rfl nofun nofun nofun)
    · exact h
  · split
    · exact h
    split
    · exact h
    refine hstop _ _ (h.store (Nat.le_succ _) ?_ ?_ ?_)
    · intro a ha
      rw [← Option.some.inj ha]
      exact Nat.lt_succ_self _
    · intro a ha id hsent
      obtain ⟨q, fields, hq⟩ := hsent
      have hlt := h.attempts q _ hq
      rw [← Option.some.inj ha] at hlt
      exact absurd hlt (Nat.lt_irrefl _)
    · intro a ha hrecorded
      rw [← Option.some.inj ha] at hrecorded
      contradiction
  · -- A message to confirm, or to retry.
    split
    · exact h
    next a ha =>
    have hstored : s.storage = some a := (Option.filter_eq_some_iff.mp ha).1
    split
    · exact h
    split
    · exact h
    split
    · exact h
    exact h.send (a := { a with status := .confirmed }) (h.storage a hstored) nofun (h.armed a hstored)

/-- A request is answered, but with no success that is not there. -/
theorem State.Inv.answer (h : s.Inv) {q : ℕ} {r : Request} {response : Response} (hq : s.requests[q]? = some r)
    (hresolved : ∀ id, response = .resolved id → r.fillId = none)
    (hsubmitted : response = .submitted → ∃ id, r.fillId = some id ∧ Settled s.server.rows id) :
    State.Inv { s with responses := Function.update s.responses q (some response) } where
  rows := h.rows
  attempts := h.attempts
  storage := h.storage
  one_fill := h.one_fill
  armed := h.armed
  waiting := h.waiting
  answered q' hq' := by
    dsimp only at hq'
    rw [Function.update_apply] at hq'
    split at hq'
    · next heq =>
      rw [heq]
      exact (List.getElem?_eq_some_iff.mp hq).1
    · exact h.answered q' hq'
  resolved q' id hq' := by
    dsimp only at hq'
    rw [Function.update_apply] at hq'
    split at hq'
    · next heq =>
      rw [heq]
      exact ⟨r, hq, hresolved id (Option.some.inj hq')⟩
    · exact h.resolved q' id hq'
  submitted q' hq' := by
    dsimp only at hq'
    rw [Function.update_apply] at hq'
    split at hq'
    · next heq =>
      rw [heq]
      obtain ⟨id, hid, hsettled⟩ := hsubmitted (Option.some.inj hq')
      exact ⟨r, id, hq, hid, hsettled⟩
    · exact h.submitted q' hq'
  recorded := h.recorded
  writes := h.writes
  once := h.once
  applications := h.applications

/-- A response arrives. -/
theorem State.Inv.deliver (h : s.Inv) {a : Armed} {q : ℕ} {response : Response} (ha : s.storage = some a)
    (hwaiting : s.waiting = some q) (hresponse : s.responses q = some response) :
    (∀ id, response = .resolved id → (s.send { a with fillId := some id }).Inv) ∧
      (response = .submitted →
        State.Inv { s with storage := some { a with status := .recorded, fields := [] }, waiting := none }) := by
  obtain ⟨a', r, ha', hr, hattempt, hfill⟩ := h.waiting q hwaiting
  obtain rfl := Option.some.inj (ha.symm.trans ha')
  constructor
  · rintro id rfl
    obtain ⟨r', hr', hnone⟩ := h.resolved q id hresponse
    obtain rfl := Option.some.inj (hr.symm.trans hr')
    -- No fill has been asked for yet.
    have hnofill : a.fillId = none := hfill.symm.trans hnone
    refine h.send (a := { a with fillId := some id }) (h.storage a ha) ?_ ?_
    · intro hrecorded
      obtain ⟨id', hid', -⟩ := h.recorded a ha hrecorded
      exact absurd (hnofill.symm.trans hid') nofun
    · intro id' hsent
      exact absurd (hnofill.symm.trans (h.armed a ha id' hsent)) nofun
  · rintro rfl
    obtain ⟨r', id, hr', hid, hsettled⟩ := h.submitted q hresponse
    obtain rfl := Option.some.inj (hr.symm.trans hr')
    refine h.store le_rfl ?_ ?_ ?_
    · intro a' ha''
      rw [← Option.some.inj ha'']
      exact h.storage a ha
    · intro a' ha''
      rw [← Option.some.inj ha'']
      exact h.armed a ha
    · intro a' ha'' _
      rw [← Option.some.inj ha'']
      exact ⟨id, hfill.symm.trans hid, hattempt ▸ s.sent_of_request hr hid, hsettled⟩

variable {origin : String → String} {user : ℕ}

/-- A step keeps the invariant, and the fills go on. -/
theorem State.Inv.step (h : s.Inv) {a : Act} (hs : step origin user s a = some s') :
    s'.Inv ∧ RowsLater s.server.rows s'.server.rows := by
  cases a with
  -- The server by itself: what other pages of the applicant ask for, and the hourly repair.
  | resolve u c =>
    dsimp only [Submissions.step] at hs
    obtain ⟨⟨server, id⟩, hres, rfl⟩ := Option.map_eq_some_iff.mp hs
    obtain ⟨hok, hlater, happlications⟩ := Server.resolveForm_spec h.rows hres
    exact ⟨h.server hok hlater happlications, hlater⟩
  | submit u c =>
    dsimp only [Submissions.step] at hs
    obtain ⟨hinv, hlater, -⟩ := h.submits (fun a ha => absurd (ha : none = some a) nofun) hs
    exact ⟨hinv, hlater⟩
  | track u id job_id =>
    dsimp only [Submissions.step] at hs
    split at hs
    · obtain rfl := Option.some.inj hs
      obtain ⟨hok, hlater⟩ := h.rows.track id job_id
      exact ⟨h.server hok hlater rfl, hlater⟩
    · contradiction
  | repair listed seen =>
    obtain rfl := Option.some.inj hs
    have hdone := h.rows.repairing listed seen
    exact ⟨h.server hdone.ok hdone.later rfl, hdone.later⟩
  -- A message to the page script. It writes nothing at the server.
  | message m now =>
    dsimp only [Submissions.step] at hs
    split at hs
    · contradiction
    next hwaiting =>
    obtain rfl := Option.some.inj hs
    refine ⟨h.run (Option.not_isSome_iff_eq_none.mp hwaiting) origin m now, ?_⟩
    have hrows : (s.run origin m now).server = s.server := by
      unfold State.run State.send
      dsimp only
      repeat' split
      all_goals rfl
    rw [hrows]
    exact .refl _
  -- A request is served, and its response stored for the run that waits.
  | serve q resolve submit =>
    dsimp only [Submissions.step] at hs
    split at hs
    · contradiction
    split at hs
    · contradiction
    · next attempt url hq =>
      obtain ⟨⟨server, id⟩, hres, rfl⟩ := Option.map_eq_some_iff.mp hs
      obtain ⟨hok, hlater, happlications⟩ := Server.resolveForm_spec h.rows hres
      exact ⟨(h.server hok hlater happlications).answer hq (fun _ _ => rfl) nofun, hlater⟩
    · next attempt id fields hq =>
      obtain ⟨s'', hsub, rfl⟩ := Option.map_eq_some_iff.mp hs
      have hsent : ∀ a, some attempt = some a → s.Sent a id := by
        intro a ha
        obtain rfl := Option.some.inj ha
        exact ⟨q, fields, hq⟩
      obtain ⟨hinv, hlater, hsettled, -, -, hrequests, -⟩ := h.submits hsent hsub
      refine ⟨hinv.answer (hrequests ▸ hq) nofun fun _ => ⟨id, rfl, hsettled⟩, hlater⟩
  -- The run hears of its request, of a failure or of nothing.
  | refuse q =>
    dsimp only [Submissions.step] at hs
    split at hs
    · contradiction
    next hopen =>
    obtain rfl := Option.some.inj hs
    rw [not_or] at hopen
    obtain ⟨r, hr⟩ := Option.ne_none_iff_exists'.mp hopen.2
    exact ⟨h.answer hr nofun nofun, .refl _⟩
  | deliver =>
    dsimp only [Submissions.step] at hs
    split at hs
    · next a id ha hresponse =>
      obtain rfl := Option.some.inj hs
      obtain ⟨q, hwaiting, hresponse⟩ := Option.bind_eq_some_iff.mp hresponse
      exact ⟨(h.deliver ha hwaiting hresponse).1 id rfl, .refl _⟩
    · next a ha hresponse =>
      obtain rfl := Option.some.inj hs
      obtain ⟨q, hwaiting, hresponse⟩ := Option.bind_eq_some_iff.mp hresponse
      exact ⟨(h.deliver ha hwaiting hresponse).2 rfl, .refl _⟩
    · obtain rfl := Option.some.inj hs
      exact ⟨h.stop, .refl _⟩
    · contradiction
  | lose =>
    dsimp only [Submissions.step] at hs
    split at hs
    · obtain rfl := Option.some.inj hs
      exact ⟨h.stop, .refl _⟩
    · contradiction
  | crash =>
    obtain rfl := Option.some.inj hs
    exact ⟨h.stop, .refl _⟩

end Steps

end JobScripts.Apply.Submissions

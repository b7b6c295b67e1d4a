import JobScripts.Mail.Grants
import Mathlib.Data.List.Chain

/-!
# The refreshes of a grant

What a person's workers ask of the provider and get from `get_access_token`, in the runs of `JobScripts.Mail.Grants`.
A call that has waited for another's refresh finds the token that the other has stored, so that refreshes are spaced
by the life of a token less the margin (`refreshes_take_time`), however many calls there are. A token that is handed
out is one the provider accepts for as long as the margin lasts (`returned_token_is_accepted`). And a grant that was
found dead stays so, and is not asked about, until the person connects again or disconnects (`dead_grant_stays`).
-/

namespace JobScripts.Mail.Grants

open Lib

/-! ## The refreshes -/

/-- Until when the access token of a row is usable. -/
def Row.until (row : Row) : Option ℤ := row.access_token.bind fun _ => row.access_token_expires_at

/-- Something that is stored comes after an earlier one: a refresh not before the margin of its token. -/
def Stored.After (later earlier : Stored) : Prop :=
  later.connect = false → ∀ expires ∈ earlier.expires_at, expires ≤ later.now + expirySkew

/-- The call asks, or has an answer to store. -/
def Call.asks : Call → Option ℤ
  | .refreshing now _ | .answered now _ _ _ => some now
  | .begun _ | .waiting .. | .rejected _ => none

/-- What is stored is that of the row, and comes after what was stored before; so will what a call has asked for. -/
structure Spaced (s : State) : Prop where
  chain : s.stored.IsChain Stored.After
  row : ∀ row, s.row = some row → row.invalid_at = none → ∃ last ∈ s.stored.head?, last.expires_at = row.until
  asks : ∀ w now, (s.calls w).bind Call.asks = some now → ∀ last ∈ s.stored.head?, ∀ expires ∈ last.expires_at,
    expires ≤ now + expirySkew

section Refreshes

variable {s s' : State} {w : ℕ} {now : ℤ} {a : Act}

/-- Where nothing is stored, and a call that asks did so before. -/
theorem Spaced.same (h : Spaced s) (hrow : ∀ row, s'.row = some row → s.row = some row)
    (hstored : s'.stored = s.stored)
    (hcalls : ∀ w now, (s'.calls w).bind Call.asks = some now → (s.calls w).bind Call.asks = some now) :
    Spaced s' where
  chain := hstored ▸ h.chain
  row row hr := hstored ▸ h.row row (hrow row hr)
  asks w now hw := hstored ▸ h.asks w now (hcalls w now hw)

/-- A call goes on, and asks as it did before. -/
theorem asks_goto (call : Call) (hcall : ∀ now, call.asks = some now → (s.calls w).bind Call.asks = some now) (w' : ℕ)
    (now : ℤ) (hw' : ((s.goto w call).calls w').bind Call.asks = some now) :
    (s.calls w').bind Call.asks = some now := by
  by_cases hne : w' = w
  · subst hne
    simp only [State.goto, Function.update_self, Option.bind_some] at hw'
    exact hcall now hw'
  · simpa only [State.goto, Function.update_of_ne hne] using hw'

/-- A call that goes on without asking. -/
theorem asks_goto_none (call : Call) (hcall : call.asks = none) (w' : ℕ) (now : ℤ)
    (hw' : ((s.goto w call).calls w').bind Call.asks = some now) : (s.calls w').bind Call.asks = some now := by
  refine asks_goto call (fun now' hnow => ?_) w' now hw'
  rw [hcall] at hnow
  contradiction

/-- The calls that are left ask as they did. -/
theorem asks_leave (w' : ℕ) (now : ℤ) (hw' : ((s.leave w).calls w').bind Call.asks = some now) :
    (s.calls w').bind Call.asks = some now := by
  by_cases hne : w' = w
  · subst hne
    rw [calls_leave_self] at hw'
    contradiction
  · rwa [calls_leave hne] at hw'

/-- A call that asks has the lock. -/
theorem Sound.asks (h : Sound s) (hw : (s.calls w).bind Call.asks = some now) : s.holder = some w := by
  refine (h.holder w).mpr ?_
  rw [Option.bind_eq_some_iff] at hw
  obtain ⟨call, hcall, hasks⟩ := hw
  rw [hcall]
  cases call with
  | refreshing | answered => rfl
  | begun | waiting | rejected => contradiction

/-- A row that is not usable is one whose token ends within the margin. -/
theorem until_le {row : Row} (hstale : row.usable now = false) :
    ∀ expires ∈ row.until, expires ≤ now + expirySkew := by
  intro expires hexpires
  unfold Row.until at hexpires
  rw [Option.mem_def, Option.bind_eq_some_iff] at hexpires
  obtain ⟨access_token, haccess, hexpires⟩ := hexpires
  by_contra hlt
  rw [usable_iff.mpr ⟨access_token, expires, haccess, hexpires, Int.not_le.mp hlt⟩] at hstale
  contradiction

/-- The row is read. -/
theorem Spaced.read (h : Spaced s) (hsound : Sound s) (hfree : s.holder = none) {row : Row}
    (hrow : s.row = some row) : Spaced (s.read w now row) := by
  rcases read_cases s w now row with ⟨-, heq⟩ | ⟨access_token, expires, -, -, -, heq⟩ | ⟨hvalid, hstale, heq⟩
  · exact heq ▸ h.same (fun _ => id) rfl asks_leave
  · exact heq ▸ h.same (fun _ => id) rfl asks_leave
  refine heq ▸ ⟨h.chain, h.row, fun w' now' hw' last hlast => ?_⟩
  by_cases hne : w' = w
  · subst hne
    simp only [State.goto, Function.update_self, Option.bind_some, Call.asks, Option.some.injEq] at hw'
    obtain ⟨last', hlast', huntil⟩ := h.row row hrow hvalid
    obtain rfl := Option.mem_unique hlast hlast'
    rw [huntil, ← hw']
    exact until_le hstale
  · simp only [State.goto, Function.update_of_ne hne] at hw'
    have hholder := hsound.asks hw'
    rw [hfree] at hholder
    contradiction

/-- Something is stored, and nobody else asks. -/
theorem Spaced.cons (h : Spaced s) {last : Stored} {row : Row} (hrow : s'.row = some row)
    (huntil : last.expires_at = row.until) (hstored : s'.stored = last :: s.stored)
    (hafter : last.connect = false → ∀ earlier ∈ s.stored.head?, ∀ expires ∈ earlier.expires_at,
      expires ≤ last.now + expirySkew) (hcalls : ∀ w, (s'.calls w).bind Call.asks = none) : Spaced s' where
  chain := by
    rw [hstored]
    cases hs : s.stored with
    | nil => exact .singleton _
    | cons earlier rest =>
      refine .cons_cons (fun hrefresh => hafter hrefresh earlier (by rw [hs]; rfl)) (hs ▸ h.chain)
  row r hr _ := by
    obtain rfl := Option.some_inj.mp (hrow.symm.trans hr)
    exact ⟨last, by rw [hstored]; rfl, huntil⟩
  asks w now hw := by
    rw [hcalls w] at hw
    contradiction

/-- Every step keeps the refreshes apart. -/
theorem Spaced.step (h : Spaced s) (hsound : Sound s) (hs : Grants.step s a = some s') : Spaced s' := by
  -- Where nobody has the lock nobody asks the provider.
  have hnone : s.holder = none → ∀ w, (s.calls w).bind Call.asks = none := by
    intro hfree w
    cases hasks : (s.calls w).bind Call.asks with
    | none => rfl
    | some now =>
      rw [hsound.asks hasks] at hfree
      contradiction
  cases a with
  | begin w =>
    simp only [Grants.step] at hs
    split at hs
    · obtain rfl := Option.some_inj.mp hs
      exact h.same (fun _ => id) rfl (asks_goto_none _ rfl)
    · contradiction
  | select w =>
    simp only [Grants.step] at hs
    split at hs
    · split at hs
      · obtain rfl := Option.some_inj.mp hs
        exact h.same (fun _ => id) rfl (asks_goto_none _ rfl)
      · obtain rfl := Option.some_inj.mp hs
        exact h.same (fun _ => id) rfl asks_leave
    · contradiction
  -- The row is read under the lock, which is where the margin is looked at.
  | lock w =>
    simp only [Grants.step] at hs
    split at hs
    · split at hs
      · next row hrow =>
        split at hs
        · rw [Option.ite_none_right_eq_some] at hs
          obtain ⟨hfree, hs⟩ := hs
          obtain rfl := Option.some_inj.mp hs
          exact h.read hsound hfree hrow
        · obtain rfl := Option.some_inj.mp hs
          exact h.same (fun _ => id) rfl asks_leave
      · obtain rfl := Option.some_inj.mp hs
        exact h.same (fun _ => id) rfl asks_leave
    · contradiction
  -- The call asks on until it stores or gives up.
  | answer w a =>
    simp only [Grants.step] at hs
    split at hs
    · next now refresh_token hcall =>
      have hasks : (s.calls w).bind Call.asks = some now := by rw [hcall]; rfl
      rcases answer_cases hs with ⟨asked, rfl⟩ | ⟨-, rotated, expires_in, rfl⟩ | ⟨-, rfl⟩ |
        ⟨-, rotated, expires_in, -, rfl⟩
      · exact h.same (fun _ => id) rfl asks_leave
      · exact h.same (fun _ => id) rfl (asks_leave (s := s.refresh refresh_token rotated expires_in))
      · exact h.same (fun _ => id) rfl (asks_goto_none (.rejected now) rfl)
      · refine h.same (fun _ => id) rfl
          (asks_goto (s := s.refresh refresh_token rotated (expires_in.getD 0)) _ fun now' hnow => ?_)
        exact Option.some_inj.mp hnow ▸ hasks
    · contradiction
  -- A refresh is stored behind what its call read.
  | store w =>
    simp only [Grants.step] at hs
    split at hs
    · next now access_token expires_in refresh_token row hcall hrow =>
      obtain rfl := Option.some_inj.mp hs
      have hasks : (s.calls w).bind Call.asks = some now := by rw [hcall]; rfl
      refine h.cons rfl rfl rfl (fun _ => h.asks w now hasks) fun w' => ?_
      -- The call that has stored has ended, and it had the lock.
      cases hasks' : ((s.leave w).calls w').bind Call.asks with
      | none => exact hasks'
      | some now' =>
        have hholder := hsound.asks (asks_leave w' now' hasks')
        obtain rfl := Option.some_inj.mp ((hsound.asks hasks).symm.trans hholder)
        rw [calls_leave_self] at hasks'
        contradiction
    · contradiction
  | mark w =>
    simp only [Grants.step] at hs
    split at hs
    · next now row hcall hrow =>
      obtain rfl := Option.some_inj.mp hs
      refine ⟨h.chain, fun row hr hvalid => ?_, fun w' now' hw' => h.asks w' now' (asks_leave w' now' hw')⟩
      obtain rfl := Option.some_inj.mp hr
      contradiction
    · contradiction
  | crash w =>
    simp only [Grants.step] at hs
    split at hs
    · obtain rfl := Option.some_inj.mp hs
      exact h.same (fun _ => id) rfl asks_leave
    · contradiction
  -- A connection is stored without a look at what is there.
  | upsert x =>
    simp only [Grants.step] at hs
    split at hs
    · next now refresh_token access_token expires_in hconnect =>
      rw [Option.ite_none_right_eq_some] at hs
      obtain ⟨hfree, hs⟩ := hs
      obtain rfl := Option.some_inj.mp hs
      refine h.cons rfl ?_ rfl Bool.noConfusion (hnone hfree)
      cases access_token <;> rfl
    · contradiction
  -- The rest stores nothing.
  | tick | exchange | send | abandon | delete | revoke | drop =>
    simp only [Grants.step] at hs
    repeat' split at hs
    all_goals first
      | contradiction
      | (obtain rfl := Option.some_inj.mp hs
         exact h.same (fun _ => id) rfl fun _ _ => id)
      | (obtain rfl := Option.some_inj.mp hs
         exact h.same (fun _ hr => absurd hr.symm (Option.some_ne_none _)) rfl fun _ _ => id)

/-- Along what is stored, newest first, each refresh comes a lifetime less the margin after what it follows. -/
theorem chain_span {life : ℤ} {first : Stored} {older : List Stored} : ∀ {last : Stored} {between : List Stored},
    (last :: (between ++ first :: older)).IsChain Stored.After → (∀ r ∈ last :: between, r.connect = false) →
    (∀ r ∈ between ++ [first], ∃ expires ∈ r.expires_at, r.now + life ≤ expires) →
    first.now + (between.length + 1) * (life - expirySkew) ≤ last.now
  | last, [], hchain, hrefresh, hlife => by
    obtain ⟨expires, hexpires, hle⟩ := hlife first (List.mem_singleton_self _)
    rw [List.nil_append, List.isChain_cons_cons] at hchain
    have hafter := hchain.1 (hrefresh last List.mem_cons_self) expires hexpires
    rw [List.length_nil, Nat.cast_zero, zero_add, one_mul]
    omega
  | last, r :: between, hchain, hrefresh, hlife => by
    rw [List.cons_append, List.isChain_cons_cons] at hchain
    -- The induction is on what was stored between the two.
    have ih := chain_span hchain.2 (fun r' hr' => hrefresh r' (List.mem_cons_of_mem _ hr')) fun r' hr' =>
      hlife r' (List.mem_cons_of_mem _ hr')
    obtain ⟨expires, hexpires, hle⟩ := hlife r List.mem_cons_self
    have hafter := hchain.1 (hrefresh last List.mem_cons_self) expires hexpires
    rw [List.length_cons, Nat.cast_succ, add_mul, one_mul]
    omega

end Refreshes

/-- In every run, however many workers ask at once: where tokens are given for a lifetime, the refreshes that are
stored one after the other begin a lifetime less the margin apart, so that `n` of them take `n` times that. -/
theorem refreshes_take_time {clock life : ℤ} {s : State} (h : Run step Always (.start clock) s)
    {newer older between : List Stored} {last first : Stored}
    (hstored : s.stored = newer ++ last :: (between ++ first :: older))
    (hrefresh : ∀ r ∈ last :: between, r.connect = false)
    (hlife : ∀ r ∈ between ++ [first], ∃ expires ∈ r.expires_at, r.now + life ≤ expires) :
    first.now + (between.length + 1) * (life - expirySkew) ≤ last.now := by
  have hspaced : Sound s ∧ Spaced s := by
    refine h.invariant (I := fun s => Sound s ∧ Spaced s)
      ⟨.start clock, .nil, fun row hr => ?_, fun w now hw => ?_⟩ ?_
    · simp only [State.start] at hr
      contradiction
    · simp only [State.start, Option.bind_none] at hw
      contradiction
    · intro s a s' hinv _ hs
      exact ⟨hinv.1.step hs, hinv.2.step hinv.1 hs⟩
  have hchain := hspaced.2.chain
  rw [hstored] at hchain
  exact chain_span hchain.right_of_append hrefresh hlife

/-- Two workers ask an hour after the person has connected, and one token is stored. -/
theorem refreshes_take_time_once : ∃ s first last, Run step Always (.start 0) s ∧ s.stored = [last, first] ∧
    last.connect = false ∧ first.now + (3599 - expirySkew) ≤ last.now := by
  have hp : (runList step (.start 0) (connectsOnce ++ .tick 3600 :: asksTwice)).any (fun s =>
      decide (s.stored = [⟨false, 3600, some 7199⟩, ⟨true, 0, some 3599⟩])) = true := by
    decide
  obtain ⟨s, hrun, hs⟩ := exists_run_of_any hp
  have hstored : s.stored = [] ++ ⟨false, 3600, some 7199⟩ :: ([] ++ ⟨true, 0, some 3599⟩ :: []) :=
    of_decide_eq_true hs
  have hlife : ∀ r ∈ [] ++ [(⟨true, 0, some 3599⟩ : Stored)], ∃ expires ∈ r.expires_at, r.now + 3599 ≤ expires := by
    decide
  have hspan := refreshes_take_time hrun hstored (by decide) hlife
  rw [List.length_nil, Nat.cast_zero, zero_add (1 : ℤ), one_mul] at hspan
  exact ⟨s, _, _, hrun, hstored, rfl, hspan⟩

/-! ## The tokens that are handed out -/

/-- When the transaction of a call began. -/
def Call.now : Call → ℤ
  | .begun now | .waiting now _ | .refreshing now _ | .answered now _ _ _ | .rejected now => now

/-- The provider has given an access token, and accepts it until a time. -/
def State.Covers (s : State) (access_token : ℕ) (end_ : ℤ) : Prop :=
  access_token < s.issued ∧ end_ ≤ s.expires access_token

/-- The condition on a step: `exchange_code` starts its statement within a delay of the answer, and a refresh gives
tokens that live for the margin at least. -/
def Prompt (delay : ℤ) (s : State) : Act → Prop
  | .send x => ∀ answered refresh_token access_token expires_in,
    s.connects x = some (.granted answered refresh_token access_token expires_in) → s.clock ≤ answered + delay
  | .answer _ (.token _ true expires_in) => expirySkew ≤ (expires_in.getD 0 : ℕ)
  | _ => True

/-- The answer that a call has lives for what it is stored with. -/
def Call.Timed (s : State) : Call → Prop
  | .answered now access_token expires_in _ =>
    now ≤ s.clock ∧ s.Covers access_token (now + expires_in) ∧ expirySkew ≤ expires_in
  | call => call.now ≤ s.clock

/-- So does that of a connection, but for the delay. -/
def Connect.Timed (delay : ℤ) (s : State) : Connect → Prop
  | .granted answered _ access_token expires_in => ∀ t ∈ access_token, s.Covers t (answered + expires_in)
  | .sent now _ access_token expires_in => ∀ t ∈ access_token, s.Covers t (now + expires_in - delay)

/-- And that of the row. -/
def Row.Timed (delay : ℤ) (s : State) (row : Row) : Prop :=
  ∀ t ∈ row.access_token, ∀ expires ∈ row.access_token_expires_at, s.Covers t (expires - delay)

/-- A token that was returned soon enough was accepted then. -/
def Result.Timed (delay : ℤ) (s : State) (r : Result) : Prop :=
  ∀ t, r.outcome = .token t → r.returned - r.now + delay < expirySkew → s.Covers t (r.returned + 1)

/-- Every token is accepted for as long as it is kept. -/
structure Timed (delay : ℤ) (s : State) : Prop where
  calls : ∀ w call, s.calls w = some call → call.Timed s
  connects : ∀ x connect, s.connects x = some connect → connect.Timed delay s
  row : ∀ row, s.row = some row → row.Timed delay s
  results : ∀ r ∈ s.results, r.Timed delay s

/-- Time goes on, and the tokens that were given are not changed. -/
structure State.Later (s s' : State) : Prop where
  clock : s.clock ≤ s'.clock
  issued : s.issued ≤ s'.issued
  expires : ∀ t, t < s.issued → s'.expires t = s.expires t

section Tokens

variable {s s' : State} {delay : ℤ} {w : ℕ} {now : ℤ} {a : Act}

/-- Where nothing is given. -/
theorem State.Later.same (hclock : s'.clock = s.clock) (hissued : s'.issued = s.issued)
    (hexpires : s'.expires = s.expires) : s.Later s' :=
  ⟨Int.le_of_eq hclock.symm, Nat.le_of_eq hissued.symm, fun t _ => congrFun hexpires t⟩

/-- Where a token is given. -/
theorem State.Later.given {end_ : ℤ} (hclock : s'.clock = s.clock) (hissued : s'.issued = s.issued + 2)
    (hexpires : s'.expires = Function.update s.expires (s.issued + 1) end_) : s.Later s' := by
  refine ⟨Int.le_of_eq hclock.symm, by omega, fun t ht => ?_⟩
  rw [hexpires, Function.update_of_ne (by omega)]

/-- A token stays accepted. -/
theorem State.Covers.later {t : ℕ} {end_ : ℤ} (h : s.Covers t end_) (hlater : s.Later s') : s'.Covers t end_ :=
  ⟨Nat.lt_of_lt_of_le h.1 hlater.issued, hlater.expires t h.1 ▸ h.2⟩

/-- And for less. -/
theorem State.Covers.mono {t : ℕ} {end_ end' : ℤ} (h : s.Covers t end_) (hle : end' ≤ end_) : s.Covers t end' :=
  ⟨h.1, Int.le_trans hle h.2⟩

/-- The token that was given with the last answer. -/
theorem State.Covers.given (end_ : ℤ) (hissued : s'.issued = s.issued + 2)
    (hexpires : s'.expires = Function.update s.expires (s.issued + 1) end_) : s'.Covers (s.issued + 1) end_ := by
  refine ⟨by omega, ?_⟩
  rw [hexpires, Function.update_self]

/-- What a call keeps stays accepted. -/
theorem Call.Timed.later {call : Call} (h : call.Timed s) (hlater : s.Later s') : call.Timed s' := by
  have hclock := hlater.clock
  cases call with
  | answered now access_token expires_in refresh_token => exact ⟨Int.le_trans h.1 hclock, h.2.1.later hlater, h.2.2⟩
  | begun | waiting | refreshing | rejected => exact Int.le_trans h hclock

/-- What a call keeps was begun before. -/
theorem Call.Timed.now_le {call : Call} (h : call.Timed s) : call.now ≤ s.clock := by
  cases call with
  | answered => exact h.1
  | begun | waiting | refreshing | rejected => exact h

/-- What a connection keeps stays accepted. -/
theorem Connect.Timed.later {connect : Connect} (h : connect.Timed delay s) (hlater : s.Later s') :
    connect.Timed delay s' := by
  cases connect with
  | granted | sent => exact fun t ht => (h t ht).later hlater

/-- A step that goes on with what is kept, or with something that is accepted. -/
theorem Timed.of (h : Timed delay s) (hlater : s.Later s')
    (hcalls : ∀ w call, s'.calls w = some call → s.calls w = some call ∨ call.Timed s')
    (hconnects : ∀ x connect, s'.connects x = some connect → s.connects x = some connect ∨ connect.Timed delay s')
    (hrow : ∀ row, s'.row = some row → s.row = some row ∨ row.Timed delay s')
    (hresults : ∀ r ∈ s'.results, r ∈ s.results ∨ r.Timed delay s') : Timed delay s' where
  calls w call hcall := (hcalls w call hcall).elim (fun hold => (h.calls w call hold).later hlater) id
  connects x connect hx := (hconnects x connect hx).elim (fun hold => (h.connects x connect hold).later hlater) id
  row row hr := by
    rcases hrow row hr with hold | hnew
    · exact fun t ht expires hexpires => (h.row row hold t ht expires hexpires).later hlater
    · exact hnew
  results r hr := by
    rcases hresults r hr with hold | hnew
    · exact fun t ht hsoon => (h.results r hold t ht hsoon).later hlater
    · exact hnew

/-- The calls that are left when one ends. -/
theorem calls_of_leave {w' : ℕ} {call : Call} (hcall : (s.leave w).calls w' = some call) :
    s.calls w' = some call := by
  by_cases hne : w' = w
  · subst hne
    rw [calls_leave_self] at hcall
    contradiction
  · rwa [calls_leave hne] at hcall

/-- A call that ends without a token, or with one that is accepted. -/
theorem Timed.reply (h : Timed delay s) (outcome : Outcome) (hlater : s.Later s')
    (hcalls : s'.calls = (s.leave w).calls) (hconnects : s'.connects = s.connects)
    (hrow : ∀ row, s'.row = some row → s.row = some row ∨ row.Timed delay s')
    (hresults : s'.results = ⟨now, s.clock, outcome⟩ :: s.results)
    (houtcome : ∀ t, outcome = .token t → s.clock - now + delay < expirySkew → s'.Covers t (s.clock + 1)) :
    Timed delay s' := by
  refine h.of hlater (fun w' call hcall => .inl ?_) (fun x connect hx => .inl (hconnects ▸ hx)) hrow fun r hr => ?_
  · rw [hcalls] at hcall
    exact calls_of_leave hcall
  · rw [hresults, List.mem_cons] at hr
    rcases hr with rfl | hr
    · exact .inr houtcome
    · exact .inl hr

/-- A call goes on. -/
theorem Timed.goto (h : Timed delay s) (call : Call) (hlater : s.Later s')
    (hcalls : s'.calls = Function.update s.calls w (some call)) (hcall : call.Timed s')
    (hconnects : s'.connects = s.connects) (hrow : s'.row = s.row) (hresults : s'.results = s.results) :
    Timed delay s' := by
  refine h.of hlater (fun w' call' hcall' => ?_) (fun x connect hx => .inl (hconnects ▸ hx))
    (fun row hr => .inl (hrow ▸ hr)) fun r hr => .inl (hresults ▸ hr)
  rw [hcalls] at hcall'
  by_cases hne : w' = w
  · subst hne
    rw [Function.update_self] at hcall'
    exact .inr (Option.some_inj.mp hcall' ▸ hcall)
  · exact .inl (by rwa [Function.update_of_ne hne] at hcall')

/-- A connection goes on, or is forgotten. -/
theorem Timed.connect (h : Timed delay s) {x : ℕ} {next : Option Connect} (hlater : s.Later s')
    (hconnects : s'.connects = Function.update s.connects x next)
    (hnext : ∀ connect ∈ next, connect.Timed delay s') (hcalls : s'.calls = s.calls)
    (hrow : ∀ row, s'.row = some row → s.row = some row ∨ row.Timed delay s') (hresults : s'.results = s.results) :
    Timed delay s' := by
  refine h.of hlater (fun w call hcall => .inl (hcalls ▸ hcall)) (fun x' connect hx' => ?_) hrow fun r hr =>
    .inl (hresults ▸ hr)
  rw [hconnects] at hx'
  by_cases hne : x' = x
  · subst hne
    rw [Function.update_self] at hx'
    exact .inr (hnext connect hx')
  · exact .inl (by rwa [Function.update_of_ne hne] at hx')

/-- The row is read: a token that is returned is one that is usable. -/
theorem Timed.read (h : Timed delay s) {row : Row} (hrow : s.row = some row) (hnow : now ≤ s.clock) :
    Timed delay (s.read w now row) := by
  rcases read_cases s w now row with ⟨-, heq⟩ | ⟨access_token, expires, haccess, hexpires, hlt, heq⟩ | ⟨-, -, heq⟩
  · exact heq ▸ h.reply .needsReconnect (.same rfl rfl rfl) rfl rfl (fun _ => .inl) rfl fun _ =>
      Outcome.noConfusion
  · refine heq ▸ h.reply (.token access_token) (.same rfl rfl rfl) rfl rfl (fun _ => .inl) rfl
      fun t ht hsoon => ?_
    obtain rfl := Outcome.token.inj ht
    exact (h.row row hrow access_token haccess expires hexpires).mono (by omega)
  · exact heq ▸ h.goto (.refreshing now row.refresh_token) (.same rfl rfl rfl) rfl hnow rfl rfl rfl

/-- Every step keeps the tokens accepted. -/
theorem Timed.step (h : Timed delay s) (hdelay : 0 ≤ delay) (hprompt : Prompt delay s a)
    (hs : Grants.step s a = some s') : Timed delay s' := by
  have hsame : ∀ row, s.row = some row → s.row = some row ∨ row.Timed delay s' := fun _ => .inl
  cases a with
  | tick seconds =>
    obtain rfl := Option.some_inj.mp hs
    refine h.of ⟨?_, Nat.le_refl _, fun _ _ => rfl⟩ (fun _ _ => .inl) (fun _ _ => .inl) hsame fun _ => .inl
    dsimp only
    omega
  -- A call of `access_token`: a token that it reads is accepted for the margin.
  | begin w =>
    simp only [Grants.step] at hs
    split at hs
    · obtain rfl := Option.some_inj.mp hs
      exact h.goto (.begun s.clock) (.same rfl rfl rfl) rfl (Int.le_refl _) rfl rfl rfl
    · contradiction
  | select w =>
    simp only [Grants.step] at hs
    split at hs
    · next now hcall =>
      have hnow : now ≤ s.clock := (h.calls w _ hcall).now_le
      split at hs
      · obtain rfl := Option.some_inj.mp hs
        exact h.goto (.waiting now s.insertions) (.same rfl rfl rfl) rfl hnow rfl rfl rfl
      · obtain rfl := Option.some_inj.mp hs
        exact h.reply _ (.same rfl rfl rfl) rfl rfl hsame rfl fun _ => Outcome.noConfusion
    · contradiction
  | lock w =>
    simp only [Grants.step] at hs
    split at hs
    · next now insertion hcall =>
      have hnow : now ≤ s.clock := (h.calls w _ hcall).now_le
      split at hs
      · next row hrow =>
        split at hs
        · rw [Option.ite_none_right_eq_some] at hs
          obtain ⟨-, hs⟩ := hs
          obtain rfl := Option.some_inj.mp hs
          exact h.read hrow hnow
        · obtain rfl := Option.some_inj.mp hs
          exact h.reply _ (.same rfl rfl rfl) rfl rfl hsame rfl fun _ => Outcome.noConfusion
      · obtain rfl := Option.some_inj.mp hs
        exact h.reply _ (.same rfl rfl rfl) rfl rfl hsame rfl fun _ => Outcome.noConfusion
    · contradiction
  | answer w a =>
    simp only [Grants.step] at hs
    split at hs
    · next now refresh_token hcall =>
      have hnow : now ≤ s.clock := (h.calls w _ hcall).now_le
      -- A token that the provider gives is accepted until it says.
      rcases answer_cases hs with ⟨asked, rfl⟩ | ⟨-, rotated, expires_in, rfl⟩ | ⟨-, rfl⟩ |
        ⟨-, rotated, expires_in, rfl, rfl⟩
      · exact h.reply _ (.same rfl rfl rfl) rfl rfl hsame rfl fun _ => Outcome.noConfusion
      · exact h.reply _ (.given rfl rfl rfl) rfl rfl hsame rfl fun _ => Outcome.noConfusion
      · exact h.goto (.rejected now) (.same rfl rfl rfl) rfl hnow rfl rfl rfl
      · refine h.goto _ (.given rfl rfl rfl) rfl ⟨hnow, ?_, hprompt⟩ rfl rfl rfl
        exact (State.Covers.given (s := s) (s.clock + (expires_in.getD 0 : ℕ)) rfl rfl).mono (by omega)
    · contradiction
  -- The token is stored with its end as the call's own clock has it, which is no later.
  | store w =>
    simp only [Grants.step] at hs
    split at hs
    · next now access_token expires_in refresh_token row hcall hrow =>
      obtain rfl := Option.some_inj.mp hs
      obtain ⟨hnow, hcovers, hlong⟩ := h.calls w _ hcall
      refine h.reply (.token access_token) (.same rfl rfl rfl) rfl rfl (fun row' hr => .inr ?_) rfl
        fun t ht hsoon => ?_
      · obtain rfl := Option.some_inj.mp hr
        intro t ht expires hexpires
        obtain rfl := Option.some_inj.mp ht
        obtain rfl := Option.some_inj.mp hexpires
        exact hcovers.mono (by omega)
      · obtain rfl := Outcome.token.inj ht
        exact hcovers.mono (by omega)
    · contradiction
  | mark w =>
    simp only [Grants.step] at hs
    split at hs
    · next now row hcall hrow =>
      obtain rfl := Option.some_inj.mp hs
      refine h.reply _ (.same rfl rfl rfl) rfl rfl (fun row' hr => .inr ?_) rfl fun _ => Outcome.noConfusion
      obtain rfl := Option.some_inj.mp hr
      intro t ht
      contradiction
    · contradiction
  -- A call that crashes, and a connection that is made, take nothing back.
  | crash w =>
    simp only [Grants.step] at hs
    split at hs
    · obtain rfl := Option.some_inj.mp hs
      exact h.of (.same rfl rfl rfl) (fun _ _ hcall => .inl (calls_of_leave hcall)) (fun _ _ => .inl) hsame
        fun _ => .inl
    · contradiction
  | exchange x a =>
    simp only [Grants.step] at hs
    split at hs
    · exact Option.some_inj.mp hs ▸ h
    · next scopes refresh_token access_token expires_in hconnect =>
      split at hs
      · obtain rfl := Option.some_inj.mp hs
        refine h.connect (.given rfl rfl rfl) rfl (fun connect hc => ?_) rfl hsame rfl
        obtain rfl := Option.some_inj.mp hc
        intro t ht
        obtain ⟨-, rfl⟩ : access_token = true ∧ s.issued + 1 = t := by simpa using ht
        exact .given _ rfl rfl
      · obtain rfl := Option.some_inj.mp hs
        exact h.of (.given rfl rfl rfl) (fun _ _ => .inl) (fun _ _ => .inl) hsame fun _ => .inl
    · contradiction
  | send x =>
    simp only [Grants.step] at hs
    split at hs
    · next answered refresh_token access_token expires_in hconnect =>
      obtain rfl := Option.some_inj.mp hs
      have hsoon := hprompt answered refresh_token access_token expires_in hconnect
      refine h.connect (.same rfl rfl rfl) rfl (fun connect hc => ?_) rfl hsame rfl
      obtain rfl := Option.some_inj.mp hc
      exact fun t ht => (h.connects x _ hconnect t ht).mono (by omega)
    · contradiction
  -- The row of a connection has the token that it was given.
  | upsert x =>
    simp only [Grants.step] at hs
    split at hs
    · next now refresh_token access_token expires_in hconnect =>
      rw [Option.ite_none_right_eq_some] at hs
      obtain ⟨-, hs⟩ := hs
      obtain rfl := Option.some_inj.mp hs
      refine h.connect (.same rfl rfl rfl) rfl (fun _ hc => absurd hc (Option.not_mem_none _)) rfl
        (fun row hr => .inr ?_) rfl
      obtain rfl := Option.some_inj.mp hr
      intro t ht expires hexpires
      obtain rfl := Option.some_inj.mp hexpires
      exact h.connects x _ hconnect t ht
    · contradiction
  -- What is forgotten is said nothing of.
  | abandon x =>
    obtain rfl := Option.some_inj.mp hs
    exact h.connect (.same rfl rfl rfl) rfl (fun _ hc => absurd hc (Option.not_mem_none _)) rfl hsame rfl
  | delete y =>
    simp only [Grants.step] at hs
    split at hs
    · rw [Option.ite_none_right_eq_some] at hs
      obtain ⟨-, hs⟩ := hs
      obtain rfl := Option.some_inj.mp hs
      exact h.of (.same rfl rfl rfl) (fun _ _ => .inl) (fun _ _ => .inl)
        (fun _ hr => absurd hr.symm (Option.some_ne_none _)) fun _ => .inl
    · contradiction
  | revoke y arrives =>
    simp only [Grants.step] at hs
    split at hs
    · obtain rfl := Option.some_inj.mp hs
      exact h.of (.same rfl rfl rfl) (fun _ _ => .inl) (fun _ _ => .inl) hsame fun _ => .inl
    · contradiction
  | drop refresh_token =>
    obtain rfl := Option.some_inj.mp hs
    exact h.of (.same rfl rfl rfl) (fun _ _ => .inl) (fun _ _ => .inl) hsame fun _ => .inl

end Tokens

/-- In every run in which `exchange_code` stores a grant within a delay of the answer, and a refresh gives tokens that
live for the margin at least: a call that returns a token before the margin less the delay is over, counted from its
`now()`, returns one that the provider has given and accepts then, whoever has stored it. -/
theorem returned_token_is_accepted {clock delay : ℤ} (hdelay : 0 ≤ delay) {s : State}
    (h : Run step (Prompt delay) (.start clock) s) {r : Result} (hr : r ∈ s.results) {t : ℕ}
    (ht : r.outcome = .token t) (hsoon : r.returned - r.now + delay < expirySkew) : s.Covers t (r.returned + 1) := by
  have htimed : Timed delay s := by
    refine h.invariant (I := Timed delay) ⟨fun w call hcall => ?_, fun x connect hx => ?_, fun row hrow => ?_,
      fun r hr => ?_⟩ fun s a s' htimed hprompt hs => htimed.step hdelay hprompt hs
    · simp only [State.start] at hcall
      contradiction
    · simp only [State.start] at hx
      contradiction
    · simp only [State.start] at hrow
      contradiction
    · exact absurd hr List.not_mem_nil
  exact htimed.results r hr t ht hsoon

/-- Whether a step is in time can be decided. -/
instance decidablePrompt (delay : ℤ) (s : State) : ∀ a, Decidable (Prompt delay s a)
  | .send x =>
    match hconnect : s.connects x with
    | some (.granted answered refresh_token access_token expires_in) =>
      decidable_of_iff (s.clock ≤ answered + delay)
        ⟨fun hle _ _ _ _ heq => by
          obtain ⟨rfl, -⟩ := Connect.granted.inj (Option.some_inj.mp (hconnect.symm.trans heq))
          exact hle, fun hall => hall _ _ _ _ hconnect⟩
    | some (.sent ..) => isTrue fun _ _ _ _ heq => Connect.noConfusion (Option.some_inj.mp (hconnect.symm.trans heq))
    | none => isTrue fun _ _ _ _ heq => absurd (hconnect.symm.trans heq) (Option.some_ne_none _).symm
  | .answer _ (.token _ true expires_in) => inferInstanceAs (Decidable (expirySkew ≤ (expires_in.getD 0 : ℕ)))
  | .answer _ (.token _ false _) | .answer _ .unconfigured | .answer _ (.failed _) | .answer _ .invalid | .tick _
  | .begin _ | .select _ | .lock _ | .store _ | .mark _ | .crash _ | .exchange .. | .upsert _ | .abandon _ | .delete _
  | .revoke .. | .drop _ => isTrue trivial

/-- The worker that has waited for the other's refresh gets the token that the other has stored. -/
theorem returned_token_is_accepted_waiting : ∃ s, Run step (Prompt 5) (.start 0) s ∧
    ⟨3600, 3630, .token 3⟩ ∈ s.results ∧ s.Covers 3 3631 := by
  have hp : (runList (guarded step (Prompt 5)) (.start 0) (connectsOnce ++ .tick 3600 :: asksTwice)).any (fun s =>
      decide (s.results = [⟨3600, 3630, .token 3⟩, ⟨3600, 3630, .token 3⟩])) = true := by
    decide
  obtain ⟨s, hrun, hs⟩ := exists_run_of_any hp
  have hr : (⟨3600, 3630, .token 3⟩ : Result) ∈ s.results := by
    rw [of_decide_eq_true hs]
    exact List.mem_cons_self
  have hprompt := run_of_guarded hrun
  exact ⟨s, hprompt, hr, returned_token_is_accepted (by decide) hprompt hr rfl (by decide)⟩

/-! ## The dead grant -/

/-- The condition on a step: nobody connects or disconnects. -/
def Untouched (_ : State) : Act → Prop
  | .upsert _ | .delete _ => False
  | _ => True

/-- The call was told that there is no grant, or none that is good. -/
def Result.refused (r : Result) : Prop := r.outcome = .needsReconnect ∨ r.outcome = .notConnected

/-- A step of which the provider knows nothing, and that hands out nothing. -/
structure State.Idle (s s' : State) : Prop where
  row : s'.row = s.row
  asked : s'.asked = s.asked
  results : ∃ new, s'.results = new ++ s.results ∧ ∀ r ∈ new, r.refused

section Dead

variable {s s' : State} {w : ℕ} {now : ℤ} {a : Act}

/-- Where no call ends. -/
theorem State.Idle.same (hrow : s'.row = s.row) (hasked : s'.asked = s.asked) (hresults : s'.results = s.results) :
    s.Idle s' :=
  ⟨hrow, hasked, [], hresults, fun _ hr => absurd hr List.not_mem_nil⟩

/-- Where a call is refused. -/
theorem State.Idle.refuse {outcome : Outcome} (houtcome : outcome = .needsReconnect ∨ outcome = .notConnected) :
    s.Idle (s.reply w now outcome) := by
  refine ⟨rfl, rfl, [⟨now, s.clock, outcome⟩], rfl, fun r hr => ?_⟩
  rw [List.mem_singleton.mp hr]
  exact houtcome

/-- While the grant is dead, a step asks nobody. -/
theorem idle_step (h : Sound s) {row : Row} (hrow : s.row = some row) (hdead : row.invalid_at.isSome = true)
    (hok : Untouched s a) (hs : Grants.step s a = some s') : s.Idle s' := by
  -- Nobody has the lock of a dead row, so that no call is about to ask or to write.
  have hfree : ∀ w call, s.calls w = some call → call.locked = false := by
    intro w call hcall
    rw [← Bool.not_eq_true]
    intro hlocked
    obtain ⟨row', hrow', hvalid⟩ := h.row w ((h.holder w).mpr (by rw [hcall]; exact hlocked))
    obtain rfl := Option.some_inj.mp (hrow.symm.trans hrow')
    rw [hvalid] at hdead
    contradiction
  cases a with
  | select w =>
    simp only [Grants.step] at hs
    split at hs
    · split at hs
      · obtain rfl := Option.some_inj.mp hs
        exact .same rfl rfl rfl
      · obtain rfl := Option.some_inj.mp hs
        exact .refuse (.inr rfl)
    · contradiction
  | lock w =>
    simp only [Grants.step] at hs
    split at hs
    · next now insertion hcall =>
      rw [hrow] at hs
      dsimp only at hs
      split at hs
      · rw [Option.ite_none_right_eq_some] at hs
        obtain ⟨-, hs⟩ := hs
        obtain rfl := Option.some_inj.mp hs
        rw [State.read, if_pos hdead]
        exact .refuse (.inl rfl)
      · obtain rfl := Option.some_inj.mp hs
        exact .refuse (.inr rfl)
    · contradiction
  | answer w a =>
    simp only [Grants.step] at hs
    split at hs
    · next hcall => exact absurd (hfree w _ hcall) Bool.noConfusion
    · contradiction
  | store w =>
    simp only [Grants.step] at hs
    split at hs
    · next hcall _ => exact absurd (hfree w _ hcall) Bool.noConfusion
    · contradiction
  | mark w =>
    simp only [Grants.step] at hs
    split at hs
    · next hcall _ => exact absurd (hfree w _ hcall) Bool.noConfusion
    · contradiction
  | upsert | delete => exact absurd hok id
  | tick | begin | crash | exchange | send | abandon | revoke | drop =>
    simp only [Grants.step] at hs
    repeat' split at hs
    all_goals first
      | contradiction
      | (obtain rfl := Option.some_inj.mp hs
         exact .same rfl rfl rfl)

end Dead

/-- A grant that was found dead stays marked until the person connects or disconnects: until then no worker asks the
provider, and every call of `get_access_token` is refused, also those that waited for the lock when the mark was
written. -/
theorem dead_grant_stays {clock : ℤ} {s s' : State} (h : Run step Always (.start clock) s) {row : Row}
    (hrow : s.row = some row) (hdead : row.invalid_at.isSome = true) (h' : Run step Untouched s s') :
    s'.row = some row ∧ s'.asked = s.asked ∧ ∃ new, s'.results = new ++ s.results ∧ ∀ r ∈ new, r.refused := by
  have hsound : Sound s := h.invariant (.start clock) fun _ _ _ hsound _ hs => hsound.step hs
  have hidle : Sound s' ∧ s'.row = some row ∧ s.Idle s' := by
    refine h'.invariant (I := fun t => Sound t ∧ t.row = some row ∧ s.Idle t) ⟨hsound, hrow, .same rfl rfl rfl⟩ ?_
    intro t a t' hinv hok hs
    obtain ⟨htsound, htrow, hidle⟩ := hinv
    have hnext := idle_step htsound htrow hdead hok hs
    refine ⟨htsound.step hs, hnext.row.trans htrow, hnext.row.trans hidle.row, hnext.asked.trans hidle.asked, ?_⟩
    obtain ⟨new, hnew, hrefused⟩ := hidle.results
    obtain ⟨newer, hnewer, hrefused'⟩ := hnext.results
    refine ⟨newer ++ new, by rw [hnewer, hnew, List.append_assoc], fun r hr => ?_⟩
    rcases List.mem_append.mp hr with hr | hr
    · exact hrefused' r hr
    · exact hrefused r hr
  exact ⟨hidle.2.1, hidle.2.2.asked, hidle.2.2.results⟩

/-- The provider has dropped the token; of two workers that ask, the first marks the row and the second is refused. -/
theorem dead_grant_stays_for_second : ∃ s s', Run step Always (.start 0) s ∧ step s (.lock 1) = some s' ∧
    s'.row = s.row ∧ s'.asked = 1 := by
  have hp : (runList step (.start 0) (connectsOnce ++ [.drop 0, .tick 3600, .begin 0, .begin 1, .select 0, .select 1,
      .lock 0, .answer 0 .invalid, .mark 0])).any (fun s => s.asked == 1 &&
        (s.row.any fun row => row.invalid_at.isSome) && (step s (.lock 1)).isSome) = true := by
    decide
  obtain ⟨s, hrun, hs⟩ := exists_run_of_any hp
  simp only [Bool.and_eq_true, Option.any_eq_true, beq_iff_eq] at hs
  obtain ⟨⟨hasked, row, hrow, hdead⟩, hnext⟩ := hs
  obtain ⟨s', hs'⟩ := Option.isSome_iff_exists.mp hnext
  obtain ⟨hrow', hasked', -⟩ := dead_grant_stays hrun hrow hdead (Run.start.next (.lock 1) trivial hs')
  exact ⟨s, s', hrun, hs', hrow'.trans hrow.symm, hasked'.trans hasked⟩

end JobScripts.Mail.Grants

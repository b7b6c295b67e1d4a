import JobScripts.Lib.Decimals
import JobScripts.Lib.Run
import Mathlib.Algebra.Order.Field.Rat

/-!
# The pace of a host

`api/hosts.py`: workers that share an address share a row of `host_budget`, the pace and the next slot of a host.
`take` reserves the slot, `refused` doubles the pace after a refusal and reserves the doubled gap, `succeeded` lowers
the pace towards the configured floor. Each statement is a step, and the floor may be configured anew beside them.
A time is a `timestamptz`, in microseconds, and `make_interval` rounds a gap to them, so a distance is kept to half a
microsecond.

A refusal writes its slot over the one that is reserved. Where its gap ends later than that, and the floor is not
above the cap, takes keep their distance (`takes_keep_their_distance`); a late refusal may move the slot back
(`slot_moved_back`), and one of a host whose floor is above the cap takes its pace below the floor.
-/

namespace JobScripts.Fetching.Pace

open Lib

/-! ## The statements -/

/-- The least gap that a refusal opens, `REFUSED_MIN_SECONDS`. -/
def refusedMinSeconds : ℚ := 30

/-- The longest gap that a refusal opens, `CAP_SECONDS`. -/
def capSeconds : ℚ := 900

/-- What a success multiplies the pace by, `DECAY`. -/
def decay : ℚ := 9 / 10

/-- The microseconds of `make_interval(secs => …)`: it rounds to them, ties to even. -/
def microseconds (secs : ℚ) : ℤ := Decimals.halfEven (secs * 1000000)

/-- What the row of `host_budget` keeps for one host and address: the gap to leave after a take, and the moment from
which the next one may be. -/
structure Budget where
  pace_seconds : ℚ
  next_allowed_at : ℤ

/-- What a call did, known to the proofs. -/
inductive Event
  /-- A take at a time, with the pace in force. -/
  | taken (time : ℤ) (pace : ℚ)
  /-- A refusal, the gap that it opened, and the pace and the floor before it. -/
  | refused (time : ℤ) (gap pace : ℚ) (floor : ℕ)
  deriving DecidableEq

/-- The row of one host and address, the configured floor and the clock; the last event is first. -/
structure State where
  now : ℤ
  floor : ℕ
  budget : Option Budget
  events : List Event

/-- Nothing is taken yet. -/
def State.start (floor : ℕ) : State := ⟨0, floor, none, []⟩

/-- What can happen next. -/
inductive Act
  /-- The floor is configured. -/
  | configure (floor : ℕ)
  /-- The `INSERT` of `take`, with the floor that it read. -/
  | insert (floor : ℕ)
  /-- The `UPDATE` of `take`. -/
  | take
  /-- The `UPDATE` of `refused`. -/
  | refused
  /-- The `UPDATE` of `succeeded`, with the floor that it read. -/
  | succeeded (floor : ℕ)

/-- The gap that a refusal opens. -/
def Budget.gap (b : Budget) : ℚ := min capSeconds (max (b.pace_seconds * 2) refusedMinSeconds)

/-- The `INSERT … ON CONFLICT DO UPDATE` of `take`; `next_allowed_at` is `now()` by default. -/
def insert (now : ℤ) (floor : ℕ) : Option Budget → Budget
  | none => ⟨floor, now⟩
  | some b => { b with pace_seconds := max b.pace_seconds floor }

/-- One statement at a time. -/
def step (s : State) (a : ℤ × Act) : Option State :=
  if s.now ≤ a.1 then
    match a.2 with
    | .configure floor => some { s with now := a.1, floor := floor }
    | .insert floor => some { s with now := a.1, budget := some (insert a.1 floor s.budget) }
    | .take =>
      match s.budget with
      | some b =>
        if b.next_allowed_at ≤ a.1 then
          some { s with
            now := a.1
            budget := some { b with next_allowed_at := a.1 + microseconds b.pace_seconds }
            events := .taken a.1 b.pace_seconds :: s.events }
        else some { s with now := a.1 }
      | none => some { s with now := a.1 }
    | .refused =>
      match s.budget with
      | some b =>
        some { s with
          now := a.1
          budget := some ⟨b.gap, a.1 + microseconds b.gap⟩
          events := .refused a.1 b.gap b.pace_seconds s.floor :: s.events }
      | none => some { s with now := a.1, events := .refused a.1 refusedMinSeconds 0 s.floor :: s.events }
    | .succeeded floor =>
      match s.budget with
      | some b =>
        some { s with
          now := a.1
          budget := some { b with pace_seconds := max floor (b.pace_seconds * decay) } }
      | none => some { s with now := a.1 }
  else none

/-! ## What is promised -/

/-- The moment of an event, in microseconds. -/
def Event.time : Event → ℤ
  | .taken time _ => time
  | .refused time _ _ _ => time

/-- The seconds that no take may come in after an event: the pace in force, or the gap that a refusal opened. -/
def Event.gap : Event → ℚ
  | .taken _ pace => pace
  | .refused _ gap _ _ => gap

/-- A take comes after the gap of an earlier event, which ends at the nearest microsecond. -/
def Event.After : Event → Event → Prop
  | .taken time _, earlier => earlier.gap * 1000000 ≤ time - earlier.time + 1 / 2
  | .refused _ _ _ _, _ => True

/-- A refusal at least doubles the pace, up to the cap, and opens no gap below the floor. -/
def Event.Doubles : Event → Prop
  | .taken _ _ => True
  | .refused _ gap pace floor => min capSeconds (pace * 2) ≤ gap ∧ (floor : ℚ) ≤ gap

/-- A pace between the floor and the cap, where the floor is not above it. -/
def Within (floor : ℕ) (pace : ℚ) : Prop := (floor : ℚ) ≤ pace ∧ ((floor : ℚ) ≤ capSeconds → pace ≤ capSeconds)

/-- Takes keep their distance. -/
structure Paced (s : State) : Prop where
  /-- Every take comes after the gaps that earlier takes and refusals opened. -/
  after : s.events.Pairwise Event.After
  doubles : ∀ e ∈ s.events, e.Doubles
  within : ∀ b ∈ s.budget, Within s.floor b.pace_seconds

/-- A refusal comes after the first take, its gap ends after the slot that is reserved, and the floor is not above the
cap; a call reads the floor that is configured when its statement runs; a floor is configured that the pace meets. -/
def Timely (s : State) (a : ℤ × Act) : Prop :=
  match a.2 with
  | .configure floor => ∀ b ∈ s.budget, Within floor b.pace_seconds
  | .insert floor => floor = s.floor
  | .take => True
  | .refused => (∃ b ∈ s.budget, b.next_allowed_at ≤ a.1 + microseconds b.gap) ∧ (s.floor : ℚ) ≤ capSeconds
  | .succeeded floor => floor = s.floor

/-! ## Takes keep their distance -/

section Runs

variable {s s' : State} {a : ℤ × Act} {floor : ℕ} {b : Budget}

/-- The slot that an event reserves. -/
def Event.opens (e : Event) : ℤ := e.time + microseconds e.gap

/-- What the slot says of the past: it opens after every gap. -/
structure Inv (s : State) : Prop extends Paced s where
  opens : ∀ e ∈ s.events, ∃ b ∈ s.budget, e.opens ≤ b.next_allowed_at

/-- A take from the slot that an event reserved comes after its gap. -/
theorem after_of_opens {earlier : Event} {now : ℤ} {pace : ℚ} (h : earlier.opens ≤ now) :
    (Event.taken now pace).After earlier := by
  have hround : earlier.gap * 1000000 - microseconds earlier.gap ≤ 1 / 2 := Decimals.sub_halfEven_le _
  have hopens : (earlier.time : ℚ) + microseconds earlier.gap ≤ now := by exact_mod_cast h
  show earlier.gap * 1000000 ≤ now - earlier.time + 1 / 2
  linarith

/-- The slot does not move back. -/
def SlotKept (s s' : State) : Prop :=
  ∀ b ∈ s.budget, ∃ b' ∈ s'.budget, b.next_allowed_at ≤ b'.next_allowed_at

/-- Raising a pace to the floor leaves it within the bounds. -/
theorem within_max {pace : ℚ} (h : (floor : ℚ) ≤ capSeconds → pace ≤ capSeconds) : Within floor (max floor pace) :=
  ⟨le_max_left _ _, fun hfloor => max_le hfloor (h hfloor)⟩

/-- Lowering a pace leaves it below the cap. -/
theorem decay_le (hb : Within floor b.pace_seconds) (hfloor : (floor : ℚ) ≤ capSeconds) :
    b.pace_seconds * decay ≤ capSeconds := by
  have hcap := hb.2 hfloor
  unfold decay
  have hnonneg : (0 : ℚ) ≤ b.pace_seconds := le_trans (Nat.cast_nonneg floor) hb.1
  linarith

/-- The gap of a refusal is within the bounds, and doubles the pace. -/
theorem gap_bounds (hb : Within floor b.pace_seconds) (hfloor : (floor : ℚ) ≤ capSeconds) :
    Within floor b.gap ∧ min capSeconds (b.pace_seconds * 2) ≤ b.gap := by
  have hnonneg : (0 : ℚ) ≤ b.pace_seconds := le_trans (Nat.cast_nonneg floor) hb.1
  unfold Budget.gap
  refine ⟨⟨le_min hfloor (le_max_of_le_left ?_), fun _ => min_le_left _ _⟩, ?_⟩
  · linarith [hb.1]
  · exact min_le_min le_rfl (le_max_left _ _)

/-- A floor that is configured, or a call that changes only the pace. -/
theorem Inv.of_pace (h : Inv s) (hevents : s'.events = s.events) (hkept : SlotKept s s')
    (hwithin : ∀ b ∈ s'.budget, Within s'.floor b.pace_seconds) : Inv s' where
  after := by
    rw [hevents]
    exact h.after
  doubles := by
    rw [hevents]
    exact h.doubles
  within := hwithin
  opens e he := by
    rw [hevents] at he
    obtain ⟨b, hb, hopens⟩ := h.opens e he
    obtain ⟨b', hb', hle⟩ := hkept b hb
    exact ⟨b', hb', hopens.trans hle⟩

/-- An event whose gap is the new slot. -/
theorem Inv.cons (h : Inv s) {e : Event} (hevents : s'.events = e :: s.events) (hkept : SlotKept s s')
    (hwithin : ∀ b ∈ s'.budget, Within s'.floor b.pace_seconds) (hdoubles : e.Doubles)
    (hafter : ∀ e' ∈ s.events, e.After e') (hopens : ∃ b ∈ s'.budget, e.opens ≤ b.next_allowed_at) : Inv s' where
  after := by
    rw [hevents]
    exact .cons hafter h.after
  doubles e' he := by
    rw [hevents] at he
    rcases List.mem_cons.mp he with rfl | he
    · exact hdoubles
    · exact h.doubles e' he
  within := hwithin
  opens e' he := by
    rw [hevents] at he
    rcases List.mem_cons.mp he with rfl | he
    · exact hopens
    · obtain ⟨b, hb, hle⟩ := h.opens e' he
      obtain ⟨b', hb', hle'⟩ := hkept b hb
      exact ⟨b', hb', hle.trans hle'⟩

/-- A slot that is not written is kept. -/
theorem slotKept_of_eq (hbudget : s'.budget = s.budget) : SlotKept s s' := by
  intro b hb
  exact ⟨b, by rw [hbudget]; exact hb, le_rfl⟩

/-- A row that is written keeps the slot, if it does. -/
theorem slotKept_of_le (hb : s.budget = some b) (now : ℤ) (events : List Event) (b' : Budget)
    (hle : b.next_allowed_at ≤ b'.next_allowed_at) :
    SlotKept s { s with now := now, budget := some b', events := events } := by
  intro c hc
  obtain rfl : b = c := Option.some_inj.mp (hb.symm.trans hc)
  exact ⟨b', rfl, hle⟩

/-- A timely step keeps the invariant, and the slot. -/
theorem Inv.step (h : Inv s) (htimely : Timely s a) (hs : Pace.step s a = some s') : Inv s' ∧ SlotKept s s' := by
  obtain ⟨now, act⟩ := a
  rw [Pace.step, Option.ite_none_right_eq_some] at hs
  obtain ⟨-, hs⟩ := hs
  cases act with
  -- A floor is configured; the row is as it was.
  | configure floor =>
    obtain rfl := Option.some_inj.mp hs
    have hkept : SlotKept s { s with now := now, floor := floor } := slotKept_of_eq rfl
    exact ⟨h.of_pace rfl hkept htimely, hkept⟩
  -- The row is inserted, or its gap raised to the floor.
  | insert floor =>
    obtain rfl := Option.some_inj.mp hs
    obtain rfl : floor = s.floor := htimely
    have hkept : SlotKept s { s with now := now, budget := some (insert now s.floor s.budget) } := by
      intro b hb
      refine ⟨_, rfl, ?_⟩
      rw [Option.mem_def.mp hb]
      exact le_rfl
    refine ⟨h.of_pace rfl hkept fun b hb => ?_, hkept⟩
    obtain rfl := Option.some_inj.mp hb
    rcases hbudget : s.budget with _ | b
    · exact ⟨le_rfl, id⟩
    · show Within s.floor (max b.pace_seconds s.floor)
      rw [max_comm]
      exact within_max (h.within b hbudget).2
  -- A take, granted where the slot is open.
  | take =>
    dsimp only at hs
    split at hs
    · next b hbudget =>
      split at hs
      · next hopen =>
        obtain rfl := Option.some_inj.mp hs
        have hpace : (0 : ℚ) ≤ b.pace_seconds := le_trans (Nat.cast_nonneg s.floor) (h.within b hbudget).1
        have hgap : 0 ≤ microseconds b.pace_seconds :=
          Decimals.halfEven_nonneg (mul_nonneg hpace (by norm_num))
        have hkept := slotKept_of_le hbudget now (.taken now b.pace_seconds :: s.events)
          { b with next_allowed_at := now + microseconds b.pace_seconds }
          (show b.next_allowed_at ≤ now + microseconds b.pace_seconds by omega)
        refine ⟨h.cons rfl hkept (fun c hc => ?_) trivial (fun e he => ?_) ⟨_, rfl, le_rfl⟩, hkept⟩
        · obtain rfl := Option.some_inj.mp hc
          exact h.within b hbudget
        · -- The slot was open, so every gap has passed.
          obtain ⟨c, hc, hle⟩ := h.opens e he
          obtain rfl : b = c := Option.some_inj.mp (hbudget.symm.trans hc)
          exact after_of_opens (hle.trans hopen)
      · obtain rfl := Option.some_inj.mp hs
        exact ⟨h.of_pace rfl (slotKept_of_eq rfl) h.within, slotKept_of_eq rfl⟩
    · obtain rfl := Option.some_inj.mp hs
      exact ⟨h.of_pace rfl (slotKept_of_eq rfl) h.within, slotKept_of_eq rfl⟩
  -- A refusal doubles the gap, within its floor and cap.
  | refused =>
    obtain ⟨⟨b, hbudget, hlater⟩, hfloor⟩ := htimely
    rw [Option.mem_def] at hbudget
    rw [hbudget] at hs
    obtain rfl := Option.some_inj.mp hs
    obtain ⟨hwithin, hdouble⟩ := gap_bounds (h.within b hbudget) hfloor
    have hkept := slotKept_of_le hbudget now (.refused now b.gap b.pace_seconds s.floor :: s.events)
      ⟨b.gap, now + microseconds b.gap⟩ hlater
    refine ⟨h.cons rfl hkept (fun c hc => ?_) ⟨hdouble, hwithin.1⟩ (fun _ _ => trivial) ⟨_, rfl, le_rfl⟩, hkept⟩
    obtain rfl := Option.some_inj.mp hc
    exact hwithin
  -- A success lets the gap fall again, not below the floor.
  | succeeded floor =>
    obtain rfl : floor = s.floor := htimely
    dsimp only at hs
    split at hs
    · next b hbudget =>
      obtain rfl := Option.some_inj.mp hs
      have hkept := slotKept_of_le hbudget now s.events
        { b with pace_seconds := max s.floor (b.pace_seconds * decay) } le_rfl
      refine ⟨h.of_pace rfl hkept fun c hc => ?_, hkept⟩
      obtain rfl := Option.some_inj.mp hc
      exact within_max (decay_le (h.within b hbudget))
    · obtain rfl := Option.some_inj.mp hs
      exact ⟨h.of_pace rfl (slotKept_of_eq rfl) h.within, slotKept_of_eq rfl⟩

/-- The invariant holds where nothing is taken. -/
theorem Inv.start (floor : ℕ) : Inv (.start floor) where
  after := .nil
  doubles := nofun
  within := nofun
  opens := nofun

/-- It holds along every timely run. -/
theorem Inv.run (h : Run Pace.step Timely (.start floor) s) : Inv s :=
  h.invariant (Inv.start floor) fun _ _ _ hinv htimely hs => (hinv.step htimely hs).1

end Runs

/-- In every timely run takes keep the distance of the pace in force and of the gaps that refusals open, and from any
state of it to a later one the slot does not move back. -/
theorem takes_keep_their_distance {floor : ℕ} {s s' : State} (h : Run step Timely (.start floor) s)
    (h' : Run step Timely s s') : Paced s' ∧ SlotKept s s' := by
  refine ⟨(Inv.run (h.trans h')).toPaced, ?_⟩
  have hboth : Inv s' ∧ SlotKept s s' := by
    refine h'.invariant (I := fun s' => Inv s' ∧ SlotKept s s') ⟨Inv.run h, slotKept_of_eq rfl⟩ ?_
    intro t a t' ⟨hinv, hkept⟩ htimely hs
    obtain ⟨hinv', hkept'⟩ := hinv.step htimely hs
    refine ⟨hinv', fun b hb => ?_⟩
    obtain ⟨c, hc, hle⟩ := hkept b hb
    obtain ⟨d, hd, hle'⟩ := hkept' c hc
    exact ⟨d, hd, hle.trans hle'⟩
  exact hboth.2

/-! ## Runs -/

instance (e e' : Event) : Decidable (e.After e') := by
  cases e with
  | taken time _ => exact inferInstanceAs (Decidable (e'.gap * 1000000 ≤ time - e'.time + 1 / 2))
  | refused => exact inferInstanceAs (Decidable True)

instance (floor : ℕ) (pace : ℚ) : Decidable (Within floor pace) :=
  inferInstanceAs (Decidable (_ ∧ (_ → _)))

instance (s : State) (a : ℤ × Act) : Decidable (Timely s a) := by
  obtain ⟨now, act⟩ := a
  cases act with
  | configure floor => exact inferInstanceAs (Decidable (∀ b ∈ s.budget, Within floor b.pace_seconds))
  | insert floor => exact inferInstanceAs (Decidable (floor = s.floor))
  | take => exact inferInstanceAs (Decidable True)
  | refused =>
    exact inferInstanceAs
      (Decidable ((∃ b ∈ s.budget, b.next_allowed_at ≤ now + microseconds b.gap) ∧ (s.floor : ℚ) ≤ capSeconds))
  | succeeded floor => exact inferInstanceAs (Decidable (floor = s.floor))

/-- A host with a floor of 20 seconds is taken, refuses, and is taken again when the gap has passed. And one without a
floor refuses twice and takes eight successes, so that its pace is 12.9140163 seconds: the take at 30 reserves the slot
from 42.914016, the microsecond next to the pace, and is followed by a take right there. -/
theorem takes_keep_their_distance_refused :
    (∃ s, Run step Timely (.start 20) s ∧
      s.events = [.taken 41000000 40, .refused 1000000 40 20 20, .taken 0 20] ∧ Paced s ∧ SlotKept (.start 20) s) ∧
    ∃ s, Run step Timely (.start 0) s ∧
      s.events = [.taken 42914016 (129140163 / 10000000), .taken 30000000 (129140163 / 10000000),
        .refused 0 30 0 0, .taken 0 0] ∧ Paced s ∧ SlotKept (.start 0) s := by
  constructor
  · let acts : List (ℤ × Act) := [(0, .insert 20), (0, .take), (1000000, .refused), (40000000, .insert 20),
      (40000000, .take), (41000000, .insert 20), (41000000, .take)]
    have hp : (runList (guarded step Timely) (.start 20) acts).any (fun s =>
        decide (s.events = [.taken 41000000 40, .refused 1000000 40 20 20, .taken 0 20])) = true := by
      decide +kernel
    obtain ⟨s, hrun, hs⟩ := exists_run_of_any hp
    have htimely := run_of_guarded hrun
    exact ⟨s, htimely, of_decide_eq_true hs, takes_keep_their_distance .start htimely⟩
  · let acts : List (ℤ × Act) := [(0, .insert 0), (0, .take), (0, .refused)] ++
      List.replicate 8 (20000000, .succeeded 0) ++ [(29999999, .insert 0), (29999999, .take), (30000000, .insert 0),
        (30000000, .take), (42914015, .insert 0), (42914015, .take), (42914016, .insert 0), (42914016, .take)]
    have hp : (runList (guarded step Timely) (.start 0) acts).any (fun s =>
        decide (s.events = [.taken 42914016 (129140163 / 10000000), .taken 30000000 (129140163 / 10000000),
          .refused 0 30 0 0, .taken 0 0])) = true := by
      decide +kernel
    obtain ⟨s, hrun, hs⟩ := exists_run_of_any hp
    have htimely := run_of_guarded hrun
    exact ⟨s, htimely, of_decide_eq_true hs, takes_keep_their_distance .start htimely⟩

/-- Twelve pulls of an unpaced host begin at once. Two are refused, so that the next take, after a minute, reserves
the minute that follows; seven succeed, and the gap of the last refusal ends before that minute does. And a refusal
takes the pace of a host whose floor is above the cap below the floor. -/
theorem slot_moved_back :
    (∃ s, Run step Always (.start 0) s ∧ ¬s.events.Pairwise Event.After) ∧
      ∃ s, Run step Always (.start 1000) s ∧ ¬∀ b ∈ s.budget, Within s.floor b.pace_seconds := by
  constructor
  · let pulls : List (ℤ × Act) := (List.replicate 12 [(0, .insert 0), (0, .take)]).flatten
    let acts : List (ℤ × Act) := pulls ++ [(1000000, .refused), (1000000, .refused), (61000000, .insert 0),
      (61000000, .take)] ++ List.replicate 7 (62000000, .succeeded 0) ++
        [(62000000, .refused), (120000000, .insert 0), (120000000, .take)]
    have hp : (runList step (.start 0) acts).any (fun s => !decide (s.events.Pairwise Event.After)) = true := by
      decide +kernel
    obtain ⟨s, hrun, hs⟩ := exists_run_of_any hp
    rw [Bool.not_eq_true', decide_eq_false_iff_not] at hs
    exact ⟨s, hrun, hs⟩
  · let acts : List (ℤ × Act) := [(0, .insert 1000), (0, .take), (1000000, .refused)]
    have hp : (runList step (.start 1000) acts).any (fun s =>
        !decide (∀ b ∈ s.budget, Within s.floor b.pace_seconds)) = true := by
      decide +kernel
    obtain ⟨s, hrun, hs⟩ := exists_run_of_any hp
    rw [Bool.not_eq_true', decide_eq_false_iff_not] at hs
    exact ⟨s, hrun, hs⟩

end JobScripts.Fetching.Pace
